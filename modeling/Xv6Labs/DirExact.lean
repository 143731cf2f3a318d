import Xv6Labs.DirNlink

/-! Link counts in runs of system calls: the calls that only open, close and walk, and the
theorem about whole runs. -/
namespace Xv6Labs.Dir

variable {n : Nat} {s t : State n} {p : Fin n} {J J' L L' : List Slot} {d d' : Int} {i ip : Slot}

section Files

/-- Files and processes play no part in the tree. -/
theorem Good.regroup (h : Good s J L d) (hheld : Held t J' L' d') (hcache : t.icache = s.icache)
    (hdisk : t.disk = s.disk) (hn : t.ninodes = s.ninodes) : Good t J' L' d' := by
  refine ⟨hheld, ?_, ?_, ?_, ?_⟩
  · rw [hn, hdisk]
    exact h.tree
  · unfold Used
    rw [hdisk, hcache]
    exact h.used
  · unfold Loaded State.node
    rw [hdisk, hcache]
    exact h.loaded
  · rw [hn]
    exact h.fits

theorem Good.setOfile (h : Good s J L d) (p : Fin n) (fd : Fin NOFILE) (f : Option FileId) :
    Good (s.setOfile p fd f) J L d :=
  h.regroup (h.held.setOfile p fd f) rfl rfl rfl

theorem filedup_good (h : Good s J L d) (f : FileId) :
    Yields Safe (fun t => Good t J L d ∧ t.proc = s.proc) (filedup s f) := by
  unfold filedup
  split
  · exact lenient_safe _ nofun nofun
  · refine ⟨h.regroup (h.held.setFileRef f _ rfl ?_) rfl rfl rfl, rfl⟩
    intro hz
    simp only at hz
    omega

/-- Closing a file without an inode, whatever locks are held. -/
theorem fileclose_good_none (h : Good s J L d) (f : FileId) (hnone : (s.file f).inode = none) :
    Yields Safe (fun t => Good t J L d) (fileclose s f) := by
  unfold fileclose
  simp only
  split
  · exact lenient_safe _ nofun nofun
  · split
    · refine h.regroup (h.held.setFileRef f _ rfl ?_) rfl rfl rfl
      intro hz
      simp only at hz
      omega
    · rw [hnone]
      exact h.regroup (h.held.setFileRef f _ (by rw [hnone]; rfl) (fun _ => rfl)) rfl rfl rfl

theorem fileclose_good (h : Good s J [] d) (f : FileId) :
    Yields Safe (fun t => Good t J [] d) (fileclose s f) := by
  cases hino : (s.file f).inode with
  | none => exact fileclose_good_none h f hino
  | some ip =>
    unfold fileclose
    simp only
    split
    · exact lenient_safe _ (by simp) (by simp)
    · split
      · refine h.regroup (h.held.setFileRef f _ rfl ?_) rfl rfl rfl
        intro hz
        simp only at hz
        omega
      · rw [hino]
        have hmoved :
            Held (s.setFile f { s.file f with ref := 0, type := .none }) (ip :: J) [] d := by
          refine h.held.setFile f _ (fun _ => rfl) ?_ (fun i hi => by cases hi)
          intro i
          rw [hino]
          simp only [File.inode, Option.toList_none, List.count_nil, Option.toList_some,
            List.count_cons]
          omega
        have hgood := h.regroup hmoved rfl rfl rfl
        exact (iput_good hgood.beginOp (by simp)).bind (fun t ht => ht.endOp)

theorem sysDup_good (h : Good s [] [] 0) (p : Fin n) (fd : Int) :
    Yields Safe (fun r => Good r.1 [] [] 0) (sysDup s p fd) := by
  unfold sysDup
  split
  · exact h
  · split
    · exact h
    · exact (filedup_good (h.setOfile p _ _) _).bind (fun t ht => ht.1)

theorem sysClose_good (h : Good s [] [] 0) (p : Fin n) (fd : Int) :
    Yields Safe (fun r => Good r.1 [] [] 0) (sysClose s p fd) := by
  unfold sysClose
  split
  · exact h
  · exact (fileclose_good (h.setOfile p _ none) _).bind (fun t ht => ht)

end Files

section Names

theorem createPut_good (h : Good s [] [] 0) (p : Fin n) (path : List UInt8) (type : Kind)
    (htype : type ≠ .free) (major minor : Int)
    (hok : ∀ x ∈ argstr path, CreateOk s p x type) :
    Yields Safe (fun r => Good r.1 [] [] 0) (createPut s p path type major minor) := by
  unfold createPut
  simp only
  split
  · exact h.beginOp.endOp
  · rename_i path hpath
    apply (create_good h.beginOp p path htype (hok path hpath)).bind
    rintro ⟨t, o⟩ ht
    cases o with
    | none => exact ht.endOp
    | some ip => exact (iunlockput_good ht).bind (fun u hu => hu.endOp)

/-- A new content for a locked inode that leaves its header and a directory's entries. -/
theorem Good.edit (h : Good s J L d) (hi : ip ∈ L) (b : Dinode) (htype : b.type = (s.node ip).type)
    (hnlink : b.nlink = (s.node ip).nlink)
    (hdir : (s.node ip).type = .dir → b.dirents = (s.node ip).dirents) :
    Good (s.setNode ip b) J L d := by
  refine ⟨h.held.edit hi b htype, ?_, ?_, h.loaded.setNode_locked h.held hi b, h.fits⟩
  · refine h.tree.congr (fun k => ?_)
    rw [setNode_disk]
    split
    · rename_i hk
      rw [hk]
      exact ⟨htype, hnlink, hdir⟩
    · exact ⟨rfl, rfl, fun _ => rfl⟩
  · intro k hk hn
    rw [setNode_disk] at hk hn
    split at hn
    · rename_i hki
      rw [if_pos hki, htype] at hk
      rw [hnlink] at hn
      rw [hki]
      exact h.used _ hk hn
    · rename_i hki
      rw [if_neg hki] at hk
      exact h.used k hk hn

theorem sysSymlink_good (h : Good s [] [] 0) (p : Fin n) (target path : List UInt8)
    (hok : ∀ x ∈ argstr path, CreateOk s p x .symlink) :
    Yields Safe (fun r => Good r.1 [] [] 0) (sysSymlink s p target path) := by
  unfold sysSymlink
  split
  · rename_i target path _ hpath
    have htype : Kind.symlink ≠ .free := nofun
    apply (create_good h.beginOp p path htype (hok path hpath)).bind
    rintro ⟨t, o⟩ ht
    cases o with
    | none => exact ht.endOp
    | some ip =>
      refine (iunlockput_good (Good.edit ht List.mem_cons_self _ ?_ ?_ ?_)).bind ?_
      · rfl
      · rfl
      · exact fun _ => rfl
      · exact fun u hu => hu.endOp
  · exact h

theorem sysChdir_good (h : Good s [] [] 0) (p : Fin n) (path : List UInt8)
    (hp : (s.proc p).state = .running)
    (hok : ∀ x ∈ argstr path, Sound s (pathWalk s p false x).1) :
    Yields Safe (fun r => Good r.1 [] [] 0) (sysChdir s p path) := by
  unfold sysChdir
  simp only
  split
  · exact h.beginOp.endOp
  · rename_i path hpath
    apply (namei_quiet h.beginOp.quiet p path (hok path hpath)).bind
    rintro ⟨t, o⟩ ⟨ht, hcalm, hres⟩
    cases o with
    | none => exact Good.endOp (d := 0) (ht.good_of_calm hcalm h.tree h.fits)
    | some ip =>
      have hres' : some (t.icache ip).inum = ((pathWalk s p false path).2).map Prod.fst := hres
      obtain ⟨x, hx, hinum⟩ := Option.map_eq_some_iff.mp hres'.symm
      have htype : (t.node ip).type ≠ .free := by
        unfold State.node
        rw [hcalm.disk, ← hinum]
        exact hok path hpath _ (walk_result_mem _ _ _ _ _ x.2 hx)
      apply (ilock_quiet ht ip htype).bind
      rintro u ⟨hu, hcalmu, -⟩
      have hsu : Calm [] (beginOp s) u := hcalm.trans hcalmu.nil
      split
      · apply (iunlockput_quiet hu).bind
        rintro v ⟨hv, hcalmv⟩
        exact Good.endOp (d := 0) (hv.good_of_calm (hsu.trans hcalmv.nil) h.tree h.fits)
      · apply (iunlock_quiet hu).bind
        rintro v ⟨hv, hcalmv⟩
        have hsv : Calm [] (beginOp s) v := hsu.trans hcalmv.nil
        have hstate : (v.proc p).state = .running := by
          rw [hsv.proc]
          exact hp
        have halloc : (v.node ip).type ≠ .free := by
          rw [hcalmv.node (Or.inl List.mem_cons_self)]
          exact hu.held.locked_alloc List.mem_cons_self
        split
        · exact lenient_safe _ nofun nofun
        · rename_i c hc
          have hnew : Held (v.setProc p { v.proc p with cwd := some ip }) [c] [] 1 := by
            refine hv.held.setProc p _ (fun hne => absurd hstate hne) ?_ ?_
            · intro i
              rw [hc]
              simp only [Option.toList_some, List.append_nil]
              omega
            · intro i hi _
              cases hi
              exact halloc
          have hgood := (hv.good_of_calm hsv h.tree h.fits).regroup hnew rfl rfl rfl
          apply (iput_then_setProc _ (iput_good hgood nofun)).bind
          rintro w ⟨hw, hwproc⟩
          have hset : w.setCwd p (some ip) = w.setProc p { v.proc p with cwd := some ip } := by
            unfold State.setCwd
            rw [hwproc]
          change Good (endOp (w.setCwd p (some ip))) [] [] 0
          rw [hset]
          exact hw.endOp

end Names

section Open

/-- The inodes that sys_open comes by when it does not create: those on the way of each path
that it looks up. -/
def openWalk (s : State n) (p : Fin n) (omode : Nat) : Nat → List UInt8 → List Nat
  | left, buf =>
    let r := pathWalk s p false (cstring buf)
    match r.2 with
    | none => r.1
    | some (k, _) =>
      if (s.disk k).type = .symlink ∧ ¬has omode O_NOFOLLOW then
        match left with
        | 0 => r.1
        | left+1 => r.1 ++ openWalk s p omode left (readPath (s.disk k) buf)
      else r.1

theorem pathWalk_calm (h : Calm J s t) (p : Fin n) (parent : Bool) (path : Path) :
    pathWalk t p parent path = pathWalk s p parent path := by
  unfold pathWalk
  rw [h.startInum, h.disk]

theorem openWalk_calm (h : Calm J s t) (p : Fin n) (omode left : Nat) (buf : List UInt8) :
    openWalk t p omode left buf = openWalk s p omode left buf := by
  induction left generalizing buf with
  | zero =>
    unfold openWalk
    simp only [pathWalk_calm h, h.disk]
  | succ left ih =>
    unfold openWalk
    simp only [pathWalk_calm h, h.disk, ih]

theorem Sound.calm (h : Sound s ks) (hcalm : Calm J s t) : Sound t ks := by
  intro k hk
  rw [hcalm.disk]
  exact h k hk

/-- A round of sys_open's loop finds what the path leads to. -/
theorem openRound_quiet (h : Quiet s [] [] d) (p : Fin n) (path : Path) (omode : Nat)
    (hsound : Sound s (pathWalk s p false path).1) :
    Yields Safe (fun r => Quiet r.1 (r.2.map Prod.fst).toList (r.2.map Prod.fst).toList d ∧
      Calm [] s r.1 ∧
      ∀ x ∈ r.2, (pathWalk s p false path).2.map Prod.fst = some (r.1.icache x.1).inum ∧
        (x.2 = true → (r.1.node x.1).type = .symlink ∧ ¬has omode O_NOFOLLOW))
      (openRound s p path omode) := by
  apply (namei_quiet h p path hsound).bind
  rintro ⟨t, o⟩ ⟨ht, hcalm, hres⟩
  cases o with
  | none => exact ⟨ht, hcalm, nofun⟩
  | some ip =>
    simp only [Option.map_some] at hres
    obtain ⟨x, hx, hinum⟩ := Option.map_eq_some_iff.mp hres.symm
    have htype : (t.node ip).type ≠ .free := by
      unfold State.node
      rw [hcalm.disk, ← hinum]
      exact hsound _ (walk_result_mem _ _ _ _ _ x.2 hx)
    apply (ilock_quiet ht ip htype).bind
    rintro u ⟨hu, hcalmu, -⟩
    refine ⟨hu, hcalm.trans hcalmu.nil, ?_⟩
    intro y hy
    cases hy
    refine ⟨?_, ?_⟩
    · rw [← hres]
      exact congrArg some (hcalmu.inums ip (Or.inl List.mem_cons_self)).symm
    · intro hfollow
      simpa using hfollow

theorem openLoop_quiet (p : Fin n) (omode left : Nat) (buf : List UInt8) (h : Quiet s [] [] d)
    (hsound : Sound s (openWalk s p omode left buf)) :
    Yields Safe (fun r => Quiet r.1 r.2.toList r.2.toList d ∧ Calm [] s r.1)
      (openLoop p omode left buf s) := by
  -- the inodes of the first path are among those that the loop comes by
  have hfirst (left : Nat) (buf : List UInt8) (hs : Sound s (openWalk s p omode left buf)) :
      Sound s (pathWalk s p false (cstring buf)).1 := by
    intro k hk
    apply hs
    unfold openWalk
    simp only
    split
    · exact hk
    · split
      · cases left with
        | zero => exact hk
        | succ left => exact List.mem_append_left _ hk
      · exact hk
  induction left generalizing s buf with
  | zero =>
    unfold openLoop
    apply (openRound_quiet h p _ omode (hfirst 0 buf hsound)).bind
    rintro ⟨t, o⟩ ⟨ht, hcalm, -⟩
    rcases o with _ | ⟨ip, _ | _⟩
    · exact ⟨ht, hcalm⟩
    · exact ⟨ht, hcalm⟩
    · apply (iunlockput_quiet ht).bind
      rintro u ⟨hu, hcalmu⟩
      exact ⟨hu, hcalm.trans hcalmu.nil⟩
  | succ left ih =>
    unfold openLoop
    apply (openRound_quiet h p _ omode (hfirst _ buf hsound)).bind
    rintro ⟨t, o⟩ ⟨ht, hcalm, hlink⟩
    rcases o with _ | ⟨ip, _ | _⟩
    · exact ⟨ht, hcalm⟩
    · exact ⟨ht, hcalm⟩
    · obtain ⟨hres, hfollow⟩ := hlink _ rfl
      obtain ⟨x, hx, hinum⟩ := Option.map_eq_some_iff.mp hres
      have hnode : t.node ip = s.disk x.1 := by
        unfold State.node
        rw [hcalm.disk, hinum]
      have hfollow' := hfollow rfl
      simp only [hnode] at hfollow' ⊢
      apply (iunlockput_quiet ht).bind
      rintro u ⟨hu, hcalmu⟩
      have hsu : Calm [] s u := hcalm.trans hcalmu.nil
      have hrest : Sound s (openWalk s p omode left (readPath (s.disk x.1) buf)) := by
        intro k hk
        apply hsound
        rw [openWalk, hx]
        simp only
        rw [if_pos hfollow']
        exact List.mem_append_right _ hk
      have hwalk := ih (readPath (s.disk x.1) buf) hu (by
        rw [openWalk_calm hsu]
        exact hrest.calm hsu) ?_
      · apply hwalk.mono
        rintro r ⟨hr, hcalmr⟩
        exact ⟨hr, hsu.trans hcalmr⟩
      · intro left' buf' hs
        rw [pathWalk_calm hsu]
        rw [openWalk_calm hsu] at hs
        refine Sound.calm (hfirst left' buf' ?_) hsu
        intro k hk
        rw [← hsu.disk]
        exact hs k hk

/-- The condition for sys_open. -/
def OpenOk (s : State n) (p : Fin n) (path : Path) (omode : Nat) (stack : List UInt8) : Prop :=
  if has omode O_CREATE then CreateOk s p path .file
  else Sound s (openWalk s p omode MAXDEPTH (pathBuffer path stack))

theorem openInode_good (h : Good s [] [] d) (p : Fin n) (path : Path) (omode : Nat)
    (stack : List UInt8) (hok : OpenOk s p path omode stack) :
    Yields Safe (fun r => Good r.1 r.2.toList r.2.toList d)
      (openInode s p path omode stack) := by
  unfold openInode
  unfold OpenOk at hok
  split
  · rename_i hcreate
    rw [if_pos hcreate] at hok
    exact create_good h p path nofun hok
  · rename_i hcreate
    rw [if_neg hcreate] at hok
    apply (openLoop_quiet p omode MAXDEPTH _ h.quiet hok).bind
    rintro ⟨t, o⟩ ⟨ht, hcalm⟩
    have hgood := ht.good_of_calm hcalm h.tree h.fits
    cases o with
    | none => exact hgood
    | some ip =>
      unfold openDir
      simp only
      split
      · exact (iunlockput_good hgood).bind (fun u hu => hu)
      · exact hgood

theorem openFail_good (h : Good s [ip] [ip] 1) :
    Yields Safe (fun r => Good r.1 [] [] 0) (openFail s ip) :=
  (iunlockput_good h).bind (fun _ hu => hu.endOp)

theorem openFile_good (h : Good s [ip] [ip] 1) (p : Fin n) (omode : Nat) :
    Yields Safe (fun r => Good r.1 [] [] 0) (openFile s p ip omode) := by
  unfold openFile
  split
  · exact openFail_good h
  · unfold filealloc
    cases hfree : freeFile s with
    | none => exact openFail_good h
    | some f =>
      have href : (s.file f).ref = 0 := by
        have hfound := List.find?_some hfree
        simpa using hfound
      have hnone : (s.file f).inode = none := by
        unfold File.inode
        rw [h.held.tables.closed f href]
      have hf : Good (s.setFile f { s.file f with ref := 1 }) [ip] [ip] 1 := by
        refine h.regroup (h.held.setFileRef f _ rfl ?_) rfl rfl rfl
        intro hz
        cases hz
      have hfile : (s.setFile f { s.file f with ref := 1 }).file f =
          { s.file f with ref := 1 } := by
        simp only [State.setFile, Function.update_self]
      have hnone' : ((s.setFile f { s.file f with ref := 1 }).file f).inode = none := by
        rw [hfile]
        exact hnone
      simp only
      split
      · exact (fileclose_good_none hf f hnone').bind (fun t ht => openFail_good ht)
      · rename_i fd _
        have hset := hf.setOfile p fd (some f)
        have hopen := hset.regroup (hset.held.openFile f hnone' (congrArg File.ref hfile) omode)
          rfl rfl rfl
        split
        · rename_i htrunc
          refine (iunlock_good (hopen.edit List.mem_cons_self _ ?_ ?_ ?_)).bind ?_
          · rfl
          · rfl
          · intro hdir
            have hfiletype := htrunc.2
            rw [hdir] at hfiletype
            cases hfiletype
          · exact fun u hu => hu.endOp
        · exact (iunlock_good hopen).bind (fun u hu => hu.endOp)

theorem sysOpen_good (h : Good s [] [] 0) (p : Fin n) (path : List UInt8) (omode : Nat)
    (stack : List UInt8) (hok : ∀ x ∈ argstr path, OpenOk s p x omode stack) :
    Yields Safe (fun r => Good r.1 [] [] 0) (sysOpen s p path omode stack) := by
  unfold sysOpen
  split
  · exact h
  · rename_i path hpath
    have hok' : OpenOk (beginOp s) p path omode stack := by
      have hs := hok path hpath
      unfold OpenOk at hs ⊢
      have hcalm : Calm [] s (beginOp s) := ⟨⟨rfl, rfl, rfl, fun _ _ => rfl⟩, rfl⟩
      rw [openWalk_calm hcalm]
      exact hs
    apply (openInode_good h.beginOp p path omode stack hok').bind
    rintro ⟨t, o⟩ ht
    cases o with
    | none => exact ht.endOp
    | some ip => exact openFile_good ht p omode

end Open

section Processes

theorem exit_good (h : Good s [] [] 0) (p : Fin n) :
    Yields Safe (fun t => Good t [] [] 0) (exit s p) := by
  unfold exit
  split
  · exact lenient_safe _ nofun nofun
  · have hfds := yields_foldlM (E := Safe) (f := closeFd p) (fun _ t => Good t [] [] 0) (by
      intro fd l t ht
      unfold closeFd
      split
      · exact ht
      · exact (fileclose_good ht _).bind (fun u hu => hu.setOfile p fd none)) (List.finRange NOFILE)
      s h
    apply hfds.bind
    intro t ht
    split
    · exact lenient_safe _ nofun nofun
    · rename_i c hc
      have hgone : Held ((beginOp t).setProc p { t.proc p with cwd := none, state := .zombie })
          [c] [] 1 := by
        refine ht.held.beginOp.setProc p _ (fun _ => rfl) ?_ nofun
        intro i
        change _ = ((t.proc p).cwd.toList).count i + _
        rw [hc]
        simp
      have hgood := ht.beginOp.regroup hgone rfl rfl rfl
      apply (iput_then_setProc _ (iput_good hgood nofun)).bind
      rintro u ⟨hu, hproc⟩
      have hset : (endOp u).proc p = t.proc p := congrFun hproc p
      simp only [yields_ok, hset]
      exact Good.endOp (d := 0) hu

theorem idup_good (h : Good s J L d) (i : Slot) (hi : 0 < users s i) :
    Good (idup s i) (i :: J) L d := by
  have href := h.held.ref_pos (J := J) (Or.inr hi)
  refine ⟨idup_held h.held i hi, h.tree, ?_, h.loaded.setInode i _ rfl (fun _ => h.loaded i href),
    h.fits⟩
  intro k htype hn
  obtain ⟨j, hj, hjref⟩ := h.used k htype hn
  refine ⟨j, ?_⟩
  unfold idup
  rw [setInode_icache]
  split
  · rename_i hji
    subst hji
    exact ⟨hj, by simp only; omega⟩
  · exact ⟨hj, hjref⟩

theorem fork_good (h : Good s [] [] 0) (p : Fin n) (copied : Bool) :
    Yields Safe (fun t => Good t [] [] 0) (fork s p copied) := by
  unfold fork
  split
  · rename_i q hq
    have hunused : (s.proc q).state = .unused := by
      have hfound := List.find?_some hq
      simpa using hfound
    have hfds := yields_foldlM (E := Safe) (f := forkFd p q)
      (fun _ t => Good t [] [] 0 ∧ (t.proc q).state = .unused) (by
        intro fd l t ht
        unfold forkFd
        split
        · exact ht
        · apply (filedup_good ht.1 _).bind
          rintro u ⟨hu, hproc⟩
          refine ⟨hu.setOfile q fd _, ?_⟩
          simp only [State.setOfile, State.setProc, Function.update_self, hproc]
          exact ht.2) (List.finRange NOFILE) s ⟨h, hunused⟩
    apply hfds.bind
    rintro t ⟨ht, hstate⟩
    split
    · exact lenient_safe _ (by simp) (by simp)
    · rename_i c hc
      have hpos := users_cwd hc
      have hdup := idup_good ht c hpos
      have hqcwd : (t.proc q).cwd = none := ht.held.tables.idle q (by rw [hstate]; simp)
      refine hdup.regroup (hdup.held.setProc q _ (fun hne => absurd rfl hne) ?_ ?_) rfl rfl rfl
      · intro i
        change _ = ((t.proc q).cwd.toList).count i + _
        rw [hqcwd]
        simp
      · intro i hi _
        cases hi
        exact hdup.held.alloc c (hdup.held.ref_pos (Or.inr hpos)) (Or.inr hpos)
  · exact h

end Processes

section Runs

/-- The calls under which link counts are exact: they make no entry in a removed directory, they
come by no inode that is free (the ".." of a removed directory may be one), and they do not
overflow a link count. -/
def Careful (s : State n) (p : Fin n) : Call n → Prop
  | .openPath path omode stack => ∀ x ∈ argstr path, OpenOk s p x omode stack
  | .link old new => ∀ x ∈ argstr old, ∀ y ∈ argstr new, LinkOk s p x y
  | .unlink path => ∀ x ∈ argstr path, Sound s (pathWalk s p true x).1
  | .mkdir path => ∀ x ∈ argstr path, CreateOk s p x .dir
  | .mknod path _ _ => ∀ x ∈ argstr path, CreateOk s p x .device
  | .symlink _ path => ∀ x ∈ argstr path, CreateOk s p x .symlink
  | .chdir path => ∀ x ∈ argstr path, Sound s (pathWalk s p false x).1
  | _ => True

theorem step_good (h : Good s [] [] 0) (e : Fin n × Call n)
    (hok : (s.proc e.1).state = .running → Careful s e.1 e.2) :
    Yields Safe (fun t => Good t [] [] 0) (step s e) := by
  unfold step
  split
  · rename_i hp
    have hmap {r : Except Panic (State n × Int)} (hr : Yields Safe (fun r => Good r.1 [] [] 0) r) :
        Yields Safe (fun t => Good t [] [] 0) (r.map Prod.fst) := by
      cases r with
      | error e => exact hr
      | ok r => exact hr
    obtain ⟨p, c⟩ := e
    have hc : Careful s p c := hok hp
    cases c with
    | openPath path omode stack => exact hmap (sysOpen_good h p path omode stack hc)
    | close fd => exact hmap (sysClose_good h p fd)
    | dup fd => exact hmap (sysDup_good h p fd)
    | link old new => exact hmap (sysLink_good h p old new hc)
    | unlink path => exact hmap (sysUnlink_good h p path hc)
    | mkdir path => exact hmap (createPut_good h p path .dir (by simp) 0 0 hc)
    | mknod path major minor =>
      exact hmap (createPut_good h p path .device (by simp) major minor hc)
    | symlink target path => exact hmap (sysSymlink_good h p target path hc)
    | chdir path => exact hmap (sysChdir_good h p path hp hc)
    | fork copied => exact fork_good h p copied
    | exit => exact exit_good h p
    | wait q =>
      simp only [call]
      split
      · rename_i hq
        have hcwd := h.held.tables.idle q (by rw [hq]; simp)
        refine h.regroup (h.held.setProc q _ (fun _ => hcwd) (fun _ => rfl) ?_) rfl rfl rfl
        exact fun _ _ hne => absurd rfl hne
      · exact h
  · exact h

theorem rootDisk_free {k : Nat} (h : (rootDisk k).type ≠ .free) : k = ROOTINO := by
  by_contra hk
  apply h
  unfold rootDisk
  rw [if_neg hk]
  rfl

theorem rootDisk_total {f : Dinode → List Nat} (hf : f emptyDinode = []) {m : Nat} (hm : 1 < m)
    (k : Nat) : total f m rootDisk k = (f (rootDisk ROOTINO)).count k := by
  have hfun : (fun i : Fin m => f (rootDisk i)) =
      Function.update (fun _ => []) ⟨ROOTINO, hm⟩ (f (rootDisk ROOTINO)) := by
    funext i
    by_cases hi : i = ⟨ROOTINO, hm⟩
    · rw [hi, Function.update_self]
    · have hne : (i : Nat) ≠ ROOTINO := fun h => hi (Fin.ext h)
      rw [Function.update_of_ne hi, rootDisk, if_neg hne, hf]
  have htally := tally_update (fun _ : Fin m => ([] : List Nat)) ⟨ROOTINO, hm⟩
    (f (rootDisk ROOTINO)) k
  have hempty : tally (fun _ : Fin m => ([] : List Nat)) k = 0 := by
    simp [tally]
  unfold total
  rw [hfun]
  rw [hempty, List.count_nil] at htally
  omega

theorem tree_rootDisk {m : Nat} (hm : 1 < m) : Tree m rootDisk := by
  have hlinks : (rootDisk ROOTINO).links = [ROOTINO] := by decide
  have hnamed : (rootDisk ROOTINO).named = [] := by decide
  have hother {k : Nat} (hk : k ≠ ROOTINO) : rootDisk k = emptyDinode := if_neg hk
  refine ⟨rfl, ?_, ?_, ?_, by decide, ?_, ?_, ?_, ?_, ?_, ?_⟩
  · intro k hk
    rw [rootDisk_free hk]
    exact hm
  · intro k hk
    obtain rfl := rootDisk_free (k := k) (by rw [hk]; nofun)
    exact ⟨by decide, by decide, by decide⟩
  · intro k hk _
    obtain rfl := rootDisk_free (k := k) (by rw [hk]; nofun)
    decide
  · rw [rootDisk_total (by decide) hm, hnamed]
    rfl
  · intro k hk
    obtain rfl := rootDisk_free hk
    rw [rootDisk_total (by decide) hm, hlinks]
    rfl
  · intro k hk
    obtain rfl := rootDisk_free hk
    decide
  · intro k j hj
    by_cases hk : k = ROOTINO
    · subst hk
      rw [hlinks] at hj
      rw [List.mem_singleton.mp hj]
      decide
    · rw [hother hk] at hj
      cases hj
  · intro k j hj
    by_cases hk : k = ROOTINO
    · subst hk
      rw [hnamed] at hj
      cases hj
    · rw [hother hk] at hj
      cases hj
  · intro k hk hne
    exact absurd (rootDisk_free (live_alloc hk)) hne

theorem boot_good (m : Nat) (init : Fin n) (hm : 1 < m) (hfits : m ≤ 2^16) :
    Good (boot m rootDisk init) [] [] 0 := by
  refine ⟨boot_held m rootDisk init (by decide), tree_rootDisk hm, ?_, ?_, hfits⟩
  · intro k hk hn
    obtain rfl := rootDisk_free hk
    have hone : (rootDisk ROOTINO).nlink ≠ 0 := by decide
    exact absurd hn hone
  · intro i hi
    right
    have hinum : ((boot m rootDisk init).icache i).inum = ROOTINO := by
      simp only [boot] at hi ⊢
      split_ifs at hi ⊢ with h0
      · rfl
      · exact absurd hi (by decide)
    have hone : (rootDisk ROOTINO).nlink ≠ 0 := by decide
    unfold State.node
    rw [hinum]
    exact hone

instance (s : State n) (ks : List Nat) : Decidable (Sound s ks) :=
  inferInstanceAs (Decidable (∀ k ∈ ks, _))

instance (s : State n) (p : Fin n) (path : Path) (type : Kind) :
    Decidable (CreateOk s p path type) :=
  inferInstanceAs (Decidable (_ ∧ _))

instance (s : State n) (p : Fin n) (old new : Path) : Decidable (LinkOk s p old new) :=
  inferInstanceAs (Decidable (_ ∧ _))

instance (s : State n) (p : Fin n) (path : Path) (omode : Nat) (stack : List UInt8) :
    Decidable (OpenOk s p path omode stack) := by
  unfold OpenOk
  infer_instance

instance (s : State n) (p : Fin n) (c : Call n) : Decidable (Careful s p c) := by
  cases c <;> (unfold Careful; infer_instance)

/-- A step whose call, if it is made, is careful. -/
def CarefulStep (s : State n) (e : Fin n × Call n) : Prop :=
  (s.proc e.1).state = .running → Careful s e.1 e.2

instance (s : State n) (e : Fin n × Call n) : Decidable (CarefulStep s e) :=
  inferInstanceAs (Decidable (_ → _))

/-- The links of every inode but the root are counted: an inode has as many links as there are
entries for it in live directories other than ".", one with links has such an entry, and one
without is in use. -/
structure LinksExact (s : State n) : Prop where
  range : ∀ k, (s.disk k).type ≠ .free → k < s.ninodes
  counts : ∀ k, k ≠ ROOTINO → (s.disk k).type ≠ .free →
    (s.disk k).nlink = total Dinode.links s.ninodes s.disk k
  named : ∀ k, k ≠ ROOTINO → (s.disk k).type ≠ .free → 0 < (s.disk k).nlink →
    ∃ j, k ∈ (s.disk j).links
  freed : ∀ k, (s.disk k).type ≠ .free → (s.disk k).nlink = 0 →
    ∃ i, (s.icache i).inum = k ∧ 0 < users s i

theorem Good.exact (h : Good s [] [] 0) : LinksExact s := by
  refine ⟨h.tree.range, fun k _ hk => h.tree.counts k hk, ?_, h.quiet.kept⟩
  intro k _ hk hpos
  have hcount := h.tree.counts k hk
  have htotal : 0 < total Dinode.links s.ninodes s.disk k := by omega
  obtain ⟨j, -, hj⟩ := exists_of_total_pos Dinode.links htotal
  exact ⟨j, hj⟩

/-- In every run of careful calls from a root directory, link counts are exact between the
calls, and no careful call panics for a free inode or for an entry without a link. -/
theorem nlink_exact_careful (ninodes : Nat) (hn : 1 < ninodes) (hfits : ninodes ≤ 2^16)
    (init : Fin n) (es : List (Fin n × Call n)) (t : State n)
    (hok : Guarded next CarefulStep (boot ninodes rootDisk init) es)
    (hrun : run next (boot ninodes rootDisk init) es = some t) :
    LinksExact t ∧ ∀ e x, CarefulStep t e → step t e = .error x →
      x ≠ .noType ∧ x ≠ .unlinkNlink := by
  have hgood : Good t [] [] 0 := by
    refine guarded_run_invariant next CarefulStep (fun s => Good s [] [] 0) ?_ _ t es
      (boot_good ninodes init hn hfits) hok hrun
    intro s e t hs hcareful ht
    unfold next at ht
    cases hstep : step s e with
    | error e =>
      rw [hstep] at ht
      cases ht
    | ok s' =>
      rw [hstep] at ht
      cases ht
      exact (step_good hs e hcareful).of_ok hstep
  refine ⟨hgood.exact, ?_⟩
  intro e x hcareful hx
  exact (step_good hgood e hcareful).of_error hx

/-- A directory with a file that has two names; the second name and the directory go, while a
process is in it. -/
def tidyCalls : List (Fin 2 × Call 2) :=
  [(0, .mkdir [97, 0]), (0, .openPath [97, 47, 102, 0] 0x202 []),
    (0, .link [97, 47, 102, 0] [103, 0]), (0, .symlink [97, 0] [97, 47, 108, 0]),
    (0, .unlink [97, 47, 108, 0]), (0, .fork true), (1, .chdir [97, 0]),
    (1, .unlink [102, 0]), (0, .unlink [47, 97, 0]), (0, .close 0), (1, .exit)]

theorem nlink_exact_careful_tidyCalls :
    ∃ t : State 2, run next (boot 10 rootDisk 0) tidyCalls = some t ∧
      (t.disk 3).type = .file ∧ (t.disk 2).type = .free ∧ LinksExact t := by
  have hok : Guarded next CarefulStep (boot (n := 2) 10 rootDisk 0) tidyCalls := by
    decide +kernel
  have hrun : (run next (boot (n := 2) 10 rootDisk 0) tidyCalls).map
      (fun t => ((t.disk 3).type, (t.disk 2).type)) = some (.file, .free) := by decide +kernel
  obtain ⟨t, ht, htypes⟩ := Option.map_eq_some_iff.mp hrun
  have hpair := Prod.mk.inj htypes
  exact ⟨t, ht, hpair.1, hpair.2,
    (nlink_exact_careful 10 (by decide) (by decide) 0 tidyCalls t hok ht).1⟩

/-- A process enters a directory, removes it and makes a file in it. -/
def removedCalls : List (Fin 1 × Call 1) :=
  [(0, .mkdir [97, 0]), (0, .chdir [97, 0]), (0, .unlink [47, 97, 0]),
    (0, .openPath [102, 0] 0x202 [])]

/-- A process is in a directory whose parent is removed. -/
def orphanCalls : List (Fin 1 × Call 1) :=
  [(0, .mkdir [97, 0]), (0, .mkdir [97, 47, 98, 0]), (0, .chdir [97, 47, 98, 0]),
    (0, .unlink [47, 97, 47, 98, 0]), (0, .unlink [47, 97, 0])]

/-- The new file has a link and no entry in a live directory, and the ".." of a removed
directory leads to the panic of ilock. -/
theorem removed_directory_links :
    (∃ t : State 1, run next (boot 10 rootDisk 0) removedCalls = some t ∧
      (t.disk 3).type = .file ∧ (t.disk 3).nlink = 1 ∧
      total Dinode.links t.ninodes t.disk 3 = 0 ∧ ¬LinksExact t) ∧
    ∃ t : State 1, run next (boot 10 rootDisk 0) orphanCalls = some t ∧
      step t (0, .openPath [46, 46, 0] 0 []) = .error .noType := by
  refine ⟨?_, ?_⟩
  · have hrun : (run next (boot (n := 1) 10 rootDisk 0) removedCalls).map
        (fun t => ((t.disk 3).type, (t.disk 3).nlink, total Dinode.links t.ninodes t.disk 3)) =
        some (.file, 1, 0) := by decide +kernel
    obtain ⟨t, ht, hvals⟩ := Option.map_eq_some_iff.mp hrun
    obtain ⟨htype, hrest⟩ := Prod.mk.inj hvals
    obtain ⟨hnlink, htotal⟩ := Prod.mk.inj hrest
    refine ⟨t, ht, htype, hnlink, htotal, ?_⟩
    intro hexact
    have hcount := hexact.counts 3 (by decide) (by rw [htype]; nofun)
    rw [hnlink, htotal] at hcount
    cases hcount
  · have hrun : (run next (boot (n := 1) 10 rootDisk 0) orphanCalls).map
        (fun t => match step t (0, .openPath [46, 46, 0] 0 []) with
          | .error e => decide (e = .noType)
          | .ok _ => false) = some true := by decide +kernel
    obtain ⟨t, ht, hpanic⟩ := Option.map_eq_some_iff.mp hrun
    refine ⟨t, ht, ?_⟩
    cases hstep : step t (0, .openPath [46, 46, 0] 0 []) with
    | error e =>
      rw [hstep] at hpanic
      rw [of_decide_eq_true hpanic]
    | ok r =>
      rw [hstep] at hpanic
      cases hpanic

end Runs

end Xv6Labs.Dir
