import Xv6Labs.DirRefs

/-! Every system call on names and files gives back the references and locks it takes, so the
counts in the inode cache are exact between calls. -/
namespace Xv6Labs.Dir

variable {n : Nat} {s s' : State n} {p : Fin n} {J L : List Slot} {d : Int} {i ip : Slot}

section Users

/-- References that go from the call to a file or process, or back. -/
theorem Held.regroup (h : Held s J L d) {J' : List Slot} (hcache : s'.icache = s.icache)
    (hdisk : s'.disk = s.disk) (hops : s'.outstanding = s.outstanding)
    (hcount : ∀ i, users s' i + J'.count i = users s i + J.count i)
    (halloc : ∀ i, 0 < users s' i → 0 < users s i ∨ (s.node i).type ≠ .free)
    (htables : Tables s'.file s'.proc) : Held s' J' L d := by
  have hnode (i : Slot) : s'.node i = s.node i := by
    unfold State.node
    rw [hcache, hdisk]
  refine ⟨?_, ?_, ?_, h.nodup, ?_, ?_, hops.trans h.ops, htables⟩
  · intro i
    have hrefs := h.refs i
    have hi := hcount i
    rw [hcache]
    omega
  · rw [hcache]
    exact h.unique
  · rw [hcache]
    exact h.locks
  · rw [hcache]
    exact h.taken
  · intro i hi hv
    rw [hcache] at hi hv
    rw [hnode]
    rcases hv with hv | hv
    · exact h.alloc i hi (Or.inl hv)
    · rcases halloc i hv with hu | ht
      · exact h.alloc i hi (Or.inr hu)
      · exact ht

theorem users_setFile (s : State n) (f : FileId) (F : File) (i : Slot) :
    users (s.setFile f F) i + (s.file f).inode.toList.count i =
      users s i + F.inode.toList.count i := by
  have hfun : (fun g => ((s.setFile f F).file g).inode.toList) =
      Function.update (fun g => (s.file g).inode.toList) f F.inode.toList := by
    funext g
    by_cases hg : g = f
    · subst hg
      simp [State.setFile]
    · simp [State.setFile, hg]
  have htally := tally_update (fun g => (s.file g).inode.toList) f F.inode.toList i
  unfold users
  rw [hfun]
  have hproc : (s.setFile f F).proc = s.proc := rfl
  rw [hproc]
  omega

theorem users_setProc (s : State n) (p : Fin n) (P : Proc) (i : Slot) :
    users (s.setProc p P) i + (s.proc p).cwd.toList.count i =
      users s i + P.cwd.toList.count i := by
  have hfun : (fun q => ((s.setProc p P).proc q).cwd.toList) =
      Function.update (fun q => (s.proc q).cwd.toList) p P.cwd.toList := by
    funext q
    by_cases hq : q = p
    · subst hq
      simp [State.setProc]
    · simp [State.setProc, hq]
  have htally := tally_update (fun q => (s.proc q).cwd.toList) p P.cwd.toList i
  unfold users
  rw [hfun]
  have hfile : (s.setProc p P).file = s.file := rfl
  rw [hfile]
  omega

/-- A file that takes over references of the call, or gives its own one to it. -/
theorem Held.setFile (h : Held s J L d) (f : FileId) (F : File) {J' : List Slot}
    (hclosed : F.ref = 0 → F.type = .none)
    (hcount : ∀ i, F.inode.toList.count i + J'.count i =
      (s.file f).inode.toList.count i + J.count i)
    (halloc : ∀ i, F.inode = some i → F.inode ≠ (s.file f).inode → (s.node i).type ≠ .free) :
    Held (s.setFile f F) J' L d := by
  refine h.regroup rfl rfl rfl ?_ ?_ ⟨?_, h.tables.idle⟩
  · intro i
    have hu := users_setFile s f F i
    have hc := hcount i
    omega
  · intro i hi
    have hu := users_setFile s f F i
    by_cases hF : F.inode = (s.file f).inode
    · rw [hF] at hu
      left
      omega
    · by_cases hFi : F.inode = some i
      · exact Or.inr (halloc i hFi hF)
      · left
        have hzero : F.inode.toList.count i = 0 := by
          rw [List.count_eq_zero]
          intro hm
          exact hFi (Option.mem_toList.mp hm)
        omega
  · intro g hg
    simp only [State.setFile, Function.update_apply] at hg ⊢
    split at hg
    · rename_i hgf
      rw [if_pos hgf]
      exact hclosed hg
    · rename_i hgf
      rw [if_neg hgf]
      exact h.tables.closed g hg

theorem Held.setProc (h : Held s J L d) (p : Fin n) (P : Proc) {J' : List Slot}
    (hidle : P.state ≠ .running → P.cwd = none)
    (hcount : ∀ i, P.cwd.toList.count i + J'.count i =
      (s.proc p).cwd.toList.count i + J.count i)
    (halloc : ∀ i, P.cwd = some i → P.cwd ≠ (s.proc p).cwd → (s.node i).type ≠ .free) :
    Held (s.setProc p P) J' L d := by
  refine h.regroup rfl rfl rfl ?_ ?_ ⟨h.tables.closed, ?_⟩
  · intro i
    have hu := users_setProc s p P i
    have hc := hcount i
    omega
  · intro i hi
    have hu := users_setProc s p P i
    by_cases hP : P.cwd = (s.proc p).cwd
    · rw [hP] at hu
      left
      omega
    · by_cases hPi : P.cwd = some i
      · exact Or.inr (halloc i hPi hP)
      · left
        have hzero : P.cwd.toList.count i = 0 := by
          rw [List.count_eq_zero]
          intro hm
          exact hPi (Option.mem_toList.mp hm)
        omega
  · intro q hq
    simp only [State.setProc, Function.update_apply] at hq ⊢
    split at hq
    · rename_i hqp
      rw [if_pos hqp]
      exact hidle hq
    · rename_i hqp
      rw [if_neg hqp]
      exact h.tables.idle q hq

/-- Descriptors are no references to inodes. -/
theorem Held.setOfile (h : Held s J L d) (p : Fin n) (fd : Fin NOFILE) (f : Option FileId) :
    Held (s.setOfile p fd f) J L d :=
  h.setProc p _ (h.tables.idle p) (fun _ => rfl) (fun _ _ hne => absurd rfl hne)

/-- A file whose type and inode stay. -/
theorem Held.setFileRef (h : Held s J L d) (f : FileId) (F : File)
    (hinode : F.inode = (s.file f).inode) (hclosed : F.ref = 0 → F.type = .none) :
    Held (s.setFile f F) J L d :=
  h.setFile f F hclosed (fun _ => by rw [hinode]) (fun _ _ hne => absurd hinode hne)

end Users

section Files

theorem filedup_held (h : Held s J L d) (f : FileId) :
    Yields Any (fun s' => Held s' J L d) (filedup s f) := by
  unfold filedup
  split
  · trivial
  · rename_i href
    refine h.setFileRef f _ rfl ?_
    intro hz
    simp only at hz
    omega

/-- Closing a file without an inode, whatever locks are held. -/
theorem fileclose_held_none (h : Held s J L d) (f : FileId) (hnone : (s.file f).inode = none) :
    Yields Any (fun s' => Held s' J L d) (fileclose s f) := by
  unfold fileclose
  simp only
  split
  · trivial
  · split
    · refine h.setFileRef f _ rfl ?_
      intro hz
      simp only at hz
      omega
    · rw [hnone]
      exact h.setFileRef f _ (by rw [hnone]; rfl) (fun _ => rfl)

theorem fileclose_held (h : Held s J [] d) (f : FileId) :
    Yields Any (fun s' => Held s' J [] d) (fileclose s f) := by
  cases hino : (s.file f).inode with
  | none => exact fileclose_held_none h f hino
  | some ip =>
    unfold fileclose
    simp only
    split
    · trivial
    · split
      · refine h.setFileRef f _ rfl ?_
        intro hz
        simp only at hz
        omega
      · rw [hino]
        have hmoved :
            Held (s.setFile f { s.file f with ref := 0, type := .none }) (ip :: J) [] d := by
          refine h.setFile f _ (fun _ => rfl) ?_ ?_
          · intro i
            rw [hino]
            simp only [File.inode, Option.toList_none, List.count_nil, Option.toList_some,
              List.count_cons]
            omega
          · intro i hi
            cases hi
        exact (iput_held hmoved.beginOp lenient_true nofun).bind (fun t ht => ht.endOp)

theorem sysDup_held (h : Held s [] [] 0) (p : Fin n) (fd : Int) :
    Yields Any (fun r => Held r.1 [] [] 0) (sysDup s p fd) := by
  unfold sysDup
  split
  · exact h
  · split
    · exact h
    · exact (filedup_held (h.setOfile p _ _) _).bind (fun t ht => ht)

theorem sysClose_held (h : Held s [] [] 0) (p : Fin n) (fd : Int) :
    Yields Any (fun r => Held r.1 [] [] 0) (sysClose s p fd) := by
  unfold sysClose
  split
  · exact h
  · exact (fileclose_held (h.setOfile p _ none) _).bind (fun t ht => ht)

end Files

section Names

theorem linkBad_held (h : Held s [ip] [] 1) :
    Yields Any (fun r => Held r.1 [] [] 0) (linkBad s ip) := by
  apply (ilock_held h lenient_true trivial ip).bind
  rintro t ⟨ht, -⟩
  refine (iunlockput_held (ht.edit List.mem_cons_self _ ?_) lenient_true).bind ?_
  · rfl
  exact fun u hu => hu.endOp

theorem linkNew_held (h : Held s [ip] [] 1) (new : Path) :
    Yields Any (fun r => Held r.1 [] [] 0) (linkNew s p ip new) := by
  apply (namex_held h p new true).bind
  rintro ⟨t, o⟩ ht
  cases o with
  | none => exact linkBad_held ht
  | some x =>
    apply (ilock_held ht lenient_true trivial x.1).bind
    rintro u ⟨hu, -⟩
    apply (dirlink_held hu List.mem_cons_self x.2 _).bind
    intro r hr
    apply (iunlockput_held hr lenient_true).bind
    intro v hv
    split
    · exact (iput_held hv lenient_true nofun).bind (fun w hw => hw.endOp)
    · exact linkBad_held hv

theorem sysLink_held (h : Held s [] [] 0) (p : Fin n) (old new : List UInt8) :
    Yields Any (fun r => Held r.1 [] [] 0) (sysLink s p old new) := by
  unfold sysLink
  split
  · rename_i old new _ _
    apply (namei_held h.beginOp p old).bind
    rintro ⟨t, o⟩ ht
    cases o with
    | none => exact ht.endOp
    | some ip =>
      apply (ilock_held ht lenient_true trivial ip).bind
      rintro u ⟨hu, -⟩
      split
      · exact (iunlockput_held hu lenient_true).bind (fun v hv => hv.endOp)
      · refine (iunlock_held (hu.edit List.mem_cons_self _ ?_) lenient_true).bind ?_
        · rfl
        exact fun v hv => linkNew_held hv.1 new
  · exact h

theorem unlinkEntry_held {dp : Slot} (off : Nat) (h : Held s [ip, dp] [ip, dp] 1) :
    Yields Any (fun r => Held r.1 [] [] 0) (unlinkEntry s dp ip off) := by
  have hswap : Held s [dp, ip] [dp, ip] 1 := (h.swap rfl).permL (List.Perm.swap ip dp [])
  refine (iunlockput_held (hswap.edit List.mem_cons_self _ ?_) lenient_true).bind ?_
  · rfl
  intro t ht
  refine (iunlockput_held (ht.edit List.mem_cons_self _ ?_) lenient_true).bind ?_
  · rfl
  exact fun u hu => hu.endOp

theorem sysUnlink_held (h : Held s [] [] 0) (p : Fin n) (path : List UInt8) :
    Yields Any (fun r => Held r.1 [] [] 0) (sysUnlink s p path) := by
  unfold sysUnlink
  split
  · exact h
  · rename_i path _
    apply (namex_held h.beginOp p path true).bind
    rintro ⟨t, o⟩ ht
    cases o with
    | none => exact ht.endOp
    | some x =>
      apply (ilock_held ht lenient_true trivial x.1).bind
      rintro u ⟨hu, -⟩
      split
      · exact (iunlockput_held hu lenient_true).bind (fun v hv => hv.endOp)
      · apply (dirlookup_held hu x.1 x.2).bind
        rintro ⟨v, o⟩ hv
        cases o with
        | none => exact (iunlockput_held hv lenient_true).bind (fun w hw => hw.endOp)
        | some y =>
          apply (ilock_held hv lenient_true trivial y.1).bind
          rintro w ⟨hw, -⟩
          split
          · trivial
          · split
            · apply (iunlockput_held hw lenient_true).bind
              intro w' hw'
              exact (iunlockput_held hw' lenient_true).bind (fun w'' hw'' => hw''.endOp)
            · exact unlinkEntry_held y.2 hw

theorem createPut_held (h : Held s [] [] 0) (p : Fin n) (path : List UInt8) (type : Kind)
    (htype : type ≠ .free) (major minor : Int) :
    Yields Any (fun r => Held r.1 [] [] 0) (createPut s p path type major minor) := by
  unfold createPut
  simp only
  split
  · exact h.beginOp.endOp
  · rename_i path _
    apply (create_held h.beginOp p path major minor htype).bind
    rintro ⟨t, o⟩ ht
    cases o with
    | none => exact ht.endOp
    | some ip => exact (iunlockput_held ht lenient_true).bind (fun u hu => hu.endOp)

theorem sysSymlink_held (h : Held s [] [] 0) (p : Fin n) (target path : List UInt8) :
    Yields Any (fun r => Held r.1 [] [] 0) (sysSymlink s p target path) := by
  unfold sysSymlink
  split
  · rename_i target path _ _
    apply (create_held h.beginOp p path 0 0 (by decide)).bind
    rintro ⟨t, o⟩ ht
    cases o with
    | none => exact ht.endOp
    | some ip =>
      refine (iunlockput_held (Held.edit ht List.mem_cons_self _ ?_) lenient_true).bind ?_
      · rfl
      exact fun u hu => hu.endOp
  · exact h

/-- iput does not look at the processes. -/
theorem iput_setProc (s : State n) (p : Fin n) (P : Proc) (i : Slot) :
    iput (s.setProc p P) i = (iput s i).map (fun t => t.setProc p P) := by
  unfold iput
  by_cases hlast : (s.icache i).ref = 1 ∧ (s.icache i).valid = true ∧ (s.node i).nlink = 0
  · have hlast' : ((s.setProc p P).icache i).ref = 1 ∧ ((s.setProc p P).icache i).valid = true ∧
        ((s.setProc p P).node i).nlink = 0 := hlast
    have hlock : ((s.setProc p P).icache i).locked = (s.icache i).locked := rfl
    rw [if_pos hlast, if_pos hlast', ifree_eq, ifree_eq, hlock]
    by_cases hl : (s.icache i).locked = true
    · rw [if_pos hl, if_pos hl]
      rfl
    · rw [if_neg hl, if_neg hl]
      rfl
  · have hlast' : ¬(((s.setProc p P).icache i).ref = 1 ∧
        ((s.setProc p P).icache i).valid = true ∧ ((s.setProc p P).node i).nlink = 0) := hlast
    rw [if_neg hlast, if_neg hlast']
    rfl

theorem frame_proc : Frame (fun a b : State n => b.proc = a.proc) :=
  ⟨fun _ => rfl, fun _ _ _ hab hbc => hbc.trans hab, fun _ _ _ => rfl, fun _ _ => rfl⟩

/-- The source drops the old current directory before it writes `p->cwd`. -/
theorem iput_then_setProc {E : Panic → Prop} {Q : State n → Prop} (P : Proc)
    (h : Yields E Q (iput (s.setProc p P) i)) :
    Yields E (fun t => Q (t.setProc p P) ∧ t.proc = s.proc) (iput s i) := by
  rw [iput_setProc] at h
  have hproc := iput_frame frame_proc s i
  cases hr : iput s i with
  | error e =>
    rw [hr] at h
    exact h
  | ok t =>
    rw [hr] at h hproc
    exact ⟨h, hproc⟩

theorem sysChdir_held (h : Held s [] [] 0) (p : Fin n) (path : List UInt8)
    (hp : (s.proc p).state = .running) :
    Yields Any (fun r => Held r.1 [] [] 0) (sysChdir s p path) := by
  unfold sysChdir
  simp only
  split
  · exact h.beginOp.endOp
  · rename_i path _
    apply ((namei_held h.beginOp p path).and (namei_frame frame_proc (beginOp s) p path)).bind
    rintro ⟨t, o⟩ ⟨ht, hproc⟩
    cases o with
    | none => exact ht.endOp
    | some ip =>
      apply ((ilock_held ht lenient_true trivial ip).and (ilock_frame frame_proc t ip)).bind
      rintro u ⟨⟨hu, -⟩, hproc'⟩
      split
      · exact (iunlockput_held hu lenient_true).bind (fun v hv => hv.endOp)
      · have halloc := hu.locked_alloc List.mem_cons_self
        apply ((iunlock_held hu lenient_true).and
          (iunlock_rule (Q := fun v => v.proc = u.proc) lenient_true ip (fun _ _ => rfl))).bind
        rintro v ⟨⟨hv, hnode⟩, hproc''⟩
        have hstate : (v.proc p).state = .running := by
          rw [hproc'', hproc', hproc]
          exact hp
        split
        · trivial
        · rename_i c hc
          have hnew : Held (v.setProc p { v.proc p with cwd := some ip }) [c] [] 1 := by
            refine hv.setProc p _ (fun hne => absurd hstate hne) ?_ ?_
            · intro i
              rw [hc]
              simp only [Option.toList_some, List.append_nil]
              omega
            · intro i hi _
              cases hi
              rw [hnode]
              exact halloc
          apply (iput_then_setProc _ (iput_held hnew lenient_true nofun)).bind
          rintro w ⟨hw, hwproc⟩
          have hset : w.setCwd p (some ip) = w.setProc p { v.proc p with cwd := some ip } := by
            unfold State.setCwd
            rw [hwproc]
          change Held (endOp (w.setCwd p (some ip))) [] [] 0
          rw [hset]
          exact hw.endOp

end Names

section Open

theorem openRound_held (h : Held s [] [] d) (p : Fin n) (path : Path) (omode : Nat) :
    Yields Any (fun r => Held r.1 (r.2.map Prod.fst).toList (r.2.map Prod.fst).toList d)
      (openRound s p path omode) := by
  apply (namei_held h p path).bind
  rintro ⟨t, o⟩ ht
  cases o with
  | none => exact ht
  | some ip => exact (ilock_held ht lenient_true trivial ip).bind (fun u hu => hu.1)

theorem openLoop_held (p : Fin n) (omode left : Nat) (buf : List UInt8) (h : Held s [] [] d) :
    Yields Any (fun r => Held r.1 r.2.toList r.2.toList d) (openLoop p omode left buf s) := by
  induction left generalizing s buf with
  | zero =>
    unfold openLoop
    apply (openRound_held h p _ omode).bind
    rintro ⟨t, o⟩ ht
    match o with
    | none => exact ht
    | some (ip, false) => exact ht
    | some (ip, true) => exact (iunlockput_held ht lenient_true).bind (fun u hu => hu)
  | succ left ih =>
    unfold openLoop
    apply (openRound_held h p _ omode).bind
    rintro ⟨t, o⟩ ht
    match o with
    | none => exact ht
    | some (ip, false) => exact ht
    | some (ip, true) => exact (iunlockput_held ht lenient_true).bind (fun u hu => ih _ hu)

theorem openInode_held (h : Held s [] [] d) (p : Fin n) (path : Path) (omode : Nat)
    (stack : List UInt8) :
    Yields Any (fun r => Held r.1 r.2.toList r.2.toList d) (openInode s p path omode stack) := by
  unfold openInode
  split
  · apply (create_held h p path 0 0 (by decide)).mono
    intro r hr
    rw [List.append_nil] at hr
    exact hr
  · apply (openLoop_held p omode MAXDEPTH _ h).bind
    rintro ⟨t, o⟩ ht
    cases o with
    | none => exact ht
    | some ip =>
      unfold openDir
      simp only
      split
      · exact (iunlockput_held ht lenient_true).bind (fun u hu => hu)
      · exact ht

theorem openFail_held (h : Held s [ip] [ip] 1) :
    Yields Any (fun r => Held r.1 [] [] 0) (openFail s ip) :=
  (iunlockput_held h lenient_true).bind (fun _ hu => hu.endOp)

theorem openedFile_inode (F : File) (b : Dinode) (ip : Slot) (omode : Nat) :
    (openedFile F b ip omode).inode = some ip := by
  unfold openedFile File.inode
  by_cases hdev : b.type = .device
  · simp only [hdev, if_true]
  · simp only [if_neg hdev]

/-- The file takes over the reference of the call. -/
theorem Held.openFile (h : Held s [ip] [ip] d) (f : FileId) (hf : (s.file f).inode = none)
    (href : (s.file f).ref = 1) (omode : Nat) :
    Held (s.setFile f (openedFile (s.file f) (s.node ip) ip omode)) [] [ip] d := by
  refine h.setFile f _ ?_ ?_ ?_
  · intro hz
    have hone : (openedFile (s.file f) (s.node ip) ip omode).ref = 1 := href
    rw [hone] at hz
    cases hz
  · intro i
    rw [openedFile_inode, hf]
    simp
  · intro i hi _
    rw [openedFile_inode] at hi
    cases hi
    exact h.locked_alloc List.mem_cons_self

theorem openFile_held (h : Held s [ip] [ip] 1) (p : Fin n) (omode : Nat) :
    Yields Any (fun r => Held r.1 [] [] 0) (openFile s p ip omode) := by
  unfold openFile
  split
  · exact openFail_held h
  · unfold filealloc
    cases hfree : freeFile s with
    | none => exact openFail_held h
    | some f =>
      have href : (s.file f).ref = 0 := by
        have hfound := List.find?_some hfree
        simpa using hfound
      have hnone : (s.file f).inode = none := by
        unfold File.inode
        rw [h.tables.closed f href]
      have hf : Held (s.setFile f { s.file f with ref := 1 }) [ip] [ip] 1 := by
        refine h.setFileRef f _ rfl ?_
        intro hz
        cases hz
      have hfile : (s.setFile f { s.file f with ref := 1 }).file f =
          { s.file f with ref := 1 } := by
        simp only [State.setFile, Function.update_self]
      have hnone' : ((s.setFile f { s.file f with ref := 1 }).file f).inode = none := by
        rw [hfile]
        exact hnone
      simp only
      split
      · exact (fileclose_held_none hf f hnone').bind (fun t ht => openFail_held ht)
      · rename_i fd _
        have hopen := (hf.setOfile p fd (some f)).openFile f hnone'
          (congrArg File.ref hfile) omode
        split
        · refine (iunlock_held (hopen.edit List.mem_cons_self _ ?_) lenient_true).bind ?_
          · rfl
          exact fun u hu => hu.1.endOp
        · exact (iunlock_held hopen lenient_true).bind (fun u hu => hu.1.endOp)

theorem sysOpen_held (h : Held s [] [] 0) (p : Fin n) (path : List UInt8) (omode : Nat)
    (stack : List UInt8) :
    Yields Any (fun r => Held r.1 [] [] 0) (sysOpen s p path omode stack) := by
  unfold sysOpen
  split
  · exact h
  · apply (openInode_held h.beginOp p _ omode stack).bind
    rintro ⟨t, o⟩ ht
    cases o with
    | none => exact ht.endOp
    | some ip => exact openFile_held ht p omode

end Open

section Processes

theorem exit_held (h : Held s [] [] 0) (p : Fin n) :
    Yields Any (fun s' => Held s' [] [] 0) (exit s p) := by
  unfold exit
  split
  · trivial
  · have hfds := yields_foldlM (E := Any) (f := closeFd p) (fun _ t => Held t [] [] 0) (by
      intro fd l t ht
      unfold closeFd
      split
      · exact ht
      · exact (fileclose_held ht _).bind (fun u hu => hu.setOfile p fd none)) (List.finRange NOFILE)
      s h
    apply hfds.bind
    intro t ht
    split
    · trivial
    · rename_i c hc
      have hgone : Held ((beginOp t).setProc p { t.proc p with cwd := none, state := .zombie })
          [c] [] 1 := by
        refine ht.beginOp.setProc p _ (fun _ => rfl) ?_ nofun
        intro i
        change _ = ((t.proc p).cwd.toList).count i + _
        rw [hc]
        simp
      apply (iput_then_setProc _ (iput_held hgone lenient_true nofun)).bind
      rintro u ⟨hu, hproc⟩
      have hset : (endOp u).proc p = t.proc p := congrFun hproc p
      simp only [yields_ok, hset]
      exact Held.endOp (d := 0) hu

theorem fork_held (h : Held s [] [] 0) (p : Fin n) (copied : Bool) :
    Yields Any (fun s' => Held s' [] [] 0) (fork s p copied) := by
  unfold fork
  split
  · rename_i q hq
    have hunused : (s.proc q).state = .unused := by
      have hfound := List.find?_some hq
      simpa using hfound
    have hfds := yields_foldlM (E := Any) (f := forkFd p q)
      (fun _ t => Held t [] [] 0 ∧ (t.proc q).state = .unused) (by
        intro fd l t ht
        unfold forkFd
        split
        · exact ht
        · rename_i f _
          have hkeep : Yields Any (fun u => u.proc = t.proc) (filedup t f) := by
            unfold filedup
            split
            · trivial
            · rfl
          apply ((filedup_held ht.1 f).and hkeep).bind
          rintro u ⟨hu, hproc⟩
          refine ⟨hu.setOfile q fd _, ?_⟩
          simp only [State.setOfile, State.setProc, Function.update_self, hproc]
          exact ht.2) (List.finRange NOFILE) s ⟨h, hunused⟩
    apply hfds.bind
    rintro t ⟨ht, hstate⟩
    split
    · trivial
    · rename_i c hc
      have hpos := users_cwd hc
      have hdup := idup_held ht c hpos
      have hqcwd : (t.proc q).cwd = none := ht.tables.idle q (by rw [hstate]; nofun)
      refine hdup.setProc q _ (fun hne => absurd rfl hne) ?_ ?_
      · intro i
        change _ = ((t.proc q).cwd.toList).count i + _
        rw [hqcwd]
        simp
      · intro i hi _
        cases hi
        refine hdup.alloc c ?_ (Or.inr hpos)
        have hrefs := hdup.refs c
        rw [hrefs]
        have hpos' : 0 < users (idup t c) c := hpos
        omega
  · exact h

end Processes

section Runs

theorem step_held (h : Held s [] [] 0) (e : Fin n × Call n) :
    Yields Any (fun s' => Held s' [] [] 0) (step s e) := by
  unfold step
  split
  · rename_i hp
    have hmap {r : Except Panic (State n × Int)} (hr : Yields Any (fun r => Held r.1 [] [] 0) r) :
        Yields Any (fun s' => Held s' [] [] 0) (r.map Prod.fst) := by
      cases r with
      | error e => trivial
      | ok r => exact hr
    cases e.2 with
    | openPath path omode stack => exact hmap (sysOpen_held h e.1 path omode stack)
    | close fd => exact hmap (sysClose_held h e.1 fd)
    | dup fd => exact hmap (sysDup_held h e.1 fd)
    | link old new => exact hmap (sysLink_held h e.1 old new)
    | unlink path => exact hmap (sysUnlink_held h e.1 path)
    | mkdir path => exact hmap (createPut_held h e.1 path .dir nofun 0 0)
    | mknod path major minor => exact hmap (createPut_held h e.1 path .device nofun major minor)
    | symlink target path => exact hmap (sysSymlink_held h e.1 target path)
    | chdir path => exact hmap (sysChdir_held h e.1 path hp)
    | fork copied => exact fork_held h e.1 copied
    | exit => exact exit_held h e.1
    | wait q =>
      simp only [call]
      split
      · rename_i hq
        have hcwd := h.tables.idle q (by rw [hq]; nofun)
        exact h.setProc q _ (fun _ => hcwd) (fun _ => rfl) (fun _ _ hne => absurd rfl hne)
      · exact h
  · exact h

theorem boot_held (ninodes : Nat) (disk : Nat → Dinode) (init : Fin n)
    (hroot : (disk ROOTINO).type ≠ .free) : Held (boot ninodes disk init) [] [] 0 := by
  have hfiles (i : Slot) :
      tally (fun f => ((boot ninodes disk init).file f).inode.toList) i = 0 := by
    simp [tally, boot, File.inode]
  have hcwds (i : Slot) : tally (fun p => ((boot ninodes disk init).proc p).cwd.toList) i =
      List.count i [⟨0, by decide⟩] := by
    have hfun : (fun p => ((boot ninodes disk init).proc p).cwd.toList) =
        Function.update (fun _ => []) init [⟨0, by decide⟩] := by
      funext p
      by_cases hp : p = init
      · subst hp
        simp [boot]
      · simp [boot, hp]
    have htally := tally_update (fun _ : Fin n => ([] : List Slot)) init [⟨0, by decide⟩] i
    have hempty : tally (fun _ : Fin n => ([] : List Slot)) i = 0 := by
      simp [tally]
    rw [hfun]
    rw [hempty, List.count_nil] at htally
    omega
  have husers (i : Slot) : users (boot ninodes disk init) i = if i.val = 0 then 1 else 0 := by
    unfold users
    rw [hfiles, hcwds, List.count_singleton]
    by_cases hi : i.val = 0
    · simp [hi, Fin.ext_iff]
    · simp [hi, Fin.ext_iff, Ne.symm hi]
  have hcache (i : Slot) : (boot ninodes disk init).icache i =
      if i.val = 0 then ⟨ROOTINO, 1, false, false⟩ else ⟨0, 0, false, false⟩ := rfl
  refine ⟨?_, ?_, ?_, List.nodup_nil, nofun, ?_, rfl, ?_, ?_⟩
  · intro i
    rw [husers, hcache]
    by_cases hi : i.val = 0 <;> simp [hi]
  · intro i j hi hj _
    rw [hcache] at hi hj
    split_ifs at hi hj with h0 h1
    · exact Fin.ext (h0.trans h1.symm)
    all_goals simp_all
  · intro i
    rw [hcache]
    split <;> simp
  · intro i hi _
    unfold State.node
    rw [hcache] at hi ⊢
    split_ifs at hi ⊢ with h0
    · exact hroot
    · simp at hi
  · exact fun _ _ => rfl
  · intro p hp
    simp only [boot] at hp ⊢
    split_ifs at hp ⊢ with h0
    · exact absurd rfl hp
    · rfl

/-- In every run of system calls, between calls: the reference count of every entry of the
inode cache is the number of open files and current directories that refer to it, no inode has
two entries in use, no inode is locked, no operation is open in the log, and an inode that
something refers to is not free. -/
theorem icache_refs_exact (ninodes : Nat) (disk : Nat → Dinode) (init : Fin n)
    (hroot : (disk ROOTINO).type ≠ .free) (es : List (Fin n × Call n)) (t : State n)
    (hrun : run next (boot ninodes disk init) es = some t) :
    (∀ i, (t.icache i).ref = users t i) ∧
    (∀ i j, 0 < (t.icache i).ref → 0 < (t.icache j).ref →
      (t.icache i).inum = (t.icache j).inum → i = j) ∧
    (∀ i, (t.icache i).locked = false) ∧ t.outstanding = 0 ∧
    ∀ i, 0 < users t i → (t.node i).type ≠ .free := by
  have hheld : Held t [] [] 0 := by
    refine run_invariant next (fun s => Held s [] [] 0) ?_ _ t es
      (boot_held ninodes disk init hroot) hrun
    intro s e t hs ht
    unfold next at ht
    cases hstep : step s e with
    | error e =>
      rw [hstep] at ht
      cases ht
    | ok s' =>
      rw [hstep] at ht
      cases ht
      exact (step_held hs e).of_ok hstep
  have hrefs (i : Slot) : (t.icache i).ref = users t i := by
    simpa using hheld.refs i
  refine ⟨hrefs, hheld.unique, ?_, hheld.ops, ?_⟩
  · intro i
    have hlock := hheld.locks i
    simpa using hlock
  · intro i hi
    refine hheld.alloc i ?_ (Or.inr hi)
    rw [hrefs i]
    omega

/-- The file "/b", opened through the link "/l", its second name, a directory that is entered
and removed, and a child that exits. -/
def forkChdirCalls : List (Fin 2 × Call 2) :=
  [(0, .openPath [47, 98, 0] 0x202 []), (0, .symlink [47, 98, 0] [47, 108, 0]),
    (0, .openPath [47, 108, 0] 0 []), (0, .link [98, 0] [99, 0]), (0, .mkdir [100, 0]),
    (0, .chdir [100, 0]), (0, .fork true), (1, .unlink [46, 46, 47, 100, 0]), (1, .dup 0),
    (1, .exit), (0, .wait 1), (0, .close 1), (0, .openPath [120, 0] 0 [])]

theorem icache_refs_exact_forkChdirCalls :
    ∃ t : State 2, run next (boot 10 rootDisk 0) forkChdirCalls = some t ∧
      (t.icache ⟨2, by decide⟩).ref = 1 ∧ ∀ i, (t.icache i).ref = users t i := by
  have hrun : (run next (boot (n := 2) 10 rootDisk 0) forkChdirCalls).map
      (fun t => (t.icache ⟨2, by decide⟩).ref) = some 1 := by decide +kernel
  obtain ⟨t, ht, href⟩ := Option.map_eq_some_iff.mp hrun
  exact ⟨t, ht, href, (icache_refs_exact 10 rootDisk 0 (by decide) forkChdirCalls t ht).1⟩

end Runs

end Xv6Labs.Dir
