import Xv6Labs.DirCounts

/-! Looking up a path frees no inode, as long as what has no links is in use by somebody and
the path comes by allocated inodes only. Then namex finds what the directories on the disk
say. -/
namespace Xv6Labs.Dir

variable {n : Nat} {s t u : State n} {p : Fin n} {J J' L : List Slot} {d : Int} {i : Slot}

section Walks

/-- The inode of the first entry with a given name. -/
def Dinode.entry (d : Dinode) (name : Path) : Option Nat :=
  (findEntry d.dirents name).map (fun off => (entryAt d.dirents off).inum)

/-- What namex does on the disk, from inode `k` on: the inodes it comes by, and its result. -/
def walk (disk : Nat → Dinode) (parent : Bool) : List Path → Nat → List Nat × Option (Nat × Path)
  | [], k => ([k], if parent then none else some (k, []))
  | name :: rest, k =>
    if (disk k).type ≠ .dir then ([k], none)
    else if parent ∧ rest = [] then ([k], some (k, name))
    else
      match (disk k).entry name with
      | none => ([k], none)
      | some j =>
        let r := walk disk parent rest j
        (k :: r.1, r.2)

/-- The inode where namex starts. -/
def startInum (s : State n) (p : Fin n) (path : Path) : Nat :=
  if path.head? = some slash then ROOTINO
  else
    match (s.proc p).cwd with
    | none => 0
    | some c => (s.icache c).inum

/-- The walk of a path from where the process is. -/
def pathWalk (s : State n) (p : Fin n) (parent : Bool) (path : Path) :
    List Nat × Option (Nat × Path) :=
  walk s.disk parent (elems path) (startInum s p path)

/-- The path comes by no free inode. -/
def Sound (s : State n) (ks : List Nat) : Prop := ∀ k ∈ ks, (s.disk k).type ≠ .free

theorem mem_walk_start (disk : Nat → Dinode) (parent : Bool) (names : List Path) (k : Nat) :
    k ∈ (walk disk parent names k).1 := by
  cases names with
  | nil => exact List.mem_cons_self
  | cons name rest =>
    unfold walk
    split
    · exact List.mem_cons_self
    · split
      · exact List.mem_cons_self
      · split
        · exact List.mem_cons_self
        · exact List.mem_cons_self

end Walks

section Calm

/-- Files and processes are as before, and no cache entry that was in use stands for another
inode now. -/
structure Same (J : List Slot) (s t : State n) : Prop where
  file : t.file = s.file
  proc : t.proc = s.proc
  ninodes : t.ninodes = s.ninodes
  inums : ∀ i, i ∈ J ∨ 0 < users s i → (t.icache i).inum = (s.icache i).inum

/-- The disk is as before, too. -/
structure Calm (J : List Slot) (s t : State n) : Prop extends Same J s t where
  disk : t.disk = s.disk

/-- What has no links is an open file or a current directory. -/
def Kept (s : State n) : Prop :=
  ∀ k, (s.disk k).type ≠ .free → (s.disk k).nlink = 0 → ∃ i, (s.icache i).inum = k ∧ 0 < users s i

/-- An entry in use for an inode without links has been read from the disk. -/
def Loaded (s : State n) : Prop :=
  ∀ i, 0 < (s.icache i).ref → (s.icache i).valid = true ∨ (s.node i).nlink ≠ 0

/-- A moment in a call at which no inode can be freed. -/
structure Quiet (s : State n) (J L : List Slot) (d : Int) : Prop where
  held : Held s J L d
  kept : Kept s
  loaded : Loaded s

theorem Same.users (h : Same J s t) : users t = users s := by
  unfold Dir.users
  rw [h.file, h.proc]

theorem Same.mono (h : Same J s t) (hJ : ∀ i ∈ J', i ∈ J) : Same J' s t :=
  ⟨h.file, h.proc, h.ninodes, fun i hi => h.inums i (hi.imp (hJ i) id)⟩

theorem Same.trans (h : Same J s t) (h' : Same J t u) : Same J s u := by
  refine ⟨h'.file.trans h.file, h'.proc.trans h.proc, h'.ninodes.trans h.ninodes, ?_⟩
  intro i hi
  rw [h'.inums i (by rw [h.users]; exact hi), h.inums i hi]

theorem Calm.mono (h : Calm J s t) (hJ : ∀ i ∈ J', i ∈ J) : Calm J' s t :=
  ⟨h.toSame.mono hJ, h.disk⟩

theorem Calm.nil (h : Calm J s t) : Calm [] s t := h.mono nofun

theorem Calm.refl (J : List Slot) (s : State n) : Calm J s s :=
  ⟨⟨rfl, rfl, rfl, fun _ _ => rfl⟩, rfl⟩

theorem Calm.trans (h : Calm J s t) (h' : Calm J t u) : Calm J s u :=
  ⟨h.toSame.trans h'.toSame, h'.disk.trans h.disk⟩

/-- The start of a path is in use, as root or as current directory. -/
theorem Same.startInum (h : Same J s t) (p : Fin n) (path : Path) :
    startInum t p path = startInum s p path := by
  unfold Dir.startInum
  split
  · rfl
  · rw [h.proc]
    split
    · rfl
    · rename_i c hc
      exact h.inums c (Or.inr (users_cwd hc))

theorem Calm.node (h : Calm J s t) (hi : i ∈ J ∨ 0 < Dir.users s i) : t.node i = s.node i := by
  unfold State.node
  rw [h.disk, h.inums i hi]

theorem Same.kept (h : Same J s t) (hdisk : t.disk = s.disk) (hk : Kept s) : Kept t := by
  intro k htype hn
  rw [hdisk] at htype hn
  obtain ⟨i, hi, hu⟩ := hk k htype hn
  refine ⟨i, ?_, ?_⟩
  · rw [h.inums i (Or.inr hu)]
    exact hi
  · rw [h.users]
    exact hu

theorem Held.ref_pos (h : Held s J L d) (hi : i ∈ J ∨ 0 < users s i) : 0 < (s.icache i).ref := by
  have hrefs := h.refs i
  rcases hi with hi | hi
  · have hcount := List.count_pos_iff.mpr hi
    omega
  · omega

/-- A change of an entry that stays with its inode. -/
theorem calm_setInode (J : List Slot) (s : State n) (i : Slot) (e : Inode)
    (he : e.inum = (s.icache i).inum) : Calm J s (s.setInode i e) := by
  refine ⟨⟨rfl, rfl, rfl, ?_⟩, rfl⟩
  intro j _
  rw [setInode_icache]
  split
  · rename_i hj
    rw [hj, he]
  · rfl

theorem Loaded.setInode (h : Loaded s) (i : Slot) (e : Inode) (he : e.inum = (s.icache i).inum)
    (hi : 0 < e.ref → e.valid = true ∨ (s.node i).nlink ≠ 0) : Loaded (s.setInode i e) := by
  intro j hj
  rw [setInode_node s i j e he]
  rw [setInode_icache] at hj ⊢
  split at hj
  · rename_i hji
    rw [if_pos hji, hji]
    exact hi hj
  · rename_i hji
    rw [if_neg hji]
    exact h j hj

end Calm

section Steps

/-- The panics that must not come are not among those allowed. -/
def Safe (e : Panic) : Prop := e ≠ .noType ∧ e ≠ .unlinkNlink

theorem lenient_safe : Lenient Safe := fun _ h h' => ⟨h, h'⟩

theorem iget_quiet (h : Quiet s J L d) (inum : Nat) (hinum : (s.disk inum).type ≠ .free) :
    Yields Safe (fun r => Quiet r.1 (r.2 :: J) L d ∧ Calm J s r.1 ∧
      (r.1.icache r.2).inum = inum) (iget s inum) := by
  have hcalm : Yields Safe (fun r => Calm J s r.1 ∧ Loaded r.1 ∧ (r.1.icache r.2).inum = inum)
      (iget s inum) := by
    apply iget_rule lenient_safe
    · intro i href hi
      refine ⟨calm_setInode J s i _ hi.symm, ?_, by simp⟩
      exact h.loaded.setInode i _ hi.symm (fun _ => h.loaded i href)
    · -- a fresh entry: the inode is in use by nobody, so it has links
      intro i hmiss hfree
      have hlinks : (s.disk inum).nlink ≠ 0 := by
        intro hn
        obtain ⟨j, hj, hu⟩ := h.kept inum hinum hn
        exact hmiss j (h.held.ref_pos (Or.inr hu)) hj
      refine ⟨⟨⟨rfl, rfl, rfl, ?_⟩, rfl⟩, ?_, by simp⟩
      · intro j hj
        have hji : j ≠ i := by
          intro hji
          have hpos := h.held.ref_pos hj
          rw [hji, hfree] at hpos
          exact absurd hpos (lt_irrefl 0)
        rw [setInode_icache, if_neg hji]
      · intro j hj
        unfold State.node
        rw [setInode_icache] at hj ⊢
        split at hj
        · rename_i hji
          rw [if_pos hji]
          exact Or.inr hlinks
        · rename_i hji
          rw [if_neg hji]
          exact h.loaded j hj
  apply ((iget_held h.held lenient_true inum).any_and hcalm).mono
  rintro r ⟨hheld, hcalm, hloaded, hi⟩
  exact ⟨⟨hheld, hcalm.kept hcalm.disk h.kept, hloaded⟩, hcalm, hi⟩

theorem ilock_quiet (h : Quiet s J L d) (i : Slot) (hi : (s.node i).type ≠ .free) :
    Yields Safe (fun t => Quiet t J (i :: L) d ∧ Calm J s t ∧ (t.icache i).valid = true)
      (ilock s i) := by
  have hcalm : Yields Safe (fun t => Calm J s t ∧ Loaded t ∧ (t.icache i).valid = true)
      (ilock s i) := by
    apply ilock_rule lenient_safe i (fun _ _ hfree => absurd hfree hi)
    intro _ _ _
    refine ⟨calm_setInode J s i _ rfl, ?_, by simp⟩
    exact h.loaded.setInode i _ rfl (fun _ => Or.inl rfl)
  apply ((ilock_held h.held lenient_true trivial i).any_and hcalm).mono
  rintro t ⟨⟨hheld, -⟩, hcalm, hloaded, hvalid⟩
  exact ⟨⟨hheld, hcalm.kept hcalm.disk h.kept, hloaded⟩, hcalm, hvalid⟩

theorem iunlock_quiet (h : Quiet s J (i :: L) d) :
    Yields Safe (fun t => Quiet t J L d ∧ Calm J s t) (iunlock s i) := by
  have hcalm : Yields Safe (fun t => Calm J s t ∧ Loaded t) (iunlock s i) := by
    apply iunlock_rule lenient_safe i
    intro _ href
    refine ⟨calm_setInode J s i _ rfl, ?_⟩
    exact h.loaded.setInode i _ rfl (fun _ => h.loaded i (by omega))
  apply ((iunlock_held h.held lenient_true).any_and hcalm).mono
  rintro t ⟨⟨hheld, -⟩, hcalm, hloaded⟩
  exact ⟨⟨hheld, hcalm.kept hcalm.disk h.kept, hloaded⟩, hcalm⟩

/-- Somebody else uses the inode that iput would free. -/
theorem Quiet.not_lastUse (h : Quiet s (i :: J) L d) : ¬LastUse s i := by
  intro hlast
  obtain ⟨husers, -⟩ := h.held.last_use hlast
  have href : 0 < (s.icache i).ref := by
    rw [hlast.1]
    decide
  have hinuse := h.held.alloc i href (Or.inl hlast.2.1)
  obtain ⟨j, hj, hu⟩ := h.kept _ hinuse hlast.2.2
  have hji := h.held.unique j i (h.held.ref_pos (Or.inr hu)) href hj
  rw [hji] at hu
  omega

theorem iput_quiet (h : Quiet s (i :: J) L d) (hi : i ∈ L → 0 < users s i + J.count i) :
    Yields Safe (fun t => Quiet t J L d ∧ Calm (i :: J) s t) (iput s i) := by
  have hcalm : Yields Safe (fun t => Calm (i :: J) s t ∧ Loaded t) (iput s i) := by
    apply iput_rule lenient_safe i
    · exact fun hlast _ => absurd hlast h.not_lastUse
    · intro _
      refine ⟨calm_setInode _ s i _ rfl, ?_⟩
      exact h.loaded.setInode i _ rfl (fun _ => h.loaded i
        (h.held.ref_pos (Or.inl List.mem_cons_self)))
  apply ((iput_held h.held lenient_true hi).any_and hcalm).mono
  rintro t ⟨hheld, hcalm, hloaded⟩
  exact ⟨⟨hheld, hcalm.kept hcalm.disk h.kept, hloaded⟩, hcalm⟩

theorem iunlockput_quiet (h : Quiet s (i :: J) (i :: L) d) :
    Yields Safe (fun t => Quiet t J L d ∧ Calm (i :: J) s t) (iunlockput s i) := by
  apply (iunlock_quiet h).bind
  rintro t ⟨ht, hcalm⟩
  apply (iput_quiet ht (fun hl => absurd hl (List.nodup_cons.mp h.held.nodup).1)).mono
  rintro u ⟨hu, hcalm'⟩
  exact ⟨hu, hcalm.trans hcalm'⟩

theorem dirlookup_quiet (h : Quiet s J L d) (dp : Slot) (name : Path)
    (hsound : ∀ k, (s.node dp).entry name = some k → (s.disk k).type ≠ .free) :
    Yields Safe (fun r => Quiet r.1 ((r.2.map Prod.fst).toList ++ J) L d ∧ Calm J s r.1 ∧
      r.2.map (fun x => (r.1.icache x.1).inum) = (s.node dp).entry name ∧
      r.2.map Prod.snd = findEntry (s.node dp).dirents name) (dirlookup s dp name) := by
  apply dirlookup_rule lenient_safe
  · intro _ hnone
    refine ⟨h, Calm.refl J s, ?_, ?_⟩
    · simp [Dinode.entry, hnone]
    · rw [hnone]
      rfl
  · intro off _ hoff
    have hentry : (s.node dp).entry name = some (entryAt (s.node dp).dirents off).inum := by
      simp [Dinode.entry, hoff]
    apply (iget_quiet h _ (hsound _ hentry)).mono
    rintro r ⟨hr, hcalm, hinum⟩
    refine ⟨hr, hcalm, ?_, ?_⟩
    · rw [hentry]
      simp [hinum]
    · rw [hoff]
      rfl

end Steps

section Paths

theorem namexLoop_quiet (parent : Bool) (names : List Path) (ip : Slot)
    (h : Quiet s (ip :: J) [] d)
    (hsound : Sound s (walk s.disk parent names (s.icache ip).inum).1) :
    Yields Safe (fun r => Quiet r.1 ((r.2.map Prod.fst).toList ++ J) [] d ∧ Calm J s r.1 ∧
      r.2.map (fun x => ((r.1.icache x.1).inum, x.2)) =
        (walk s.disk parent names (s.icache ip).inum).2) (namexLoop parent names s ip) := by
  induction names generalizing s ip with
  | nil =>
    unfold namexLoop walk
    split
    · apply (iput_quiet h (by simp)).bind
      rintro t ⟨ht, hcalm⟩
      exact ⟨ht, hcalm.mono (fun i hi => List.mem_cons_of_mem _ hi), rfl⟩
    · exact ⟨h, Calm.refl J s, rfl⟩
  | cons name rest ih =>
    have htype : (s.node ip).type ≠ .free := hsound _ (mem_walk_start _ _ _ _)
    unfold namexLoop
    apply (ilock_quiet h ip htype).bind
    rintro t ⟨ht, hcalm, -⟩
    have hnode : t.node ip = s.node ip := hcalm.node (Or.inl List.mem_cons_self)
    have hdisk : s.disk (s.icache ip).inum = s.node ip := rfl
    have hJ (i : Slot) (hi : i ∈ J) : i ∈ ip :: J := List.mem_cons_of_mem _ hi
    rw [hnode]
    unfold walk at hsound ⊢
    rw [hdisk] at hsound ⊢
    by_cases hdir : (s.node ip).type ≠ .dir
    · rw [if_pos hdir] at hsound ⊢
      rw [if_pos hdir]
      apply (iunlockput_quiet ht).bind
      rintro u ⟨hu, hcalm'⟩
      exact ⟨hu, (hcalm.trans hcalm').mono hJ, rfl⟩
    rw [if_neg hdir] at hsound ⊢
    rw [if_neg hdir]
    by_cases hlast : parent = true ∧ rest = []
    · rw [if_pos hlast] at hsound ⊢
      rw [if_pos hlast]
      apply (iunlock_quiet ht).bind
      rintro u ⟨hu, hcalm'⟩
      have hinum : (u.icache ip).inum = (s.icache ip).inum :=
        (hcalm.trans hcalm').inums ip (Or.inl List.mem_cons_self)
      refine ⟨hu, (hcalm.trans hcalm').mono hJ, ?_⟩
      simp only [Option.map_some, hinum]
    rw [if_neg hlast] at hsound ⊢
    rw [if_neg hlast]
    have hfound : ∀ k, (t.node ip).entry name = some k → (t.disk k).type ≠ .free := by
      intro k hk
      rw [hnode] at hk
      rw [hk] at hsound
      rw [hcalm.disk]
      exact hsound k (List.mem_cons_of_mem _ (mem_walk_start _ _ _ _))
    apply (dirlookup_quiet ht ip name hfound).bind
    rintro ⟨u, o⟩ ⟨hu, hcalm', hentry, -⟩
    have hswap : Quiet u (ip :: ((o.map Prod.fst).toList ++ J)) [ip] d :=
      ⟨hu.held.permJ List.perm_middle.symm, hu.kept, hu.loaded⟩
    apply (iunlockput_quiet hswap).bind
    rintro v ⟨hv, hcalm''⟩
    have hall : Calm J s v := by
      refine ((hcalm.trans hcalm').mono hJ).trans (hcalm''.mono ?_)
      exact fun i hi => List.mem_cons_of_mem _ (List.mem_append_right _ hi)
    rw [hnode] at hentry
    cases o with
    | none =>
      rw [← hentry]
      exact ⟨hv, hall, rfl⟩
    | some x =>
      have hinum : (v.icache x.1).inum = (u.icache x.1).inum := by
        apply hcalm''.inums
        exact Or.inl (List.mem_cons_of_mem _ List.mem_cons_self)
      simp only [Option.map_some] at hentry
      rw [← hentry] at hsound ⊢
      simp only at hsound ⊢
      have hsound' : Sound v (walk v.disk parent rest (v.icache x.1).inum).1 := by
        intro k hk
        rw [hall.disk] at hk ⊢
        rw [hinum] at hk
        exact hsound k (List.mem_cons_of_mem _ hk)
      apply (ih x.1 hv hsound').mono
      rintro r ⟨hr, hcalmr, hres⟩
      refine ⟨hr, hall.trans hcalmr, ?_⟩
      rw [hres, hall.disk, hinum]

theorem namex_quiet (h : Quiet s J [] d) (p : Fin n) (path : Path) (parent : Bool)
    (hsound : Sound s (pathWalk s p parent path).1) :
    Yields Safe (fun r => Quiet r.1 ((r.2.map Prod.fst).toList ++ J) [] d ∧ Calm J s r.1 ∧
      r.2.map (fun x => ((r.1.icache x.1).inum, x.2)) = (pathWalk s p parent path).2)
      (namex s p path parent) := by
  have hstart : Yields Safe (fun r => Quiet r.1 (r.2 :: J) [] d ∧ Calm J s r.1 ∧
      (r.1.icache r.2).inum = startInum s p path) (namexStart s p path) := by
    have hfirst := hsound _ (mem_walk_start _ _ _ _)
    unfold namexStart
    unfold startInum at hfirst ⊢
    by_cases hslash : path.head? = some slash
    · rw [if_pos hslash] at hfirst ⊢
      rw [if_pos hslash]
      exact iget_quiet h ROOTINO hfirst
    · rw [if_neg hslash, if_neg hslash]
      cases hc : (s.proc p).cwd with
      | none => exact lenient_safe .nullCwd nofun nofun
      | some c =>
        have hpos := users_cwd hc
        have hcalm : Calm J s (idup s c) := calm_setInode J s c _ rfl
        refine ⟨⟨idup_held h.held c hpos, hcalm.kept hcalm.disk h.kept, ?_⟩, hcalm, ?_⟩
        · exact h.loaded.setInode c _ rfl (fun _ => h.loaded c (h.held.ref_pos (Or.inr hpos)))
        · simp [idup]
  apply hstart.bind
  rintro ⟨t, ip⟩ ⟨ht, hcalm, hinum⟩
  have hsound' : Sound t (walk t.disk parent (elems path) (t.icache ip).inum).1 := by
    intro k hk
    rw [hcalm.disk] at hk ⊢
    rw [hinum] at hk
    exact hsound k hk
  apply (namexLoop_quiet parent (elems path) ip ht hsound').mono
  rintro r ⟨hr, hcalm', hres⟩
  refine ⟨hr, hcalm.trans hcalm', ?_⟩
  rw [hres, hcalm.disk, hinum]
  rfl

theorem namei_quiet (h : Quiet s J [] d) (p : Fin n) (path : Path)
    (hsound : Sound s (pathWalk s p false path).1) :
    Yields Safe (fun r => Quiet r.1 (r.2.toList ++ J) [] d ∧ Calm J s r.1 ∧
      r.2.map (fun i => (r.1.icache i).inum) = (pathWalk s p false path).2.map Prod.fst)
      (namei s p path) := by
  apply (namex_quiet h p path false hsound).bind
  rintro r ⟨hr, hcalm, hres⟩
  refine ⟨hr, hcalm, ?_⟩
  rw [← hres, Option.map_map, Option.map_map]
  rfl

/-- The parent that a path has is a directory. -/
theorem walk_parent_dir (disk : Nat → Dinode) (names : List Path) (k j : Nat) (name : Path)
    (h : (walk disk true names k).2 = some (j, name)) : (disk j).type = .dir := by
  induction names generalizing k with
  | nil => cases h
  | cons first rest ih =>
    unfold walk at h
    split at h
    · cases h
    · rename_i hdir
      split at h
      · cases h
        simpa using hdir
      · split at h
        · cases h
        · exact ih _ h

/-- The inode that a path leads to is one that it comes by. -/
theorem walk_result_mem (disk : Nat → Dinode) (parent : Bool) (names : List Path) (k j : Nat)
    (name : Path) (h : (walk disk parent names k).2 = some (j, name)) :
    j ∈ (walk disk parent names k).1 := by
  induction names generalizing k with
  | nil =>
    unfold walk at h ⊢
    split at h
    · cases h
    · cases h
      exact List.mem_cons_self
  | cons first rest ih =>
    unfold walk at h ⊢
    split at h
    · cases h
    · rename_i hdir
      rw [if_neg hdir]
      split at h
      · rename_i hlast
        cases h
        rw [if_pos hlast]
        exact List.mem_cons_self
      · rename_i hlast
        rw [if_neg hlast]
        split at h
        · cases h
        · exact List.mem_cons_of_mem _ (ih _ h)

/-- A walk depends on types and entries only. -/
theorem walk_congr {disk disk' : Nat → Dinode} (hsame : ∀ k, (disk' k).type = (disk k).type ∧
      (disk' k).dirents = (disk k).dirents) (parent : Bool) (names : List Path) (k : Nat) :
    walk disk' parent names k = walk disk parent names k := by
  induction names generalizing k with
  | nil => rfl
  | cons first rest ih =>
    unfold walk
    simp only [Dinode.entry, (hsame k).1, (hsame k).2, ih]

end Paths

end Xv6Labs.Dir
