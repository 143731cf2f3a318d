import Xv6Labs.DirSys
import Xv6Labs.Outcomes

/-! What each function on inodes and paths can do, as rules for its outcomes. A result about
calls uses these rules and does not open the functions again. -/
namespace Xv6Labs.Dir

variable {n : Nat} {s s' : State n} {p : Fin n} {E : Panic → Prop}

section Updates

variable (s) (i j : Slot) (e e' : Inode) (k : Nat) (d : Dinode)

@[simp] theorem setInode_icache :
    (s.setInode i e).icache j = if j = i then e else s.icache j := by
  simp only [State.setInode, Function.update_apply]

@[simp] theorem setInode_setInode : (s.setInode i e).setInode i e' = s.setInode i e' := by
  simp only [State.setInode, Function.update_idem]

@[simp] theorem setInode_disk : (s.setInode i e).disk = s.disk := rfl

@[simp] theorem setDisk_icache : (s.setDisk k d).icache = s.icache := rfl

@[simp] theorem setDisk_disk (m : Nat) :
    (s.setDisk k d).disk m = if m = k then d else s.disk m := by
  simp only [State.setDisk, Function.update_apply]

@[simp] theorem setNode_icache : (s.setNode i d).icache = s.icache := rfl

@[simp] theorem setNode_disk (m : Nat) :
    (s.setNode i d).disk m = if m = (s.icache i).inum then d else s.disk m := by
  simp only [State.setNode, setDisk_disk]

@[simp] theorem setNode_node : (s.setNode i d).node i = d := by
  simp [State.node]

/-- A cache entry that stays with its inode. -/
theorem setInode_node (h : e.inum = (s.icache i).inum) : (s.setInode i e).node j = s.node j := by
  by_cases hj : j = i
  · subst hj
    simp [State.node, h]
  · simp [State.node, hj]

end Updates

section Rules

/-- The errors that a result does not speak about are allowed. -/
def Lenient (E : Panic → Prop) : Prop := ∀ e, e ≠ .noType → e ≠ .unlinkNlink → E e

theorem lenient_true : Lenient (fun _ => True) := fun _ _ _ => trivial

/-- What is left of an inode that iput frees. -/
def Dinode.freed (d : Dinode) : Dinode := { d with type := .free, dirents := [], data := [] }

theorem ifree_eq (s : State n) (i : Slot) : ifree s i =
    if (s.icache i).locked then .error .sleep
    else .ok ((s.setNode i (s.node i).freed).setInode i
      ⟨(s.icache i).inum, (s.icache i).ref, false, false⟩) := by
  unfold ifree acquiresleep
  split
  · rfl
  · simp only [ok_bind, releasesleep, itrunc, State.setNode, State.node, State.setInode,
      State.setDisk, Dinode.freed, Function.update_self, Function.update_idem]

theorem iget_rule {Q : State n × Slot → Prop} (hE : Lenient E) (inum : Nat)
    (hhit : ∀ i, 0 < (s.icache i).ref → (s.icache i).inum = inum →
      Q (s.setInode i ⟨inum, (s.icache i).ref + 1, (s.icache i).valid, (s.icache i).locked⟩, i))
    (hmiss : ∀ i, (∀ j, 0 < (s.icache j).ref → (s.icache j).inum ≠ inum) →
      (s.icache i).ref = 0 →
      Q (s.setInode i ⟨inum, 1, false, (s.icache i).locked⟩, i)) :
    Yields E Q (iget s inum) := by
  unfold iget
  split
  · rename_i i hi
    have hfound := List.find?_some hi
    simp only [Bool.and_eq_true, decide_eq_true_eq] at hfound
    have h := hhit i hfound.1 hfound.2
    rw [← hfound.2] at h
    exact h
  · rename_i hnone
    have hno : ∀ j, 0 < (s.icache j).ref → (s.icache j).inum ≠ inum := by
      intro j hj hinum
      have := List.find?_eq_none.mp hnone j (List.mem_finRange j)
      simp [hj, hinum] at this
    split
    · exact hE _ nofun nofun
    · rename_i i hi
      have hfree := List.find?_some hi
      exact hmiss i hno (by simpa using hfree)

theorem ilock_rule {Q : State n → Prop} (hE : Lenient E) (i : Slot)
    (hno : 1 ≤ (s.icache i).ref → (s.icache i).valid = false → (s.node i).type = .free →
      E .noType)
    (hok : 1 ≤ (s.icache i).ref → (s.icache i).locked = false →
      ((s.icache i).valid = true ∨ (s.node i).type ≠ .free) →
      Q (s.setInode i ⟨(s.icache i).inum, (s.icache i).ref, true, true⟩)) :
    Yields E Q (ilock s i) := by
  unfold ilock acquiresleep
  by_cases href : (s.icache i).ref < 1
  · rw [if_pos href]
    exact hE _ nofun nofun
  rw [if_neg href]
  have href' : 1 ≤ (s.icache i).ref := by omega
  by_cases hlock : (s.icache i).locked = true
  · rw [if_pos hlock]
    exact hE _ nofun nofun
  rw [if_neg hlock, ok_bind]
  have hlock' : (s.icache i).locked = false := by simpa using hlock
  have hnode (e : Inode) (he : e.inum = (s.icache i).inum) := setInode_node s i i e he
  simp only [setInode_icache, if_true, setInode_setInode, hnode]
  by_cases hvalid : (s.icache i).valid = true
  · rw [if_pos hvalid, hvalid]
    exact hok href' hlock' (Or.inl hvalid)
  rw [if_neg hvalid]
  by_cases htype : (s.node i).type = .free
  · rw [if_pos htype]
    exact hno href' (by simpa using hvalid) htype
  · rw [if_neg htype]
    exact hok href' hlock' (Or.inr htype)

theorem iunlock_rule {Q : State n → Prop} (hE : Lenient E) (i : Slot)
    (hok : (s.icache i).locked = true → 1 ≤ (s.icache i).ref →
      Q (s.setInode i ⟨(s.icache i).inum, (s.icache i).ref, (s.icache i).valid, false⟩)) :
    Yields E Q (iunlock s i) := by
  unfold iunlock
  split
  · exact hE _ nofun nofun
  · rename_i h
    simp only [Bool.or_eq_true, Bool.not_eq_eq_eq_not, Bool.not_true, decide_eq_true_eq,
      not_or, Bool.not_eq_false] at h
    exact hok h.1 (by omega)

/-- The condition under which iput frees the inode. -/
def LastUse (s : State n) (i : Slot) : Prop :=
  (s.icache i).ref = 1 ∧ (s.icache i).valid = true ∧ (s.node i).nlink = 0

theorem iput_rule {Q : State n → Prop} (hE : Lenient E) (i : Slot)
    (hfree : LastUse s i → (s.icache i).locked = false →
      Q ((s.setNode i (s.node i).freed).setInode i
        ⟨(s.icache i).inum, 0, false, false⟩))
    (hkeep : ¬LastUse s i → Q (s.setInode i
      ⟨(s.icache i).inum, (s.icache i).ref - 1, (s.icache i).valid, (s.icache i).locked⟩)) :
    Yields E Q (iput s i) := by
  unfold iput
  split
  · rename_i hlast
    rw [ifree_eq]
    split
    · exact hE _ nofun nofun
    · rename_i hlock
      have h := hfree hlast (by simpa using hlock)
      rw [ok_bind, setInode_setInode]
      simpa only [yields_ok, setInode_icache, if_true, hlast.1, Int.sub_self] using h
  · rename_i hlast
    exact hkeep hlast

theorem dirlookup_rule {Q : State n × Option (Slot × Nat) → Prop} (hE : Lenient E) (dp : Slot)
    (name : Path) (hnone : (s.node dp).type = .dir →
      findEntry (s.node dp).dirents name = none → Q (s, none))
    (hsome : ∀ off, (s.node dp).type = .dir → findEntry (s.node dp).dirents name = some off →
      Yields E (fun r => Q (r.1, some (r.2, off)))
        (iget s (entryAt (s.node dp).dirents off).inum)) :
    Yields E Q (dirlookup s dp name) := by
  unfold dirlookup
  by_cases htype : (s.node dp).type = .dir
  · rw [if_neg (by simpa using htype)]
    split
    · rename_i hfind
      exact hnone htype hfind
    · rename_i off hfind
      exact (hsome off htype hfind).bind (fun r hr => hr)
  · rw [if_pos htype]
    exact hE _ nofun nofun

end Rules

section Frames

/-- A relation between states that holds across changes of cache entries and the freeing of
inodes. -/
structure Frame (R : State n → State n → Prop) : Prop where
  refl : ∀ s, R s s
  trans : ∀ s t u, R s t → R t u → R s u
  entry : ∀ s i e, R s (s.setInode i e)
  freed : ∀ s i, R s (s.setNode i (s.node i).freed)

variable {R : State n → State n → Prop}

theorem iget_frame (hR : Frame R) (s : State n) (inum : Nat) :
    Yields (fun _ => True) (fun r => R s r.1) (iget s inum) :=
  iget_rule lenient_true inum (fun _ _ _ => hR.entry _ _ _) (fun _ _ _ => hR.entry _ _ _)

theorem ilock_frame (hR : Frame R) (s : State n) (i : Slot) :
    Yields (fun _ => True) (R s) (ilock s i) :=
  ilock_rule lenient_true i (fun _ _ _ => trivial) (fun _ _ _ => hR.entry _ _ _)

theorem iput_frame (hR : Frame R) (s : State n) (i : Slot) :
    Yields (fun _ => True) (R s) (iput s i) :=
  iput_rule lenient_true i (fun _ _ => hR.trans _ _ _ (hR.freed _ _) (hR.entry _ _ _))
    (fun _ => hR.entry _ _ _)

theorem iunlockput_frame (hR : Frame R) (s : State n) (i : Slot) :
    Yields (fun _ => True) (R s) (iunlockput s i) := by
  have hunlock : Yields (fun _ => True) (R s) (iunlock s i) :=
    iunlock_rule lenient_true i (fun _ _ => hR.entry _ _ _)
  exact hunlock.bind (fun t ht => (iput_frame hR t i).mono (fun u hu => hR.trans _ _ _ ht hu))

theorem dirlookup_frame (hR : Frame R) (s : State n) (dp : Slot) (name : Path) :
    Yields (fun _ => True) (fun r => R s r.1) (dirlookup s dp name) :=
  dirlookup_rule lenient_true dp name (fun _ _ => hR.refl s) (fun _ _ _ => iget_frame hR s _)

theorem namexLoop_frame (hR : Frame R) (parent : Bool) (names : List Path) (s : State n)
    (ip : Slot) :
    Yields (fun _ => True) (fun r => R s r.1) (namexLoop parent names s ip) := by
  induction names generalizing s ip with
  | nil =>
    unfold namexLoop
    split
    · exact (iput_frame hR s ip).bind (fun t ht => ht)
    · exact hR.refl s
  | cons name rest ih =>
    unfold namexLoop
    apply (ilock_frame hR s ip).bind
    intro t ht
    split
    · exact (iunlockput_frame hR t ip).bind (fun u hu => hR.trans _ _ _ ht hu)
    · split
      · have hunlock : Yields (fun _ => True) (R t) (iunlock t ip) :=
          iunlock_rule lenient_true ip (fun _ _ => hR.entry _ _ _)
        exact hunlock.bind (fun u hu => hR.trans _ _ _ ht hu)
      · apply (dirlookup_frame hR t ip name).bind
        intro r hr
        apply (iunlockput_frame hR r.1 ip).bind
        intro u hu
        have hsu : R s u := hR.trans _ _ _ ht (hR.trans _ _ _ hr hu)
        split
        · exact hsu
        · rename_i next _ _
          exact (ih u next).mono (fun q hq => hR.trans _ _ _ hsu hq)

theorem namex_frame (hR : Frame R) (s : State n) (p : Fin n) (path : Path) (parent : Bool) :
    Yields (fun _ => True) (fun r => R s r.1) (namex s p path parent) := by
  have hstart : Yields (fun _ => True) (fun r => R s r.1) (namexStart s p path) := by
    unfold namexStart
    split
    · exact iget_frame hR s ROOTINO
    · split
      · trivial
      · exact hR.entry _ _ _
  apply hstart.bind
  intro r hr
  exact (namexLoop_frame hR parent _ r.1 r.2).mono (fun q hq => hR.trans _ _ _ hr hq)

theorem namei_frame (hR : Frame R) (s : State n) (p : Fin n) (path : Path) :
    Yields (fun _ => True) (fun r => R s r.1) (namei s p path) :=
  (namex_frame hR s p path false).bind (fun _ hr => hr)

theorem openRound_frame (hR : Frame R) (s : State n) (p : Fin n) (path : Path) (omode : Nat) :
    Yields (fun _ => True) (fun r => R s r.1) (openRound s p path omode) := by
  apply (namei_frame hR s p path).bind
  intro r hr
  split
  · exact hr
  · rename_i ip _
    exact (ilock_frame hR r.1 ip).bind (fun t ht => hR.trans _ _ _ hr ht)

end Frames

end Xv6Labs.Dir
