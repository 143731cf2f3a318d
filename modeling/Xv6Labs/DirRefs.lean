import Xv6Labs.DirRules
import Xv6Labs.Tally

/-! Inode references of the `file system` kernel. An entry of the inode cache is referenced by
open files, by current directories and by the call that is under way; a call gives back every
reference and lock that it has taken, on every path. -/
namespace Xv6Labs.Dir

variable {n : Nat} {s s' : State n} {p : Fin n} {J L : List Slot} {d : Int} {i : Slot}
  {E : Panic → Prop}

section Held

/-- The open files and current directories that refer to the cache entry `i`. -/
def users (s : State n) (i : Slot) : Nat :=
  tally (fun f => (s.file f).inode.toList) i + tally (fun p => (s.proc p).cwd.toList) i

/-- Free files have no type, and only a running process has a current directory. -/
structure Tables (file : FileId → File) (proc : Fin n → Proc) : Prop where
  closed : ∀ f, (file f).ref = 0 → (file f).type = .none
  idle : ∀ p, (proc p).state ≠ .running → (proc p).cwd = none

/-- The counts are exact, when a call holds the references `J` and the locks `L` at the moment
and `d` operations are open in the log. -/
structure Held (s : State n) (J L : List Slot) (d : Int) : Prop where
  refs : ∀ i, (s.icache i).ref = users s i + J.count i
  unique : ∀ i j, 0 < (s.icache i).ref → 0 < (s.icache j).ref →
    (s.icache i).inum = (s.icache j).inum → i = j
  locks : ∀ i, (s.icache i).locked = true ↔ i ∈ L
  nodup : L.Nodup
  taken : ∀ i ∈ L, 0 < (s.icache i).ref ∧ (s.icache i).valid = true
  alloc : ∀ i, 0 < (s.icache i).ref → (s.icache i).valid = true ∨ 0 < users s i →
    (s.node i).type ≠ .free
  ops : s.outstanding = d
  tables : Tables s.file s.proc

/-- A change of an entry that stays with its inode. -/
theorem Held.touch (h : Held s J L d) (i : Slot) (e : Inode) {J' L' : List Slot}
    (hinum : e.inum = (s.icache i).inum) (href : e.ref = users s i + J'.count i)
    (hJ : ∀ j, j ≠ i → J'.count j = J.count j) (hpos : 0 < e.ref → 0 < (s.icache i).ref)
    (hlock : e.locked = true ↔ i ∈ L') (hL : ∀ j, j ≠ i → (j ∈ L' ↔ j ∈ L)) (hnodup : L'.Nodup)
    (htaken : i ∈ L' → 0 < e.ref ∧ e.valid = true)
    (halloc : 0 < e.ref → e.valid = true ∨ 0 < users s i → (s.node i).type ≠ .free) :
    Held (s.setInode i e) J' L' d := by
  have hnode (j : Slot) := setInode_node s i j e hinum
  refine ⟨?_, ?_, ?_, hnodup, ?_, ?_, h.ops, h.tables⟩
  · intro j
    rw [setInode_icache]
    split
    · rename_i hj
      rw [hj]
      exact href
    · rename_i hj
      rw [hJ j hj]
      exact h.refs j
  · intro j k hj hk hjk
    rw [setInode_icache] at hj hk
    have hj' : 0 < (s.icache j).ref := by
      split at hj
      · rename_i hji
        rw [hji]
        exact hpos hj
      · exact hj
    have hk' : 0 < (s.icache k).ref := by
      split at hk
      · rename_i hki
        rw [hki]
        exact hpos hk
      · exact hk
    have hsame (m : Slot) : ((s.setInode i e).icache m).inum = (s.icache m).inum := by
      rw [setInode_icache]
      split
      · rename_i hm
        rw [hm, hinum]
      · rfl
    rw [hsame, hsame] at hjk
    exact h.unique j k hj' hk' hjk
  · intro j
    rw [setInode_icache]
    split
    · rename_i hj
      rw [hj]
      exact hlock
    · rename_i hj
      rw [hL j hj]
      exact h.locks j
  · intro j hj
    rw [setInode_icache]
    split
    · rename_i hji
      subst hji
      exact htaken hj
    · rename_i hji
      exact h.taken j ((hL j hji).mp hj)
  · intro j hj
    rw [hnode j]
    rw [setInode_icache] at hj ⊢
    split at hj
    · rename_i hji
      rw [if_pos hji, hji]
      exact halloc hj
    · rename_i hji
      rw [if_neg hji]
      exact h.alloc j hj

/-- A new content for an inode that stays allocated. -/
theorem Held.write (h : Held s J L d) (k : Nat) (b : Dinode) (hb : b.type ≠ .free) :
    Held (s.setDisk k b) J L d := by
  refine ⟨h.refs, h.unique, h.locks, h.nodup, h.taken, ?_, h.ops, h.tables⟩
  intro j hj hv
  have halloc := h.alloc j hj hv
  unfold State.node at halloc ⊢
  rw [setDisk_disk]
  split
  · exact hb
  · exact halloc

theorem Held.setNode (h : Held s J L d) (i : Slot) (b : Dinode) (hb : b.type ≠ .free) :
    Held (s.setNode i b) J L d :=
  h.write _ b hb

theorem Held.locked_alloc (h : Held s J L d) (hi : i ∈ L) : (s.node i).type ≠ .free := by
  obtain ⟨href, hvalid⟩ := h.taken i hi
  exact h.alloc i href (Or.inl hvalid)

/-- A change of a locked inode that keeps its type. -/
theorem Held.edit (h : Held s J L d) (hi : i ∈ L) (b : Dinode) (hb : b.type = (s.node i).type) :
    Held (s.setNode i b) J L d :=
  h.setNode i b (hb ▸ h.locked_alloc hi)

theorem Held.permJ (h : Held s J L d) {J' : List Slot} (hJ : J'.Perm J) : Held s J' L d := by
  refine ⟨?_, h.unique, h.locks, h.nodup, h.taken, h.alloc, h.ops, h.tables⟩
  intro i
  rw [hJ.count_eq]
  exact h.refs i

theorem Held.permL (h : Held s J L d) {L' : List Slot} (hL : L'.Perm L) : Held s J L' d := by
  refine ⟨h.refs, h.unique, ?_, hL.nodup_iff.mpr h.nodup, ?_, h.alloc, h.ops, h.tables⟩
  · intro i
    rw [hL.mem_iff]
    exact h.locks i
  · intro i hi
    exact h.taken i (hL.mem_iff.mp hi)

theorem Held.swap (h : Held s J L d) {a b : Slot} {J' : List Slot} (hJ : J = a :: b :: J') :
    Held s (b :: a :: J') L d := by
  subst hJ
  exact h.permJ (List.Perm.swap a b J')

theorem Held.beginOp (h : Held s J L d) : Held (beginOp s) J L (d + 1) :=
  ⟨h.refs, h.unique, h.locks, h.nodup, h.taken, h.alloc, congrArg (· + 1) h.ops, h.tables⟩

theorem Held.endOp (h : Held s J L (d + 1)) : Held (endOp s) J L d := by
  refine ⟨h.refs, h.unique, h.locks, h.nodup, h.taken, h.alloc, ?_, h.tables⟩
  have hops := h.ops
  simp only [Dir.endOp]
  omega

end Held

section Inodes

theorem iget_held (h : Held s J L d) (hE : Lenient E) (inum : Nat) :
    Yields E (fun r => Held r.1 (r.2 :: J) L d) (iget s inum) := by
  apply iget_rule hE
  · intro i href hinum
    have hrefs := h.refs i
    refine h.touch i _ hinum.symm ?_ ?_ (fun _ => href) (h.locks i) (fun _ _ => Iff.rfl) h.nodup
      ?_ (fun _ => h.alloc i href)
    · rw [List.count_cons_self]
      push_cast
      omega
    · intro j hj
      rw [List.count_cons_of_ne hj.symm]
    · intro hi
      exact ⟨by simp only; omega, (h.taken i hi).2⟩
  · -- the entry was free, so nothing else refers to it and it is not locked
    intro i hmiss hfree
    have hrefs := h.refs i
    -- a slot without references is not locked
    have hunlocked : i ∉ L := by
      intro hi
      have hpos := (h.taken i hi).1
      omega
    refine ⟨?_, ?_, ?_, h.nodup, ?_, ?_, h.ops, h.tables⟩
    · intro j
      change _ = (users s j : Int) + _
      rw [setInode_icache]
      split
      · rename_i hj
        rw [hj, List.count_cons_self]
        push_cast
        omega
      · rename_i hj
        rw [List.count_cons_of_ne (Ne.symm hj)]
        exact h.refs j
    · intro j k hj hk hjk
      rw [setInode_icache] at hj hjk
      rw [setInode_icache] at hk hjk
      by_cases hji : j = i
      · by_cases hki : k = i
        · rw [hji, hki]
        · rw [if_neg hki] at hk hjk
          rw [if_pos hji] at hjk
          exact absurd hjk.symm (hmiss k hk)
      · rw [if_neg hji] at hj hjk
        by_cases hki : k = i
        · rw [if_pos hki] at hjk
          exact absurd hjk (hmiss j hj)
        · rw [if_neg hki] at hk hjk
          exact h.unique j k hj hk hjk
    · intro j
      rw [setInode_icache]
      split
      · rename_i hj
        rw [hj]
        exact h.locks i
      · exact h.locks j
    · intro j hj
      have hji : j ≠ i := fun hji => hunlocked (hji ▸ hj)
      rw [setInode_icache, if_neg hji]
      exact h.taken j hj
    · -- the new entry is not valid yet and no process has it
      intro j hj hv
      rw [setInode_icache] at hj hv
      by_cases hji : j = i
      · rw [if_pos hji] at hv
        rcases hv with hv | hv
        · cases hv
        · have hu : 0 < users s i := hji ▸ hv
          omega
      · rw [if_neg hji] at hj hv
        have hnode : (s.setInode i ⟨inum, 1, false, (s.icache i).locked⟩).node j = s.node j := by
          simp [State.node, hji]
        rw [hnode]
        exact h.alloc j hj hv

theorem idup_held (h : Held s J L d) (i : Slot) (hi : 0 < users s i) :
    Held (idup s i) (i :: J) L d := by
  have hrefs := h.refs i
  have href : 0 < (s.icache i).ref := by omega
  refine h.touch i _ rfl ?_ ?_ (fun _ => href) (h.locks i) (fun _ _ => Iff.rfl) h.nodup
    ?_ (fun _ => h.alloc i href)
  · rw [List.count_cons_self]
    push_cast
    omega
  · intro j hj
    rw [List.count_cons_of_ne hj.symm]
  · intro hl
    exact ⟨by simp only; omega, (h.taken i hl).2⟩

theorem ilock_held (h : Held s J L d) (hE : Lenient E) (hno : E .noType) (i : Slot) :
    Yields E (fun s' => Held s' J (i :: L) d ∧ (s'.node i) = s.node i) (ilock s i) := by
  apply ilock_rule hE i (fun _ _ _ => hno)
  intro href hlock hvalid
  have hnot : i ∉ L := by
    intro hl
    rw [(h.locks i).mpr hl] at hlock
    cases hlock
  refine ⟨?_, setInode_node s i i _ rfl⟩
  refine h.touch i _ rfl (h.refs i) (fun _ _ => rfl) (fun _ => by omega) ?_ ?_ ?_ ?_ ?_
  · simp
  · intro j hj
    simp [hj]
  · exact List.nodup_cons.mpr ⟨hnot, h.nodup⟩
  · exact fun _ => ⟨by simp only; omega, rfl⟩
  · intro _ _
    rcases hvalid with hvalid | hvalid
    · exact h.alloc i (by omega) (Or.inl hvalid)
    · exact hvalid

theorem iunlock_held (h : Held s J (i :: L) d) (hE : Lenient E) :
    Yields E (fun s' => Held s' J L d ∧ (s'.node i) = s.node i) (iunlock s i) := by
  apply iunlock_rule hE i
  intro _ href
  have hnot : i ∉ L := (List.nodup_cons.mp h.nodup).1
  refine ⟨?_, setInode_node s i i _ rfl⟩
  refine h.touch i _ rfl (h.refs i) (fun _ _ => rfl) (fun _ => by omega) ?_ ?_ ?_ ?_ ?_
  · simp [hnot]
  · intro j hj
    simp [hj]
  · exact (List.nodup_cons.mp h.nodup).2
  · exact fun hl => absurd hl hnot
  · exact fun href' => h.alloc i (by omega)

/-- When iput frees an inode, no file and no current directory refers to it. -/
theorem Held.last_use (h : Held s (i :: J) L d) (hlast : LastUse s i) :
    users s i = 0 ∧ J.count i = 0 := by
  have hrefs := h.refs i
  rw [hlast.1, List.count_cons_self] at hrefs
  push_cast at hrefs
  omega

theorem iput_held (h : Held s (i :: J) L d) (hE : Lenient E)
    (hi : i ∈ L → 0 < users s i + J.count i) :
    Yields E (fun s' => Held s' J L d) (iput s i) := by
  have hrefs := h.refs i
  rw [List.count_cons_self] at hrefs
  push_cast at hrefs
  apply iput_rule hE i
  · intro hlast hlock
    obtain ⟨husers, hJ⟩ := h.last_use hlast
    -- the last reference is not a locked one: the holder would need another
    have hnot : i ∉ L := by
      intro hl
      rw [(h.locks i).mpr hl] at hlock
      cases hlock
    refine ⟨?_, ?_, ?_, h.nodup, ?_, ?_, h.ops, h.tables⟩
    · intro j
      change _ = (users s j : Int) + _
      rw [setInode_icache]
      split
      · rename_i hj
        rw [hj, husers, hJ]
        rfl
      · rename_i hj
        have hj' := h.refs j
        rw [List.count_cons_of_ne (Ne.symm hj)] at hj'
        exact hj'
    · intro j k hj hk hjk
      rw [setInode_icache] at hj hjk
      rw [setInode_icache] at hk hjk
      by_cases hji : j = i
      · rw [if_pos hji] at hj
        exact absurd hj (lt_irrefl 0)
      · by_cases hki : k = i
        · rw [if_pos hki] at hk
          exact absurd hk (lt_irrefl 0)
        · rw [if_neg hji] at hj hjk
          rw [if_neg hki] at hk hjk
          exact h.unique j k hj hk hjk
    · intro j
      rw [setInode_icache]
      split
      · rename_i hj
        rw [hj]
        simp [hnot]
      · exact h.locks j
    · intro j hj
      have hji : j ≠ i := fun hji => hnot (hji ▸ hj)
      rw [setInode_icache, if_neg hji]
      exact h.taken j hj
    · -- another entry with a reference has another inode
      intro j hj hv
      rw [setInode_icache] at hj hv
      by_cases hji : j = i
      · rw [if_pos hji] at hj
        exact absurd hj (lt_irrefl 0)
      · rw [if_neg hji] at hj hv
        have hinum : (s.icache j).inum ≠ (s.icache i).inum := by
          intro heq
          exact hji (h.unique j i hj (by rw [hlast.1]; decide) heq)
        have hnode : ((s.setNode i (s.node i).freed).setInode i
            ⟨(s.icache i).inum, 0, false, false⟩).node j = s.node j := by
          simp [State.node, hji, hinum]
        rw [hnode]
        exact h.alloc j hj hv
  · intro _
    -- not the last reference: one less, and nothing else changes
    refine h.touch i _ rfl ?_ ?_ ?_ (h.locks i) (fun _ _ => Iff.rfl) h.nodup ?_ ?_
    · simp only
      omega
    · intro j hj
      rw [List.count_cons_of_ne hj.symm]
    · simp only
      omega
    · intro hl
      have hpos := hi hl
      exact ⟨by simp only; omega, (h.taken i hl).2⟩
    · simp only
      exact fun href => h.alloc i (by omega)

theorem iunlockput_held (h : Held s (i :: J) (i :: L) d) (hE : Lenient E) :
    Yields E (fun s' => Held s' J L d) (iunlockput s i) := by
  apply (iunlock_held h hE).bind
  intro t ht
  exact iput_held ht.1 hE (fun hl => absurd hl (List.nodup_cons.mp h.nodup).1)

end Inodes

section Paths

/-- Every panic is allowed: the result is about calls that return. -/
abbrev Any : Panic → Prop := fun _ => True

theorem dirlookup_held (h : Held s J L d) (dp : Slot) (name : Path) :
    Yields Any (fun r => Held r.1 ((r.2.map Prod.fst).toList ++ J) L d) (dirlookup s dp name) :=
  dirlookup_rule lenient_true dp name (fun _ _ => h) (fun _ _ _ => iget_held h lenient_true _)

theorem dirlink_held (h : Held s J L d) {dp : Slot} (hdp : dp ∈ L) (name : Path) (inum : Nat) :
    Yields Any (fun r => Held r.1 J L d) (dirlink s dp name inum) := by
  have husers := dirlookup_frame (R := fun a b : State n => users b = users a)
    ⟨fun _ => rfl, fun _ _ _ hab hbc => hbc.trans hab, fun _ _ _ => rfl, fun _ _ => rfl⟩ s dp name
  apply ((dirlookup_held h dp name).and husers).bind
  rintro ⟨t, o⟩ ⟨ht, husers⟩
  cases o with
  | some x =>
    have hin : x.1 ∈ L → 0 < users t x.1 + J.count x.1 := by
      intro hl
      have hpos := (h.taken x.1 hl).1
      rw [h.refs x.1] at hpos
      rw [husers]
      omega
    exact (iput_held ht lenient_true hin).bind (fun u hu => hu)
  | none => exact ht.edit hdp _ rfl

theorem namexLoop_held (parent : Bool) (names : List Path) (ip : Slot)
    (h : Held s (ip :: J) [] d) :
    Yields Any (fun r => Held r.1 ((r.2.map Prod.fst).toList ++ J) [] d)
      (namexLoop parent names s ip) := by
  induction names generalizing s ip with
  | nil =>
    unfold namexLoop
    split
    · exact (iput_held h lenient_true (by simp)).bind (fun t ht => ht)
    · exact h
  | cons name rest ih =>
    unfold namexLoop
    apply (ilock_held h lenient_true trivial ip).bind
    intro t ht
    split
    · exact (iunlockput_held ht.1 lenient_true).bind (fun u hu => hu)
    · split
      · exact (iunlock_held ht.1 lenient_true).bind (fun u hu => hu.1)
      · apply (dirlookup_held ht.1 ip name).bind
        rintro ⟨u, o⟩ hu
        apply (iunlockput_held (hu.permJ List.perm_middle.symm) lenient_true).bind
        intro v hv
        cases o with
        | none => exact hv
        | some x => exact ih x.1 hv

theorem users_cwd (h : (s.proc p).cwd = some i) : 0 < users s i := by
  have hle := count_le_tally (fun q => (s.proc q).cwd.toList) p i
  simp only [h, Option.toList_some, List.count_singleton_self] at hle
  unfold users
  omega

theorem namex_held (h : Held s J [] d) (p : Fin n) (path : Path) (parent : Bool) :
    Yields Any (fun r => Held r.1 ((r.2.map Prod.fst).toList ++ J) [] d)
      (namex s p path parent) := by
  have hstart : Yields Any (fun r => Held r.1 (r.2 :: J) [] d) (namexStart s p path) := by
    unfold namexStart
    split
    · exact iget_held h lenient_true ROOTINO
    · split
      · trivial
      · rename_i c hc
        exact idup_held h c (users_cwd hc)
  exact hstart.bind (fun r hr => namexLoop_held parent (elems path) r.2 hr)

theorem namei_held (h : Held s J [] d) (p : Fin n) (path : Path) :
    Yields Any (fun r => Held r.1 (r.2.toList ++ J) [] d) (namei s p path) :=
  (namex_held h p path false).bind (fun _ hr => hr)

end Paths

section Create

variable {dp ip : Slot} {type : Kind}

theorem ialloc_held (h : Held s J L d) (htype : type ≠ .free) :
    Yields Any (fun r => Held r.1 (r.2 :: J) L d) (ialloc s type) := by
  unfold ialloc
  split
  · trivial
  · exact iget_held (h.write _ _ htype) lenient_true _

theorem createBody_held (h : Held s J L d) (hdp : dp ∈ L) (hip : ip ∈ L) :
    Yields Any (fun s' => Held s' J L d) (createBody s dp ip type) := by
  unfold createBody
  split
  · unfold createDots
    refine (dirlink_held (h.edit hdp _ ?_) hip dot _).bind ?_
    · rfl
    intro r hr
    split
    · apply (dirlink_held hr hip dotdot _).bind
      intro q hq
      split
      · exact hq
      · trivial
    · trivial
  · exact h

theorem createNew_held (h : Held s (dp :: J) [dp] d) (name : Path) (major minor : Int)
    (htype : type ≠ .free) :
    Yields Any (fun r => Held r.1 (r.2 :: J) [r.2] d) (createNew s dp name type major minor) := by
  apply (ialloc_held h htype).bind
  rintro ⟨t, ip⟩ ht
  apply (ilock_held ht lenient_true trivial ip).bind
  rintro u ⟨hu, -⟩
  have hdp : dp ∈ [ip, dp] := List.mem_cons_of_mem _ List.mem_cons_self
  have hip : ip ∈ [ip, dp] := List.mem_cons_self
  refine (createBody_held (hu.edit hip _ ?_) hdp hip).bind ?_
  · rfl
  intro v hv
  apply (dirlink_held hv hdp name _).bind
  intro r hr
  split
  · have hswap := (hr.swap rfl).permL (List.Perm.swap ip dp [])
    exact (iunlockput_held hswap lenient_true).bind (fun w hw => hw)
  · trivial

theorem create_held (h : Held s J [] d) (p : Fin n) (path : Path) (major minor : Int)
    (htype : type ≠ .free) :
    Yields Any (fun r => Held r.1 (r.2.toList ++ J) r.2.toList d)
      (create s p path type major minor) := by
  apply (namex_held h p path true).bind
  rintro ⟨t, o⟩ ht
  cases o with
  | none => exact ht
  | some x =>
    apply (ilock_held ht lenient_true trivial x.1).bind
    rintro u ⟨hu, -⟩
    apply (dirlookup_held hu x.1 x.2).bind
    rintro ⟨v, o⟩ hv
    cases o with
    | none => exact (createNew_held hv x.2 major minor htype).bind (fun w hw => hw)
    | some y =>
      apply (iunlockput_held (hv.swap rfl) lenient_true).bind
      intro w hw
      apply (ilock_held hw lenient_true trivial y.1).bind
      rintro w' ⟨hw', -⟩
      split
      · exact hw'
      · exact (iunlockput_held hw' lenient_true).bind (fun w'' hw'' => hw'')

end Create

end Xv6Labs.Dir
