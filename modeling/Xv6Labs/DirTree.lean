import Xv6Labs.DirRules
import Xv6Labs.Tally

/-! The directory tree on the disk: link counts, "." and "..", and what adding and removing an
entry does to them. A directory is live while its own link count is positive. -/
namespace Xv6Labs.Dir

section Entries

variable {k : Nat} {d : Dinode} {l : List Dirent}

def Dinode.live (d : Dinode) : Prop := d.type = .dir ∧ 0 < d.nlink

instance (d : Dinode) : Decidable d.live := inferInstanceAs (Decidable (_ ∧ _))

/-- The inodes that a list of entries refers to. -/
def kids (l : List Dirent) : List Nat :=
  (l.filter (fun e => decide (e.inum ≠ 0))).map Dirent.inum

/-- The inodes of the entries of a live directory that are not named ".". -/
def Dinode.links (d : Dinode) : List Nat :=
  if d.live then kids (d.dirents.filter (fun e => decide (e.name ≠ dot))) else []

/-- The same without "..". -/
def Dinode.named (d : Dinode) : List Nat := if d.live then kids (d.dirents.drop 2) else []

/-- The inode of "..". -/
def Dinode.up (d : Dinode) : Nat := (entryAt d.dirents 1).inum

/-- Directory `k` starts with "." and "..", and no other entry has these names. -/
structure Shape (k : Nat) (d : Dinode) : Prop where
  dots : d.dirents = ⟨k, dot⟩ :: ⟨d.up, dotdot⟩ :: d.dirents.drop 2
  pos : 0 < k ∧ 0 < d.up
  rest : ∀ e ∈ d.dirents.drop 2, e.inum ≠ 0 → e.name ≠ dot ∧ e.name ≠ dotdot

theorem kids_cons (e : Dirent) (l : List Dirent) :
    kids (e :: l) = if e.inum = 0 then kids l else e.inum :: kids l := by
  unfold kids
  by_cases he : e.inum = 0 <;> simp [he]

theorem mem_kids (j : Nat) : j ∈ kids l ↔ ∃ e ∈ l, e.inum ≠ 0 ∧ e.inum = j := by
  unfold kids
  simp [and_assoc]

theorem kids_addEntry (e : Dirent) (he : e.inum ≠ 0) (j : Nat) :
    (kids (addEntry l e)).count j = (kids l).count j + if e.inum = j then 1 else 0 := by
  induction l with
  | nil =>
    rw [addEntry, kids_cons, if_neg he, List.count_cons]
    simp only [beq_iff_eq]
  | cons x l ih =>
    unfold addEntry
    by_cases hx : x.inum = 0
    · rw [if_pos hx, kids_cons, kids_cons, if_neg he, if_pos hx, List.count_cons]
      simp only [beq_iff_eq]
    · rw [if_neg hx, kids_cons, kids_cons, if_neg hx, if_neg hx, List.count_cons, List.count_cons,
        ih]
      omega

/-- An entry that is removed. -/
theorem kids_set (off : Nat) (hoff : off < l.length) (hl : l[off].inum ≠ 0) (j : Nat) :
    (kids (l.set off ⟨0, []⟩)).count j + (if l[off].inum = j then 1 else 0) =
      (kids l).count j := by
  induction l generalizing off with
  | nil => exact absurd hoff (Nat.not_lt_zero _)
  | cons x l ih =>
    cases off with
    | zero =>
      have hx : x.inum ≠ 0 := hl
      rw [List.set_cons_zero, kids_cons, kids_cons, if_pos rfl, if_neg hx, List.count_cons]
      simp only [beq_iff_eq, List.getElem_cons_zero]
    | succ off =>
      have hlt : off < l.length := by simpa using hoff
      have hrest := ih off hlt hl
      rw [List.set_cons_succ, kids_cons, kids_cons]
      by_cases hx : x.inum = 0
      · rw [if_pos hx, if_pos hx]
        exact hrest
      · rw [if_neg hx, if_neg hx, List.count_cons, List.count_cons]
        simp only [List.getElem_cons_succ]
        omega

/-- The entries of a live directory: ".." and the others. -/
theorem Shape.links_eq (h : Shape k d) (hlive : d.live) : d.links = d.up :: d.named := by
  unfold Dinode.links Dinode.named
  rw [if_pos hlive, if_pos hlive]
  conv_lhs => rw [h.dots]
  have hdd : dotdot ≠ dot := by decide
  simp only [List.filter_cons, decide_not, ne_eq, decide_true, Bool.not_true,
    Bool.false_eq_true, if_false, hdd, decide_false, Bool.not_false, if_true]
  rw [kids_cons, if_neg (Nat.ne_of_gt h.pos.2)]
  congr 1
  -- an entry named "." after the first two is free, so the filter drops no inode
  have hall : ∀ e ∈ d.dirents.drop 2, e.inum ≠ 0 → e.name ≠ dot :=
    fun e he hne => (h.rest e he hne).1
  generalize d.dirents.drop 2 = l at hall
  induction l with
  | nil => rfl
  | cons x l ih =>
    have hl := ih (fun e he => hall e (List.mem_cons_of_mem _ he))
    by_cases hx : x.inum = 0
    · rw [kids_cons, if_pos hx, ← hl, List.filter_cons]
      split
      · rw [kids_cons, if_pos hx]
      · rfl
    · have hname := hall x List.mem_cons_self hx
      rw [List.filter_cons, if_pos (by simpa using hname), kids_cons, kids_cons, if_neg hx,
        if_neg hx, hl]

theorem Shape.add (h : Shape k d) {e : Dirent} (hname : e.name ≠ dot ∧ e.name ≠ dotdot)
    {A : Dinode} (hA : A.dirents = addEntry d.dirents e) :
    Shape k A ∧ A.up = d.up ∧ A.dirents.drop 2 = addEntry (d.dirents.drop 2) e := by
  have hdirents : A.dirents = ⟨k, dot⟩ :: ⟨d.up, dotdot⟩ :: addEntry (d.dirents.drop 2) e := by
    rw [hA]
    conv_lhs => rw [h.dots]
    simp only [addEntry, if_neg (Nat.ne_of_gt h.pos.1), if_neg (Nat.ne_of_gt h.pos.2)]
  have hup : A.up = d.up := by
    simp only [Dinode.up, hdirents]
    rfl
  have hdrop : A.dirents.drop 2 = addEntry (d.dirents.drop 2) e := by
    rw [hdirents]
    rfl
  refine ⟨⟨?_, ?_, ?_⟩, hup, hdrop⟩
  · rw [hup, hdrop]
    exact hdirents
  · rw [hup]
    exact h.pos
  · rw [hdrop]
    intro x hx hne
    have hmem : x = e ∨ x ∈ d.dirents.drop 2 := by
      generalize d.dirents.drop 2 = l at hx
      induction l with
      | nil => exact Or.inl (List.mem_singleton.mp hx)
      | cons y l ih =>
        unfold addEntry at hx
        split at hx
        · rcases List.mem_cons.mp hx with hx | hx
          · exact Or.inl hx
          · exact Or.inr (List.mem_cons_of_mem _ hx)
        · rcases List.mem_cons.mp hx with hx | hx
          · exact Or.inr (hx ▸ List.mem_cons_self)
          · exact (ih hx).imp id (List.mem_cons_of_mem _)
    rcases hmem with rfl | hmem
    · exact hname
    · exact h.rest x hmem hne

theorem Shape.remove (h : Shape k d) {off : Nat} (hoff : 2 ≤ off) {A : Dinode}
    (hA : A.dirents = d.dirents.set off ⟨0, []⟩) :
    Shape k A ∧ A.up = d.up ∧ A.dirents.drop 2 = (d.dirents.drop 2).set (off - 2) ⟨0, []⟩ := by
  obtain ⟨off, rfl⟩ : ∃ o, off = o + 2 := ⟨off - 2, by omega⟩
  have hdirents : A.dirents = ⟨k, dot⟩ :: ⟨d.up, dotdot⟩ :: (d.dirents.drop 2).set off ⟨0, []⟩ := by
    rw [hA]
    conv_lhs => rw [h.dots]
    rfl
  have hup : A.up = d.up := by
    simp only [Dinode.up, hdirents]
    rfl
  have hdrop : A.dirents.drop 2 = (d.dirents.drop 2).set off ⟨0, []⟩ := by
    rw [hdirents]
    rfl
  refine ⟨⟨?_, ?_, ?_⟩, hup, hdrop⟩
  · rw [hup, hdrop]
    exact hdirents
  · rw [hup]
    exact h.pos
  · rw [hdrop]
    intro x hx hne
    rcases List.mem_or_eq_of_mem_set hx with hx | hx
    · exact h.rest x hx hne
    · rw [hx] at hne
      exact absurd rfl hne

end Entries

section Totals

variable {m a b k : Nat} {disk : Nat → Dinode}

/-- How often an inode occurs among what `f` lists for the inodes of the disk. -/
def total (f : Dinode → List Nat) (m : Nat) (disk : Nat → Dinode) (k : Nat) : Nat :=
  tally (fun i : Fin m => f (disk i)) k

theorem count_le_total (f : Dinode → List Nat) (disk : Nat → Dinode) {i : Nat} (hi : i < m)
    (k : Nat) : (f (disk i)).count k ≤ total f m disk k :=
  count_le_tally (fun i : Fin m => f (disk i)) ⟨i, hi⟩ k

theorem total_pos_of_mem (f : Dinode → List Nat) {i : Nat} (hi : i < m) (hk : k ∈ f (disk i)) :
    0 < total f m disk k := by
  have hle := count_le_total f disk hi k
  have hpos := List.count_pos_iff.mpr hk
  omega

theorem exists_of_total_pos (f : Dinode → List Nat) (h : 0 < total f m disk k) :
    ∃ i, i < m ∧ k ∈ f (disk i) := by
  unfold total tally at h
  obtain ⟨i, -, hi⟩ := Finset.exists_ne_zero_of_sum_ne_zero (Nat.ne_of_gt h)
  exact ⟨i, i.isLt, List.count_pos_iff.mp (Nat.pos_of_ne_zero hi)⟩

theorem total_update (f : Dinode → List Nat) (disk : Nat → Dinode) (ha : a < m) (A : Dinode)
    (j : Nat) :
    total f m (Function.update disk a A) j + (f (disk a)).count j =
      total f m disk j + (f A).count j := by
  have hfun : (fun i : Fin m => f (Function.update disk a A i)) =
      Function.update (fun i : Fin m => f (disk i)) ⟨a, ha⟩ (f A) := by
    funext i
    by_cases hi : i.val = a
    · have hi' : i = ⟨a, ha⟩ := Fin.ext hi
      subst hi'
      simp
    · have hi' : i ≠ ⟨a, ha⟩ := fun h => hi (congrArg Fin.val h)
      simp [hi, hi']
  unfold total
  rw [hfun]
  exact tally_update (fun i : Fin m => f (disk i)) ⟨a, ha⟩ (f A) j

theorem total_update_two (f : Dinode → List Nat) (disk : Nat → Dinode) (ha : a < m) (hb : b < m)
    (hab : a ≠ b) (A B : Dinode) (j : Nat) :
    total f m (Function.update (Function.update disk a A) b B) j + (f (disk a)).count j +
        (f (disk b)).count j = total f m disk j + (f A).count j + (f B).count j := by
  have h1 := total_update f disk ha A j
  have h2 := total_update f (Function.update disk a A) hb B j
  rw [Function.update_of_ne hab.symm] at h2
  omega

/-- What a live directory counts for its parent. -/
def Dinode.ups (d : Dinode) : List Nat := if d.live then [d.up] else []

theorem total_links_eq (hshape : ∀ k, (disk k).type = .dir → Shape k (disk k)) (k : Nat) :
    total Dinode.links m disk k = total Dinode.ups m disk k + total Dinode.named m disk k := by
  unfold total tally
  rw [← Finset.sum_add_distrib]
  apply Finset.sum_congr rfl
  intro i _
  simp only
  by_cases hlive : (disk i).live
  · rw [(hshape i hlive.1).links_eq hlive]
    simp only [Dinode.ups, if_pos hlive, List.count_cons, List.count_nil]
    omega
  · simp [Dinode.links, Dinode.ups, Dinode.named, hlive]

end Totals

section Tree

variable {m a b k : Nat} {disk : Nat → Dinode} {A B : Dinode}

/-- Link counts are the entries in live directories, which form a tree below the root. A
directory whose link count is 0 is empty. -/
structure Tree (m : Nat) (disk : Nat → Dinode) : Prop where
  zero : (disk 0).type = .free
  range : ∀ k, (disk k).type ≠ .free → k < m
  shape : ∀ k, (disk k).type = .dir → Shape k (disk k)
  empty : ∀ k, (disk k).type = .dir → (disk k).nlink = 0 → kids ((disk k).dirents.drop 2) = []
  root : (disk ROOTINO).live ∧ (disk ROOTINO).up = ROOTINO
  rootName : total Dinode.named m disk ROOTINO = 0
  counts : ∀ k, (disk k).type ≠ .free → (disk k).nlink = total Dinode.links m disk k
  small : ∀ k, (disk k).type ≠ .free → (disk k).nlink ≤ 32767
  alloc : ∀ k j, j ∈ (disk k).links → (disk j).type ≠ .free
  parent : ∀ k j, j ∈ (disk k).named → (disk j).type = .dir → (disk j).up = k
  single : ∀ k, (disk k).live → k ≠ ROOTINO → total Dinode.named m disk k = 1

theorem live_alloc (h : A.live) : A.type ≠ .free := by
  rw [h.1]
  nofun

theorem not_live_links (h : ¬A.live) : A.links = [] := if_neg h

theorem not_live_named (h : ¬A.live) : A.named = [] := if_neg h

theorem Shape.named_links (h : Shape k A) {j : Nat} (hj : j ∈ A.named) : j ∈ A.links := by
  by_cases hlive : A.live
  · rw [h.links_eq hlive]
    exact List.mem_cons_of_mem _ hj
  · rw [not_live_named hlive] at hj
    cases hj

theorem Tree.named_alloc (h : Tree m disk) {j : Nat} (hj : j ∈ (disk k).named) :
    (disk j).type ≠ .free := by
  by_cases hlive : (disk k).live
  · exact h.alloc k j ((h.shape k hlive.1).named_links hj)
  · rw [not_live_named hlive] at hj
    cases hj

theorem Tree.nlink_nonneg (h : Tree m disk) (hk : (disk k).type ≠ .free) : 0 ≤ (disk k).nlink := by
  rw [h.counts k hk]
  omega

/-- Nothing refers to a free inode. -/
theorem Tree.free_links (h : Tree m disk) (hk : (disk k).type = .free) :
    total Dinode.links m disk k = 0 := by
  by_contra hne
  obtain ⟨i, -, hi⟩ := exists_of_total_pos Dinode.links (Nat.pos_of_ne_zero hne)
  exact h.alloc i k hi hk

theorem Tree.named_le_links (h : Tree m disk) (k : Nat) :
    total Dinode.named m disk k ≤ total Dinode.links m disk k := by
  have heq := total_links_eq (m := m) h.shape k
  omega

/-- What the tree does not depend on. -/
theorem Tree.congr (h : Tree m disk) {disk' : Nat → Dinode}
    (hsame : ∀ k, (disk' k).type = (disk k).type ∧ (disk' k).nlink = (disk k).nlink ∧
      ((disk k).type = .dir → (disk' k).dirents = (disk k).dirents)) : Tree m disk' := by
  have hlive (k : Nat) : (disk' k).live ↔ (disk k).live := by
    unfold Dinode.live
    rw [(hsame k).1, (hsame k).2.1]
  have hlinks (k : Nat) : (disk' k).links = (disk k).links := by
    unfold Dinode.links
    simp only [hlive]
    split
    · rename_i hl
      rw [(hsame k).2.2 hl.1]
    · rfl
  have hnamed (k : Nat) : (disk' k).named = (disk k).named := by
    unfold Dinode.named
    simp only [hlive]
    split
    · rename_i hl
      rw [(hsame k).2.2 hl.1]
    · rfl
  have hup (k : Nat) (hk : (disk k).type = .dir) : (disk' k).up = (disk k).up := by
    unfold Dinode.up
    rw [(hsame k).2.2 hk]
  have htotal (k : Nat) : total Dinode.links m disk' k = total Dinode.links m disk k := by
    simp only [total, hlinks]
  have htotal' (k : Nat) : total Dinode.named m disk' k = total Dinode.named m disk k := by
    simp only [total, hnamed]
  refine ⟨?_, ?_, ?_, ?_, ?_, ?_, ?_, ?_, ?_, ?_, ?_⟩
  · rw [(hsame 0).1]
    exact h.zero
  · intro k hk
    rw [(hsame k).1] at hk
    exact h.range k hk
  · intro k hk
    rw [(hsame k).1] at hk
    obtain ⟨hdots, hpos, hrest⟩ := h.shape k hk
    refine ⟨?_, ?_, ?_⟩
    · rw [hup k hk, (hsame k).2.2 hk]
      exact hdots
    · rw [hup k hk]
      exact hpos
    · rw [(hsame k).2.2 hk]
      exact hrest
  · intro k hk hn
    rw [(hsame k).1] at hk
    rw [(hsame k).2.1] at hn
    rw [(hsame k).2.2 hk]
    exact h.empty k hk hn
  · rw [hlive, hup ROOTINO h.root.1.1]
    exact h.root
  · rw [htotal']
    exact h.rootName
  · intro k hk
    rw [(hsame k).1] at hk
    rw [(hsame k).2.1, htotal]
    exact h.counts k hk
  · intro k hk
    rw [(hsame k).1] at hk
    rw [(hsame k).2.1]
    exact h.small k hk
  · intro k j hj
    rw [hlinks] at hj
    rw [(hsame j).1]
    exact h.alloc k j hj
  · intro k j hj hdir
    rw [hnamed] at hj
    rw [(hsame j).1] at hdir
    rw [hup j hdir]
    exact h.parent k j hj hdir
  · intro k hk hne
    rw [hlive] at hk
    rw [htotal']
    exact h.single k hk hne

/-- An inode without links can be freed. -/
theorem Tree.free (h : Tree m disk) (hk : (disk k).type ≠ .free) (hn : (disk k).nlink = 0) :
    Tree m (Function.update disk k (disk k).freed) := by
  have hkm := h.range k hk
  have hdead : ¬(disk k).live := by
    intro hlive
    have hpos := hlive.2
    omega
  have hdead' : ¬(disk k).freed.live := by
    intro hlive
    cases hlive.1
  have htotal (j : Nat) : total Dinode.links m (Function.update disk k (disk k).freed) j =
      total Dinode.links m disk j := by
    have hu := total_update Dinode.links disk hkm (disk k).freed j
    rw [not_live_links hdead, not_live_links hdead'] at hu
    exact hu
  have htotal' (j : Nat) : total Dinode.named m (Function.update disk k (disk k).freed) j =
      total Dinode.named m disk j := by
    have hu := total_update Dinode.named disk hkm (disk k).freed j
    rw [not_live_named hdead, not_live_named hdead'] at hu
    exact hu
  have hroot : ROOTINO ≠ k := by
    intro hr
    exact hdead (hr ▸ h.root.1)
  have hother (j : Nat) (hj : (Function.update disk k (disk k).freed j).type ≠ .free) : j ≠ k := by
    intro hjk
    rw [hjk, Function.update_self] at hj
    exact hj rfl
  -- no live directory refers to the freed inode
  have hunlinked (i : Nat) (hi : k ∈ (disk i).links) : False := by
    have him : i < m := by
      by_contra hge
      have hfree : (disk i).type = .free := by
        by_contra hne
        exact hge (h.range i hne)
      rw [not_live_links (fun hl => live_alloc hl hfree)] at hi
      cases hi
    have hpos := total_pos_of_mem Dinode.links him hi
    have hcount := h.counts k hk
    omega
  have hrefers (i j : Nat) (hj : j ∈ (Function.update disk k (disk k).freed i).links) :
      i ≠ k ∧ j ∈ (disk i).links := by
    by_cases hi : i = k
    · rw [hi, Function.update_self, not_live_links hdead'] at hj
      cases hj
    · rw [Function.update_of_ne hi] at hj
      exact ⟨hi, hj⟩
  refine ⟨?_, ?_, ?_, ?_, ?_, ?_, ?_, ?_, ?_, ?_, ?_⟩
  · rw [Function.update_apply]
    split
    · rfl
    · exact h.zero
  · intro j hj
    have hjk := hother j hj
    rw [Function.update_of_ne hjk] at hj
    exact h.range j hj
  · intro j hj
    have hjk := hother j (by rw [hj]; nofun)
    rw [Function.update_of_ne hjk] at hj ⊢
    exact h.shape j hj
  · intro j hj
    have hjk := hother j (by rw [hj]; nofun)
    rw [Function.update_of_ne hjk] at hj ⊢
    exact h.empty j hj
  · rw [Function.update_of_ne hroot]
    exact h.root
  · rw [htotal']
    exact h.rootName
  · intro j hj
    have hjk := hother j hj
    rw [htotal, Function.update_of_ne hjk]
    rw [Function.update_of_ne hjk] at hj
    exact h.counts j hj
  · intro j hj
    have hjk := hother j hj
    rw [Function.update_of_ne hjk] at hj ⊢
    exact h.small j hj
  · intro i j hj
    obtain ⟨-, hj⟩ := hrefers i j hj
    have hjk : j ≠ k := fun heq => hunlinked i (heq ▸ hj)
    rw [Function.update_of_ne hjk]
    exact h.alloc i j hj
  · intro i j hj hdir
    have hjk := hother j (by rw [hdir]; nofun)
    rw [Function.update_of_ne hjk] at hdir ⊢
    by_cases hi : i = k
    · rw [hi, Function.update_self, not_live_named hdead'] at hj
      cases hj
    · rw [Function.update_of_ne hi] at hj
      exact h.parent i j hj hdir
  · intro j hj hne
    have hjk := hother j (live_alloc hj)
    rw [Function.update_of_ne hjk] at hj
    rw [htotal']
    exact h.single j hj hne

/-- A live directory `a` is given the content `A`, and `b`, which is no parent of anything,
the content `B`. -/
theorem Tree.change (h : Tree m disk) (ha : (disk a).live) (hab : a ≠ b) (hb : b ≠ 0 ∧ b < m)
    (hbroot : b ≠ ROOTINO) (hA : A.live) (hAs : Shape a A) (hAup : A.up = (disk a).up)
    (hAn : A.nlink ≤ 32767) (hAnamed : ∀ j ∈ A.named, j ∈ (disk a).named ∨ j = b)
    (hBt : B.type ≠ .free) (hBs : B.type = .dir → Shape b B) (hBn : B.nlink ≤ 32767)
    (hBkids : B.type = .dir → kids (B.dirents.drop 2) = [])
    (hBup : B.type = .dir → B.up = a ∧ ∀ i, b ∈ (disk i).named → i = a)
    (hlinksA : A.nlink =
      total Dinode.links m (Function.update (Function.update disk a A) b B) a)
    (hlinksB : B.nlink =
      total Dinode.links m (Function.update (Function.update disk a A) b B) b)
    (hlinks : ∀ k, k ≠ a → k ≠ b →
      total Dinode.links m (Function.update (Function.update disk a A) b B) k =
        total Dinode.links m disk k)
    (hnamedB : B.live →
      total Dinode.named m (Function.update (Function.update disk a A) b B) b = 1)
    (hnamed : ∀ k, k ≠ b →
      total Dinode.named m (Function.update (Function.update disk a A) b B) k =
        total Dinode.named m disk k) :
    Tree m (Function.update (Function.update disk a A) b B) := by
  have hBempty : B.named = [] := by
    by_cases hlive : B.live
    · simp only [Dinode.named, if_pos hlive, hBkids hlive.1]
    · exact not_live_named hlive
  have hatB : Function.update (Function.update disk a A) b B b = B := Function.update_self _ _ _
  have hatA : Function.update (Function.update disk a A) b B a = A := by
    rw [Function.update_of_ne hab, Function.update_self]
  have hat (k : Nat) (hka : k ≠ a) (hkb : k ≠ b) :
      Function.update (Function.update disk a A) b B k = disk k := by
    rw [Function.update_of_ne hkb, Function.update_of_ne hka]
  generalize Function.update (Function.update disk a A) b B = disk' at *
  have hAalloc := live_alloc hA
  -- the places: `b`, `a` and the others
  have hplace {P : Nat → Prop} (hPb : P b) (hPa : P a) (hP : ∀ k, k ≠ a → k ≠ b → P k) (k : Nat) :
      P k := by
    by_cases hkb : k = b
    · exact hkb ▸ hPb
    · by_cases hka : k = a
      · exact hka ▸ hPa
      · exact hP k hka hkb
  -- what is allocated stays so
  have hkept : ∀ j, (disk j).type ≠ .free → (disk' j).type ≠ .free := by
    apply hplace
    · intro _
      rw [hatB]
      exact hBt
    · intro _
      rw [hatA]
      exact hAalloc
    · intro j hja hjb hj
      rw [hat j hja hjb]
      exact hj
  have hupA : (disk (disk a).up).type ≠ .free := by
    apply h.alloc a
    rw [(h.shape a ha.1).links_eq ha]
    exact List.mem_cons_self
  refine ⟨?_, ?_, ?_, ?_, ?_, ?_, ?_, ?_, ?_, ?_, ?_⟩
  · have hazero : 0 ≠ a := fun ha0 => live_alloc ha (ha0 ▸ h.zero)
    rw [hat 0 hazero hb.1.symm]
    exact h.zero
  · apply hplace
    · exact fun _ => hb.2
    · exact fun _ => h.range a (live_alloc ha)
    · intro k hka hkb hk
      rw [hat k hka hkb] at hk
      exact h.range k hk
  · apply hplace
    · rw [hatB]
      exact hBs
    · rw [hatA]
      exact fun _ => hAs
    · intro k hka hkb
      rw [hat k hka hkb]
      exact h.shape k
  · apply hplace
    · rw [hatB]
      exact fun hdir _ => hBkids hdir
    · rw [hatA]
      intro _ hn
      have hpos := hA.2
      omega
    · intro k hka hkb
      rw [hat k hka hkb]
      exact h.empty k
  · by_cases hroot : ROOTINO = a
    · have hup := h.root.2
      rw [hroot] at hup ⊢
      rw [hatA, hAup]
      exact ⟨hA, hup⟩
    · rw [hat ROOTINO hroot hbroot.symm]
      exact h.root
  · rw [hnamed ROOTINO hbroot.symm]
    exact h.rootName
  · apply hplace
    · rw [hatB]
      exact fun _ => hlinksB
    · rw [hatA]
      exact fun _ => hlinksA
    · intro k hka hkb
      rw [hat k hka hkb, hlinks k hka hkb]
      exact h.counts k
  · apply hplace
    · rw [hatB]
      exact fun _ => hBn
    · rw [hatA]
      exact fun _ => hAn
    · intro k hka hkb
      rw [hat k hka hkb]
      exact h.small k
  · apply hplace
    · intro j hj
      rw [hatB] at hj
      by_cases hlive : B.live
      · rw [(hBs hlive.1).links_eq hlive, hBempty, (hBup hlive.1).1, List.mem_singleton] at hj
        rw [hj, hatA]
        exact hAalloc
      · rw [not_live_links hlive] at hj
        cases hj
    · intro j hj
      rw [hatA, hAs.links_eq hA, List.mem_cons] at hj
      rcases hj with hj | hj
      · rw [hj, hAup]
        exact hkept _ hupA
      · rcases hAnamed j hj with hj | hj
        · exact hkept j (h.named_alloc hj)
        · rw [hj, hatB]
          exact hBt
    · intro k hka hkb j hj
      rw [hat k hka hkb] at hj
      exact hkept j (h.alloc k j hj)
  · -- the parent of a directory that is named in `k`
    have hup : ∀ j, (disk' j).type = .dir → ∀ k, j ∈ (disk k).named → (disk' j).up = k := by
      apply hplace
      · rw [hatB]
        intro hdir k hk
        rw [(hBup hdir).1, (hBup hdir).2 k hk]
      · rw [hatA, hAup]
        intro _ k hk
        exact h.parent k a hk ha.1
      · intro j hja hjb
        rw [hat j hja hjb]
        exact fun hdir k hk => h.parent k j hk hdir
    apply hplace
    · intro j hj
      rw [hatB, hBempty] at hj
      cases hj
    · intro j hj hdir
      rw [hatA] at hj
      rcases hAnamed j hj with hj | hj
      · exact hup j hdir a hj
      · rw [hj, hatB] at hdir ⊢
        exact (hBup hdir).1
    · intro k hka hkb j hj hdir
      rw [hat k hka hkb] at hj
      exact hup j hdir k hj
  · apply hplace
    · rw [hatB]
      exact fun hlive _ => hnamedB hlive
    · rw [hnamed a hab]
      exact fun _ hne => h.single a ha hne
    · intro k hka hkb
      rw [hat k hka hkb, hnamed k hkb]
      exact h.single k

end Tree

section Changes

variable {m a b k : Nat} {disk : Nat → Dinode} {A B d : Dinode} {name : Path}

/-- The entry `name` for inode `b` is added to a live directory. -/
theorem Shape.add_counts (h : Shape k d) (hd : d.live) (hA : A.live) (hb : b ≠ 0)
    (hname : name ≠ dot ∧ name ≠ dotdot) (hAd : A.dirents = addEntry d.dirents ⟨b, name⟩)
    (j : Nat) :
    A.links.count j = d.links.count j + (if b = j then 1 else 0) ∧
      A.named.count j = d.named.count j + (if b = j then 1 else 0) := by
  obtain ⟨hshape, hup, hdrop⟩ := h.add hname hAd
  have hnamed : A.named.count j = d.named.count j + (if b = j then 1 else 0) := by
    simp only [Dinode.named, if_pos hA, if_pos hd, hdrop]
    exact kids_addEntry ⟨b, name⟩ hb j
  refine ⟨?_, hnamed⟩
  rw [hshape.links_eq hA, h.links_eq hd, hup, List.count_cons, List.count_cons, hnamed]
  omega

/-- The entry for inode `b` at `off` is removed from a live directory. -/
theorem Shape.remove_counts (h : Shape k d) (hd : d.live) (hA : A.live) {off : Nat}
    (hoff : d.dirents[off]? = some ⟨b, name⟩) (hb : b ≠ 0) (htwo : 2 ≤ off)
    (hAd : A.dirents = d.dirents.set off ⟨0, []⟩) (j : Nat) :
    A.links.count j + (if b = j then 1 else 0) = d.links.count j ∧
      A.named.count j + (if b = j then 1 else 0) = d.named.count j := by
  obtain ⟨hshape, hup, hdrop⟩ := h.remove htwo hAd
  have hget : (d.dirents.drop 2)[off - 2]? = some ⟨b, name⟩ := by
    rw [List.getElem?_drop, Nat.add_sub_cancel' htwo]
    exact hoff
  obtain ⟨hlt, hval⟩ := List.getElem?_eq_some_iff.mp hget
  have hkids := kids_set (off - 2) hlt (by rw [hval]; exact hb) j
  rw [hval] at hkids
  have hnamed : A.named.count j + (if b = j then 1 else 0) = d.named.count j := by
    simp only [Dinode.named, if_pos hA, if_pos hd, hdrop]
    exact hkids
  refine ⟨?_, hnamed⟩
  rw [hshape.links_eq hA, h.links_eq hd, hup, List.count_cons, List.count_cons]
  omega

/-- An entry that is neither "." nor ".." comes after them. -/
theorem Shape.two_le (h : Shape k d) {off : Nat} (hoff : d.dirents[off]? = some ⟨b, name⟩)
    (hname : name ≠ dot ∧ name ≠ dotdot) : 2 ≤ off := by
  rw [h.dots] at hoff
  match off with
  | 0 =>
    simp only [List.getElem?_cons_zero, Option.some.injEq, Dirent.mk.injEq] at hoff
    exact absurd hoff.2.symm hname.1
  | 1 =>
    simp only [List.getElem?_cons_succ, List.getElem?_cons_zero, Option.some.injEq,
      Dirent.mk.injEq] at hoff
    exact absurd hoff.2.symm hname.2
  | off+2 => omega

theorem mem_of_count_add {l l' : List Nat} {j : Nat}
    (h : ∀ j, l.count j = l'.count j + (if b = j then 1 else 0)) (hj : j ∈ l) :
    j ∈ l' ∨ j = b := by
  by_cases hbj : b = j
  · exact Or.inr hbj.symm
  · left
    have hcount := h j
    rw [if_neg hbj] at hcount
    rw [← List.count_pos_iff] at hj ⊢
    omega

theorem not_dir_not_live (h : A.type ≠ .dir) : ¬A.live := fun hlive => h hlive.1

/-- A new entry for an inode that is no directory. -/
theorem Tree.addLeaf (h : Tree m disk) (ha : (disk a).live) (hb : b ≠ 0 ∧ b < m)
    (hname : name ≠ dot ∧ name ≠ dotdot) (hAt : A.type = .dir) (hAn : A.nlink = (disk a).nlink)
    (hAd : A.dirents = addEntry (disk a).dirents ⟨b, name⟩) (hold : (disk b).type ≠ .dir)
    (hBt : B.type ≠ .free ∧ B.type ≠ .dir) (hBn : B.nlink = total Dinode.links m disk b + 1)
    (hBs : B.nlink ≤ 32767) : Tree m (Function.update (Function.update disk a A) b B) := by
  have hab : a ≠ b := by
    intro hab
    exact hold (hab ▸ ha.1)
  have hA : A.live := ⟨hAt, by rw [hAn]; exact ha.2⟩
  have hcounts := (h.shape a ha.1).add_counts ha hA hb.1 hname hAd
  obtain ⟨hshape, hup, -⟩ := (h.shape a ha.1).add hname hAd
  have haalloc := live_alloc ha
  have hlinks (j : Nat) : total Dinode.links m (Function.update (Function.update disk a A) b B) j =
      total Dinode.links m disk j + (if b = j then 1 else 0) := by
    have htwo := total_update_two Dinode.links disk (h.range a haalloc) hb.2 hab A B j
    rw [not_live_links (not_dir_not_live hold), not_live_links (not_dir_not_live hBt.2),
      (hcounts j).1] at htwo
    omega
  have hnamed (j : Nat) : total Dinode.named m (Function.update (Function.update disk a A) b B) j =
      total Dinode.named m disk j + (if b = j then 1 else 0) := by
    have htwo := total_update_two Dinode.named disk (h.range a haalloc) hb.2 hab A B j
    rw [not_live_named (not_dir_not_live hold), not_live_named (not_dir_not_live hBt.2),
      (hcounts j).2] at htwo
    omega
  refine h.change ha hab hb ?_ hA hshape hup ?_ ?_ hBt.1 (fun hdir => absurd hdir hBt.2) hBs
    (fun hdir => absurd hdir hBt.2) (fun hdir => absurd hdir hBt.2) ?_ ?_ ?_ ?_ ?_
  · intro hroot
    exact hold (hroot ▸ h.root.1.1)
  · rw [hAn]
    exact h.small a haalloc
  · exact fun j => mem_of_count_add (fun j => (hcounts j).2)
  · rw [hlinks, if_neg hab.symm, hAn]
    exact h.counts a haalloc
  · rw [hlinks, if_pos rfl, hBn]
    push_cast
    rfl
  · intro k _ hkb
    rw [hlinks, if_neg (Ne.symm hkb)]
    omega
  · exact fun hlive => absurd hlive (not_dir_not_live hBt.2)
  · intro k hkb
    rw [hnamed, if_neg (Ne.symm hkb)]
    omega

/-- A new directory. -/
theorem Tree.addDir (h : Tree m disk) (ha : (disk a).live) (hb : b ≠ 0 ∧ b < m)
    (hname : name ≠ dot ∧ name ≠ dotdot) (hAt : A.type = .dir)
    (hAn : A.nlink = (disk a).nlink + 1) (hAs : A.nlink ≤ 32767)
    (hAd : A.dirents = addEntry (disk a).dirents ⟨b, name⟩) (hold : (disk b).type = .free)
    (hBt : B.type = .dir) (hBn : B.nlink = 1) (hBd : B.dirents = [⟨b, dot⟩, ⟨a, dotdot⟩]) :
    Tree m (Function.update (Function.update disk a A) b B) := by
  have haalloc := live_alloc ha
  have hab : a ≠ b := by
    intro hab
    exact haalloc (hab ▸ hold)
  have hA : A.live := ⟨hAt, by have hpos := ha.2; omega⟩
  have hB : B.live := ⟨hBt, by omega⟩
  have hcounts := (h.shape a ha.1).add_counts ha hA hb.1 hname hAd
  obtain ⟨hshape, hup, -⟩ := (h.shape a ha.1).add hname hAd
  have hBup : B.up = a := by
    simp only [Dinode.up, hBd]
    rfl
  have hapos : 0 < a := (h.shape a ha.1).pos.1
  have hBshape : Shape b B := by
    refine ⟨?_, ⟨Nat.pos_of_ne_zero hb.1, by omega⟩, ?_⟩
    · rw [hBup, hBd]
      rfl
    · rw [hBd]
      nofun
  have hBkids : kids (B.dirents.drop 2) = [] := by
    rw [hBd]
    rfl
  have hBnamed : B.named = [] := by
    simp only [Dinode.named, if_pos hB, hBkids]
  have hBlinks : B.links = [a] := by
    rw [hBshape.links_eq hB, hBnamed, hBup]
  have holdlive : ¬(disk b).live := fun hlive => live_alloc hlive hold
  -- the new directory has a link to its parent, and the parent an entry for it
  have hlinks (j : Nat) : total Dinode.links m (Function.update (Function.update disk a A) b B) j =
      total Dinode.links m disk j + (if b = j then 1 else 0) + (if a = j then 1 else 0) := by
    have htwo := total_update_two Dinode.links disk (h.range a haalloc) hb.2 hab A B j
    rw [not_live_links holdlive, hBlinks, (hcounts j).1, List.count_cons, List.count_nil] at htwo
    simp only [beq_iff_eq] at htwo
    omega
  have hnamed (j : Nat) : total Dinode.named m (Function.update (Function.update disk a A) b B) j =
      total Dinode.named m disk j + (if b = j then 1 else 0) := by
    have htwo := total_update_two Dinode.named disk (h.range a haalloc) hb.2 hab A B j
    rw [not_live_named holdlive, hBnamed, (hcounts j).2] at htwo
    omega
  have hnone := h.free_links hold
  refine h.change ha hab hb ?_ hA hshape hup hAs ?_ (live_alloc hB) (fun _ => hBshape) (by omega)
    (fun _ => hBkids) (fun _ => ⟨hBup, ?_⟩) ?_ ?_ ?_ ?_ ?_
  · intro hroot
    exact holdlive (hroot ▸ h.root.1)
  · exact fun j => mem_of_count_add (fun j => (hcounts j).2)
  · intro i hi
    exact absurd hold (h.named_alloc hi)
  · have hcount := h.counts a haalloc
    rw [hlinks, if_neg hab.symm, if_pos rfl, hAn, hcount]
    push_cast
    omega
  · rw [hlinks, if_pos rfl, if_neg hab, hnone, hBn]
    rfl
  · intro k hka hkb
    rw [hlinks, if_neg (Ne.symm hkb), if_neg (Ne.symm hka)]
    omega
  · intro _
    have hle := h.named_le_links b
    rw [hnamed, if_pos rfl]
    omega
  · intro k hkb
    rw [hnamed, if_neg (Ne.symm hkb)]
    omega

theorem Shape.mem_named (h : Shape k d) (hd : d.live) {off : Nat}
    (hoff : d.dirents[off]? = some ⟨b, name⟩) (hb : b ≠ 0)
    (hname : name ≠ dot ∧ name ≠ dotdot) : b ∈ d.named := by
  have htwo := h.two_le hoff hname
  simp only [Dinode.named, if_pos hd]
  refine (mem_kids b).mpr ⟨⟨b, name⟩, ?_, hb, rfl⟩
  apply List.mem_of_getElem? (i := off - 2)
  rw [List.getElem?_drop, Nat.add_sub_cancel' htwo]
  exact hoff

/-- The entry of an inode that is no directory is removed. -/
theorem Tree.dropLeaf (h : Tree m disk) (ha : (disk a).live) {off : Nat}
    (hoff : (disk a).dirents[off]? = some ⟨b, name⟩) (hb : b ≠ 0)
    (hname : name ≠ dot ∧ name ≠ dotdot) (hAt : A.type = .dir) (hAn : A.nlink = (disk a).nlink)
    (hAd : A.dirents = (disk a).dirents.set off ⟨0, []⟩) (hold : (disk b).type ≠ .dir)
    (hBt : B.type = (disk b).type) (hBn : B.nlink = (disk b).nlink - 1) :
    Tree m (Function.update (Function.update disk a A) b B) := by
  have haalloc := live_alloc ha
  have htwo := (h.shape a ha.1).two_le hoff hname
  have hmem := (h.shape a ha.1).mem_named ha hoff hb hname
  have hballoc := h.named_alloc hmem
  have hbm := h.range b hballoc
  have hab : a ≠ b := by
    intro hab
    exact hold (hab ▸ ha.1)
  have hA : A.live := ⟨hAt, by rw [hAn]; exact ha.2⟩
  have hBdir : B.type ≠ .dir := by
    rw [hBt]
    exact hold
  have hcounts := (h.shape a ha.1).remove_counts ha hA hoff hb htwo hAd
  obtain ⟨hshape, hup, -⟩ := (h.shape a ha.1).remove htwo hAd
  have hlinks (j : Nat) : total Dinode.links m (Function.update (Function.update disk a A) b B) j +
      (if b = j then 1 else 0) = total Dinode.links m disk j := by
    have hboth := total_update_two Dinode.links disk (h.range a haalloc) hbm hab A B j
    rw [not_live_links (not_dir_not_live hold), not_live_links (not_dir_not_live hBdir),
      ← (hcounts j).1] at hboth
    omega
  have hnamed (j : Nat) : total Dinode.named m (Function.update (Function.update disk a A) b B) j +
      (if b = j then 1 else 0) = total Dinode.named m disk j := by
    have hboth := total_update_two Dinode.named disk (h.range a haalloc) hbm hab A B j
    rw [not_live_named (not_dir_not_live hold), not_live_named (not_dir_not_live hBdir),
      ← (hcounts j).2] at hboth
    omega
  refine h.change ha hab ⟨hb, hbm⟩ ?_ hA hshape hup ?_ ?_ (by rw [hBt]; exact hballoc)
    (fun hdir => absurd hdir hBdir) ?_ (fun hdir => absurd hdir hBdir)
    (fun hdir => absurd hdir hBdir) ?_ ?_ ?_ ?_ ?_
  · intro hroot
    exact hold (hroot ▸ h.root.1.1)
  · rw [hAn]
    exact h.small a haalloc
  · intro j hj
    left
    have hcount := (hcounts j).2
    rw [← List.count_pos_iff] at hj ⊢
    omega
  · have hs := h.small b hballoc
    omega
  · have hcount := hlinks a
    rw [if_neg hab.symm] at hcount
    rw [hAn, h.counts a haalloc, ← hcount]
    rfl
  · have hcount := hlinks b
    rw [if_pos rfl] at hcount
    rw [hBn, h.counts b hballoc, ← hcount]
    push_cast
    omega
  · intro k _ hkb
    have hcount := hlinks k
    rw [if_neg (Ne.symm hkb)] at hcount
    exact hcount
  · exact fun hlive => absurd hlive (not_dir_not_live hBdir)
  · intro k hkb
    have hcount := hnamed k
    rw [if_neg (Ne.symm hkb)] at hcount
    exact hcount

/-- A directory that is named in a live one and has no entries has one link, and counts as
one for its parent. -/
theorem Tree.empty_dir (h : Tree m disk) (hb : b ∈ (disk a).named) (hdir : (disk b).type = .dir)
    (hkids : kids ((disk b).dirents.drop 2) = []) :
    (disk b).nlink = 1 ∧ (disk b).up = a ∧ b ≠ ROOTINO ∧ a ≠ b ∧ 2 ≤ (disk a).nlink := by
  have ha : (disk a).live := by
    by_contra hlive
    rw [not_live_named hlive] at hb
    cases hb
  have haalloc := live_alloc ha
  have hballoc := h.named_alloc hb
  have hbm := h.range b hballoc
  have ham := h.range a haalloc
  have hpos := total_pos_of_mem Dinode.named ham hb
  have hbroot : b ≠ ROOTINO := by
    intro hroot
    have hzero := h.rootName
    rw [← hroot] at hzero
    omega
  have hup := h.parent a b hb hdir
  have hle := h.named_le_links b
  have hcount := h.counts b hballoc
  have hlive : (disk b).live := ⟨hdir, by omega⟩
  have hone := h.single b hlive hbroot
  have hbempty : (disk b).named = [] := by
    simp only [Dinode.named, if_pos hlive, hkids]
  have hab : a ≠ b := by
    intro hab
    rw [hab, hbempty] at hb
    cases hb
  -- no directory has `b` as its parent
  have hnone : total Dinode.ups m disk b = 0 := by
    by_contra hne
    obtain ⟨i, -, hi⟩ := exists_of_total_pos Dinode.ups (Nat.pos_of_ne_zero hne)
    by_cases hilive : (disk i).live
    · simp only [Dinode.ups, if_pos hilive, List.mem_singleton] at hi
      by_cases hiroot : i = ROOTINO
      · rw [hiroot, h.root.2] at hi
        exact hbroot hi
      · have hsingle := h.single i hilive hiroot
        have hipos : 0 < total Dinode.named m disk i := by omega
        obtain ⟨e, -, he⟩ := exists_of_total_pos Dinode.named hipos
        have heb := h.parent e i he hilive.1
        rw [← hi] at heb
        rw [← heb, hbempty] at he
        cases he
    · simp only [Dinode.ups, if_neg hilive] at hi
      cases hi
  have hsum := total_links_eq (m := m) h.shape b
  refine ⟨by omega, hup, hbroot, hab, ?_⟩
  -- the parent counts ".." of `b`, and its own name or, for the root, its own ".."
  have hsuma := total_links_eq (m := m) h.shape a
  have hcounta := h.counts a haalloc
  have hupsb : (disk b).ups.count a = 1 := by
    simp [Dinode.ups, hlive, hup]
  have hupsle := count_le_total Dinode.ups disk hbm a
  by_cases haroot : a = ROOTINO
  · have hupsa : (disk a).ups.count a = 1 := by
      have hself : (disk a).up = a := haroot ▸ h.root.2
      simp [Dinode.ups, ha, hself]
    have hboth : (disk a).ups.count a + (disk b).ups.count a ≤ total Dinode.ups m disk a :=
      count_add_count_le_tally (fun i : Fin m => (disk i).ups) ⟨a, ham⟩ ⟨b, hbm⟩
        (fun heq => hab (congrArg Fin.val heq)) a
    omega
  · have hsingle := h.single a ha haroot
    omega

/-- The entry of an empty directory is removed. -/
theorem Tree.dropDir (h : Tree m disk) (ha : (disk a).live) {off : Nat}
    (hoff : (disk a).dirents[off]? = some ⟨b, name⟩) (hb : b ≠ 0)
    (hname : name ≠ dot ∧ name ≠ dotdot) (hAt : A.type = .dir)
    (hAn : A.nlink = (disk a).nlink - 1) (hAd : A.dirents = (disk a).dirents.set off ⟨0, []⟩)
    (hold : (disk b).type = .dir) (hkids : kids ((disk b).dirents.drop 2) = [])
    (hBt : B.type = .dir) (hBn : B.nlink = (disk b).nlink - 1)
    (hBd : B.dirents = (disk b).dirents) :
    Tree m (Function.update (Function.update disk a A) b B) := by
  have haalloc := live_alloc ha
  have htwo := (h.shape a ha.1).two_le hoff hname
  have hmem := (h.shape a ha.1).mem_named ha hoff hb hname
  have hballoc := h.named_alloc hmem
  have hbm := h.range b hballoc
  obtain ⟨hone, hupb, hbroot, hab, hnlink⟩ := h.empty_dir hmem hold hkids
  have hblive : (disk b).live := ⟨hold, by omega⟩
  have hA : A.live := ⟨hAt, by omega⟩
  -- without its last link the directory is not live
  have hBdead : ¬B.live := by
    intro hlive
    have hpos := hlive.2
    omega
  have hcounts := (h.shape a ha.1).remove_counts ha hA hoff hb htwo hAd
  obtain ⟨hshape, hup, -⟩ := (h.shape a ha.1).remove htwo hAd
  have hBup : B.up = (disk b).up := by
    unfold Dinode.up
    rw [hBd]
  have hBshape : Shape b B := by
    obtain ⟨hdots, hpos, hrest⟩ := h.shape b hold
    refine ⟨?_, ?_, ?_⟩
    · rw [hBup, hBd]
      exact hdots
    · rw [hBup]
      exact hpos
    · rw [hBd]
      exact hrest
  have hbempty : (disk b).named = [] := by
    simp only [Dinode.named, if_pos hblive, hkids]
  have hblinks : (disk b).links = [a] := by
    rw [(h.shape b hold).links_eq hblive, hbempty, hupb]
  -- the entry and the `..` of the directory both go
  have hlinks (j : Nat) : total Dinode.links m (Function.update (Function.update disk a A) b B) j +
      (if b = j then 1 else 0) + (if a = j then 1 else 0) = total Dinode.links m disk j := by
    have hboth := total_update_two Dinode.links disk (h.range a haalloc) hbm hab A B j
    rw [hblinks, not_live_links hBdead, ← (hcounts j).1, List.count_cons, List.count_nil] at hboth
    simp only [beq_iff_eq] at hboth
    omega
  have hnamed (j : Nat) : total Dinode.named m (Function.update (Function.update disk a A) b B) j +
      (if b = j then 1 else 0) = total Dinode.named m disk j := by
    have hboth := total_update_two Dinode.named disk (h.range a haalloc) hbm hab A B j
    rw [hbempty, not_live_named hBdead, ← (hcounts j).2] at hboth
    omega
  refine h.change ha hab ⟨hb, hbm⟩ hbroot hA hshape hup ?_ ?_ (by rw [hBt]; nofun)
    (fun _ => hBshape)
    (by omega) (fun _ => by rw [hBd]; exact hkids) (fun _ => ⟨hBup.trans hupb, ?_⟩) ?_ ?_ ?_ ?_ ?_
  · have hs := h.small a haalloc
    omega
  · intro j hj
    left
    have hcount := (hcounts j).2
    rw [← List.count_pos_iff] at hj ⊢
    omega
  · intro i hi
    rw [← hupb]
    exact (h.parent i b hi hold).symm
  · have hcount := hlinks a
    rw [if_neg hab.symm, if_pos rfl] at hcount
    rw [hAn, h.counts a haalloc, ← hcount]
    push_cast
    omega
  · have hcount := hlinks b
    have hcountb := h.counts b hballoc
    rw [if_pos rfl, if_neg hab] at hcount
    omega
  · intro k hka hkb
    have hcount := hlinks k
    rw [if_neg (Ne.symm hkb), if_neg (Ne.symm hka)] at hcount
    exact hcount
  · exact fun hlive => absurd hlive hBdead
  · intro k hkb
    have hcount := hnamed k
    rw [if_neg (Ne.symm hkb)] at hcount
    exact hcount

end Changes

end Xv6Labs.Dir
