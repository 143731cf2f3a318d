import Xv6Labs.Runs
import Xv6Labs.Outcomes
import Xv6Labs.PgtblCode

/-! A page table in memory refines a map from page numbers to page frames and permissions. -/
namespace Xv6Labs.Pgtbl

section Bits

theorem px_eq (level va : Nat) : PX level va = va / 2^(12 + 9 * level) % 512 := by
  unfold PX
  rw [Nat.shiftRight_eq_div_pow]
  exact Nat.and_two_pow_sub_one_eq_mod _ 9

/-- The three indices tell pages apart. -/
theorem page_of_px {a b : Nat} (ha : a < MAXVA) (hb : b < MAXVA) (h2 : PX 2 a = PX 2 b)
    (h1 : PX 1 a = PX 1 b) (h0 : PX 0 a = PX 0 b) : a / PGSIZE = b / PGSIZE := by
  simp only [px_eq] at h0 h1 h2
  unfold MAXVA at ha hb
  unfold PGSIZE
  omega

theorem px_of_page {a b : Nat} (h : a / PGSIZE = b / PGSIZE) (level : Nat) :
    PX level a = PX level b := by
  have hdiv (x : Nat) : x / 2^(12 + 9 * level) = x / PGSIZE / 2^(9 * level) := by
    rw [Nat.pow_add, ← Nat.div_div_eq_div_mul]
    rfl
  rw [px_eq, px_eq, hdiv, hdiv, h]

theorem valid_iff (w : Nat) : w &&& PTE_V ≠ 0 ↔ w % 2 = 1 := by
  unfold PTE_V
  rw [Nat.and_one_is_mod]
  omega

theorem flags_eq (w : Nat) : PTE_FLAGS w = w % 1024 := Nat.and_two_pow_sub_one_eq_mod _ 10

/-- The fields of a leaf that mappages writes. -/
theorem leaf_fields (pa : Nat) {perm : Nat} (hperm : perm < 1024) :
    (PA2PTE pa ||| perm ||| PTE_V) >>> 10 = pa >>> 12 ∧
    PTE_FLAGS (PA2PTE pa ||| perm ||| PTE_V) = perm ||| PTE_V ∧
    (PA2PTE pa ||| perm ||| PTE_V) % 2 = 1 := by
  have hhigh : perm >>> 10 = 0 := by
    rw [Nat.shiftRight_eq_div_pow]
    exact Nat.div_eq_of_lt hperm
  have hlow : PA2PTE pa % 2^10 = 0 := by
    unfold PA2PTE
    rw [Nat.shiftLeft_eq]
    exact Nat.mul_mod_left _ _
  refine ⟨?_, ?_, ?_⟩
  · rw [Nat.shiftRight_or_distrib, Nat.shiftRight_or_distrib, hhigh]
    simp [PA2PTE, PTE_V]
  · rw [flags_eq]
    have hmod := Nat.or_mod_two_pow (a := PA2PTE pa ||| perm) (b := PTE_V) (n := 10)
    have hmod' := Nat.or_mod_two_pow (a := PA2PTE pa) (b := perm) (n := 10)
    rw [hlow, Nat.mod_eq_of_lt hperm, Nat.zero_or] at hmod'
    rw [hmod'] at hmod
    exact hmod
  · have hmod := Nat.or_mod_two_pow (a := PA2PTE pa ||| perm) (b := PTE_V) (n := 1)
    have hone : PTE_V % 2^1 = 1 := rfl
    have hlt : (PA2PTE pa ||| perm) % 2^1 < 2 := Nat.mod_lt _ (by decide)
    have hor : ∀ x, x < 2 → x ||| 1 = 1 := by decide
    rw [hone, hor _ hlt] at hmod
    exact hmod

/-- A word that refers to a page table gives its address back. -/
theorem node_fields {p : Nat} (hp : p % PGSIZE = 0) (hlt : p < 2^64) :
    PTE2PA (PA2PTE p ||| PTE_V) = p ∧ (PA2PTE p ||| PTE_V) % 2 = 1 := by
  obtain ⟨hshift, -, hodd⟩ := leaf_fields p (show 0 < 1024 by decide)
  rw [Nat.or_zero] at hshift hodd
  refine ⟨?_, hodd⟩
  unfold PTE2PA
  rw [hshift, Nat.shiftLeft_eq, Nat.shiftRight_eq_div_pow]
  unfold PGSIZE at hp
  rw [Nat.div_mul_cancel (Nat.dvd_of_mod_eq_zero hp), Nat.mod_eq_of_lt hlt]

/-- Taking a low bit away from a word changes its flags only. -/
theorem andNot_fields (w : Nat) : andNot w PTE_U >>> 10 = w >>> 10 ∧
    PTE_FLAGS (andNot w PTE_U) = andNot (PTE_FLAGS w) PTE_U ∧ andNot w PTE_U % 2 = w % 2 := by
  unfold andNot
  refine ⟨?_, ?_, ?_⟩
  · rw [Nat.shiftRight_xor_distrib, Nat.shiftRight_and_distrib]
    simp [PTE_U]
  · rw [flags_eq, flags_eq]
    have hxor := Nat.xor_mod_two_pow (a := w) (b := w &&& PTE_U) (n := 10)
    have hand := Nat.and_mod_two_pow (a := w) (b := PTE_U) (n := 10)
    rw [hand] at hxor
    exact hxor
  · have hxor := Nat.xor_mod_two_pow (a := w) (b := w &&& PTE_U) (n := 1)
    have hand := Nat.and_mod_two_pow (a := w) (b := PTE_U) (n := 1)
    have hzero : PTE_U % 2^1 = 0 := rfl
    rw [hand, hzero, Nat.and_zero, Nat.xor_zero] at hxor
    exact hxor

end Bits

section Trees

variable {s t : State} {root va : Nat}

/-- The page table that a word refers to. -/
def next (w : Nat) : Option Nat := if w &&& PTE_V ≠ 0 then some (PTE2PA w) else none

/-- The indices of walk's loop from `level` on. -/
def pathFrom (va : Nat) : Nat → List Nat
  | 0 => []
  | level+1 => PX (level + 1) va :: pathFrom va level

def path (va : Nat) : List Nat := pathFrom va 2

/-- The last-level page for an address. -/
def node (s : State) (root va : Nat) : Option Nat := follow next s.word root (path va)

/-- The PTE for an address, 0 where there is none. -/
def leaf (s : State) (root va : Nat) : Nat :=
  match node s root va with
  | none => 0
  | some t => pteAt s t va

/-- The page tables of the tree are different pages. -/
def Tree (s : State) (root : Nat) : Prop := Unshared next s.word root 2

/-- The page is not a page table of the tree. -/
def Outside (s : State) (root p : Nat) : Prop := Unreached next s.word root 2 p

/-- What kalloc will return: pages that are no page tables here, each once. -/
structure Fresh (s : State) (root : Nat) (answers : List Nat) : Prop where
  pages : ∀ p ∈ answers, p ≠ 0 → p % PGSIZE = 0 ∧ p < 2^64 ∧ Outside s root p
  once : answers.Pairwise (fun p q => p ≠ 0 → p ≠ q)

theorem walkLoop_find (s : State) (va level t : Nat) :
    walkLoop va false level s t = (s, follow next s.word t (pathFrom va level)) := by
  induction level generalizing t with
  | zero => rfl
  | succ level ih =>
    unfold walkLoop pathFrom
    simp only [follow, next]
    split
    · rw [ih]
      rfl
    · rfl

theorem walk_find (hva : va < MAXVA) : walk s root va false = .ok (s, node s root va) := by
  unfold walk
  rw [if_neg (Nat.not_le.mpr hva), walkLoop_find]
  rfl

theorem leaf_px {a b : Nat} (hpath : path a = path b) (h0 : PX 0 a = PX 0 b) :
    leaf s root a = leaf s root b := by
  unfold leaf node pteAt
  rw [hpath, h0]

/-- Two states with the same PTEs, of which the second has a tree, too. -/
structure Kept (s t : State) (root : Nat) : Prop where
  tree : Tree t root
  leaves : leaf t root = leaf s root
  fresh : Fresh t root t.answers

/-- A new page table is linked below one that walk has come to. -/
theorem kept_alloc (htree : Tree s root) (hfresh : Fresh s root s.answers) {p rest : _}
    (hans : s.answers = p :: rest) (hp : p ≠ 0) {ks : List Nat} {u i : Nat} (hks : ks.length < 2)
    (hu : follow next s.word root ks = some u) (hi : ¬s.word u i &&& PTE_V ≠ 0) :
    Kept s ((State.clear { s with answers := rest } p).set u i (PA2PTE p ||| PTE_V)) root ∧
    follow next ((State.clear { s with answers := rest } p).set u i (PA2PTE p ||| PTE_V)).word root
      (ks ++ [i]) = some p := by
  have hmem : p ∈ s.answers := by
    rw [hans]
    exact List.mem_cons_self
  obtain ⟨halign, hlt, hout⟩ := hfresh.pages p hmem hp
  obtain ⟨haddr, hodd⟩ := node_fields halign hlt
  have hnone : next (s.word u i) = none := if_neg hi
  have hzero : next 0 = none := by decide
  have hword : next (PA2PTE p ||| PTE_V) = some p := by
    unfold next
    rw [if_pos ((valid_iff _).mpr hodd), haddr]
  have hfollow := follow_alloc htree hks hu hnone hout hzero hword
  have hput : p ≠ u := fun heq => hout ks (by omega) (heq ▸ hu)
  refine ⟨⟨?_, ?_, ?_⟩, ?_⟩
  · exact Unshared.alloc htree hks hu hnone hout hzero hword
  · funext va
    have hlen : (path va).length ≤ 2 := Nat.le_refl 2
    have hnode := hfollow (path va) hlen
    unfold leaf node
    simp only [State.set, State.clear] at hnode ⊢
    rw [hnode]
    by_cases hpath : path va = ks ++ [i]
    · have hbefore : follow next s.word root (path va) = none := by
        rw [hpath, follow_snoc, hu, Option.bind_some, hnone]
      rw [if_pos hpath, hbefore]
      simp only [pteAt]
      rw [writeWord_other (Or.inl hput), Function.update_self]
    · rw [if_neg hpath]
      cases hq : follow next s.word root (path va) with
      | none => rfl
      | some q =>
        have hqp : q ≠ p := fun heq => hout (path va) hlen (heq ▸ hq)
        have hqu : q ≠ u := by
          rintro rfl
          have heq := htree (path va) ks q hlen (by omega) hq hu
          have hlen2 : (path va).length = 2 := rfl
          rw [heq] at hlen2
          omega
        simp only [pteAt]
        rw [writeWord_other (Or.inl hqu), Function.update_of_ne hqp]
  · have hpair := hfresh.once
    rw [hans, List.pairwise_cons] at hpair
    refine ⟨?_, hpair.2⟩
    intro q hq hq0
    have hq' : q ∈ s.answers := by
      rw [hans]
      exact List.mem_cons_of_mem _ hq
    obtain ⟨hqa, hql, hqo⟩ := hfresh.pages q hq' hq0
    refine ⟨hqa, hql, ?_⟩
    intro is his heq
    simp only [State.set, State.clear] at heq
    rw [hfollow is his] at heq
    split at heq
    · cases heq
      exact hpair.1 p hq hp rfl
    · exact hqo is his heq
  · have hnew := hfollow (ks ++ [i]) (by rw [List.length_append, List.length_singleton]; omega)
    rw [if_pos rfl] at hnew
    exact hnew

theorem kalloc_kept (h : Tree s root ∧ Fresh s root s.answers) : Kept s (kalloc s).1 root := by
  unfold kalloc
  cases hans : s.answers with
  | nil => exact ⟨h.1, rfl, h.2⟩
  | cons p rest =>
    refine ⟨h.1, rfl, ?_⟩
    have hpair := h.2.once
    rw [hans, List.pairwise_cons] at hpair
    refine ⟨?_, hpair.2⟩
    intro q hq hq0
    exact h.2.pages q (by rw [hans]; exact List.mem_cons_of_mem _ hq) hq0

/-- The loop of walk with allocation. -/
theorem walkLoop_alloc (va level : Nat) {ks : List Nat} {u : Nat} (hks : ks.length + level = 2)
    (htree : Tree s root) (hfresh : Fresh s root s.answers)
    (hu : follow next s.word root ks = some u) :
    Kept s (walkLoop va true level s u).1 root ∧
    ∀ q, (walkLoop va true level s u).2 = some q →
      follow next (walkLoop va true level s u).1.word root (ks ++ pathFrom va level) = some q := by
  induction level generalizing s u ks with
  | zero =>
    refine ⟨⟨htree, rfl, hfresh⟩, ?_⟩
    intro q hq
    cases hq
    simp only [pathFrom, List.append_nil]
    exact hu
  | succ level ih =>
    have hsplit : ks ++ pathFrom va (level + 1) =
        (ks ++ [PX (level + 1) va]) ++ pathFrom va level := by
      simp only [pathFrom, List.append_assoc, List.singleton_append]
    have hlen : (ks ++ [PX (level + 1) va]).length + level = 2 := by
      rw [List.length_append, List.length_singleton]
      omega
    unfold walkLoop
    simp only
    rw [hsplit]
    by_cases hv : s.word u (PX (level + 1) va) &&& PTE_V ≠ 0
    · rw [if_pos hv]
      apply ih hlen htree hfresh
      rw [follow_snoc, hu, Option.bind_some]
      exact if_pos hv
    · rw [if_neg hv, if_pos trivial]
      by_cases hz : (kalloc s).2 = 0
      · rw [if_pos hz]
        exact ⟨kalloc_kept ⟨htree, hfresh⟩, nofun⟩
      · rw [if_neg hz]
        cases hans : s.answers with
        | nil =>
          have hnil : (kalloc s).2 = 0 := by
            unfold kalloc
            rw [hans]
          exact absurd hnil hz
        | cons p rest =>
          have hk : kalloc s = ({ s with answers := rest }, p) := by
            unfold kalloc
            rw [hans]
          rw [hk] at hz ⊢
          obtain ⟨hkept, hnew⟩ := kept_alloc htree hfresh hans hz (by omega) hu hv
          obtain ⟨hrest, hfound⟩ := ih hlen hkept.tree hkept.fresh hnew
          exact ⟨⟨hrest.tree, hrest.leaves.trans hkept.leaves, hrest.fresh⟩, hfound⟩

/-- A PTE is written. -/
theorem set_leaf (htree : Tree s root) (hva : va < MAXVA) {t : Nat} (ht : node s root va = some t)
    (w : Nat) : Tree (s.set t (PX 0 va) w) root ∧
    (∀ p, Outside s root p → Outside (s.set t (PX 0 va) w) root p) ∧
    (∀ a, node (s.set t (PX 0 va) w) root a = node s root a) ∧
    ∀ a, a < MAXVA → leaf (s.set t (PX 0 va) w) root a =
      if a / PGSIZE = va / PGSIZE then w else leaf s root a := by
  have hfollow (is : List Nat) (hlen : is.length ≤ 2) :
      follow next (s.set t (PX 0 va) w).word root is = follow next s.word root is :=
    follow_write htree rfl ht (PX 0 va) w is hlen
  have hnode (a : Nat) : node (s.set t (PX 0 va) w) root a = node s root a :=
    hfollow (path a) (Nat.le_refl 2)
  refine ⟨?_, ?_, hnode, ?_⟩
  · intro is js p his hjs hp hp'
    rw [hfollow is his] at hp
    rw [hfollow js hjs] at hp'
    exact htree is js p his hjs hp hp'
  · intro p hp is his heq
    rw [hfollow is his] at heq
    exact hp is his heq
  · intro a ha
    by_cases hpage : a / PGSIZE = va / PGSIZE
    · have hpath : path a = path va := by
        simp only [path, pathFrom, px_of_page hpage]
      have hna : node s root a = some t := by
        unfold node
        rw [hpath]
        exact ht
      unfold leaf
      rw [hnode, hna, if_pos hpage]
      simp only [pteAt, State.set, px_of_page hpage]
      exact writeWord_self _ _ _ _
    · rw [if_neg hpage]
      unfold leaf
      rw [hnode]
      cases hq : node s root a with
      | none => rfl
      | some q =>
        simp only [pteAt, State.set]
        apply writeWord_other
        by_contra hsame
        push Not at hsame
        obtain ⟨rfl, h0⟩ := hsame
        have hpath := htree (path a) (path va) q (Nat.le_refl 2) (Nat.le_refl 2) hq ht
        simp only [path, pathFrom, List.cons.injEq, and_true] at hpath
        exact hpage (page_of_px ha hva hpath.1 hpath.2 h0)

/-- A page that is no page table is filled. -/
theorem fill_outside (htree : Tree s root) {p : Nat} (hp : Outside s root p) (words : Nat → Nat) :
    Tree { s with word := Function.update s.word p words } root ∧
    (∀ q, Outside s root q → Outside { s with word := Function.update s.word p words } root q) ∧
    (∀ a, node { s with word := Function.update s.word p words } root a = node s root a) ∧
    leaf { s with word := Function.update s.word p words } root = leaf s root := by
  have hfollow (is : List Nat) (hlen : is.length ≤ 2) :
      follow next (Function.update s.word p words) root is = follow next s.word root is := by
    apply follow_of_eq is hlen
    intro js u hjs hu
    have hne : u ≠ p := fun heq => hp js (by omega) (heq ▸ hu)
    rw [Function.update_of_ne hne]
  refine ⟨?_, ?_, fun a => hfollow (path a) (Nat.le_refl 2), ?_⟩
  · intro is js q his hjs hq hq'
    simp only at hq hq'
    rw [hfollow is his] at hq
    rw [hfollow js hjs] at hq'
    exact htree is js q his hjs hq hq'
  · intro q hq is his heq
    simp only at heq
    rw [hfollow is his] at heq
    exact hq is his heq
  · funext a
    have hnode : node { s with word := Function.update s.word p words } root a = node s root a :=
      hfollow (path a) (Nat.le_refl 2)
    unfold leaf
    rw [hnode]
    cases hq : node s root a with
    | none => rfl
    | some q =>
      have hne : q ≠ p := fun heq => hp (path a) (Nat.le_refl 2) (heq ▸ hq)
      simp only [pteAt, Function.update_of_ne hne]

end Trees

section Maps

/-- The map that a page table stands for: from page numbers to page frames and flags. -/
def Map : Type := Nat → Option (Nat × Nat)

/-- The pages from `lo` on get `n` consecutive frames. -/
def Map.fill (M : Map) (lo n frame flags : Nat) : Map := fun k =>
  if lo ≤ k ∧ k < lo + n then some ((frame + (k - lo)) % 2^52, flags) else M k

def Map.erase (M : Map) (lo n : Nat) : Map := fun k => if lo ≤ k ∧ k < lo + n then none else M k

/-- A page loses its user access. -/
def Map.dropUser (M : Map) (k : Nat) : Map := fun j =>
  if j = k then (M j).map (fun x => (x.1, andNot x.2 PTE_U)) else M j

/-- The physical address for a user address, or 0. -/
def Map.lookup (M : Map) (va : Nat) : Nat :=
  if MAXVA ≤ va then 0
  else
    match M (va / PGSIZE) with
    | none => 0
    | some x => if x.2 &&& PTE_U = 0 then 0 else x.1 * PGSIZE

/-- The first page of a range and the number of pages that it touches. -/
def firstPage (va : Nat) : Nat := va / PGSIZE
def pageCount (va size : Nat) : Nat := (va + size - 1) / PGSIZE - va / PGSIZE + 1

/-- What a call does to the map. A mappages that fails has mapped a part of its range. -/
def Changes (M : Map) (c : Call) (r : Int) (M' : Map) : Prop :=
  match c with
  | .mappages va size pa perm _ =>
    (r = 0 ∧ M' = M.fill (firstPage va) (pageCount va size) (pa / PGSIZE) (perm ||| PTE_V)) ∨
    (r = -1 ∧ ∃ k, k < pageCount va size ∧
      M' = M.fill (firstPage va) k (pa / PGSIZE) (perm ||| PTE_V))
  | .uvmunmap va npages _ => M' = M.erase (firstPage va) npages
  | .uvmclear va => M' = M.dropUser (firstPage va)

/-- What calls with their return values do to the map. -/
def ChangesAll : Map → List Call → List Int → Map → Prop
  | M, [], [], M' => M' = M
  | M, c :: cs, r :: rs, M' => ∃ M₁, Changes M c r M₁ ∧ ChangesAll M₁ cs rs M'
  | _, _, _, _ => False

/-- The entry of the map for a PTE. -/
def decode (w : Nat) : Option (Nat × Nat) :=
  if w &&& PTE_V ≠ 0 then some (w >>> 10, PTE_FLAGS w) else none

/-- The page table stands for the map. -/
structure Stands (s : State) (root : Nat) (M : Map) : Prop where
  tree : Tree s root
  entries : ∀ va, va < MAXVA → decode (leaf s root va) = M (va / PGSIZE)
  frames : ∀ k x, M k = some x → x.1 < 2^52

theorem decode_zero : decode 0 = none := by decide

theorem walkaddr_lookup {s : State} {root : Nat} {M : Map} (h : Stands s root M) (va : Nat) :
    walkaddr s root va = M.lookup va := by
  unfold walkaddr Map.lookup
  by_cases hva : MAXVA ≤ va
  · rw [if_pos hva, if_pos hva]
  · have hentry := h.entries va (Nat.not_le.mp hva)
    rw [if_neg hva, if_neg hva, walkLoop_find]
    have hnode : follow next s.word root (pathFrom va 2) = node s root va := rfl
    simp only [hnode]
    unfold leaf at hentry
    cases hn : node s root va with
    | none =>
      simp only [hn, decode_zero] at hentry
      rw [← hentry]
    | some t =>
      simp only [hn] at hentry ⊢
      unfold decode at hentry
      by_cases hv : pteAt s t va &&& PTE_V = 0
      · rw [if_neg (not_not.mpr hv)] at hentry
        rw [if_pos hv, ← hentry]
      · rw [if_pos hv] at hentry
        have hframe := h.frames _ _ hentry.symm
        have huser : PTE_FLAGS (pteAt s t va) &&& PTE_U = pteAt s t va &&& PTE_U := by
          unfold PTE_FLAGS
          rw [Nat.and_assoc]
          rfl
        have hpa : PTE2PA (pteAt s t va) = (pteAt s t va >>> 10) * PGSIZE := by
          unfold PTE2PA PGSIZE
          rw [Nat.shiftLeft_eq]
          apply Nat.mod_eq_of_lt
          simp only at hframe
          omega
        rw [if_neg hv, ← hentry]
        simp only [huser, hpa]

theorem Stands.kept {s t : State} {root : Nat} {M : Map} (h : Stands s root M)
    (hkept : Kept s t root) : Stands t root M := by
  refine ⟨hkept.tree, ?_, h.frames⟩
  rw [hkept.leaves]
  exact h.entries

/-- A PTE is written, and the entry of its page with it. -/
theorem Stands.set {s : State} {root va t w : Nat} {M M' : Map} (h : Stands s root M)
    (hva : va < MAXVA) (ht : node s root va = some t)
    (hM : ∀ k, M' k = if k = va / PGSIZE then decode w else M k)
    (hframe : ∀ x, decode w = some x → x.1 < 2^52) : Stands (s.set t (PX 0 va) w) root M' := by
  obtain ⟨htree, -, -, hleaf⟩ := set_leaf h.tree hva ht w
  refine ⟨htree, ?_, ?_⟩
  · intro a ha
    rw [hleaf a ha, hM]
    split
    · rfl
    · exact h.entries a ha
  · intro k x hx
    rw [hM] at hx
    split at hx
    · exact hframe x hx
    · exact h.frames k x hx

theorem fresh_set {s : State} {root va t w : Nat} (htree : Tree s root) (hva : va < MAXVA)
    (ht : node s root va = some t) {answers : List Nat} (h : Fresh s root answers) :
    Fresh (s.set t (PX 0 va) w) root answers := by
  obtain ⟨-, hout, -, -⟩ := set_leaf htree hva ht w
  refine ⟨?_, h.once⟩
  intro p hp hp0
  obtain ⟨ha, hl, ho⟩ := h.pages p hp hp0
  exact ⟨ha, hl, hout p ho⟩

theorem fill_succ (M : Map) (lo i frame flags k : Nat) :
    M.fill lo (i + 1) frame flags k =
      if k = lo + i then some ((frame + i) % 2^52, flags) else M.fill lo i frame flags k := by
  unfold Map.fill
  by_cases hk : k = lo + i
  · rw [if_pos hk, if_pos (by omega), hk, Nat.add_sub_cancel_left]
  · rw [if_neg hk]
    by_cases hin : lo ≤ k ∧ k < lo + i
    · rw [if_pos hin, if_pos (by omega)]
    · rw [if_neg hin, if_neg (by omega)]

theorem fill_zero (M : Map) (lo frame flags : Nat) : M.fill lo 0 frame flags = M := by
  funext k
  exact if_neg (by omega)

/-- The frame of the page that is `i` pages after `pa`. -/
theorem frame_eq (pa i : Nat) : ((pa + i * PGSIZE) % 2^64) >>> 12 = (pa / PGSIZE + i) % 2^52 := by
  have hsize : (2 : Nat)^64 = PGSIZE * 2^52 := rfl
  have hpos : 0 < PGSIZE := by decide
  rw [Nat.shiftRight_eq_div_pow, hsize]
  change (pa + i * PGSIZE) % (PGSIZE * 2^52) / PGSIZE = _
  rw [Nat.mod_mul_right_div_self, Nat.add_mul_div_right _ _ hpos]

theorem mappagesLoop_stands {root perm : Nat} (hperm : perm < 1024) {M : Map} (lo n pa : Nat)
    (htop : (lo + n) * PGSIZE ≤ MAXVA) (rounds i : Nat) (s : State) (hi : i < n)
    (hrounds : n ≤ i + rounds)
    (h : Stands s root (M.fill lo i (pa / PGSIZE) (perm ||| PTE_V)))
    (hfresh : Fresh s root s.answers) :
    Yields (fun _ => True) (fun r => ∃ M', Stands r.1 root M' ∧
      ((r.2 = 0 ∧ M' = M.fill lo n (pa / PGSIZE) (perm ||| PTE_V)) ∨
        (r.2 = -1 ∧ ∃ k, k < n ∧ M' = M.fill lo k (pa / PGSIZE) (perm ||| PTE_V))))
      (mappagesLoop root ((lo + n - 1) * PGSIZE) perm rounds s ((lo + i) * PGSIZE)
        ((pa + i * PGSIZE) % 2^64)) := by
  induction rounds generalizing i s with
  | zero => omega
  | succ rounds ih =>
    have hpos : 0 < PGSIZE := by decide
    have ha : (lo + i) * PGSIZE < MAXVA := by
      have hlt : (lo + i) * PGSIZE < (lo + n) * PGSIZE :=
        Nat.mul_lt_mul_of_pos_right (by omega) hpos
      omega
    have hks : ([] : List Nat).length + 2 = 2 := rfl
    obtain ⟨hkept, hfound⟩ := walkLoop_alloc ((lo + i) * PGSIZE) 2 hks h.tree hfresh rfl
    unfold mappagesLoop walk
    rw [if_neg (Nat.not_le.mpr ha)]
    simp only [ok_bind]
    cases hr : (walkLoop ((lo + i) * PGSIZE) true 2 s root).2 with
    | none => exact ⟨_, h.kept hkept, Or.inr ⟨rfl, i, hi, rfl⟩⟩
    | some t =>
      have hnode : node (walkLoop ((lo + i) * PGSIZE) true 2 s root).1 root ((lo + i) * PGSIZE) =
        some t := hfound t hr
      simp only
      split
      · trivial
      · obtain ⟨hshift, hflags, hodd⟩ :=
          leaf_fields ((pa + i * PGSIZE) % 2^64) hperm
        have hdecode : decode (PA2PTE ((pa + i * PGSIZE) % 2^64) ||| perm ||| PTE_V) =
            some ((pa / PGSIZE + i) % 2^52, perm ||| PTE_V) := by
          unfold decode
          rw [if_pos ((valid_iff _).mpr hodd), hshift, hflags, frame_eq]
        have hnext := (h.kept hkept).set
          (w := PA2PTE ((pa + i * PGSIZE) % 2^64) ||| perm ||| PTE_V) ha hnode
          (show ∀ k, M.fill lo (i + 1) (pa / PGSIZE) (perm ||| PTE_V) k = _ by
            intro k
            rw [fill_succ, hdecode, Nat.mul_div_cancel _ hpos])
          (by
            intro x hx
            rw [hdecode] at hx
            cases hx
            exact Nat.mod_lt _ (by decide))
        split
        · rename_i hlast
          have heq : i + 1 = n := by
            have hcancel := Nat.eq_of_mul_eq_mul_right hpos hlast
            omega
          rw [heq] at hnext
          exact ⟨_, hnext, Or.inl ⟨rfl, rfl⟩⟩
        · rename_i hlast
          have hne : i + 1 ≠ n := by
            rintro rfl
            apply hlast
            congr 1
          have hpa : ((pa + i * PGSIZE) % 2^64 + PGSIZE) % 2^64 =
              (pa + (i + 1) * PGSIZE) % 2^64 := by
            rw [Nat.mod_add_mod, Nat.add_mul, Nat.one_mul, Nat.add_assoc]
          have hva : (lo + i) * PGSIZE + PGSIZE = (lo + (i + 1)) * PGSIZE := by
            rw [← Nat.add_assoc, Nat.add_mul (lo + i), Nat.one_mul]
          rw [hpa, hva]
          exact ih (i + 1) _ (by omega) (by omega) hnext
            (fresh_set (h.kept hkept).tree ha hnode hkept.fresh)

theorem mappages_stands {s : State} {root va size pa perm : Nat} {M : Map} (hperm : perm < 1024)
    (hpa : pa < 2^64) (htop : va + size ≤ MAXVA) (h : Stands s root M)
    (hfresh : Fresh s root s.answers) :
    Yields (fun _ => True) (fun r => ∃ M', Stands r.1 root M' ∧
      ((r.2 = 0 ∧ M' = M.fill (firstPage va) (pageCount va size) (pa / PGSIZE) (perm ||| PTE_V)) ∨
        (r.2 = -1 ∧ ∃ k, k < pageCount va size ∧
          M' = M.fill (firstPage va) k (pa / PGSIZE) (perm ||| PTE_V))))
      (mappages s root va size pa perm) := by
  have hpos : 0 < PGSIZE := by decide
  unfold mappages
  split
  · trivial
  · rename_i hsize
    have hlast : (va + size - 1) % 2^64 = va + size - 1 := by
      apply Nat.mod_eq_of_lt
      unfold MAXVA at htop
      omega
    have hle : va / PGSIZE ≤ (va + size - 1) / PGSIZE := Nat.div_le_div_right (by omega)
    have hend : firstPage va + pageCount va size - 1 = (va + size - 1) / PGSIZE := by
      unfold firstPage pageCount
      rw [← Nat.add_assoc, Nat.add_sub_cancel, Nat.add_sub_cancel' hle]
    have hpages : (firstPage va + pageCount va size) * PGSIZE ≤ MAXVA := by
      have hlt : (va + size - 1) / PGSIZE < MAXVA / PGSIZE := by
        rw [Nat.div_lt_iff_lt_mul hpos]
        have hmul : MAXVA / PGSIZE * PGSIZE = MAXVA := rfl
        omega
      have hmul : (firstPage va + pageCount va size) * PGSIZE ≤ MAXVA / PGSIZE * PGSIZE :=
        Nat.mul_le_mul_right _ (by omega)
      exact hmul
    have hloop := mappagesLoop_stands hperm (M := M) (firstPage va) (pageCount va size) pa hpages
      (MAXVA / PGSIZE + 1 - va / PGSIZE) 0 s (Nat.succ_pos _)
      (by
        have hlt : (firstPage va + pageCount va size) * PGSIZE ≤ MAXVA / PGSIZE * PGSIZE := hpages
        have hcount := Nat.le_of_mul_le_mul_right hlt hpos
        unfold firstPage at hcount
        omega)
      (by rw [fill_zero]; exact h) hfresh
    simp only [hend, Nat.add_zero, Nat.zero_mul, Nat.mod_eq_of_lt hpa] at hloop
    have hround : PGROUNDDOWN va / PGSIZE = va / PGSIZE := Nat.mul_div_cancel _ hpos
    simp only [hlast, hround]
    exact hloop

theorem erase_succ (M : Map) (lo n k : Nat) :
    M.erase lo (n + 1) k = Map.erase (fun j => if j = lo then none else M j) (lo + 1) n k := by
  unfold Map.erase
  by_cases hk : k = lo
  · subst hk
    rw [if_pos (by omega)]
    simp
  · simp only [if_neg hk]
    by_cases hin : lo ≤ k ∧ k < lo + (n + 1)
    · rw [if_pos hin, if_pos (by omega)]
    · rw [if_neg hin, if_neg (by omega)]

/-- The PTEs from `lo` on refer to no page table of the tree. -/
def Foreign (s : State) (root lo n : Nat) : Prop :=
  ∀ k, lo ≤ k → k < lo + n → Outside s root (PTE2PA (leaf s root (k * PGSIZE)))

theorem uvmunmapLoop_stands {root : Nat} (doFree : Bool) (n lo : Nat) (s : State) {M : Map}
    (htop : (lo + n) * PGSIZE ≤ MAXVA) (h : Stands s root M)
    (hforeign : doFree = true → Foreign s root lo n) :
    Yields (fun _ => True) (fun t => Stands t root (M.erase lo n))
      (uvmunmapLoop root doFree n s (lo * PGSIZE)) := by
  have hpos : 0 < PGSIZE := by decide
  induction n generalizing lo s M with
  | zero =>
    have hsame : M.erase lo 0 = M := by
      funext k
      exact if_neg (by omega)
    rw [hsame]
    exact h
  | succ n ih =>
    have ha : lo * PGSIZE < MAXVA := by
      have hlt : lo * PGSIZE < (lo + (n + 1)) * PGSIZE :=
        Nat.mul_lt_mul_of_pos_right (by omega) hpos
      omega
    unfold uvmunmapLoop
    rw [walk_find ha, ok_bind]
    cases hnode : node s root (lo * PGSIZE) with
    | none => trivial
    | some t =>
      simp only
      split
      · trivial
      · split
        · trivial
        · -- kfree fills a page that is no page table
          have hfree : Yields (fun _ => True) (fun u => Stands u root M ∧
              node u root (lo * PGSIZE) = some t ∧ (doFree = true → Foreign u root lo (n + 1)))
              (unmapFree s doFree (pteAt s t (lo * PGSIZE))) := by
            unfold unmapFree
            by_cases hd : doFree = true
            · rw [if_pos hd]
              unfold kfree
              split
              · trivial
              · have hleaf : leaf s root (lo * PGSIZE) = pteAt s t (lo * PGSIZE) := by
                  unfold leaf
                  rw [hnode]
                have hout := hforeign hd lo (Nat.le_refl _) (by omega)
                rw [hleaf] at hout
                obtain ⟨htree, hkeep, hnodes, hleaves⟩ :=
                  fill_outside h.tree hout (fun _ => 0x0101010101010101)
                refine ⟨⟨htree, ?_, h.frames⟩, ?_, ?_⟩
                · rw [hleaves]
                  exact h.entries
                · rw [hnodes]
                  exact hnode
                · intro _ k hk hk'
                  rw [hleaves]
                  exact hkeep _ (hforeign hd k hk hk')
            · rw [if_neg hd]
              exact ⟨h, hnode, fun hd' => absurd hd' hd⟩
          apply hfree.bind
          rintro u ⟨hu, hunode, huforeign⟩
          obtain ⟨htree, hkeep, hnodes, hleaves⟩ := set_leaf hu.tree ha hunode 0
          have hset := hu.set ha hunode
            (w := 0) (show ∀ k, (if k = lo then none else M k) = _ by
              intro k
              rw [decode_zero, Nat.mul_div_cancel _ hpos])
            (by intro x hx; rw [decode_zero] at hx; cases hx)
          have hva : lo * PGSIZE + PGSIZE = (lo + 1) * PGSIZE := by
            rw [Nat.add_mul, Nat.one_mul]
          have herase : M.erase lo (n + 1) =
              Map.erase (fun j => if j = lo then none else M j) (lo + 1) n := by
            funext k
            exact erase_succ M lo n k
          rw [hva, herase]
          refine ih (lo + 1) _ (by rw [Nat.add_assoc, Nat.add_comm 1 n]; exact htop) hset ?_
          intro hd k hk hk'
          have hlt : k * PGSIZE < MAXVA := by
            have hmul : k * PGSIZE < (lo + (n + 1)) * PGSIZE :=
              Nat.mul_lt_mul_of_pos_right (by omega) hpos
            omega
          rw [hleaves _ hlt, if_neg (by
            rw [Nat.mul_div_cancel _ hpos, Nat.mul_div_cancel _ hpos]
            omega)]
          exact hkeep _ (huforeign hd k (by omega) (by omega))

theorem uvmunmap_stands {root va npages : Nat} {s : State} {M : Map} {doFree : Bool}
    (htop : va + npages * PGSIZE ≤ MAXVA) (h : Stands s root M)
    (hforeign : doFree = true → Foreign s root (firstPage va) npages) :
    Yields (fun _ => True) (fun t => Stands t root (M.erase (firstPage va) npages))
      (uvmunmap s root va npages doFree) := by
  have hpos : 0 < PGSIZE := by decide
  unfold uvmunmap
  split
  · trivial
  · rename_i halign
    have hva : firstPage va * PGSIZE = va :=
      Nat.div_mul_cancel (Nat.dvd_of_mod_eq_zero (not_not.mp halign))
    have hcount : ((va + npages * PGSIZE) % 2^64 - va) / PGSIZE = npages := by
      rw [Nat.mod_eq_of_lt (by unfold MAXVA at htop; omega), Nat.add_sub_cancel_left,
        Nat.mul_div_cancel _ hpos]
    rw [hcount]
    have hloop := uvmunmapLoop_stands doFree npages (firstPage va) s
      (by rw [Nat.add_mul, hva]; exact htop) h hforeign
    rw [hva] at hloop
    exact hloop

theorem uvmclear_stands {root va : Nat} {s : State} {M : Map} (h : Stands s root M) :
    Yields (fun _ => True) (fun t => Stands t root (M.dropUser (firstPage va)))
      (uvmclear s root va) := by
  unfold uvmclear
  by_cases hva : va < MAXVA
  · rw [walk_find hva, ok_bind]
    cases hnode : node s root va with
    | none => trivial
    | some t =>
      have hleaf : leaf s root va = pteAt s t va := by
        unfold leaf
        rw [hnode]
      obtain ⟨hshift, hflags, hodd⟩ := andNot_fields (pteAt s t va)
      have hentry := h.entries va hva
      have hdecode : decode (andNot (pteAt s t va) PTE_U) =
          (M (va / PGSIZE)).map (fun x => (x.1, andNot x.2 PTE_U)) := by
        rw [← hentry, hleaf]
        unfold decode
        by_cases hv : pteAt s t va &&& PTE_V ≠ 0
        · have hv' : andNot (pteAt s t va) PTE_U &&& PTE_V ≠ 0 := by
            rw [valid_iff] at hv ⊢
            omega
          rw [if_pos hv, if_pos hv', hshift, hflags]
          rfl
        · have hv' : ¬andNot (pteAt s t va) PTE_U &&& PTE_V ≠ 0 := by
            rw [valid_iff] at hv ⊢
            omega
          rw [if_neg hv, if_neg hv']
          rfl
      refine h.set hva hnode ?_ ?_
      · intro k
        unfold Map.dropUser firstPage
        split
        · rename_i hk
          rw [hdecode, hk]
        · rfl
      · intro x hx
        rw [hdecode] at hx
        obtain ⟨y, hy, rfl⟩ := Option.map_eq_some_iff.mp hx
        exact h.frames _ y hy
  · unfold walk
    rw [if_pos (Nat.not_lt.mp hva)]
    trivial

end Maps

section Calls

variable {root : Nat}

/-- What the callers promise: addresses below MAXVA, kalloc's pages are new, and pages that are
freed are no page tables. -/
def Promised (root : Nat) (s : State) : Call → Prop
  | .mappages va size pa _ answers => pa < 2^64 ∧ va + size ≤ MAXVA ∧ Fresh s root answers
  | .uvmunmap va npages doFree =>
    va + npages * PGSIZE ≤ MAXVA ∧ (doFree = true → Foreign s root (firstPage va) npages)
  | .uvmclear va => va < MAXVA

theorem call_changes {s : State} {M : Map} (h : Stands s root M) {c : Call}
    (hc : Promised root s c) :
    Yields (fun _ => True) (fun r => ∃ M', Stands r.1 root M' ∧ Changes M c r.2 M')
      (call root s c) := by
  have hmap {r : Except Panic State} {Q : State → Prop} (hr : Yields (fun _ => True) Q r) :
      Yields (fun _ => True) (fun x : State × Int => Q x.1) (r.map (fun s => (s, 0))) := by
    cases r with
    | error e => trivial
    | ok t => exact hr
  cases c with
  | mappages va size pa perm answers =>
    obtain ⟨hpa, htop, hfresh⟩ := hc
    have hs : Stands { s with answers := answers } root M := ⟨h.tree, h.entries, h.frames⟩
    exact mappages_stands perm.isLt hpa htop hs ⟨hfresh.pages, hfresh.once⟩
  | uvmunmap va npages doFree =>
    obtain ⟨htop, hforeign⟩ := hc
    exact (hmap (uvmunmap_stands htop h hforeign)).mono (fun r hr => ⟨_, hr, rfl⟩)
  | uvmclear va => exact (hmap (uvmclear_stands h)).mono (fun r hr => ⟨_, hr, rfl⟩)

/-- A new page table leads nowhere. -/
theorem uvmcreate_follow (s : State) (root i : Nat) (is : List Nat) :
    follow next (uvmcreate s root).word root (i :: is) = none := by
  have hword : (uvmcreate s root).word root i = 0 := by
    simp only [uvmcreate, State.clear, Function.update_self]
  simp only [follow, hword]
  rfl

theorem uvmcreate_stands (s : State) (root : Nat) :
    Stands (uvmcreate s root) root (fun _ => none) := by
  have hnone := uvmcreate_follow s root
  refine ⟨?_, ?_, nofun⟩
  · intro is js p _ _ hp hp'
    match is, js with
    | [], [] => rfl
    | [], j :: js =>
      rw [hnone] at hp'
      cases hp'
    | i :: is, _ =>
      rw [hnone] at hp
      cases hp
  · intro va _
    have hleaf : leaf (uvmcreate s root) root va = 0 := by
      unfold leaf node path pathFrom
      rw [hnone]
    rw [hleaf, decode_zero]

theorem calls_change (cs : List Call) {s t : State} {M : Map} {rs : List Int}
    (h : Stands s root M)
    (hok : Guarded (fun s c => (callStep root s c).map Prod.fst) (Promised root) s cs)
    (hrun : runOut (callStep root) s cs = some (t, rs)) :
    ∃ M', ChangesAll M cs rs M' ∧ Stands t root M' := by
  induction cs generalizing s M rs with
  | nil =>
    cases hrun
    exact ⟨M, rfl, h⟩
  | cons c cs ih =>
    simp only [runOut, Option.bind_eq_some_iff, Option.map_eq_some_iff] at hrun
    obtain ⟨⟨u, r⟩, hu, ⟨q, rs'⟩, hq, heq⟩ := hrun
    cases heq
    have hcall : call root s c = .ok (u, r) := by
      unfold callStep at hu
      cases hr : call root s c with
      | error e =>
        rw [hr] at hu
        cases hu
      | ok x =>
        rw [hr] at hu
        cases hu
        rfl
    obtain ⟨M₁, hM₁, hchange⟩ := (call_changes h hok.1).of_ok hcall
    have hfst : (callStep root s c).map Prod.fst = some u := by
      rw [hu]
      rfl
    obtain ⟨M', hall, hM'⟩ := ih hM₁ (hok.2 u hfst) hq
    exact ⟨M', ⟨M₁, hchange, hall⟩, hM'⟩

/-- After every sequence of calls on a new page table that does not panic, walkaddr answers every
address as a map does that the calls have changed in their pages only. -/
theorem page_table_refines_map (s t : State) (root : Nat) (cs : List Call) (rs : List Int)
    (hok : Guarded (fun s c => (callStep root s c).map Prod.fst) (Promised root)
      (uvmcreate s root) cs)
    (hrun : runOut (callStep root) (uvmcreate s root) cs = some (t, rs)) :
    ∃ M, ChangesAll (fun _ => none) cs rs M ∧ ∀ va, walkaddr t root va = M.lookup va := by
  obtain ⟨M, hall, hM⟩ := calls_change cs (uvmcreate_stands s root) hok hrun
  exact ⟨M, hall, walkaddr_lookup hM⟩

def noPages : State := ⟨fun _ _ => 0, [], 0x80000000⟩

/-- An unaligned range over the end of a last-level page table, a guard page, another page, and an
unmapping. -/
def boundaryCalls : List Call :=
  [.mappages 0x1ff800 0x1000 0x80010000 22 [0x80001000, 0x80002000, 0x80003000],
    .uvmclear 0x1ff000, .mappages 0x300000 4096 0x80020000 22 [], .uvmunmap 0x200000 1 false]

theorem page_table_refines_map_boundaryCalls : ∃ t M,
    runOut (callStep 0x80000000) (uvmcreate noPages 0x80000000) boundaryCalls =
      some (t, [0, 0, 0, 0]) ∧
    walkaddr t 0x80000000 0x300123 = 0x80020000 ∧ walkaddr t 0x80000000 0x1ff000 = 0 ∧
    ChangesAll (fun _ => none) boundaryCalls [0, 0, 0, 0] M ∧
    ∀ va, walkaddr t 0x80000000 va = M.lookup va := by
  have hfresh : Fresh (uvmcreate noPages 0x80000000) 0x80000000
      [0x80001000, 0x80002000, 0x80003000] := by
    refine ⟨?_, by decide⟩
    intro p hp _
    have hne : p % PGSIZE = 0 ∧ p < 2^64 ∧ 0x80000000 ≠ p := by
      revert p
      decide
    refine ⟨hne.1, hne.2.1, ?_⟩
    intro is _ heq
    match is with
    | [] =>
      cases heq
      exact hne.2.2 rfl
    | i :: is =>
      rw [uvmcreate_follow] at heq
      cases heq
  have hguard : 0x1ff000 < MAXVA := by decide
  have hok : Guarded (fun s c => (callStep 0x80000000 s c).map Prod.fst) (Promised 0x80000000)
      (uvmcreate noPages 0x80000000) boundaryCalls := by
    refine ⟨⟨by decide, by decide, hfresh⟩, fun _ _ => ⟨hguard, fun _ _ => ⟨?_, ?_⟩⟩⟩
    · exact ⟨by decide, by decide, nofun, List.Pairwise.nil⟩
    · exact fun _ _ => ⟨⟨by decide, nofun⟩, fun _ _ => trivial⟩
  have hrun : (runOut (callStep 0x80000000) (uvmcreate noPages 0x80000000) boundaryCalls).map
      (fun x => (x.2, walkaddr x.1 0x80000000 0x300123, walkaddr x.1 0x80000000 0x1ff000)) =
      some ([0, 0, 0, 0], 0x80020000, 0) := by decide +kernel
  obtain ⟨⟨t, rs⟩, ht, hend⟩ := Option.map_eq_some_iff.mp hrun
  simp only [Prod.mk.injEq] at hend
  obtain ⟨hrs, h1, h2⟩ := hend
  subst hrs
  obtain ⟨M, hall, hM⟩ := page_table_refines_map noPages t 0x80000000 boundaryCalls
    [0, 0, 0, 0] hok ht
  exact ⟨t, M, ht, h1, h2, hall, hM⟩

end Calls

end Xv6Labs.Pgtbl
