import Xv6Labs.CowInv

/-! What the allocator and the page-table functions do to the invariant and to the memory
that each process sees. -/
namespace Xv6Labs.Cow

variable {n : Nat} {lazy : Bool}

/-- What the processes see of the slots of their page tables: the bytes of the page, and
whether the process may access them. -/
abbrev View (n : Nat) := Fin n × Slot → Option ((Nat → UInt8) × Bool)

def view (s : State n) : View n :=
  fun k => (s.leaf k).map (fun e => (s.mem e.pa, e.u))

/-- What no function below changes, apart from the failure of a kalloc. -/
structure Rest (s s' : State n) : Prop where
  kend : s'.kend = s.kend
  sz : s'.sz = s.sz
  killed : s'.killed = s.killed
  held : s'.held = s.held
  roots : ∀ t, s'.node (t, .root) = s.node (t, .root)
  failed : s'.failed = false → s.failed = false

theorem Rest.refl (s : State n) : Rest s s := ⟨rfl, rfl, rfl, rfl, fun _ => rfl, id⟩

theorem Rest.trans {s s₁ s₂ : State n} (h : Rest s s₁) (h' : Rest s₁ s₂) : Rest s s₂ :=
  ⟨h'.kend.trans h.kend, h'.sz.trans h.sz, h'.killed.trans h.killed, h'.held.trans h.held,
    fun t => (h'.roots t).trans (h.roots t), fun hf => h.failed (h'.failed hf)⟩

theorem Rest.fill (s : State n) (pa : Nat) (page : Nat → UInt8) : Rest s (s.fill pa page) :=
  ⟨rfl, rfl, rfl, rfl, fun _ => rfl, id⟩

theorem Rest.setLeaf (s : State n) (t : Fin n) (i : Slot) (o : Option PTE) :
    Rest s (s.setLeaf t i o) := ⟨rfl, rfl, rfl, rfl, fun _ => rfl, id⟩

/-- An allocation leaves the pages in use as they are. -/
structure Grows (lazy : Bool) (s : State n) (H : List Nat) (s' : State n) (H' : List Nat) :
    Prop where
  inv : Inv lazy s' H'
  rest : Rest s s'
  leaf : s'.leaf = s.leaf
  keeps : ∀ q, 0 < users s H q → users s' H' q = users s H q ∧ s'.mem q = s.mem q
  nodes : ∀ j, s.node j ≠ none → s'.node j = s.node j

section Allocator

variable {s : State n} {H : List Nat}

theorem Grows.trans {s₁ s₂ : State n} {H₁ H₂ : List Nat} (h : Grows lazy s H s₁ H₁)
    (h' : Grows lazy s₁ H₁ s₂ H₂) : Grows lazy s H s₂ H₂ := by
  refine ⟨h'.inv, h.rest.trans h'.rest, h'.leaf.trans h.leaf, ?_, ?_⟩
  · intro q hq
    obtain ⟨h1, h2⟩ := h.keeps q hq
    obtain ⟨h3, h4⟩ := h'.keeps q (by omega)
    exact ⟨h3.trans h1, h4.trans h2⟩
  · intro j hj
    rw [h'.nodes j (by rw [h.nodes j hj]; exact hj), h.nodes j hj]

theorem users_pos_of_leaf {k : Fin n × Slot} {e : PTE} (he : s.leaf k = some e) :
    0 < users s H e.pa := by
  have := leafPTEs_pos he
  unfold users
  omega

theorem view_congr {s' : State n} (hleaf : s'.leaf = s.leaf)
    (hmem : ∀ q, 0 < users s H q → s'.mem q = s.mem q) : view s' = view s := by
  funext k
  unfold view
  rw [hleaf]
  cases he : s.leaf k with
  | none => rfl
  | some e => simp [hmem e.pa (users_pos_of_leaf he)]

theorem Grows.view {s' : State n} {H' : List Nat} (h : Grows lazy s H s' H') : view s' = view s :=
  view_congr h.leaf (fun q hq => (h.keeps q hq).2)

theorem view_setLeaf (t : Fin n) (i : Slot) (o : Option PTE) :
    view (s.setLeaf t i o) =
      Function.update (view s) (t, i) (o.map (fun e => (s.mem e.pa, e.u))) := by
  funext k
  exact Function.apply_update (fun _ (o : Option PTE) => o.map (fun e => (s.mem e.pa, e.u)))
    s.leaf (t, i) o k

/-- A failed kalloc. -/
theorem Inv.fail (h : Inv lazy s H) : Grows lazy s H { s with failed := true } H :=
  ⟨⟨⟨h.slots, h.parents, h.perms⟩, h.kend, h.counted, h.other, h.alone⟩,
    ⟨rfl, rfl, rfl, rfl, fun _ => rfl, fun hf => Bool.noConfusion hf⟩, rfl, fun _ _ => ⟨rfl, rfl⟩,
    fun _ _ => rfl⟩

theorem kalloc_spec (h : Inv lazy s H) :
    kalloc s = ({ s with failed := true }, none) ∨
      ∃ s' r, kalloc s = (s', some r) ∧ Grows lazy s H s' (r :: H) ∧ users s H r = 0 ∧
        users s' (r :: H) r = 1 ∧ s'.failed = s.failed ∧ s'.node = s.node := by
  cases hl : s.freelist with
  | nil =>
    left
    simp [kalloc, hl]
  | cons r l =>
    right
    obtain ⟨hp, hcount, hu, -⟩ := h.of_free (show r ∈ s.freelist by simp [hl])
    rw [hl, List.count_cons_self] at hcount
    have huse (q : Nat) (hq : q ≠ r) : users s (r :: H) q = users s H q := users_cons_of_ne hq
    have hone : users s (r :: H) r = 1 := by rw [users_cons_self, hu]
    have hk : kalloc s = (({ s with freelist := l }.fill r (fun _ => 5)).setRef r 1, some r) := by
      simp only [kalloc, hl]
    refine ⟨_, r, hk, ⟨?_, ⟨rfl, rfl, rfl, rfl, fun _ => rfl, id⟩, rfl, ?_, fun _ _ => rfl⟩, hu,
      hone, rfl, rfl⟩
    · refine h.recount _ _ r hp 1 rfl rfl rfl rfl ?_ huse ?_ ?_
      · intro q hq
        rw [hl, List.count_cons_of_ne (Ne.symm hq)]
        rfl
      · right
        refine ⟨?_, ?_, ?_⟩
        · change l.count r = 0
          omega
        · change 0 < users s (r :: H) r
          omega
        · change (1 : Int) = ((users s (r :: H) r : Nat) : Int)
          rw [hone]
          rfl
      · intro k e _ _ _
        exact hone
    · intro q hq
      have hqr : q ≠ r := by
        rintro rfl
        omega
      exact ⟨huse q hqr, Function.update_of_ne hqr _ _⟩

/-- kfree gives up one user of the page. -/
theorem kfree_spec {pa : Nat} (h : Inv lazy s (pa :: H)) :
    ∃ s', kfree s pa = some s' ∧ Inv lazy s' H ∧ Rest s s' ∧ s'.leaf = s.leaf ∧ s'.node = s.node ∧
      ∀ q, 0 < users s H q → users s' H q = users s H q ∧ s'.mem q = s.mem q := by
  have hcons := users_cons_self (s := s) (H := H) pa
  obtain ⟨hp, hfree, href⟩ := h.of_users (by omega : 0 < users s (pa :: H) pa)
  have hok : ¬(pa % PGSIZE ≠ 0 ∨ pa < s.kend ∨ PHYSTOP ≤ pa) := by
    obtain ⟨h1, h2, h3⟩ := hp
    omega
  have hself : (s.setRef pa (s.ref pa - 1)).ref pa = s.ref pa - 1 := by
    rw [setRef_ref h.kend hp hp, if_pos rfl]
  unfold kfree
  rw [if_neg hok]
  simp only [hself]
  by_cases hu : 0 < users s H pa
  · -- another user is left
    have hpos : ¬(s.ref pa - 1 ≤ 0) := by
      rw [href, hcons]
      push_cast
      omega
    rw [if_neg hpos]
    exact ⟨_, rfl, h.dropRef hu, ⟨rfl, rfl, rfl, rfl, fun _ => rfl, id⟩, rfl, rfl,
      fun q _ => ⟨rfl, rfl⟩⟩
  · have hzero : users s H pa = 0 := by omega
    have hle : s.ref pa - 1 ≤ 0 := by
      rw [href, hcons, hzero]
      rfl
    rw [if_pos hle]
    refine ⟨_, rfl, ?_, ⟨rfl, rfl, rfl, rfl, fun _ => rfl, id⟩, rfl, rfl, ?_⟩
    · refine h.recount _ _ pa hp (s.ref pa - 1) rfl rfl rfl rfl ?_ ?_ ?_ ?_
      · intro q hq
        exact List.count_cons_of_ne (Ne.symm hq)
      · intro q hq
        rw [users_cons_of_ne hq]
        rfl
      · left
        refine ⟨?_, hzero, hle⟩
        change (pa :: s.freelist).count pa = 1
        rw [List.count_cons_self, hfree]
      · intro k e he hpa hw
        have hone := h.alone k e he hw
        have hpos := leafPTEs_pos he
        rw [hpa] at hpos
        unfold users at hzero
        omega
    · intro q hq
      have hqp : q ≠ pa := by
        rintro rfl
        omega
      exact ⟨rfl, Function.update_of_ne hqp _ _⟩

end Allocator

section Walk

variable {s : State n} {H : List Nat}

/-- Slot number `p`. -/
def slot (p : Nat) : Slot := Fin.ofNat 134217728 p

theorem slotOf_eq (va : Nat) : slotOf va = slot (va / PGSIZE) := rfl

theorem slot_val {p : Nat} (hp : p < 134217728) : (slot p).val = p := Nat.mod_eq_of_lt hp

theorem slot_self (i : Slot) : slot i.val = i := by
  apply Fin.ext
  exact slot_val i.isLt

theorem lowOfSlot_slotOf (va : Nat) : lowOfSlot (slotOf va) = lowOf va := by
  apply Fin.ext
  simp only [lowOfSlot, slotOf, lowOf, Fin.ofNat, PGSIZE]
  omega

theorem low_parent (va : Nat) : (Node.low (lowOf va)).parent = some (.mid (midOf va)) := by
  simp only [Node.parent, lowOf, midOf, Fin.ofNat]
  congr 3
  omega

theorem walkLevel_spec (h : Inv lazy s H) (t : Fin n) (k : Node) (hroot : k ≠ .root)
    (hparent : ∀ k', k.parent = some k' → s.node (t, k') ≠ none) :
    ∃ s' b, walkLevel s t k true = (s', b) ∧ Grows lazy s H s' H ∧
      (b = true → s'.node (t, k) ≠ none) ∧ (b = false → s'.failed = true) := by
  unfold walkLevel
  by_cases hk : (s.node (t, k)).isSome
  · rw [if_pos hk]
    refine ⟨s, true, rfl, ⟨h, Rest.refl s, rfl, fun _ _ => ⟨rfl, rfl⟩, fun _ _ => rfl⟩, ?_, ?_⟩
    · intro _ hn
      rw [hn] at hk
      cases hk
    · intro hb
      cases hb
  · rw [if_neg hk, if_pos rfl]
    have hnone : s.node (t, k) = none := by simpa using hk
    rcases kalloc_spec h with hfail | ⟨s₁, r, halloc, hg, hfresh, -, -, hnode⟩
    · rw [hfail]
      refine ⟨_, false, rfl, h.fail, ?_, fun _ => rfl⟩
      intro hb
      cases hb
    · rw [halloc]
      have hnone₁ : (s₁.fill r (fun _ => 0)).node (t, k) = none := by
        change s₁.node (t, k) = none
        rw [hnode, hnone]
      refine ⟨_, true, rfl, ⟨?_, hg.rest.trans ⟨rfl, rfl, rfl, rfl, ?_, id⟩, hg.leaf, ?_, ?_⟩,
        ?_, ?_⟩
      · apply (hg.inv.fill r (fun _ => 0)).putNode hnone₁
        intro k' hk'
        change s₁.node (t, k') ≠ none
        rw [hnode]
        exact hparent k' hk'
      · intro t'
        rw [setNode_of_ne]
        · rfl
        · intro he
          cases he
          exact hroot rfl
      · intro q hq
        obtain ⟨h1, h2⟩ := hg.keeps q hq
        have hqr : q ≠ r := by
          rintro rfl
          omega
        refine ⟨(users_putNode hnone₁ q).trans h1, ?_⟩
        rw [← h2]
        exact Function.update_of_ne hqr _ _
      · intro j hj
        have hjk : j ≠ (t, k) := by
          rintro rfl
          exact hj hnone
        rw [setNode_of_ne _ t hjk, ← hnode]
        rfl
      · intro _
        simp
      · intro hb
        cases hb

theorem walk_spec (h : Inv lazy s H) (t : Fin n) (va : Nat) (hroot : s.node (t, .root) ≠ none)
    (hva : va < MAXVA) :
    ∃ s' r, walk s t va true = some (s', r) ∧ Grows lazy s H s' H ∧
      ((r = some (slotOf va) ∧ s'.node (t, .low (lowOfSlot (slotOf va))) ≠ none) ∨
        (r = none ∧ s'.failed = true)) := by
  obtain ⟨s₁, b₁, h₁, hg₁, hyes₁, hno₁⟩ := walkLevel_spec h t (.mid (midOf va)) (by simp) (by
    intro k' hk'
    cases hk'
    exact hroot)
  unfold walk
  rw [if_neg (by omega)]
  simp only [h₁]
  cases b₁ with
  | false => exact ⟨s₁, none, rfl, hg₁, Or.inr ⟨rfl, hno₁ rfl⟩⟩
  | true =>
    obtain ⟨s₂, b₂, h₂, hg₂, hyes₂, hno₂⟩ := walkLevel_spec hg₁.inv t (.low (lowOf va))
      (by simp) (by
      intro k' hk'
      rw [low_parent] at hk'
      cases hk'
      exact hyes₁ rfl)
    simp only [h₂, if_true]
    cases b₂ with
    | false => exact ⟨s₂, none, rfl, hg₁.trans hg₂, Or.inr ⟨rfl, hno₂ rfl⟩⟩
    | true =>
      refine ⟨s₂, some (slotOf va), rfl, hg₁.trans hg₂, Or.inl ⟨rfl, ?_⟩⟩
      rw [lowOfSlot_slotOf]
      exact hyes₂ rfl

/-- walk without `alloc` finds every mapped page. -/
theorem findPTE_eq (h : Shape lazy s) (t : Fin n) (va : Nat) (hva : va < MAXVA) :
    findPTE s t va = some (s.leaf (t, slotOf va)) := by
  have hlevel (k : Node) : walkLevel s t k false = (s, (s.node (t, k)).isSome) := by
    unfold walkLevel
    by_cases hk : (s.node (t, k)).isSome <;> simp [hk]
  unfold findPTE walk
  rw [if_neg (by omega)]
  simp only [hlevel]
  cases hleaf : s.leaf (t, slotOf va) with
  | some e =>
    have hlow := h.slots t (slotOf va) (by simp [hleaf])
    rw [lowOfSlot_slotOf] at hlow
    have hmid := h.parents t _ _ (low_parent va) hlow
    simp [Option.isSome_iff_ne_none.mpr hlow, Option.isSome_iff_ne_none.mpr hmid, hleaf]
  | none =>
    split
    · split <;> simp [hleaf]
    · rfl

theorem slotOf_rounddown (va : Nat) : slotOf (PGROUNDDOWN va) = slotOf va := by
  simp only [slotOf, PGROUNDDOWN, PGSIZE, Nat.mul_div_cancel _ (by omega : 0 < 4096)]

/-- walk finds the page-table pages of a mapped page in place. -/
theorem walk_found (h : Shape lazy s) (t : Fin n) (va : Nat) (hva : va < MAXVA)
    (hlow : s.node (t, .low (lowOfSlot (slotOf va))) ≠ none) :
    walk s t va true = some (s, some (slotOf va)) := by
  rw [lowOfSlot_slotOf] at hlow
  have hmid := h.parents t _ _ (low_parent va) hlow
  unfold walk walkLevel
  rw [if_neg (by omega)]
  simp [Option.isSome_iff_ne_none.mpr hlow, Option.isSome_iff_ne_none.mpr hmid]

/-- mappages of one page: the page-table pages are made, and then the leaf PTE is set. -/
theorem mappages_spec (h : Inv lazy s H) (t : Fin n) (va size : Nat) (e : PTE)
    (hroot : s.node (t, .root) ≠ none) (hva : va < MAXVA)
    (hsize : PGROUNDDOWN (va + size - 1) = PGROUNDDOWN va) :
    ∃ s₁, Grows lazy s H s₁ H ∧
      ((mappages s t va size e = some (s₁.setLeaf t (slotOf va) (some e), true) ∧
          s₁.node (t, .low (lowOfSlot (slotOf va))) ≠ none) ∨
        (mappages s t va size e = some (s₁, false) ∧ s₁.failed = true)) := by
  have hle : PGROUNDDOWN va ≤ va := Nat.div_mul_le_self va PGSIZE
  obtain ⟨s₁, r, hw, hg, hr⟩ := walk_spec h t (PGROUNDDOWN va) hroot (by omega)
  rw [slotOf_rounddown] at hr
  refine ⟨s₁, hg, ?_⟩
  unfold mappages
  rw [hsize, Nat.sub_self, Nat.zero_div]
  simp only [mappagesLoop, hw]
  rcases hr with ⟨rfl, hlow⟩ | ⟨rfl, hfail⟩
  · exact Or.inl ⟨rfl, hlow⟩
  · exact Or.inr ⟨rfl, hfail⟩

theorem mappages_none (t : Fin n) (p size : Nat) (e : PTE) (hva : MAXVA ≤ p * PGSIZE) :
    mappages s t (p * PGSIZE) size e = none := by
  have hround : PGROUNDDOWN (p * PGSIZE) = p * PGSIZE := by
    simp only [PGROUNDDOWN, PGSIZE, Nat.mul_div_cancel _ (by omega : 0 < 4096)]
  unfold mappages
  simp only [mappagesLoop, hround, walk, if_pos hva]

end Walk

/-- `V` with the slots `[a, a+k)` of table `t` replaced. -/
def setRange {α : Type*} (V : Fin n × Slot → α) (t : Fin n) (a k : Nat) (f : Nat → α) :
    Fin n × Slot → α :=
  fun j => if j.1 = t ∧ a ≤ j.2.val ∧ j.2.val < a + k then f j.2.val else V j

section Ranges

variable {α : Type*} (V : Fin n × Slot → α) (t : Fin n)

theorem setRange_zero (a : Nat) (f : Nat → α) : setRange V t a 0 f = V := by
  funext j
  unfold setRange
  rw [if_neg (by omega)]

/-- The first slot of the range, and the others. -/
theorem setRange_succ (a k : Nat) (f : Nat → α) (ha : a < 134217728) :
    setRange V t a (k+1) f = setRange (Function.update V (t, slot a) (f a)) t (a+1) k f := by
  funext j
  obtain ⟨t', i⟩ := j
  simp only [setRange]
  by_cases hin : t' = t ∧ a + 1 ≤ i.val ∧ i.val < a + 1 + k
  · rw [if_pos hin, if_pos ⟨hin.1, by omega, by omega⟩]
  · rw [if_neg hin]
    by_cases hfirst : (t', i) = (t, slot a)
    · cases hfirst
      rw [Function.update_self, slot_val ha, if_pos ⟨rfl, by omega, by omega⟩]
    · rw [Function.update_of_ne hfirst, if_neg]
      rintro ⟨rfl, h1, h2⟩
      have hia : i.val = a := by
        by_contra hne
        exact hin ⟨rfl, by omega, by omega⟩
      apply hfirst
      rw [← hia, slot_self]

/-- The slots of the range but the last, and the last. -/
theorem setRange_snoc (a k : Nat) (f : Nat → α) (ha : a + k < 134217728) :
    setRange V t a (k+1) f =
      Function.update (setRange V t a k f) (t, slot (a+k)) (f (a+k)) := by
  funext j
  obtain ⟨t', i⟩ := j
  by_cases hlast : (t', i) = (t, slot (a+k))
  · cases hlast
    rw [Function.update_self]
    simp only [setRange, slot_val ha, true_and]
    rw [if_pos ⟨by omega, by omega⟩]
  · rw [Function.update_of_ne hlast]
    simp only [setRange]
    have hne (ht : t' = t) : i.val ≠ a + k := by
      intro hi
      apply hlast
      rw [ht, ← hi, slot_self]
    by_cases hin : t' = t ∧ a ≤ i.val ∧ i.val < a + k
    · rw [if_pos hin, if_pos ⟨hin.1, hin.2.1, by omega⟩]
    · rw [if_neg hin, if_neg]
      rintro ⟨ht, h1, h2⟩
      have := hne ht
      exact hin ⟨ht, h1, by omega⟩

/-- Giving the slots of the range their old value back. -/
theorem setRange_undo (a k : Nat) (f : Nat → α) (c : α)
    (hc : ∀ j, a ≤ j → j < 134217728 → V (t, slot j) = c) :
    setRange (setRange V t a k f) t a k (fun _ => c) = V := by
  funext j
  obtain ⟨t', i⟩ := j
  simp only [setRange]
  split
  · rename_i hin
    rw [hin.1, ← hc i.val hin.2.1 i.isLt, slot_self]
  · rfl

theorem setRange_slot (a k p : Nat) (f : Nat → α) (hp : p < 134217728) :
    setRange V t a k f (t, slot p) = if a ≤ p ∧ p < a + k then f p else V (t, slot p) := by
  unfold setRange
  simp only [slot_val hp, true_and]

theorem setRange_of_ne {t' : Fin n} (ht : t' ≠ t) (a k : Nat) (f : Nat → α) (i : Slot) :
    setRange V t a k f (t', i) = V (t', i) := by
  unfold setRange
  rw [if_neg (fun h => ht h.1)]

end Ranges

section Unmap

variable {s : State n} {H : List Nat}

theorem kfree_setLeaf (pa : Nat) (t : Fin n) (i : Slot) (o : Option PTE) :
    kfree (s.setLeaf t i o) pa = (kfree s pa).map (fun s' => s'.setLeaf t i o) := by
  unfold kfree
  by_cases hp : pa % PGSIZE ≠ 0 ∨ pa < s.kend ∨ PHYSTOP ≤ pa
  · rw [if_pos hp]
    exact if_pos hp
  · rw [if_neg hp]
    refine (if_neg hp).trans ?_
    by_cases hz : (s.setRef pa (s.ref pa - 1)).ref pa ≤ 0
    · simp only [if_pos hz]
      exact if_pos hz
    · simp only [if_neg hz]
      exact if_neg hz

/-- kfree of a mapped page, and then the PTE is cleared. -/
theorem unmap_spec (h : Inv lazy s H) {t : Fin n} {i : Slot} {e : PTE}
    (he : s.leaf (t, i) = some e) :
    ∃ s₁, kfree s e.pa = some s₁ ∧ Inv lazy (s₁.setLeaf t i none) H ∧
      Rest s (s₁.setLeaf t i none) ∧ (s₁.setLeaf t i none).node = s.node ∧
      (s₁.setLeaf t i none).leaf = (s.setLeaf t i none).leaf ∧
      view (s₁.setLeaf t i none) = Function.update (view s) (t, i) none := by
  obtain ⟨s', hk, hinv, hrest, hleaf, hnode, hkeep⟩ := kfree_spec (h.takeLeaf he)
  rw [kfree_setLeaf, Option.map_eq_some_iff] at hk
  obtain ⟨s₁, hk, rfl⟩ := hk
  refine ⟨s₁, hk, hinv, ⟨hrest.kend, hrest.sz, hrest.killed, hrest.held, hrest.roots,
    hrest.failed⟩, hnode, hleaf, ?_⟩
  rw [view_congr hleaf (fun q hq => (hkeep q hq).2), view_setLeaf]
  rfl

theorem lt_MAXVA {p : Nat} (hp : p < 67108864) : p * PGSIZE < MAXVA := by
  unfold PGSIZE MAXVA
  omega

theorem slotOf_page (p : Nat) : slotOf (p * PGSIZE) = slot p := by
  rw [slotOf_eq, Nat.mul_div_cancel _ (by decide)]

theorem view_ne_none (k : Fin n × Slot) : view s k ≠ none ↔ s.leaf k ≠ none := by
  unfold view
  simp

theorem uvmunmapLoop_spec (h : Inv lazy s H) (t : Fin n) (k p : Nat) (hp : p + k ≤ 67108864)
    (hmap : ∀ j, p ≤ j → j < p + k → view s (t, slot j) ≠ none) :
    ∃ s', uvmunmapLoop t true k s (p * PGSIZE) = some s' ∧ Inv lazy s' H ∧ Rest s s' ∧
      s'.node = s.node ∧ view s' = setRange (view s) t p k (fun _ => none) := by
  induction k generalizing s p with
  | zero => exact ⟨s, rfl, h, Rest.refl s, rfl, (setRange_zero ..).symm⟩
  | succ k ih =>
    obtain ⟨e, he⟩ := Option.ne_none_iff_exists'.mp
      ((view_ne_none _).mp (hmap p (by omega) (by omega)))
    have hfind : findPTE s t (p * PGSIZE) = some (some e) := by
      rw [findPTE_eq h.toShape t _ (lt_MAXVA (by omega)), slotOf_page, he]
    have hflags : e.noFlags = false := by simp [PTE.noFlags, (h.perms _ e he).1]
    obtain ⟨s₁, hk, hinv, hrest, hnode, -, hview⟩ := unmap_spec h he
    obtain ⟨s', hs', hinv', hrest', hnode', hview'⟩ := ih hinv (p+1) (by omega) (by
      intro j h1 h2
      rw [hview, Function.update_of_ne]
      · exact hmap j (by omega) (by omega)
      · intro heq
        have hv := congrArg (fun x => x.2.val) heq
        simp only [slot_val (by omega : j < 134217728), slot_val (by omega : p < 134217728)] at hv
        omega)
    refine ⟨s', ?_, hinv', hrest.trans hrest', hnode'.trans hnode, ?_⟩
    · rw [uvmunmapLoop, hfind]
      simp only [hflags, Bool.false_eq_true, if_false, if_true, hk, Option.bind_some, slotOf_page]
      rw [← hs', Nat.succ_mul]
    · rw [hview', hview, setRange_succ (view s) t p k _ (by omega)]

theorem uvmunmap_spec (h : Inv lazy s H) (t : Fin n) (k p : Nat) (hp : p + k ≤ 67108864)
    (hmap : ∀ j, p ≤ j → j < p + k → view s (t, slot j) ≠ none) :
    ∃ s', uvmunmap s t (p * PGSIZE) k true = some s' ∧ Inv lazy s' H ∧ Rest s s' ∧
      s'.node = s.node ∧ view s' = setRange (view s) t p k (fun _ => none) := by
  unfold uvmunmap
  rw [if_neg (by rw [Nat.mul_mod_left]; simp)]
  exact uvmunmapLoop_spec h t k p hp hmap

/-- The number of pages of a process of size `sz`. -/
def npages (sz : Nat) : Nat := (sz + PGSIZE - 1) / PGSIZE

theorem PGROUNDUP_eq (sz : Nat) : PGROUNDUP sz = npages sz * PGSIZE := rfl

theorem npages_mul (p : Nat) : npages (p * PGSIZE) = p := by
  unfold npages PGSIZE
  omega

theorem uvmdealloc_spec (h : Inv lazy s H) (t : Fin n) (oldsz newsz : Nat)
    (hle : npages oldsz ≤ 67108864)
    (hmap : ∀ j, npages newsz ≤ j → j < npages oldsz → view s (t, slot j) ≠ none) :
    ∃ s', uvmdealloc s t oldsz newsz = some (s', min oldsz newsz) ∧ Inv lazy s' H ∧ Rest s s' ∧
      s'.node = s.node ∧ view s' = setRange (view s) t (npages newsz)
        (npages oldsz - npages newsz) (fun _ => none) := by
  have hmono (a b : Nat) (hab : a ≤ b) : npages a ≤ npages b := by
    unfold npages PGSIZE
    omega
  have hsame (hz : npages oldsz - npages newsz = 0) :
      view s = setRange (view s) t (npages newsz) (npages oldsz - npages newsz)
        (fun _ => none) := by
    rw [hz, setRange_zero]
  unfold uvmdealloc
  by_cases hn : oldsz ≤ newsz
  · rw [if_pos hn, min_eq_left hn]
    have := hmono oldsz newsz hn
    exact ⟨s, rfl, h, Rest.refl s, rfl, hsame (by omega)⟩
  · rw [if_neg hn, min_eq_right (by omega)]
    have hnm := hmono newsz oldsz (by omega)
    by_cases hlt : PGROUNDUP newsz < PGROUNDUP oldsz
    · have hdiv : (PGROUNDUP oldsz - PGROUNDUP newsz) / PGSIZE = npages oldsz - npages newsz := by
        rw [PGROUNDUP_eq, PGROUNDUP_eq, ← Nat.sub_mul, Nat.mul_div_cancel _ (by decide)]
      rw [if_pos hlt, hdiv, PGROUNDUP_eq]
      obtain ⟨s', hs', hrest⟩ := uvmunmap_spec h t (npages oldsz - npages newsz) (npages newsz)
        (by omega) (fun j h1 h2 => hmap j h1 (by omega))
      exact ⟨s', by rw [hs']; rfl, hrest⟩
    · rw [if_neg hlt]
      have hle' : npages oldsz ≤ npages newsz := by
        by_contra hgt
        apply hlt
        rw [PGROUNDUP_eq, PGROUNDUP_eq]
        exact Nat.mul_lt_mul_of_pos_right (by omega) (by decide)
      exact ⟨s, rfl, h, Rest.refl s, rfl, hsame (by omega)⟩

end Unmap

end Xv6Labs.Cow
