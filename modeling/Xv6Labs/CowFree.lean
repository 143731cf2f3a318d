import Xv6Labs.CowTables

/-! uvmcreate, uvmfree with its freewalk, uvmclear, and the free list that kinit builds. -/
namespace Xv6Labs.Cow

variable {n : Nat} {lazy : Bool} {s : State n} {H : List Nat}

section Create

theorem uvmcreate_spec (h : Inv lazy s H) (t : Fin n) (hnone : s.node (t, .root) = none) :
    ∃ s' b, uvmcreate s t = (s', b) ∧ Inv lazy s' H ∧ view s' = view s ∧ s'.kend = s.kend ∧
      s'.sz = s.sz ∧ s'.killed = s.killed ∧ s'.held = s.held ∧
      (∀ t', t' ≠ t → s'.node (t', .root) = s.node (t', .root)) ∧
      (s'.failed = false → s.failed = false) ∧
      (b = true → s'.node (t, .root) ≠ none) ∧
      (b = false → s'.failed = true ∧ s'.node (t, .root) = none) := by
  unfold uvmcreate
  rcases kalloc_spec h with hfail | ⟨s₁, r, halloc, hg, -, hone, -, hnode⟩
  · rw [hfail]
    refine ⟨_, false, rfl, h.fail.inv, h.fail.view, rfl, rfl, rfl, rfl, fun _ _ => rfl,
      h.fail.rest.failed, ?_, fun _ => ⟨rfl, hnone⟩⟩
    intro hb
    cases hb
  · rw [halloc]
    have hnone₁ : (s₁.fill r (fun _ => 0)).node (t, .root) = none := by
      change s₁.node (t, .root) = none
      rw [hnode, hnone]
    refine ⟨_, true, rfl, ?_, ?_, hg.rest.kend, hg.rest.sz, hg.rest.killed, hg.rest.held, ?_,
      hg.rest.failed, ?_, ?_⟩
    · apply (hg.inv.fill r (fun _ => 0)).putNode hnone₁
      intro k' hk'
      cases hk'
    · exact (view_fill_fresh hone (fun _ => 0)).trans hg.view
    · intro t' ht'
      rw [setNode_of_ne]
      · change s₁.node (t', .root) = s.node (t', .root)
        rw [hnode]
      · intro he
        cases he
        exact ht' rfl
    · intro _
      simp
    · intro hb
      cases hb

end Create

section Free

theorem kfree_setNode (pa : Nat) (t : Fin n) (k : Node) (o : Option Nat) :
    kfree (s.setNode t k o) pa = (kfree s pa).map (fun s' => s'.setNode t k o) := by
  unfold kfree
  by_cases hp : pa % PGSIZE ≠ 0 ∨ pa < s.kend ∨ PHYSTOP ≤ pa
  · rw [if_pos hp]
    exact if_pos hp
  · rw [if_neg hp]
    refine (if_neg hp).trans ?_
    by_cases hz : (s.setRef pa (s.ref pa - 1)).ref pa ≤ 0
    · simp only [if_pos hz]
      exact if_pos hz
    · simp only [if_neg hz]
      exact if_neg hz

/-- Page-table pages of `t` have been freed: those in `P`. -/
structure Freed (lazy : Bool) (s s' : State n) (H : List Nat) (t : Fin n) (P : Node → Prop) :
    Prop where
  inv : Inv lazy s' H
  leaf : s'.leaf = s.leaf
  seen : view s' = view s
  kend : s'.kend = s.kend
  sz : s'.sz = s.sz
  killed : s'.killed = s.killed
  held : s'.held = s.held
  failed : s'.failed = false → s.failed = false
  gone : ∀ k, P k → s'.node (t, k) = none
  kept : ∀ t' k, (t' = t → ¬P k) → s'.node (t', k) = s.node (t', k)

theorem Freed.trans {s₁ s₂ : State n} {t : Fin n} {P Q : Node → Prop} (h : Freed lazy s s₁ H t P)
    (h' : Freed lazy s₁ s₂ H t Q) : Freed lazy s s₂ H t (fun k => P k ∨ Q k) := by
  refine ⟨h'.inv, h'.leaf.trans h.leaf, h'.seen.trans h.seen, h'.kend.trans h.kend,
    h'.sz.trans h.sz, h'.killed.trans h.killed, h'.held.trans h.held,
    fun hf => h.failed (h'.failed hf), ?_, ?_⟩
  · intro k hk
    by_cases hq : Q k
    · exact h'.gone k hq
    · rw [h'.kept t k (fun _ => hq)]
      exact h.gone k (hk.resolve_right hq)
  · intro t' k hk
    rw [h'.kept t' k (fun ht hq => hk ht (Or.inr hq)),
      h.kept t' k (fun ht hp => hk ht (Or.inl hp))]

theorem Freed.of_iff {s' : State n} {t : Fin n} {P Q : Node → Prop} (h : Freed lazy s s' H t P)
    (hpq : ∀ k, P k ↔ Q k) : Freed lazy s s' H t Q := by
  have : P = Q := funext (fun k => propext (hpq k))
  rwa [← this]

theorem freeNode_spec (h : Inv lazy s H) (t : Fin n) (k : Node)
    (hchild : ∀ j, j.parent = some k → s.node (t, j) = none) (hleaf : ∀ i, s.leaf (t, i) = none) :
    ∃ s', s.freeNode t k = some s' ∧ Freed lazy s s' H t (fun j => j = k) := by
  unfold State.freeNode
  cases hk : s.node (t, k) with
  | none =>
    refine ⟨s, rfl, h, rfl, rfl, rfl, rfl, rfl, rfl, id, ?_, fun _ _ _ => rfl⟩
    rintro j rfl
    exact hk
  | some pa =>
    obtain ⟨s', hs', hinv, hrest, hl, hnode, hkeep⟩ :=
      kfree_spec (h.takeNode hk hchild (fun i _ => hleaf i))
    rw [kfree_setNode, Option.map_eq_some_iff] at hs'
    obtain ⟨s₁, hs₁, rfl⟩ := hs'
    have hseen : view (s₁.setNode t k none) = view s :=
      (view_congr hl (fun q hq => (hkeep q hq).2)).trans rfl
    refine ⟨_, by simp only [hs₁, Option.map_some], hinv, hl, hseen, hrest.kend, hrest.sz,
      hrest.killed, hrest.held, hrest.failed, ?_, ?_⟩
    · rintro j rfl
      simp
    · intro t' j hj
      rw [hnode]
      apply setNode_of_ne
      intro he
      cases he
      exact hj rfl rfl

theorem freewalkLow_spec (h : Inv lazy s H) (t : Fin n) (i : Fin 262144)
    (hleaf : ∀ i, s.leaf (t, i) = none) :
    ∃ s', freewalkLow t s i = some s' ∧ Freed lazy s s' H t (fun j => j = .low i) := by
  unfold freewalkLow
  rw [if_neg]
  · apply freeNode_spec h t (.low i) _ hleaf
    intro j hj
    cases j <;> simp [Node.parent] at hj
  · rintro ⟨j, hj, -⟩
    rw [hleaf] at hj
    cases hj

/-- A loop that frees the nodes `gone i` for each `i` of the list. -/
theorem freeLoop_spec {α : Type*} (t : Fin n) (f : State n → α → Option (State n))
    (gone : α → Node → Prop) (l : List α)
    (hf : ∀ (s : State n) (i : α), Inv lazy s H → (∀ i, s.leaf (t, i) = none) →
      ∃ s', f s i = some s' ∧ Freed lazy s s' H t (gone i))
    (h : Inv lazy s H) (hleaf : ∀ i, s.leaf (t, i) = none) :
    ∃ s', l.foldlM f s = some s' ∧ Freed lazy s s' H t (fun k => ∃ i ∈ l, gone i k) := by
  induction l generalizing s with
  | nil =>
    refine ⟨s, rfl, h, rfl, rfl, rfl, rfl, rfl, rfl, id, ?_, fun _ _ _ => rfl⟩
    rintro k ⟨i, hi, -⟩
    cases hi
  | cons i l ih =>
    obtain ⟨s₁, hs₁, hfreed₁⟩ := hf s i h hleaf
    obtain ⟨s₂, hs₂, hfreed₂⟩ := ih hfreed₁.inv (by rw [hfreed₁.leaf]; exact hleaf)
    refine ⟨s₂, ?_, (hfreed₁.trans hfreed₂).of_iff (by simp)⟩
    rw [List.foldlM_cons, hs₁]
    exact hs₂

theorem entry_low (i : Fin 512) (l : Fin 262144) (h : l.val / 512 = i.val) :
    l ∈ (List.finRange 512).map (entry 262144 i) := by
  refine List.mem_map.mpr ⟨⟨l.val % 512, by omega⟩, List.mem_finRange _, ?_⟩
  apply Fin.ext
  simp only [entry, Fin.ofNat]
  omega

theorem parent_entry_low (i : Fin 512) (j : Fin 512) :
    (Node.low (entry 262144 i j)).parent = some (.mid i) := by
  simp only [Node.parent, entry, Fin.ofNat]
  congr 2
  apply Fin.ext
  simp only
  omega

theorem freewalkMid_spec (h : Inv lazy s H) (t : Fin n) (i : Fin 512)
    (hleaf : ∀ i, s.leaf (t, i) = none) :
    ∃ s', freewalkMid t s i = some s' ∧
      Freed lazy s s' H t (fun k => k = .mid i ∨ k.parent = some (.mid i)) := by
  unfold freewalkMid
  by_cases hmid : (s.node (t, .mid i)).isSome
  · rw [if_pos hmid]
    obtain ⟨s₁, hs₁, hfreed₁⟩ := freeLoop_spec t (freewalkLow t) (fun l k => k = .low l)
      ((List.finRange 512).map (entry 262144 i))
      (fun s i h hleaf => freewalkLow_spec h t i hleaf) h hleaf
    have hlow (k : Node) (hk : k.parent = some (.mid i)) :
        ∃ l ∈ (List.finRange 512).map (entry 262144 i), k = .low l := by
      cases k with
      | root => cases hk
      | mid j => cases hk
      | low l =>
        refine ⟨l, entry_low i l ?_, rfl⟩
        simp only [Node.parent, Option.some.injEq, Node.mid.injEq] at hk
        rw [← hk]
    obtain ⟨s₂, hs₂, hfreed₂⟩ := freeNode_spec hfreed₁.inv t (.mid i)
      (fun k hk => hfreed₁.gone k (hlow k hk)) (by rw [hfreed₁.leaf]; exact hleaf)
    refine ⟨s₂, by rw [hs₁]; exact hs₂, (hfreed₁.trans hfreed₂).of_iff ?_⟩
    intro k
    constructor
    · rintro (⟨l, hl, rfl⟩ | rfl)
      · obtain ⟨j, -, rfl⟩ := List.mem_map.mp hl
        exact Or.inr (parent_entry_low i j)
      · exact Or.inl rfl
    · rintro (rfl | hk)
      · exact Or.inr rfl
      · exact Or.inl (hlow k hk)
  · rw [if_neg hmid]
    have hnone : s.node (t, .mid i) = none := by simpa using hmid
    refine ⟨s, rfl, h, rfl, rfl, rfl, rfl, rfl, rfl, id, ?_, fun _ _ _ => rfl⟩
    rintro k (rfl | hk)
    · exact hnone
    · by_contra hne
      exact h.parents t k _ hk hne hnone

/-- freewalk of a table without leaf PTEs frees all its page-table pages. -/
theorem freewalk_spec (h : Inv lazy s H) (t : Fin n) (hleaf : ∀ i, s.leaf (t, i) = none) :
    ∃ s', freewalk s t = some s' ∧ Freed lazy s s' H t (fun _ => True) := by
  obtain ⟨s₁, hs₁, hfreed₁⟩ := freeLoop_spec t (freewalkMid t)
    (fun i k => k = .mid i ∨ k.parent = some (.mid i)) (List.finRange 512)
    (fun s i h hleaf => freewalkMid_spec h t i hleaf) h hleaf
  obtain ⟨s₂, hs₂, hfreed₂⟩ := freeNode_spec hfreed₁.inv t .root (by
    intro k hk
    cases k with
    | root => cases hk
    | mid i => exact hfreed₁.gone _ ⟨i, List.mem_finRange i, Or.inl rfl⟩
    | low l => simp [Node.parent] at hk) (by rw [hfreed₁.leaf]; exact hleaf)
  refine ⟨s₂, by unfold freewalk; rw [hs₁]; exact hs₂, (hfreed₁.trans hfreed₂).of_iff ?_⟩
  intro k
  refine ⟨fun _ => trivial, fun _ => ?_⟩
  cases k with
  | root => exact Or.inr rfl
  | mid i => exact Or.inl ⟨i, List.mem_finRange i, Or.inl rfl⟩
  | low l => exact Or.inl ⟨⟨l.val / 512, by omega⟩, List.mem_finRange _, Or.inr rfl⟩

/-- The table and the memory of a process are gone; nothing else is. -/
theorem uvmfree_spec (h : Inv lazy s H) (t : Fin n) (sz : Nat) (hle : npages sz ≤ 67108864)
    (hmap : Mapped s t (npages sz)) :
    ∃ s', uvmfree s t sz = some s' ∧ Inv lazy s' H ∧ s'.kend = s.kend ∧ s'.sz = s.sz ∧
      s'.killed = s.killed ∧ s'.held = s.held ∧ (s'.failed = false → s.failed = false) ∧
      view s' = setRange (view s) t 0 (npages sz) (fun _ => none) ∧
      (∀ k, s'.node (t, k) = none) ∧
      (∀ t', t' ≠ t → ∀ k, s'.node (t', k) = s.node (t', k)) := by
  obtain ⟨s₁, hs₁, hinv₁, hrest₁, hnode₁, hview₁⟩ := uvmunmap_spec h t (npages sz) 0 (by omega)
    (fun j _ hj => (hmap j (by omega)).mpr (by omega))
  have hunmap : (if 0 < sz then uvmunmap s t 0 (PGROUNDUP sz / PGSIZE) true else some s) =
      some s₁ := by
    have hdiv : PGROUNDUP sz / PGSIZE = npages sz := Nat.mul_div_cancel _ (by decide)
    by_cases hsz : 0 < sz
    · rw [if_pos hsz, hdiv]
      rwa [Nat.zero_mul] at hs₁
    · have hz : npages sz = 0 := by
        unfold npages PGSIZE
        omega
      rw [if_neg hsz]
      rw [hz] at hs₁
      exact hs₁
  have hempty (j : Nat) (hj : j < 134217728) : s₁.leaf (t, slot j) = none := by
    by_contra hne
    have hseen := (view_ne_none (s := s₁) (t, slot j)).mpr hne
    rw [hview₁, setRange_slot _ _ _ _ _ _ hj] at hseen
    split at hseen
    · exact hseen rfl
    · have := (hmap j hj).mp hseen
      omega
  have hleaf (i : Slot) : s₁.leaf (t, i) = none := by
    rw [← slot_self i]
    exact hempty i.val i.isLt
  obtain ⟨s₂, hs₂, hfreed⟩ := freewalk_spec hinv₁ t hleaf
  refine ⟨s₂, ?_, hfreed.inv, hfreed.kend.trans hrest₁.kend, hfreed.sz.trans hrest₁.sz,
    hfreed.killed.trans hrest₁.killed, hfreed.held.trans hrest₁.held,
    fun hf => hrest₁.failed (hfreed.failed hf), hfreed.seen.trans hview₁,
    fun k => hfreed.gone k trivial, ?_⟩
  · rw [uvmfree, hunmap, Option.bind_some, hs₂]
  · intro t' ht' k
    rw [hfreed.kept t' k (fun ht => absurd ht ht'), hnode₁]

end Free

section Clear

theorem walk_false (t : Fin n) (va : Nat) (hva : va < MAXVA) :
    walk s t va false = some (s, if (s.node (t, .mid (midOf va))).isSome ∧
      (s.node (t, .low (lowOf va))).isSome then some (slotOf va) else none) := by
  have hlevel (k : Node) : walkLevel s t k false = (s, (s.node (t, k)).isSome) := by
    unfold walkLevel
    by_cases hk : (s.node (t, k)).isSome <;> simp [hk]
  unfold walk
  rw [if_neg (by omega)]
  simp only [hlevel]
  by_cases hmid : (s.node (t, .mid (midOf va))).isSome <;>
    by_cases hlow : (s.node (t, .low (lowOf va))).isSome <;> simp [hmid, hlow]

theorem uvmclear_spec (h : Inv lazy s H) (t : Fin n) (va : Nat) (s' : State n)
    (hs : uvmclear s t va = some s') :
    Inv lazy s' H ∧ Rest s s' ∧ view s' = Function.update (view s) (t, slotOf va)
      ((view s (t, slotOf va)).map (fun p => (p.1, false))) := by
  have hset : s' = s.setLeaf t (slotOf va)
      ((s.leaf (t, slotOf va)).map (fun e => { e with u := false })) := by
    unfold uvmclear at hs
    by_cases hva : va < MAXVA
    · rw [walk_false t va hva] at hs
      split at hs
      · rename_i i hw
        simp only [Option.some.injEq, Prod.mk.injEq, ite_eq_iff] at hw
        obtain ⟨-, ⟨-, rfl⟩ | ⟨-, hw⟩⟩ := hw
        · cases hs
          rfl
        · cases hw
      · cases hs
    · unfold walk at hs
      rw [if_pos (by omega)] at hs
      cases hs
  rw [hset]
  refine ⟨?_, Rest.setLeaf s t _ _, ?_⟩
  · cases he : s.leaf (t, slotOf va) with
    | none =>
      have hsame : s.setLeaf t (slotOf va) none = s := by simp [State.setLeaf, ← he]
      rw [Option.map_none, hsame]
      exact h
    | some e => exact h.changeLeaf he rfl (h.perms _ e he) id
  · rw [view_setLeaf]
    simp only [view, Option.map_map]
    rfl

end Clear

/-- cow_check finds a mapped page. -/
theorem cowCheck_leaf (h : Inv lazy s H) (t : Fin n) (va : Nat)
    (hc : cowCheck s t va = true) :
    va < MAXVA ∧ va < s.sz t ∧ ∃ e, s.leaf (t, slotOf va) = some e ∧ e.cow = true := by
  unfold cowCheck at hc
  by_cases hva : MAXVA ≤ va
  · rw [if_pos hva] at hc
    cases hc
  · rw [if_neg hva, findPTE_eq h.toShape t va (by omega)] at hc
    cases he : s.leaf (t, slotOf va) with
    | none =>
      rw [he] at hc
      cases hc
    | some e =>
      simp only [he, Bool.and_eq_true, decide_eq_true_eq] at hc
      exact ⟨by omega, hc.1, e, rfl, hc.2⟩

end Xv6Labs.Cow
