import Xv6Labs.CowPages

/-! uvmalloc, the two uvmcopys, cow_alloc and uvmfree: each keeps the invariant, whether or
not a kalloc fails, and says what becomes of the memory that the processes see. -/
namespace Xv6Labs.Cow

variable {n : Nat} {lazy : Bool} {s : State n} {H : List Nat}

/-- The pages `[0, m)` of table `t` are mapped, and no others. -/
def Mapped (s : State n) (t : Fin n) (m : Nat) : Prop :=
  ∀ j, j < 134217728 → (view s (t, slot j) ≠ none ↔ j < m)

def zeroPage : (Nat → UInt8) × Bool := (fun _ => 0, true)

section Fresh

/-- Filling a page that only the running function has. -/
theorem view_fill_fresh {r : Nat} (hr : users s (r :: H) r = 1) (page : Nat → UInt8) :
    view (s.fill r page) = view s := by
  refine view_congr (H := H) (show (s.fill r page).leaf = s.leaf from rfl) ?_
  intro q hq
  apply Function.update_of_ne
  rintro rfl
  rw [users_cons_self] at hr
  omega

/-- kalloc, the page filled by the caller, and mappages. -/
theorem allocMap_spec (t : Fin n) (p : Nat) (page : Nat → UInt8) (e : PTE)
    (s₁ : State n) (hg : Grows lazy s H s₁ (e.pa :: H)) (hone : users s₁ (e.pa :: H) e.pa = 1)
    (hroot : s.node (t, .root) ≠ none) (hp : p < 67108864) (hfree : view s (t, slot p) = none)
    (hperm : e.Fits lazy) :
    ∃ s₂, Rest s s₂ ∧
      ((mappages (s₁.fill e.pa page) t (p * PGSIZE) PGSIZE e = some (s₂, true) ∧ Inv lazy s₂ H ∧
          view s₂ = Function.update (view s) (t, slot p) (some (page, e.u))) ∨
        (mappages (s₁.fill e.pa page) t (p * PGSIZE) PGSIZE e = some (s₂, false) ∧
          Inv lazy s₂ (e.pa :: H) ∧ view s₂ = view s ∧ s₂.failed = true)) := by
  have hround : PGROUNDDOWN (p * PGSIZE + PGSIZE - 1) = PGROUNDDOWN (p * PGSIZE) := by
    unfold PGROUNDDOWN PGSIZE
    omega
  have hroot₁ : (s₁.fill e.pa page).node (t, .root) ≠ none := by
    change s₁.node (t, .root) ≠ none
    rw [hg.rest.roots]
    exact hroot
  obtain ⟨s₂, hg₂, hmap⟩ := mappages_spec (hg.inv.fill e.pa page) t (p * PGSIZE) PGSIZE e hroot₁
    (lt_MAXVA hp) hround
  have hview : view s₂ = view s := by
    rw [hg₂.view, view_fill_fresh hone, hg.view]
  have hrest : Rest s s₂ := (hg.rest.trans (Rest.fill s₁ e.pa page)).trans hg₂.rest
  obtain ⟨huse₂, hmem₂⟩ := hg₂.keeps e.pa (by
    change 0 < users s₁ (e.pa :: H) e.pa
    omega)
  rcases hmap with ⟨hmap, hlow⟩ | ⟨hmap, hfail⟩
  · rw [slotOf_page] at hmap hlow
    refine ⟨_, hrest.trans (Rest.setLeaf s₂ t (slot p) (some e)), Or.inl ⟨hmap, ?_, ?_⟩⟩
    · apply hg₂.inv.putLeaf _ hlow hperm
      · intro _
        exact huse₂.trans hone
      · by_contra hne
        apply (view_ne_none _).mpr hne
        rw [hview, hfree]
    · rw [view_setLeaf, hview]
      simp only [Option.map_some, hmem₂]
      simp [State.fill]
  · exact ⟨s₂, hrest, Or.inr ⟨hmap, hg₂.inv, hview, hfail⟩⟩

end Fresh

section Alloc

/-- uvmdealloc back to the old size. -/
theorem undo_spec {V : View n} {f : Nat → (Nat → UInt8) × Bool}
    (h : Inv lazy s H) (t : Fin n) (lo m : Nat) (hle : lo + m ≤ 67108864)
    (hV : view s = setRange V t lo m (fun j => some (f j)))
    (hfree : ∀ j, lo ≤ j → j < 134217728 → V (t, slot j) = none) :
    ∃ s' z, uvmdealloc s t ((lo + m) * PGSIZE) (lo * PGSIZE) = some (s', z) ∧ Inv lazy s' H ∧
      Rest s s' ∧ view s' = V := by
  obtain ⟨s', hs', hinv, hrest, -, hview⟩ := uvmdealloc_spec h t ((lo + m) * PGSIZE) (lo * PGSIZE)
    (by rw [npages_mul]; exact hle) (by
      rw [npages_mul, npages_mul, hV]
      intro j h1 h2
      rw [setRange_slot _ _ _ _ _ _ (by omega), if_pos ⟨h1, h2⟩]
      simp)
  refine ⟨s', _, hs', hinv, hrest, ?_⟩
  rw [hview, npages_mul, npages_mul, Nat.add_sub_cancel_left, hV,
    setRange_undo V t lo m _ none hfree]

/-- A kalloc has failed and stays so recorded. -/
theorem Rest.failed_of {s₁ s₂ : State n} (h : Rest s₁ s₂) (hf : s₁.failed = true) :
    s₂.failed = true := by
  by_contra hne
  have hfalse := h.failed (by simpa using hne)
  rw [hf] at hfalse
  cases hfalse

/-- uvmalloc has mapped the pages `[lo, lo+m)` and goes on. -/
theorem uvmallocLoop_spec {V : View n} (h : Inv lazy s H)
    (t : Fin n) (lo k m : Nat) (hroot : s.node (t, .root) ≠ none) (hle : lo + m ≤ 67108864)
    (hV : view s = setRange V t lo m (fun _ => some zeroPage))
    (hfree : ∀ j, lo ≤ j → j < 134217728 → V (t, slot j) = none) :
    (∃ s' b, uvmallocLoop t (lo * PGSIZE) k s ((lo + m) * PGSIZE) = some (s', b) ∧ Inv lazy s' H ∧
        Rest s s' ∧
        (b = true → lo + m + k ≤ 67108864 ∧
          view s' = setRange V t lo (m + k) (fun _ => some zeroPage)) ∧
        (b = false → s'.failed = true ∧ view s' = V)) ∨
      (uvmallocLoop t (lo * PGSIZE) k s ((lo + m) * PGSIZE) = none ∧
        67108864 < lo + m + k) := by
  induction k generalizing s m with
  | zero =>
    refine Or.inl ⟨s, true, rfl, h, Rest.refl s, ?_, ?_⟩
    · intro _
      exact ⟨hle, hV⟩
    · intro hb
      cases hb
  | succ k ih =>
    rw [uvmallocLoop]
    rcases kalloc_spec h with hfail | ⟨s₁, r, halloc, hg, -, hone, -, -⟩
    · -- kalloc fails
      rw [hfail]
      obtain ⟨s', z, hs', hinv, hrest, hview⟩ := undo_spec h.fail.inv t lo m hle
        (by rw [h.fail.view, hV]) hfree
      exact Or.inl ⟨s', false, by simp only [hs', Option.map_some], hinv, h.fail.rest.trans hrest,
        fun hb => Bool.noConfusion hb, fun _ => ⟨hrest.failed_of rfl, hview⟩⟩
    · rw [halloc]
      simp only
      by_cases hpm : lo + m < 67108864
      · have hslot : view s (t, slot (lo + m)) = none := by
          rw [hV, setRange_slot _ _ _ _ _ _ (by omega), if_neg (by omega)]
          exact hfree _ (by omega) (by omega)
        obtain ⟨s₂, hrest, hmaps⟩ := allocMap_spec t (lo + m) (fun _ => 0) (userPTE r) s₁ hg
          hone hroot hpm hslot ⟨rfl, Or.inl rfl⟩
        rcases hmaps with ⟨hmaps, hinv, hview⟩ | ⟨hmaps, hinv, hview, hf⟩
        · -- the page is mapped: the rest of the loop
          have hmaps' : mappages (s₁.fill r (fun _ => 0)) t ((lo + m) * PGSIZE) PGSIZE
            (userPTE r) = some (s₂, true) := hmaps
          rw [hmaps']
          have hpage : (lo + m) * PGSIZE + PGSIZE = (lo + (m + 1)) * PGSIZE :=
            (Nat.succ_mul (lo + m) PGSIZE).symm
          simp only [hpage]
          have hrec := ih hinv (m + 1) (by rw [hrest.roots]; exact hroot) (by omega) (by
            rw [hview, hV, setRange_snoc V t lo m _ (by omega)]
            rfl)
          have hadd : m + 1 + k = m + (k + 1) := by omega
          rw [hadd] at hrec
          rcases hrec with ⟨s', b, hs', hinv', hrest', hyes, hno⟩ | ⟨hnone, hgt⟩
          · refine Or.inl ⟨s', b, hs', hinv', hrest.trans hrest', ?_, hno⟩
            intro hb
            exact ⟨by have := (hyes hb).1; omega, (hyes hb).2⟩
          · exact Or.inr ⟨hnone, by omega⟩
        · -- no page for the page table: the new page is given back
          have hmaps' : mappages (s₁.fill r (fun _ => 0)) t ((lo + m) * PGSIZE) PGSIZE
            (userPTE r) = some (s₂, false) := hmaps
          rw [hmaps']
          obtain ⟨s₃, hk, hinv₃, hrest₃, hleaf₃, -, hkeep₃⟩ := kfree_spec hinv
          have hk' : kfree s₂ r = some s₃ := hk
          have hview₃ : view s₃ = view s := by
            rw [view_congr hleaf₃ (fun q hq => (hkeep₃ q hq).2), hview]
          obtain ⟨s', z, hs', hinv', hrest', hview'⟩ := undo_spec hinv₃ t lo m hle
            (by rw [hview₃, hV]) hfree
          exact Or.inl ⟨s', false, by simp only [hk', hs', Option.bind_some, Option.map_some],
            hinv', (hrest.trans hrest₃).trans hrest', fun hb => Bool.noConfusion hb,
            fun _ => ⟨(hrest₃.trans hrest').failed_of hf, hview'⟩⟩
      · have hnone : mappages (s₁.fill r (fun _ => 0)) t ((lo + m) * PGSIZE) PGSIZE
            (userPTE r) = none := by
          apply mappages_none
          unfold MAXVA PGSIZE
          omega
        rw [hnone]
        exact Or.inr ⟨rfl, by omega⟩

end Alloc

section Copy

/-- Two PTEs that map one page. -/
theorem leafPTEs_two {k₁ k₂ : Fin n × Slot} {e₁ e₂ : PTE} (hk : k₁ ≠ k₂)
    (h₁ : s.leaf k₁ = some e₁) (h₂ : s.leaf k₂ = some e₂) (hpa : e₂.pa = e₁.pa) :
    2 ≤ leafPTEs s e₁.pa := by
  have h := count_add_count_le_tally (fun k => ((s.leaf k).map PTE.pa).toList) k₁ k₂ hk e₁.pa
  simp only [h₁, h₂, Option.map_some, Option.toList_some, hpa, List.count_singleton_self] at h
  exact h

theorem share_pa (e : PTE) : e.share.pa = e.pa := by
  unfold PTE.share
  split <;> rfl

theorem share_w (e : PTE) : e.share.w = false := by
  unfold PTE.share
  split
  · rfl
  · simpa using ‹¬e.w = true›

theorem share_u (e : PTE) : e.share.u = e.u := by
  unfold PTE.share
  split <;> rfl

theorem share_fits {e : PTE} (h : e.Fits lazy) : e.share.Fits true := by
  unfold PTE.share
  split
  · exact ⟨h.1, Or.inr ⟨rfl, rfl⟩⟩
  · rename_i hw
    exact ⟨h.1, h.2.imp id (fun hc => ⟨rfl, hc.2⟩)⟩

/-- The parent's page becomes copy-on-write; no byte changes. -/
theorem share_spec (h : Inv true s H) {t : Fin n} {i : Slot} {e : PTE}
    (he : s.leaf (t, i) = some e) :
    Inv true (s.setLeaf t i (some e.share)) H ∧ view (s.setLeaf t i (some e.share)) = view s := by
  refine ⟨h.changeLeaf he (share_pa e) (share_fits (h.perms _ e he)) ?_, ?_⟩
  · intro hw
    rw [share_w] at hw
    cases hw
  · rw [view_setLeaf]
    apply Function.update_eq_self_iff.mpr
    simp [view, he, share_pa, share_u]

/-- The slots `[0, m)` of `new` have been copied from `old`. -/
def copied (V : View n) (old new : Fin n) (m : Nat) :
    View n :=
  setRange V new 0 m (fun j => V (old, slot j))

/-- What a round of either uvmcopy starts from. -/
structure Copying (lazy : Bool) (s : State n) (H : List Nat) (V : View n)
    (old new : Fin n) (m k : Nat) : Prop where
  inv : Inv lazy s H
  root : s.node (new, .root) ≠ none
  le : m + k ≤ 67108864
  ne : old ≠ new
  seen : view s = copied V old new m
  empty : ∀ j, j < 134217728 → V (new, slot j) = none
  full : ∀ j, j < m + k → V (old, slot j) ≠ none

theorem Copying.leaf {V : View n} {old new : Fin n}
    {m k : Nat} (h : Copying lazy s H V old new m (k+1)) :
    ∃ e, s.leaf (old, slot m) = some e ∧ V (old, slot m) = some (s.mem e.pa, e.u) ∧
      findPTE s old (m * PGSIZE) = some (some e) ∧ view s (new, slot m) = none := by
  have hle := h.le
  have hold : view s (old, slot m) = V (old, slot m) := by
    rw [h.seen, copied, setRange_of_ne V new h.ne]
  obtain ⟨e, he⟩ := Option.ne_none_iff_exists'.mp
    ((view_ne_none _).mp (by rw [hold]; exact h.full m (by omega)))
  refine ⟨e, he, ?_, ?_, ?_⟩
  · rw [← hold]
    simp [view, he]
  · rw [findPTE_eq h.inv.toShape old _ (lt_MAXVA (by omega)), slotOf_page, he]
  · rw [h.seen, copied, setRange_slot _ _ _ _ _ _ (by omega), if_neg (by omega)]
    exact h.empty m (by omega)

/-- One more page has been copied, or the pages copied so far are given back. -/
theorem copied_succ (V : View n) (old new : Fin n) (m : Nat)
    (hm : m < 134217728) :
    copied V old new (m+1) =
      Function.update (copied V old new m) (new, slot m) (V (old, slot m)) := by
  have hs := setRange_snoc V new 0 m (fun j => V (old, slot j)) (by omega)
  rw [Nat.zero_add] at hs
  exact hs

theorem Copying.unwind {V : View n} {old new : Fin n}
    {m k : Nat} (h : Copying lazy s H V old new m k) :
    ∃ s', uvmunmap s new 0 (m * PGSIZE / PGSIZE) true = some s' ∧ Inv lazy s' H ∧ Rest s s' ∧
      view s' = V := by
  have hle := h.le
  rw [Nat.mul_div_cancel _ (by decide : 0 < PGSIZE)]
  obtain ⟨s', hs', hinv, hrest, -, hview⟩ := uvmunmap_spec h.inv new m 0 (by omega) (by
    intro j _ h2
    rw [h.seen, copied, setRange_slot _ _ _ _ _ _ (by omega), if_pos ⟨by omega, by omega⟩]
    exact h.full j (by omega))
  rw [Nat.zero_mul] at hs'
  refine ⟨s', hs', hinv, hrest, ?_⟩
  rw [hview, h.seen, copied, setRange_undo V new 0 m _ none (fun j _ hj => h.empty j hj)]

/-- What a uvmcopy from `old` to the empty table `new` has done when it returns. -/
def Copies (lazy : Bool) (s s' : State n) (H : List Nat) (V : View n)
    (old new : Fin n) (m : Nat) (b : Bool) : Prop :=
  Inv lazy s' H ∧ Rest s s' ∧ (b = true → view s' = copied V old new m) ∧
    (b = false → s'.failed = true ∧ view s' = V)

theorem uvmcopyLoop_spec {V : View n} (old new : Fin n)
    (k m : Nat) (h : Copying true s H V old new m k) :
    ∃ s' b, uvmcopyLoop old new k s (m * PGSIZE) = some (s', b) ∧
      Copies true s s' H V old new (m + k) b := by
  induction k generalizing s m with
  | zero =>
    exact ⟨s, true, rfl, h.inv, Rest.refl s, fun _ => h.seen, fun hb => Bool.noConfusion hb⟩
  | succ k ih =>
    -- page m of the parent is made read-only and the child gets the same PTE
    have hle := h.le
    obtain ⟨e, he, hV, hfind, hnone⟩ := h.leaf
    obtain ⟨hinv₁, hview₁⟩ := share_spec h.inv he
    rw [uvmcopyLoop, hfind]
    simp only [slotOf_page]
    obtain ⟨s₂, hg, hmap⟩ := mappages_spec hinv₁ new (m * PGSIZE) PGSIZE e.share h.root
      (lt_MAXVA (by omega)) (by unfold PGROUNDDOWN PGSIZE; omega)
    rw [slotOf_page] at hmap
    have hview₂ : view s₂ = copied V old new m := by rw [hg.view, hview₁, h.seen]
    have hrest₂ : Rest s s₂ := (Rest.setLeaf s old (slot m) (some e.share)).trans hg.rest
    have hleaf₂ : s₂.leaf (old, slot m) = some e.share := by
      rw [hg.leaf]
      exact setLeaf_self ..
    rcases hmap with ⟨hmap, hlow⟩ | ⟨hmap, hfail⟩
    · -- the child's PTE is set, and then the page gets its reference
      rw [hmap]
      have hused : 0 < users s₂ H e.pa := by
        have := users_pos_of_leaf (H := H) hleaf₂
        rwa [share_pa] at this
      have href : Inv true (krefpage s₂ e.pa) (e.pa :: H) := by
        apply hg.inv.addRef hused
        -- who had the page alone would be a second PTE of it
        intro j x hx hpa
        by_contra hw
        have hone := hg.inv.alone j x hx (by simpa using hw)
        have hne : j ≠ (old, slot m) := by
          rintro rfl
          rw [hleaf₂] at hx
          cases hx
          exact hw (share_w e)
        have htwo := leafPTEs_two hne hx hleaf₂ (by rw [share_pa, hpa])
        unfold users at hone
        omega
      rw [← share_pa e] at href
      have hput := href.putLeaf (t := new) (i := slot m) (by
        by_contra hne
        apply (view_ne_none (s := s₂) _).mpr hne
        rw [hview₂, ← h.seen, hnone]) hlow (share_fits (h.inv.perms _ e he)) (by
        intro hw
        rw [share_w] at hw
        cases hw)
      have hmem : s₂.mem e.pa = s.mem e.pa := by
        have hk := (hg.keeps e.share.pa (users_pos_of_leaf (setLeaf_self s old (slot m) _))).2
        rwa [share_pa] at hk
      have hpage : m * PGSIZE + PGSIZE = (m + 1) * PGSIZE := (Nat.succ_mul m PGSIZE).symm
      simp only [hpage]
      have hview₃ : view ((krefpage s₂ e.share.pa).setLeaf new (slot m) (some e.share)) =
          copied V old new (m+1) := by
        rw [view_setLeaf, copied_succ V old new m (by omega), hV]
        have hk : view (krefpage s₂ e.share.pa) = view s₂ := rfl
        rw [hk, hview₂]
        simp only [Option.map_some, share_pa, share_u]
        rw [← hmem]
        rfl
      have hrest₃ : Rest s ((krefpage s₂ e.share.pa).setLeaf new (slot m) (some e.share)) :=
        ⟨hrest₂.kend, hrest₂.sz, hrest₂.killed, hrest₂.held, hrest₂.roots, hrest₂.failed⟩
      obtain ⟨s', b, hs', hinv', hrest', hyes, hno⟩ := ih (m + 1)
        ⟨hput, by rw [hrest₃.roots]; exact h.root, by omega, h.ne, hview₃, h.empty,
          fun j hj => h.full j (by omega)⟩
      rw [share_pa] at hs'
      refine ⟨s', b, hs', hinv', hrest₃.trans hrest', ?_, hno⟩
      intro hb
      rw [hyes hb]
      congr 1
      omega
    · -- no page for the child's table: what has been mapped is unmapped
      rw [hmap]
      obtain ⟨s', hs', hinv', hrest', hview'⟩ := Copying.unwind (s := s₂) (k := k)
        ⟨hg.inv, by rw [hrest₂.roots]; exact h.root, by omega, h.ne, hview₂, h.empty,
          fun j hj => h.full j (by omega)⟩
      exact ⟨s', false, by simp only [hs', Option.map_some], hinv', hrest₂.trans hrest',
        fun hb => Bool.noConfusion hb, fun _ => ⟨hrest'.failed_of hfail, hview'⟩⟩

theorem uvmcopyEagerLoop_spec {V : View n} (old new : Fin n)
    (k m : Nat) (h : Copying lazy s H V old new m k) :
    ∃ s' b, uvmcopyEagerLoop old new k s (m * PGSIZE) = some (s', b) ∧
      Copies lazy s s' H V old new (m + k) b := by
  induction k generalizing s m with
  | zero =>
    exact ⟨s, true, rfl, h.inv, Rest.refl s, fun _ => h.seen, fun hb => Bool.noConfusion hb⟩
  | succ k ih =>
    have hle := h.le
    obtain ⟨e, he, hV, hfind, hnone⟩ := h.leaf
    have hback (s₁ : State n) (hinv : Inv lazy s₁ H) (hrest : Rest s s₁) (hview : view s₁ = view s)
        (hf : s₁.failed = true) : ∃ s' b, (uvmunmap s₁ new 0 (m * PGSIZE / PGSIZE) true).map
          (fun s => (s, false)) = some (s', b) ∧ Copies lazy s s' H V old new (m + (k+1)) b := by
      obtain ⟨s', hs', hinv', hrest', hview'⟩ := Copying.unwind (s := s₁) (m := m) (k := k)
        ⟨hinv, by rw [hrest.roots]; exact h.root, by omega, h.ne, by rw [hview, h.seen], h.empty,
          fun j hj => h.full j (by omega)⟩
      exact ⟨s', false, by simp only [hs', Option.map_some], hinv', hrest.trans hrest',
        fun hb => Bool.noConfusion hb, fun _ => ⟨hrest'.failed_of hf, hview'⟩⟩
    rw [uvmcopyEagerLoop, hfind]
    simp only
    rcases kalloc_spec h.inv with hfail | ⟨s₁, r, halloc, hg, hfresh, hone, -, -⟩
    · rw [hfail]
      exact hback _ h.inv.fail.inv h.inv.fail.rest h.inv.fail.view rfl
    · rw [halloc]
      simp only
      have hmem : s₁.mem e.pa = s.mem e.pa := (hg.keeps e.pa (users_pos_of_leaf he)).2
      obtain ⟨s₂, hrest, hmaps⟩ := allocMap_spec new m (s₁.mem e.pa) { e with pa := r } s₁ hg hone
        h.root (by omega) hnone (h.inv.perms _ e he)
      rcases hmaps with ⟨hmaps, hinv, hview⟩ | ⟨hmaps, hinv, hview, hf⟩
      · have hmaps' : mappages (s₁.fill r (s₁.mem e.pa)) new (m * PGSIZE) PGSIZE
          { e with pa := r } = some (s₂, true) := hmaps
        rw [hmaps']
        have hpage : m * PGSIZE + PGSIZE = (m + 1) * PGSIZE := (Nat.succ_mul m PGSIZE).symm
        simp only [hpage]
        obtain ⟨s', b, hs', hinv', hrest', hyes, hno⟩ := ih (m + 1)
          ⟨hinv, by rw [hrest.roots]; exact h.root, by omega, h.ne, by
            rw [hview, h.seen, copied_succ V old new m (by omega), hV, hmem], h.empty,
            fun j hj => h.full j (by omega)⟩
        refine ⟨s', b, hs', hinv', hrest.trans hrest', ?_, hno⟩
        intro hb
        rw [hyes hb]
        congr 1
        omega
      · have hmaps' : mappages (s₁.fill r (s₁.mem e.pa)) new (m * PGSIZE) PGSIZE
          { e with pa := r } = some (s₂, false) := hmaps
        rw [hmaps']
        obtain ⟨s₃, hk, hinv₃, hrest₃, hleaf₃, -, hkeep₃⟩ := kfree_spec hinv
        have hk' : kfree s₂ r = some s₃ := hk
        simp only [hk', Option.bind_some]
        apply hback s₃ hinv₃ (hrest.trans hrest₃) _ (hrest₃.failed_of hf)
        rw [view_congr hleaf₃ (fun q hq => (hkeep₃ q hq).2), hview]

end Copy

end Xv6Labs.Cow
