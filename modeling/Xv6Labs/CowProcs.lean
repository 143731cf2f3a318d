import Xv6Labs.CowFree
import Xv6Labs.CowWrites

/-! The page tables of processes between two calls: growproc, fork's copy and freeproc use
the functions of vm.c with the size of the process, and keep its pages mapped. -/
namespace Xv6Labs.Cow

variable {n kend : Nat} {lazy : Bool} {s : State n}

def State.setSz (s : State n) (t : Fin n) (sz : Nat) : State n :=
  { s with sz := Function.update s.sz t sz }

def State.live (s : State n) (t : Fin n) : Bool := (s.node (t, .root)).isSome

def State.setKilled (s : State n) (t : Fin n) (b : Bool) : State n :=
  { s with killed := Function.update s.killed t b }

/-- growproc with a larger size: uvmalloc, and the new size unless it returns 0. -/
def growTo (s : State n) (t : Fin n) (newsz : Nat) : Option (State n) :=
  (uvmalloc s t (s.sz t) newsz).map (fun r => if r.2 = 0 then r.1 else r.1.setSz t r.2)

/-- growproc with a smaller size. -/
def shrinkTo (s : State n) (t : Fin n) (newsz : Nat) : Option (State n) :=
  (uvmdealloc s t (s.sz t) newsz).map (fun r => r.1.setSz t r.2)

/-- fork's call of a uvmcopy, with `np->sz = p->sz` when it succeeds. -/
def copyTo (copy : State n → Fin n → Fin n → Nat → Option (State n × Bool)) (s : State n)
    (old new : Fin n) : Option (State n × Bool) :=
  (copy s old new (s.sz old)).map (fun r =>
    (if r.2 then r.1.setSz new (s.sz old) else r.1, r.2))

/-- freeproc: the table is freed and the slot is unused again. -/
def freeTable (s : State n) (t : Fin n) : Option (State n) :=
  (uvmfree s t (s.sz t)).map (fun s => s.setSz t 0)

/-- What holds between two calls: a process has mapped the pages below its size. -/
structure Ok (lazy : Bool) (kend : Nat) (s : State n) : Prop where
  inv : Inv lazy s []
  kend_eq : s.kend = kend
  mapped : ∀ t, Mapped s t (npages (s.sz t))
  le : ∀ t, npages (s.sz t) ≤ 67108864
  unused : ∀ t, s.node (t, .root) = none → s.sz t = 0

section Sizes

theorem Inv.setSz {H : List Nat} (h : Inv lazy s H) (t : Fin n) (sz : Nat) :
    Inv lazy (s.setSz t sz) H :=
  ⟨⟨h.slots, h.parents, h.perms⟩, h.kend, h.counted, h.other, h.alone⟩

theorem pagesTo_eq (oldsz newsz : Nat) (h : oldsz ≤ newsz) :
    pagesTo (PGROUNDUP oldsz) newsz = npages newsz - npages oldsz := by
  unfold pagesTo PGROUNDUP npages PGSIZE
  omega

theorem npages_mono {a b : Nat} (h : a ≤ b) : npages a ≤ npages b := by
  unfold npages PGSIZE
  omega

theorem npages_zero : npages 0 = 0 := by
  unfold npages PGSIZE
  omega

/-- One table gets a new size and the pages for it, the others keep theirs. -/
theorem Ok.resize (h : Ok lazy kend s) (s' : State n) (t : Fin n) (sz : Nat) (hinv : Inv lazy s' [])
    (hkend : s'.kend = s.kend)
    (hsz : s'.sz = Function.update s.sz t sz) (hle : npages sz ≤ 67108864)
    (hother : ∀ t' i, t' ≠ t → view s' (t', i) = view s (t', i)) (hmap : Mapped s' t (npages sz))
    (hroots : ∀ t', t' ≠ t → s'.node (t', .root) = s.node (t', .root))
    (hroot : s'.node (t, .root) = none → sz = 0) : Ok lazy kend s' := by
  refine ⟨hinv, hkend.trans h.kend_eq, ?_, ?_, ?_⟩
  · intro t'
    rw [hsz]
    by_cases ht : t' = t
    · rw [ht, Function.update_self]
      exact hmap
    · rw [Function.update_of_ne ht]
      intro j hj
      rw [hother t' _ ht]
      exact h.mapped t' j hj
  · intro t'
    rw [hsz]
    by_cases ht : t' = t
    · rw [ht, Function.update_self]
      exact hle
    · rw [Function.update_of_ne ht]
      exact h.le t'
  · intro t'
    rw [hsz]
    by_cases ht : t' = t
    · rw [ht, Function.update_self]
      exact hroot
    · rw [Function.update_of_ne ht, hroots t' ht]
      exact h.unused t'

/-- A call that changes neither sizes nor what is mapped. -/
theorem Ok.same (h : Ok lazy kend s) (s' : State n) (hinv : Inv lazy s' [])
    (hkend : s'.kend = s.kend)
    (hsz : s'.sz = s.sz)
    (hmap : ∀ k, view s' k ≠ none ↔ view s k ≠ none)
    (hroots : ∀ t, s'.node (t, .root) = none → s.node (t, .root) = none) : Ok lazy kend s' := by
  refine ⟨hinv, hkend.trans h.kend_eq, ?_, ?_, ?_⟩
  · intro t j hj
    rw [hsz, hmap]
    exact h.mapped t j hj
  · rw [hsz]
    exact h.le
  · intro t ht
    rw [hsz]
    exact h.unused t (hroots t ht)

theorem Ok.empty_from (h : Ok lazy kend s) (t : Fin n) (j : Nat) (hj : npages (s.sz t) ≤ j)
    (hlt : j < 134217728) : view s (t, slot j) = none := by
  by_contra hne
  have := (h.mapped t j hlt).mp hne
  omega

end Sizes

section Calls

theorem growTo_spec (h : Ok lazy kend s) (t : Fin n) (newsz : Nat)
    (hroot : s.node (t, .root) ≠ none) :
    (∃ s', growTo s t newsz = some s' ∧ Ok lazy kend s' ∧ s'.killed = s.killed ∧
        (∀ t', s'.node (t', .root) = s.node (t', .root)) ∧
        (s'.failed = false → s.failed = false ∧ npages newsz ≤ 67108864 ∧
          s'.sz = Function.update s.sz t (max (s.sz t) newsz) ∧
          view s' = setRange (view s) t (npages (s.sz t)) (npages newsz - npages (s.sz t))
            (fun _ => some zeroPage))) ∨
      (growTo s t newsz = none ∧ 67108864 < npages newsz) := by
  have hle := h.le t
  unfold growTo uvmalloc
  by_cases hlt : newsz < s.sz t
  · -- uvmalloc returns the old size
    have hmono := npages_mono (Nat.le_of_lt hlt)
    have hsame : (if s.sz t = 0 then s else s.setSz t (s.sz t)) = s := by
      split
      · rfl
      · simp [State.setSz]
    refine Or.inl ⟨s, ?_, h, rfl, fun _ => rfl, fun hf => ⟨hf, by omega, ?_, ?_⟩⟩
    · simp only [if_pos hlt, Option.map_some, hsame]
    · rw [max_eq_left (Nat.le_of_lt hlt), Function.update_eq_self]
    · rw [Nat.sub_eq_zero_of_le hmono, setRange_zero]
  · rw [if_neg hlt, pagesTo_eq _ _ (by omega), PGROUNDUP_eq]
    have hspec := uvmallocLoop_spec (V := view s) h.inv t (npages (s.sz t))
      (npages newsz - npages (s.sz t)) 0 hroot hle (setRange_zero ..).symm
      (fun j h1 h2 => h.empty_from t j h1 h2)
    rw [Nat.add_zero, Nat.zero_add] at hspec
    have hmono := npages_mono (by omega : s.sz t ≤ newsz)
    rcases hspec with ⟨s₁, b, hs₁, hinv, hrest, hyes, hno⟩ | ⟨hnone, hgt⟩
    · simp only [hs₁, Option.map_some]
      cases b with
      | false =>
        obtain ⟨hfail, hview⟩ := hno rfl
        refine Or.inl ⟨s₁, by simp, ?_, hrest.killed, hrest.roots, ?_⟩
        · apply h.same s₁ hinv hrest.kend hrest.sz
          · intro k
            rw [hview]
          · intro t' ht'
            rwa [hrest.roots] at ht'
        · intro hf
          rw [hfail] at hf
          cases hf
      | true =>
        obtain ⟨hin, hview⟩ := hyes rfl
        -- a new size of 0 is the old size
        have hset : (if (if true = true then newsz else 0) = 0 then s₁
            else s₁.setSz t (if true = true then newsz else 0)) = s₁.setSz t newsz := by
          simp only [if_true]
          split
          · rename_i hz
            have hz' : s₁.sz t = newsz := by
              rw [hrest.sz]
              omega
            simp [State.setSz, ← hz']
          · rfl
        have hsz : (s₁.setSz t newsz).sz = Function.update s.sz t newsz := by
          simp [State.setSz, hrest.sz]
        refine Or.inl ⟨s₁.setSz t newsz, by rw [hset], ?_, hrest.killed, hrest.roots,
          fun hf => ⟨hrest.failed hf, by omega, ?_, hview⟩⟩
        · apply h.resize _ t newsz (hinv.setSz t newsz) hrest.kend hsz (by omega)
          · intro t' i ht'
            change view s₁ (t', i) = _
            rw [hview, setRange_of_ne _ _ ht']
          · intro j hj
            change view s₁ (t, slot j) ≠ none ↔ _
            rw [hview, setRange_slot _ _ _ _ _ _ hj]
            have hold := h.mapped t j hj
            split
            · simp only [ne_eq, reduceCtorEq, not_false_eq_true, true_iff]
              omega
            · rw [hold]
              omega
          · intro t' _
            exact hrest.roots t'
          · intro hn
            exact absurd ((hrest.roots t).symm.trans hn) hroot
        · rw [hsz, max_eq_right (by omega)]
    · refine Or.inr ⟨by rw [hnone]; rfl, by omega⟩

theorem shrinkTo_spec (h : Ok lazy kend s) (t : Fin n) (newsz : Nat)
    (hroot : s.node (t, .root) ≠ none) :
    ∃ s', shrinkTo s t newsz = some s' ∧ Ok lazy kend s' ∧ s'.killed = s.killed ∧
      (∀ t', s'.node (t', .root) = s.node (t', .root)) ∧
      (s'.failed = false → s.failed = false) ∧
      s'.sz = Function.update s.sz t (min (s.sz t) newsz) ∧
      view s' = setRange (view s) t (npages newsz) (npages (s.sz t) - npages newsz)
        (fun _ => none) := by
  have hle := h.le t
  obtain ⟨s₁, hs₁, hinv, hrest, -, hview⟩ := uvmdealloc_spec h.inv t (s.sz t) newsz hle
    (fun j _ h2 => (h.mapped t j (by omega)).mpr h2)
  have hsz : (s₁.setSz t (min (s.sz t) newsz)).sz =
      Function.update s.sz t (min (s.sz t) newsz) := by
    simp [State.setSz, hrest.sz]
  have hmin : npages (min (s.sz t) newsz) = min (npages (s.sz t)) (npages newsz) := by
    rcases Nat.le_total (s.sz t) newsz with hc | hc
    · rw [min_eq_left hc, min_eq_left (npages_mono hc)]
    · rw [min_eq_right hc, min_eq_right (npages_mono hc)]
  refine ⟨s₁.setSz t (min (s.sz t) newsz), ?_, ?_, hrest.killed, hrest.roots, hrest.failed, hsz,
    hview⟩
  · simp only [shrinkTo, hs₁, Option.map_some]
  · apply h.resize _ t _ (hinv.setSz t _) hrest.kend hsz (by omega)
    · intro t' i ht'
      change view s₁ (t', i) = _
      rw [hview, setRange_of_ne _ _ ht']
    · intro j hj
      change view s₁ (t, slot j) ≠ none ↔ _
      rw [hview, setRange_slot _ _ _ _ _ _ hj, hmin]
      have hold := h.mapped t j hj
      split
      · simp only [ne_eq, not_true_eq_false, false_iff]
        omega
      · rw [hold]
        omega
    · intro t' _
      exact hrest.roots t'
    · intro hn
      exact absurd ((hrest.roots t).symm.trans hn) hroot

/-- What a uvmcopy must do for fork. -/
def CopySpec (lazy : Bool) (copy : State n → Fin n → Fin n → Nat → Option (State n × Bool)) :
    Prop :=
  ∀ (s : State n) (H : List Nat) (V : View n)
    (old new : Fin n) (sz : Nat), Copying lazy s H V old new 0 (npages sz) →
    ∃ s' b, copy s old new sz = some (s', b) ∧ Copies lazy s s' H V old new (npages sz) b

theorem uvmcopy_copySpec : CopySpec true (uvmcopy (n := n)) := by
  intro s H V old new sz h
  obtain ⟨s', b, hs', hc⟩ := uvmcopyLoop_spec old new (npages sz) 0 h
  rw [Nat.zero_mul] at hs'
  rw [Nat.zero_add] at hc
  exact ⟨s', b, hs', hc⟩

theorem uvmcopyEager_copySpec : CopySpec lazy (uvmcopyEager (n := n)) := by
  intro s H V old new sz h
  obtain ⟨s', b, hs', hc⟩ := uvmcopyEagerLoop_spec old new (npages sz) 0 h
  rw [Nat.zero_mul] at hs'
  rw [Nat.zero_add] at hc
  exact ⟨s', b, hs', hc⟩

theorem copyTo_spec {copy : State n → Fin n → Fin n → Nat → Option (State n × Bool)}
    (hcopy : CopySpec lazy copy) (h : Ok lazy kend s) (old new : Fin n) (hne : old ≠ new)
    (hroot : s.node (new, .root) ≠ none) (hsz : s.sz new = 0) :
    ∃ s' b, copyTo copy s old new = some (s', b) ∧ Ok lazy kend s' ∧ s'.killed = s.killed ∧
      (∀ t', s'.node (t', .root) = s.node (t', .root)) ∧
      (s'.failed = false → s.failed = false) ∧
      (b = true → s'.sz = Function.update s.sz new (s.sz old) ∧
        view s' = copied (view s) old new (npages (s.sz old))) ∧
      (b = false → s'.failed = true ∧ s'.sz = s.sz) := by
  have hle := h.le old
  have hempty (j : Nat) (hj : j < 134217728) : view s (new, slot j) = none := by
    apply h.empty_from new j _ hj
    rw [hsz, npages_zero]
    omega
  obtain ⟨s₁, b, hs₁, hinv, hrest, hyes, hno⟩ := hcopy s [] (view s) old new (s.sz old)
    ⟨h.inv, hroot, by omega, hne, (setRange_zero ..).symm, hempty,
      fun j hj => (h.mapped old j (by omega)).mpr (by omega)⟩
  cases b with
  | false =>
    obtain ⟨hfail, hview⟩ := hno rfl
    refine ⟨s₁, false, by simp [copyTo, hs₁], ?_, hrest.killed, hrest.roots, hrest.failed,
      fun hb => Bool.noConfusion hb, fun _ => ⟨hfail, hrest.sz⟩⟩
    apply h.same s₁ hinv hrest.kend hrest.sz
    · intro k
      rw [hview]
    · intro t' ht'
      rwa [hrest.roots] at ht'
  | true =>
    have hview := hyes rfl
    have hsz' : (s₁.setSz new (s.sz old)).sz = Function.update s.sz new (s.sz old) := by
      simp [State.setSz, hrest.sz]
    refine ⟨s₁.setSz new (s.sz old), true, by simp [copyTo, hs₁], ?_, hrest.killed, hrest.roots,
      hrest.failed, fun _ => ⟨hsz', hview⟩, fun hb => Bool.noConfusion hb⟩
    apply h.resize _ new _ (hinv.setSz new _) hrest.kend hsz' hle
    · intro t' i ht'
      change view s₁ (t', i) = _
      rw [hview, copied, setRange_of_ne _ _ ht']
    · intro j hj
      change view s₁ (new, slot j) ≠ none ↔ _
      rw [hview, copied, setRange_slot _ _ _ _ _ _ hj]
      split
      · rw [h.mapped old j hj]
      · rw [hempty j hj]
        simp only [ne_eq, not_true_eq_false, false_iff]
        omega
    · intro t' _
      exact hrest.roots t'
    · intro hn
      exact absurd ((hrest.roots new).symm.trans hn) hroot

/-- uvmcreate between two calls. -/
theorem create_ok (h : Ok lazy kend s) (t : Fin n) (hnone : s.node (t, .root) = none) :
    ∃ s' b, uvmcreate s t = (s', b) ∧ Ok lazy kend s' ∧ s'.sz = s.sz ∧ s'.killed = s.killed ∧
      view s' = view s ∧ (∀ t', t' ≠ t → s'.node (t', .root) = s.node (t', .root)) ∧
      (s'.failed = false → s.failed = false) ∧ (b = true → s'.node (t, .root) ≠ none) ∧
      (b = false → s'.failed = true) := by
  obtain ⟨s₁, b, hs₁, hinv, hview, hkend, hsz, hkilled, -, hroots, hf, hyes, hno⟩ :=
    uvmcreate_spec h.inv t hnone
  refine ⟨s₁, b, hs₁, ?_, hsz, hkilled, hview, hroots, hf, hyes, fun hb => (hno hb).1⟩
  apply h.same _ hinv hkend hsz
  · intro k
    rw [hview]
  · intro t' ht'
    by_cases htt : t' = t
    · rw [htt, hnone]
    · rwa [hroots t' htt] at ht'

theorem Ok.setKilled (h : Ok lazy kend s) (t : Fin n) (b : Bool) :
    Ok lazy kend (s.setKilled t b) := by
  have hi := h.inv
  exact ⟨⟨⟨hi.slots, hi.parents, hi.perms⟩, hi.kend, hi.counted, hi.other, hi.alone⟩, h.kend_eq,
    h.mapped, h.le, h.unused⟩

/-- cow_alloc between two calls. -/
theorem cowAlloc_ok (h : Ok lazy kend s) (t : Fin n) (va : Nat) (hva : va < MAXVA) (e : PTE)
    (he : s.leaf (t, slotOf va) = some e) :
    ∃ s', cowAlloc s t va = some s' ∧ Ok lazy kend s' ∧ s'.sz = s.sz ∧ s'.live = s.live ∧
      view s' = view s ∧ ((s'.killed t = true ∧ s'.failed = true) ∨
        ((s'.failed = false → s.failed = false) ∧ s'.killed = s.killed ∧
          ∃ pa, s'.leaf (t, slotOf va) = some (e.own pa))) := by
  obtain ⟨s₁, hinv, hview, hcase⟩ := cowAlloc_spec h.inv t va hva e he
  have hrest : Rest s s₁ := by
    rcases hcase with ⟨-, hrest, -⟩ | ⟨-, hrest, -⟩ <;> exact hrest
  have hlive : s₁.live = s.live := by
    funext t'
    unfold State.live
    rw [hrest.roots]
  have hok : Ok lazy kend s₁ := by
    refine h.same _ hinv hrest.kend hrest.sz (fun k => by rw [hview]) ?_
    intro t' ht'
    rwa [hrest.roots] at ht'
  rcases hcase with ⟨hs₁, -, pa, hleaf⟩ | ⟨hs₁, -, hfail⟩
  · refine ⟨s₁, hs₁, hok, hrest.sz, hlive, hview, Or.inr ⟨hrest.failed, hrest.killed, pa, ?_⟩⟩
    rw [hleaf, Function.update_self]
  · exact ⟨_, hs₁, hok.setKilled t true, hrest.sz, hlive, hview,
      Or.inl ⟨Function.update_self .., hfail⟩⟩

theorem lt_MAXVA_of_sz (h : Ok lazy kend s) (t : Fin n) (va : Nat) (hva : va < s.sz t) :
    va < MAXVA := by
  have h1 := h.le t
  unfold npages PGSIZE at h1
  unfold MAXVA
  omega

/-- exec's uvmclear of a page of the process. -/
theorem uvmclear_some (h : Ok lazy kend s) (t : Fin n) (va : Nat) (hva : va < s.sz t) :
    ∃ s', uvmclear s t va = some s' := by
  have hmax := lt_MAXVA_of_sz h t va hva
  have hpage : va / PGSIZE < 134217728 := by
    unfold MAXVA at hmax
    unfold PGSIZE
    omega
  have hm : view s (t, slot (va / PGSIZE)) ≠ none := by
    apply (h.mapped t (va / PGSIZE) hpage).mpr
    unfold npages PGSIZE
    omega
  have hlow := h.inv.slots t (slotOf va) ((view_ne_none _).mp hm)
  rw [lowOfSlot_slotOf] at hlow
  have hmid := h.inv.parents t _ _ (low_parent va) hlow
  unfold uvmclear
  rw [walk_false t va hmax, if_pos ⟨Option.isSome_iff_ne_none.mpr hmid,
    Option.isSome_iff_ne_none.mpr hlow⟩]
  exact ⟨_, rfl⟩

theorem uvmclear_ok (h : Ok lazy kend s) (t : Fin n) (va : Nat) (s' : State n)
    (hs : uvmclear s t va = some s') : Ok lazy kend s' := by
  obtain ⟨hinv, hrest, hview⟩ := uvmclear_spec h.inv t va s' hs
  apply h.same _ hinv hrest.kend hrest.sz
  · intro k
    rw [hview]
    by_cases hk : k = (t, slotOf va)
    · rw [hk, Function.update_self]
      simp
    · rw [Function.update_of_ne hk]
  · intro t' ht'
    rwa [hrest.roots] at ht'

theorem freeTable_spec (h : Ok lazy kend s) (t : Fin n) :
    ∃ s', freeTable s t = some s' ∧ Ok lazy kend s' ∧ s'.killed = s.killed ∧
      (s'.failed = false → s.failed = false) ∧ s'.node (t, .root) = none ∧
      (∀ t', t' ≠ t → s'.node (t', .root) = s.node (t', .root)) ∧
      s'.sz = Function.update s.sz t 0 ∧
      view s' = setRange (view s) t 0 (npages (s.sz t)) (fun _ => none) := by
  obtain ⟨s₁, hs₁, hinv, hkend₁, hsz₁, hkilled, -, hfailed, hview, hgone, hkept⟩ :=
    uvmfree_spec h.inv t (s.sz t) (h.le t) (h.mapped t)
  have hsz : (s₁.setSz t 0).sz = Function.update s.sz t 0 := by simp [State.setSz, hsz₁]
  refine ⟨s₁.setSz t 0, by simp [freeTable, hs₁], ?_, hkilled, hfailed, hgone _,
    fun t' ht' => hkept t' ht' _, hsz, hview⟩
  apply h.resize _ t 0 (hinv.setSz t 0) hkend₁ hsz (by rw [npages_zero]; omega)
  · intro t' i ht'
    change view s₁ (t', i) = _
    rw [hview, setRange_of_ne _ _ ht']
  · intro j hj
    change view s₁ (t, slot j) ≠ none ↔ _
    rw [hview, setRange_slot _ _ _ _ _ _ hj, npages_zero]
    have hold := h.mapped t j hj
    split
    · simp
    · rw [hold]
      omega
  · intro t' ht'
    exact hkept t' ht' _
  · intro _
    rfl

end Calls

end Xv6Labs.Cow
