import Xv6Labs.CowSystem

/-! A kernel with either uvmcopy gives every process an address space of its own, and so the
copy-on-write fork cannot be told from the eager one. -/
namespace Xv6Labs.Cow

variable {n kend : Nat} {lazy : Bool} {s : State n}

section Accesses

theorem walkaddr_eq (h : Shape lazy s) (t : Fin n) (va : Nat) :
    walkaddr s t va = if MAXVA ≤ va then none
      else (s.leaf (t, slotOf va)).bind (fun e => if e.u then some e.pa else none) := by
  unfold walkaddr
  by_cases hva : MAXVA ≤ va
  · rw [if_pos hva, if_pos hva]
  · rw [if_neg hva, if_neg hva, findPTE_eq h t va (by omega)]
    cases s.leaf (t, slotOf va) <;> rfl

/-- The page that walkaddr finds is the one that the process sees. -/
theorem userPage_eq (h : Shape lazy s) (t : Fin n) (va : Nat) :
    userPage (view s) t va = (walkaddr s t va).map s.mem := by
  rw [walkaddr_eq h]
  unfold userPage
  by_cases hva : MAXVA ≤ va
  · rw [if_pos hva, if_pos hva]
    rfl
  · rw [if_neg hva, if_neg hva]
    unfold view
    cases s.leaf (t, slotOf va) with
    | none => rfl
    | some e => cases hu : e.u <;> simp [hu]

theorem copyinLoop_eq (h : Shape lazy s) (t : Fin n) (fuel srcva len : Nat) :
    copyinLoop s t fuel srcva len = viewIn (view s) t fuel srcva len := by
  induction fuel generalizing srcva len with
  | zero => rfl
  | succ fuel ih =>
    rw [copyinLoop, viewIn, userPage_eq h]
    cases walkaddr s t (PGROUNDDOWN srcva) with
    | none => rfl
    | some pa => simp [ih]

/-- A write to a page that one PTE alone maps. -/
theorem view_fill_own {H : List Nat} (h : Inv lazy s H) {k : Fin n × Slot} {e : PTE}
    (he : s.leaf k = some e) (hw : e.w = true) (page : Nat → UInt8) :
    view (s.fill e.pa page) = Function.update (view s) k (some (page, e.u)) := by
  funext j
  have hleaf : (s.fill e.pa page).leaf = s.leaf := rfl
  unfold view
  rw [hleaf]
  by_cases hjk : j = k
  · subst hjk
    rw [Function.update_self, he]
    simp [State.fill]
  · rw [Function.update_of_ne hjk]
    cases hx : s.leaf j with
    | none => rfl
    | some x =>
      have hne : x.pa ≠ e.pa := by
        intro hpa
        have htwo := leafPTEs_two (Ne.symm hjk) he hx hpa
        have hone := h.alone k e he hw
        unfold users at hone
        omega
      simp [State.fill, Function.update_of_ne hne]

theorem Ok.fill (h : Ok lazy kend s) (pa : Nat) (page : Nat → UInt8) :
    Ok lazy kend (s.fill pa page) := by
  apply h.same _ (h.inv.fill pa page) rfl rfl
  · intro k
    rw [view_ne_none, view_ne_none]
    rfl
  · exact fun t ht => ht

/-- A page that is not writable is written below the size of the process only. -/
def InSize (s : State n) (t : Fin n) (va : Nat) : Prop :=
  ∀ e ∈ s.leaf (t, slotOf va), e.w = false → va < s.sz t

instance (s : State n) (t : Fin n) (va : Nat) : Decidable (InSize s t va) :=
  inferInstanceAs (Decidable (∀ e ∈ s.leaf (t, slotOf va), e.w = false → va < s.sz t))

theorem translate_eq (h : Shape lazy s) (t : Fin n) (va : Nat) (perm : PTE → Bool) :
    translate s t va perm = if MAXVA ≤ va then none
      else (s.leaf (t, slotOf va)).bind (fun e => if e.u && perm e then some e.pa else none) := by
  unfold translate
  by_cases hva : MAXVA ≤ va
  · rw [if_pos hva, if_pos hva]
  · rw [if_neg hva, if_neg hva, findPTE_eq h t va (by omega)]
    cases s.leaf (t, slotOf va) <;> rfl

theorem cowCheck_eq (h : Shape lazy s) (t : Fin n) (va : Nat) :
    cowCheck s t va = if MAXVA ≤ va then false
      else ((s.leaf (t, slotOf va)).map (fun e => decide (va < s.sz t) && e.cow)).getD false := by
  unfold cowCheck
  by_cases hva : MAXVA ≤ va
  · rw [if_pos hva, if_pos hva]
  · rw [if_neg hva, if_neg hva, findPTE_eq h t va (by omega)]
    cases s.leaf (t, slotOf va) <;> rfl

/-- What an access by process `t` leads to: the page it uses, or its death. -/
def Accesses (s s' : State n) (t : Fin n) (va : Nat) (perm : PTE → Bool) (r : Option Nat) : Prop :=
  (∃ e, r = some e.pa ∧ s'.killed = s.killed ∧ s'.leaf (t, slotOf va) = some e ∧ e.u = true ∧
      perm e = true ∧ va < MAXVA) ∨
    (r = none ∧ s'.killed = Function.update s.killed t true ∧ userPage (view s) t va = none)

/-- An access that is not repaired: it goes through, or the process is killed. -/
theorem userAccess_plain (h : Ok lazy kend s) (t : Fin n) (va fuel : Nat) (perm : PTE → Bool)
    (hcow : (translate s t va perm).isNone → cowCheck s t va = false)
    (hfault : ∀ e, s.leaf (t, slotOf va) = some e → e.u = true → perm e = true) :
    ∃ s' r, userAccess t va perm (fuel+1) s = some (s', r) ∧ Ok lazy kend s' ∧ s'.sz = s.sz ∧
      s'.live = s.live ∧ view s' = view s ∧ s'.failed = s.failed ∧ Accesses s s' t va perm r := by
  have hu := userPage_eq h.inv.toShape t va
  rw [walkaddr_eq h.inv.toShape] at hu
  rw [userAccess]
  have ht := translate_eq h.inv.toShape t va perm
  cases htr : translate s t va perm with
  | some pa =>
    rw [htr] at ht
    split at ht
    · cases ht
    · obtain ⟨e, he, hpa⟩ := Option.bind_eq_some_iff.mp ht.symm
      split at hpa
      · rename_i hva hacc
        cases hpa
        rw [Bool.and_eq_true] at hacc
        exact ⟨s, some e.pa, rfl, h, rfl, rfl, rfl, rfl,
          Or.inl ⟨e, rfl, rfl, he, hacc.1, hacc.2, by omega⟩⟩
      · cases hpa
  | none =>
    rw [htr] at hcow
    simp only [hcow rfl]
    refine ⟨_, none, rfl, h.setKilled t true, rfl, rfl, rfl, rfl, Or.inr ⟨rfl, rfl, ?_⟩⟩
    rw [htr] at ht
    rw [hu]
    split at ht
    · rw [if_pos ‹_›]
      rfl
    · rw [if_neg ‹_›]
      cases he : s.leaf (t, slotOf va) with
      | none => rfl
      | some e =>
        rw [he] at ht
        by_cases heu : e.u = true
        · simp [heu, hfault e he heu] at ht
        · simp [heu]

/-- Every access: a first fault may be repaired by cow_alloc, a second one kills. -/
theorem userAccess_spec (h : Ok lazy kend s) (t : Fin n) (va : Nat) (perm : PTE → Bool)
    (hkill : s.killed t = false) (hown : ∀ e pa, e.r = true → perm (PTE.own e pa) = true)
    (hfault : ∀ e, s.leaf (t, slotOf va) = some e → e.u = true → perm e = false →
      e.cow = true ∧ va < s.sz t) :
    ∃ s' r, userAccess t va perm 2 s = some (s', r) ∧ Ok lazy kend s' ∧ s'.sz = s.sz ∧
      s'.live = s.live ∧ view s' = view s ∧
      (s'.failed = false → s.failed = false ∧ Accesses s s' t va perm r) := by
  by_cases hc : (translate s t va perm).isNone ∧ cowCheck s t va = true
  · obtain ⟨htr, hc⟩ := hc
    obtain ⟨hva, hsz, e, he, -⟩ := cowCheck_leaf h.inv t va hc
    obtain ⟨s₁, hs₁, hok, hsz₁, hlive₁, hview₁, hcase⟩ := cowAlloc_ok h t va hva e he
    rw [userAccess, Option.isNone_iff_eq_none.mp htr]
    simp only [hc, if_true, hs₁, Option.bind_some]
    rcases hcase with ⟨hk, hfail⟩ | ⟨hfailed, hkilled, pa, hleaf⟩
    · rw [if_pos hk]
      refine ⟨s₁, none, rfl, hok, hsz₁, hlive₁, hview₁, ?_⟩
      intro hf
      rw [hfail] at hf
      cases hf
    · have hk₁ : ¬s₁.killed t = true := by
        rw [hkilled, hkill]
        simp
      rw [if_neg hk₁]
      have hr := (h.inv.perms _ e he).1
      obtain ⟨s₂, r, hs₂, hok₂, hsz₂, hlive₂, hview₂, hf₂, hacc⟩ :=
        userAccess_plain hok t va 0 perm (by
          intro _
          rw [cowCheck_eq hok.inv.toShape, if_neg (by omega), hleaf]
          simp [PTE.own]) (by
          intro x hx _
          rw [hleaf] at hx
          cases hx
          exact hown e pa hr)
      refine ⟨s₂, r, hs₂, hok₂, hsz₂.trans hsz₁, hlive₂.trans hlive₁, hview₂.trans hview₁, ?_⟩
      intro hf
      rw [hf₂] at hf
      refine ⟨hfailed hf, ?_⟩
      unfold Accesses at hacc ⊢
      rwa [hkilled, hview₁] at hacc
  · obtain ⟨s₁, r, hs₁, hok₁, hsz₁, hlive₁, hview₁, hf₁, hacc⟩ :=
      userAccess_plain h t va 1 perm (by
        intro htr
        by_contra hne
        exact hc ⟨htr, by simpa using hne⟩) (by
        intro e he hu
        by_contra hp
        obtain ⟨hcow, hlt⟩ := hfault e he hu (by simpa using hp)
        apply hc
        rw [translate_eq h.inv.toShape, cowCheck_eq h.inv.toShape, he]
        have hva : va < MAXVA := by
          have h1 := h.le t
          unfold npages PGSIZE at h1
          unfold MAXVA
          omega
        rw [if_neg (by omega), if_neg (by omega)]
        simp [hp, hcow, hlt])
    refine ⟨s₁, r, hs₁, hok₁, hsz₁, hlive₁, hview₁, ?_⟩
    intro hf
    rw [hf₁] at hf
    exact ⟨hf, hacc⟩

end Accesses

section Copyout

/-- An address at the start of a page is below the size when the page is mapped. -/
theorem inSize_aligned (h : Ok lazy kend s) (t : Fin n) (p : Nat) (hp : p < 134217728) :
    InSize s t (p * PGSIZE) := by
  intro e he _
  rw [slotOf_page] at he
  have hm := (h.mapped t p hp).mp ((view_ne_none _).mpr (by rw [Option.mem_def.mp he]; simp))
  unfold npages at hm
  unfold PGSIZE at *
  omega

/-- A round of copyout makes sure of a page that the process may write. -/
theorem prepare_spec (h : Ok lazy kend s) (t : Fin n) (va : Nat) (hin : InSize s t va) :
    ∃ s₁, (if cowCheck s t va then cowAlloc s t va else some s) = some s₁ ∧ Ok lazy kend s₁ ∧
      s₁.sz = s.sz ∧ s₁.live = s.live ∧ view s₁ = view s ∧
      (s₁.failed = false → s.failed = false ∧ s₁.killed = s.killed ∧
        ∀ e, s₁.leaf (t, slotOf va) = some e → e.w = true) := by
  by_cases hc : cowCheck s t va = true
  · obtain ⟨hva, -, e, he, -⟩ := cowCheck_leaf h.inv t va hc
    obtain ⟨s₁, hs₁, hok, hsz, hlive, hview, hcase⟩ := cowAlloc_ok h t va hva e he
    refine ⟨s₁, by rw [if_pos hc, hs₁], hok, hsz, hlive, hview, ?_⟩
    intro hf
    rcases hcase with ⟨-, hfail⟩ | ⟨hfailed, hkilled, pa, hleaf⟩
    · rw [hfail] at hf
      cases hf
    · refine ⟨hfailed hf, hkilled, ?_⟩
      intro x hx
      rw [hleaf] at hx
      cases hx
      rfl
  · refine ⟨s, by rw [if_neg hc], h, rfl, rfl, rfl, fun hf => ⟨hf, rfl, ?_⟩⟩
    intro e he
    by_contra hw
    have hw' : e.w = false := by simpa using hw
    have hlt := hin e (Option.mem_def.mpr he) hw'
    apply hc
    rw [cowCheck_eq h.inv.toShape, if_neg (by have := lt_MAXVA_of_sz h t va hlt; omega), he]
    rcases (h.inv.perms _ e he).2 with hw'' | ⟨-, hcow⟩
    · rw [hw''] at hw'
      cases hw'
    · simp [hlt, hcow]

theorem copyoutLoop_spec (h : Ok lazy kend s) (t : Fin n) (fuel dstva : Nat) (src : List UInt8)
    (hin : InSize s t dstva) :
    ∃ s' b, copyoutLoop t fuel s dstva src = some (s', b) ∧ Ok lazy kend s' ∧ s'.sz = s.sz ∧
      s'.live = s.live ∧ (s'.failed = false → s.failed = false ∧ s'.killed = s.killed ∧
        viewOut t fuel (view s) dstva src = (view s', b)) := by
  induction fuel generalizing s dstva src with
  | zero => exact ⟨s, true, rfl, h, rfl, rfl, fun hf => ⟨hf, rfl, rfl⟩⟩
  | succ fuel ih =>
    rw [copyoutLoop, viewOut]
    by_cases hsrc : src.length = 0
    · rw [if_pos hsrc, if_pos hsrc]
      exact ⟨s, true, rfl, h, rfl, rfl, fun hf => ⟨hf, rfl, rfl⟩⟩
    · rw [if_neg hsrc, if_neg hsrc]
      obtain ⟨s₁, hs₁, hok₁, hsz₁, hlive₁, hview₁, hf₁⟩ := prepare_spec h t dstva hin
      rw [hs₁, Option.bind_some, ← hview₁, userPage_eq hok₁.inv.toShape]
      have hwalk := walkaddr_eq hok₁.inv.toShape t (PGROUNDDOWN dstva)
      cases hw : walkaddr s₁ t (PGROUNDDOWN dstva) with
      | none =>
        exact ⟨s₁, false, rfl, hok₁, hsz₁, hlive₁,
          fun hf => ⟨(hf₁ hf).1, (hf₁ hf).2.1, by rw [Option.map_none]⟩⟩
      | some pa =>
        rw [hw, slotOf_rounddown] at hwalk
        split at hwalk
        · cases hwalk
        · rename_i hva
          obtain ⟨e, he, hpa⟩ := Option.bind_eq_some_iff.mp hwalk.symm
          split at hpa
          · rename_i hu
            cases hpa
            simp only [Option.map_some]
            have hlt : dstva / PGSIZE + 1 < 134217728 := by
              unfold PGROUNDDOWN MAXVA PGSIZE at hva
              unfold PGSIZE
              omega
            have hnext : PGROUNDDOWN dstva + PGSIZE = (dstva / PGSIZE + 1) * PGSIZE :=
              (Nat.succ_mul _ _).symm
            have hok₂ := hok₁.fill e.pa (writeBytes (s₁.mem e.pa) (dstva - PGROUNDDOWN dstva)
              (src.take (chunk dstva src.length)))
            obtain ⟨s', b, hs', hok', hsz', hlive', hf'⟩ := ih hok₂ (PGROUNDDOWN dstva + PGSIZE)
              (src.drop (chunk dstva src.length))
              (by rw [hnext]; exact inSize_aligned hok₂ t _ hlt)
            refine ⟨s', b, hs', hok', hsz'.trans hsz₁, hlive'.trans hlive₁, ?_⟩
            intro hf
            obtain ⟨hf2, hkilled, hout⟩ := hf' hf
            obtain ⟨hf0, hkilled₁, hw₁⟩ := hf₁ hf2
            refine ⟨hf0, hkilled.trans hkilled₁, ?_⟩
            rw [← hout, view_fill_own hok₁.inv he (hw₁ e he), hu]
            rfl
          · cases hpa

end Copyout

end Xv6Labs.Cow
