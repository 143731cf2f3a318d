import Xv6Labs.CowRefine
import Xv6Labs.CowCounts

/-! The copy-on-write fork against the eager fork: every operation of either kernel is the
operation on private address spaces, as long as no kalloc fails and no process writes past
its size on a copy-on-write page. -/
namespace Xv6Labs.Cow

variable {n kend : Nat} {lazy : Bool} {s : State n}

/-- The result of a kernel operation is the one on the address spaces, unless a kalloc has
failed. -/
def Refines (lazy : Bool) (kend : Nat) (s : State n) (r : Option (State n × Obs))
    (a : Option (Spaces n × Obs)) : Prop :=
  (∃ s' o, r = some (s', o) ∧ Ok lazy kend s' ∧
    (s'.failed = false → s.failed = false ∧ a = some (spaces s', o))) ∨ (r = none ∧ a = none)

/-- A store, or a copyout of at least one byte, at an address of a copy-on-write page is
below the size of the process. -/
def OpInSize (s : State n) : Op n → Prop
  | .store t va _ => InSize s t va
  | .copyout t dstva src => src ≠ [] → InSize s t dstva
  | _ => True

instance (s : State n) (op : Op n) : Decidable (OpInSize s op) := by
  cases op <;> unfold OpInSize <;> infer_instance

section Steps

theorem live_eq {s' : State n} (h : ∀ t, s'.node (t, .root) = s.node (t, .root)) :
    s'.live = s.live := by
  funext t
  unfold State.live
  rw [h t]

theorem refines_running (t : Fin n) {r : Option (State n × Obs)} {a : Option (Spaces n × Obs)}
    (h : (s.live t && !s.killed t) = true → Refines lazy kend s r a) :
    Refines lazy kend s (if s.live t && !s.killed t then r else none)
      (if (spaces s).live t && !(spaces s).killed t then a else none) := by
  by_cases hrun : (s.live t && !s.killed t) = true
  · have hrun' : ((spaces s).live t && !(spaces s).killed t) = true := hrun
    rw [if_pos hrun, if_pos hrun']
    exact h hrun
  · have hrun' : ¬((spaces s).live t && !(spaces s).killed t) = true := hrun
    rw [if_neg hrun, if_neg hrun']
    exact Or.inr ⟨rfl, rfl⟩

theorem root_of_live {t : Fin n} (h : s.live t = true) : s.node (t, .root) ≠ none := by
  unfold State.live at h
  exact Option.isSome_iff_ne_none.mp h

theorem create_live {s' : State n} {t : Fin n}
    (hroots : ∀ t', t' ≠ t → s'.node (t', .root) = s.node (t', .root))
    (hroot : s'.node (t, .root) ≠ none) : s'.live = Function.update s.live t true := by
  funext t'
  unfold State.live
  by_cases ht : t' = t
  · rw [ht, Function.update_self]
    exact Option.isSome_iff_ne_none.mpr hroot
  · rw [Function.update_of_ne ht, hroots t' ht]

theorem create_refines (h : Ok lazy kend s) (t : Fin n)
    (copy : State n → Fin n → Fin n → Nat → Option (State n × Bool)) :
    Refines lazy kend s (step copy s (.create t)) ((spaces s).step (.create t)) := by
  simp only [step, Spaces.step]
  by_cases hl : s.live t = true
  · have hl' : (spaces s).live t = true := hl
    rw [if_pos hl, if_pos hl']
    exact Or.inr ⟨rfl, rfl⟩
  · have hl' : ¬(spaces s).live t = true := hl
    rw [if_neg hl, if_neg hl']
    have hnone : s.node (t, .root) = none := by
      unfold State.live at hl
      simpa using hl
    obtain ⟨s₁, b, hs₁, hok, hsz, hkilled, hview, hroots, hf, hyes, hno⟩ := create_ok h t hnone
    rw [hs₁]
    refine Or.inl ⟨s₁, .result b, rfl, hok, fun hf₁ => ⟨hf hf₁, ?_⟩⟩
    cases b with
    | false =>
      rw [hno rfl] at hf₁
      cases hf₁
    | true =>
      have hlive : s₁.live = Function.update s.live t true := create_live hroots (hyes rfl)
      simp only [spaces, hlive, hsz, hkilled, hview]

theorem fork_refines {copy : State n → Fin n → Fin n → Nat → Option (State n × Bool)}
    (hcopy : CopySpec lazy copy) (h : Ok lazy kend s) (p q : Fin n) :
    Refines lazy kend s (step copy s (.fork p q)) ((spaces s).step (.fork p q)) := by
  simp only [step, Spaces.step]
  apply refines_running p
  intro hrun
  by_cases hl : s.live q = true
  · have hl' : (spaces s).live q = true := hl
    rw [if_pos hl, if_pos hl']
    exact Or.inr ⟨rfl, rfl⟩
  · have hl' : ¬(spaces s).live q = true := hl
    rw [if_neg hl, if_neg hl']
    have hnone : s.node (q, .root) = none := by
      unfold State.live at hl
      simpa using hl
    have hne : p ≠ q := by
      rintro rfl
      rw [Bool.and_eq_true] at hrun
      exact hl hrun.1
    obtain ⟨s₁, b, hs₁, hok, hsz, hkilled, hview, hroots, hf, hyes, hno⟩ := create_ok h q hnone
    unfold fork
    simp only [hs₁]
    cases b with
    | false =>
      refine Or.inl ⟨s₁, .result false, rfl, hok, ?_⟩
      intro hf₁
      rw [hno rfl] at hf₁
      cases hf₁
    | true =>
      obtain ⟨s₂, b, hs₂, hok₂, hkilled₂, hroots₂, hf₂, hyes₂, hno₂⟩ := copyTo_spec hcopy hok p q
        hne (hyes rfl) (by rw [hsz]; exact h.unused q hnone)
      simp only [if_true, hs₂]
      cases b with
      | true =>
        obtain ⟨hsz₂, hview₂⟩ := hyes₂ rfl
        refine Or.inl ⟨s₂, .result true, rfl, hok₂, fun hf' => ⟨hf (hf₂ hf'), ?_⟩⟩
        have hlive : s₂.live = Function.update s.live q true := by
          rw [live_eq hroots₂]
          exact create_live hroots (hyes rfl)
        simp only [spaces, hlive, hsz₂, hkilled₂, hview₂, hsz, hkilled, hview]
      | false =>
        obtain ⟨hfail, -⟩ := hno₂ rfl
        obtain ⟨s₃, hs₃, hok₃, -, hf₃, -⟩ := freeTable_spec hok₂ q
        refine Or.inl ⟨s₃, .result false, by simp only [hs₃, Option.map_some], hok₃, ?_⟩
        intro hf'
        rw [hfail] at hf₃
        exact absurd (hf₃ hf') (by simp)

/-- The page of a completed access is the one that the process sees. -/
theorem userPage_of_leaf (h : Ok lazy kend s) {t : Fin n} {va : Nat} {e : PTE}
    (he : s.leaf (t, slotOf va) = some e) (hu : e.u = true) (hva : va < MAXVA) :
    userPage (view s) t va = some (s.mem e.pa) := by
  rw [userPage_eq h.inv.toShape, walkaddr_eq h.inv.toShape, if_neg (by omega), he]
  simp [hu]

theorem load_refines (h : Ok lazy kend s) (t : Fin n) (va : Nat)
    (copy : State n → Fin n → Fin n → Nat → Option (State n × Bool)) :
    Refines lazy kend s (step copy s (.load t va)) ((spaces s).step (.load t va)) := by
  simp only [step, Spaces.step]
  apply refines_running t
  intro hrun
  rw [Bool.and_eq_true, Bool.not_eq_true'] at hrun
  obtain ⟨s₁, r, hs₁, hok, hsz, hlive, hview, hf⟩ := userAccess_spec h t va PTE.r hrun.2
    (fun e pa hr => hr) (by
      intro e he _ hr
      rw [(h.inv.perms _ e he).1] at hr
      cases hr)
  simp only [hs₁, Option.map_some]
  cases r with
  | some pa =>
    refine Or.inl ⟨s₁, _, rfl, hok, fun hf₁ => ?_⟩
    obtain ⟨hf₀, ⟨e, hpa, hkilled, he, hu, -, hva⟩ | ⟨hr, -⟩⟩ := hf hf₁
    · cases hpa
      refine ⟨hf₀, ?_⟩
      have hpage : userPage (spaces s).page t va = some (s₁.mem e.pa) := by
        rw [← userPage_of_leaf hok he hu hva, hview]
        rfl
      rw [hpage]
      simp only [spaces, hlive, hsz, hkilled, hview]
    · cases hr
  | none =>
    refine Or.inl ⟨s₁, _, rfl, hok, fun hf₁ => ?_⟩
    obtain ⟨hf₀, ⟨e, hpa, -⟩ | ⟨-, hkilled, hpage⟩⟩ := hf hf₁
    · cases hpa
    · have hpage' : userPage (spaces s).page t va = none := hpage
      refine ⟨hf₀, ?_⟩
      rw [hpage']
      simp only [spaces, Spaces.kill, hlive, hsz, hkilled, hview]

theorem store_refines (h : Ok lazy kend s) (t : Fin n) (va : Nat) (b : UInt8)
    (copy : State n → Fin n → Fin n → Nat → Option (State n × Bool)) (hin : InSize s t va) :
    Refines lazy kend s (step copy s (.store t va b)) ((spaces s).step (.store t va b)) := by
  simp only [step, Spaces.step]
  apply refines_running t
  intro hrun
  rw [Bool.and_eq_true, Bool.not_eq_true'] at hrun
  obtain ⟨s₁, r, hs₁, hok, hsz, hlive, hview, hf⟩ := userAccess_spec h t va PTE.w hrun.2
    (fun e pa _ => rfl) (by
      intro e he _ hw
      refine ⟨?_, hin e (Option.mem_def.mpr he) hw⟩
      rcases (h.inv.perms _ e he).2 with hw' | ⟨-, hcow⟩
      · rw [hw] at hw'
        cases hw'
      · exact hcow)
  simp only [hs₁, Option.map_some]
  cases r with
  | some pa =>
    refine Or.inl ⟨_, _, rfl, hok.fill pa _, fun hf₁ => ?_⟩
    obtain ⟨hf₀, ⟨e, hpa, hkilled, he, hu, hw, hva⟩ | ⟨hr, -⟩⟩ := hf hf₁
    · cases hpa
      refine ⟨hf₀, ?_⟩
      have hpage : userPage (spaces s).page t va = some (s₁.mem e.pa) := by
        rw [← userPage_of_leaf hok he hu hva, hview]
        rfl
      have hwrite : view (s₁.fill e.pa (Function.update (s₁.mem e.pa) (va % PGSIZE) b)) =
          (view s).write t va (Function.update (s₁.mem e.pa) (va % PGSIZE) b) := by
        rw [view_fill_own hok.inv he hw, hu, hview]
        rfl
      rw [hpage]
      simp only [spaces, hwrite, ← hlive, ← hsz, ← hkilled]
      rfl
    · cases hr
  | none =>
    refine Or.inl ⟨s₁, _, rfl, hok, fun hf₁ => ?_⟩
    obtain ⟨hf₀, ⟨e, hpa, -⟩ | ⟨-, hkilled, hpage⟩⟩ := hf hf₁
    · cases hpa
    · have hpage' : userPage (spaces s).page t va = none := hpage
      refine ⟨hf₀, ?_⟩
      rw [hpage']
      simp only [spaces, Spaces.kill, hlive, hsz, hkilled, hview]

theorem copyout_refines (h : Ok lazy kend s) (t : Fin n) (dstva : Nat) (src : List UInt8)
    (copy : State n → Fin n → Fin n → Nat → Option (State n × Bool))
    (hin : src ≠ [] → InSize s t dstva) :
    Refines lazy kend s (step copy s (.copyout t dstva src))
      ((spaces s).step (.copyout t dstva src)) := by
  simp only [step, Spaces.step]
  apply refines_running t
  intro _
  have hspec : ∃ s' b, copyoutLoop t src.length s dstva src = some (s', b) ∧ Ok lazy kend s' ∧
      s'.sz = s.sz ∧ s'.live = s.live ∧ (s'.failed = false → s.failed = false ∧
        s'.killed = s.killed ∧ viewOut t src.length (view s) dstva src = (view s', b)) := by
    cases src with
    | nil => exact ⟨s, true, rfl, h, rfl, rfl, fun hf => ⟨hf, rfl, rfl⟩⟩
    | cons x src => exact copyoutLoop_spec h t _ dstva _ (hin (by simp))
  obtain ⟨s₁, b, hs₁, hok, hsz, hlive, hf⟩ := hspec
  refine Or.inl ⟨s₁, .result b, by simp only [copyout, hs₁, Option.map_some], hok, ?_⟩
  intro hf₁
  obtain ⟨hf₀, hkilled, hout⟩ := hf hf₁
  refine ⟨hf₀, ?_⟩
  simp only [spaces, hout, hlive, hsz, hkilled]

/-- Every operation of a kernel whose uvmcopy copies is the operation on address spaces. -/
theorem step_refines {copy : State n → Fin n → Fin n → Nat → Option (State n × Bool)}
    (hcopy : CopySpec lazy copy) (h : Ok lazy kend s) (op : Op n) (hin : OpInSize s op) :
    Refines lazy kend s (step copy s op) ((spaces s).step op) := by
  cases op with
  | create t => exact create_refines h t copy
  | fork p q => exact fork_refines hcopy h p q
  | load t va => exact load_refines h t va copy
  | store t va b => exact store_refines h t va b copy hin
  | copyout t dstva src => exact copyout_refines h t dstva src copy hin
  | copyin t srcva len =>
    simp only [step, Spaces.step]
    apply refines_running t
    intro _
    refine Or.inl ⟨s, _, rfl, h, fun hf => ⟨hf, ?_⟩⟩
    rw [copyin, copyinLoop_eq h.inv.toShape]
    rfl
  | grow t newsz =>
    simp only [step, Spaces.step]
    apply refines_running t
    intro hrun
    rw [Bool.and_eq_true] at hrun
    rcases growTo_spec h t newsz (root_of_live hrun.1) with
      ⟨s₁, hs₁, hok, hkilled, hroots, hf⟩ | ⟨hnone, hgt⟩
    · refine Or.inl ⟨s₁, .done, by simp only [hs₁, Option.map_some], hok, fun hf₁ => ?_⟩
      obtain ⟨hf₀, hle, hsz, hview⟩ := hf hf₁
      refine ⟨hf₀, ?_⟩
      rw [if_pos hle]
      simp only [spaces, live_eq hroots, hsz, hkilled, hview]
    · -- the new size is refused on both sides
      rw [hnone, if_neg (by omega)]
      exact Or.inr ⟨rfl, rfl⟩
  | shrink t newsz =>
    simp only [step, Spaces.step]
    apply refines_running t
    intro hrun
    rw [Bool.and_eq_true] at hrun
    obtain ⟨s₁, hs₁, hok, hkilled, hroots, hf, hsz, hview⟩ :=
      shrinkTo_spec h t newsz (root_of_live hrun.1)
    refine Or.inl ⟨s₁, .done, by simp only [hs₁, Option.map_some], hok, fun hf₁ => ⟨hf hf₁, ?_⟩⟩
    simp only [spaces, live_eq hroots, hsz, hkilled, hview]
  | guard t va =>
    simp only [step, Spaces.step]
    apply refines_running t
    intro _
    by_cases hva : va < s.sz t
    · have hva' : va < (spaces s).sz t := hva
      rw [if_pos hva, if_pos hva']
      obtain ⟨s₁, hs₁⟩ := uvmclear_some h t va hva
      obtain ⟨-, hrest, hview⟩ := uvmclear_spec h.inv t va s₁ hs₁
      refine Or.inl ⟨s₁, .done, by simp only [hs₁, Option.map_some],
        uvmclear_ok h t va s₁ hs₁, fun hf₁ => ⟨hrest.failed hf₁, ?_⟩⟩
      simp only [spaces, live_eq hrest.roots, hrest.sz, hrest.killed, hview]
    · have hva' : ¬va < (spaces s).sz t := hva
      rw [if_neg hva, if_neg hva']
      exact Or.inr ⟨rfl, rfl⟩
  | exit t =>
    simp only [step, Spaces.step]
    by_cases hl : s.live t = true
    · have hl' : (spaces s).live t = true := hl
      rw [if_pos hl, if_pos hl']
      obtain ⟨s₁, hs₁, hok, hkilled, hf, hroot, hroots, hsz, hview⟩ := freeTable_spec h t
      refine Or.inl ⟨s₁.setKilled t false, .done, by simp only [hs₁, Option.map_some],
        hok.setKilled t false, fun hf₁ => ⟨hf hf₁, ?_⟩⟩
      -- the table and its pages go; no other process has them
      have hlive : (s₁.setKilled t false).live = Function.update s.live t false := by
        funext t'
        change (s₁.node (t', .root)).isSome = _
        by_cases ht : t' = t
        · rw [ht, Function.update_self, hroot]
          rfl
        · rw [Function.update_of_ne ht, hroots t' ht]
          rfl
      have hkill : (s₁.setKilled t false).killed = Function.update s.killed t false := by
        simp [State.setKilled, hkilled]
      have hsz' : (s₁.setKilled t false).sz = Function.update s.sz t 0 := hsz
      have hview' : view (s₁.setKilled t false) =
        setRange (view s) t 0 (npages (s.sz t)) (fun _ => none) := hview
      simp only [spaces, hlive, hkill, hsz', hview']
    · have hl' : ¬(spaces s).live t = true := hl
      rw [if_neg hl, if_neg hl']
      exact Or.inr ⟨rfl, rfl⟩

end Steps

section Runs

/-- No kalloc fails in the operation. -/
def NoFail (copy : State n → Fin n → Fin n → Nat → Option (State n × Bool)) (s : State n)
    (op : Op n) : Prop :=
  ∀ r ∈ step copy s op, r.1.failed = false

instance (copy : State n → Fin n → Fin n → Nat → Option (State n × Bool)) (s : State n)
    (op : Op n) : Decidable (NoFail copy s op) :=
  inferInstanceAs (Decidable (∀ r ∈ step copy s op, r.1.failed = false))

/-- The states of a run of the kernel and its address spaces. -/
def Abstracts (lazy : Bool) (kend : Nat) (s : State n) (a : Spaces n) : Prop :=
  Ok lazy kend s ∧ s.failed = false ∧ spaces s = a

theorem step_sameOut {copy : State n → Fin n → Fin n → Nat → Option (State n × Bool)}
    (hcopy : CopySpec lazy copy) (a : Spaces n) (op : Op n) (h : Abstracts lazy kend s a)
    (hin : OpInSize s op) (hfail : NoFail copy s op) :
    SameOut (Abstracts lazy kend) (step copy s op) (a.step op) := by
  obtain ⟨hok, -, rfl⟩ := h
  rcases step_refines hcopy hok op hin with ⟨s', o, hs, hok', hf⟩ | ⟨hs, ha⟩
  · have hf' : s'.failed = false := hfail (s', o) (Option.mem_def.mpr hs)
    rw [hs, (hf hf').2]
    exact Option.Rel.some ⟨⟨hok', hf', rfl⟩, rfl⟩
  · rw [hs, ha]
    exact Option.Rel.none

/-- In the eager kernel every page is writable, so no store needs the size. -/
theorem opInSize_eager (h : Ok false kend s) (op : Op n) : OpInSize s op := by
  have hin (t : Fin n) (va : Nat) : InSize s t va := by
    intro e he hw
    rcases (h.inv.perms _ e (Option.mem_def.mp he)).2 with hw' | ⟨hl, -⟩
    · rw [hw] at hw'
      cases hw'
    · cases hl
  cases op with
  | store t va b => exact hin t va
  | copyout t dstva src => exact fun _ => hin t dstva
  | _ => trivial

theorem cow_runOut (hk : KERNBASE ≤ kend) {s₀ : State n} (h₀ : kinit n kend = some s₀)
    (ops : List (Op n))
    (hg : Guarded (fun s op => (step uvmcopy s op).map Prod.fst)
      (fun s op => OpInSize s op ∧ NoFail uvmcopy s op) s₀ ops) :
    SameOut (Abstracts true kend) (runOut (step uvmcopy) s₀ ops)
      (runOut Spaces.step (spaces s₀) ops) := by
  obtain ⟨s₁, hs₁, hok, hf⟩ := kinit_spec true n kend hk
  rw [h₀] at hs₁
  cases hs₁
  exact runOut_simulates _ _ _ _
    (fun s a op h hg => step_sameOut uvmcopy_copySpec a op h hg.1 hg.2) s₀ _ ops ⟨hok, hf, rfl⟩ hg

theorem eager_runOut (hk : KERNBASE ≤ kend) {s₀ : State n} (h₀ : kinit n kend = some s₀)
    (ops : List (Op n))
    (hg : Guarded (fun s op => (step uvmcopyEager s op).map Prod.fst) (NoFail uvmcopyEager) s₀
      ops) :
    SameOut (Abstracts false kend) (runOut (step uvmcopyEager) s₀ ops)
      (runOut Spaces.step (spaces s₀) ops) := by
  obtain ⟨s₁, hs₁, hok, hf⟩ := kinit_spec false n kend hk
  rw [h₀] at hs₁
  cases hs₁
  exact runOut_simulates _ _ _ _
    (fun s a op h hg => step_sameOut uvmcopyEager_copySpec a op h (opInSize_eager h.1 op) hg)
    s₀ _ ops ⟨hok, hf, rfl⟩ hg

end Runs

section Isolation

/-- The byte that a load at `va` finds, when it does not fault. -/
def seen (s : State n) (t : Fin n) (va : Nat) : Option UInt8 :=
  (translate s t va PTE.r).map (fun pa => s.mem pa (va % PGSIZE))

/-- The process whose memory a store or a copyout writes. -/
def Op.writer : Op n → Option (Fin n)
  | .store t _ _ => some t
  | .copyout t _ _ => some t
  | _ => none

theorem seen_eq (h : Shape lazy s) (t : Fin n) (va : Nat) :
    seen s t va = (userPage (view s) t va).map (fun page => page (va % PGSIZE)) := by
  rw [userPage_eq h, walkaddr_eq h]
  unfold seen
  rw [translate_eq h]
  by_cases hva : MAXVA ≤ va
  · rw [if_pos hva, if_pos hva]
    rfl
  · rw [if_neg hva, if_neg hva]
    cases he : s.leaf (t, slotOf va) with
    | none => rfl
    | some e =>
      have hr := (h.perms _ e he).1
      cases hu : e.u <;> simp [hr, hu]

theorem write_of_ne (V : View n) {t t' : Fin n} (ht : t' ≠ t) (va : Nat) (page : Nat → UInt8)
    (i : Slot) : V.write t va page (t', i) = V (t', i) := by
  apply Function.update_of_ne
  intro heq
  exact ht (Prod.mk.inj heq).1

theorem viewOut_of_ne {t t' : Fin n} (ht : t' ≠ t) (fuel : Nat) (V : View n) (dstva : Nat)
    (src : List UInt8) (i : Slot) : (viewOut t fuel V dstva src).1 (t', i) = V (t', i) := by
  induction fuel generalizing V dstva src with
  | zero => rfl
  | succ fuel ih =>
    rw [viewOut]
    split
    · rfl
    · split
      · rfl
      · rw [ih, write_of_ne V ht]

/-- On private address spaces a write by one process is not seen by another. -/
theorem Spaces.step_writer (a a' : Spaces n) (op : Op n) (o : Obs) {t t' : Fin n}
    (hw : op.writer = some t) (ht : t' ≠ t) (hs : a.step op = some (a', o)) (i : Slot) :
    a'.page (t', i) = a.page (t', i) := by
  cases op with
  | store t₁ va b =>
    cases hw
    simp only [Spaces.step] at hs
    split at hs
    · split at hs
      · cases hs
        exact write_of_ne _ ht _ _ i
      · cases hs
        rfl
    · cases hs
  | copyout t₁ dstva src =>
    cases hw
    simp only [Spaces.step] at hs
    split at hs
    · cases hs
      exact viewOut_of_ne ht _ _ _ _ i
    · cases hs
  | _ => cases hw

theorem writer_unseen {copy : State n → Fin n → Fin n → Nat → Option (State n × Bool)}
    (hcopy : CopySpec lazy copy) (h : Ok lazy kend s) (op : Op n) (hin : OpInSize s op)
    (hfail : NoFail copy s op) {t t' : Fin n} (hw : op.writer = some t) (ht : t' ≠ t)
    (s' : State n) (o : Obs) (hs : step copy s op = some (s', o)) (va : Nat) :
    seen s' t' va = seen s t' va := by
  rcases step_refines hcopy h op hin with ⟨s₁, o₁, hs₁, hok, hf⟩ | ⟨hnone, -⟩
  · rw [hs] at hs₁
    cases hs₁
    have ha := (hf (hfail (s', o) (Option.mem_def.mpr hs))).2
    have hpage : view s' (t', slotOf va) = view s (t', slotOf va) :=
      Spaces.step_writer _ _ op o hw ht ha _
    rw [seen_eq hok.inv.toShape, seen_eq h.inv.toShape]
    unfold userPage
    rw [hpage]
  · rw [hs] at hnone
    cases hnone

end Isolation

/-- From kinit on, as long as no kalloc fails and no store or copyout starts past the size
of the process on a copy-on-write page, the kernel that shares pages on fork answers as the
one that copies them, kills the same processes, and no process sees what another writes. -/
theorem cow_fork_as_eager (kend : Nat) (hk : KERNBASE ≤ kend) (s₀ : State n)
    (h₀ : kinit n kend = some s₀) (ops : List (Op n))
    (hcow : Guarded (fun s op => (step uvmcopy s op).map Prod.fst)
      (fun s op => OpInSize s op ∧ NoFail uvmcopy s op) s₀ ops)
    (heager : Guarded (fun s op => (step uvmcopyEager s op).map Prod.fst) (NoFail uvmcopyEager)
      s₀ ops) :
    SameOut (fun s e => s.killed = e.killed) (runOut (step uvmcopy) s₀ ops)
        (runOut (step uvmcopyEager) s₀ ops) ∧
      ∀ s out, runOut (step uvmcopy) s₀ ops = some (s, out) →
        ∀ op t, op.writer = some t → OpInSize s op → NoFail uvmcopy s op →
          ∀ s' o, step uvmcopy s op = some (s', o) →
            ∀ t', t' ≠ t → ∀ va, seen s' t' va = seen s t' va := by
  have hc := cow_runOut hk h₀ ops hcow
  have he := eager_runOut hk h₀ ops heager
  constructor
  · -- both kernels have the address spaces of one run of the machine in between
    apply (hc.join he).mono
    rintro s e ⟨a, ⟨-, -, hs⟩, -, -, he⟩
    exact congrArg Spaces.killed (hs.trans he.symm)
  · intro s out hs op t hw hin hfail s' o hs' t' ht va
    rw [hs] at hc
    obtain ⟨a, hok, -⟩ := hc.exists_right
    exact writer_unseen uvmcopy_copySpec hok op hin hfail hw ht s' o hs' va

/-- A process with a page and a half forks; parent and child write to both pages, below
their size, the child through copyout. -/
def forkOps : List (Op 2) :=
  [.create 0, .grow 0 6000, .store 0 100 3, .fork 0 1, .store 0 100 7, .copyout 1 5000 [9, 9],
    .load 1 100, .load 0 5000, .store 0 5000 1, .load 1 5001]

theorem cow_fork_as_eager_forkOps :
    ∃ s₀ : State 2, kinit 2 (PHYSTOP - 24 * PGSIZE) = some s₀ ∧
      (runOut (step uvmcopy) s₀ forkOps).map Prod.snd =
        some [.result true, .done, .done, .result true, .done, .result true, .byte 3, .byte 0,
          .done, .byte 9] ∧
      SameOut (fun s e => s.killed = e.killed) (runOut (step uvmcopy) s₀ forkOps)
        (runOut (step uvmcopyEager) s₀ forkOps) := by
  have hrun : (kinit 2 (PHYSTOP - 24 * PGSIZE)).map (fun s₀ : State 2 =>
      (decide (Guarded (fun s op => (step uvmcopy s op).map Prod.fst)
          (fun s op => OpInSize s op ∧ NoFail uvmcopy s op) s₀ forkOps),
        decide (Guarded (fun s op => (step uvmcopyEager s op).map Prod.fst)
          (NoFail uvmcopyEager) s₀ forkOps),
        (runOut (step uvmcopy) s₀ forkOps).map Prod.snd)) =
      some (true, true, some [.result true, .done, .done, .result true, .done, .result true,
        .byte 3, .byte 0, .done, .byte 9]) := by
    decide +kernel
  obtain ⟨s₀, h₀, hrun⟩ := Option.map_eq_some_iff.mp hrun
  obtain ⟨hcow, hrun⟩ := Prod.mk.inj hrun
  obtain ⟨heager, hout⟩ := Prod.mk.inj hrun
  exact ⟨s₀, h₀, hout, (cow_fork_as_eager _ (by decide) s₀ h₀ forkOps
    (of_decide_eq_true hcow) (of_decide_eq_true heager)).1⟩

/-- A process of one byte has a whole page. It forks, and read(2) into address 100 writes to
the page that its child shares; then a store there kills it. -/
def pastSizeOps : List (Op 2) :=
  [.create 0, .grow 0 1, .fork 0 1, .copyout 0 100 [7], .load 1 100, .store 0 100 7]

/-- Past the size of a process the two kernels differ, though no kalloc fails. -/
theorem past_size_differs :
    ∃ s₀ : State 2, kinit 2 (PHYSTOP - 24 * PGSIZE) = some s₀ ∧
      Guarded (fun s op => (step uvmcopy s op).map Prod.fst) (NoFail uvmcopy) s₀ pastSizeOps ∧
      Guarded (fun s op => (step uvmcopyEager s op).map Prod.fst) (NoFail uvmcopyEager) s₀
        pastSizeOps ∧
      (runOut (step uvmcopy) s₀ pastSizeOps).map Prod.snd =
        some [.result true, .done, .result true, .result true, .byte 7, .killed] ∧
      (runOut (step uvmcopyEager) s₀ pastSizeOps).map Prod.snd =
        some [.result true, .done, .result true, .result true, .byte 0, .done] := by
  have hrun : (kinit 2 (PHYSTOP - 24 * PGSIZE)).map (fun s₀ : State 2 =>
      (decide (Guarded (fun s op => (step uvmcopy s op).map Prod.fst) (NoFail uvmcopy) s₀
          pastSizeOps),
        decide (Guarded (fun s op => (step uvmcopyEager s op).map Prod.fst)
          (NoFail uvmcopyEager) s₀ pastSizeOps),
        (runOut (step uvmcopy) s₀ pastSizeOps).map Prod.snd,
        (runOut (step uvmcopyEager) s₀ pastSizeOps).map Prod.snd)) =
      some (true, true,
        some [.result true, .done, .result true, .result true, .byte 7, .killed],
        some [.result true, .done, .result true, .result true, .byte 0, .done]) := by
    decide +kernel
  obtain ⟨s₀, h₀, hrun⟩ := Option.map_eq_some_iff.mp hrun
  obtain ⟨hcow, hrun⟩ := Prod.mk.inj hrun
  obtain ⟨heager, hrun⟩ := Prod.mk.inj hrun
  obtain ⟨hout, hout'⟩ := Prod.mk.inj hrun
  exact ⟨s₀, h₀, of_decide_eq_true hcow, of_decide_eq_true heager, hout, hout'⟩

end Xv6Labs.Cow
