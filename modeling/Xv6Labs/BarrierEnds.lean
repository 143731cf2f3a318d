import Xv6Labs.BarrierRuns
import Mathlib.Algebra.Order.BigOperators.Group.Finset

/-! The threads of barrier.c get through all their rounds: where the waits come back only after a
broadcast, no run goes on for ever and none gets stuck before the last round. -/
namespace Xv6Labs.Barrier

variable {n : Nat}

/-- The steps of a round that a thread at `q` has still to make, at most. -/
def PC.left : PC → Nat
  | .check => 8
  | .lock => 7
  | .arrive => 6
  | .reset => 5
  | .bump => 4
  | .broadcast => 3
  | .waiting _ => 2
  | .unlock => 1
  | .done => 0

/-- The steps that the threads have still to make, at most. -/
def State.work (rounds : Nat) (s : State n) : Nat :=
  ∑ x, ((rounds - s.i x) * 8 + (s.pc x).left)

/-- The mutex is with a thread that has it to itself, no thread is past its last round, and the
last arrival of a round does not wait. -/
structure Going (rounds : Nat) (s : State n) : Prop where
  inv : Inv s
  held : ∀ x, s.mutex = some x → (s.pc x).locked = true
  within : ∀ x, s.i x ≤ rounds
  active : ∀ x, s.pc x ≠ .check → s.pc x ≠ .done → s.i x < rounds
  past : ∀ x, s.pc x = .done → s.i x = rounds
  few : s.nthread < n ∨ ∃ x, s.pc x = .reset

section Steps

variable {rounds : Nat} {s t : State n} {x : Fin n}

theorem left_signal (q : PC) : q.signal.left = q.left := by
  cases q <;> rfl

/-- One thread gets closer to its end and the others stay as far as they are. -/
theorem work_lt (hothers : ∀ y, y ≠ x → t.i y = s.i y ∧ (t.pc y).left = (s.pc y).left)
    (hx : (rounds - t.i x) * 8 + (t.pc x).left < (rounds - s.i x) * 8 + (s.pc x).left) :
    t.work rounds < s.work rounds := by
  unfold State.work
  apply Finset.sum_lt_sum
  · intro y _
    by_cases hy : y = x
    · rw [hy]
      exact hx.le
    · rw [(hothers y hy).1, (hothers y hy).2]
  · exact ⟨x, Finset.mem_univ x, hx⟩

/-- A step of thread `x` that leaves the loop counters and the other threads alone. -/
theorem Going.goto (h : Going rounds s) (hinv : Inv t) (q : PC)
    (hpc : t.pc = Function.update s.pc x q) (hi : t.i = s.i)
    (hheld : t.mutex = none ∨ (t.mutex = some x ∧ q.locked = true) ∨
      (t.mutex = s.mutex ∧ (s.pc x).locked = false))
    (hactive : q ≠ .done → s.i x < rounds) (hpast : q = .done → s.i x = rounds)
    (hfew : t.nthread < n ∨ q = .reset ∨ (t.nthread = s.nthread ∧ s.pc x ≠ .reset))
    (hless : q.left < (s.pc x).left) : Going rounds t ∧ t.work rounds < s.work rounds := by
  have hother (y : Fin n) (hy : y ≠ x) : t.pc y = s.pc y := by
    rw [hpc, Function.update_of_ne hy]
  have hx : t.pc x = q := by
    rw [hpc, Function.update_self]
  refine ⟨⟨hinv, ?_, ?_, ?_, ?_, ?_⟩, ?_⟩
  · -- free now, taken or kept by `x`, or still with another thread
    intro y hy
    rcases hheld with hm | ⟨hm, hl⟩ | ⟨hm, hl⟩
    · rw [hm] at hy
      cases hy
    · rw [hm] at hy
      cases hy
      rw [hx]
      exact hl
    · rw [hm] at hy
      have hly := h.held y hy
      have hyx : y ≠ x := by
        rintro rfl
        rw [hl] at hly
        cases hly
      rw [hother y hyx]
      exact hly
  · intro y
    rw [hi]
    exact h.within y
  · intro y hc hd
    rw [hi]
    by_cases hy : y = x
    · subst hy
      rw [hx] at hd
      exact hactive hd
    · rw [hother y hy] at hc hd
      exact h.active y hc hd
  · intro y hd
    rw [hi]
    by_cases hy : y = x
    · subst hy
      rw [hx] at hd
      exact hpast hd
    · rw [hother y hy] at hd
      exact h.past y hd
  · rcases hfew with hlt | hreset | ⟨hn, hne⟩
    · exact Or.inl hlt
    · exact Or.inr ⟨x, by rw [hx, hreset]⟩
    · rw [hn]
      rcases h.few with hlt | ⟨y, hy⟩
      · exact Or.inl hlt
      · have hyx : y ≠ x := by
          rintro rfl
          exact hne hy
        exact Or.inr ⟨y, by rw [hother y hyx]; exact hy⟩
  · apply work_lt (x := x)
    · intro y hy
      rw [hi, hother y hy]
      exact ⟨rfl, rfl⟩
    · rw [hi, hx]
      omega

/-- The waiting threads get their signal and stay where they are. -/
theorem broadcast_going (h : Going rounds s) (hp : s.pc x = .broadcast) (hm : s.mutex = some x)
    (hi : s.i x < rounds) (hinv : Inv t)
    (ht : State.goto { s with pc := fun y => (s.pc y).signal } x .unlock = t) :
    Going rounds t ∧ t.work rounds < s.work rounds := by
  subst ht
  have hother (y : Fin n) (hy : y ≠ x) :
      (State.goto { s with pc := fun y => (s.pc y).signal } x .unlock).pc y = (s.pc y).signal :=
    Function.update_of_ne hy _ _
  have hx : (State.goto { s with pc := fun y => (s.pc y).signal } x .unlock).pc x = .unlock :=
    Function.update_self _ _ _
  refine ⟨⟨hinv, ?_, h.within, ?_, ?_, ?_⟩, ?_⟩
  · intro y hy
    have hyx : y = x := Option.some.inj (hy.symm.trans hm)
    rw [hyx, hx]
    rfl
  · intro y hc hd
    by_cases hy : y = x
    · rw [hy]
      exact hi
    · rw [hother y hy] at hc hd
      apply h.active y
      · intro he
        rw [he] at hc
        exact hc rfl
      · intro he
        rw [he] at hd
        exact hd rfl
  · intro y hd
    by_cases hy : y = x
    · rw [hy, hx] at hd
      cases hd
    · rw [hother y hy] at hd
      apply h.past y
      cases hq : s.pc y <;> rw [hq] at hd <;> cases hd
  · rcases h.few with hlt | ⟨y, hy⟩
    · exact Or.inl hlt
    · have hyx : y ≠ x := by
        rintro rfl
        rw [hp] at hy
        cases hy
      refine Or.inr ⟨y, ?_⟩
      rw [hother y hyx, hy]
      rfl
  · apply work_lt (x := x)
    · intro y hy
      rw [hother y hy, left_signal]
      exact ⟨rfl, rfl⟩
    · rw [hx, hp]
      exact Nat.add_lt_add_left (by decide) _

/-- The round is over for `x`, whose counter goes up: one round less pays for the steps of the
next. -/
theorem unlock_going (h : Going rounds s) (hp : s.pc x = .unlock) (hi : s.i x < rounds)
    (hinv : Inv t)
    (ht : State.goto { s with mutex := none, i := Function.update s.i x (s.i x + 1) } x .check =
      t) : Going rounds t ∧ t.work rounds < s.work rounds := by
  subst ht
  have hpc (y : Fin n) (hy : y ≠ x) : Function.update s.pc x .check y = s.pc y :=
    Function.update_of_ne hy _ _
  have hcount (y : Fin n) (hy : y ≠ x) : Function.update s.i x (s.i x + 1) y = s.i y :=
    Function.update_of_ne hy _ _
  refine ⟨⟨hinv, ?_, ?_, ?_, ?_, ?_⟩, ?_⟩
  · intro y hy
    cases hy
  · intro y
    simp only [State.goto]
    by_cases hy : y = x
    · rw [hy, Function.update_self]
      exact hi
    · rw [hcount y hy]
      exact h.within y
  · intro y hc hd
    simp only [State.goto] at hc hd ⊢
    by_cases hy : y = x
    · rw [hy, Function.update_self] at hc
      exact absurd rfl hc
    · rw [hpc y hy] at hc hd
      rw [hcount y hy]
      exact h.active y hc hd
  · intro y hd
    simp only [State.goto] at hd ⊢
    by_cases hy : y = x
    · rw [hy, Function.update_self] at hd
      cases hd
    · rw [hpc y hy] at hd
      rw [hcount y hy]
      exact h.past y hd
  · rcases h.few with hlt | ⟨y, hy⟩
    · exact Or.inl hlt
    · have hyx : y ≠ x := by
        rintro rfl
        rw [hp] at hy
        cases hy
      refine Or.inr ⟨y, ?_⟩
      simp only [State.goto]
      rw [hpc y hyx]
      exact hy
  · apply work_lt (x := x)
    · intro y hy
      simp only [State.goto]
      rw [hpc y hy, hcount y hy]
      exact ⟨rfl, rfl⟩
    · simp only [State.goto, Function.update_self, hp, PC.left]
      omega

theorem step_going (hn : 0 < n) (h : Going rounds s) (hg : Signalled s x)
    (ht : step rounds s x = some t) : Going rounds t ∧ t.work rounds < s.work rounds := by
  have hinv : Inv t := step_inv rounds s x t h.inv hg ht
  have hasserts : t.aborted = false := hinv.asserts
  have hactive : s.pc x ≠ .check → s.pc x ≠ .done → s.i x < rounds := h.active x
  have hmine (q : PC) (hq : s.pc x = q) (hl : q.locked = true) : s.mutex = some x :=
    h.inv.mutex x (by rw [hq]; exact hl)
  unfold step at ht
  rw [if_neg (by simp [h.inv.asserts])] at ht
  cases hp : s.pc x with
  | check =>
    simp only [hp] at ht
    split_ifs at ht with hlt he
    · cases ht
      exact h.goto hinv .lock rfl rfl (Or.inr (Or.inr ⟨rfl, by rw [hp]; rfl⟩)) (fun _ => hlt)
        (by simp) (Or.inr (Or.inr ⟨rfl, by rw [hp]; simp⟩)) (by rw [hp]; decide)
    · -- the assertion of thread() holds
      cases ht
      cases hasserts
    · cases ht
      have hle := h.within x
      exact h.goto hinv .done rfl rfl (Or.inr (Or.inr ⟨rfl, by rw [hp]; rfl⟩)) (by simp)
        (fun _ => by omega) (Or.inr (Or.inr ⟨rfl, by rw [hp]; simp⟩)) (by rw [hp]; decide)
  | lock =>
    have hi := hactive (by rw [hp]; simp) (by rw [hp]; simp)
    simp only [hp] at ht
    split_ifs at ht with hm
    cases ht
    exact h.goto hinv .arrive rfl rfl (Or.inr (Or.inl ⟨rfl, rfl⟩)) (fun _ => hi) (by simp)
      (Or.inr (Or.inr ⟨rfl, by rw [hp]; simp⟩)) (by rw [hp]; decide)
  | arrive =>
    have hi := hactive (by rw [hp]; simp) (by rw [hp]; simp)
    simp only [hp] at ht
    split_ifs at ht with hlt
    · cases ht
      exact h.goto hinv (.waiting false) rfl rfl (Or.inl rfl) (fun _ => hi) (by simp)
        (Or.inl hlt) (by rw [hp]; decide)
    · cases ht
      exact h.goto hinv .reset rfl rfl (Or.inr (Or.inl ⟨hmine _ hp rfl, rfl⟩)) (fun _ => hi)
        (by simp) (Or.inr (Or.inl rfl)) (by rw [hp]; decide)
  | waiting b =>
    -- pthread_cond_wait comes back with the mutex
    have hi := hactive (by rw [hp]; simp) (by rw [hp]; simp)
    simp only [hp] at ht
    split_ifs at ht with hm
    cases ht
    exact h.goto hinv .unlock rfl rfl (Or.inr (Or.inl ⟨rfl, rfl⟩)) (fun _ => hi) (by simp)
      (Or.inr (Or.inr ⟨rfl, by rw [hp]; simp⟩)) (by rw [hp]; exact Nat.lt_succ_self 1)
  | reset =>
    have hi := hactive (by rw [hp]; simp) (by rw [hp]; simp)
    simp only [hp] at ht
    cases ht
    exact h.goto hinv .bump rfl rfl (Or.inr (Or.inl ⟨hmine _ hp rfl, rfl⟩)) (fun _ => hi)
      (by simp) (Or.inl hn) (by rw [hp]; decide)
  | bump =>
    have hi := hactive (by rw [hp]; simp) (by rw [hp]; simp)
    simp only [hp] at ht
    cases ht
    exact h.goto hinv .broadcast rfl rfl (Or.inr (Or.inl ⟨hmine _ hp rfl, rfl⟩)) (fun _ => hi)
      (by simp) (Or.inr (Or.inr ⟨rfl, by rw [hp]; simp⟩)) (by rw [hp]; decide)
  | broadcast =>
    have hi := hactive (by rw [hp]; simp) (by rw [hp]; simp)
    have hm := hmine _ hp rfl
    simp only [hp] at ht
    exact broadcast_going h hp hm hi hinv (Option.some.inj ht)
  | unlock =>
    have hi := hactive (by rw [hp]; simp) (by rw [hp]; simp)
    simp only [hp] at ht
    exact unlock_going h hp hi hinv (Option.some.inj ht)
  | done =>
    simp only [hp] at ht
    cases ht

theorem init_going (hn : 0 < n) : Going rounds (init n) := by
  refine ⟨init_inv, ?_, fun y => Nat.zero_le _, ?_, ?_, Or.inl hn⟩
  · intro y hy
    cases hy
  · intro y hc
    exact absurd rfl hc
  · intro y hd
    cases hd

theorem init_work : (init n).work rounds = n * (rounds * 8 + 8) := by
  unfold State.work init
  simp [PC.left]

/-- A thread that cannot go on has returned from its last round, or waits without a signal or
for the mutex. -/
theorem stuck_cases (h : Going rounds s) (hstuck : Signalled s x → step rounds s x = none) :
    s.pc x = .done ∨ s.pc x = .waiting false ∨ s.mutex ≠ none := by
  by_cases hg : Signalled s x
  · have hx := hstuck hg
    unfold step at hx
    rw [if_neg (by simp [h.inv.asserts])] at hx
    cases hp : s.pc x with
    | done => exact Or.inl rfl
    | check =>
      simp only [hp] at hx
      split_ifs at hx
    | lock =>
      simp only [hp] at hx
      split_ifs at hx with hm
      exact Or.inr (Or.inr hm)
    | waiting b =>
      simp only [hp] at hx
      split_ifs at hx with hm
      exact Or.inr (Or.inr hm)
    | arrive =>
      simp only [hp] at hx
      split_ifs at hx
    | _ =>
      simp only [hp] at hx
      cases hx
  · exact Or.inr (Or.inl (by simpa [Signalled] using hg))

/-- The thread with the mutex can go on. -/
theorem locked_steps (h : Going rounds s) (hx : (s.pc x).locked = true) :
    step rounds s x ≠ none := by
  unfold step
  rw [if_neg (by simp [h.inv.asserts])]
  cases hp : s.pc x with
  | arrive =>
    simp only
    split_ifs <;> simp
  | reset | bump | broadcast | unlock => simp
  | _ =>
    rw [hp] at hx
    cases hx

/-- Nobody can go on: all threads have been through all rounds. -/
theorem Going.finished (h : Going rounds s)
    (hstuck : ∀ x, Signalled s x → step rounds s x = none) (x : Fin n) :
    s.pc x = .done ∧ s.i x = rounds ∧ s.round = rounds := by
  -- a thread with the mutex could go on
  have hmutex : s.mutex = none := by
    cases hm : s.mutex with
    | none => rfl
    | some y =>
      have hl := h.held y hm
      have hg : Signalled s y := by
        unfold Signalled
        intro hw
        rw [hw] at hl
        cases hl
      exact absurd (hstuck y hg) (locked_steps h hl)
  have hwhere (y : Fin n) : s.pc y = .done ∨ s.pc y = .waiting false := by
    rcases stuck_cases h (hstuck y) with hd | hw | hm
    · exact Or.inl hd
    · exact Or.inr hw
    · exact absurd hmutex hm
  have hopen : Open s := by
    rcases h.inv.stage with ho | ⟨z, hz⟩
    · exact ho
    · rcases hwhere z with hz' | hz' <;> rcases hz.last with ⟨hp, -⟩ | ⟨hp, -⟩ | ⟨hp, -⟩ <;>
        rw [hz'] at hp <;> cases hp
  -- the last arrival does not wait
  have hdone : ∃ y, s.pc y = .done := by
    by_contra hno
    have hall : s.waiters = Finset.univ := by
      ext y
      rw [mem_waiters]
      refine ⟨fun _ => Finset.mem_univ y, ?_⟩
      intro _
      rcases hwhere y with hd | hw
      · exact absurd ⟨y, hd⟩ hno
      · exact hw
    have hcount := hopen.count
    rw [hall, Finset.card_univ, Fintype.card_fin] at hcount
    rcases h.few with hlt | ⟨y, hy⟩
    · omega
    · rcases hwhere y with hd | hd <;> rw [hd] at hy <;> cases hy
  obtain ⟨y, hy⟩ := hdone
  have hround : s.round = rounds := by
    have hphase := hopen.phase y
    rw [hy] at hphase
    exact hphase.symm.trans (h.past y hy)
  have hx := hopen.phase x
  rcases hwhere x with hd | hw
  · exact ⟨hd, h.past x hd, hround⟩
  · rw [hw] at hx
    have hlt := h.active x (by rw [hw]; simp) (by rw [hw]; simp)
    have hi : s.i x = s.round := hx
    omega

end Steps

/-- Where pthread_cond_wait comes back only after a broadcast, the threads make at most eight
steps for each round and eight more, and a run that cannot go on has taken every thread through
all rounds. -/
theorem barrier_completes (rounds : Nat) (hn : 0 < n) (xs : List (Fin n)) (s : State n)
    (hg : Guarded (step rounds) Signalled (init n) xs)
    (hr : run (step rounds) (init n) xs = some s) :
    xs.length ≤ n * (rounds * 8 + 8) ∧
    ((∀ x, Signalled s x → step rounds s x = none) →
      ∀ x, s.pc x = .done ∧ s.i x = rounds ∧ s.round = rounds) := by
  obtain ⟨h, hwork⟩ := guarded_run_measure (step rounds) Signalled (Going rounds)
    (State.work rounds) (fun _ _ _ h hg ht => step_going hn h hg ht) _ _ xs (init_going hn) hg hr
  rw [init_work] at hwork
  exact ⟨by omega, h.finished⟩

/-- Two threads and one round, to the end. -/
def oneRound : List (Fin 2) := [0, 0, 0, 1, 1, 1, 1, 1, 1, 1, 1, 0, 0, 0]

theorem barrier_completes_oneRound : ∃ s, run (step 1) (init 2) oneRound = some s ∧
    ∀ x, s.pc x = .done ∧ s.i x = 1 ∧ s.round = 1 := by
  have hrun : (run (step 1) (init 2) oneRound).map (fun s => (s.pc 0, s.pc 1)) =
      some (.done, .done) := by decide
  obtain ⟨s, hs, hend⟩ := Option.map_eq_some_iff.mp hrun
  obtain ⟨h0, h1⟩ := Prod.mk.inj hend
  refine ⟨s, hs, (barrier_completes 1 (by decide) oneRound s (by decide) hs).2 ?_⟩
  intro x hx
  obtain rfl | rfl : x = 0 ∨ x = 1 := by omega
  · simp [step, h0]
  · simp [step, h1]

end Xv6Labs.Barrier
