import Xv6Labs.BarrierCode
import Mathlib.Data.Fintype.Card

/-! barrier.c keeps the threads together in the runs where pthread_cond_wait comes back only
after a broadcast. The wait is not in a loop, so that a wake-up without one breaks it. -/
namespace Xv6Labs.Barrier

variable {n : Nat}

def PC.locked : PC → Bool
  | .arrive | .reset | .bump | .broadcast | .unlock => true
  | _ => false

/-- A thread outside the last arrival's steps: whether it has been through the current round's
barrier shows in its loop counter. -/
def InRound (round i : Nat) : PC → Prop
  | .check | .lock | .arrive | .waiting false | .done => i = round
  | .waiting true | .unlock => i + 1 = round
  | .reset | .bump | .broadcast => False

/-- The threads that wait for the current round to end. -/
def State.waiters (s : State n) : Finset (Fin n) :=
  Finset.univ.filter (fun x => s.pc x = .waiting false)

theorem mem_waiters (s : State n) (x : Fin n) : x ∈ s.waiters ↔ s.pc x = .waiting false := by
  simp [State.waiters]

/-- The threads of the round arrive one after the other. -/
structure Open (s : State n) : Prop where
  phase : ∀ x, InRound s.round (s.i x) (s.pc x)
  count : s.nthread = s.waiters.card

/-- Thread `x` came last and ends the round: all others wait. -/
structure Closing (s : State n) (x : Fin n) : Prop where
  others : ∀ y, y ≠ x → s.pc y = .waiting false ∧ s.i y = s.i x
  last : (s.pc x = .reset ∧ s.nthread = n ∧ s.round = s.i x) ∨
    (s.pc x = .bump ∧ s.nthread = 0 ∧ s.round = s.i x) ∨
    (s.pc x = .broadcast ∧ s.nthread = 0 ∧ s.round = s.i x + 1)

structure Inv (s : State n) : Prop where
  mutex : ∀ x, (s.pc x).locked = true → s.mutex = some x
  asserts : s.aborted = false
  stage : Open s ∨ ∃ x, Closing s x

theorem Open.between {s : State n} (h : Open s) (x : Fin n) :
    s.i x ≤ s.round ∧ s.round ≤ s.calls x := by
  have hx := h.phase x
  unfold State.calls
  cases hp : s.pc x with
  | waiting b =>
    rw [hp] at hx
    cases b <;> simp only [InRound] at hx ⊢ <;> omega
  | reset | bump | broadcast =>
    rw [hp] at hx
    exact hx.elim
  | check | lock | arrive | unlock | done =>
    rw [hp] at hx
    simp only [InRound] at hx ⊢
    omega

theorem Inv.safe {s : State n} (h : Inv s) : Safe s := by
  rcases h.stage with ho | ⟨z, hz⟩
  · refine ⟨?_, ?_, h.asserts, ?_⟩
    · intro x y
      exact (ho.between x).1.trans (ho.between y).2
    · intro x hx
      have hp := ho.phase x
      rw [hx] at hp
      exact hp.symm
    · rw [ho.count]
      exact (Finset.card_le_univ _).trans (Fintype.card_fin n).le
  · refine ⟨?_, ?_, h.asserts, ?_⟩
    · have hi (x : Fin n) : s.i x = s.i z := by
        by_cases hx : x = z
        · rw [hx]
        · exact (hz.others x hx).2
      intro x y
      rw [hi x, ← hi y]
      unfold State.calls
      split <;> omega
    · intro x hx
      by_cases hxz : x = z
      · subst hxz
        rcases hz.last with ⟨hp, -⟩ | ⟨hp, -⟩ | ⟨hp, -⟩ <;> rw [hx] at hp <;> cases hp
      · rw [(hz.others x hxz).1] at hx
        cases hx
    · rcases hz.last with ⟨-, hc, -⟩ | ⟨-, hc, -⟩ | ⟨-, hc, -⟩ <;> omega

section Steps

variable {s t : State n} {x : Fin n}

/-- The mutex after a step of thread `x`, which had it, or found it free, or leaves it. -/
theorem Inv.mutex_step (h : Inv s)
    (hpc : ∀ y, y ≠ x → (t.pc y).locked = (s.pc y).locked)
    (hm : s.mutex = some x ∨ s.mutex = none ∨ t.mutex = s.mutex)
    (hx : (t.pc x).locked = true → t.mutex = some x) (y : Fin n)
    (hy : (t.pc y).locked = true) : t.mutex = some y := by
  by_cases hyx : y = x
  · subst hyx
    exact hx hy
  · rw [hpc y hyx] at hy
    have hold := h.mutex y hy
    rcases hm with hmine | hnone | hsame
    · rw [hmine] at hold
      exact absurd (Option.some.inj hold).symm hyx
    · rw [hnone] at hold
      cases hold
    · rw [hsame]
      exact hold

/-- A thread on its own way through the round. -/
theorem Open.step (h : Open s) (hr : t.round = s.round)
    (hothers : ∀ y, y ≠ x → t.pc y = s.pc y ∧ t.i y = s.i y)
    (hx : InRound s.round (t.i x) (t.pc x)) (hs : s.pc x ≠ .waiting false)
    (ht : t.pc x ≠ .waiting false) (hc : t.nthread = s.nthread) : Open t := by
  refine ⟨?_, ?_⟩
  · intro y
    rw [hr]
    by_cases hy : y = x
    · subst hy
      exact hx
    · rw [(hothers y hy).1, (hothers y hy).2]
      exact h.phase y
  · rw [hc, h.count]
    congr 1
    ext y
    rw [mem_waiters, mem_waiters]
    by_cases hy : y = x
    · subst hy
      exact iff_of_false hs ht
    · rw [(hothers y hy).1]

/-- An arrival that is not the last one. -/
theorem Open.arrive (h : Open s) (hp : s.pc x = .arrive) :
    Open (State.goto { s with nthread := s.nthread + 1, mutex := none } x (.waiting false)) := by
  refine ⟨?_, ?_⟩
  · intro y
    by_cases hy : y = x
    · subst hy
      have hx := h.phase y
      rw [hp] at hx
      simp only [State.goto, Function.update_self]
      exact hx
    · simp only [State.goto, Function.update_of_ne hy]
      exact h.phase y
  · have hnot : x ∉ s.waiters := by simp [mem_waiters, hp]
    have hins : (State.goto { s with nthread := s.nthread + 1, mutex := none } x
        (.waiting false)).waiters = insert x s.waiters := by
      ext y
      rw [mem_waiters, Finset.mem_insert, mem_waiters]
      simp only [State.goto]
      by_cases hy : y = x
      · subst hy
        simp
      · simp [hy]
    rw [hins, Finset.card_insert_of_notMem hnot, ← h.count]
    rfl

/-- The last arrival finds all other threads waiting. -/
theorem Open.closing (h : Open s) (hp : s.pc x = .arrive) (hlast : ¬s.nthread + 1 < n) :
    Closing (State.goto { s with nthread := s.nthread + 1 } x .reset) x := by
  have hnot : x ∉ s.waiters := by simp [mem_waiters, hp]
  have hle : (insert x s.waiters).card ≤ n := by
    exact (Finset.card_le_univ _).trans (Fintype.card_fin n).le
  rw [Finset.card_insert_of_notMem hnot, ← h.count] at hle
  have hall : insert x s.waiters = Finset.univ := by
    apply Finset.eq_univ_of_card
    rw [Finset.card_insert_of_notMem hnot, ← h.count, Fintype.card_fin]
    omega
  have hx := h.phase x
  rw [hp] at hx
  simp only [InRound] at hx
  refine ⟨?_, Or.inl ⟨Function.update_self _ _ _, ?_, hx.symm⟩⟩
  · intro y hy
    have hw : y ∈ s.waiters := by
      have hm : y ∈ insert x s.waiters := by rw [hall]; exact Finset.mem_univ y
      exact (Finset.mem_insert.mp hm).resolve_left hy
    have hpy : s.pc y = .waiting false := (mem_waiters s y).mp hw
    have hiy := h.phase y
    rw [hpy] at hiy
    simp only [InRound] at hiy
    refine ⟨?_, hiy.trans hx.symm⟩
    simp only [State.goto, Function.update_of_ne hy]
    exact hpy
  · simp only [State.goto]
    omega

/-- The broadcast opens the next round. -/
theorem Closing.open (h : Closing s x) (hp : s.pc x = .broadcast) :
    Open (State.goto { s with pc := fun y => (s.pc y).signal } x .unlock) := by
  obtain ⟨hc, hr⟩ : s.nthread = 0 ∧ s.round = s.i x + 1 := by
    rcases h.last with ⟨hp', -⟩ | ⟨hp', -⟩ | ⟨-, hc⟩
    · rw [hp] at hp'
      cases hp'
    · rw [hp] at hp'
      cases hp'
    · exact hc
  have hpc (y : Fin n) (hy : y ≠ x) : (State.goto { s with pc := fun y => (s.pc y).signal } x
      .unlock).pc y = .waiting true := by
    simp only [State.goto, Function.update_of_ne hy, (h.others y hy).1]
    rfl
  refine ⟨?_, ?_⟩
  · intro y
    by_cases hy : y = x
    · subst hy
      simp only [State.goto, Function.update_self]
      exact hr.symm
    · rw [hpc y hy]
      simp only [State.goto, InRound]
      rw [(h.others y hy).2, hr]
  · have hnone : (State.goto { s with pc := fun y => (s.pc y).signal } x .unlock).waiters = ∅ := by
      apply Finset.filter_eq_empty_iff.mpr
      intro y _
      by_cases hy : y = x
      · subst hy
        simp [State.goto]
      · rw [hpc y hy]
        simp
    rw [hnone, Finset.card_empty]
    exact hc

/-- While a round is closed only its last arrival moves. -/
theorem Closing.only (h : Closing s x) (y : Fin n) (hy : s.pc y ≠ .waiting false) : y = x := by
  by_contra hyx
  exact hy (h.others y hyx).1

theorem step_inv (rounds : Nat) (s : State n) (x : Fin n) (t : State n) (h : Inv s)
    (hg : Signalled s x) (ht : step rounds s x = some t) : Inv t := by
  unfold step at ht
  rw [if_neg (by simp [h.asserts])] at ht
  have hpc (q : PC) (y : Fin n) (hy : y ≠ x) : Function.update s.pc x q y = s.pc y :=
    Function.update_of_ne hy _ _
  have hi (k : Nat) (y : Fin n) (hy : y ≠ x) : Function.update s.i x k y = s.i y :=
    Function.update_of_ne hy _ _
  -- outside the last thread's steps the round is open; in them this thread closes it
  have hopen (hr : s.pc x ≠ .reset) (hb : s.pc x ≠ .bump) (hc : s.pc x ≠ .broadcast) :
      Open s := by
    rcases h.stage with ho | ⟨z, hz⟩
    · exact ho
    · have hxz := hz.only x hg
      subst hxz
      rcases hz.last with ⟨hp, -⟩ | ⟨hp, -⟩ | ⟨hp, -⟩
      · exact absurd hp hr
      · exact absurd hp hb
      · exact absurd hp hc
  have hclosing (hx : ¬InRound s.round (s.i x) (s.pc x)) : Closing s x := by
    rcases h.stage with ho | ⟨z, hz⟩
    · exact absurd (ho.phase x) hx
    · rw [hz.only x hg]
      exact hz
  cases hp : s.pc x with
  | check =>
    have ho := hopen (by simp [hp]) (by simp [hp]) (by simp [hp])
    have hx := ho.phase x
    simp only [hp] at ht hx
    split_ifs at ht with hlt he
    · cases ht
      refine ⟨h.mutex_step (x := x) (fun y hy => by simp [State.goto, hpc _ y hy])
        (Or.inr (Or.inr rfl)) (by simp [State.goto, PC.locked]), h.asserts, Or.inl ?_⟩
      exact ho.step (x := x) rfl (fun y hy => ⟨hpc _ y hy, rfl⟩)
        (by simpa [State.goto, InRound] using hx)
        (by simp [hp]) (by simp [State.goto]) rfl
    · exact absurd hx he
    · cases ht
      refine ⟨h.mutex_step (x := x) (fun y hy => by simp [State.goto, hpc _ y hy])
        (Or.inr (Or.inr rfl)) (by simp [State.goto, PC.locked]), h.asserts, Or.inl ?_⟩
      exact ho.step (x := x) rfl (fun y hy => ⟨hpc _ y hy, rfl⟩)
        (by simpa [State.goto, InRound] using hx)
        (by simp [hp]) (by simp [State.goto]) rfl
  | lock =>
    have ho := hopen (by simp [hp]) (by simp [hp]) (by simp [hp])
    have hx := ho.phase x
    simp only [hp] at ht hx
    split_ifs at ht with hm
    cases ht
    refine ⟨h.mutex_step (x := x) (fun y hy => by simp [State.goto, hpc _ y hy])
      (Or.inr (Or.inl hm)) (fun _ => rfl), h.asserts, Or.inl ?_⟩
    exact ho.step (x := x) rfl (fun y hy => ⟨hpc _ y hy, rfl⟩)
      (by simpa [State.goto, InRound] using hx)
      (by simp [hp]) (by simp [State.goto]) rfl
  | arrive =>
    have hm := h.mutex x (by rw [hp]; rfl)
    have ho := hopen (by simp [hp]) (by simp [hp]) (by simp [hp])
    simp only [hp] at ht
    split_ifs at ht with hlt
    · cases ht
      exact ⟨h.mutex_step (x := x) (fun y hy => by simp [State.goto, hpc _ y hy]) (Or.inl hm)
        (by simp [State.goto, PC.locked]), h.asserts, Or.inl (ho.arrive hp)⟩
    · cases ht
      exact ⟨h.mutex_step (x := x) (fun y hy => by simp [State.goto, hpc _ y hy]) (Or.inl hm)
        (fun _ => hm), h.asserts, Or.inr ⟨x, ho.closing hp hlt⟩⟩
  | waiting b =>
    cases b with
    -- a thread that no broadcast has woken does not step
    | false => exact absurd hp hg
    | true =>
      have ho := hopen (by simp [hp]) (by simp [hp]) (by simp [hp])
      have hx := ho.phase x
      simp only [hp] at ht hx
      split_ifs at ht with hm
      cases ht
      refine ⟨h.mutex_step (x := x) (fun y hy => by simp [State.goto, hpc _ y hy])
        (Or.inr (Or.inl hm)) (fun _ => rfl), h.asserts, Or.inl ?_⟩
      exact ho.step (x := x) rfl (fun y hy => ⟨hpc _ y hy, rfl⟩)
        (by simpa [State.goto, InRound] using hx)
        (by simp [hp]) (by simp [State.goto]) rfl
  | reset =>
    have hm := h.mutex x (by rw [hp]; rfl)
    have hc := hclosing (by simp [hp, InRound])
    simp only [hp] at ht
    cases ht
    refine ⟨h.mutex_step (x := x) (fun y hy => by simp [State.goto, hpc _ y hy]) (Or.inl hm)
      (fun _ => hm), h.asserts, Or.inr ⟨x, ?_, Or.inr (Or.inl ⟨?_, rfl, ?_⟩)⟩⟩
    · intro y hy
      simp only [State.goto, hpc _ y hy]
      exact hc.others y hy
    · exact Function.update_self _ _ _
    · rcases hc.last with ⟨-, -, hr⟩ | ⟨hp', -⟩ | ⟨hp', -⟩
      · exact hr
      · rw [hp] at hp'
        cases hp'
      · rw [hp] at hp'
        cases hp'
  | bump =>
    have hm := h.mutex x (by rw [hp]; rfl)
    have hc := hclosing (by simp [hp, InRound])
    simp only [hp] at ht
    cases ht
    refine ⟨h.mutex_step (x := x) (fun y hy => by simp [State.goto, hpc _ y hy]) (Or.inl hm)
      (fun _ => hm), h.asserts, Or.inr ⟨x, ?_, Or.inr (Or.inr ⟨?_, ?_⟩)⟩⟩
    · intro y hy
      simp only [State.goto, hpc _ y hy]
      exact hc.others y hy
    · exact Function.update_self _ _ _
    · rcases hc.last with ⟨hp', -⟩ | ⟨-, hn, hr⟩ | ⟨hp', -⟩
      · rw [hp] at hp'
        cases hp'
      · exact ⟨hn, congrArg (· + 1) hr⟩
      · rw [hp] at hp'
        cases hp'
  | broadcast =>
    have hm := h.mutex x (by rw [hp]; rfl)
    have hc := hclosing (by simp [hp, InRound])
    simp only [hp] at ht
    cases ht
    refine ⟨h.mutex_step (x := x) ?_ (Or.inl hm) (fun _ => hm), h.asserts,
      Or.inl (hc.open hp)⟩
    intro y hy
    simp only [State.goto, Function.update_of_ne hy]
    cases s.pc y <;> rfl
  | unlock =>
    have hm := h.mutex x (by rw [hp]; rfl)
    have ho := hopen (by simp [hp]) (by simp [hp]) (by simp [hp])
    have hx := ho.phase x
    simp only [hp] at ht hx
    cases ht
    refine ⟨h.mutex_step (x := x) (fun y hy => by simp [State.goto, hpc _ y hy]) (Or.inl hm)
      (by simp [State.goto, PC.locked]), h.asserts, Or.inl ?_⟩
    exact ho.step (x := x) rfl (fun y hy => ⟨hpc _ y hy, hi _ y hy⟩)
      (by simpa [State.goto, InRound] using hx) (by simp [hp]) (by simp [State.goto]) rfl
  | done =>
    simp only [hp] at ht
    cases ht

theorem init_inv : Inv (init n) := by
  refine ⟨?_, rfl, Or.inl ⟨fun _ => rfl, ?_⟩⟩
  · intro x hx
    cases hx
  · have hnone : (init n).waiters = ∅ := by
      apply Finset.filter_eq_empty_iff.mpr
      intro y _
      simp [init]
    rw [hnone]
    rfl

end Steps

/-- The threads stay together in every run in which pthread_cond_wait comes back only after a
broadcast. -/
theorem barrier_together (rounds : Nat) (xs : List (Fin n)) (s : State n)
    (hg : Guarded (step rounds) Signalled (init n) xs)
    (hr : run (step rounds) (init n) xs = some s) : Safe s :=
  (guarded_run_invariant (step rounds) Signalled Inv (step_inv rounds) (init n) s xs init_inv
    hg hr).safe

/-- Two threads; thread 1 ends the first round and thread 0 goes on after the broadcast. -/
def firstRound : List (Fin 2) := [0, 0, 0, 1, 1, 1, 1, 1, 1, 1, 1, 0, 0, 0]

theorem barrier_together_firstRound :
    ∃ s, run (step 20000) (init 2) firstRound = some s ∧ Safe s := by
  have hr : (run (step 20000) (init 2) firstRound).isSome := by decide
  obtain ⟨s, hs⟩ := Option.isSome_iff_exists.mp hr
  exact ⟨s, hs, barrier_together 20000 firstRound s (by decide) hs⟩

/-- Thread 0 arrives, and its pthread_cond_wait comes back without a broadcast: it leaves the
barrier alone, and its next assertion fails. -/
theorem spurious_wakeup_breaks : ¬∀ (n rounds : Nat) (xs : List (Fin n)) (s : State n), 0 < n →
    run (step rounds) (init n) xs = some s → Safe s := by
  intro hall
  have hr : ((run (step 20000) (init 2) [0, 0, 0, 0, 0, 0]).map (fun s => s.aborted)) =
      some true := by decide
  obtain ⟨s, hs, ha⟩ := Option.map_eq_some_iff.mp hr
  have hsafe := hall 2 20000 _ s (by decide) hs
  rw [hsafe.asserts] at ha
  cases ha

end Xv6Labs.Barrier
