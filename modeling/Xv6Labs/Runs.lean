import Mathlib.Data.List.Basic
import Mathlib.Data.Option.Basic
import Mathlib.Algebra.GroupWithZero.Nat

/-! Runs of a partial step function, and the induction over a run that every
safety result uses. A step that answers `none` has stopped the machine. The last
section takes computations with errors apart. -/
namespace Xv6Labs

section Runs

variable {σ ε : Type*}

/-- The state after a list of events, or `none` when some step stopped. -/
def run (step : σ → ε → Option σ) : σ → List ε → Option σ
  | s, [] => some s
  | s, e :: es => (step s e).bind (fun t => run step t es)

/-- Every step of the run meets `guard` in the state it is taken from. -/
def Guarded (step : σ → ε → Option σ) (guard : σ → ε → Prop) : σ → List ε → Prop
  | _, [] => True
  | s, e :: es => guard s e ∧ ∀ t, step s e = some t → Guarded step guard t es

instance instDecidableGuarded (step : σ → ε → Option σ) (guard : σ → ε → Prop)
    [∀ s e, Decidable (guard s e)] :
    ∀ s es, Decidable (Guarded step guard s es)
  | _, [] => isTrue trivial
  | s, e :: es =>
    match h : step s e with
    | none => decidable_of_iff (guard s e) (by simp [Guarded, h])
    | some t =>
      have := instDecidableGuarded step guard t es
      decidable_of_iff (guard s e ∧ Guarded step guard t es) (by simp [Guarded, h])

theorem run_cons (step : σ → ε → Option σ) (s u : σ) (e : ε) (es : List ε) :
    run step s (e :: es) = some u ↔ ∃ t, step s e = some t ∧ run step t es = some u := by
  simp only [run, Option.bind_eq_some_iff]

theorem run_append (step : σ → ε → Option σ) (s u : σ) (es fs : List ε) :
    run step s (es ++ fs) = some u ↔ ∃ t, run step s es = some t ∧ run step t fs = some u := by
  induction es generalizing s with
  | nil => simp [run]
  | cons e es ih =>
    simp only [List.cons_append, run_cons, ih]
    constructor
    · rintro ⟨t, ht, v, hv, hu⟩
      exact ⟨v, ⟨t, ht, hv⟩, hu⟩
    · rintro ⟨v, ⟨t, ht, hv⟩, hu⟩
      exact ⟨t, ht, v, hv, hu⟩

theorem guarded_true (step : σ → ε → Option σ) (s : σ) (es : List ε) :
    Guarded step (fun _ _ => True) s es := by
  induction es generalizing s with
  | nil => trivial
  | cons e es ih => exact ⟨trivial, fun t _ => ih t⟩

/-- A property that every guarded step keeps holds after every guarded run. -/
theorem guarded_run_invariant (step : σ → ε → Option σ) (guard : σ → ε → Prop) (P : σ → Prop)
    (hstep : ∀ s e t, P s → guard s e → step s e = some t → P t) (s t : σ) (es : List ε)
    (hs : P s) (hg : Guarded step guard s es) (hr : run step s es = some t) : P t := by
  induction es generalizing s with
  | nil =>
    cases hr
    exact hs
  | cons e es ih =>
    obtain ⟨u, hu, ht⟩ := (run_cons step s t e es).mp hr
    exact ih u (hstep s e u hs hg.1 hu) (hg.2 u hu) ht

/-- A property that every guarded step keeps while it lowers a measure bounds the length of
guarded runs. -/
theorem guarded_run_measure (step : σ → ε → Option σ) (guard : σ → ε → Prop) (P : σ → Prop)
    (m : σ → Nat) (hstep : ∀ s e t, P s → guard s e → step s e = some t → P t ∧ m t < m s)
    (s t : σ) (es : List ε) (hs : P s) (hg : Guarded step guard s es)
    (hr : run step s es = some t) : P t ∧ m t + es.length ≤ m s := by
  induction es generalizing s with
  | nil =>
    cases hr
    exact ⟨hs, Nat.le_refl _⟩
  | cons e es ih =>
    obtain ⟨u, hu, ht⟩ := (run_cons step s t e es).mp hr
    obtain ⟨hP, hlt⟩ := hstep s e u hs hg.1 hu
    obtain ⟨hP', hle⟩ := ih u hP (hg.2 u hu) ht
    refine ⟨hP', ?_⟩
    rw [List.length_cons]
    omega

/-- In a guarded run, one condition on the steps gives another where the invariant does. -/
theorem guarded_imp (step : σ → ε → Option σ) (guard A B : σ → ε → Prop) (P : σ → Prop)
    (hstep : ∀ s e t, P s → guard s e → step s e = some t → P t)
    (himp : ∀ s e, P s → guard s e → A s e → B s e) (s : σ) (es : List ε) (hs : P s)
    (hg : Guarded step guard s es) (hA : Guarded step A s es) : Guarded step B s es := by
  induction es generalizing s with
  | nil => trivial
  | cons e es ih =>
    refine ⟨himp s e hs hg.1 hA.1, ?_⟩
    intro t ht
    exact ih t (hstep s e t hs hg.1 ht) (hg.2 t ht) (hA.2 t ht)

/-- A property that every step keeps holds after every run. -/
theorem run_invariant (step : σ → ε → Option σ) (P : σ → Prop)
    (hstep : ∀ s e t, P s → step s e = some t → P t) (s t : σ) (es : List ε)
    (hs : P s) (hr : run step s es = some t) : P t := by
  induction es generalizing s with
  | nil =>
    cases hr
    exact hs
  | cons e es ih =>
    obtain ⟨u, hu, ht⟩ := (run_cons step s t e es).mp hr
    exact ih u (hstep s e u hs hu) ht

end Runs

section Small

/-- The threads of a small system are written as numbers. -/
instance neZero_one : NeZero 1 := ⟨by decide⟩
instance neZero_two : NeZero 2 := ⟨by decide⟩
instance neZero_eight : NeZero 8 := ⟨by decide⟩

end Small

section Outputs

variable {σ τ ε ο : Type*}

/-- The state after a list of events and what the steps have answered. -/
def runOut (step : σ → ε → Option (σ × ο)) : σ → List ε → Option (σ × List ο)
  | s, [] => some (s, [])
  | s, e :: es =>
    (step s e).bind (fun r => (runOut step r.1 es).map (fun q => (q.1, r.2 :: q.2)))

/-- Two results with related states and the same answer. -/
def SameOut {ω : Type*} (R : σ → τ → Prop) : Option (σ × ω) → Option (τ × ω) → Prop :=
  Option.Rel (fun x y => R x.1 y.1 ∧ x.2 = y.2)

/-- Two machines that answer as a third one does. -/
theorem SameOut.join {ρ ω : Type*} {R : σ → τ → Prop} {S : ρ → τ → Prop} {x : Option (σ × ω)}
    {y : Option (ρ × ω)} {z : Option (τ × ω)} (hx : SameOut R x z) (hy : SameOut S y z) :
    SameOut (fun s u => ∃ a, R s a ∧ S u a) x y := by
  cases hx with
  | some hx =>
    cases hy with
    | some hy => exact Option.Rel.some ⟨⟨_, hx.1, hy.1⟩, hx.2.trans hy.2.symm⟩
  | none =>
    cases hy with
    | none => exact Option.Rel.none

theorem SameOut.mono {ω : Type*} {R S : σ → τ → Prop} {x : Option (σ × ω)} {y : Option (τ × ω)}
    (h : SameOut R x y) (hRS : ∀ s a, R s a → S s a) : SameOut S x y := by
  cases h with
  | some h => exact Option.Rel.some ⟨hRS _ _ h.1, h.2⟩
  | none => exact Option.Rel.none

theorem SameOut.of_some {ω : Type*} {R : σ → τ → Prop} {s : σ} {o : ω} {y : Option (τ × ω)}
    (h : SameOut R (some (s, o)) y) : ∃ a, y = some (a, o) ∧ R s a := by
  cases h with
  | some h =>
    obtain ⟨hR, ho⟩ := h
    exact ⟨_, by rw [show o = _ from ho], hR⟩

theorem SameOut.exists_right {ω : Type*} {R : σ → τ → Prop} {x : σ × ω} {y : Option (τ × ω)}
    (h : SameOut R (some x) y) : ∃ a, R x.1 a := by
  cases h with
  | some h => exact ⟨_, h.1⟩

/-- A machine that answers as another one does, step by step, answers so in every guarded
run. -/
theorem runOut_simulates (step : σ → ε → Option (σ × ο)) (astep : τ → ε → Option (τ × ο))
    (guard : σ → ε → Prop) (R : σ → τ → Prop)
    (hstep : ∀ s a e, R s a → guard s e → SameOut R (step s e) (astep a e))
    (s : σ) (a : τ) (es : List ε) (hR : R s a)
    (hg : Guarded (fun s e => (step s e).map Prod.fst) guard s es) :
    SameOut R (runOut step s es) (runOut astep a es) := by
  induction es generalizing s a with
  | nil => exact Option.Rel.some ⟨hR, rfl⟩
  | cons e es ih =>
    have h := hstep s a e hR hg.1
    simp only [runOut]
    cases hs : step s e with
    | none =>
      rw [hs] at h
      cases ha : astep a e with
      | none => exact Option.Rel.none
      | some r =>
        rw [ha] at h
        cases h
    | some r =>
      rw [hs] at h
      cases ha : astep a e with
      | none =>
        rw [ha] at h
        cases h
      | some q =>
        rw [ha] at h
        obtain ⟨h⟩ := h
        have hrest := ih r.1 q.1 h.1 (hg.2 r.1 (by simp [hs]))
        simp only [Option.bind_some]
        cases hrest' : runOut step r.1 es with
        | none =>
          rw [hrest'] at hrest
          cases ha' : runOut astep q.1 es with
          | none => exact Option.Rel.none
          | some x =>
            rw [ha'] at hrest
            cases hrest
        | some x =>
          rw [hrest'] at hrest
          cases ha' : runOut astep q.1 es with
          | none =>
            rw [ha'] at hrest
            cases hrest
          | some y =>
            rw [ha'] at hrest
            obtain ⟨hrest⟩ := hrest
            exact Option.Rel.some ⟨hrest.1, by simp [h.2, hrest.2]⟩

/-- A machine whose steps, when they answer, answer as another one's do. -/
theorem runOut_refines (step : σ → ε → Option (σ × ο)) (astep : τ → ε → Option (τ × ο))
    (R : σ → τ → Prop)
    (hstep : ∀ s a e t o, R s a → step s e = some (t, o) → ∃ b, astep a e = some (b, o) ∧ R t b)
    (s : σ) (a : τ) (es : List ε) (t : σ) (os : List ο) (hR : R s a)
    (h : runOut step s es = some (t, os)) : ∃ b, runOut astep a es = some (b, os) ∧ R t b := by
  induction es generalizing s a os with
  | nil =>
    cases h
    exact ⟨a, rfl, hR⟩
  | cons e es ih =>
    obtain ⟨⟨u, o⟩, hu, h⟩ := Option.bind_eq_some_iff.mp h
    obtain ⟨⟨v, os'⟩, hv, h⟩ := Option.map_eq_some_iff.mp h
    cases h
    obtain ⟨b, hb, hRb⟩ := hstep s a e u o hR hu
    obtain ⟨c, hc, hRc⟩ := ih u b os' hRb hv
    exact ⟨c, by simp only [runOut, hb, hc, Option.bind_some, Option.map_some], hRc⟩

/-- Two machines that both answer, and alike, in every guarded step do so in every guarded
run. -/
theorem runOut_both (step : σ → ε → Option (σ × ο)) (astep : τ → ε → Option (τ × ο))
    (guard : σ → ε → Prop) (R : σ → τ → Prop)
    (hstep : ∀ s a e, R s a → guard s e →
      ∃ t b o, step s e = some (t, o) ∧ astep a e = some (b, o) ∧ R t b)
    (s : σ) (a : τ) (es : List ε) (hR : R s a)
    (hg : Guarded (fun s e => (step s e).map Prod.fst) guard s es) :
    ∃ t b os, runOut step s es = some (t, os) ∧ runOut astep a es = some (b, os) ∧ R t b := by
  induction es generalizing s a with
  | nil => exact ⟨s, a, [], rfl, rfl, hR⟩
  | cons e es ih =>
    obtain ⟨t, b, o, ht, hb, hR'⟩ := hstep s a e hR hg.1
    obtain ⟨t', b', os, ht', hb', hR''⟩ := ih t b hR' (hg.2 t (by simp [ht]))
    refine ⟨t', b', o :: os, ?_, ?_, hR''⟩
    · simp only [runOut, ht, ht', Option.bind_some, Option.map_some]
    · simp only [runOut, hb, hb', Option.bind_some, Option.map_some]

end Outputs

section Errors

variable {ε : Type*} {α β : Type}

@[simp] theorem ok_bind (a : α) (f : α → Except ε β) : (Except.ok a >>= f) = f a := rfl

theorem bind_ok_iff (x : Except ε α) (f : α → Except ε β) (r : β) :
    x >>= f = .ok r ↔ ∃ a, x = .ok a ∧ f a = .ok r := by
  cases x with
  | error e => simp [bind, Except.bind]
  | ok a => simp [bind, Except.bind]

theorem bind_error_iff (x : Except ε α) (f : α → Except ε β) (e : ε) :
    x >>= f = .error e ↔ x = .error e ∨ ∃ a, x = .ok a ∧ f a = .error e := by
  cases x with
  | error e => simp [bind, Except.bind]
  | ok a => simp [bind, Except.bind]

end Errors

end Xv6Labs
