import Mathlib.Data.List.Basic

/-! Rules for computations that return a value or stop with an error: what holds of the value,
and which errors may come. -/
namespace Xv6Labs

section Outcomes

variable {ε α β : Type} {E : ε → Prop} {Q : α → Prop} {R : β → Prop}

/-- A value meets `Q`, an error meets `E`. -/
def Yields (E : ε → Prop) (Q : α → Prop) : Except ε α → Prop
  | .ok a => Q a
  | .error e => E e

instance [DecidablePred E] [DecidablePred Q] : (r : Except ε α) → Decidable (Yields E Q r)
  | .ok a => inferInstanceAs (Decidable (Q a))
  | .error e => inferInstanceAs (Decidable (E e))

@[simp] theorem yields_ok (a : α) : Yields E Q (.ok a) ↔ Q a := Iff.rfl

@[simp] theorem yields_error (e : ε) : Yields E Q (.error e : Except ε α) ↔ E e := Iff.rfl

theorem Yields.bind {r : Except ε α} {f : α → Except ε β} (h : Yields E Q r)
    (hf : ∀ a, Q a → Yields E R (f a)) : Yields E R (r >>= f) := by
  cases r with
  | error e => exact h
  | ok a => exact hf a h

theorem Yields.mono {Q' : α → Prop} {r : Except ε α} (h : Yields E Q r)
    (hQ : ∀ a, Q a → Q' a) : Yields E Q' r := by
  cases r with
  | error e => exact h
  | ok a => exact hQ a h

theorem Yields.weaken {E' : ε → Prop} {r : Except ε α} (h : Yields E Q r)
    (hE : ∀ e, E e → E' e) : Yields E' Q r := by
  cases r with
  | error e => exact hE e h
  | ok a => exact h

theorem Yields.and {Q' : α → Prop} {r : Except ε α} (h : Yields E Q r) (h' : Yields E Q' r) :
    Yields E (fun a => Q a ∧ Q' a) r := by
  cases r with
  | error e => exact h
  | ok a => exact ⟨h, h'⟩

/-- One result says which errors may come, the other is about the value only. -/
theorem Yields.any_and {Q' : α → Prop} {r : Except ε α} (h : Yields (fun _ => True) Q r)
    (h' : Yields E Q' r) : Yields E (fun a => Q a ∧ Q' a) r := by
  cases r with
  | error e => exact h'
  | ok a => exact ⟨h, h'⟩

theorem Yields.of_ok {r : Except ε α} {a : α} (h : Yields E Q r) (hr : r = .ok a) : Q a := by
  rw [hr] at h
  exact h

theorem Yields.of_error {r : Except ε α} {e : ε} (h : Yields E Q r) (hr : r = .error e) : E e := by
  rw [hr] at h
  exact h

/-- When no error is allowed there is a value. -/
theorem Yields.exists_ok {r : Except ε α} (h : Yields (fun _ => False) Q r) :
    ∃ a, r = .ok a ∧ Q a := by
  cases r with
  | error e => exact absurd h id
  | ok a => exact ⟨a, rfl, h⟩

theorem yields_trivial (r : Except ε α) : Yields (fun _ => True) (fun _ => True) r := by
  cases r <;> trivial

/-- What every round keeps holds after a loop; `I` may depend on the rounds that are left. -/
theorem yields_foldlM {f : α → β → Except ε α} (I : List β → α → Prop)
    (hstep : ∀ b l a, I (b :: l) a → Yields E (I l) (f a b)) (l : List β) (a : α) (h : I l a) :
    Yields E (I []) (l.foldlM f a) := by
  induction l generalizing a with
  | nil => exact h
  | cons b l ih =>
    rw [List.foldlM_cons]
    exact (hstep b l a h).bind (fun a' h' => ih a' h')

end Outcomes

end Xv6Labs
