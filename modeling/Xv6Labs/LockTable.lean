import Mathlib.Logic.Function.Basic
import Mathlib.Logic.Relation
import Mathlib.Data.List.Basic
import Mathlib.Data.Fintype.Card
import Mathlib.Order.WellFounded

/-! A table of locks and the lists of locks that the holders believe to have, and the graph of
who waits for whom. -/
namespace Xv6Labs

section LockTable

variable {ι κ : Type*} [DecidableEq ι] [DecidableEq κ]

/-- Lock `i` is taken by `c` exactly when `c` has it on its list. -/
def Agree (lock : ι → Option κ) (held : κ → List ι) : Prop :=
  ∀ i c, lock i = some c ↔ i ∈ held c

variable {lock : ι → Option κ} {held : κ → List ι}

omit [DecidableEq ι] [DecidableEq κ] in
theorem Agree.unique (h : Agree lock held) (i : ι) (c d : κ) (hc : i ∈ held c)
    (hd : i ∈ held d) : d = c := by
  have h1 := (h i c).mpr hc
  rw [(h i d).mpr hd] at h1
  exact Option.some.inj h1

omit [DecidableEq ι] in
/-- A step of `c` that takes and gives no lock. -/
theorem Agree.keep (h : Agree lock held) (c : κ) (l : List ι) (hl : ∀ j, j ∈ l ↔ j ∈ held c) :
    Agree lock (Function.update held c l) := by
  intro j d
  by_cases hd : d = c
  · subst hd
    rw [Function.update_self, hl]
    exact h j d
  · rw [Function.update_of_ne hd]
    exact h j d

theorem Agree.acquire (h : Agree lock held) (c : κ) (i : ι) (l : List ι) (hfree : lock i = none)
    (hl : ∀ j, j ∈ l ↔ j = i ∨ j ∈ held c) :
    Agree (Function.update lock i (some c)) (Function.update held c l) := by
  intro j d
  by_cases hj : j = i
  · subst hj
    rw [Function.update_self, Option.some.injEq]
    by_cases hd : d = c
    · subst hd
      rw [Function.update_self, hl]
      simp
    · rw [Function.update_of_ne hd, ← h j d, hfree]
      simp [Ne.symm hd]
  · rw [Function.update_of_ne hj, h j d]
    by_cases hd : d = c
    · subst hd
      rw [Function.update_self, hl]
      simp [hj]
    · rw [Function.update_of_ne hd]

theorem Agree.release (h : Agree lock held) (c : κ) (i : ι) (l : List ι)
    (hl : ∀ j, j ∈ held c ↔ j = i ∨ j ∈ l) (hi : i ∉ l) :
    Agree (Function.update lock i none) (Function.update held c l) := by
  intro j d
  by_cases hj : j = i
  · subst hj
    rw [Function.update_self]
    by_cases hd : d = c
    · subst hd
      rw [Function.update_self]
      simp [hi]
    · rw [Function.update_of_ne hd]
      have hc : j ∈ held c := (hl j).mpr (Or.inl rfl)
      constructor
      · intro hn
        cases hn
      · intro hdj
        exact absurd (h.unique j c d hc hdj) hd
  · rw [Function.update_of_ne hj, h j d]
    by_cases hd : d = c
    · subst hd
      rw [Function.update_self, hl]
      simp [hj]
    · rw [Function.update_of_ne hd]

/-- A step that takes a lock has found it free. -/
theorem acquire_map {σ : Type*} {free : Prop} [Decidable free] {a t : σ} {f : σ → σ}
    (h : (if free then some a else none).map f = some t) : free ∧ t = f a := by
  split_ifs at h with hfree
  · exact ⟨hfree, (Option.some.inj h).symm⟩
  · cases h

end LockTable

section WaitGraph

variable {κ : Type*} {R R' : κ → κ → Prop} {a x y : κ}

/-- Nobody waits for itself, not even through others. -/
def Acyclic (R : κ → κ → Prop) : Prop := ∀ x, ¬Relation.TransGen R x x

theorem Acyclic.mono (h : Acyclic R) (hR : ∀ x y, R' x y → R x y) : Acyclic R' :=
  fun x hx => h x (Relation.TransGen.mono hR x x hx)

/-- A way in a graph with more edges out of `a`, but none into it. -/
theorem transGen_from (hR : ∀ x y, R' x y → R x y ∨ x = a) (hinto : ∀ x, ¬R' x a)
    (h : Relation.TransGen R' x y) : y ≠ a ∧ (x = a ∨ Relation.TransGen R x y) := by
  induction h with
  | single hstep =>
    refine ⟨fun hy => hinto _ (hy ▸ hstep), ?_⟩
    rcases hR _ _ hstep with hold | hx
    · exact Or.inr (Relation.TransGen.single hold)
    · exact Or.inl hx
  | tail _ hstep ih =>
    obtain ⟨hb, hway⟩ := ih
    refine ⟨fun hy => hinto _ (hy ▸ hstep), hway.imp_right (fun hway => ?_)⟩
    exact hway.tail ((hR _ _ hstep).resolve_right hb)

/-- New edges out of a point that nobody waits for make no cycle. -/
theorem Acyclic.source (h : Acyclic R) (hR : ∀ x y, R' x y → R x y ∨ x = a)
    (hinto : ∀ x, ¬R' x a) : Acyclic R' := by
  intro x hx
  obtain ⟨hne, hway⟩ := transGen_from hR hinto hx
  exact h x (hway.resolve_left hne)

/-- Without a cycle, somebody of every set waits for nobody of it. -/
theorem Acyclic.exists_sink [Finite κ] (h : Acyclic R) {S : Set κ} (hS : S.Nonempty) :
    ∃ x ∈ S, ∀ y ∈ S, ¬R x y := by
  have : IsTrans κ (Relation.TransGen (fun x y => R y x)) := ⟨fun _ _ _ => Relation.TransGen.trans⟩
  have : Std.Irrefl (Relation.TransGen (fun x y => R y x)) :=
    ⟨fun x hx => h x (Relation.transGen_swap.mp hx)⟩
  have hwf := Finite.wellFounded_of_trans_of_irrefl (Relation.TransGen (fun x y => R y x))
  obtain ⟨x, hx, hmin⟩ := hwf.has_min S hS
  exact ⟨x, hx, fun y hy hxy => hmin y hy (Relation.TransGen.single hxy)⟩

end WaitGraph

end Xv6Labs
