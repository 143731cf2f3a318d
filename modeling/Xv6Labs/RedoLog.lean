import Mathlib.Logic.Function.Basic
import Mathlib.Data.List.Basic

/-! Redo logging over an arbitrary store. A transaction is a list of stores; the log holds
the new values of the cells `H`, and replaying it makes the store equal to the state after
the transaction, however often and however far it was replayed before. -/
namespace Xv6Labs

section Replay

variable {ι β : Type*}

/-- The log area holds the values that `base` has at the cells `H`; outside `H` the store
already is `base`. `P` tells the cells that belong to the store. -/
structure Redo (P : ι → Prop) (log : Nat → β) (store base : ι → β) (H : List ι) : Prop where
  inside : ∀ b ∈ H, P b
  copies : ∀ j b, H[j]? = some b → log j = base b
  rest : ∀ b, P b → b ∉ H → store b = base b

/-- The first `n` blocks of the log have been installed. -/
def Installed (store base : ι → β) (H : List ι) (n : Nat) : Prop :=
  ∀ b ∈ H.take n, store b = base b

variable {P : ι → Prop} {log : Nat → β} {store base : ι → β} {H : List ι}

theorem Redo.of_eq (h : ∀ b, P b → store b = base b) : Redo P log store base [] := by
  refine ⟨?_, ?_, fun b hb _ => h b hb⟩
  · intro b hb
    cases hb
  · intro j b hb
    simp at hb

theorem Installed.zero : Installed store base H 0 := by
  intro b hb
  simp at hb

/-- A log that is installed to its end has made the store equal to the base. -/
theorem Redo.eq_of_installed (h : Redo P log store base H) (hi : Installed store base H H.length)
    (b : ι) (hb : P b) : store b = base b := by
  by_cases hm : b ∈ H
  · apply hi
    rwa [List.take_length]
  · exact h.rest b hb hm

variable [DecidableEq ι]

/-- The store after a list of writes. -/
def applyWrites (f : ι → β) (ws : List (ι × β)) : ι → β :=
  ws.foldl (fun f w => Function.update f w.1 w.2) f

theorem applyWrites_concat (f : ι → β) (ws : List (ι × β)) (w : ι × β) :
    applyWrites f (ws ++ [w]) = Function.update (applyWrites f ws) w.1 w.2 := by
  simp only [applyWrites, List.foldl_append, List.foldl_cons, List.foldl_nil]

theorem applyWrites_of_not_mem (f : ι → β) (ws : List (ι × β)) (b : ι)
    (h : ∀ w ∈ ws, w.1 ≠ b) : applyWrites f ws b = f b := by
  induction ws generalizing f with
  | nil => rfl
  | cons w ws ih =>
    have hw : b ≠ w.1 := (h w (by simp)).symm
    change applyWrites (Function.update f w.1 w.2) ws b = f b
    rw [ih _ (fun v hv => h v (by simp [hv])), Function.update_of_ne hw]

/-- The commit point: the new values are in the log and the store is still the old one. -/
theorem Redo.commit (ws : List (ι × β)) (h : ∀ b, P b → store b = base b)
    (hin : ∀ b ∈ H, P b) (hws : ∀ w ∈ ws, w.1 ∈ H)
    (hlog : ∀ j b, H[j]? = some b → log j = applyWrites base ws b) :
    Redo P log store (applyWrites base ws) H := by
  refine ⟨hin, hlog, ?_⟩
  intro b hb hn
  rw [h b hb, applyWrites_of_not_mem]
  intro w hw he
  exact hn (he ▸ hws w hw)

/-- Installing one block keeps the log replayable. -/
theorem Redo.install (h : Redo P log store base H) (j : Nat) (b : ι) (hj : H[j]? = some b) :
    Redo P log (Function.update store b (log j)) base H := by
  refine ⟨h.inside, h.copies, ?_⟩
  intro c hc hn
  have hcb : c ≠ b := by
    intro he
    exact hn (he ▸ List.mem_of_getElem? hj)
  rw [Function.update_of_ne hcb]
  exact h.rest c hc hn

theorem Installed.succ (h : Redo P log store base H) (n : Nat) (b : ι)
    (hi : Installed store base H n) (hn : H[n]? = some b) :
    Installed (Function.update store b (log n)) base H (n+1) := by
  intro c hc
  by_cases hcb : c = b
  · subst hcb
    rw [Function.update_self]
    exact h.copies n c hn
  · rw [Function.update_of_ne hcb]
    apply hi
    rw [List.take_add_one, hn, List.mem_append] at hc
    rcases hc with hc | hc
    · exact hc
    · exact absurd (List.mem_singleton.mp hc) hcb

end Replay

end Xv6Labs
