import Mathlib.Data.List.Induction
import Mathlib.Logic.Function.Basic

/-! Trees of nodes in a memory: a node is a table of words, and a word may refer to another node.
Nodes are found by the list of indices that leads to them from the root. -/
namespace Xv6Labs

section NodePaths

variable {P I W : Type*} {next : W → Option P} {mem : P → I → W} {root t p : P} {d : Nat}

/-- The node that a list of indices leads to. -/
def follow (next : W → Option P) (mem : P → I → W) : P → List I → Option P
  | t, [] => some t
  | t, i :: is => (next (mem t i)).bind (fun u => follow next mem u is)

/-- Different ways of at most `d` steps lead to different nodes. -/
def Unshared (next : W → Option P) (mem : P → I → W) (root : P) (d : Nat) : Prop :=
  ∀ is js p, is.length ≤ d → js.length ≤ d → follow next mem root is = some p →
    follow next mem root js = some p → is = js

/-- No way of at most `d` steps leads to `p`. -/
def Unreached (next : W → Option P) (mem : P → I → W) (root : P) (d : Nat) (p : P) : Prop :=
  ∀ is, is.length ≤ d → follow next mem root is ≠ some p

theorem follow_snoc (is : List I) (i : I) :
    follow next mem root (is ++ [i]) =
      (follow next mem root is).bind (fun u => next (mem u i)) := by
  induction is generalizing root with
  | nil =>
    simp only [List.nil_append, follow, Option.bind_some]
    cases next (mem root i) <;> rfl
  | cons j is ih =>
    simp only [List.cons_append, follow]
    cases next (mem root j) with
    | none => rfl
    | some u => exact ih

/-- Nodes that no shorter way leads to may change. -/
theorem follow_of_eq {mem' : P → I → W} (is : List I) (hlen : is.length ≤ d)
    (h : ∀ js u, js.length < d → follow next mem root js = some u → mem' u = mem u) :
    follow next mem' root is = follow next mem root is := by
  induction is using List.reverseRecOn with
  | nil => rfl
  | append_singleton js i ih =>
    rw [List.length_append, List.length_singleton] at hlen
    rw [follow_snoc, follow_snoc, ih (by omega)]
    cases hjs : follow next mem root js with
    | none => rfl
    | some u => simp only [Option.bind_some, h js u (by omega) hjs]

variable [DecidableEq P] [DecidableEq I]

/-- A word is written. -/
def writeWord (mem : P → I → W) (t : P) (i : I) (w : W) : P → I → W :=
  Function.update mem t (Function.update (mem t) i w)

theorem writeWord_self (mem : P → I → W) (t : P) (i : I) (w : W) :
    writeWord mem t i w t i = w := by
  unfold writeWord
  rw [Function.update_self, Function.update_self]

theorem writeWord_other {u : P} {j : I} (h : u ≠ t ∨ j ≠ i) (w : W) :
    writeWord mem t i w u j = mem u j := by
  unfold writeWord
  by_cases hu : u = t
  · subst hu
    rw [Function.update_self, Function.update_of_ne (h.resolve_left (fun hne => hne rfl))]
  · rw [Function.update_of_ne hu]

/-- Words of the deepest nodes play no part in the ways. -/
theorem follow_write (h : Unshared next mem root d) {ks : List I} (hks : ks.length = d)
    (ht : follow next mem root ks = some t) (i : I) (w : W) (is : List I) (hlen : is.length ≤ d) :
    follow next (writeWord mem t i w) root is = follow next mem root is := by
  apply follow_of_eq is hlen
  intro js u hjs hu
  have hne : u ≠ t := by
    rintro rfl
    have heq := h js ks u (by omega) (by omega) hu ht
    rw [heq] at hjs
    omega
  unfold writeWord
  rw [Function.update_of_ne hne]

/-- A new empty node is linked where there was none. -/
theorem follow_alloc (h : Unshared next mem root d) {ks : List I} (hks : ks.length < d)
    (ht : follow next mem root ks = some t) {i : I} (hi : next (mem t i) = none)
    (hp : Unreached next mem root d p) {zero w : W} (hzero : next zero = none)
    (hw : next w = some p) (is : List I) (hlen : is.length ≤ d) :
    follow next (writeWord (Function.update mem p (fun _ => zero)) t i w) root is =
      if is = ks ++ [i] then some p else follow next mem root is := by
  have hpt : p ≠ t := fun heq => hp ks (by omega) (heq ▸ ht)
  induction is using List.reverseRecOn with
  | nil =>
    rw [if_neg (by simp)]
    rfl
  | append_singleton js j ih =>
    rw [List.length_append, List.length_singleton] at hlen
    rw [follow_snoc, ih (by omega)]
    by_cases hjs : js = ks ++ [i]
    · -- below the new node there is nothing
      have hnone : follow next mem root (js ++ [j]) = none := by
        rw [follow_snoc, hjs, follow_snoc, ht, Option.bind_some, hi]
        rfl
      rw [if_pos hjs, if_neg (by rw [hjs]; simp), hnone, Option.bind_some,
        writeWord_other (Or.inl hpt), Function.update_self, hzero]
    · rw [if_neg hjs]
      cases hu : follow next mem root js with
      | none =>
        have hne : js ++ [j] ≠ ks ++ [i] := by
          intro heq
          obtain ⟨rfl, -⟩ := List.append_inj' heq rfl
          rw [ht] at hu
          cases hu
        rw [if_neg hne, follow_snoc, hu]
        rfl
      | some u =>
        have hup : u ≠ p := fun heq => hp js (by omega) (heq ▸ hu)
        rw [Option.bind_some]
        by_cases hat : u = t ∧ j = i
        · obtain ⟨rfl, rfl⟩ := hat
          have heq := h js ks u (by omega) (by omega) hu ht
          rw [writeWord_self, hw, if_pos (by rw [heq])]
        · have hne : js ++ [j] ≠ ks ++ [i] := by
            intro heq
            obtain ⟨rfl, hji⟩ := List.append_inj' heq rfl
            rw [ht] at hu
            cases hu
            exact hat ⟨rfl, List.singleton_inj.mp hji⟩
          have hor : u ≠ t ∨ j ≠ i := by
            by_contra hn
            push Not at hn
            exact hat hn
          rw [if_neg hne, writeWord_other hor, Function.update_of_ne hup, follow_snoc, hu]
          rfl

theorem Unshared.alloc (h : Unshared next mem root d) {ks : List I} (hks : ks.length < d)
    (ht : follow next mem root ks = some t) {i : I} (hi : next (mem t i) = none)
    (hp : Unreached next mem root d p) {zero w : W} (hzero : next zero = none)
    (hw : next w = some p) :
    Unshared next (writeWord (Function.update mem p (fun _ => zero)) t i w) root d := by
  intro is js q his hjs hq hq'
  rw [follow_alloc h hks ht hi hp hzero hw _ his] at hq
  rw [follow_alloc h hks ht hi hp hzero hw _ hjs] at hq'
  by_cases h1 : is = ks ++ [i]
  · by_cases h2 : js = ks ++ [i]
    · rw [h1, h2]
    · rw [if_pos h1] at hq
      rw [if_neg h2] at hq'
      cases hq
      exact absurd hq' (hp js hjs)
  · rw [if_neg h1] at hq
    by_cases h2 : js = ks ++ [i]
    · rw [if_pos h2] at hq'
      cases hq'
      exact absurd hq (hp is his)
    · rw [if_neg h2] at hq'
      exact h is js q his hjs hq hq'

end NodePaths

end Xv6Labs
