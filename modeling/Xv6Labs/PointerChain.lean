import Mathlib.Logic.Function.Basic
import Mathlib.Data.List.Basic
import Mathlib.Data.List.Nodup

/-! Singly-linked lists in a memory of next pointers. `Seg next null h l t` says that
following `next` from `h` visits the cells `l` and then arrives at `t`. -/
namespace Xv6Labs

section PointerChain

variable {α : Type*} (next : α → α) (null : α)

def Seg : α → List α → α → Prop
  | h, [], t => h = t
  | h, p :: l, t => h = p ∧ p ≠ null ∧ Seg (next p) l t

/-- A list that ends with the null pointer. -/
def Chain (h : α) (l : List α) : Prop := Seg next null h l null

variable {next null}

theorem Seg.append {h m t : α} {a b : List α} (ha : Seg next null h a m)
    (hb : Seg next null m b t) : Seg next null h (a ++ b) t := by
  induction a generalizing h with
  | nil =>
    cases ha
    exact hb
  | cons p a ih => exact ⟨ha.1, ha.2.1, ih ha.2.2⟩

theorem Seg.split {h t : α} {a b : List α} (hs : Seg next null h (a ++ b) t) :
    ∃ m, Seg next null h a m ∧ Seg next null m b t := by
  induction a generalizing h with
  | nil => exact ⟨h, rfl, hs⟩
  | cons p a ih =>
    obtain ⟨m, h1, h2⟩ := ih hs.2.2
    exact ⟨m, ⟨hs.1, hs.2.1, h1⟩, h2⟩

/-- A segment depends on the next pointers of its own cells only. -/
theorem Seg.congr {next' : α → α} {h t : α} {l : List α} (hs : Seg next null h l t)
    (heq : ∀ p ∈ l, next' p = next p) : Seg next' null h l t := by
  induction l generalizing h with
  | nil => exact hs
  | cons p l ih =>
    refine ⟨hs.1, hs.2.1, ?_⟩
    rw [heq p (by simp)]
    exact ih hs.2.2 (fun q hq => heq q (by simp [hq]))

theorem Seg.ne_null {h t : α} {l : List α} (hs : Seg next null h l t) (p : α) (hp : p ∈ l) :
    p ≠ null := by
  induction l generalizing h with
  | nil => cases hp
  | cons q l ih =>
    rcases List.mem_cons.mp hp with rfl | hp
    · exact hs.2.1
    · exact ih hs.2.2 hp

theorem Chain.cons {h : α} (hh : h ≠ null) {l : List α} (hs : Chain next null (next h) l) :
    Chain next null h (h :: l) := ⟨rfl, hh, hs⟩

theorem Chain.nil_of_null {l : List α} (hs : Chain next null null l) : l = [] := by
  cases l with
  | nil => rfl
  | cons p l => exact absurd hs.1.symm hs.2.1

theorem Chain.cons_of_ne {h : α} {l : List α} (hs : Chain next null h l) (hh : h ≠ null) :
    ∃ l', l = h :: l' ∧ Chain next null (next h) l' := by
  cases l with
  | nil => exact absurd hs hh
  | cons p l =>
    obtain ⟨rfl, -, hs⟩ := hs
    exact ⟨l, rfl, hs⟩

/-- The head pointer determines the list. -/
theorem Chain.unique {h : α} {l l' : List α} (hs : Chain next null h l)
    (hs' : Chain next null h l') : l = l' := by
  induction l generalizing h l' with
  | nil =>
    cases hs
    exact hs'.nil_of_null.symm
  | cons p l ih =>
    obtain ⟨rfl, hp, hs⟩ := hs
    obtain ⟨l'', rfl, hs''⟩ := hs'.cons_of_ne hp
    rw [ih hs hs'']

theorem Chain.next_of_append {h b c : α} {k r : List α}
    (hs : Chain next null h (k ++ c :: b :: r)) : next c = b := by
  obtain ⟨m, -, rfl, -, hb, -⟩ := Seg.split hs
  exact hb

section Update

variable [DecidableEq α]

/-- Taking the cell after `c` out of the list. -/
theorem Chain.unlink {h b c : α} {k r : List α} (hs : Chain next null h (k ++ c :: b :: r))
    (hnd : (k ++ c :: b :: r).Nodup) :
    Chain (Function.update next c (next b)) null h (k ++ c :: r) := by
  obtain ⟨m, hk, rfl, hc, rfl, -, hr⟩ := Seg.split hs
  obtain ⟨-, hcr, hdis⟩ := List.nodup_append.mp hnd
  have hk' : Seg (Function.update next m (next (next m))) null h k m := by
    apply hk.congr
    intro q hq
    apply Function.update_of_ne
    exact hdis q hq m (by simp)
  apply hk'.append
  refine ⟨rfl, hc, ?_⟩
  rw [Function.update_self]
  apply Seg.congr hr
  intro q hq
  apply Function.update_of_ne
  rintro rfl
  simp [hq] at hcr

/-- Putting a new cell after the first one. -/
theorem Chain.insert {h b : α} {l : List α} (hs : Chain next null h (h :: l)) (hb : b ≠ null)
    (hnew : b ∉ h :: l) (hl : h ∉ l) :
    Chain (Function.update (Function.update next b (next h)) h b) null h (h :: b :: l) := by
  obtain ⟨-, hh, hs⟩ := hs
  have hbh : b ≠ h := fun e => hnew (by simp [e])
  refine ⟨rfl, hh, ?_⟩
  rw [Function.update_self]
  refine ⟨rfl, hb, ?_⟩
  rw [Function.update_of_ne hbh, Function.update_self]
  apply Seg.congr hs
  intro q hq
  rw [Function.update_of_ne, Function.update_of_ne]
  · rintro rfl
    simp [hq] at hnew
  · rintro rfl
    exact hl hq

end Update

end PointerChain

end Xv6Labs
