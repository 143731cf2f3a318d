import Mathlib.Data.List.Basic
import Mathlib.Logic.Function.Basic

/-! A ring of slots that is filled in order: the slot of the `j`-th value is `j % size`. -/
namespace Xv6Labs

variable {α : Type*} {size lo : Nat} {f : Nat → α} {l : List α}

/-- Less than a lap apart, numbers with the same slot are equal. -/
theorem slot_inj {j k : Nat} (hlt : j < k + size) (hle : k ≤ j) (h : j % size = k % size) :
    j = k := by
  obtain ⟨c, hc⟩ := Nat.dvd_of_mod_eq_zero (Nat.sub_mod_eq_zero_of_mod_eq h)
  rcases Nat.eq_zero_or_pos c with h0 | hpos
  · subst h0
    omega
  · have hge : size ≤ size * c := Nat.le_mul_of_pos_right size hpos
    omega

/-- The slots of the values from `lo` on, when one more goes in. -/
theorem slots_push {lo hi i : Nat} (hle : lo ≤ hi) :
    (∃ j, lo ≤ j ∧ j < hi + 1 ∧ j % size = i) ↔
      i = hi % size ∨ ∃ j, lo ≤ j ∧ j < hi ∧ j % size = i := by
  constructor
  · rintro ⟨j, hj, hlt, rfl⟩
    rcases Nat.lt_succ_iff_lt_or_eq.mp hlt with hlt | rfl
    · exact Or.inr ⟨j, hj, hlt, rfl⟩
    · exact Or.inl rfl
  · rintro (rfl | ⟨j, hj, hlt, rfl⟩)
    · exact ⟨hi, hle, Nat.lt_succ_self hi, rfl⟩
    · exact ⟨j, hj, Nat.lt_succ_of_lt hlt, rfl⟩

/-- The same, when the oldest one comes out. -/
theorem slots_take {lo hi i : Nat} (hroom : hi ≤ lo + size) :
    (∃ j, lo + 1 ≤ j ∧ j < hi ∧ j % size = i) ↔
      i ≠ lo % size ∧ ∃ j, lo ≤ j ∧ j < hi ∧ j % size = i := by
  constructor
  · rintro ⟨j, hj, hlt, rfl⟩
    refine ⟨fun heq => ?_, j, Nat.le_of_succ_le hj, hlt, rfl⟩
    have := slot_inj (by omega) (Nat.le_of_succ_le hj) heq
    omega
  · rintro ⟨hne, j, hj, hlt, rfl⟩
    exact ⟨j, Nat.lt_of_le_of_ne hj (fun heq => hne (heq ▸ rfl)), hlt, rfl⟩

/-- Counters that wrap at `m` still tell how far apart they are, up to a lap. -/
theorem wrap_sub {m a d : Nat} (hle : d ≤ a) (hlt : a < d + m) :
    (m - d % m + a % m) % m = a - d := by
  obtain ⟨k, rfl⟩ := Nat.exists_eq_add_of_le hle
  have hd := Nat.div_add_mod d m
  have hm : d % m < m := Nat.mod_lt d (by omega)
  have hsum : m - d % m + (d + k) = k + m * (1 + d / m) := by
    rw [Nat.mul_add, Nat.mul_one]
    omega
  rw [Nat.add_mod_mod, hsum, Nat.add_mul_mod_self_left, Nat.mod_eq_of_lt (by omega)]
  omega

/-- The slots hold the values from the `lo`-th on. -/
def Window (size : Nat) (f : Nat → α) (l : List α) (lo : Nat) : Prop :=
  ∀ j x, lo ≤ j → l[j]? = some x → f (j % size) = x

theorem Window.mono (h : Window size f l lo) {hi : Nat} (hle : lo ≤ hi) : Window size f l hi :=
  fun j x hj hx => h j x (Nat.le_trans hle hj) hx

theorem Window.of_prefix (h : Window size f l lo) {l' : List α} (hp : l' <+: l) :
    Window size f l' lo := by
  intro j x hj hx
  obtain ⟨rest, rfl⟩ := hp
  have hlt : j < l'.length := (List.getElem?_eq_some_iff.mp hx).1
  exact h j x hj (by rw [List.getElem?_append_left hlt]; exact hx)

theorem Window.congr (h : Window size f l lo) (hsize : 0 < size) {g : Nat → α}
    (hfg : ∀ i, i < size → g i = f i) : Window size g l lo := by
  intro j x hj hx
  rw [hfg _ (Nat.mod_lt j hsize)]
  exact h j x hj hx

/-- The next value goes to the next slot, when the window is less than a lap long. -/
theorem Window.push (h : Window size f l lo) (hlap : l.length < lo + size) (x : α) :
    Window size (Function.update f (l.length % size) x) (l ++ [x]) lo := by
  intro j y hj hy
  rw [List.getElem?_append] at hy
  split at hy
  · rename_i hlt
    have hne : j % size ≠ l.length % size := by
      intro heq
      have hjl := slot_inj (by omega) (Nat.le_of_lt hlt) heq.symm
      omega
    rw [Function.update_of_ne hne]
    exact h j y hj hy
  · rename_i hge
    have hjl : j = l.length := by
      by_contra hne
      rw [List.getElem?_eq_none (by simp only [List.length_singleton]; omega)] at hy
      cases hy
    subst hjl
    rw [Nat.sub_self] at hy
    cases hy
    exact Function.update_self _ _ _

/-- A slot outside the window can be given any value. -/
theorem Window.update (h : Window size f l lo) {i : Nat} (x : α)
    (hi : ∀ j, lo ≤ j → j < l.length → j % size ≠ i) :
    Window size (Function.update f i x) l lo := by
  intro j y hj hy
  have hlt : j < l.length := (List.getElem?_eq_some_iff.mp hy).1
  rw [Function.update_of_ne (hi j hj hlt)]
  exact h j y hj hy

end Xv6Labs
