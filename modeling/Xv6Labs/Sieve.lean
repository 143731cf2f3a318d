import Mathlib.Data.Nat.Prime.Basic
import Mathlib.Data.List.Range

/-! The sieve on lists: keep the head, strike its multiples from the rest, go on with what is
left. On `2, 3, ..., N` it leaves the primes. -/
namespace Xv6Labs

section Sieve

/-- The numbers that `p` does not divide, in order. -/
def strike (p : Nat) (xs : List Nat) : List Nat :=
  xs.filter (fun x => decide (x % p ≠ 0))

theorem length_strike_le (p : Nat) (xs : List Nat) : (strike p xs).length ≤ xs.length :=
  List.length_filter_le _ _

theorem strike_cons (p x : Nat) (xs : List Nat) :
    strike p (x :: xs) = if x % p ≠ 0 then x :: strike p xs else strike p xs := by
  unfold strike
  rw [List.filter_cons]
  simp only [decide_eq_true_eq]

def sieve : List Nat → List Nat
  | [] => []
  | p :: xs => p :: sieve (strike p xs)
  termination_by xs => xs.length
  decreasing_by exact Nat.lt_succ_of_le (length_strike_le p xs)

theorem sieve_nil : sieve [] = [] := by
  rw [sieve]

theorem sieve_cons (p : Nat) (xs : List Nat) : sieve (p :: xs) = p :: sieve (strike p xs) := by
  rw [sieve]

/-- The primes up to `N`, in increasing order. -/
def primesUpTo (N : Nat) : List Nat :=
  (List.range (N + 1)).filter (fun n => decide (Nat.Prime n))

/-- The same list by trial division, which evaluates. -/
theorem primesUpTo_trial (N : Nat) : primesUpTo N =
    (List.range (N + 1)).filter (fun n => decide (2 ≤ n ∧ ∀ m < n, 2 ≤ m → ¬m ∣ n)) := by
  refine List.filter_congr ?_
  intro n _
  rw [Bool.eq_iff_iff, decide_eq_true_eq, decide_eq_true_eq, Nat.prime_def_lt']
  refine and_congr_right (fun _ => ?_)
  exact ⟨fun h m hm h2 => h m h2 hm, fun h m h2 hm => h m hm h2⟩

/-- What the stages below `m` let through: no number from 2 to `m - 1` divides it. -/
def Coprime (m x : Nat) : Prop := ∀ q, 2 ≤ q → q < m → ¬q ∣ x

instance (m x : Nat) : Decidable (Coprime m x) :=
  decidable_of_iff (∀ q < m, 2 ≤ q → ¬q ∣ x)
    ⟨fun h q hq hm => h q hm hq, fun h q hm hq => h q hq hm⟩

theorem prime_iff_coprime (m : Nat) (hm : 2 ≤ m) : Nat.Prime m ↔ Coprime m m := by
  constructor
  · intro hp q hq hqm hdvd
    rcases (Nat.dvd_prime hp).mp hdvd with h | h
    · omega
    · omega
  · intro h
    refine Nat.prime_def_lt'.mpr ⟨hm, ?_⟩
    intro q hq hqm
    exact h q hq hqm

/-- A number that is not prime has been struck, and strikes nothing new. -/
theorem coprime_succ (m x : Nat) (hm : 2 ≤ m) :
    Coprime (m + 1) x ↔ Coprime m x ∧ (Nat.Prime m → ¬m ∣ x) := by
  constructor
  · intro h
    exact ⟨fun q hq hqm => h q hq (by omega), fun _ => h m hm (by omega)⟩
  · rintro ⟨hlow, hprime⟩ q hq hqm hdvd
    by_cases hqm' : q < m
    · exact hlow q hq hqm' hdvd
    · have heq : q = m := by omega
      subst heq
      by_cases hp : Nat.Prime q
      · exact hprime hp hdvd
      · -- a proper divisor of q divides x as well
        rw [prime_iff_coprime q hm] at hp
        obtain ⟨r, hr⟩ := not_forall.mp hp
        obtain ⟨hr2, hr⟩ := Classical.not_imp.mp hr
        obtain ⟨hrq, hr⟩ := Classical.not_imp.mp hr
        exact hlow r hr2 hrq ((not_not.mp hr).trans hdvd)

/-- The stream behind the stages below `m`. -/
def survivors (m len : Nat) : List Nat :=
  (List.range' m len).filter (fun x => decide (Coprime m x))

theorem survivors_succ (m len : Nat) (hm : 2 ≤ m) :
    (Nat.Prime m → survivors m (len + 1) = m :: (List.range' (m + 1) len).filter
        (fun x => decide (Coprime m x)) ∧
      strike m ((List.range' (m + 1) len).filter (fun x => decide (Coprime m x))) =
        survivors (m + 1) len) ∧
    (¬Nat.Prime m → survivors m (len + 1) = survivors (m + 1) len) := by
  constructor
  · intro hp
    constructor
    · unfold survivors
      rw [List.range'_succ, List.filter_cons]
      rw [if_pos (decide_eq_true ((prime_iff_coprime m hm).mp hp))]
    · unfold strike survivors
      rw [List.filter_filter]
      refine List.filter_congr ?_
      intro x _
      rw [Bool.eq_iff_iff, Bool.and_eq_true, decide_eq_true_eq, decide_eq_true_eq,
        decide_eq_true_eq, coprime_succ m x hm, and_comm]
      refine and_congr_right (fun _ => ?_)
      rw [ne_eq, ← Nat.dvd_iff_mod_eq_zero]
      exact ⟨fun h _ => h, fun h => h hp⟩
  · intro hp
    unfold survivors
    rw [List.range'_succ, List.filter_cons]
    have hm' : ¬decide (Coprime m m) = true := by
      rw [decide_eq_true_eq, ← prime_iff_coprime m hm]
      exact hp
    rw [if_neg hm']
    refine List.filter_congr ?_
    intro x _
    rw [Bool.eq_iff_iff, decide_eq_true_eq, decide_eq_true_eq, coprime_succ m x hm]
    exact ⟨fun h => ⟨h, fun h' => absurd h' hp⟩, fun h => h.1⟩

theorem sieve_survivors (m len : Nat) (hm : 2 ≤ m) :
    sieve (survivors m len) = (List.range' m len).filter (fun n => decide (Nat.Prime n)) := by
  induction len generalizing m with
  | zero => exact sieve_nil
  | succ len ih =>
    rw [List.range'_succ, List.filter_cons]
    obtain ⟨hprime, hcomposite⟩ := survivors_succ m len hm
    by_cases hp : Nat.Prime m
    · obtain ⟨hhead, htail⟩ := hprime hp
      rw [hhead, sieve_cons, htail, ih (m + 1) (by omega), if_pos (decide_eq_true hp)]
    · rw [hcomposite hp, ih (m + 1) (by omega)]
      rw [if_neg (by simpa using hp)]

/-- The sieve fed with 2, 3, ..., N. -/
theorem sieve_primes (N : Nat) : sieve (List.range' 2 (N - 1)) = primesUpTo N := by
  have hall : survivors 2 (N - 1) = List.range' 2 (N - 1) := by
    unfold survivors
    refine List.filter_eq_self.mpr ?_
    intro x _
    refine decide_eq_true ?_
    intro q hq hq2
    omega
  rw [← hall, sieve_survivors 2 (N - 1) (by omega)]
  unfold primesUpTo
  by_cases hN : N = 0
  · subst hN
    rfl
  · have hrange : List.range (N + 1) = 0 :: 1 :: List.range' 2 (N - 1) := by
      rw [List.range_eq_range']
      obtain ⟨k, rfl⟩ := Nat.exists_eq_succ_of_ne_zero hN
      rfl
    rw [hrange, List.filter_cons, List.filter_cons]
    rw [if_neg (by simp [Nat.not_prime_zero]), if_neg (by simp [Nat.not_prime_one])]

end Sieve

end Xv6Labs
