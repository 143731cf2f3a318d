import Xv6Labs.ByteWords

/-! Loads and stores of a few bytes at any address, low byte first. -/
namespace Xv6Labs

section ByteLoads

variable {m m' : Bytes} {n k a b v : Nat}

/-- The number in the `n` bytes from `a` on. -/
def load : Nat → Bytes → Nat → Nat
  | 0, _, _ => 0
  | n + 1, m, a => (m a).toNat + 256 * load n m (a + 1)

/-- A store of the low `n` bytes of a number. -/
def store : Nat → Bytes → Nat → Nat → Bytes
  | 0, m, _, _ => m
  | n + 1, m, a, v => store n (Function.update m a (UInt8.ofNat v)) (a + 1) (v / 256)

theorem store_outside (n : Nat) (m : Bytes) (v : Nat) {a x : Nat} (hx : x < a ∨ a + n ≤ x) :
    store n m a v x = m x := by
  induction n generalizing m a v with
  | zero => rfl
  | succ n ih =>
    have hxa : x ≠ a := by omega
    unfold store
    rw [ih _ _ (by omega), Function.update_of_ne hxa]

theorem load_congr (h : ∀ x, a ≤ x → x < a + n → m' x = m x) : load n m' a = load n m a := by
  induction n generalizing a with
  | zero => rfl
  | succ n ih =>
    unfold load
    rw [h a (Nat.le_refl _) (by omega), ih (fun x hx hx' => h x (by omega) (by omega))]

theorem load_store_self (n : Nat) (m : Bytes) (a v : Nat) :
    load n (store n m a v) a = v % 256^n := by
  induction n generalizing m a v with
  | zero =>
    unfold load
    omega
  | succ n ih =>
    have hfirst : store n (Function.update m a (UInt8.ofNat v)) (a + 1) (v / 256) a =
        UInt8.ofNat v := by
      rw [store_outside n _ _ (Or.inl (Nat.lt_succ_self a)), Function.update_self]
    have hpow : 256^(n + 1) = 256 * 256^n := by
      rw [Nat.pow_succ, Nat.mul_comm]
    unfold load store
    rw [ih, hfirst, UInt8.toNat_ofNat', hpow, Nat.mod_mul]

theorem load_store_of_lt (m : Bytes) (a : Nat) (hv : v < 256^n) :
    load n (store n m a v) a = v := by
  rw [load_store_self, Nat.mod_eq_of_lt hv]

theorem load_store_ne (m : Bytes) (v : Nat) (h : b + k ≤ a ∨ a + n ≤ b) :
    load k (store n m a v) b = load k m b := by
  apply load_congr
  intro x hx hx'
  exact store_outside n m v (by omega)

end ByteLoads

end Xv6Labs
