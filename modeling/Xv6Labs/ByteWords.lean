import Mathlib.Data.Nat.Bitwise
import Mathlib.Tactic.Ring

/-! Words and bits stored in a byte array. A block is a function from byte
positions to bytes; a 32-bit word sits in four bytes, low byte first. -/
namespace Xv6Labs

abbrev Bytes := Nat → UInt8

def zeroBytes : Bytes := fun _ => 0

def getUint (b : Bytes) (i : Nat) : Nat :=
  (b (4*i)).toNat + 256*(b (4*i+1)).toNat + 65536*(b (4*i+2)).toNat +
    16777216*(b (4*i+3)).toNat

def setUint (b : Bytes) (i v : Nat) : Bytes := fun k =>
  if k/4 = i then UInt8.ofNat (v/256^(k%4)) else b k

theorem getUint_setUint_self (b : Bytes) (i v : Nat) (hv : v < 2^32) :
    getUint (setUint b i v) i = v := by
  have h0 : 4*i/4 = i := by omega
  have h1 : (4*i+1)/4 = i := by omega
  have h2 : (4*i+2)/4 = i := by omega
  have h3 : (4*i+3)/4 = i := by omega
  have m0 : 4*i%4 = 0 := by omega
  have m1 : (4*i+1)%4 = 1 := by omega
  have m2 : (4*i+2)%4 = 2 := by omega
  have m3 : (4*i+3)%4 = 3 := by omega
  simp only [getUint, setUint, h0, h1, h2, h3, m0, m1, m2, m3, if_true, UInt8.toNat_ofNat']
  norm_num
  omega

theorem getUint_setUint_ne (b : Bytes) (i j v : Nat) (hij : j ≠ i) :
    getUint (setUint b i v) j = getUint b j := by
  have h0 : 4*j/4 ≠ i := by omega
  have h1 : (4*j+1)/4 ≠ i := by omega
  have h2 : (4*j+2)/4 ≠ i := by omega
  have h3 : (4*j+3)/4 ≠ i := by omega
  simp only [getUint, setUint, if_neg h0, if_neg h1, if_neg h2, if_neg h3]

/-- Storing the word that is there changes nothing. -/
theorem setUint_getUint (b : Bytes) (i : Nat) : setUint b i (getUint b i) = b := by
  funext k
  unfold setUint
  split_ifs with hk
  · apply UInt8.toNat.inj
    have h0 := (b (4*i)).toNat_lt
    have h1 := (b (4*i+1)).toNat_lt
    have h2 := (b (4*i+2)).toNat_lt
    rw [UInt8.toNat_ofNat', getUint]
    have hcases : k = 4*i ∨ k = 4*i+1 ∨ k = 4*i+2 ∨ k = 4*i+3 := by omega
    have h3 := (b (4*i+3)).toNat_lt
    rcases hcases with rfl | rfl | rfl | rfl
    · have hm : 4*i%4 = 0 := by omega
      rw [hm]
      omega
    · have hm : (4*i+1)%4 = 1 := by omega
      rw [hm]
      omega
    · have hm : (4*i+2)%4 = 2 := by omega
      rw [hm]
      omega
    · have hm : (4*i+3)%4 = 3 := by omega
      rw [hm]
      omega
  · rfl

@[simp] theorem getUint_zeroBytes (i : Nat) : getUint zeroBytes i = 0 := rfl

def getBit (b : Bytes) (i : Nat) : Bool := (b (i/8)).toNat.testBit (i%8)

def setBit (b : Bytes) (i : Nat) : Bytes :=
  Function.update b (i/8) (UInt8.ofNat ((b (i/8)).toNat ||| 1 <<< (i%8)))

def clearBit (b : Bytes) (i : Nat) : Bytes :=
  Function.update b (i/8) (UInt8.ofNat ((b (i/8)).toNat &&& (255 ^^^ 1 <<< (i%8))))

theorem testBit_ofNat_uint8 (x k : Nat) (hk : k < 8) :
    (UInt8.ofNat x).toNat.testBit k = x.testBit k := by
  rw [UInt8.toNat_ofNat', Nat.testBit_mod_two_pow]
  simp [hk]

theorem testBit_one_shift (i k : Nat) : (1 <<< i).testBit k = decide (i = k) := by
  rw [Nat.one_shiftLeft, Nat.testBit_two_pow]

theorem getBit_setBit (b : Bytes) (i j : Nat) :
    getBit (setBit b i) j = (decide (i = j) || getBit b j) := by
  unfold getBit setBit
  by_cases hq : j/8 = i/8
  · have hk : j%8 < 8 := Nat.mod_lt _ (by decide)
    have he : (i%8 = j%8) ↔ i = j := by omega
    rw [hq, Function.update_self, testBit_ofNat_uint8 _ _ hk, Nat.testBit_or,
      testBit_one_shift, Bool.or_comm]
    simp only [he]
  · have hne : i ≠ j := fun h => hq (by rw [h])
    rw [Function.update_of_ne hq]
    simp [hne]

theorem getBit_clearBit (b : Bytes) (i j : Nat) :
    getBit (clearBit b i) j = (!decide (i = j) && getBit b j) := by
  unfold getBit clearBit
  by_cases hq : j/8 = i/8
  · have hk : j%8 < 8 := Nat.mod_lt _ (by decide)
    have he : (i%8 = j%8) ↔ i = j := by omega
    have hff : (255 : Nat).testBit (j%8) = true := by
      rw [show (255 : Nat) = 2^8-1 from rfl, Nat.testBit_two_pow_sub_one]
      simpa using hk
    rw [hq, Function.update_self, testBit_ofNat_uint8 _ _ hk, Nat.testBit_and,
      Nat.testBit_xor, testBit_one_shift, hff, Bool.and_comm]
    simp only [he, Bool.true_xor]
  · have hne : i ≠ j := fun h => hq (by rw [h])
    rw [Function.update_of_ne hq]
    simp [hne]

end Xv6Labs
