import Xv6Labs.FsCode
import Xv6Labs.Runs
import Mathlib.Tactic.Linarith

/-! What balloc and bfree do to the bitmap and to the other blocks. -/
namespace Xv6Labs.Fs

/-- The layout mkfs promises: block 0 lies below the bitmap, block numbers are uints. -/
structure Superblock.WellFormed (sb : Superblock) : Prop where
  boot : 0 < sb.bmapstart
  size_lt : sb.size < 2^32

def Superblock.Bitmap (sb : Superblock) (b : Nat) : Prop :=
  sb.bmapstart ≤ b ∧ b < sb.datastart

theorem Superblock.datastart_pos (sb : Superblock) : 0 < sb.datastart := Nat.succ_pos _

theorem bblock_bitmap (sb : Superblock) (b : Nat) (hb : b < sb.size) :
    sb.Bitmap (BBLOCK sb b) := by
  simp only [Superblock.Bitmap, BBLOCK, Superblock.datastart, BPB_eq]
  omega

/-- Blocks below the data area are marked in use. -/
def MetaMarked (s : State) : Prop :=
  ∀ b, b < s.sb.datastart → b < s.sb.size → s.bit b = true

/-- balloc of block `a` took `s` to `t`. -/
structure Allocated (s t : State) (a : Nat) : Prop where
  free : s.bit a = false
  lt_size : a < s.sb.size
  data : s.sb.datastart ≤ a
  bit : ∀ b, b < s.sb.size → t.bit b = (decide (a = b) || s.bit b)
  zero : t.block a = zeroBytes
  block : ∀ c, c ≠ a → ¬s.sb.Bitmap c → t.block c = s.block c
  sb : t.sb = s.sb
  icache : t.icache = s.icache
  dinode : t.dinode = s.dinode

/-- bfree of block `a` took `s` to `t`. -/
structure Freed (s t : State) (a : Nat) : Prop where
  used : s.bit a = true
  bit : ∀ b, b < s.sb.size → t.bit b = (!decide (a = b) && s.bit b)
  block : ∀ c, ¬s.sb.Bitmap c → t.block c = s.block c
  sb : t.sb = s.sb
  icache : t.icache = s.icache
  dinode : t.dinode = s.dinode

theorem bit_split (s : State) (k bi : Nat) (hbi : bi < BPB) :
    getBit (s.block (BBLOCK s.sb (k*BPB))) bi = s.bit (k*BPB + bi) := by
  have hq : (k*BPB + bi)/BPB = k*BPB/BPB := by simp only [BPB_eq] at *; omega
  have hm : (k*BPB + bi)%BPB = bi := by simp only [BPB_eq] at *; omega
  simp only [State.bit, BBLOCK, hq, hm]

/-- The search of balloc finds the first clear bit below the size. -/
theorem ballocScan_some (s : State) (k bi : Nat) (h : ballocScan s (k*BPB) = some bi) :
    bi < BPB ∧ k*BPB + bi < s.sb.size ∧ s.bit (k*BPB + bi) = false ∧
      ∀ j, j < bi → s.bit (k*BPB + j) = true := by
  unfold ballocScan at h
  obtain ⟨hp, hm, hmin⟩ := List.find?_range_eq_some.mp h
  have hbi : bi < BPB := List.mem_range.mp hm
  simp only [Bool.and_eq_true, decide_eq_true_eq, Bool.not_eq_true', bit_split s k bi hbi] at hp
  refine ⟨hbi, hp.1, hp.2, ?_⟩
  intro j hj
  have hlt : k*BPB + j < s.sb.size := by omega
  have hn := hmin j hj
  simpa only [hlt, decide_true, Bool.true_and, Bool.not_not,
    bit_split s k j (by omega)] using hn

theorem ballocScan_none (s : State) (k bi : Nat) (hbi : bi < BPB)
    (hlt : k*BPB + bi < s.sb.size) (h : ballocScan s (k*BPB) = none) :
    s.bit (k*BPB + bi) = true := by
  unfold ballocScan at h
  have hn := List.find?_range_eq_none.mp h bi hbi
  simpa only [hlt, decide_true, Bool.true_and, Bool.not_not, bit_split s k bi hbi] using hn

/-- A block number split into its bitmap block and the bit inside it. -/
theorem block_split (b : Nat) : b/BPB*BPB + b%BPB = b := by
  have := Nat.div_add_mod b BPB
  rw [Nat.mul_comm] at this
  exact this

theorem findSome?_range_first {β : Type} (f : Nat → Option β) (n : Nat) (y : β)
    (h : (List.range n).findSome? f = some y) :
    ∃ k, k < n ∧ f k = some y ∧ ∀ j, j < k → f j = none := by
  induction n with
  | zero => simp at h
  | succ n ih =>
    rw [List.range_succ, List.findSome?_append, Option.or_eq_some_iff] at h
    rcases h with h | ⟨hn, h⟩
    · obtain ⟨k, hk, hy, hmin⟩ := ih h
      exact ⟨k, by omega, hy, hmin⟩
    · have hy : f n = some y := by
        cases hf : f n with
        | none => simp [hf] at h
        | some z => simpa [List.findSome?_cons, hf] using h
      refine ⟨n, by omega, hy, ?_⟩
      intro j hj
      exact List.findSome?_eq_none_iff.mp hn j (List.mem_range.mpr hj)

/-- balloc takes the smallest clear bit, sets it and zeroes the block. -/
theorem balloc_ok (s t : State) (a : Nat) (h : balloc s = .ok (a, t)) :
    a < s.sb.size ∧ s.bit a = false ∧ (∀ b, b < a → s.bit b = true) ∧
      t = bzero (s.logWrite (BBLOCK s.sb a) (setBit (s.block (BBLOCK s.sb a)) (a%BPB))) a := by
  unfold balloc at h
  split at h
  · cases h
  · rename_i b bi hf
    simp only [Except.ok.injEq, Prod.mk.injEq] at h
    obtain ⟨ha, ht⟩ := h
    obtain ⟨k, -, hk, hpre⟩ := findSome?_range_first _ _ _ hf
    obtain ⟨bj, hscan, hbj⟩ := Option.map_eq_some_iff.mp hk
    simp only [Prod.mk.injEq] at hbj
    obtain ⟨hkb, rfl⟩ := hbj
    obtain ⟨hbi, hlt, hfree, hmin⟩ := ballocScan_some s k bj hscan
    rw [← hkb] at ha ht
    have hq : a/BPB = k*BPB/BPB := by simp only [BPB_eq] at *; omega
    have hm : a%BPB = bj := by simp only [BPB_eq] at *; omega
    have hat : t = bzero (s.logWrite (BBLOCK s.sb a)
        (setBit (s.block (BBLOCK s.sb a)) (a%BPB))) a := by
      rw [← ht]
      simp only [BBLOCK, hq, hm, ha]
    rw [ha] at hlt hfree
    refine ⟨hlt, hfree, ?_, hat⟩
    intro b hb
    by_cases hkb : b/BPB = k
    · have hj : b%BPB < bj := by simp only [BPB_eq] at *; omega
      have := hmin (b%BPB) hj
      rwa [← hkb, block_split] at this
    · -- `b` lies in an earlier bitmap block, whose scan found nothing
      have hnone := Option.map_eq_none_iff.mp
        (hpre (b/BPB) (by simp only [BPB_eq] at *; omega))
      have := ballocScan_none s (b/BPB) (b%BPB) (Nat.mod_lt _ (by decide))
        (by rw [block_split]; omega) hnone
      rwa [block_split] at this

theorem balloc_error (s : State) (p : Panic) (h : balloc s = .error p) :
    p = .ballocOutOfBlocks ∧ ∀ b, b < s.sb.size → s.bit b = true := by
  unfold balloc at h
  split at h
  · rename_i hf
    refine ⟨(Except.error.inj h).symm, ?_⟩
    intro b hb
    have hmem : b/BPB ∈ List.range ((s.sb.size + BPB - 1)/BPB) := by
      apply List.mem_range.mpr
      simp only [BPB_eq]
      omega
    have hnone := Option.map_eq_none_iff.mp (List.findSome?_eq_none_iff.mp hf _ hmem)
    have := ballocScan_none s (b/BPB) (b%BPB) (Nat.mod_lt _ (by decide))
      (by rw [block_split]; exact hb) hnone
    rwa [block_split] at this
  · cases h

/-- A bitmap block is determined by the block numbers it covers. -/
theorem bblock_mod_inj (sb : Superblock) (a b : Nat) (h : BBLOCK sb a = BBLOCK sb b) :
    a%BPB = b%BPB ↔ a = b := by
  simp only [BBLOCK, BPB_eq] at *
  omega

theorem bit_of_setBit (s t : State) (a b : Nat) (hsb : t.sb = s.sb)
    (hblk : t.block (BBLOCK s.sb b) =
      Function.update s.block (BBLOCK s.sb a) (setBit (s.block (BBLOCK s.sb a)) (a%BPB))
        (BBLOCK s.sb b)) : t.bit b = (decide (a = b) || s.bit b) := by
  unfold State.bit
  rw [hsb, hblk]
  by_cases he : BBLOCK s.sb b = BBLOCK s.sb a
  · rw [he, Function.update_self, getBit_setBit]
    simp only [bblock_mod_inj s.sb a b he.symm]
  · have hne : a ≠ b := fun h => he (by rw [h])
    rw [Function.update_of_ne he]
    simp [hne]

theorem balloc_allocated (s t : State) (a : Nat) (hm : MetaMarked s)
    (h : balloc s = .ok (a, t)) : Allocated s t a := by
  obtain ⟨hlt, hfree, -, rfl⟩ := balloc_ok s t a h
  have hdata : s.sb.datastart ≤ a := by
    by_contra hn
    have := hm a (by omega) hlt
    rw [hfree] at this
    cases this
  have ha := bblock_bitmap s.sb a hlt
  refine ⟨hfree, hlt, hdata, ?_, by simp [bzero], ?_, rfl, rfl, rfl⟩
  · intro b hb
    apply bit_of_setBit
    · rfl
    · have hbb := bblock_bitmap s.sb b hb
      have hne : BBLOCK s.sb b ≠ a := by
        have := hbb.2
        omega
      simp [bzero, Function.update_of_ne hne]
  · intro c hca hcb
    have hne : c ≠ BBLOCK s.sb a := fun hh => hcb (hh ▸ ha)
    simp [bzero, Function.update_of_ne hca, Function.update_of_ne hne]

theorem bfree_freed (s : State) (a : Nat) (ha : a < s.sb.size) (hused : s.bit a = true) :
    ∃ t, bfree s a = .ok t ∧ Freed s t a := by
  have hb := bblock_bitmap s.sb a ha
  have hg : ¬getBit (s.block (BBLOCK s.sb a)) (a%BPB) = false := by
    change ¬s.bit a = false
    simp [hused]
  refine ⟨_, if_neg hg, hused, ?_, ?_, rfl, rfl, rfl⟩
  · intro b _
    simp only [State.bit, logWrite_sb, logWrite_block]
    by_cases he : BBLOCK s.sb b = BBLOCK s.sb a
    · rw [he, Function.update_self, getBit_clearBit]
      simp only [bblock_mod_inj s.sb a b he.symm]
    · have hne : a ≠ b := fun h => he (by rw [h])
      rw [Function.update_of_ne he]
      simp [hne]
  · intro c hc
    have hne : c ≠ BBLOCK s.sb a := fun hh => hc (hh ▸ hb)
    simp [Function.update_of_ne hne]

end Xv6Labs.Fs
