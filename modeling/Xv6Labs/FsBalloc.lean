import Xv6Labs.FsReference
import Mathlib.Data.Finset.Erase
import Mathlib.Data.Finset.Filter
import Mathlib.Data.Finset.Range
import Mathlib.Data.List.Find
import Mathlib.Data.Nat.Find

/-! balloc and bfree in the integers of the source: the loop variable of balloc is an `int`,
the argument of bfree a `uint`. Up to 2^31 blocks they allocate and free in a finite set of
block numbers. -/
namespace Xv6Labs.Fs

section Code

/-- The conversions to `uint` and to `int`. -/
def toUint (x : Int) : Nat := (x % 2^32).toNat
def toInt (x : Int) : Int := if x % 2^32 < 2^31 then x % 2^32 else x % 2^32 - 2^32

/-- `BBLOCK(b, sb)` for an `int b`: a signed division, then the sum of uints. -/
def bblockInt (sb : Superblock) (b : Int) : Nat := toUint (b.tdiv BPB + sb.bmapstart)

/-- `BBLOCK(b, sb)` for a `uint b`. -/
def bblockUint (sb : Superblock) (b : Nat) : Nat := (b/BPB + sb.bmapstart) % 2^32

/-- The inner loop of balloc over the bitmap block of `b`. -/
@[irreducible] def ballocRound (s : State) (b : Int) : Option Nat :=
  (List.range BPB).find? (fun bi =>
    decide (toUint (b + bi) < s.sb.size) && !getBit (s.block (bblockInt s.sb b)) bi)

/-- `bp->data[bi/8] |= m; log_write(bp); bzero(dev, a);` -/
def State.markBlock (s : State) (bp bi a : Nat) : State :=
  bzero (s.logWrite bp (setBit (s.block bp) bi)) a

/-- The loop of balloc from `b` on; `none` when it has not ended after so many rounds. -/
def ballocFrom : Nat → State → Int → Option (Except Panic (Nat × State))
  | 0, _, _ => none
  | rounds+1, s, b =>
    if toUint b < s.sb.size then
      match ballocRound s b with
      | some bi =>
        some (.ok (toUint (b + bi), s.markBlock (bblockInt s.sb b) bi (toUint (b + bi))))
      | none => ballocFrom rounds s (toInt (b + BPB))
    else some (.error .ballocOutOfBlocks)

/-- balloc. After 2^19 rounds `b` is 0 again, so `none` is a loop without end. -/
def ballocInt (s : State) : Option (Except Panic (Nat × State)) := ballocFrom (2^19 + 1) s 0

/-- bfree -/
def bfreeUint (s : State) (b : Nat) : Except Panic State :=
  let bp := bblockUint s.sb b
  let bi := b%BPB
  if getBit (s.block bp) bi = false then .error .freeingFreeBlock
  else .ok (s.logWrite bp (clearBit (s.block bp) bi))

/-- The bit that bfree looks at. -/
def State.bitAt (s : State) (b : Nat) : Bool := getBit (s.block (bblockUint s.sb b)) (b%BPB)

inductive BitmapOp where
  | balloc
  | bfree (b : Nat)

/-- A call and what it returns. -/
def BitmapOp.exec (s : State) : BitmapOp → Option (Except Panic (Option Nat × State))
  | .balloc => (ballocInt s).map (fun r => r.map (fun r => (some r.1, r.2)))
  | .bfree b => some ((bfreeUint s b).map (fun s => (none, s)))

/-- A sequence of calls: what they return, up to a panic, and the last state. -/
def execAll : State → List BitmapOp → Option (List (Except Panic (Option Nat)) × State)
  | s, [] => some ([], s)
  | s, op :: ops =>
    match op.exec s with
    | none => none
    | some (.error e) => some ([.error e], s)
    | some (.ok (r, t)) => (execAll t ops).map (fun u => (.ok r :: u.1, u.2))

end Code

section Sets

/-- Insertion and removal on a set of numbers below `n`. -/
def BitmapOp.onSet (n : Nat) (F : Finset Nat) : BitmapOp → Except Panic (Option Nat × Finset Nat)
  | .balloc =>
    if h : ∃ b, b < n ∧ b ∉ F then .ok (some (Nat.find h), insert (Nat.find h) F)
    else .error .ballocOutOfBlocks
  | .bfree b => if b ∈ F then .ok (none, F.erase b) else .error .freeingFreeBlock

def setAll (n : Nat) : Finset Nat → List BitmapOp → List (Except Panic (Option Nat)) × Finset Nat
  | F, [] => ([], F)
  | F, op :: ops =>
    match op.onSet n F with
    | .error e => ([.error e], F)
    | .ok (r, G) => (.ok r :: (setAll n G ops).1, (setAll n G ops).2)

/-- The set that the bitmap stands for. -/
def State.usedBlocks (s : State) : Finset Nat :=
  (Finset.range s.sb.size).filter (fun b => s.bitAt b = true)

end Sets

section Numbers

variable {s : State} {k b : Nat}

/-- The loop variable at the start of round `k`. -/
def roundStart (k : Nat) : Int := toInt ((k*BPB : Nat) : Int)

theorem roundStart_eq (hk : k*BPB < 2^31) : roundStart k = ((k*BPB : Nat) : Int) := by
  unfold roundStart toInt
  rw [if_pos (by omega)]
  omega

theorem roundStart_next (k : Nat) : toInt (roundStart k + BPB) = roundStart (k+1) := by
  unfold roundStart toInt
  rw [Nat.succ_mul, BPB_eq]
  split_ifs <;> omega

theorem toUint_roundStart (hk : k*BPB < 2^32) : toUint (roundStart k) = k*BPB := by
  unfold roundStart toInt toUint
  split_ifs <;> omega

/-- Both macros give one block for the bits of a round. -/
theorem bblockInt_eq (sb : Superblock) (hk : k*BPB < 2^31) (bi : Nat) (hbi : bi < BPB) :
    bblockInt sb (roundStart k) = bblockUint sb (k*BPB + bi) := by
  have hdiv : (((k*BPB : Nat) : Int)).tdiv BPB = (k : Int) := by
    rw [← Int.ofNat_tdiv, BPB_eq, Nat.mul_div_cancel k (by decide)]
  have hq : (k*BPB + bi)/BPB = k := by
    simp only [BPB_eq] at *
    omega
  unfold bblockInt bblockUint toUint
  rw [roundStart_eq hk, hdiv, hq]
  omega

theorem bblockUint_inj (sb : Superblock) {a : Nat} (ha : a < 2^32) (hb : b < 2^32)
    (h : bblockUint sb a = bblockUint sb b) : a/BPB = b/BPB := by
  simp only [bblockUint, BPB_eq] at *
  omega

/-- The search in one bitmap block looks at the bits of bfree. -/
theorem ballocRound_eq (s : State) (hk : k*BPB < 2^31) : ballocRound s (roundStart k) =
    (List.range BPB).find? (fun bi =>
      decide (k*BPB + bi < s.sb.size) && !s.bitAt (k*BPB + bi)) := by
  unfold ballocRound
  apply List.find?_congr
  intro bi hbi
  have hlt : bi < BPB := List.mem_range.mp hbi
  have hmod : (k*BPB + bi)%BPB = bi := by
    simp only [BPB_eq] at *
    omega
  have hnum : toUint (roundStart k + bi) = k*BPB + bi := by
    rw [roundStart_eq hk]
    simp only [toUint, BPB_eq] at *
    omega
  rw [hnum, bblockInt_eq s.sb hk bi hlt, State.bitAt, hmod]

end Numbers

section Search

variable {s : State}

/-- What balloc answers for block `a`. -/
def State.taken (s : State) (a : Nat) : State :=
  s.markBlock (bblockUint s.sb a) (a%BPB) a

theorem ballocFrom_found {b : Int} {bi r : Nat} (hlow : toUint b < s.sb.size)
    (hround : ballocRound s b = some bi) : ballocFrom (r+1) s b =
      some (.ok (toUint (b + bi), s.markBlock (bblockInt s.sb b) bi (toUint (b + bi)))) := by
  rw [ballocFrom, if_pos hlow, hround]

theorem ballocFrom_next {b : Int} {r : Nat} (hlow : toUint b < s.sb.size)
    (hround : ballocRound s b = none) :
    ballocFrom (r+1) s b = ballocFrom r s (toInt (b + BPB)) := by
  rw [ballocFrom, if_pos hlow, hround]

theorem ballocFrom_done {b : Int} {r : Nat} (hhigh : ¬toUint b < s.sb.size) :
    ballocFrom (r+1) s b = some (.error .ballocOutOfBlocks) := by
  rw [ballocFrom, if_neg hhigh]

/-- Rounds over bitmap blocks without a clear bit below the size. -/
theorem ballocFrom_skip (n d : Nat) (hlow : ∀ k, k < d → k*BPB < s.sb.size ∧ k*BPB < 2^31)
    (hfull : ∀ b, b < d*BPB → b < s.sb.size → s.bitAt b = true) :
    ballocFrom (n + d) s (roundStart 0) = ballocFrom n s (roundStart d) := by
  induction d generalizing n with
  | zero => rfl
  | succ d ih =>
    obtain ⟨hd, hd31⟩ := hlow d (Nat.lt_succ_self d)
    have hsucc : (d+1)*BPB = d*BPB + BPB := Nat.succ_mul d BPB
    have hround : ballocRound s (roundStart d) = none := by
      rw [ballocRound_eq s hd31]
      apply List.find?_range_eq_none.mpr
      intro j hj
      by_cases hlt : d*BPB + j < s.sb.size
      · rw [hfull _ (by omega) hlt]
        simp
      · simp [hlt]
    have hhead : toUint (roundStart d) < s.sb.size := by
      rw [toUint_roundStart (by omega)]
      exact hd
    have hn : n + (d+1) = n + 1 + d := by omega
    rw [hn, ih (n+1) (fun k hk => hlow k (by omega)) (fun b hb hlt => hfull b (by omega) hlt),
      ballocFrom_next hhead hround, roundStart_next]

/-- The search finds the first clear bit. -/
theorem ballocInt_some (hsize : s.sb.size ≤ 2^31) {a : Nat} (ha : a < s.sb.size)
    (hfree : s.bitAt a = false) (hmin : ∀ b, b < a → s.bitAt b = true) :
    ballocInt s = some (.ok (a, s.taken a)) := by
  have hka : a/BPB*BPB + a%BPB = a := block_split a
  have hbi : a%BPB < BPB := Nat.mod_lt _ (by decide)
  have hk : a/BPB*BPB < 2^31 := by omega
  have hround : ballocRound s (roundStart (a/BPB)) = some (a%BPB) := by
    rw [ballocRound_eq s hk]
    apply List.find?_range_eq_some.mpr
    refine ⟨?_, List.mem_range.mpr hbi, ?_⟩
    · simp only [hka, ha, hfree, decide_true, Bool.not_false, Bool.and_self]
    · intro j hj
      rw [hmin (a/BPB*BPB + j) (by omega)]
      simp
  have hhead : toUint (roundStart (a/BPB)) < s.sb.size := by
    rw [toUint_roundStart (by omega)]
    omega
  have hnum : toUint (roundStart (a/BPB) + (a%BPB : Nat)) = a := by
    rw [roundStart_eq hk]
    unfold toUint
    omega
  have hblk : bblockInt s.sb (roundStart (a/BPB)) = bblockUint s.sb a := by
    rw [bblockInt_eq s.sb hk (a%BPB) hbi, hka]
  have hlt : a/BPB ≤ 2^18 := by
    simp only [BPB_eq] at *
    omega
  obtain ⟨n, hn⟩ : ∃ n, n + 1 + a/BPB = 2^19 + 1 := ⟨2^19 - a/BPB, by omega⟩
  have hskip := ballocFrom_skip (s := s) (n+1) (a/BPB) ?_ (fun b hb _ => hmin b (by omega))
  · rw [hn, ballocFrom_found hhead hround, hnum, hblk] at hskip
    exact hskip
  · intro k hk'
    have hle : k*BPB ≤ a/BPB*BPB := Nat.mul_le_mul_right _ (by omega)
    omega

/-- Every bit below the size is set. -/
theorem ballocInt_none (hsize : s.sb.size ≤ 2^31)
    (hfull : ∀ b, b < s.sb.size → s.bitAt b = true) :
    ballocInt s = some (.error .ballocOutOfBlocks) := by
  obtain ⟨d, hd⟩ : ∃ d, d = (s.sb.size + BPB - 1)/BPB := ⟨_, rfl⟩
  have hrange : s.sb.size ≤ d*BPB ∧ d*BPB < s.sb.size + BPB ∧ d ≤ 2^18 := by
    simp only [BPB_eq] at *
    omega
  have hend : ¬toUint (roundStart d) < s.sb.size := by
    rw [toUint_roundStart (by simp only [BPB_eq] at *; omega)]
    omega
  obtain ⟨n, hn⟩ : ∃ n, n + 1 + d = 2^19 + 1 := ⟨2^19 - d, by omega⟩
  have hskip := ballocFrom_skip (s := s) (n+1) d ?_ (fun b _ => hfull b)
  · rw [hn, ballocFrom_done hend] at hskip
    exact hskip
  · intro k hk
    have hle : (k+1)*BPB ≤ d*BPB := Nat.mul_le_mul_right _ hk
    rw [Nat.succ_mul] at hle
    omega

/-- Below these limits the arithmetic does not wrap, and balloc is that of the other proofs. -/
theorem ballocInt_eq_balloc (hsize : s.sb.size ≤ 2^31)
    (hmap : s.sb.bmapstart + s.sb.size/BPB < 2^32) : ballocInt s = some (balloc s) := by
  have hblk (b : Nat) (hb : b < s.sb.size) : bblockUint s.sb b = BBLOCK s.sb b := by
    unfold bblockUint BBLOCK
    have hle : b/BPB ≤ s.sb.size/BPB := Nat.div_le_div_right (Nat.le_of_lt hb)
    exact Nat.mod_eq_of_lt (by omega)
  have hbit (b : Nat) (hb : b < s.sb.size) : s.bitAt b = s.bit b := by
    unfold State.bitAt State.bit
    rw [hblk b hb]
  cases h : balloc s with
  | error p =>
    obtain ⟨rfl, hfull⟩ := balloc_error s p h
    exact ballocInt_none hsize (fun b hb => (hbit b hb).trans (hfull b hb))
  | ok r =>
    obtain ⟨a, t⟩ := r
    obtain ⟨ha, hfree, hmin, ht⟩ := balloc_ok s t a h
    have hmin' : ∀ b, b < a → s.bitAt b = true :=
      fun b hb => (hbit b (by omega)).trans (hmin b hb)
    rw [ballocInt_some hsize ha ((hbit a ha).trans hfree) hmin', ht]
    unfold State.taken State.markBlock
    rw [hblk a ha]

end Search

section Effects

variable {s t : State} {a b : Nat}

/-- The blocks of the bitmap that have a bit of their own are marked in use, as mkfs does. -/
def Reserved (s : State) : Prop :=
  ∀ b, b < s.sb.size → bblockUint s.sb b < s.sb.size → s.bitAt (bblockUint s.sb b) = true

/-- The bits of the bitmap blocks: those of the blocks of the disk, and those behind them in
the last bitmap block. -/
def State.Covers (s : State) (b : Nat) : Prop := b/BPB*BPB < s.sb.size

/-- balloc has taken block `a`. -/
structure Taken (s t : State) (a : Nat) : Prop where
  bit : ∀ b, s.Covers b → t.bitAt b = (decide (a = b) || s.bitAt b)
  zero : t.block a = zeroBytes
  block : ∀ c, c ≠ a → c ≠ bblockUint s.sb a → t.block c = s.block c
  rest : t.sb = s.sb ∧ t.icache = s.icache ∧ t.dinode = s.dinode

/-- bfree has given back block `a`. -/
structure Given (s t : State) (a : Nat) : Prop where
  bit : ∀ b, s.Covers b → t.bitAt b = (!decide (a = b) && s.bitAt b)
  block : ∀ c, c ≠ bblockUint s.sb a → t.block c = s.block c
  rest : t.sb = s.sb ∧ t.icache = s.icache ∧ t.dinode = s.dinode

theorem covers_of_lt (hb : b < s.sb.size) : s.Covers b := by
  unfold State.Covers
  simp only [BPB_eq]
  omega

theorem Covers.lt (hsize : s.sb.size ≤ 2^31) (hb : s.Covers b) : b < 2^32 := by
  unfold State.Covers at hb
  simp only [BPB_eq] at hb
  omega

/-- The bits of one bitmap block are told apart by their place in it. -/
theorem mod_eq_iff (hsize : s.sb.size ≤ 2^31) (ha : s.Covers a) (hb : s.Covers b)
    (h : bblockUint s.sb a = bblockUint s.sb b) : a%BPB = b%BPB ↔ a = b := by
  have hq := bblockUint_inj s.sb (Covers.lt hsize ha) (Covers.lt hsize hb) h
  constructor
  · intro hm
    rw [← block_split a, ← block_split b, hq, hm]
  · rintro rfl
    rfl

/-- A bitmap block below the size is not the block that balloc takes. -/
theorem Reserved.ne_bblock (hres : Reserved s) (ha : a < s.sb.size) (hfree : s.bitAt a = false)
    (hb : s.Covers b) : bblockUint s.sb b ≠ a := by
  rintro rfl
  have hq : b/BPB*BPB/BPB = b/BPB := Nat.mul_div_cancel _ (by decide)
  have hsame : bblockUint s.sb (b/BPB*BPB) = bblockUint s.sb b := by
    unfold bblockUint
    rw [hq]
  have hmarked := hres (b/BPB*BPB) hb (by rw [hsame]; exact ha)
  rw [hsame, hfree] at hmarked
  cases hmarked

theorem taken_spec (hsize : s.sb.size ≤ 2^31) (hres : Reserved s) (ha : a < s.sb.size)
    (hfree : s.bitAt a = false) : Taken s (s.taken a) a := by
  refine ⟨?_, ?_, ?_, rfl, rfl, rfl⟩
  · intro b hb
    have hne := hres.ne_bblock ha hfree hb
    change getBit ((s.taken a).block (bblockUint s.sb b)) (b%BPB) = _
    unfold State.taken State.markBlock bzero
    rw [logWrite_block, logWrite_block, Function.update_of_ne hne]
    by_cases he : bblockUint s.sb b = bblockUint s.sb a
    · rw [he, Function.update_self, getBit_setBit]
      simp only [mod_eq_iff hsize (covers_of_lt ha) hb he.symm]
      rw [State.bitAt, he]
    · have hab : a ≠ b := fun h => he (by rw [h])
      rw [Function.update_of_ne he]
      simp [hab, State.bitAt]
  · simp [State.taken, State.markBlock, bzero]
  · intro c hca hcb
    simp [State.taken, State.markBlock, bzero, Function.update_of_ne hca,
      Function.update_of_ne hcb]

theorem bfreeUint_spec (hsize : s.sb.size ≤ 2^31) (ha : a < s.sb.size)
    (hused : s.bitAt a = true) : ∃ t, bfreeUint s a = .ok t ∧ Given s t a := by
  have hbit : ¬getBit (s.block (bblockUint s.sb a)) (a%BPB) = false := by
    change ¬s.bitAt a = false
    simp [hused]
  refine ⟨_, if_neg hbit, ?_, ?_, rfl, rfl, rfl⟩
  · intro b hb
    simp only [State.bitAt, logWrite_sb, logWrite_block]
    by_cases he : bblockUint s.sb b = bblockUint s.sb a
    · rw [he, Function.update_self, getBit_clearBit]
      simp only [mod_eq_iff hsize (covers_of_lt ha) hb he.symm]
    · have hab : a ≠ b := fun h => he (by rw [h])
      rw [Function.update_of_ne he]
      simp [hab]
  · intro c hc
    rw [logWrite_block, Function.update_of_ne hc]

theorem bfreeUint_error (hfree : s.bitAt a = false) :
    bfreeUint s a = .error .freeingFreeBlock := if_pos hfree

/-- The set of used blocks gains and loses the one block. -/
theorem Taken.usedBlocks (h : Taken s t a) (ha : a < s.sb.size) :
    t.usedBlocks = insert a s.usedBlocks := by
  ext b
  simp only [State.usedBlocks, Finset.mem_filter, Finset.mem_range, Finset.mem_insert, h.rest.1]
  constructor
  · rintro ⟨hb, hbit⟩
    rw [h.bit b (covers_of_lt hb), Bool.or_eq_true, decide_eq_true_iff] at hbit
    rcases hbit with rfl | hbit
    · exact Or.inl rfl
    · exact Or.inr ⟨hb, hbit⟩
  · rintro (rfl | ⟨hb, hbit⟩)
    · exact ⟨ha, by rw [h.bit b (covers_of_lt ha)]; simp⟩
    · exact ⟨hb, by rw [h.bit b (covers_of_lt hb), hbit, Bool.or_true]⟩

theorem Given.usedBlocks (h : Given s t a) : t.usedBlocks = s.usedBlocks.erase a := by
  ext b
  simp only [State.usedBlocks, Finset.mem_filter, Finset.mem_range, Finset.mem_erase, h.rest.1]
  constructor
  · rintro ⟨hb, hbit⟩
    rw [h.bit b (covers_of_lt hb), Bool.and_eq_true, Bool.not_eq_true', decide_eq_false_iff_not]
      at hbit
    exact ⟨fun e => hbit.1 e.symm, hb, hbit.2⟩
  · rintro ⟨hne, hb, hbit⟩
    refine ⟨hb, ?_⟩
    rw [h.bit b (covers_of_lt hb), hbit]
    simp [Ne.symm hne]

end Effects

section Sequences

variable {s t : State}

/-- What a sequence of calls keeps: the superblock, the marks of the bitmap blocks and the
bits at and beyond the size. -/
structure Within (s t : State) : Prop where
  sb : t.sb = s.sb
  reserved : Reserved t
  beyond : ∀ b, s.Covers b → s.sb.size ≤ b → t.bitAt b = s.bitAt b

/-- The caller frees blocks of the disk, none of the bitmap. -/
def Freeable (sb : Superblock) (op : BitmapOp) : Prop :=
  ∀ b, op = .bfree b → b < sb.size ∧ ∀ c, c < sb.size → bblockUint sb c ≠ b

theorem Within.trans {u : State} (h : Within s t) (h' : Within t u) : Within s u := by
  refine ⟨h'.sb.trans h.sb, h'.reserved, ?_⟩
  intro b hb hle
  rw [h'.beyond b (by rw [State.Covers, h.sb]; exact hb) (by rw [h.sb]; exact hle)]
  exact h.beyond b hb hle

theorem Taken.within {a : Nat} (h : Taken s t a) (hres : Reserved s) (ha : a < s.sb.size) :
    Within s t := by
  refine ⟨h.rest.1, ?_, ?_⟩
  · intro b hb hlt
    rw [h.rest.1] at hb hlt ⊢
    rw [h.bit _ (covers_of_lt hlt), hres b hb hlt, Bool.or_true]
  · intro b hb hle
    have hne : a ≠ b := by omega
    rw [h.bit b hb]
    simp [hne]

theorem Given.within {a : Nat} (h : Given s t a) (hres : Reserved s) (ha : a < s.sb.size)
    (hout : ∀ c, c < s.sb.size → bblockUint s.sb c ≠ a) : Within s t := by
  refine ⟨h.rest.1, ?_, ?_⟩
  · intro b hb hlt
    rw [h.rest.1] at hb hlt ⊢
    have hne : a ≠ bblockUint s.sb b := (hout b hb).symm
    rw [h.bit _ (covers_of_lt hlt), hres b hb hlt]
    simp [hne]
  · intro b hb hle
    have hne : a ≠ b := by omega
    rw [h.bit b hb]
    simp [hne]

/-- One call does to the bitmap what it does to the set. -/
theorem BitmapOp.exec_sim (hsize : s.sb.size ≤ 2^31) (hres : Reserved s) (op : BitmapOp)
    (hop : Freeable s.sb op) :
    (∃ e, op.exec s = some (.error e) ∧ op.onSet s.sb.size s.usedBlocks = .error e) ∨
    ∃ r t, op.exec s = some (.ok (r, t)) ∧
      op.onSet s.sb.size s.usedBlocks = .ok (r, t.usedBlocks) ∧ Within s t := by
  have hmem (b : Nat) (hb : b < s.sb.size) : b ∈ s.usedBlocks ↔ s.bitAt b = true := by
    simp [State.usedBlocks, hb]
  cases op with
  | balloc =>
    by_cases hex : ∃ b, b < s.sb.size ∧ b ∉ s.usedBlocks
    · right
      obtain ⟨ha, hnot⟩ := Nat.find_spec hex
      have hfree : s.bitAt (Nat.find hex) = false := by
        rwa [hmem _ ha, Bool.not_eq_true] at hnot
      have hmin : ∀ b, b < Nat.find hex → s.bitAt b = true := by
        intro b hb
        by_contra hclear
        exact Nat.find_min hex hb ⟨by omega, by rw [hmem b (by omega)]; exact hclear⟩
      have htaken := taken_spec hsize hres ha hfree
      refine ⟨some (Nat.find hex), s.taken (Nat.find hex), ?_, ?_, htaken.within hres ha⟩
      · simp only [BitmapOp.exec, ballocInt_some hsize ha hfree hmin, Option.map_some,
          Except.map]
      · rw [htaken.usedBlocks ha]
        exact dif_pos hex
    · left
      have hfull : ∀ b, b < s.sb.size → s.bitAt b = true := by
        intro b hb
        by_contra hclear
        exact hex ⟨b, hb, by rw [hmem b hb]; exact hclear⟩
      refine ⟨.ballocOutOfBlocks, ?_, dif_neg hex⟩
      simp only [BitmapOp.exec, ballocInt_none hsize hfull, Option.map_some, Except.map]
  | bfree b =>
    obtain ⟨hb, hout⟩ := hop b rfl
    by_cases hused : s.bitAt b = true
    · right
      obtain ⟨t, ht, hgiven⟩ := bfreeUint_spec hsize hb hused
      refine ⟨none, t, ?_, ?_, hgiven.within hres hb hout⟩
      · simp only [BitmapOp.exec, ht, Except.map]
      · rw [hgiven.usedBlocks]
        exact if_pos ((hmem b hb).mpr hused)
    · left
      refine ⟨.freeingFreeBlock, ?_, if_neg (by rw [hmem b hb]; exact hused)⟩
      rw [Bool.not_eq_true] at hused
      simp only [BitmapOp.exec, bfreeUint_error hused, Except.map]

theorem execAll_sim (hsize : s.sb.size ≤ 2^31) (hres : Reserved s) (ops : List BitmapOp)
    (hops : ∀ op ∈ ops, Freeable s.sb op) : ∃ rs t, execAll s ops = some (rs, t) ∧
      setAll s.sb.size s.usedBlocks ops = (rs, t.usedBlocks) ∧ Within s t := by
  induction ops generalizing s with
  | nil => exact ⟨[], s, rfl, rfl, rfl, hres, fun _ _ _ => rfl⟩
  | cons op ops ih =>
    rcases BitmapOp.exec_sim hsize hres op (hops op List.mem_cons_self) with
      ⟨e, hexec, hset⟩ | ⟨r, t, hexec, hset, hwithin⟩
    · refine ⟨[.error e], s, ?_, ?_, rfl, hres, fun _ _ _ => rfl⟩
      · simp only [execAll, hexec]
      · simp only [setAll, hset]
    · have hrest : ∀ op ∈ ops, Freeable t.sb op := by
        intro op hop
        rw [hwithin.sb]
        exact hops op (List.mem_cons_of_mem _ hop)
      obtain ⟨rs, u, hrun, hsets, hu⟩ := ih (by rw [hwithin.sb]; exact hsize) hwithin.reserved hrest
      rw [hwithin.sb] at hsets
      refine ⟨.ok r :: rs, u, ?_, ?_, hwithin.trans hu⟩
      · simp only [execAll, hexec, hrun, Option.map_some]
      · simp only [setAll, hset, hsets]

/-- Up to 2^31 blocks: balloc returns the first clear bit, which it sets, and bfree clears the bit
that balloc sets. When the bitmap's own blocks are marked balloc changes nothing else, and any
sequence of both works on a finite set and leaves the bits at and beyond the size. -/
theorem balloc_bfree_exact (s : State) (hsize : s.sb.size ≤ 2^31) :
    (∀ a, a < s.sb.size → s.bitAt a = false → (∀ b, b < a → s.bitAt b = true) →
      ∃ t, ballocInt s = some (.ok (a, t)) ∧ (Reserved s → Taken s t a)) ∧
    (ballocInt s = some (.error .ballocOutOfBlocks) ↔ ∀ b, b < s.sb.size → s.bitAt b = true) ∧
    (∀ b, b < s.sb.size → s.bitAt b = true → ∃ t, bfreeUint s b = .ok t ∧ Given s t b) ∧
    (Reserved s → ∀ ops, (∀ op ∈ ops, Freeable s.sb op) →
      ∃ rs t, execAll s ops = some (rs, t) ∧
        setAll s.sb.size s.usedBlocks ops = (rs, t.usedBlocks) ∧ Within s t) := by
  refine ⟨?_, ⟨?_, ballocInt_none hsize⟩, ?_, ?_⟩
  · intro a ha hfree hmin
    exact ⟨_, ballocInt_some hsize ha hfree hmin, fun hres => taken_spec hsize hres ha hfree⟩
  · intro herr
    by_contra hno
    have hex : ∃ b, b < s.sb.size ∧ s.bitAt b = false := by
      by_contra hall
      apply hno
      intro b hb
      by_contra hclear
      exact hall ⟨b, hb, by rwa [Bool.not_eq_true] at hclear⟩
    obtain ⟨ha, hfree⟩ := Nat.find_spec hex
    have hmin : ∀ b, b < Nat.find hex → s.bitAt b = true := by
      intro b hb
      by_contra hclear
      exact Nat.find_min hex hb ⟨by omega, by rwa [Bool.not_eq_true] at hclear⟩
    rw [ballocInt_some hsize ha hfree hmin] at herr
    cases herr
  · intro b hb hused
    exact bfreeUint_spec hsize hb hused
  · intro hres ops hops
    exact execAll_sim hsize hres ops hops

theorem freshDisk_bitAt (b : Nat) (hb : b < 2^31) : freshDisk.bitAt b = freshDisk.bit b := by
  have hblk : bblockUint freshDisk.sb b = BBLOCK freshDisk.sb b := by
    change (b/BPB + 45) % 2^32 = b/BPB + 45
    simp only [BPB_eq]
    omega
  rw [State.bitAt, hblk, State.bit]

/-- The disk after mkfs: its first 70 blocks are marked. -/
theorem balloc_bfree_exact_fresh :
    ∃ rs t, execAll freshDisk [.balloc, .bfree 70, .balloc] = some (rs, t) ∧
      setAll 200000 freshDisk.usedBlocks [.balloc, .bfree 70, .balloc] = (rs, t.usedBlocks) ∧
      Within freshDisk t := by
  have hblk (b : Nat) (hb : b < 200000) :
      45 ≤ bblockUint freshDisk.sb b ∧ bblockUint freshDisk.sb b < 70 := by
    change 45 ≤ (b/BPB + 45) % 2^32 ∧ (b/BPB + 45) % 2^32 < 70
    simp only [BPB_eq]
    omega
  have hres : Reserved freshDisk := by
    intro b hb hlt
    have hlow := hblk b hb
    rw [freshDisk_bitAt _ (by omega), freshDisk_bit]
    exact hlow.2
  refine (balloc_bfree_exact freshDisk (by decide)).2.2.2 hres _ ?_
  intro op hop b hb
  subst hb
  simp only [List.mem_cons, List.not_mem_nil, or_false, reduceCtorEq, false_or,
    BitmapOp.bfree.injEq] at hop
  subst hop
  refine ⟨by decide, ?_⟩
  intro c hc heq
  have := hblk c hc
  omega

end Sequences

section Limits

/-- A disk of one block, its own bitmap, with no bit set. -/
def selfMapped : State := { freshDisk with sb := ⟨1, 0, 0, 0⟩, block := fun _ => zeroBytes }

/-- One block more than 2^31. All bits are set but that of the last block. -/
def overSized : State := { freshDisk with
  sb := ⟨2^31 + 1, 0, 0, 2^18⟩
  block := fun c => if c = 2^19 then zeroBytes else fun _ => 255 }

theorem getBit_ones (i : Nat) : getBit (fun _ => 255) i = true := by
  have hmod : i%8 < 8 := Nat.mod_lt _ (by decide)
  change (2^8 - 1).testBit (i%8) = true
  rw [Nat.testBit_two_pow_sub_one]
  simpa using hmod

theorem overSized_block {c : Nat} (hc : c ≠ 2^19) : overSized.block c = fun _ => 255 := if_neg hc

theorem overSized_bit {b : Nat} (hb : b < 2^31) : overSized.bitAt b = true := by
  have hblk : bblockUint overSized.sb b ≠ 2^19 := by
    have hstart : overSized.sb.bmapstart = 2^18 := rfl
    unfold bblockUint
    rw [hstart]
    simp only [BPB_eq]
    omega
  unfold State.bitAt
  rw [overSized_block hblk]
  exact getBit_ones (b%BPB)

/-- In the last round `b` is negative, and the bit is looked up in another block. -/
theorem overSized_full : ballocInt overSized = some (.error .ballocOutOfBlocks) := by
  have hstart : roundStart (2^18) = -2^31 := by decide
  have hblk : bblockInt overSized.sb (-2^31) = 0 := by decide
  have hbyte : overSized.block 0 = fun _ => 255 := overSized_block (by decide)
  have hhead : toUint (roundStart (2^18)) < overSized.sb.size := by
    rw [hstart]
    decide
  have hround : ballocRound overSized (roundStart (2^18)) = none := by
    rw [hstart]
    unfold ballocRound
    apply List.find?_range_eq_none.mpr
    intro j hj
    rw [hblk, hbyte, getBit_ones]
    simp
  have hend : ¬toUint (roundStart (2^18 + 1)) < overSized.sb.size := by decide
  have hsize : overSized.sb.size = 2^31 + 1 := rfl
  obtain ⟨n, hn⟩ : ∃ n, n + 1 + 1 + 2^18 = 2^19 + 1 := ⟨2^18 - 1, by decide⟩
  have hskip := ballocFrom_skip (s := overSized) (n + 1 + 1) (2^18) ?_ ?_
  · rw [hn, ballocFrom_next hhead hround, roundStart_next, ballocFrom_done hend] at hskip
    exact hskip
  · intro k hk
    rw [hsize]
    simp only [BPB_eq]
    omega
  · intro b hb _
    apply overSized_bit
    simp only [BPB_eq] at hb
    omega

/-- Outside these limits: balloc gives out the bitmap's own block, zeroes it, and the bit it
has set is clear again; and beyond 2^31 blocks it panics with a block still free. -/
theorem balloc_limits :
    (∃ t, ballocInt selfMapped = some (.ok (0, t)) ∧ selfMapped.bitAt 0 = false ∧
      t.bitAt 0 = false) ∧
    ballocInt overSized = some (.error .ballocOutOfBlocks) ∧
      2^31 < overSized.sb.size ∧ overSized.bitAt (2^31) = false :=
  ⟨⟨selfMapped.taken 0, ballocInt_some (by decide) (by decide) (by decide)
    (fun b hb => absurd hb (Nat.not_lt_zero b)), by decide, by decide⟩,
    overSized_full, by decide, by decide⟩

end Limits

end Xv6Labs.Fs
