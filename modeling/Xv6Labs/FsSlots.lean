import Xv6Labs.FsBlocks

/-! The places that hold block numbers. Direct slots, indirect roots and the words of
indirect blocks belong to one inode. The doubly-indirect root `addrs[NDIRECT+1]` is never
allocated, so the doubly-indirect map of every inode is the tree below block 0: the slots
`sroot` and `sentry` belong to no inode. -/
namespace Xv6Labs.Fs

inductive Slot where
  | direct (i k : Nat)
  | root (i : Nat)
  | entry (i k : Nat)
  | sroot (k : Nat)
  | sentry (k l : Nat)
  deriving DecidableEq

def Slot.InRange : Slot → Prop
  | .direct _ k => k < NDIRECT
  | .root _ => True
  | .entry _ k => k < NINDIRECT
  | .sroot k => k < NINDIRECT
  | .sentry k l => k < NINDIRECT ∧ l < NINDIRECT

/-- Slots that hold data blocks, not index blocks. -/
def Slot.Leaf : Slot → Prop
  | .direct _ _ | .entry _ _ | .sentry _ _ => True
  | .root _ | .sroot _ => False

/-- The inode a slot belongs to. -/
def Slot.owner : Slot → Option Nat
  | .direct i _ | .root i | .entry i _ => some i
  | .sroot _ | .sentry _ _ => none

/-- Word `k` of index block `r`, where block number 0 stands for no block. -/
def word (block : Nat → Bytes) (r k : Nat) : Nat := if r = 0 then 0 else getUint (block r) k

theorem word_zero (block : Nat → Bytes) (k : Nat) : word block 0 k = 0 := rfl

theorem word_of_ne (block : Nat → Bytes) (r k : Nat) (h : r ≠ 0) :
    word block r k = getUint (block r) k := if_neg h

def State.val (s : State) : Slot → Nat
  | .direct i k => s.addr i k
  | .root i => s.addr i NDIRECT
  | .entry i k => word s.block (s.addr i NDIRECT) k
  | .sroot k => getUint (s.block 0) k
  | .sentry k l => word s.block (getUint (s.block 0) k) l

/-- The slot of logical block `bn` of inode `i`. -/
def leaf (i bn : Nat) : Slot :=
  if bn < NDIRECT then .direct i bn
  else if bn - NDIRECT < NINDIRECT then .entry i (bn - NDIRECT)
  else .sentry ((bn - NDIRECT - NINDIRECT)/NINDIRECT) ((bn - NDIRECT - NINDIRECT)%NINDIRECT)

theorem leaf_direct (i bn : Nat) (h : bn < NDIRECT) : leaf i bn = .direct i bn := if_pos h

theorem leaf_entry (i bn : Nat) (h1 : ¬bn < NDIRECT) (h2 : bn - NDIRECT < NINDIRECT) :
    leaf i bn = .entry i (bn - NDIRECT) := by
  rw [leaf, if_neg h1, if_pos h2]

theorem leaf_sentry (i bn : Nat) (h1 : ¬bn < NDIRECT) (h2 : ¬bn - NDIRECT < NINDIRECT) :
    leaf i bn = .sentry ((bn - NDIRECT - NINDIRECT)/NINDIRECT)
      ((bn - NDIRECT - NINDIRECT)%NINDIRECT) := by
  rw [leaf, if_neg h1, if_neg h2]

theorem leaf_inRange (i bn : Nat) (h : bn < MAXFILE) : (leaf i bn).InRange := by
  by_cases h1 : bn < NDIRECT
  · rw [leaf_direct i bn h1]
    exact h1
  by_cases h2 : bn - NDIRECT < NINDIRECT
  · rw [leaf_entry i bn h1 h2]
    exact h2
  · rw [leaf_sentry i bn h1 h2]
    simp only [Slot.InRange, NDIRECT_eq, NINDIRECT_eq, MAXFILE_eq] at *
    omega

theorem leaf_isLeaf (i bn : Nat) : (leaf i bn).Leaf := by
  unfold leaf
  split_ifs <;> trivial

/-- Logical blocks from `NDIRECT+NINDIRECT` on are in slots of no inode. -/
theorem leaf_owner (i bn : Nat) :
    (leaf i bn).owner = if bn < NDIRECT + NINDIRECT then some i else none := by
  unfold leaf
  split_ifs <;> first | rfl | omega

/-- Below the doubly-indirect range a slot names its inode and logical block. -/
theorem leaf_inj (i j b c : Nat) (h : leaf i b = leaf j c) :
    b = c ∧ (i = j ∨ NDIRECT + NINDIRECT ≤ b) := by
  have cases3 (n : Nat) : n < NDIRECT ∨ (¬n < NDIRECT ∧ n - NDIRECT < NINDIRECT) ∨
      (¬n < NDIRECT ∧ ¬n - NDIRECT < NINDIRECT) := by tauto
  rcases cases3 b with hb | ⟨hb, hb'⟩ | ⟨hb, hb'⟩ <;>
    rcases cases3 c with hc | ⟨hc, hc'⟩ | ⟨hc, hc'⟩
  · rw [leaf_direct i b hb, leaf_direct j c hc, Slot.direct.injEq] at h
    exact ⟨h.2, Or.inl h.1⟩
  · rw [leaf_direct i b hb, leaf_entry j c hc hc'] at h
    cases h
  · rw [leaf_direct i b hb, leaf_sentry j c hc hc'] at h
    cases h
  · rw [leaf_entry i b hb hb', leaf_direct j c hc] at h
    cases h
  · rw [leaf_entry i b hb hb', leaf_entry j c hc hc', Slot.entry.injEq] at h
    exact ⟨by omega, Or.inl h.1⟩
  · rw [leaf_entry i b hb hb', leaf_sentry j c hc hc'] at h
    cases h
  · rw [leaf_sentry i b hb hb', leaf_direct j c hc] at h
    cases h
  · rw [leaf_sentry i b hb hb', leaf_entry j c hc hc'] at h
    cases h
  · rw [leaf_sentry i b hb hb', leaf_sentry j c hc hc', Slot.sentry.injEq] at h
    simp only [NDIRECT_eq, NINDIRECT_eq] at *
    omega

/-- The slots from `addrs[NDIRECT+1]` on are empty, and the bitmap and the other slots
agree: every block number in a slot is a marked data block,
no block number is in two slots and every marked data block is in one. -/
structure Tree (s : State) : Prop where
  wf : s.sb.WellFormed
  marked : MetaMarked s
  high : ∀ i k, NDIRECT < k → s.addr i k = 0
  used : ∀ sl : Slot, sl.InRange → s.val sl ≠ 0 →
    s.sb.datastart ≤ s.val sl ∧ s.val sl < s.sb.size ∧ s.bit (s.val sl) = true
  inj : ∀ sl sl' : Slot, sl.InRange → sl'.InRange → s.val sl ≠ 0 →
    s.val sl = s.val sl' → sl = sl'
  exact : ∀ b, s.sb.datastart ≤ b → b < s.sb.size → s.bit b = true →
    ∃ sl : Slot, sl.InRange ∧ s.val sl = b

/-- `t` extends `s`: full slots keep their block, the inodes keep everything but
their slots. -/
structure Extends (s t : State) : Prop where
  sb : t.sb = s.sb
  dinode : t.dinode = s.dinode
  other : ∀ i, (t.icache i).ref = (s.icache i).ref ∧ (t.icache i).valid = (s.icache i).valid ∧
    ∃ f, (t.icache i).copy = { (s.icache i).copy with addrs := f }
  val : ∀ sl : Slot, sl.InRange → s.val sl ≠ 0 → t.val sl = s.val sl

/-- An extension that leaves the data blocks alone. -/
structure Grows (s t : State) : Prop extends Extends s t where
  data : ∀ sl : Slot, sl.InRange → sl.Leaf → s.val sl ≠ 0 →
    t.block (s.val sl) = s.block (s.val sl)

theorem Extends.refl (s : State) : Extends s s :=
  ⟨rfl, rfl, fun _ => ⟨rfl, rfl, _, rfl⟩, fun _ _ _ => rfl⟩

theorem Extends.trans {s t u : State} (h : Extends s t) (h' : Extends t u) : Extends s u := by
  refine ⟨h'.sb.trans h.sb, h'.dinode.trans h.dinode, ?_, ?_⟩
  · intro i
    obtain ⟨r1, v1, f1, c1⟩ := h.other i
    obtain ⟨r2, v2, f2, c2⟩ := h'.other i
    exact ⟨r2.trans r1, v2.trans v1, f2, by rw [c2, c1]⟩
  · intro sl hr hn
    have ht := h.val sl hr hn
    rw [← ht] at hn
    exact (h'.val sl hr hn).trans ht

theorem Grows.refl (s : State) : Grows s s := ⟨Extends.refl s, fun _ _ _ _ => rfl⟩

theorem Grows.trans {s t u : State} (h : Grows s t) (h' : Grows t u) : Grows s u := by
  refine ⟨h.toExtends.trans h'.toExtends, ?_⟩
  intro sl hr hl hn
  have ht := h.val sl hr hn
  have hd := h.data sl hr hl hn
  rw [← ht] at hn hd ⊢
  rw [h'.data sl hr hl hn, hd]

theorem Extends.valid {s t : State} (h : Extends s t) (i : Nat) :
    (t.icache i).valid = (s.icache i).valid := (h.other i).2.1

theorem Extends.size {s t : State} (h : Extends s t) (i : Nat) :
    (t.node i).size = (s.node i).size := by
  obtain ⟨-, hv, f, hc⟩ := h.other i
  unfold State.node
  rw [hv, h.dinode, hc]
  split <;> rfl

section Allocate

variable {s s1 t : State} {a : Nat} {sl : Slot}

theorem Tree.notBitmap (hs : Tree s) (sl : Slot) (hr : sl.InRange) (hn : s.val sl ≠ 0) :
    ¬s.sb.Bitmap (s.val sl) := by
  intro hb
  have := (hs.used sl hr hn).1
  have := hb.2
  omega

theorem Tree.notBitmap_zero (hs : Tree s) : ¬s.sb.Bitmap 0 := by
  intro hb
  have := hs.wf.boot
  have := hb.1
  omega

/-- A block held by a slot survives the allocation of another block. -/
theorem Tree.block_kept (hs : Tree s) (ha : Allocated s s1 a) (sl : Slot) (hr : sl.InRange)
    (hn : s.val sl ≠ 0) : s1.block (s.val sl) = s.block (s.val sl) := by
  apply ha.block _ _ (hs.notBitmap sl hr hn)
  intro he
  have hu := (hs.used sl hr hn).2.2
  rw [he, ha.free] at hu
  cases hu

theorem Tree.ne_fresh (hs : Tree s) (ha : Allocated s s1 a) (sl : Slot) (hr : sl.InRange) :
    s.val sl ≠ a := by
  intro he
  have hn : s.val sl ≠ 0 := by
    have := s.sb.datastart_pos
    have := ha.data
    omega
  have hu := (hs.used sl hr hn).2.2
  rw [he, ha.free] at hu
  cases hu

theorem Tree.fresh_ne_zero (ha : Allocated s s1 a) : a ≠ 0 := by
  have := s.sb.datastart_pos
  have := ha.data
  omega

theorem Tree.zero_kept (hs : Tree s) (ha : Allocated s s1 a) : s1.block 0 = s.block 0 :=
  ha.block 0 (Tree.fresh_ne_zero ha).symm hs.notBitmap_zero

/-- Filling one empty slot with a fresh block keeps the invariant. -/
theorem Tree.fill (hs : Tree s) (ha : Allocated s s1 a) (hr : sl.InRange) (hz : s.val sl = 0)
    (hsb : t.sb = s.sb) (hbit : ∀ b, b < s.sb.size → t.bit b = s1.bit b)
    (hhigh : ∀ i k, NDIRECT < k → t.addr i k = s.addr i k)
    (hval : ∀ sl' : Slot, sl'.InRange → t.val sl' = if sl' = sl then a else s.val sl') :
    Tree t := by
  have hb (b : Nat) (h : b < s.sb.size) : t.bit b = (decide (a = b) || s.bit b) :=
    (hbit b h).trans (ha.bit b h)
  refine ⟨by rw [hsb]; exact hs.wf, ?_, ?_, ?_, ?_, ?_⟩
  · intro b hd hlt
    rw [hsb] at hd hlt
    rw [hb b hlt, hs.marked b hd hlt, Bool.or_true]
  · intro i k hk
    rw [hhigh i k hk, hs.high i k hk]
  · intro sl' hr' hn
    rw [hval sl' hr'] at hn ⊢
    rw [hsb]
    split_ifs at hn ⊢ with he
    · exact ⟨ha.data, ha.lt_size, by rw [hb a ha.lt_size]; simp⟩
    · obtain ⟨h1, h2, h3⟩ := hs.used sl' hr' hn
      exact ⟨h1, h2, by rw [hb _ h2, h3, Bool.or_true]⟩
  · intro x y hx hy hn he
    rw [hval x hx] at hn he
    rw [hval y hy] at he
    by_cases hxs : x = sl <;> by_cases hys : y = sl
    · rw [hxs, hys]
    · rw [if_pos hxs, if_neg hys] at he
      exact absurd he.symm (hs.ne_fresh ha y hy)
    · rw [if_neg hxs, if_pos hys] at he
      exact absurd he (hs.ne_fresh ha x hx)
    · rw [if_neg hxs] at hn he
      rw [if_neg hys] at he
      exact hs.inj x y hx hy hn he
  · intro b hd hlt hbt
    rw [hsb] at hd hlt
    rw [hb b hlt] at hbt
    by_cases hab : a = b
    · exact ⟨sl, hr, by rw [hval sl hr, if_pos rfl, hab]⟩
    · obtain ⟨sl', hr', hv⟩ := hs.exact b hd hlt (by simpa [hab] using hbt)
      refine ⟨sl', hr', ?_⟩
      rw [hval sl' hr', if_neg, hv]
      intro he
      rw [he, hz] at hv
      have := s.sb.datastart_pos
      omega

end Allocate

end Xv6Labs.Fs
