import Xv6Labs.FsBmap
import Mathlib.Data.List.TakeWhile

/-! File data: the bytes of an inode, and what the loops of readi and writei do to them. -/
namespace Xv6Labs.Fs

/-- Byte `p` of inode `i`, read through its slot. -/
def State.byteAt (s : State) (i p : Nat) : UInt8 := s.block (s.val (leaf i (p/BSIZE))) (p%BSIZE)

theorem val_congr (s t : State) (hb : t.block = s.block) (ha : ∀ i k, t.addr i k = s.addr i k)
    (sl : Slot) : t.val sl = s.val sl := by
  cases sl <;> simp only [State.val, hb, ha]

theorem byteAt_congr (s t : State) (hb : t.block = s.block) (ha : ∀ i k, t.addr i k = s.addr i k)
    (i p : Nat) : t.byteAt i p = s.byteAt i p := by
  simp only [State.byteAt, val_congr s t hb ha, hb]

theorem Tree.congr {s t : State} (hs : Tree s) (hsb : t.sb = s.sb) (hb : t.block = s.block)
    (ha : ∀ i k, t.addr i k = s.addr i k) : Tree t := by
  have hbit (b : Nat) : t.bit b = s.bit b := by simp only [State.bit, hsb, hb]
  refine ⟨by rw [hsb]; exact hs.wf, ?_, fun i k hk => by rw [ha, hs.high i k hk], ?_, ?_, ?_⟩
  · intro b
    rw [hsb, hbit]
    exact hs.marked b
  · intro sl
    rw [hsb, hbit, val_congr s t hb ha]
    exact hs.used sl
  · intro sl sl'
    rw [val_congr s t hb ha, val_congr s t hb ha]
    exact hs.inj sl sl'
  · intro b
    simp only [hsb, hbit, val_congr s t hb ha]
    exact hs.exact b

section DataStore

variable {s : State} {sl : Slot} {d : Bytes}

/-- Storing into a data block changes no slot. -/
theorem Tree.modify_val (hs : Tree s) (hr : sl.InRange) (hl : sl.Leaf) (hn : s.val sl ≠ 0)
    (sl' : Slot) (hr' : sl'.InRange) : (s.modify (s.val sl) d).val sl' = s.val sl' := by
  have hidx (x : Slot) (hx : x.InRange) (hxl : ¬x.Leaf) (hxn : s.val x ≠ 0) :
      s.val x ≠ s.val sl := by
    intro he
    rw [hs.inj x sl hx hr hxn he] at hxl
    exact hxl hl
  generalize s.val sl = p at hn hidx
  cases sl' with
  | direct i k => rfl
  | root i => rfl
  | entry i k =>
    exact word_congr _ _ _ _
      (fun h => Function.update_of_ne (hidx (.root i) trivial id h) _ _)
  | sroot k => simp only [State.val, modify_block, Function.update_of_ne hn.symm]
  | sentry k l =>
    simp only [State.val, modify_block, Function.update_of_ne hn.symm]
    exact word_congr _ _ _ _
      (fun h => Function.update_of_ne (hidx (.sroot k) hr'.1 id h) _ _)

theorem Tree.modify (hs : Tree s) (hr : sl.InRange) (hl : sl.Leaf) (hn : s.val sl ≠ 0) :
    Tree (s.modify (s.val sl) d) := by
  have hval := fun sl' hr' => hs.modify_val (d := d) hr hl hn sl' hr'
  have hbit (b : Nat) (hb : b < s.sb.size) : (s.modify (s.val sl) d).bit b = s.bit b := by
    have hne : BBLOCK s.sb b ≠ s.val sl := by
      intro he
      exact hs.notBitmap sl hr hn (he ▸ bblock_bitmap s.sb b hb)
    simp only [State.bit, modify_sb, modify_block, Function.update_of_ne hne]
  refine ⟨hs.wf, ?_, hs.high, ?_, ?_, ?_⟩
  · intro b hd hlt
    rw [hbit b hlt]
    exact hs.marked b hd hlt
  · intro sl' hr' hn'
    rw [hval sl' hr'] at hn' ⊢
    obtain ⟨h1, h2, h3⟩ := hs.used sl' hr' hn'
    exact ⟨h1, h2, by rw [hbit _ h2, h3]⟩
  · intro x y hx hy
    rw [hval x hx, hval y hy]
    exact hs.inj x y hx hy
  · intro b hd hlt hb
    rw [hbit b hlt] at hb
    obtain ⟨x, hx, hv⟩ := hs.exact b hd hlt hb
    exact ⟨x, hx, by rw [hval x hx, hv]⟩

theorem Tree.modify_ext (hs : Tree s) (hr : sl.InRange) (hl : sl.Leaf) (hn : s.val sl ≠ 0) :
    Extends s (s.modify (s.val sl) d) :=
  ⟨rfl, rfl, fun _ => ⟨rfl, rfl, _, rfl⟩, fun sl' hr' _ => hs.modify_val hr hl hn sl' hr'⟩

end DataStore

theorem logWrite_val (s : State) (b : Nat) (d : Bytes) (sl : Slot) :
    (s.logWrite b d).val sl = (s.modify b d).val sl := val_congr _ _ rfl (fun _ _ => rfl) sl

theorem logWrite_byteAt (s : State) (b : Nat) (d : Bytes) (i p : Nat) :
    (s.logWrite b d).byteAt i p = (s.modify b d).byteAt i p :=
  byteAt_congr _ _ rfl (fun _ _ => rfl) i p

theorem logWrite_tree {s : State} {b : Nat} {d : Bytes} (h : Tree (s.modify b d)) :
    Tree (s.logWrite b d) := h.congr rfl rfl (fun _ _ => rfl)

theorem logWrite_ext {s t : State} {b : Nat} {d : Bytes} (h : Extends t (s.modify b d)) :
    Extends t (s.logWrite b d) := by
  refine ⟨h.sb, h.dinode, h.other, ?_⟩
  intro sl hr hn
  rw [logWrite_val]
  exact h.val sl hr hn

section Copyin

variable (blk : Bytes) (o : Nat) (src : Nat → Option UInt8) (tot m : Nat)

/-- Bytes outside the target range are not touched, also by a failing copy. -/
theorem eitherCopyin_outside (k : Nat) (hk : ¬(o ≤ k ∧ k < o + m)) :
    (eitherCopyin blk o src tot m).2 k = blk k := by
  have hc := (List.takeWhile_prefix (l := List.range m)
    (fun j => (src (tot + j)).isSome)).length_le
  rw [List.length_range] at hc
  simp only [eitherCopyin]
  rw [if_neg]
  omega

/-- A copy that succeeds has moved every byte. -/
theorem eitherCopyin_inside (hok : (eitherCopyin blk o src tot m).1 = true) (k : Nat)
    (hk : o ≤ k ∧ k < o + m) :
    src (tot + (k - o)) = some ((eitherCopyin blk o src tot m).2 k) := by
  simp only [eitherCopyin, beq_iff_eq] at hok ⊢
  rw [hok, if_pos hk]
  have hall : (List.range m).takeWhile (fun j => (src (tot + j)).isSome) = List.range m :=
    (List.takeWhile_prefix _).eq_of_length (by rw [hok, List.length_range])
  have hmem : k - o ∈ (List.range m).takeWhile (fun j => (src (tot + j)).isSome) := by
    rw [hall]
    exact List.mem_range.mpr (by omega)
  have hsome := List.mem_takeWhile_imp hmem
  obtain ⟨v, hv⟩ := Option.isSome_iff_exists.mp hsome
  rw [hv, Option.getD_some]

theorem eitherCopyin_total (h : ∀ j, j < m → (src (tot + j)).isSome) :
    (eitherCopyin blk o src tot m).1 = true := by
  have hall : (List.range m).takeWhile (fun j => (src (tot + j)).isSome) = List.range m :=
    List.takeWhile_eq_self_iff.mpr (fun j hj => h j (List.mem_range.mp hj))
  simp only [eitherCopyin, hall, List.length_range, beq_self_eq_true]

end Copyin

/-- What the writei loop has done when it stops at `tot'`. -/
structure Wrote (s t : State) (i : Nat) (src : Nat → Option UInt8) (off n tot tot' : Nat) :
    Prop where
  tree : Tree t
  ext : Extends s t
  start_le : tot ≤ tot'
  le_n : tot' ≤ n
  written : ∀ p, off ≤ p → p < off + (tot' - tot) →
    t.val (leaf i (p/BSIZE)) ≠ 0 ∧ src (tot + (p - off)) = some (t.byteAt i p)
  kept : ∀ j p, p < MAXFILE*BSIZE → s.val (leaf j (p/BSIZE)) ≠ 0 →
    ¬(leaf j (p/BSIZE) = leaf i (p/BSIZE) ∧ off ≤ p ∧ p < off + (n - tot)) →
    t.byteAt j p = s.byteAt j p
  total : (∀ k, k < n → (src k).isSome) → tot' = n
  frame : ∀ sl : Slot, sl.InRange → sl.owner ≠ some i →
    (sl.owner = none → n ≤ tot ∨ off + (n - tot) ≤ (NDIRECT + NINDIRECT)*BSIZE) →
    t.val sl = s.val sl
  cache : ∀ j, j ≠ i → t.icache j = s.icache j

section WriteLoop

variable {s : State} {i : Nat} (src : Nat → Option UInt8)

/-- One round of the loop, before the next one: block `bn` of the file has been stored. -/
theorem wrote_chunk (s1 : State) (bn : Nat) (d : Bytes) (off n tot m : Nat)
    (hbn : bn = off/BSIZE) (hrange : bn < MAXFILE) (hs1 : Tree s1) (hg : Grows s s1)
    (hn : s1.val (leaf i bn) ≠ 0) (hmn : tot + m ≤ n)
    (hout : ∀ k, ¬(off%BSIZE ≤ k ∧ k < off%BSIZE + m) → d k = s1.block (s1.val (leaf i bn)) k)
    (j p : Nat) (hp : p < MAXFILE*BSIZE) (hv : s.val (leaf j (p/BSIZE)) ≠ 0)
    (hne : ¬(leaf j (p/BSIZE) = leaf i (p/BSIZE) ∧ off ≤ p ∧ p < off + (n - tot))) :
    (s1.modify (s1.val (leaf i bn)) d).byteAt j p = s.byteAt j p := by
  have hpb : p/BSIZE < MAXFILE := by
    simp only [BSIZE_eq, MAXFILE_eq] at *
    omega
  have hrj := leaf_inRange j (p/BSIZE) hpb
  have hval1 := hg.val _ hrj hv
  have hs1v : s1.val (leaf j (p/BSIZE)) ≠ 0 := by rw [hval1]; exact hv
  have hdata := hg.data _ hrj (leaf_isLeaf j _) hv
  unfold State.byteAt
  rw [hs1.modify_val (leaf_inRange i bn hrange) (leaf_isLeaf i bn) hn _ hrj, modify_block]
  by_cases he : s1.val (leaf j (p/BSIZE)) = s1.val (leaf i bn)
  · -- the same block: the byte lies outside the stored part of it
    have hsl := hs1.inj _ _ hrj (leaf_inRange i bn hrange) hs1v he
    obtain ⟨hb, -⟩ := leaf_inj j i _ _ hsl
    have hnot : ¬(off%BSIZE ≤ p%BSIZE ∧ p%BSIZE < off%BSIZE + m) := by
      intro hin
      apply hne
      refine ⟨by rw [hsl, hb], ?_, ?_⟩ <;>
      · simp only [BSIZE_eq] at *
        omega
    rw [← he, Function.update_self, hout _ hnot, ← he, hval1, hdata]
  · rw [Function.update_of_ne he, hval1, hdata]

/-- The loop of writei: the bytes up to where it stopped are the source's bytes, every
byte outside the requested range is unchanged, also one of another inode. -/
theorem writeiLoop_wrote (hs : Tree s) (hv : (s.icache i).valid = true) (off n tot : Nat)
    (htot : tot ≤ n) (hmax : off + (n - tot) ≤ MAXFILE*BSIZE) :
    (∀ r t, writeiLoop s i src off n tot = .ok (r, t) →
      r.2 = off + (r.1 - tot) ∧ Wrote s t i src off n tot r.1) ∧
    (∀ p, writeiLoop s i src off n tot = .error p → p = .ballocOutOfBlocks) := by
  -- by induction on the bytes that are left; a round writes those up to the next block
  induction hk : n - tot using Nat.strong_induction_on generalizing s off tot with
  | _ k ih =>
    rw [writeiLoop]
    by_cases hlt : tot < n
    · rw [if_pos hlt]
      have hoff : off/BSIZE < MAXFILE := by
        simp only [BSIZE_eq, MAXFILE_eq] at *
        omega
      have hmod := Nat.mod_lt off (show 0 < BSIZE by decide)
      have hspec := bmap_spec hs i (off/BSIZE) hv hoff
      cases hb : bmap s i (off/BSIZE) with
      | error p =>
        refine ⟨fun r t h => (by cases h), fun p' h => ?_⟩
        rw [← Except.error.inj h]
        exact hspec.error p hb
      | ok r =>
        obtain ⟨addr, s1⟩ := r
        obtain ⟨hs1, hg, rfl, hn⟩ := hspec.ok addr s1 hb
        have hv1 : (s1.icache i).valid = true := by rw [hg.valid, hv]
        have hm1 : min (n - tot) (BSIZE - off%BSIZE) ≤ n - tot := min_le_left _ _
        have hm2 : min (n - tot) (BSIZE - off%BSIZE) ≤ BSIZE - off%BSIZE := min_le_right _ _
        have hm0 : 0 < min (n - tot) (BSIZE - off%BSIZE) := by
          rw [lt_min_iff]
          omega
        have hmfull : min (n - tot) (BSIZE - off%BSIZE) = n - tot ∨
            min (n - tot) (BSIZE - off%BSIZE) = BSIZE - off%BSIZE := min_choice _ _
        simp only
        generalize min (n - tot) (BSIZE - off%BSIZE) = m at *
        -- the block is the leaf of this inode, which the copy changes from off on
        have hr := leaf_inRange i (off/BSIZE) hoff
        have hl := leaf_isLeaf i (off/BSIZE)
        have hout := eitherCopyin_outside (s1.block (s1.val (leaf i (off/BSIZE))))
          (off%BSIZE) src tot m
        have hins := eitherCopyin_inside (s1.block (s1.val (leaf i (off/BSIZE))))
          (off%BSIZE) src tot m
        have htotal := eitherCopyin_total (s1.block (s1.val (leaf i (off/BSIZE))))
          (off%BSIZE) src tot m
        generalize eitherCopyin (s1.block (s1.val (leaf i (off/BSIZE)))) (off%BSIZE) src tot m
          = c at *
        have hkept := wrote_chunk s1 _ c.2 off n tot m rfl hoff hs1 hg hn
          (by omega) hout
        -- another inode's slots: bmap allocates below this inode only
        have hframe (sl : Slot) (hsl : sl.InRange) (ho : sl.owner ≠ some i)
            (hsh : sl.owner = none → n ≤ tot ∨ off + (n - tot) ≤ (NDIRECT + NINDIRECT)*BSIZE) :
            (s1.modify (s1.val (leaf i (off/BSIZE))) c.2).val sl = s.val sl := by
          rw [hs1.modify_val hr hl hn sl hsl]
          apply hspec.frame _ s1 hb sl hsl
          rw [leaf_owner]
          split_ifs with hlow
          · exact ho
          · intro hno
            have := hsh hno
            simp only [BSIZE_eq] at *
            omega
        -- the round has copied all its bytes, and the loop goes on
        by_cases hc : c.1 = true
        · rw [if_pos hc]
          have ht2 := logWrite_tree (hs1.modify (d := c.2) hr hl hn)
          have he2 : Extends s (s1.logWrite (s1.val (leaf i (off/BSIZE))) c.2) :=
            hg.toExtends.trans (logWrite_ext (hs1.modify_ext hr hl hn))
          have hv2 : ((s1.logWrite (s1.val (leaf i (off/BSIZE))) c.2).icache i).valid = true := hv1
          obtain ⟨ihok, iherr⟩ := ih (n - (tot + m)) (by omega) ht2 hv2 (off + m) (tot + m)
            (by omega) (by omega) rfl
          refine ⟨?_, iherr⟩
          intro r t hres
          obtain ⟨hr2, hw⟩ := ihok r t hres
          have hle := hw.start_le
          have hn2 := hw.le_n
          refine ⟨by omega, hw.tree, he2.trans hw.ext, by omega, hw.le_n, ?_, ?_, hw.total, ?_, ?_⟩
          · intro p hp1 hp2
            by_cases hp : off + m ≤ p
            · obtain ⟨h1, h2⟩ := hw.written p hp (by omega)
              exact ⟨h1, by rw [← h2]; congr 1; omega⟩
            · -- a byte of this round, which the later rounds leave alone
              have hpb : p/BSIZE = off/BSIZE := by simp only [BSIZE_eq] at *; omega
              have hsl : (s1.logWrite (s1.val (leaf i (off/BSIZE))) c.2).val (leaf i (p/BSIZE)) =
                  s1.val (leaf i (off/BSIZE)) := by
                rw [hpb, logWrite_val]
                exact hs1.modify_val hr hl hn _ hr
              have hsl0 : (s1.logWrite (s1.val (leaf i (off/BSIZE))) c.2).val
                  (leaf i (p/BSIZE)) ≠ 0 := by rw [hsl]; exact hn
              have hrp : (leaf i (p/BSIZE)).InRange := by rw [hpb]; exact hr
              refine ⟨by rw [hw.ext.val _ hrp hsl0]; exact hsl0, ?_⟩
              rw [hw.kept i p (by omega) hsl0 (by omega)]
              unfold State.byteAt
              rw [hsl, logWrite_block, Function.update_self,
                ← hins hc (p%BSIZE) (by simp only [BSIZE_eq] at *; omega)]
              congr 1
              simp only [BSIZE_eq] at *
              omega
          · intro j p hp hval hne
            have hsv :
                (s1.logWrite (s1.val (leaf i (off/BSIZE))) c.2).val (leaf j (p/BSIZE)) ≠ 0 := by
              have hpb : p/BSIZE < MAXFILE := by
                simp only [BSIZE_eq, MAXFILE_eq] at *
                omega
              rw [he2.val _ (leaf_inRange j _ hpb) hval]
              exact hval
            rw [hw.kept j p hp hsv (fun h => hne ⟨h.1, by omega, by omega⟩), logWrite_byteAt]
            exact hkept j p hp hval hne
          · intro sl hsl ho hsh
            rw [hw.frame sl hsl ho (fun h => by have := hsh h; omega), logWrite_val]
            exact hframe sl hsl ho hsh
          · intro j hj
            rw [hw.cache j hj]
            exact bmap_icache i _ _ s1 hb j hj
        · -- a source byte faults: the block has the bytes before it, and tot does not count them
          rw [if_neg hc]
          refine ⟨?_, fun p h => by cases h⟩
          intro r t hres
          simp only [Except.ok.injEq, Prod.mk.injEq] at hres
          obtain ⟨rfl, rfl⟩ := hres
          refine ⟨by simp, hs1.modify hr hl hn, hg.toExtends.trans (hs1.modify_ext hr hl hn),
            le_rfl, by omega, fun p h1 h2 => by omega, hkept, ?_, hframe,
            fun j hj => bmap_icache i _ _ s1 hb j hj⟩
          intro hall
          exact absurd (htotal (fun j hj => hall _ (by omega))) hc
    · rw [if_neg hlt]
      refine ⟨?_, fun p h => by cases h⟩
      intro r t hres
      simp only [Except.ok.injEq, Prod.mk.injEq] at hres
      obtain ⟨rfl, rfl⟩ := hres
      refine ⟨by simp, hs, Extends.refl s, le_rfl, htot, fun p h1 h2 => by omega,
        fun j p _ _ _ => rfl, fun _ => by omega, fun _ _ _ _ => rfl, fun _ _ => rfl⟩

/-- Rounds of the loop for `len` bytes at `off`: the blocks the range touches. -/
def rounds (off len : Nat) : Nat :=
  if len = 0 then 0 else (off + len - 1)/BSIZE - off/BSIZE + 1

theorem rounds_pos (off len : Nat) (h : 0 < len) : 1 ≤ rounds off len := by
  rw [rounds, if_neg (by omega)]
  omega

theorem rounds_step (off len m : Nat) (hm0 : 0 < m) (hm : m ≤ len)
    (hfull : m = len ∨ m = BSIZE - off%BSIZE) :
    1 + rounds (off + m) (len - m) ≤ rounds off len := by
  unfold rounds
  simp only [BSIZE_eq] at *
  split_ifs <;> omega

/-- The loop finds room when enough of the bitmap is clear: two blocks a round. -/
theorem writeiLoop_room (hs : Tree s) (hv : (s.icache i).valid = true) (off n tot N : Nat)
    (htot : tot ≤ n) (hmax : off + (n - tot) ≤ MAXFILE*BSIZE) (hN : ClearFrom s N)
    (hroom : N + 2*rounds off (n - tot) ≤ s.sb.size) :
    ∃ r t, writeiLoop s i src off n tot = .ok (r, t) ∧
      ClearFrom t (N + 2*rounds off (n - tot)) := by
  induction hk : n - tot using Nat.strong_induction_on generalizing s off tot N with
  | _ k ih =>
    rw [writeiLoop]
    by_cases hlt : tot < n
    · rw [if_pos hlt]
      have hoff : off/BSIZE < MAXFILE := by
        simp only [BSIZE_eq, MAXFILE_eq] at *
        omega
      have hmod := Nat.mod_lt off (show 0 < BSIZE by decide)
      have hspec := bmap_spec hs i (off/BSIZE) hv hoff
      have hround := rounds_pos off (n - tot) (by omega)
      obtain ⟨addr, s1, hb, hN1⟩ := hspec.room N hN (by omega)
      obtain ⟨hs1, hg, rfl, hn⟩ := hspec.ok addr s1 hb
      rw [hb]
      have hv1 : (s1.icache i).valid = true := by rw [hg.valid, hv]
      have hr := leaf_inRange i (off/BSIZE) hoff
      have hl := leaf_isLeaf i (off/BSIZE)
      have hclear (d : Bytes) (M : Nat) (hM : N + 2 ≤ M) :
          ClearFrom (s1.modify (s1.val (leaf i (off/BSIZE))) d) M := by
        intro b hMb hbs
        have hne : BBLOCK s1.sb b ≠ s1.val (leaf i (off/BSIZE)) := by
          intro he
          exact hs1.notBitmap _ hr hn (he ▸ bblock_bitmap s1.sb b hbs)
        have := hN1 b (by omega) hbs
        simpa only [State.bit, modify_sb, modify_block, Function.update_of_ne hne] using this
      simp only
      have hm1 : min (n - tot) (BSIZE - off%BSIZE) ≤ n - tot := min_le_left _ _
      have hm0 : 0 < min (n - tot) (BSIZE - off%BSIZE) := by
        rw [lt_min_iff]
        omega
      have hmfull : min (n - tot) (BSIZE - off%BSIZE) = n - tot ∨
          min (n - tot) (BSIZE - off%BSIZE) = BSIZE - off%BSIZE := min_choice _ _
      generalize min (n - tot) (BSIZE - off%BSIZE) = m at *
      generalize eitherCopyin (s1.block (s1.val (leaf i (off/BSIZE)))) (off%BSIZE) src tot m = c
      by_cases hc : c.1 = true
      · rw [if_pos hc]
        -- one round fewer: the rest starts on the next block or is empty
        have hnext := rounds_step off (n - tot) m hm0 hm1 hmfull
        rw [Nat.sub_sub] at hnext
        obtain ⟨r, t, hres, hN2⟩ := ih (n - (tot + m)) (by omega)
          (logWrite_tree (hs1.modify (d := c.2) hr hl hn)) hv1 (off + m) (tot + m) (N + 2)
          (by omega) (by omega) (hclear c.2 (N + 2) le_rfl)
          (by simp only [logWrite_sb, hg.sb]; omega) rfl
        exact ⟨r, t, hres, fun b hb hbs => hN2 b (by rw [hk] at hnext; omega) hbs⟩
      · rw [if_neg hc]
        exact ⟨_, _, rfl, hclear c.2 _ (by rw [hk] at hround; omega)⟩
    · rw [if_neg hlt]
      exact ⟨_, _, rfl, fun b hb hbs => hN b (by omega) hbs⟩

end WriteLoop

/-- Reading mapped blocks changes nothing and yields the bytes in order. -/
theorem readiLoop_bytes {s : State} {i : Nat} (hs : Tree s) (hv : (s.icache i).valid = true)
    (off n tot : Nat) (out : List UInt8) (htot : tot ≤ n)
    (hmax : off + (n - tot) ≤ MAXFILE*BSIZE)
    (hmap : ∀ p, off ≤ p → p < off + (n - tot) → s.val (leaf i (p/BSIZE)) ≠ 0) :
    readiLoop s i (fun _ _ => true) off n tot out =
      .ok (some (out ++ (List.range (n - tot)).map (fun j => s.byteAt i (off + j))), s) := by
  induction hk : n - tot using Nat.strong_induction_on generalizing off tot out with
  | _ k ih =>
    rw [readiLoop]
    by_cases hlt : tot < n
    · rw [if_pos hlt]
      have hoff : off/BSIZE < MAXFILE := by
        simp only [BSIZE_eq, MAXFILE_eq] at *
        omega
      have hmod := Nat.mod_lt off (show 0 < BSIZE by decide)
      rw [(bmap_spec hs i (off/BSIZE) hv hoff).full (hmap off le_rfl (by omega))]
      simp only [if_true]
      have hm1 : min (n - tot) (BSIZE - off%BSIZE) ≤ n - tot := min_le_left _ _
      have hm2 : min (n - tot) (BSIZE - off%BSIZE) ≤ BSIZE - off%BSIZE := min_le_right _ _
      have hm0 : 0 < min (n - tot) (BSIZE - off%BSIZE) := by
        rw [lt_min_iff]
        omega
      generalize min (n - tot) (BSIZE - off%BSIZE) = m at *
      rw [ih (n - (tot + m)) (by omega) (off + m) (tot + m) _ (by omega) (by omega)
        (fun p h1 h2 => hmap p (by omega) (by omega)) rfl]
      have hsplit : k = m + (n - (tot + m)) := by omega
      have hchunk : (List.range m).map
          (fun j => s.block (s.val (leaf i (off/BSIZE))) (off%BSIZE + j)) =
          (List.range m).map (fun j => s.byteAt i (off + j)) := by
        apply List.map_congr_left
        intro j hj
        have hj' := List.mem_range.mp hj
        have hq : (off + j)/BSIZE = off/BSIZE := by simp only [BSIZE_eq] at *; omega
        have hmm : (off + j)%BSIZE = off%BSIZE + j := by simp only [BSIZE_eq] at *; omega
        simp only [State.byteAt, hq, hmm]
      rw [hchunk, hsplit, List.range_add, List.map_append, List.map_map, List.append_assoc]
      simp only [Function.comp_def, Nat.add_assoc]
    · rw [if_neg hlt]
      have hz : k = 0 := by omega
      simp [hz]

end Xv6Labs.Fs
