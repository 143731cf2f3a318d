import Xv6Labs.FsTrunc

/-! The invariant of the file system between operations, and what each operation on a
locked inode does to sizes, bytes and slots. -/
namespace Xv6Labs.Fs

/-- Bytes that the direct and singly-indirect slots can hold. -/
def singleLimit : Nat := (NDIRECT + NINDIRECT)*BSIZE

structure Inv (s : State) : Prop where
  tree : Tree s
  mapped : ∀ i p, p < (s.node i).size → s.val (leaf i (p/BSIZE)) ≠ 0
  small : ∀ i, (s.node i).size ≤ MAXFILE*BSIZE
  sync : ∀ i, (s.icache i).valid = true → (s.icache i).copy = s.dinode i
  typed : ∀ i, (s.icache i).valid = true → (s.icache i).copy.type ≠ 0
  free : ∀ i, (s.dinode i).type = 0 →
    (s.dinode i).size = 0 ∧ ∀ k, (s.dinode i).addrs k = 0

theorem Inv.node_eq {s : State} (hs : Inv s) (i : Nat) : s.node i = s.dinode i := by
  unfold State.node
  split
  · rename_i hv
    exact hs.sync i hv
  · rfl

/-- A change of the cache and the inode table that leaves sizes and slots alone. -/
theorem Inv.congr {s t : State} (hs : Inv s) (hsb : t.sb = s.sb) (hb : t.block = s.block)
    (ha : ∀ i k, t.addr i k = s.addr i k) (hn : ∀ i, (t.node i).size = (s.node i).size)
    (hsync : ∀ i, (t.icache i).valid = true → (t.icache i).copy = t.dinode i)
    (htyped : ∀ i, (t.icache i).valid = true → (t.icache i).copy.type ≠ 0)
    (hfree : ∀ i, (t.dinode i).type = 0 →
      (t.dinode i).size = 0 ∧ ∀ k, (t.dinode i).addrs k = 0) : Inv t := by
  refine ⟨hs.tree.congr hsb hb ha, ?_, ?_, hsync, htyped, hfree⟩
  · intro i p hp
    rw [hn] at hp
    rw [val_congr s t hb ha]
    exact hs.mapped i p hp
  · intro i
    rw [hn]
    exact hs.small i

section Resize

/-- The end of writei: `if(off > ip->size) ip->size = off; iupdate(ip);` -/
def resize (s : State) (i off : Nat) : State :=
  iupdate (if off > (s.node i).size then s.setSize i off else s) i

variable (s : State) (i off : Nat)

theorem resize_icache (j : Nat) (hv : (s.icache i).valid = true) :
    (resize s i off).icache j =
      if j = i then { (s.icache i) with
        copy := { (s.icache i).copy with size := max (s.icache i).copy.size off } }
      else s.icache j := by
  unfold resize
  rw [node_of_valid s i hv]
  by_cases hj : j = i
  · subst hj
    split
    · rename_i hgt
      simp [iupdate, State.setSize, State.setCopy, max_eq_right (le_of_lt hgt)]
    · rename_i hgt
      simp [iupdate, max_eq_left (not_lt.mp hgt)]
  · split <;> simp [iupdate, State.setSize, State.setCopy, hj]

theorem resize_dinode : (resize s i off).dinode =
    Function.update s.dinode i ((resize s i off).icache i).copy := by
  unfold resize
  split <;> rfl

theorem resize_node (j : Nat) (hv : (s.icache i).valid = true) :
    (resize s i off).node j =
      if j = i then { (s.node i) with size := max (s.node i).size off } else s.node j := by
  unfold State.node
  rw [resize_icache s i off j hv, resize_dinode]
  by_cases hj : j = i
  · subst hj
    simp [hv]
  · simp [hj]

theorem resize_block : (resize s i off).block = s.block := by
  unfold resize
  split <;> rfl

theorem resize_sb : (resize s i off).sb = s.sb := by
  unfold resize
  split <;> rfl

theorem resize_addr (j k : Nat) (hv : (s.icache i).valid = true) :
    (resize s i off).addr j k = s.addr j k := by
  unfold State.addr
  rw [resize_node s i off j hv]
  split
  · rename_i hj
    rw [hj]
  · rfl

end Resize

/-- An accepted writei stored `tot` bytes. -/
structure Written (s t : State) (i : Nat) (src : Nat → Option UInt8) (off n tot : Nat) :
    Prop where
  inv : Inv t
  sb : t.sb = s.sb
  tot_le : tot ≤ n
  size : ∀ j, (t.node j).size = if j = i then max (s.node i).size (off + tot) else (s.node j).size
  cache : ∀ j, (t.icache j).valid = (s.icache j).valid ∧ (t.icache j).ref = (s.icache j).ref
  written : ∀ p, off ≤ p → p < off + tot → src (p - off) = some (t.byteAt i p)
  kept : ∀ j p, p < (s.node j).size →
    ¬(leaf j (p/BSIZE) = leaf i (p/BSIZE) ∧ off ≤ p ∧ p < off + n) → t.byteAt j p = s.byteAt j p
  total : (∀ k, k < n → (src k).isSome) → tot = n
  frame : ∀ sl : Slot, sl.InRange → sl.owner ≠ some i →
    (sl.owner = none → n = 0 ∨ off + n ≤ singleLimit) → t.val sl = s.val sl

/-- writei takes offset `off` and length `n`. -/
def Accepts (size off n : Nat) : Prop := off ≤ size ∧ off + n ≤ MAXFILE*BSIZE

instance (size off n : Nat) : Decidable (Accepts size off n) :=
  inferInstanceAs (Decidable (_ ∧ _))

theorem add_lt_self_iff (a b : UInt32) : a + b < a ↔ 2^32 ≤ a.toNat + b.toNat := by
  rw [UInt32.lt_iff_toNat_lt, UInt32.toNat_add]
  have := a.toNat_lt
  have := b.toNat_lt
  omega

section Writei

variable {s : State} {i : Nat} (src : Nat → Option UInt8) {off n : UInt32}

theorem writei_rejected (h : ¬Accepts (s.node i).size off.toNat n.toNat) :
    writei s i src off n = .ok (none, s) := by
  unfold writei
  split
  · rfl
  · rename_i h1
    simp only [Bool.or_eq_true, decide_eq_true_eq, add_lt_self_iff, not_or] at h1
    rw [if_pos]
    rw [UInt32.toNat_add, Nat.mod_eq_of_lt (by omega)]
    unfold Accepts at h
    omega

theorem writei_accepted (h : Accepts (s.node i).size off.toNat n.toNat) :
    writei s i src off n = (writeiLoop s i src off.toNat n.toNat 0).map
      (fun r => (some r.1.1, resize r.2 i r.1.2)) := by
  obtain ⟨h1, h2⟩ := h
  have hlt : off.toNat + n.toNat < 2^32 := by
    simp only [MAXFILE_eq, BSIZE_eq] at h2
    omega
  unfold writei
  rw [if_neg, if_neg]
  · cases writeiLoop s i src off.toNat n.toNat 0 <;> rfl
  · rw [UInt32.toNat_add, Nat.mod_eq_of_lt hlt]
    omega
  · simp only [Bool.or_eq_true, decide_eq_true_eq, add_lt_self_iff, not_or]
    omega

/-- The file system after an accepted writei. -/
theorem writei_written (hs : Inv s) (hv : (s.icache i).valid = true)
    (h : Accepts (s.node i).size off.toNat n.toNat) :
    (∀ r t, writei s i src off n = .ok (r, t) →
      ∃ tot, r = some tot ∧ Written s t i src off.toNat n.toNat tot) ∧
    (∀ p, writei s i src off n = .error p → p = .ballocOutOfBlocks) := by
  obtain ⟨hok, herr⟩ := writeiLoop_wrote src hs.tree hv off.toNat n.toNat 0
    (Nat.zero_le _) (by have := h.2; omega)
  have hoff := h.1
  have hmax := h.2
  rw [writei_accepted src h]
  generalize off.toNat = off at *
  generalize n.toNat = n at *
  cases hl : writeiLoop s i src off n 0 with
  | error p =>
    refine ⟨fun r t h => (by cases h), fun p' h => ?_⟩
    rw [← Except.error.inj h]
    exact herr p hl
  | ok q =>
    obtain ⟨⟨tot, off'⟩, t⟩ := q
    refine ⟨?_, fun p h => by cases h⟩
    intro r u hres
    simp only [Except.map, Except.ok.injEq, Prod.mk.injEq] at hres
    obtain ⟨rfl, rfl⟩ := hres
    obtain ⟨hoff', hw⟩ := hok (tot, off') t hl
    simp only [Nat.sub_zero] at hoff'
    have hle := hw.le_n
    have hvt : (t.icache i).valid = true := by rw [hw.ext.valid, hv]
    have hsize := hw.ext.size
    -- what follows the loop changes the size and the copy on disk, and no block
    have haddr := fun j k => resize_addr t i off' j k hvt
    have hval := val_congr t (resize t i off') (resize_block t i off') haddr
    have hbyte := byteAt_congr t (resize t i off') (resize_block t i off') haddr
    have hsizes (j : Nat) : ((resize t i off').node j).size =
        if j = i then max (s.node i).size (off + tot) else (s.node j).size := by
      rw [resize_node t i off' j hvt, hoff']
      split
      · simp only [hsize]
      · exact hsize j
    have hpos (p : Nat) (hp : p < off + tot) : p/BSIZE < MAXFILE := by
      simp only [BSIZE_eq, MAXFILE_eq] at *
      omega
    have hcopy (j : Nat) (hvj : (s.icache j).valid = true) :
        ((resize t i off').icache j).copy.type = (s.icache j).copy.type := by
      obtain ⟨-, -, f, hc⟩ := hw.ext.other j
      rw [resize_icache t i off' j hvt]
      split
      · rename_i hj
        subst hj
        simp only [hc]
      · rw [hc]
    have hcache (j : Nat) : ((resize t i off').icache j).valid = (s.icache j).valid ∧
        ((resize t i off').icache j).ref = (s.icache j).ref := by
      obtain ⟨h1, h2, -⟩ := hw.ext.other j
      rw [resize_icache t i off' j hvt]
      split
      · rename_i hj
        subst hj
        exact ⟨h2, h1⟩
      · exact ⟨h2, h1⟩
    refine ⟨tot, rfl, ?_, (resize_sb t i off').trans hw.ext.sb, hle, hsizes, hcache,
      ?_, ?_, hw.total, ?_⟩
    · refine ⟨hw.tree.congr (resize_sb t i off') (resize_block t i off') haddr, ?_, ?_, ?_, ?_, ?_⟩
      · intro j p hp
        rw [hval]
        rw [hsizes] at hp
        -- bytes below the old size were mapped before the loop
        have hold (q j : Nat) (hq : q < (s.node j).size) : t.val (leaf j (q/BSIZE)) ≠ 0 := by
          have hm := hs.mapped j q hq
          have := hs.small j
          rw [hw.ext.val _ (leaf_inRange j _ (by simp only [BSIZE_eq, MAXFILE_eq] at *; omega)) hm]
          exact hm
        split_ifs at hp with hj
        · subst hj
          by_cases hin : p < (s.node j).size
          · exact hold p j hin
          · have hpt : p < off + tot := by
              rcases lt_max_iff.mp hp with h | h
              · exact absurd h hin
              · exact h
            exact (hw.written p (by omega) (by omega)).1
        · exact hold p j hp
      · intro j
        rw [hsizes]
        have := hs.small j
        split_ifs with hj
        · subst hj
          exact max_le this (by omega)
        · exact this
      · intro j hvj
        rw [resize_dinode]
        by_cases hj : j = i
        · subst hj
          rw [Function.update_self]
        · have hvs := (hcache j).1
          rw [hvj] at hvs
          rw [Function.update_of_ne hj, hw.ext.dinode, ← hs.sync j hvs.symm,
            resize_icache t i off' j hvt, if_neg hj]
          rw [hw.cache j hj]
      · -- the inode's type is not touched
        intro j hvj
        have hvs := (hcache j).1
        rw [hvj] at hvs
        rw [hcopy j hvs.symm]
        exact hs.typed j hvs.symm
      · intro j hty
        rw [resize_dinode] at hty ⊢
        by_cases hj : j = i
        · subst hj
          rw [Function.update_self, hcopy j hv] at hty
          exact absurd hty (hs.typed j hv)
        · rw [Function.update_of_ne hj, hw.ext.dinode] at hty ⊢
          exact hs.free j hty
    · intro p h1 h2
      rw [hbyte]
      have := (hw.written p h1 (by omega)).2
      simpa only [Nat.zero_add] using this
    · intro j p hp hne
      have := hs.small j
      rw [hbyte, hw.kept j p (by omega) (hs.mapped j p hp) hne]
    · intro sl hr ho hsh
      rw [hval, hw.frame sl hr ho (fun h => (hsh h).imp_left (fun h0 => by omega))]

/-- writei finds its blocks when enough of the bitmap is clear. -/
theorem writei_room (hs : Inv s) (hv : (s.icache i).valid = true)
    (h : Accepts (s.node i).size off.toNat n.toNat) (N : Nat) (hN : ClearFrom s N)
    (hroom : N + 2*rounds off.toNat n.toNat ≤ s.sb.size) :
    ∃ r t, writei s i src off n = .ok (r, t) ∧ ClearFrom t (N + 2*rounds off.toNat n.toNat) := by
  obtain ⟨r, t, hl, ht⟩ := writeiLoop_room src hs.tree hv off.toNat n.toNat 0 N
    (Nat.zero_le _) (by have := h.2; omega) hN hroom
  rw [writei_accepted src h, hl]
  refine ⟨_, _, rfl, ?_⟩
  intro b hb hlt
  rw [resize_sb] at hlt
  unfold State.bit
  rw [resize_block, resize_sb]
  exact ht b hb hlt

end Writei

section Readi

variable {s : State} {i : Nat} (off n : UInt32)

/-- What readi of a file of `size` bytes copies: nothing when the range starts behind the
end or wraps around 2^32, else the part of the range before the end. -/
def readLen (size off n : Nat) : Nat :=
  if size < off ∨ 2^32 ≤ off + n then 0 else min n (size - off)

theorem readi_eq (ok : Nat → Nat → Bool) (h : readLen (s.node i).size off.toNat n.toNat ≠ 0) :
    readi s i ok off n = readiLoop s i ok off.toNat
      (readLen (s.node i).size off.toNat n.toNat) 0 [] := by
  unfold readLen at h ⊢
  split_ifs at h ⊢ with hc
  · exact absurd rfl h
  simp only [readi]
  rw [if_neg]
  · simp only [not_or, not_lt, not_le] at hc
    rw [UInt32.toNat_add, Nat.mod_eq_of_lt hc.2]
    congr 1
    split
    · rename_i hgt
      exact (min_eq_right (by omega)).symm
    · rename_i hgt
      exact (min_eq_left (by omega)).symm
  · simp only [Bool.or_eq_true, decide_eq_true_eq, add_lt_self_iff]
    exact hc

theorem readi_empty (ok : Nat → Nat → Bool) (h : readLen (s.node i).size off.toNat n.toNat = 0) :
    readi s i ok off n = .ok (some [], s) := by
  simp only [readi]
  split
  · rfl
  · rename_i hc
    simp only [Bool.or_eq_true, decide_eq_true_eq, add_lt_self_iff, not_or] at hc
    rw [readLen, if_neg (by omega)] at h
    rw [UInt32.toNat_add, Nat.mod_eq_of_lt (by omega), readiLoop, if_neg]
    split <;> omega

theorem readLen_le (size off n : Nat) (h : readLen size off n ≠ 0) :
    off + readLen size off n ≤ size := by
  unfold readLen at h ⊢
  split_ifs at h ⊢ with hc
  · exact absurd rfl h
  · have := min_le_right n (size - off)
    omega

/-- readi answers the bytes of the file and changes nothing. -/
theorem readi_bytes (hs : Inv s) (hv : (s.icache i).valid = true) :
    readi s i (fun _ _ => true) off n =
      .ok (some ((List.range (readLen (s.node i).size off.toNat n.toNat)).map
        (fun j => s.byteAt i (off.toNat + j))), s) := by
  by_cases h : readLen (s.node i).size off.toNat n.toNat = 0
  · rw [readi_empty off n _ h, h]
    rfl
  · have hle := readLen_le _ _ _ h
    have hsmall := hs.small i
    rw [readi_eq off n _ h, readiLoop_bytes hs.tree hv _ _ 0 [] (Nat.zero_le _) (by omega)
      (fun p _ hp => hs.mapped i p (by omega))]
    rfl

/-- Whatever the copies to user space do, readi of mapped blocks changes no state. -/
theorem readi_state (hs : Inv s) (hv : (s.icache i).valid = true) (ok : Nat → Nat → Bool) :
    ∃ r, readi s i ok off n = .ok (r, s) := by
  have hloop (o m tot : Nat) (out : List UInt8) (hm : ∀ p, o ≤ p → p < o + (m - tot) →
      p < (s.node i).size) : ∃ r, readiLoop s i ok o m tot out = .ok (r, s) := by
    induction hk : m - tot using Nat.strong_induction_on generalizing o tot out with
    | _ k ih =>
      rw [readiLoop]
      by_cases hlt : tot < m
      · rw [if_pos hlt]
        have hin := hm o le_rfl (by omega)
        have hsmall := hs.small i
        have hmod := Nat.mod_lt o (show 0 < BSIZE by decide)
        rw [(bmap_spec hs.tree i (o/BSIZE) hv (by
          simp only [BSIZE_eq, MAXFILE_eq] at *
          omega)).full (hs.mapped i o hin)]
        have hc0 : 0 < min (m - tot) (BSIZE - o%BSIZE) := by
          rw [lt_min_iff]
          omega
        have hc1 := min_le_left (m - tot) (BSIZE - o%BSIZE)
        simp only
        generalize min (m - tot) (BSIZE - o%BSIZE) = c at *
        split
        · exact ih (m - (tot + c)) (by omega) (o + c) (tot + c) _
            (fun p h1 h2 => hm p (by omega) (by omega)) rfl
        · exact ⟨none, rfl⟩
      · rw [if_neg hlt]
        exact ⟨some out, rfl⟩
  by_cases h : readLen (s.node i).size off.toNat n.toNat = 0
  · exact ⟨_, readi_empty off n ok h⟩
  · rw [readi_eq off n ok h]
    have hle := readLen_le _ _ _ h
    exact hloop _ _ 0 [] (fun p _ hp => by omega)

end Readi

section Trunc

variable {s t : State} {i : Nat}

theorem Truncated.inv (h : Truncated s t i) (hs : Inv s) (hv : (s.icache i).valid = true) :
    Inv t := by
  have hcache (j : Nat) : (t.icache j).valid = (s.icache j).valid ∧
      (t.icache j).copy.type = (s.icache j).copy.type := by
    rw [h.icache]
    by_cases hj : j = i
    · subst hj
      simp
    · simp [hj]
  refine ⟨h.tree hs.tree hv, ?_, ?_, ?_, ?_, ?_⟩
  · intro j p hp
    rw [h.size hv] at hp
    split_ifs at hp with hj
    · omega
    · have := hs.small j
      exact (h.byteAt hs.tree hv j p (by omega) hj (hs.mapped j p hp)).1
  · intro j
    rw [h.size hv]
    split_ifs
    · exact Nat.zero_le _
    · exact hs.small j
  · intro j hvj
    rw [h.dinode]
    by_cases hj : j = i
    · subst hj
      rw [Function.update_self]
    · rw [(hcache j).1] at hvj
      rw [Function.update_of_ne hj, ← hs.sync j hvj, h.icache, Function.update_of_ne hj]
  · intro j hvj
    rw [(hcache j).2]
    rw [(hcache j).1] at hvj
    exact hs.typed j hvj
  · intro j hty
    rw [h.dinode] at hty ⊢
    by_cases hj : j = i
    · subst hj
      rw [Function.update_self, (hcache j).2] at hty
      exact absurd hty (hs.typed j hv)
    · rw [Function.update_of_ne hj] at hty ⊢
      exact hs.free j hty

end Trunc

/-- Everything that readi, writei and itrunc look at, but not the cache entries. -/
structure SameFiles (s t : State) : Prop where
  sb : t.sb = s.sb
  block : t.block = s.block
  addr : ∀ i k, t.addr i k = s.addr i k
  size : ∀ i, (t.node i).size = (s.node i).size

section Cache

variable {s t : State} {i : Nat}

/-- A new cache entry whose copy, where valid, is the disk inode. -/
theorem Inv.recache (hs : Inv s) (ip : Inode)
    (hip : ip.valid = true → ip.copy = s.dinode i ∧ (s.dinode i).type ≠ 0) :
    Inv { s with icache := Function.update s.icache i ip } ∧
      SameFiles s { s with icache := Function.update s.icache i ip } := by
  have hnode (j : Nat) :
      State.node { s with icache := Function.update s.icache i ip } j = s.node j := by
    rw [hs.node_eq]
    unfold State.node
    by_cases hj : j = i
    · subst hj
      simp only [Function.update_self]
      split
      · rename_i hv
        exact (hip hv).1
      · rfl
    · simp only [Function.update_of_ne hj]
      exact hs.node_eq j
  have hsame : SameFiles s { s with icache := Function.update s.icache i ip } :=
    ⟨rfl, rfl, fun j k => by rw [State.addr, hnode]; rfl, fun j => by rw [hnode]⟩
  refine ⟨hs.congr rfl rfl hsame.addr hsame.size ?_ ?_ hs.free, hsame⟩
  · intro j hv
    by_cases hj : j = i
    · subst hj
      simp only [Function.update_self] at hv ⊢
      exact (hip hv).1
    · simp only [Function.update_of_ne hj] at hv ⊢
      exact hs.sync j hv
  · intro j hv
    by_cases hj : j = i
    · subst hj
      simp only [Function.update_self] at hv ⊢
      rw [(hip hv).1]
      exact (hip hv).2
    · simp only [Function.update_of_ne hj] at hv ⊢
      exact hs.typed j hv

theorem Inv.cached (hs : Inv s) (hv : (s.icache i).valid = true) :
    (s.icache i).copy = s.dinode i ∧ (s.dinode i).type ≠ 0 := by
  have h := hs.sync i hv
  refine ⟨h, ?_⟩
  rw [← h]
  exact hs.typed i hv

theorem ilock_inv (hs : Inv s) (h : ilock s i = .ok t) :
    Inv t ∧ SameFiles s t ∧ (t.icache i).valid = true := by
  unfold ilock at h
  split_ifs at h with h1 h2 h3
  · cases h
    exact ⟨hs, ⟨rfl, rfl, fun _ _ => rfl, fun _ => rfl⟩, h2⟩
  · cases h
    obtain ⟨hi, hsame⟩ := hs.recache (i := i)
      { (s.icache i) with valid := true, copy := s.dinode i } (fun _ => ⟨rfl, h3⟩)
    exact ⟨hi, hsame, by simp⟩

theorem iget_inv (hs : Inv s) (h : iget s i = .ok t) : Inv t ∧ SameFiles s t := by
  unfold iget at h
  split_ifs at h
  · cases h
    exact hs.recache _ (fun hv => hs.cached hv)
  · cases h
    exact hs.recache _ (fun hv => by cases hv)

theorem ialloc_inv (hs : Inv s) (type : Nat) (h : ialloc s type = .ok (i, t)) :
    Inv t ∧ SameFiles s t := by
  unfold ialloc at h
  split at h
  · cases h
  · rename_i k hk
    obtain ⟨u, hu, hi⟩ := (bind_ok_iff _ _ _).mp h
    simp only [Except.ok.injEq, Prod.mk.injEq] at hi
    obtain ⟨rfl, rfl⟩ := hi
    have hty : (s.dinode k).type = 0 := by
      have := List.find?_some hk
      simpa using this
    have hnv : ¬(s.icache k).valid = true := fun hv => (hs.cached hv).2 hty
    obtain ⟨hsz, had⟩ := hs.free k hty
    generalize hs' : ({ s with
      dinode := Function.update s.dinode k (emptyDinode type)
      logged := IBLOCK s.sb k :: s.logged } : State) = s' at hu
    have hnode (j : Nat) : s'.node j = if j = k then emptyDinode type else s.node j := by
      subst hs'
      unfold State.node
      by_cases hj : j = k
      · subst hj
        simp [hnv]
      · simp [hj]
    have hk0 : s.node k = s.dinode k := hs.node_eq k
    have hsame : SameFiles s s' := by
      refine ⟨by subst hs'; rfl, by subst hs'; rfl, ?_, ?_⟩
      · intro j l
        rw [State.addr, hnode]
        split_ifs with hj
        · rw [hj, State.addr, hk0, had]
          rfl
        · rfl
      · intro j
        rw [hnode]
        split_ifs with hj
        · rw [hj, hk0, hsz]
          rfl
        · rfl
    have hs1 : Inv s' := by
      refine hs.congr hsame.sb hsame.block hsame.addr hsame.size ?_ ?_ ?_
      · intro j hv
        subst hs'
        have hj : j ≠ k := fun he => hnv (he ▸ hv)
        simp only [Function.update_of_ne hj]
        exact hs.sync j hv
      · intro j hv
        subst hs'
        exact hs.typed j hv
      · intro j hj
        subst hs'
        by_cases hjk : j = k
        · subst hjk
          simp only [Function.update_self]
          exact ⟨rfl, fun _ => rfl⟩
        · simp only [Function.update_of_ne hjk] at hj ⊢
          exact hs.free j hj
    obtain ⟨ht, hst⟩ := iget_inv hs1 hu
    exact ⟨ht, hst.sb.trans hsame.sb, hst.block.trans hsame.block,
      fun j l => (hst.addr j l).trans (hsame.addr j l), fun j => (hst.size j).trans (hsame.size j)⟩

/-- The last part of freeing an inode: `ip->type = 0; iupdate(ip); ip->valid = 0;`. -/
theorem Truncated.retire (h : Truncated s t i) (hs : Inv s) (hv : (s.icache i).valid = true)
    (w : State) (hw : w = iupdate (t.setCopy i { (t.icache i).copy with type := 0 }) i) :
    Inv { w with icache := Function.update w.icache i { (w.icache i) with valid := false } } ∧
      SameFiles t
        { w with icache := Function.update w.icache i { (w.icache i) with valid := false } } := by
  have ht := h.inv hs hv
  have hvt : (t.icache i).valid = true := by
    rw [h.icache, Function.update_self]
    exact hv
  have hnode (j : Nat) : State.node
      { w with icache := Function.update w.icache i { (w.icache i) with valid := false } } j =
      if j = i then { (t.node i) with type := 0 } else t.node j := by
    subst hw
    rw [node_of_valid t i hvt]
    unfold State.node
    by_cases hj : j = i
    · subst hj
      simp [iupdate, State.setCopy]
    · simp [iupdate, State.setCopy, hj]
  have hsame : SameFiles t
      { w with icache := Function.update w.icache i { (w.icache i) with valid := false } } := by
    refine ⟨by subst hw; rfl, by subst hw; rfl, ?_, ?_⟩
    · intro j k
      rw [State.addr, hnode]
      split_ifs with hj
      · rw [hj]
        rfl
      · rfl
    · intro j
      rw [hnode]
      split_ifs with hj
      · rw [hj]
      · rfl
  refine ⟨ht.congr hsame.sb hsame.block hsame.addr hsame.size ?_ ?_ ?_, hsame⟩
  · intro j hvj
    subst hw
    by_cases hj : j = i
    · subst hj
      simp at hvj
    · simp only [iupdate, State.setCopy, Function.update_of_ne hj] at hvj ⊢
      exact ht.sync j hvj
  · intro j hvj
    subst hw
    by_cases hj : j = i
    · subst hj
      simp at hvj
    · simp only [iupdate, State.setCopy, Function.update_of_ne hj] at hvj ⊢
      exact ht.typed j hvj
  · intro j hty
    subst hw
    by_cases hj : j = i
    · subst hj
      simp only [iupdate, State.setCopy, Function.update_self]
      rw [← node_of_valid t j hvt]
      refine ⟨by rw [h.size hv, if_pos rfl], ?_⟩
      intro k
      have ha := h.addr hv j k
      rw [State.addr] at ha
      rw [ha]
      split_ifs with hk
      · rfl
      · exact hs.tree.high j k (by omega)
    · simp only [iupdate, State.setCopy, Function.update_of_ne hj] at hty ⊢
      exact ht.free j hty

/-- iput never panics; it empties slots of its inode only. -/
theorem iput_inv (hs : Inv s) (i : Nat) :
    ∃ t, iput s i = .ok t ∧ Inv t ∧ t.sb = s.sb ∧
      ∀ sl : Slot, sl.InRange → t.val sl = s.val sl ∨ (sl.owner = some i ∧ t.val sl = 0) := by
  have hdrop (u : State) (hu : Inv u) := hu.recache (i := i)
    { (u.icache i) with ref := (u.icache i).ref - 1 } (fun hv => hu.cached hv)
  unfold iput
  split
  · rename_i hc
    obtain ⟨t, ht, htr⟩ := itrunc_truncated s i hs.tree hc.2.1
    rw [ht]
    obtain ⟨hw, hsw⟩ := htr.retire hs hc.2.1 _ rfl
    refine ⟨_, rfl, (hdrop _ hw).1, htr.sb, ?_⟩
    intro sl hr
    rw [val_congr _ _ (hdrop _ hw).2.block (hdrop _ hw).2.addr, val_congr _ _ hsw.block hsw.addr,
      htr.val hs.tree hc.2.1 sl hr]
    split_ifs with ho
    · exact Or.inr ⟨ho, rfl⟩
    · exact Or.inl rfl
  · refine ⟨_, rfl, (hdrop s hs).1, rfl, ?_⟩
    intro sl _
    exact Or.inl (val_congr _ _ (hdrop s hs).2.block (hdrop s hs).2.addr sl)

end Cache

end Xv6Labs.Fs
