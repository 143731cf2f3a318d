import Xv6Labs.FsDirCode
import Xv6Labs.FsReference

/-! A directory is a finite map on names of `DIRSIZ` bytes, whatever the order of the calls that
link, look up and erase names. -/
namespace Xv6Labs.Fs

section Strings

/-- What counts of a name: its first `DIRSIZ` bytes, up to a NUL. -/
def key (name : List UInt8) : List UInt8 := (name.take DIRSIZ).takeWhile (· ≠ 0)

theorem key_of_nulFree {name : List UInt8} (h : 0 ∉ name) : key name = name.take DIRSIZ := by
  unfold key
  rw [List.takeWhile_eq_self_iff]
  intro x hx
  simp only [ne_eq, decide_not, Bool.not_eq_eq_eq_not, Bool.not_true, decide_eq_false_iff_not]
  rintro rfl
  exact h (List.mem_of_mem_take hx)

theorem headD_toNat_sub (a b : UInt8) : (a.toNat : Int) - (b.toNat : Int) = 0 ↔ a = b := by
  rw [Int.sub_eq_zero, Int.ofNat_inj, UInt8.toNat_inj]

/-- strncmp finds a difference unless the bytes before the NUL are the same. -/
theorem strncmp_zero (p q : List UInt8) (n : Nat) : strncmp p q n = 0 ↔
    (p.take n).takeWhile (· ≠ 0) = (q.take n).takeWhile (· ≠ 0) := by
  induction n generalizing p q with
  | zero => simp [strncmp]
  | succ n ih =>
    have hcut (l : List UInt8) : (l.take (n + 1)).takeWhile (· ≠ 0) =
        if l.headD 0 ≠ 0 then l.headD 0 :: (l.tail.take n).takeWhile (· ≠ 0) else [] := by
      cases l with
      | nil => simp
      | cons a l => by_cases ha : a = 0 <;> simp [ha]
    rw [hcut p, hcut q]
    unfold strncmp
    generalize p.headD 0 = a
    generalize q.headD 0 = b
    by_cases ha : a = 0
    · rw [if_neg (fun h => h.1 ha), if_neg (not_not.mpr ha), headD_toNat_sub, ha]
      by_cases hb : b = 0
      · rw [if_neg (not_not.mpr hb), hb]
        exact ⟨fun _ => rfl, fun _ => rfl⟩
      · rw [if_pos hb]
        exact ⟨fun h => absurd h.symm hb, fun h => by cases h⟩
    · rw [if_pos ha]
      by_cases hab : a = b
      · subst hab
        rw [if_pos ⟨ha, rfl⟩, if_pos ha, ih, List.cons_inj_right]
      · rw [if_neg (fun h => hab h.2), headD_toNat_sub]
        refine ⟨fun h => absurd h hab, fun h => ?_⟩
        by_cases hb : b = 0
        · rw [if_neg (not_not.mpr hb)] at h
          cases h
        · rw [if_pos hb] at h
          exact (List.cons.inj h).1

theorem namecmp_zero (name name' : List UInt8) : namecmp name name' = 0 ↔ key name = key name' :=
  strncmp_zero name name' DIRSIZ

theorem strncpy_length (t : List UInt8) (n : Nat) : (strncpy t n).length = n := by
  induction n generalizing t with
  | zero => rfl
  | succ n ih =>
    unfold strncpy
    split
    · exact List.length_replicate
    · rw [List.length_cons, ih]

theorem strncpy_takeWhile (t : List UInt8) (n : Nat) :
    (strncpy t n).takeWhile (· ≠ 0) = (t.take n).takeWhile (· ≠ 0) := by
  induction n generalizing t with
  | zero => simp [strncpy]
  | succ n ih =>
    unfold strncpy
    cases t with
    | nil => simp [List.replicate_succ]
    | cons a t =>
      by_cases ha : a = 0
      · simp [ha, List.replicate_succ]
      · have ih' := ih t
        rw [if_neg (show (a :: t).headD 0 ≠ 0 from ha)]
        simp only [List.headD_cons, List.tail_cons, List.take_succ_cons]
        rw [List.takeWhile_cons_of_pos (by simpa using ha),
          List.takeWhile_cons_of_pos (by simpa using ha), ih']

/-- The name in an entry that dirlink writes counts as the name given. -/
theorem key_strncpy (name : List UInt8) : key (strncpy name DIRSIZ) = key name := by
  unfold key
  rw [List.take_of_length_le (Nat.le_of_eq (strncpy_length name DIRSIZ)), strncpy_takeWhile]

end Strings

section Entries

variable {s t : State} {dp : Nat} {name : List UInt8}

/-- Entry `k` of a directory. -/
def entry (s : State) (dp k : Nat) : Dirent :=
  Dirent.ofBytes ((List.range direntSize).map (fun j => s.byteAt dp (direntSize * k + j)))

def direntCount (s : State) (dp : Nat) : Nat := (s.node dp).size / direntSize

/-- Entry `k` is live and has the name. -/
def Hit (s : State) (dp : Nat) (name : List UInt8) (k : Nat) : Prop :=
  (entry s dp k).inum ≠ 0 ∧ key name = key (entry s dp k).name

/-- A locked directory whose size is a multiple of the size of an entry. -/
structure DirFile (s : State) (dp : Nat) : Prop where
  inv : Inv s
  opened : Open s dp
  type : (s.node dp).type = T_DIR
  size : (s.node dp).size % direntSize = 0

theorem DirFile.size_eq (h : DirFile s dp) :
    (s.node dp).size = direntSize * direntCount s dp := by
  have := Nat.div_add_mod (s.node dp).size direntSize
  rw [h.size] at this
  exact this.symm

theorem DirFile.small (h : DirFile s dp) : (s.node dp).size ≤ 67382272 := h.inv.small dp

theorem DirFile.read (h : DirFile s dp) {k : Nat} (hk : k < direntCount s dp) :
    readDirent s dp (direntSize * k) = .ok (some (entry s dp k), s) := by
  have hsize := h.size_eq
  have hsmall := h.small
  have hend : direntSize * k + direntSize ≤ (s.node dp).size := by
    rw [hsize, ← Nat.mul_succ]
    exact Nat.mul_le_mul_left direntSize hk
  have hoff : (direntSize * k).toUInt32.toNat = direntSize * k := by
    apply UInt32.toNat_ofNat_of_lt'
    have : UInt32.size = 4294967296 := rfl
    omega
  have hn : direntSize.toUInt32.toNat = direntSize := rfl
  have hlen : readLen (s.node dp).size (direntSize * k) direntSize = direntSize := by
    unfold readLen
    rw [if_neg (by unfold direntSize at *; omega)]
    omega
  unfold readDirent
  rw [readi_bytes _ _ h.inv h.opened.2, hoff, hn, hlen]
  simp only [liftFs, ok_bind, List.length_map, List.length_range, if_true]
  rfl

theorem dirlookupLoop_spec (h : DirFile s dp) (name : List UInt8) (rounds k : Nat)
    (hk : k ≤ direntCount s dp) (hrounds : direntCount s dp < k + rounds)
    (hbefore : ∀ i, i < k → ¬Hit s dp name i) :
    (dirlookupLoop dp name rounds s (direntSize * k) = .ok (none, s) ∧
      ∀ i, i < direntCount s dp → ¬Hit s dp name i) ∨
    ∃ j, j < direntCount s dp ∧ Hit s dp name j ∧ (∀ i, i < j → ¬Hit s dp name i) ∧
      dirlookupLoop dp name rounds s (direntSize * k) =
        .ok (some ((entry s dp j).inum, direntSize * j), s) := by
  induction rounds generalizing k with
  | zero => omega
  | succ rounds ih =>
    unfold dirlookupLoop
    rcases Nat.lt_or_eq_of_le hk with hlt | rfl
    · have hin : direntSize * k < (s.node dp).size := by
        rw [h.size_eq]
        exact Nat.mul_lt_mul_of_pos_left hlt (by decide)
      have hnext : ¬Hit s dp name k → _ := fun hmiss => ih (k + 1) hlt (by omega) (fun i hi => by
        rcases Nat.lt_or_eq_of_le (Nat.le_of_lt_succ hi) with hi | rfl
        · exact hbefore i hi
        · exact hmiss)
      rw [if_pos hin, h.read hlt]
      simp only [ok_bind]
      by_cases h0 : (entry s dp k).inum = 0
      · rw [if_pos h0]
        exact hnext (fun hhit => hhit.1 h0)
      · rw [if_neg h0]
        by_cases hname : namecmp name (entry s dp k).name = 0
        · rw [if_pos hname]
          exact Or.inr ⟨k, hlt, ⟨h0, (namecmp_zero _ _).mp hname⟩, hbefore, rfl⟩
        · rw [if_neg hname]
          exact hnext (fun hhit => hname ((namecmp_zero _ _).mpr hhit.2))
    · rw [if_neg (by rw [h.size_eq]; exact Nat.lt_irrefl _)]
      exact Or.inl ⟨rfl, hbefore⟩

theorem freeDirentLoop_spec (h : DirFile s dp) (rounds k : Nat) (hk : k ≤ direntCount s dp)
    (hrounds : direntCount s dp < k + rounds)
    (hbefore : ∀ i, i < k → (entry s dp i).inum ≠ 0) :
    ∃ j, j ≤ direntCount s dp ∧ (∀ i, i < j → (entry s dp i).inum ≠ 0) ∧
      (j < direntCount s dp → (entry s dp j).inum = 0) ∧
      freeDirentLoop dp rounds s (direntSize * k) = .ok (direntSize * j, s) := by
  induction rounds generalizing k with
  | zero => omega
  | succ rounds ih =>
    unfold freeDirentLoop
    rcases Nat.lt_or_eq_of_le hk with hlt | rfl
    · have hin : direntSize * k < (s.node dp).size := by
        rw [h.size_eq]
        exact Nat.mul_lt_mul_of_pos_left hlt (by decide)
      rw [if_pos hin, h.read hlt]
      simp only [ok_bind]
      by_cases h0 : (entry s dp k).inum = 0
      · rw [if_pos h0]
        exact ⟨k, hk, hbefore, fun _ => h0, rfl⟩
      · rw [if_neg h0]
        apply ih (k + 1) hlt (by omega)
        intro i hi
        rcases Nat.lt_or_eq_of_le (Nat.le_of_lt_succ hi) with hi | rfl
        · exact hbefore i hi
        · exact h0
    · rw [if_neg (by rw [h.size_eq]; exact Nat.lt_irrefl _)]
      exact ⟨_, hk, hbefore, fun hlt => absurd hlt (Nat.lt_irrefl _), rfl⟩

end Entries

section Store

variable {s t : State} {dp k : Nat}

theorem writei_type {i : Nat} (src : Nat → Option UInt8) {off n : UInt32} {r : Option Nat}
    (hi : Inv s) (hv : (s.icache i).valid = true)
    (hacc : Accepts (s.node i).size off.toNat n.toNat) (h : writei s i src off n = .ok (r, t)) :
    (t.icache i).copy.type = (s.icache i).copy.type := by
  rw [writei_accepted src hacc] at h
  cases hl : writeiLoop s i src off.toNat n.toNat 0 with
  | error p =>
    rw [hl] at h
    cases h
  | ok q =>
    obtain ⟨q, u⟩ := q
    rw [hl] at h
    cases h
    have hext := ((writeiLoop_wrote src hi.tree hv off.toNat n.toNat 0 (Nat.zero_le _)
      (by have := hacc.2; omega)).1 q u hl).2.ext
    obtain ⟨-, hvalid, f, hcopy⟩ := hext.other i
    rw [resize_icache u i _ i (hvalid.trans hv), if_pos rfl, hcopy]

/-- An entry of the length that struct dirent has. -/
structure Dirent.Fits (de : Dirent) : Prop where
  inum : de.inum < 2^16
  name : de.name.length = DIRSIZ

theorem ofBytes_bytes {de : Dirent} (h : de.Fits) : Dirent.ofBytes de.bytes = de := by
  obtain ⟨inum, name⟩ := de
  have hinum : inum < 2^16 := h.inum
  simp only [Dirent.ofBytes, Dirent.bytes, List.getD_cons_zero, List.getD_cons_succ,
    List.drop_succ_cons, List.drop_zero, Dirent.mk.injEq, and_true, UInt8.toNat_ofNat']
  omega

/-- Entry `k` has been written, and nothing else of the directory. -/
structure Stored (s t : State) (dp k : Nat) (de : Dirent) : Prop where
  sb : t.sb = s.sb
  file : DirFile t dp
  size : (t.node dp).size = max (s.node dp).size (direntSize * (k + 1))
  entry : entry t dp k = de
  others : ∀ j, j ≠ k → j < direntCount s dp → Fs.entry t dp j = Fs.entry s dp j
  cache : ∀ j, (t.icache j).valid = (s.icache j).valid ∧ (t.icache j).ref = (s.icache j).ref

theorem Written.stored {src : Nat → Option UInt8} {de : Dirent} (h : DirFile s dp)
    (hde : de.Fits) (hsrc : ∀ j, src j = de.bytes[j]?)
    (hw : Written s t dp src (direntSize * k) direntSize direntSize)
    (htype : (t.icache dp).copy.type = (s.icache dp).copy.type) : Stored s t dp k de := by
  have hsize := hw.size dp
  rw [if_pos rfl, ← Nat.mul_succ] at hsize
  have hvt : (t.icache dp).valid = true := (hw.cache dp).1.trans h.opened.2
  refine ⟨hw.sb, ⟨hw.inv, ⟨?_, hvt⟩, ?_, ?_⟩, hsize, ?_, ?_, hw.cache⟩
  · rw [(hw.cache dp).2]
    exact h.opened.1
  · rw [node_of_valid t dp hvt, htype, ← node_of_valid s dp h.opened.2]
    exact h.type
  · rw [hsize, h.size_eq]
    rcases Nat.le_total (direntSize * direntCount s dp) (direntSize * (k + 1)) with hle | hle
    · rw [Nat.max_eq_right hle, Nat.mul_mod_right]
    · rw [Nat.max_eq_left hle, Nat.mul_mod_right]
  · -- the bytes of the entry are those of `de`
    have hlen : de.bytes.length = direntSize := by
      simp only [Dirent.bytes, List.length_cons, hde.name]
      rfl
    have hbytes : (List.range direntSize).map (fun j => t.byteAt dp (direntSize * k + j)) =
        de.bytes := by
      apply List.ext_getElem?
      intro j
      by_cases hj : j < direntSize
      · rw [List.getElem?_map, List.getElem?_range hj, Option.map_some, ← hsrc]
        have hwritten := hw.written (direntSize * k + j) (by omega) (by omega)
        rw [Nat.add_sub_cancel_left] at hwritten
        exact hwritten.symm
      · rw [List.getElem?_eq_none (by simp; omega), List.getElem?_eq_none (by omega)]
    unfold Fs.entry
    rw [hbytes, ofBytes_bytes hde]
  · -- the other entries lie outside the bytes that are written
    intro j hjk hj
    unfold Fs.entry
    congr 1
    apply List.map_congr_left
    intro m hm
    have hm' : m < direntSize := List.mem_range.mp hm
    have hin : direntSize * j + direntSize ≤ (s.node dp).size := by
      rw [h.size_eq, ← Nat.mul_succ]
      exact Nat.mul_le_mul_left direntSize hj
    apply hw.kept dp _ (by omega)
    rintro ⟨-, hlo, hhi⟩
    rcases Nat.lt_or_gt_of_ne hjk with hlt | hgt
    · have := Nat.mul_le_mul_left direntSize hlt
      rw [Nat.mul_succ] at this
      omega
    · have := Nat.mul_le_mul_left direntSize hgt
      rw [Nat.mul_succ] at this
      omega

/-- A write inside one block fails where bmap does. -/
theorem writeiLoop_oneBlock {i off n : Nat} {src : Nat → Option UInt8} {p : Panic} (hn : 0 < n)
    (hfit : off % BSIZE + n ≤ BSIZE) (h : writeiLoop s i src off n 0 = .error p) :
    bmap s i (off / BSIZE) = .error p := by
  rw [writeiLoop, if_pos hn] at h
  cases hb : bmap s i (off / BSIZE) with
  | error q =>
    simp only [hb] at h
    rw [Except.error.inj h]
  | ok r =>
    have hm : min (n - 0) (BSIZE - off % BSIZE) = n := by omega
    simp only [hb, hm] at h
    -- all bytes are in the block, so the loop ends with this round
    split_ifs at h
    rw [writeiLoop, if_neg (by omega)] at h
    cases h

/-- An entry that cannot be written for want of a block lies at the end of a directory whose last
block is full. -/
theorem writeDirent_blocks (h : DirFile s dp) (de : Dirent) {p : Panic} (hk : k ≤ direntCount s dp)
    (hacc : Accepts (s.node dp).size (direntSize * k) direntSize)
    (hoff : (direntSize * k).toUInt32.toNat = direntSize * k)
    (hw : writei s dp (fun k => de.bytes[k]?) (direntSize * k).toUInt32 direntSize.toUInt32 =
      .error p) :
    k = direntCount s dp ∧ (s.node dp).size % BSIZE = 0 ∧ FreeWithin s 1 := by
  have hn : direntSize.toUInt32.toNat = direntSize := rfl
  have hsize := h.size_eq
  rw [writei_accepted _ (by rw [hoff, hn]; exact hacc), hoff, hn] at hw
  have hmap : bmap s dp (direntSize * k / BSIZE) = .error p := by
    apply writeiLoop_oneBlock (n := direntSize) (by decide)
    · unfold direntSize BSIZE
      omega
    · cases hl : writeiLoop s dp (fun k => de.bytes[k]?) (direntSize * k) direntSize 0 with
      | error q =>
        rw [hl] at hw
        exact congrArg Except.error (Except.error.inj hw)
      | ok r =>
        rw [hl] at hw
        cases hw
  have hspec := bmap_spec h.inv.tree dp (direntSize * k / BSIZE) h.opened.2 (by
    have := hacc.2
    unfold direntSize BSIZE at *
    omega)
  have hempty (q : Nat) (hq : q / BSIZE = direntSize * k / BSIZE) : (s.node dp).size ≤ q := by
    by_contra hlt
    have hne := h.inv.mapped dp q (Nat.lt_of_not_le hlt)
    rw [hq] at hne
    rw [hspec.full hne] at hmap
    cases hmap
  have hend : k = direntCount s dp := by
    have := hempty (direntSize * k) rfl
    unfold direntSize at *
    omega
  refine ⟨hend, ?_, ?_⟩
  · have := hempty (direntSize * k / BSIZE * BSIZE) (Nat.mul_div_cancel _ (by decide))
    rw [hend] at this
    unfold direntSize BSIZE at *
    omega
  · obtain ⟨n, hlt, hfree⟩ := hspec.few p hmap
    exact hfree.mono (by omega)

/-- An entry is written, or the disk is full, or the directory is as long as a file can be. -/
theorem writeDirent_stored (h : DirFile s dp) {de : Dirent} (hde : de.Fits)
    (hk : k ≤ direntCount s dp) :
    (∃ t, writeDirent s dp (direntSize * k) de = .ok (true, t) ∧ Stored s t dp k de) ∨
      (k = direntCount s dp ∧ (s.node dp).size % BSIZE = 0 ∧ FreeWithin s 1 ∧
        writeDirent s dp (direntSize * k) de = .error (.fs .ballocOutOfBlocks)) ∨
      k = direntCount s dp ∧ MAXFILE*BSIZE < direntSize * (k + 1) ∧
        writeDirent s dp (direntSize * k) de = .ok (false, s) := by
  have hsmall := h.small
  have hsize := h.size_eq
  have hle : direntSize * k ≤ (s.node dp).size := by
    rw [hsize]
    exact Nat.mul_le_mul_left _ hk
  have hoff : (direntSize * k).toUInt32.toNat = direntSize * k := by
    apply UInt32.toNat_ofNat_of_lt'
    have : UInt32.size = 4294967296 := rfl
    omega
  have hn : direntSize.toUInt32.toNat = direntSize := rfl
  by_cases hacc : Accepts (s.node dp).size (direntSize * k) direntSize
  · have hacc' : Accepts (s.node dp).size (direntSize * k).toUInt32.toNat
        direntSize.toUInt32.toNat := by
      rw [hoff, hn]
      exact hacc
    obtain ⟨hok, herr⟩ := writei_written (fun k => de.bytes[k]?) h.inv h.opened.2 hacc'
    rw [hoff, hn] at hok
    unfold writeDirent
    cases hw : writei s dp (fun k => de.bytes[k]?) (direntSize * k).toUInt32
        direntSize.toUInt32 with
    -- no free block: it was needed for the end of the directory
    | error p =>
      obtain ⟨hend, hblock, hfree⟩ := writeDirent_blocks h de hk hacc hoff hw
      rw [herr p hw]
      exact Or.inr (Or.inl ⟨hend, hblock, hfree, rfl⟩)
    | ok r =>
      obtain ⟨r, t⟩ := r
      obtain ⟨tot, rfl, hwr⟩ := hok r t hw
      -- all the bytes of an entry can be read
      have htot : tot = direntSize := by
        apply hwr.total
        intro j hj
        have hlen : de.bytes.length = direntSize := by
          simp only [Dirent.bytes, List.length_cons, hde.name]
          rfl
        rw [List.getElem?_eq_getElem (by omega)]
        rfl
      subst htot
      exact Or.inl ⟨t, rfl, hwr.stored h hde (fun _ => rfl)
        (writei_type _ h.inv h.opened.2 hacc' hw)⟩
  · have hfull : MAXFILE*BSIZE < direntSize * (k + 1) := by
      by_contra hge
      exact hacc ⟨hle, Nat.le_of_not_lt hge⟩
    refine Or.inr (Or.inr ⟨?_, hfull, ?_⟩)
    · by_contra hne
      have hlt : k + 1 ≤ direntCount s dp := by omega
      have := Nat.mul_le_mul_left direntSize hlt
      have hinv := h.inv.small dp
      omega
    · unfold writeDirent
      rw [writei_rejected _ (by rw [hoff, hn]; exact hacc)]
      rfl

end Store

section References

variable {s t : State} {dp i : Nat}

/-- All entries of the inode cache have references. -/
def CacheFull (s : State) : Prop :=
  NINODE ≤ (List.range s.sb.ninodes).countP (fun j => decide ((s.icache j).ref > 0))

/-- An inode whose reference has been taken: dropping it will not free it. -/
structure Held (s t : State) (i : Nat) : Prop where
  inv : Inv t
  same : SameFiles s t
  other : ∀ j, j ≠ i → t.icache j = s.icache j
  ref : (t.icache i).ref = (s.icache i).ref + 1
  kept : 0 < (s.icache i).ref → t.icache i = { s.icache i with ref := (s.icache i).ref + 1 }
  fresh : (s.icache i).ref = 0 → (t.icache i).valid = false

theorem iget_held (hs : Inv s) : (∃ t, iget s i = .ok t ∧ Held s t i) ∨
    (CacheFull s ∧ (s.icache i).ref = 0 ∧ iget s i = .error .igetNoInodes) := by
  have hinv (t : State) (h : iget s i = .ok t) := iget_inv hs h
  unfold iget at hinv ⊢
  split_ifs at hinv ⊢ with href hfull
  · obtain ⟨hi, hsame⟩ := hinv _ rfl
    refine Or.inl ⟨_, rfl, hi, hsame, ?_, ?_, ?_, fun h => by omega⟩
    · exact fun j hj => Function.update_of_ne hj _ _
    · simp only [Function.update_self]
    · exact fun _ => Function.update_self _ _ _
  · exact Or.inr ⟨hfull, by omega, rfl⟩
  · obtain ⟨hi, hsame⟩ := hinv _ rfl
    have hzero : (s.icache i).ref = 0 := by omega
    refine Or.inl ⟨_, rfl, hi, hsame, ?_, ?_, fun h => by omega, ?_⟩
    · exact fun j hj => Function.update_of_ne hj _ _
    · simp only [Function.update_self, hzero]
    · exact fun _ => by simp only [Function.update_self]

/-- Dropping it takes the reference back and nothing else. -/
theorem Held.iput {u : State} (h : Held s t i) (hu : Inv u)
    (hcache : ∀ j, (u.icache j).valid = (t.icache j).valid ∧
      (u.icache j).ref = (t.icache j).ref) :
    iput u i = .ok { u with
      icache := Function.update u.icache i { (u.icache i) with ref := (u.icache i).ref - 1 } } ∧
    Inv { u with
      icache := Function.update u.icache i { (u.icache i) with ref := (u.icache i).ref - 1 } } ∧
    SameFiles u { u with
      icache := Function.update u.icache i { (u.icache i) with ref := (u.icache i).ref - 1 } } := by
  have hnot : ¬((u.icache i).ref = 1 ∧ (u.icache i).valid ∧ (u.icache i).copy.nlink = 0) := by
    rintro ⟨hone, hvalid, -⟩
    have hzero : (s.icache i).ref = 0 := by
      have := h.ref
      have := (hcache i).2
      omega
    rw [(hcache i).1, h.fresh hzero] at hvalid
    cases hvalid
  refine ⟨?_, hu.recache _ (fun hv => hu.cached hv)⟩
  unfold Fs.iput
  rw [if_neg hnot]
  rfl

theorem SameFiles.trans {u : State} (h : SameFiles s t) (h' : SameFiles t u) : SameFiles s u :=
  ⟨h'.sb.trans h.sb, h'.block.trans h.block, fun i k => (h'.addr i k).trans (h.addr i k),
    fun i => (h'.size i).trans (h.size i)⟩

theorem SameFiles.entry (h : SameFiles s t) (dp k : Nat) : entry t dp k = entry s dp k := by
  unfold Fs.entry
  simp only [byteAt_congr s t h.block h.addr]

theorem SameFiles.count (h : SameFiles s t) (dp : Nat) : direntCount t dp = direntCount s dp := by
  unfold direntCount
  rw [h.size]

/-- A directory is one as long as its own cache entry is valid. -/
theorem DirFile.same (h : DirFile s dp) (hi : Inv t) (hsame : SameFiles s t)
    (href : 0 < (t.icache dp).ref) (hvalid : (t.icache dp).valid = true)
    (htype : (t.icache dp).copy.type = (s.icache dp).copy.type) : DirFile t dp := by
  refine ⟨hi, ⟨href, hvalid⟩, ?_, ?_⟩
  · rw [node_of_valid t dp hvalid, htype, ← node_of_valid s dp h.opened.2]
    exact h.type
  · rw [hsame.size]
    exact h.size

theorem Held.file (h : Held s t i) (hs : DirFile s dp) : DirFile t dp := by
  have href := hs.opened.1
  by_cases hi : dp = i
  · subst hi
    have hkept := h.kept href
    exact hs.same h.inv h.same (by rw [hkept]; exact Nat.succ_pos _)
      (by rw [hkept]; exact hs.opened.2) (by rw [hkept])
  · have hother := h.other dp hi
    exact hs.same h.inv h.same (by rw [hother]; exact href) (by rw [hother]; exact hs.opened.2)
      (by rw [hother])

/-- iput at the end of a call on a directory. -/
theorem Held.iput_file {u : State} (h : Held s t i) (hs : DirFile s dp) (hu : DirFile u dp)
    (hcache : ∀ j, (u.icache j).valid = (t.icache j).valid ∧
      (u.icache j).ref = (t.icache j).ref) :
    ∃ v, Fs.iput u i = .ok v ∧ DirFile v dp ∧ SameFiles u v ∧
      ∀ j, (v.icache j).ref = (s.icache j).ref := by
  obtain ⟨hput, hinv, hsame⟩ := h.iput hu.inv hcache
  refine ⟨_, hput, hu.same hinv hsame ?_ ?_ ?_, hsame, ?_⟩
  · by_cases hi : dp = i
    · subst hi
      have := h.ref
      have := (hcache dp).2
      have := hs.opened.1
      simp only [Function.update_self]
      omega
    · simp only [Function.update_of_ne hi]
      exact hu.opened.1
  · by_cases hi : dp = i
    · subst hi
      simp only [Function.update_self]
      exact hu.opened.2
    · simp only [Function.update_of_ne hi]
      exact hu.opened.2
  · by_cases hi : dp = i
    · subst hi
      simp only [Function.update_self]
    · simp only [Function.update_of_ne hi]
  · intro j
    by_cases hj : j = i
    · subst hj
      simp only [Function.update_self]
      have := (hcache j).2
      have := h.ref
      omega
    · simp only [Function.update_of_ne hj]
      rw [(hcache j).2, h.other j hj]

end References

section Map

/-- A name that is not empty and has no NUL in it. -/
structure Name where
  bytes : List UInt8
  nonempty : bytes ≠ []
  nulFree : 0 ∉ bytes

/-- The first `DIRSIZ` bytes. -/
def Name.cut (name : Name) : List UInt8 := name.bytes.take DIRSIZ

theorem Name.key_eq (name : Name) : key name.bytes = name.cut := key_of_nulFree name.nulFree

/-- The numbers that can be linked. -/
abbrev Inum := { inum : Nat // 0 < inum ∧ inum < 2^16 }

inductive DirOp
  | lookup (name : Name)
  | dirlink (name : Name) (inum : Inum)
  | erase (name : Name)

def DirOp.name : DirOp → Name
  | .lookup name | .dirlink name _ | .erase name => name

def DirOp.links : DirOp → Bool
  | .dirlink _ _ => true
  | .lookup _ | .erase _ => false

def DirOp.exec (dp : Nat) (s : State) : DirOp → Except DirPanic (Int × State)
  | .lookup name => Fs.lookup s dp name.bytes
  | .dirlink name inum => Fs.dirlink s dp name.bytes inum
  | .erase name => eraseDirent s dp name.bytes

/-- The reference: the number last linked under a cut name and not erased since. -/
abbrev Names := List UInt8 → Option Nat

def Names.step (M : Names) : DirOp → Names × Int
  | .lookup name => (M, ((M name.cut).getD 0 : Nat))
  | .dirlink name inum =>
    if (M name.cut).isSome then (M, -1)
    else (Function.update M name.cut (some inum), 0)
  | .erase name =>
    if (M name.cut).isSome then (Function.update M name.cut none, 0) else (M, -1)

/-- The live entries of a directory are those of the map, each once. -/
structure Lists (s : State) (dp : Nat) (M : Names) : Prop where
  file : DirFile s dp
  once : ∀ i j, i < direntCount s dp → j < direntCount s dp → (entry s dp i).inum ≠ 0 →
    (entry s dp j).inum ≠ 0 → key (entry s dp i).name = key (entry s dp j).name → i = j
  map : ∀ x inum, M x = some inum ↔ ∃ i, i < direntCount s dp ∧ (entry s dp i).inum = inum ∧
    inum ≠ 0 ∧ key (entry s dp i).name = x

/-- A call that answers `a`. -/
structure Did (s t : State) (dp : Nat) (M : Names) (op : DirOp) (a : Int) : Prop where
  lists : Lists t dp (M.step op).1
  answer : a = (M.step op).2
  failed : a = -1 → SameFiles s t
  sb : t.sb = s.sb
  /-- no reference is kept -/
  refs : ∀ j, (t.icache j).ref = (s.icache j).ref
  /-- the directory grows by one entry, and only when no entry is free -/
  grown : (t.node dp).size = (s.node dp).size ∨
    (∀ i, i < direntCount s dp → (entry s dp i).inum ≠ 0) ∧
      (t.node dp).size = (s.node dp).size + direntSize

/-- All entries are live. -/
def NoFreeEntry (s : State) (dp : Nat) : Prop :=
  ∀ i, i < direntCount s dp → (entry s dp i).inum ≠ 0

/-- The ways a call can panic. There is no entry for the inode that it finds in a full cache; or
dirlink, with no free entry, finds the last block of the directory full and at most one free
block, or the directory as long as a file can be. -/
def Full (s : State) (dp : Nat) (op : DirOp) (p : DirPanic) : Prop :=
  p = .fs .igetNoInodes ∧ CacheFull s ∧ (∃ i, i < direntCount s dp ∧
    Hit s dp op.name.bytes i ∧ (s.icache (entry s dp i).inum).ref = 0) ∨
  op.links = true ∧ NoFreeEntry s dp ∧
    (p = .fs .ballocOutOfBlocks ∧ (s.node dp).size % BSIZE = 0 ∧ FreeWithin s 1 ∨
      p = .dirlink ∧ MAXFILE*BSIZE < (s.node dp).size + direntSize)

variable {s t : State} {dp : Nat} {M : Names}

theorem Lists.same (h : Lists s dp M) (hfile : DirFile t dp) (hsame : SameFiles s t) :
    Lists t dp M := by
  refine ⟨hfile, ?_, ?_⟩
  · simp only [hsame.entry, hsame.count]
    exact h.once
  · simp only [hsame.entry, hsame.count]
    exact h.map

theorem Lists.miss (h : Lists s dp M) {name : List UInt8}
    (hmiss : ∀ i, i < direntCount s dp → ¬Hit s dp name i) : M (key name) = none := by
  cases hM : M (key name) with
  | none => rfl
  | some inum =>
    obtain ⟨i, hi, hinum, h0, hkey⟩ := (h.map _ _).mp hM
    exact absurd ⟨by rw [hinum]; exact h0, hkey.symm⟩ (hmiss i hi)

theorem Lists.hit (h : Lists s dp M) {name : List UInt8} {j : Nat} (hj : j < direntCount s dp)
    (hhit : Hit s dp name j) : M (key name) = some (entry s dp j).inum :=
  (h.map _ _).mpr ⟨j, hj, rfl, hhit.1, hhit.2.symm⟩

/-- dirlookup finds what the map has. -/
theorem dirlookup_cases (h : Lists s dp M) (name : List UInt8) :
    (M (key name) = none ∧ dirlookup s dp name = .ok (none, s) ∧
      ∀ i, i < direntCount s dp → ¬Hit s dp name i) ∨
    ∃ j, j < direntCount s dp ∧ Hit s dp name j ∧ M (key name) = some (entry s dp j).inum ∧
      ((∃ t, dirlookup s dp name = .ok (some ((entry s dp j).inum, direntSize * j), t) ∧
        Held s t (entry s dp j).inum) ∨
      (CacheFull s ∧ (s.icache (entry s dp j).inum).ref = 0 ∧
        dirlookup s dp name = .error (.fs .igetNoInodes))) := by
  have hcount : direntCount s dp < 0 + dirRounds s dp := by
    have := Nat.div_le_self (s.node dp).size direntSize
    unfold direntCount dirRounds
    omega
  unfold dirlookup
  rw [if_neg (not_not.mpr h.file.type)]
  rcases dirlookupLoop_spec h.file name (dirRounds s dp) 0 (Nat.zero_le _) hcount
    (fun i hi => absurd hi (Nat.not_lt_zero i)) with ⟨hloop, hmiss⟩ | ⟨j, hj, hhit, -, hloop⟩
  · rw [Nat.mul_zero] at hloop
    rw [hloop]
    exact Or.inl ⟨h.miss hmiss, rfl, hmiss⟩
  · rw [Nat.mul_zero] at hloop
    rw [hloop]
    refine Or.inr ⟨j, hj, hhit, h.hit hj hhit, ?_⟩
    rcases iget_held h.file.inv (i := (entry s dp j).inum) with ⟨t, ht, hheld⟩ | ⟨hfull, href, herr⟩
    · refine Or.inl ⟨t, ?_, hheld⟩
      simp only [ok_bind, ht, liftFs]
    · refine Or.inr ⟨hfull, href, ?_⟩
      simp only [ok_bind, herr, liftFs]
      rfl

theorem lookup_did (h : Lists s dp M) (name : Name) :
    (∃ a t, Fs.lookup s dp name.bytes = .ok (a, t) ∧ Did s t dp M (.lookup name) a) ∨
      ∃ p, Fs.lookup s dp name.bytes = .error p ∧ Full s dp (.lookup name) p := by
  unfold Fs.lookup
  rcases dirlookup_cases h name.bytes with
    ⟨hM, hlook, -⟩ | ⟨j, hj, hhit, hM, ⟨t, hlook, hheld⟩ | ⟨hcache, href, herr⟩⟩
  · left
    rw [hlook]
    refine ⟨0, s, rfl, h, ?_, fun h => absurd h (by decide), rfl, fun _ => rfl, Or.inl rfl⟩
    rw [name.key_eq] at hM
    simp only [Names.step, hM]
    rfl
  · left
    obtain ⟨v, hput, hfile, hsame, hrefs⟩ := hheld.iput_file h.file (hheld.file h.file)
      (fun _ => ⟨rfl, rfl⟩)
    have hall : SameFiles s v := hheld.same.trans hsame
    refine ⟨(entry s dp j).inum, v, ?_, h.same hfile hall, ?_, fun _ => hall, hall.sb, hrefs,
      Or.inl (hall.size dp)⟩
    · simp only [hlook, ok_bind, hput, liftFs]
    · rw [name.key_eq] at hM
      simp only [Names.step, hM]
      rfl
  · right
    rw [herr]
    exact ⟨_, rfl, Or.inl ⟨rfl, hcache, j, hj, hhit, href⟩⟩

theorem Stored.count {k : Nat} {de : Dirent} (h : Stored s t dp k de) (hs : DirFile s dp) :
    direntCount t dp = max (direntCount s dp) (k + 1) := by
  have hpos : 0 < direntSize := by decide
  unfold direntCount
  rw [h.size, hs.size_eq, Nat.mul_div_cancel_left _ hpos]
  rcases Nat.le_total (direntCount s dp) (k + 1) with hle | hle
  · rw [Nat.max_eq_right (Nat.mul_le_mul_left _ hle), Nat.max_eq_right hle,
      Nat.mul_div_cancel_left _ hpos]
  · rw [Nat.max_eq_left (Nat.mul_le_mul_left _ hle), Nat.max_eq_left hle,
      Nat.mul_div_cancel_left _ hpos]

/-- The entries after one of them has been written. -/
theorem Stored.cases {k : Nat} {de : Dirent} (h : Stored s t dp k de) (hs : DirFile s dp)
    (hk : k ≤ direntCount s dp) {i : Nat} :
    i < direntCount t dp ↔ i = k ∨ i ≠ k ∧ i < direntCount s dp := by
  rw [h.count hs]
  omega

/-- A name is linked into a free entry, or behind the last one. -/
theorem Lists.link {k : Nat} {de : Dirent} (h : Lists s dp M) (hst : Stored s t dp k de)
    (hk : k ≤ direntCount s dp) (hfree : k < direntCount s dp → (entry s dp k).inum = 0)
    (hde : de.inum ≠ 0) (hM : M (key de.name) = none) :
    Lists t dp (Function.update M (key de.name) (some de.inum)) := by
  have hother (j : Nat) (hjk : j ≠ k) (hj : j < direntCount s dp) (h0 : (entry s dp j).inum ≠ 0) :
      key (entry s dp j).name ≠ key de.name := by
    intro hkey
    have := (h.map (key de.name) _).mpr ⟨j, hj, rfl, h0, hkey⟩
    rw [hM] at this
    cases this
  refine ⟨hst.file, ?_, ?_⟩
  · intro i j hi hj hi0 hj0 hkey
    rcases (hst.cases h.file hk).mp hi with rfl | ⟨hik, hi⟩
    · rcases (hst.cases h.file hk).mp hj with rfl | ⟨hjk, hj⟩
      · rfl
      · rw [hst.entry, hst.others j hjk hj] at hkey
        rw [hst.others j hjk hj] at hj0
        exact absurd hkey.symm (hother j hjk hj hj0)
    · rw [hst.others i hik hi] at hi0 hkey
      rcases (hst.cases h.file hk).mp hj with rfl | ⟨hjk, hj⟩
      · rw [hst.entry] at hkey
        exact absurd hkey (hother i hik hi hi0)
      · rw [hst.others j hjk hj] at hj0 hkey
        exact h.once i j hi hj hi0 hj0 hkey
  · intro x inum
    by_cases hx : x = key de.name
    · subst hx
      rw [Function.update_self, Option.some.injEq]
      constructor
      · rintro rfl
        exact ⟨k, (hst.cases h.file hk).mpr (Or.inl rfl), by rw [hst.entry], hde, by rw [hst.entry]⟩
      · rintro ⟨i, hi, hinum, h0, hkey⟩
        rcases (hst.cases h.file hk).mp hi with rfl | ⟨hik, hi⟩
        · rw [hst.entry] at hinum
          exact hinum
        · rw [hst.others i hik hi] at hinum hkey
          exact absurd hkey (hother i hik hi (by rw [hinum]; exact h0))
    · rw [Function.update_of_ne hx, h.map]
      constructor
      · rintro ⟨i, hi, hinum, h0, hkey⟩
        have hik : i ≠ k := by
          rintro rfl
          rw [hfree hi] at hinum
          exact h0 hinum.symm
        exact ⟨i, (hst.cases h.file hk).mpr (Or.inr ⟨hik, hi⟩),
          by rw [hst.others i hik hi]; exact hinum, h0, by rw [hst.others i hik hi]; exact hkey⟩
      · rintro ⟨i, hi, hinum, h0, hkey⟩
        rcases (hst.cases h.file hk).mp hi with rfl | ⟨hik, hi⟩
        · rw [hst.entry] at hkey
          exact absurd hkey.symm hx
        · rw [hst.others i hik hi] at hinum hkey
          exact ⟨i, hi, hinum, h0, hkey⟩

/-- The entry of a name is erased. -/
theorem Lists.unlink {k : Nat} (h : Lists s dp M) (hst : Stored s t dp k noDirent)
    (hk : k < direntCount s dp) (hlive : (entry s dp k).inum ≠ 0) :
    Lists t dp (Function.update M (key (entry s dp k).name) none) := by
  have hcases {i : Nat} := hst.cases h.file (Nat.le_of_lt hk) (i := i)
  refine ⟨hst.file, ?_, ?_⟩
  · intro i j hi hj hi0 hj0 hkey
    rcases hcases.mp hi with rfl | ⟨hik, hi⟩
    · rw [hst.entry] at hi0
      exact absurd rfl hi0
    · rcases hcases.mp hj with rfl | ⟨hjk, hj⟩
      · rw [hst.entry] at hj0
        exact absurd rfl hj0
      · rw [hst.others i hik hi] at hi0 hkey
        rw [hst.others j hjk hj] at hj0 hkey
        exact h.once i j hi hj hi0 hj0 hkey
  · intro x inum
    by_cases hx : x = key (entry s dp k).name
    · subst hx
      rw [Function.update_self]
      refine ⟨fun h => (by cases h), ?_⟩
      rintro ⟨i, hi, hinum, h0, hkey⟩
      rcases hcases.mp hi with rfl | ⟨hik, hi⟩
      · rw [hst.entry] at hinum
        exact absurd hinum.symm h0
      · rw [hst.others i hik hi] at hinum hkey
        exact absurd (h.once i k hi hk (by rw [hinum]; exact h0) hlive hkey) hik
    · rw [Function.update_of_ne hx, h.map]
      constructor
      · rintro ⟨i, hi, hinum, h0, hkey⟩
        have hik : i ≠ k := by
          rintro rfl
          exact hx hkey.symm
        exact ⟨i, hcases.mpr (Or.inr ⟨hik, hi⟩), by rw [hst.others i hik hi]; exact hinum, h0,
          by rw [hst.others i hik hi]; exact hkey⟩
      · rintro ⟨i, hi, hinum, h0, hkey⟩
        rcases hcases.mp hi with rfl | ⟨hik, hi⟩
        · rw [hst.entry] at hinum
          exact absurd hinum.symm h0
        · rw [hst.others i hik hi] at hinum hkey
          exact ⟨i, hi, hinum, h0, hkey⟩

theorem dirlink_did (h : Lists s dp M) (name : Name) (inum : Inum) :
    (∃ a t, dirlink s dp name.bytes inum = .ok (a, t) ∧ Did s t dp M (.dirlink name inum) a) ∨
      ∃ p, dirlink s dp name.bytes inum = .error p ∧ Full s dp (.dirlink name inum) p := by
  unfold dirlink
  rcases dirlookup_cases h name.bytes with
    ⟨hM, hlook, -⟩ | ⟨j, hj, hhit, hM, ⟨t, hlook, hheld⟩ | ⟨hcache, href, herr⟩⟩
  · have hcount : direntCount s dp < 0 + dirRounds s dp := by
      have := Nat.div_le_self (s.node dp).size direntSize
      unfold direntCount dirRounds
      omega
    obtain ⟨k, hk, hlive, hfree, hloop⟩ := freeDirentLoop_spec h.file (dirRounds s dp) 0
      (Nat.zero_le _) hcount (fun i hi => absurd hi (Nat.not_lt_zero i))
    have hmod : (inum : Nat) % 2^16 = inum := Nat.mod_eq_of_lt inum.2.2
    have hfits : Dirent.Fits ⟨(inum : Nat) % 2^16, strncpy name.bytes DIRSIZ⟩ :=
      ⟨Nat.mod_lt _ (by decide), strncpy_length _ _⟩
    rw [Nat.mul_zero] at hloop
    simp only [hlook, ok_bind, hloop]
    rcases writeDirent_stored h.file hfits hk with
      ⟨t, hw, hst⟩ | ⟨hend, hblock, hblocks, herr⟩ | ⟨hend, hfull, hw⟩
    · left
      have hlink := h.link hst hk hfree (by rw [hmod]; exact Nat.ne_of_gt inum.2.1)
        (by rw [key_strncpy]; exact hM)
      rw [key_strncpy, name.key_eq, hmod] at hlink
      rw [name.key_eq] at hM
      refine ⟨0, t, by rw [hw]; rfl, ?_, ?_, fun h => absurd h (by decide), hst.sb,
        fun j => (hst.cache j).2, ?_⟩
      · simp only [Names.step, hM, Option.isSome_none, if_false, Bool.false_eq_true]
        exact hlink
      · simp only [Names.step, hM, Option.isSome_none, if_false, Bool.false_eq_true]
      · rw [hst.size, h.file.size_eq]
        rcases Nat.lt_or_eq_of_le hk with hlt | rfl
        · exact Or.inl (Nat.max_eq_left (Nat.mul_le_mul_left _ hlt))
        · exact Or.inr ⟨hlive, Nat.max_eq_right (Nat.mul_le_mul_left _ (Nat.le_succ _))⟩
    · right
      subst hend
      exact ⟨_, by rw [herr]; rfl, Or.inr ⟨rfl, hlive, Or.inl ⟨rfl, hblock, hblocks⟩⟩⟩
    · right
      subst hend
      refine ⟨.dirlink, by rw [hw]; rfl, Or.inr ⟨rfl, hlive, Or.inr ⟨rfl, ?_⟩⟩⟩
      rw [h.file.size_eq]
      exact hfull
  · left
    obtain ⟨v, hput, hfile, hsame, hrefs⟩ := hheld.iput_file h.file (hheld.file h.file)
      (fun _ => ⟨rfl, rfl⟩)
    have hall : SameFiles s v := hheld.same.trans hsame
    rw [name.key_eq] at hM
    refine ⟨-1, v, ?_, ?_, ?_, fun _ => hall, hall.sb, hrefs, Or.inl (hall.size dp)⟩
    · simp only [hlook, ok_bind, hput, liftFs]
    · simp only [Names.step, hM, Option.isSome_some, if_true]
      exact h.same hfile hall
    · simp only [Names.step, hM, Option.isSome_some, if_true]
  · right
    rw [herr]
    exact ⟨_, rfl, Or.inl ⟨rfl, hcache, j, hj, hhit, href⟩⟩

theorem erase_did (h : Lists s dp M) (name : Name) :
    (∃ a t, eraseDirent s dp name.bytes = .ok (a, t) ∧ Did s t dp M (.erase name) a) ∨
      ∃ p, eraseDirent s dp name.bytes = .error p ∧ Full s dp (.erase name) p := by
  unfold eraseDirent
  rcases dirlookup_cases h name.bytes with
    ⟨hM, hlook, -⟩ | ⟨j, hj, hhit, hM, ⟨t, hlook, hheld⟩ | ⟨hcache, href, herr⟩⟩
  · left
    rw [name.key_eq] at hM
    refine ⟨-1, s, by rw [hlook]; rfl, ?_, ?_, fun _ => ?_, rfl, fun _ => rfl, Or.inl rfl⟩
    · simp only [Names.step, hM, Option.isSome_none, if_false, Bool.false_eq_true]
      exact h
    · simp only [Names.step, hM, Option.isSome_none, if_false, Bool.false_eq_true]
    · exact ⟨rfl, rfl, fun _ _ => rfl, fun _ => rfl⟩
  · have hfile := hheld.file h.file
    have hcount := hheld.same.count dp
    simp only [hlook, ok_bind]
    have hfits : noDirent.Fits := ⟨by decide, List.length_replicate⟩
    have hjt : j ≤ direntCount t dp := by
      rw [hcount]
      exact Nat.le_of_lt hj
    rcases writeDirent_stored hfile hfits hjt with
      ⟨u, hw, hst⟩ | ⟨hend, -⟩ | ⟨hend, -, -⟩
    · left
      obtain ⟨v, hput, hvfile, hsame, hrefs⟩ := hheld.iput_file h.file hst.file hst.cache
      have hgone := (h.same hfile hheld.same).unlink hst (by rw [hcount]; exact hj)
        (by rw [hheld.same.entry]; exact hhit.1)
      rw [hheld.same.entry, ← hhit.2, name.key_eq] at hgone
      rw [name.key_eq] at hM
      have hsb : v.sb = s.sb := hsame.sb.trans (hst.sb.trans hheld.same.sb)
      refine ⟨0, v, ?_, ?_, ?_, fun h => absurd h (by decide), hsb, hrefs, Or.inl ?_⟩
      · rw [hw]
        simp only [ok_bind, if_true, hput, liftFs]
      · simp only [Names.step, hM, Option.isSome_some, if_true]
        exact hgone.same hvfile hsame
      · simp only [Names.step, hM, Option.isSome_some, if_true]
      · rw [hsame.size, hst.size, hheld.same.size, h.file.size_eq]
        exact Nat.max_eq_left (Nat.mul_le_mul_left direntSize hj)
    · rw [hcount] at hend
      omega
    · rw [hcount] at hend
      omega
  · right
    rw [herr]
    exact ⟨_, rfl, Or.inl ⟨rfl, hcache, j, hj, hhit, href⟩⟩

/-- A call does what the map does, or it panics because something is full. -/
theorem exec_did (h : Lists s dp M) (op : DirOp) :
    (∃ a t, op.exec dp s = .ok (a, t) ∧ Did s t dp M op a) ∨
      ∃ p, op.exec dp s = .error p ∧ Full s dp op p := by
  cases op with
  | lookup name => exact lookup_did h name
  | dirlink name inum => exact dirlink_did h name inum
  | erase name => exact erase_did h name

end Map

section Runs

def dirStep (dp : Nat) (s : State) (op : DirOp) : Option (State × Int) :=
  (op.exec dp s).toOption.map Prod.swap

def namesStep (M : Names) (op : DirOp) : Option (Names × Int) := some (M.step op)

/-- The map that a directory starts with. -/
def names (s : State) (dp : Nat) : Names := fun x =>
  ((List.range (direntCount s dp)).find? (fun i =>
    decide ((entry s dp i).inum ≠ 0) && decide (key (entry s dp i).name = x))).map
      (fun i => (entry s dp i).inum)

/-- No two live entries have the same cut name. -/
def Distinct (s : State) (dp : Nat) : Prop :=
  ∀ i j, i < direntCount s dp → j < direntCount s dp → (entry s dp i).inum ≠ 0 →
    (entry s dp j).inum ≠ 0 → key (entry s dp i).name = key (entry s dp j).name → i = j

variable {s t : State} {dp : Nat}

theorem names_lists (h : DirFile s dp) (hd : Distinct s dp) : Lists s dp (names s dp) := by
  refine ⟨h, hd, ?_⟩
  intro x inum
  unfold names
  rw [Option.map_eq_some_iff]
  constructor
  · rintro ⟨i, hi, rfl⟩
    have hp := List.find?_some hi
    simp only [Bool.and_eq_true, decide_eq_true_eq] at hp
    exact ⟨i, List.mem_range.mp (List.mem_of_find?_eq_some hi), rfl, hp.1, hp.2⟩
  · rintro ⟨i, hi, rfl, h0, hkey⟩
    cases hf : (List.range (direntCount s dp)).find? (fun i =>
        decide ((entry s dp i).inum ≠ 0) && decide (key (entry s dp i).name = x)) with
    | none =>
      have := List.find?_eq_none.mp hf i (List.mem_range.mpr hi)
      simp [h0, hkey] at this
    | some j =>
      have hp := List.find?_some hf
      simp only [Bool.and_eq_true, decide_eq_true_eq] at hp
      have hj := List.mem_range.mp (List.mem_of_find?_eq_some hf)
      obtain rfl := hd i j hi hj h0 hp.1 (hkey.trans hp.2.symm)
      exact ⟨i, rfl, rfl⟩

/-- Every sequence of calls on a directory answers as the map does, and a further call does so,
too, unless something is full. -/
theorem directory_is_map (s t : State) (dp : Nat) (ops : List DirOp) (outs : List Int)
    (h : DirFile s dp) (hd : Distinct s dp) (hr : runOut (dirStep dp) s ops = some (t, outs)) :
    ∃ M, runOut namesStep (names s dp) ops = some (M, outs) ∧ Lists t dp M ∧
      ∀ op, (∃ a u, op.exec dp t = .ok (a, u) ∧ Did t u dp M op a) ∨
        ∃ p, op.exec dp t = .error p ∧ Full t dp op p := by
  have hstep (s : State) (M : Names) (op : DirOp) (t : State) (a : Int) (h : Lists s dp M)
      (ht : dirStep dp s op = some (t, a)) :
      ∃ N, namesStep M op = some (N, a) ∧ Lists t dp N := by
    unfold dirStep at ht
    rcases exec_did h op with ⟨a', t', hexec, hdid⟩ | ⟨p, hexec, -⟩
    · rw [hexec] at ht
      cases ht
      exact ⟨_, by rw [hdid.answer]; rfl, hdid.lists⟩
    · rw [hexec] at ht
      cases ht
  obtain ⟨M, hM, hlists⟩ := runOut_refines (dirStep dp) namesStep (fun s M => Lists s dp M) hstep
    s (names s dp) ops t outs (names_lists h hd) hr
  exact ⟨M, hM, hlists, exec_did hlists⟩

/-- A fresh disk whose inode 1 is an empty directory. -/
def freshDir : State := { freshDisk with
  dinode := Function.update freshDisk.dinode 1 (emptyDinode T_DIR)
  icache := Function.update freshDisk.icache 1 ⟨1, true, emptyDinode T_DIR⟩ }

theorem freshDir_icache : freshDir.icache 1 = ⟨1, true, emptyDinode T_DIR⟩ :=
  Function.update_self 1 _ freshDisk.icache

theorem freshDir_dinode : freshDir.dinode 1 = emptyDinode T_DIR :=
  Function.update_self 1 _ freshDisk.dinode

theorem freshDir_empty : Empty freshDir := by
  refine ⟨freshDisk_empty.wf, rfl, ?_, ?_, fun b _ => freshDisk_bit b⟩
  · intro i
    by_cases hi : i = 1
    · subst hi
      rw [freshDir_dinode]
      exact ⟨rfl, fun _ => rfl⟩
    · simp only [freshDir, Function.update_of_ne hi]
      exact freshDisk_empty.inodes i
  · intro i
    by_cases hi : i = 1
    · subst hi
      rw [freshDir_dinode, freshDir_icache]
      exact fun _ => ⟨rfl, by decide⟩
    · simp only [freshDir, Function.update_of_ne hi]
      exact freshDisk_empty.cached i

theorem freshDir_open : Open freshDir 1 := by
  rw [Open, freshDir_icache]
  exact ⟨Nat.one_pos, rfl⟩

theorem freshDir_node : freshDir.node 1 = emptyDinode T_DIR := by
  rw [node_of_valid freshDir 1 freshDir_open.2, freshDir_icache]

theorem freshDir_file : DirFile freshDir 1 := by
  refine ⟨freshDir_empty.inv, freshDir_open, ?_, ?_⟩
  · rw [freshDir_node]
    rfl
  · rw [freshDir_node]
    rfl

theorem freshDir_distinct : Distinct freshDir 1 :=
  fun i _ hi => absurd hi (Nat.not_lt_zero i)

theorem cacheFull_congr (hsb : t.sb = s.sb) (hrefs : ∀ j, (t.icache j).ref = (s.icache j).ref) :
    CacheFull t ↔ CacheFull s := by
  unfold CacheFull
  simp only [hsb, hrefs]

/-- With room in the cache, calls that link nothing answer. -/
theorem runOut_answers {M : Names} (h : Lists s dp M) (hroom : ¬CacheFull s) (ops : List DirOp)
    (hops : ∀ op ∈ ops, op.links = false) {N : Names} {outs : List Int}
    (hM : runOut namesStep M ops = some (N, outs)) :
    ∃ t, runOut (dirStep dp) s ops = some (t, outs) := by
  induction ops generalizing s M outs with
  | nil =>
    cases hM
    exact ⟨s, rfl⟩
  | cons op ops ih =>
    obtain ⟨r, hstep, hM⟩ := Option.bind_eq_some_iff.mp hM
    obtain ⟨⟨N', outs'⟩, hrest, hM⟩ := Option.map_eq_some_iff.mp hM
    cases hM
    obtain rfl : M.step op = r := Option.some.inj hstep
    have hop := hops op List.mem_cons_self
    rcases exec_did h op with ⟨a, u, hexec, hdid⟩ | ⟨p, -, ⟨-, hfull, -⟩ | ⟨hlinks, -⟩⟩
    · obtain ⟨t, ht⟩ := ih hdid.lists (fun hu => hroom ((cacheFull_congr hdid.sb hdid.refs).mp hu))
        (fun o ho => hops o (List.mem_cons_of_mem _ ho)) hrest
      refine ⟨t, ?_⟩
      have hu : dirStep dp s op = some (u, (M.step op).2) := by
        rw [dirStep, hexec, ← hdid.answer]
        rfl
      simp only [runOut, hu, Option.bind_some, ht, Option.map_some]
    · exact absurd hfull hroom
    · rw [hop] at hlinks
      cases hlinks

def nameA : Name := ⟨[97], by decide, by decide⟩

/-- The name `a` is linked to inode 2. -/
def linkA : DirOp := .dirlink nameA ⟨2, by decide⟩

/-- It is found, erased and not found any more. -/
def restA : List DirOp := [.lookup nameA, .erase nameA, .lookup nameA]

theorem linkA_runs : ∃ t, dirStep 1 freshDir linkA = some (t, 0) ∧
    Lists t 1 ((names freshDir 1).step linkA).1 ∧ (CacheFull t ↔ CacheFull freshDir) := by
  have hacc : Accepts (freshDir.node 1).size (0 : UInt32).toNat
      (direntSize.toUInt32).toNat := by decide
  obtain ⟨r, t, hw, -⟩ := writei_room
    (fun k => (Dirent.bytes ⟨2 % 2^16, strncpy [97] DIRSIZ⟩)[k]?) freshDir_empty.inv
    freshDir_file.opened.2 hacc 70 freshDir_empty.clearFrom (by decide)
  have hdir : linkA.exec 1 freshDir = (do
      let w ← writeDirent freshDir 1 0 ⟨2 % 2^16, strncpy [97] DIRSIZ⟩
      if w.1 then Except.ok (0, w.2) else Except.error DirPanic.dirlink) := rfl
  have hwd : writeDirent freshDir 1 0 ⟨2 % 2^16, strncpy [97] DIRSIZ⟩ =
      .ok (decide (r = some direntSize), t) := by
    unfold writeDirent
    rw [show (0 : Nat).toUInt32 = (0 : UInt32) from rfl, hw]
    rfl
  have hlists := names_lists freshDir_file freshDir_distinct
  rcases exec_did hlists linkA with ⟨a, u, hexec, hdid⟩ | ⟨p, hexec, hfull⟩
  · have ha : a = 0 := hdid.answer
    exact ⟨u, by rw [dirStep, hexec, ha]; rfl, hdid.lists, cacheFull_congr hdid.sb hdid.refs⟩
  · rw [hdir, hwd] at hexec
    exfalso
    cases hd : decide (r = some direntSize) with
    | true =>
      rw [hd] at hexec
      cases hexec
    | false =>
      rw [hd] at hexec
      cases hexec
      rcases hfull with ⟨h, -⟩ | ⟨-, -, ⟨h, -⟩ | ⟨-, h⟩⟩
      · cases h
      · cases h
      · revert h
        decide

theorem directory_is_map_linkA :
    ∃ t, runOut (dirStep 1) freshDir (linkA :: restA) = some (t, [0, 2, 0, 0]) ∧
    ∃ M, runOut namesStep (names freshDir 1) (linkA :: restA) = some (M, [0, 2, 0, 0]) ∧
      Lists t 1 M ∧ ∀ op, (∃ a u, op.exec 1 t = .ok (a, u) ∧ Did t u 1 M op a) ∨
        ∃ p, op.exec 1 t = .error p ∧ Full t 1 op p := by
  obtain ⟨u, hu, hlists, hcache⟩ := linkA_runs
  have hroom : ¬CacheFull freshDir := by
    unfold CacheFull
    decide +kernel
  have hmap : ∃ N, runOut namesStep ((names freshDir 1).step linkA).1 restA =
      some (N, [2, 0, 0]) := ⟨_, rfl⟩
  obtain ⟨N, hN⟩ := hmap
  obtain ⟨t, ht⟩ := runOut_answers hlists (fun h => hroom (hcache.mp h)) restA (by decide) hN
  have hr : runOut (dirStep 1) freshDir (linkA :: restA) = some (t, [0, 2, 0, 0]) := by
    simp only [runOut, hu, Option.bind_some]
    rw [ht]
    rfl
  exact ⟨t, hr, directory_is_map freshDir t 1 _ _ freshDir_file freshDir_distinct hr⟩

end Runs

end Xv6Labs.Fs
