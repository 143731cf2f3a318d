import Xv6Labs.FsReference

/-! The block bitmap along runs of the file system. As long as no file grows into the
doubly-indirect range, a data block is marked exactly when one place of one inode holds
it; a block allocated for that range is in no inode. -/
namespace Xv6Labs.Fs

/-- The places of the inodes that can hold a block number, as fs.h lays them out. -/
inductive Place where
  | direct (i k : Nat)
  | root (i : Nat)
  | entry (i k : Nat)
  | dblRoot (i : Nat)
  | dblIndex (i k : Nat)
  | dblEntry (i k l : Nat)

def Place.InRange : Place → Prop
  | .direct _ k => k < NDIRECT
  | .root _ | .dblRoot _ => True
  | .entry _ k | .dblIndex _ k => k < NINDIRECT
  | .dblEntry _ k l => k < NINDIRECT ∧ l < NINDIRECT

def State.placeVal (s : State) : Place → Nat
  | .direct i k => s.addr i k
  | .root i => s.addr i NDIRECT
  | .entry i k => word s.block (s.addr i NDIRECT) k
  | .dblRoot i => s.addr i (NDIRECT+1)
  | .dblIndex i k => word s.block (s.addr i (NDIRECT+1)) k
  | .dblEntry i k l => word s.block (word s.block (s.addr i (NDIRECT+1)) k) l

/-- Block `b` is in exactly one place. -/
def InOnePlace (s : State) (b : Nat) : Prop :=
  ∃ pl : Place, (pl.InRange ∧ s.placeVal pl = b) ∧
    ∀ pl' : Place, pl'.InRange → s.placeVal pl' = b → pl' = pl

/-- A data block is marked if and only if it is in exactly one place, and a clear one
is in none. -/
structure BitmapExact (s : State) : Prop where
  marked : ∀ b, s.sb.datastart ≤ b → b < s.sb.size → (s.bit b = true ↔ InOnePlace s b)
  clear : ∀ b, s.sb.datastart ≤ b → b < s.sb.size → s.bit b = false →
    ∀ pl : Place, pl.InRange → s.placeVal pl ≠ b

/-- The tree below block 0 is empty. -/
def SharedEmpty (s : State) : Prop :=
  ∀ sl : Slot, sl.InRange → sl.owner = none → s.val sl = 0

section Exact

variable {s : State}

/-- The doubly-indirect places of every inode are empty. -/
theorem placeVal_cases (hs : Tree s) (pl : Place) (hn : s.placeVal pl ≠ 0) :
    (∃ i k, pl = .direct i k) ∨ (∃ i, pl = .root i) ∨ ∃ i k, pl = .entry i k := by
  have h0 (i : Nat) : s.addr i (NDIRECT+1) = 0 := hs.high i _ (Nat.lt_succ_self _)
  cases pl with
  | direct i k => exact Or.inl ⟨i, k, rfl⟩
  | root i => exact Or.inr (Or.inl ⟨i, rfl⟩)
  | entry i k => exact Or.inr (Or.inr ⟨i, k, rfl⟩)
  | dblRoot i => exact absurd (h0 i) hn
  | dblIndex i k => simp only [State.placeVal, h0, word_zero, ne_eq, not_true] at hn
  | dblEntry i k l => simp only [State.placeVal, h0, word_zero, ne_eq, not_true] at hn

/-- No two places hold one block. -/
theorem placeVal_inj (hs : Tree s) (pl pl' : Place) (hr : pl.InRange) (hr' : pl'.InRange)
    (hn : s.placeVal pl ≠ 0) (he : s.placeVal pl = s.placeVal pl') : pl = pl' := by
  have hn' : s.placeVal pl' ≠ 0 := by rw [← he]; exact hn
  obtain ⟨i, k, rfl⟩ | ⟨i, rfl⟩ | ⟨i, k, rfl⟩ := placeVal_cases hs pl hn <;>
    obtain ⟨j, l, rfl⟩ | ⟨j, rfl⟩ | ⟨j, l, rfl⟩ := placeVal_cases hs pl' hn'
  · cases hs.inj (.direct i k) (.direct j l) hr hr' hn he
    rfl
  · cases hs.inj (.direct i k) (.root j) hr hr' hn he
  · cases hs.inj (.direct i k) (.entry j l) hr hr' hn he
  · cases hs.inj (.root i) (.direct j l) hr hr' hn he
  · cases hs.inj (.root i) (.root j) hr hr' hn he
    rfl
  · cases hs.inj (.root i) (.entry j l) hr hr' hn he
  · cases hs.inj (.entry i k) (.direct j l) hr hr' hn he
  · cases hs.inj (.entry i k) (.root j) hr hr' hn he
  · cases hs.inj (.entry i k) (.entry j l) hr hr' hn he
    rfl

theorem placeVal_used (hs : Tree s) (pl : Place) (hr : pl.InRange) (hn : s.placeVal pl ≠ 0) :
    s.bit (s.placeVal pl) = true := by
  obtain ⟨i, k, rfl⟩ | ⟨i, rfl⟩ | ⟨i, k, rfl⟩ := placeVal_cases hs pl hn
  · exact (hs.used (.direct i k) hr hn).2.2
  · exact (hs.used (.root i) hr hn).2.2
  · exact (hs.used (.entry i k) hr hn).2.2

theorem bitmapExact_of_tree (hs : Tree s) (h0 : SharedEmpty s) : BitmapExact s := by
  have hpos := s.sb.datastart_pos
  refine ⟨?_, ?_⟩
  · intro b hd hlt
    constructor
    · intro hb
      have huniq (pl : Place) (hr : pl.InRange) (hv : s.placeVal pl = b) : InOnePlace s b :=
        ⟨pl, ⟨hr, hv⟩, fun pl' hr' hv' =>
          placeVal_inj hs pl' pl hr' hr (by omega) (by rw [hv, hv'])⟩
      obtain ⟨sl, hr, hv⟩ := hs.exact b hd hlt hb
      cases sl with
      | direct i k => exact huniq (.direct i k) hr hv
      | root i => exact huniq (.root i) hr hv
      | entry i k => exact huniq (.entry i k) hr hv
      | sroot k =>
        have := h0 (.sroot k) hr rfl
        omega
      | sentry k l =>
        have := h0 (.sentry k l) hr rfl
        omega
    · rintro ⟨pl, ⟨hr, rfl⟩, -⟩
      exact placeVal_used hs pl hr (by omega)
  · rintro b hd hlt hb pl hr rfl
    rw [placeVal_used hs pl hr (by omega)] at hb
    cases hb

/-- The slots determine the bitmap. -/
theorem bit_eq_of_val {t : State} (hs : Tree s) (ht : Tree t) (hsb : t.sb = s.sb)
    (hval : ∀ sl : Slot, sl.InRange → t.val sl = s.val sl) (b : Nat) (hb : b < s.sb.size) :
    t.bit b = s.bit b := by
  have hpos := s.sb.datastart_pos
  by_cases hd : b < s.sb.datastart
  · rw [hs.marked b hd hb, ht.marked b (by rw [hsb]; exact hd) (by rw [hsb]; exact hb)]
  rw [Bool.eq_iff_iff]
  constructor
  · intro h
    obtain ⟨sl, hr, hv⟩ := ht.exact b (by rw [hsb]; omega) (by rw [hsb]; exact hb) h
    rw [hval sl hr] at hv
    have := (hs.used sl hr (by omega)).2.2
    rwa [hv] at this
  · intro h
    obtain ⟨sl, hr, hv⟩ := hs.exact b (by omega) hb h
    rw [← hval sl hr] at hv
    have := (ht.used sl hr (by omega)).2.2
    rwa [hv] at this

end Exact

/-- Calls that allocate or free blocks, and those that open and close inodes. -/
inductive Op where
  | file (op : FileOp)
  | iget (i : Nat)
  | ilock (i : Nat)
  | ialloc (type : Nat)
  | iput (i : Nat)

def Op.exec (s : State) : Op → Except Panic State
  | .file op => do
    let (_, s) ← op.exec s
    .ok s
  | .iget i => Fs.iget s i
  | .ilock i => Fs.ilock s i
  | .ialloc type => do
    let (_, s) ← Fs.ialloc s type
    .ok s
  | .iput i => Fs.iput s i

/-- One call of the system; a panic stops it. -/
def fsStep (s : State) (op : Op) : Option State := (op.exec s).toOption

theorem fsStep_eq_some (s t : State) (op : Op) : fsStep s op = some t ↔ op.exec s = .ok t := by
  unfold fsStep
  cases op.exec s <;> simp [Except.toOption]

/-- A write stays below the doubly-indirect range. -/
def Low (s : State) : Op → Prop
  | .file (.writei i _ off n) => Accepts (s.node i).size off.toNat n.toNat → 0 < n.toNat →
    off.toNat + n.toNat ≤ singleLimit
  | _ => True

section Step

variable {s t : State}

/-- What one call does to the slots: a writei fills slots of its own inode, the other
calls only empty slots. -/
structure Stepped (s t : State) (op : Op) : Prop where
  inv : Inv t
  sb : t.sb = s.sb
  shared : Low s op → ∀ sl : Slot, sl.InRange → sl.owner = none → t.val sl = s.val sl
  write : ∀ i src off n, op = .file (.writei i src off n) → Low s op →
    (∀ j, Open s j → Open t j) ∧
    ∀ sl : Slot, sl.InRange → sl.owner ≠ some i → t.val sl = s.val sl

theorem stepped_same (hi : Inv t) (h : SameFiles s t) (op : Op)
    (hop : ∀ i src off n, op = .file (.writei i src off n) → ∀ j, Open s j → Open t j) :
    Stepped s t op :=
  ⟨hi, h.sb, fun _ sl _ _ => val_congr s t h.block h.addr sl,
    fun i src off n he _ => ⟨hop i src off n he, fun sl _ _ => val_congr s t h.block h.addr sl⟩⟩

theorem ilock_keeps_open {i j : Nat} (h : ilock s i = .ok t) (hj : Open s j) : Open t j := by
  unfold ilock at h
  split_ifs at h
  · cases h
    exact hj
  · cases h
    by_cases hji : j = i
    · subst hji
      simp [Open, hj.1]
    · simp only [Open, Function.update_of_ne hji]
      exact hj

theorem Op.exec_writei (hs : Inv s) (i : Nat) (src : Nat → Option UInt8) (off n : UInt32)
    (h : Op.exec s (.file (.writei i src off n)) = .ok t) :
    Stepped s t (.file (.writei i src off n)) := by
  obtain ⟨⟨a, u⟩, h, hu⟩ := (bind_ok_iff _ _ _).mp h
  cases hu
  obtain ⟨s1, h1, h⟩ := (bind_ok_iff _ _ _).mp h
  obtain ⟨⟨r, v⟩, hwr, h⟩ := (bind_ok_iff _ _ _).mp h
  cases h
  obtain ⟨hs1, hsame, hv⟩ := ilock_inv hs h1
  by_cases hacc : Accepts (s1.node i).size off.toNat n.toNat
  · obtain ⟨tot, rfl, hw⟩ := (writei_written src hs1 hv hacc).1 r t hwr
    have hval (sl : Slot) : s1.val sl = s.val sl := val_congr s s1 hsame.block hsame.addr sl
    have hlow (hl : Low s (.file (.writei i src off n))) (hn : 0 < n.toNat) :
        off.toNat + n.toNat ≤ singleLimit := hl (by rw [← hsame.size]; exact hacc) hn
    have hframe (hl : Low s (.file (.writei i src off n))) (sl : Slot) (hr : sl.InRange)
        (ho : sl.owner ≠ some i) : t.val sl = s.val sl := by
      have hcase : n.toNat = 0 ∨ off.toNat + n.toNat ≤ singleLimit := by
        by_cases hn : 0 < n.toNat
        · exact Or.inr (hlow hl hn)
        · exact Or.inl (by omega)
      rw [hw.frame sl hr ho (fun _ => hcase), hval]
    refine ⟨hw.inv, hw.sb.trans hsame.sb, ?_, ?_⟩
    · intro hl sl hr ho
      exact hframe hl sl hr (by rw [ho]; simp)
    · rintro j src' off' n' he hl
      cases he
      refine ⟨?_, hframe hl⟩
      intro j hj
      rw [Open, (hw.cache j).1, (hw.cache j).2]
      exact ilock_keeps_open h1 hj
  · rw [writei_rejected src hacc] at hwr
    cases hwr
    exact stepped_same hs1 hsame _ (fun _ _ _ _ _ j hj => ilock_keeps_open h1 hj)

theorem stepped_of_not_write (op : Op) (hi : Inv t) (hsb : t.sb = s.sb)
    (hop : ∀ i src off n, op ≠ .file (.writei i src off n))
    (hval : ∀ sl : Slot, sl.InRange → sl.owner = none → t.val sl = s.val sl) :
    Stepped s t op :=
  ⟨hi, hsb, fun _ => hval, fun i src off n he => absurd he (hop i src off n)⟩

theorem Op.exec_stepped (hs : Inv s) (op : Op) (h : op.exec s = .ok t) : Stepped s t op := by
  cases op with
  | file op =>
    cases op with
    | writei i src off n => exact Op.exec_writei hs i src off n h
    | readi i ok off n =>
      obtain ⟨⟨a, u⟩, h, hu⟩ := (bind_ok_iff _ _ _).mp h
      cases hu
      obtain ⟨s1, h1, h⟩ := (bind_ok_iff _ _ _).mp h
      obtain ⟨hs1, hsame, hv⟩ := ilock_inv hs h1
      obtain ⟨r, hr⟩ := readi_state off n hs1 hv ok
      rw [hr, ok_bind] at h
      cases h
      exact stepped_same hs1 hsame _ (fun _ _ _ _ he => by cases he)
    | itrunc i =>
      obtain ⟨⟨a, u⟩, h, hu⟩ := (bind_ok_iff _ _ _).mp h
      cases hu
      obtain ⟨s1, h1, h⟩ := (bind_ok_iff _ _ _).mp h
      obtain ⟨hs1, hsame, hv⟩ := ilock_inv hs h1
      obtain ⟨u, hu, htr⟩ := itrunc_truncated s1 i hs1.tree hv
      rw [hu, ok_bind] at h
      cases h
      refine stepped_of_not_write _ (htr.inv hs1 hv) (htr.sb.trans hsame.sb)
        (fun _ _ _ _ he => by cases he) ?_
      intro sl hr ho
      rw [htr.val hs1.tree hv sl hr, ho, if_neg (by simp), val_congr s s1 hsame.block hsame.addr]
  | iget i =>
    obtain ⟨hi, hsame⟩ := iget_inv hs h
    exact stepped_same hi hsame _ (fun _ _ _ _ he => by cases he)
  | ilock i =>
    obtain ⟨hi, hsame, -⟩ := ilock_inv hs h
    exact stepped_same hi hsame _ (fun _ _ _ _ he => by cases he)
  | ialloc type =>
    obtain ⟨⟨i, u⟩, h, hu⟩ := (bind_ok_iff _ _ _).mp h
    cases hu
    obtain ⟨hi, hsame⟩ := ialloc_inv hs type h
    exact stepped_same hi hsame _ (fun _ _ _ _ he => by cases he)
  | iput i =>
    obtain ⟨u, hu, hi, hsb, hval⟩ := iput_inv hs i
    rw [Op.exec, hu] at h
    cases h
    refine stepped_of_not_write _ hi hsb (fun _ _ _ _ he => by cases he) ?_
    intro sl hr ho
    rcases hval sl hr with h | ⟨h, -⟩
    · exact h
    · rw [ho] at h
      cases h

/-- No call frees a block that is not marked. -/
theorem Op.exec_freeing (hs : Inv s) (op : Op) : op.exec s ≠ .error .freeingFreeBlock := by
  have hlock (i : Nat) : Fs.ilock s i ≠ .error .freeingFreeBlock := by
    unfold Fs.ilock
    split_ifs <;> simp
  have hget (u : State) (i : Nat) : Fs.iget u i ≠ .error .freeingFreeBlock := by
    unfold Fs.iget
    split_ifs <;> simp
  intro h
  cases op with
  | file op =>
    rcases (bind_error_iff _ _ _).mp h with h | ⟨a, -, h⟩
    · cases op with
      | writei i src off n =>
        rcases (bind_error_iff _ _ _).mp h with h | ⟨s1, h1, h⟩
        · exact hlock i h
        obtain ⟨hs1, -, hv⟩ := ilock_inv hs h1
        rcases (bind_error_iff _ _ _).mp h with h | ⟨r, -, h⟩
        · by_cases hacc : Accepts (s1.node i).size off.toNat n.toNat
          · cases (writei_written src hs1 hv hacc).2 _ h
          · rw [writei_rejected src hacc] at h
            cases h
        · cases h
      | readi i ok off n =>
        rcases (bind_error_iff _ _ _).mp h with h | ⟨s1, h1, h⟩
        · exact hlock i h
        obtain ⟨hs1, -, hv⟩ := ilock_inv hs h1
        obtain ⟨r, hr⟩ := readi_state off n hs1 hv ok
        rw [hr, ok_bind] at h
        cases h
      | itrunc i =>
        rcases (bind_error_iff _ _ _).mp h with h | ⟨s1, h1, h⟩
        · exact hlock i h
        obtain ⟨hs1, -, hv⟩ := ilock_inv hs h1
        obtain ⟨u, hu, -⟩ := itrunc_truncated s1 i hs1.tree hv
        rw [hu, ok_bind] at h
        cases h
    · cases h
  | iget i => exact hget s i h
  | ilock i => exact hlock i h
  | ialloc type =>
    rcases (bind_error_iff _ _ _).mp h with h | ⟨a, -, h⟩
    · unfold Fs.ialloc at h
      split at h
      · cases h
      · rcases (bind_error_iff _ _ _).mp h with h | ⟨a, -, h⟩
        · exact hget _ _ h
        · cases h
    · cases h
  | iput i =>
    obtain ⟨t, ht, -⟩ := iput_inv hs i
    rw [Op.exec, ht] at h
    cases h

/-- Writes to an empty inode, then itrunc: the slots are those from before the writes. -/
theorem trunc_restores (hs : Inv s) (i : Nat) (hopen : Open s i)
    (hempty : ∀ k, s.addr i k = 0) (ws : List Op)
    (hws : ∀ op ∈ ws, ∃ src off n, op = .file (.writei i src off n))
    (hg : Guarded fsStep Low s ws) (hr : run fsStep s ws = some t) :
    ∃ u, Op.exec t (.file (.itrunc i)) = .ok u ∧ ∀ b, b < s.sb.size → u.bit b = s.bit b := by
  have hkeep : Inv t ∧ t.sb = s.sb ∧ Open t i ∧
      ∀ sl : Slot, sl.InRange → sl.owner ≠ some i → t.val sl = s.val sl := by
    clear hempty
    induction ws generalizing s with
    | nil =>
      cases hr
      exact ⟨hs, rfl, hopen, fun _ _ _ => rfl⟩
    | cons op ws ih =>
      obtain ⟨u, hu, hrest⟩ := (run_cons _ _ _ _ _).mp hr
      obtain ⟨src, off, n, rfl⟩ := hws op (by simp)
      have hst := Op.exec_stepped hs _ ((fsStep_eq_some _ _ _).mp hu)
      obtain ⟨hop, hval⟩ := hst.write i src off n rfl hg.1
      obtain ⟨h1, h2, h3, h4⟩ := ih hst.inv (hop i hopen)
        (fun op hop => hws op (by simp [hop])) (hg.2 u hu) hrest
      exact ⟨h1, h2.trans hst.sb, h3, fun sl hsl ho => (h4 sl hsl ho).trans (hval sl hsl ho)⟩
  obtain ⟨ht, hsb, hot, hval⟩ := hkeep
  obtain ⟨u, hu, htr⟩ := itrunc_truncated t i ht.tree hot.2
  refine ⟨u, ?_, ?_⟩
  · simp only [Op.exec, FileOp.exec, ilock_open t i hot, ok_bind, hu]
  · apply bit_eq_of_val hs.tree (htr.tree ht.tree hot.2) (htr.sb.trans hsb)
    intro sl hsl
    rw [htr.val ht.tree hot.2 sl hsl]
    split_ifs with ho
    · cases sl <;> cases ho <;> simp [State.val, hempty, word_zero]
    · exact hval sl hsl ho

end Step

/-- Along every run whose writes stay below the doubly-indirect range the bitmap is exact,
no call frees a free block, and writing an empty file and truncating it restores the
bitmap. -/
theorem bitmap_exact_of_run (s t : State) (hs : Empty s) (ops : List Op)
    (hg : Guarded fsStep Low s ops) (hr : run fsStep s ops = some t) :
    BitmapExact t ∧ (∀ op : Op, op.exec t ≠ .error .freeingFreeBlock) ∧
    ∀ (i : Nat) (ws : List Op) (u : State), Open t i → (∀ k, t.addr i k = 0) →
      (∀ op ∈ ws, ∃ src off n, op = .file (.writei i src off n)) →
      Guarded fsStep Low t ws → run fsStep t ws = some u →
      ∃ v, Op.exec u (.file (.itrunc i)) = .ok v ∧ ∀ b, b < t.sb.size → v.bit b = t.bit b := by
  have hinv : Inv t ∧ SharedEmpty t := by
    refine guarded_run_invariant fsStep Low (fun s => Inv s ∧ SharedEmpty s) ?_ s t ops
      ⟨hs.inv, fun sl _ _ => hs.val sl⟩ hg hr
    rintro s op t ⟨hs, h0⟩ hlow hst
    have hst := Op.exec_stepped hs op ((fsStep_eq_some _ _ _).mp hst)
    refine ⟨hst.inv, ?_⟩
    intro sl hsl ho
    rw [hst.shared hlow sl hsl ho, h0 sl hsl ho]
  obtain ⟨ht, h0⟩ := hinv
  exact ⟨bitmapExact_of_tree ht.tree h0, Op.exec_freeing ht,
    fun i ws u hopen hempty hws hgw hrw => trunc_restores ht i hopen hempty ws hws hgw hrw⟩

theorem bitmap_exact_one_block :
    ∃ t, run fsStep freshDisk [.file (.writei 1 (fun _ => some 1) 0 1024)] = some t ∧
      BitmapExact t := by
  have hlen : (1024 : UInt32).toNat = 1024 := rfl
  have hrounds : rounds 0 1024 = 1 := by decide
  obtain ⟨t, ht, -, -⟩ := exec_writei_room (i := 1) freshDisk_empty.inv
    (freshDisk_open 1 (Or.inl rfl)) 1 1024 (by decide) 70 freshDisk_empty.clearFrom
    (by rw [hlen, hrounds]; decide)
  have hrun : run fsStep freshDisk [.file (.writei 1 (fun _ => some 1) 0 1024)] = some t := by
    rw [run_cons]
    refine ⟨t, (fsStep_eq_some _ _ _).mpr ?_, rfl⟩
    simp only [Op.exec, ht, ok_bind]
  have hlow : Guarded fsStep Low freshDisk [.file (.writei 1 (fun _ => some 1) 0 1024)] :=
    ⟨fun _ _ => by decide, fun _ _ => trivial⟩
  exact ⟨t, hrun, (bitmap_exact_of_run freshDisk t freshDisk_empty _ hlow hrun).1⟩

/-- One file of 268 blocks: its last block is marked and in no place of any inode. -/
theorem leaked_block : Empty freshDisk ∧
    ∃ t, run fsStep freshDisk [.file (.writei 1 (fun _ => some 1) 0 273409)] = some t ∧
      ¬BitmapExact t := by
  refine ⟨freshDisk_empty, ?_⟩
  have hlen : (273409 : UInt32).toNat = 273409 := rfl
  have hrounds : rounds 0 273409 = 268 := by decide
  obtain ⟨t, ht, hwt, -⟩ := exec_writei_room (i := 1) freshDisk_empty.inv
    (freshDisk_open 1 (Or.inl rfl)) 1 273409 (by decide) 70 freshDisk_empty.clearFrom
    (by rw [hlen, hrounds]; decide)
  refine ⟨t, ?_, ?_⟩
  · rw [run_cons]
    refine ⟨t, (fsStep_eq_some _ _ _).mpr ?_, rfl⟩
    simp only [Op.exec, ht, ok_bind]
  · intro hex
    have hsize : (t.node 1).size = 273409 := by
      rw [hwt.size, if_pos rfl, hlen]
      rfl
    have hslot : leaf 1 (273408/BSIZE) = .sentry 0 0 := by decide
    have hn := hwt.inv.mapped 1 273408 (by rw [hsize]; decide)
    rw [hslot] at hn
    have hr : (Slot.sentry 0 0).InRange := by
      simp [Slot.InRange, NINDIRECT_eq]
    obtain ⟨hd, hlt, hbit⟩ := hwt.inv.tree.used _ hr hn
    obtain ⟨pl, ⟨hpr, hpv⟩, -⟩ := (hex.marked _ hd hlt).mp hbit
    obtain ⟨i, k, rfl⟩ | ⟨i, rfl⟩ | ⟨i, k, rfl⟩ :=
      placeVal_cases hwt.inv.tree pl (by rw [hpv]; exact hn)
    · cases hwt.inv.tree.inj _ (.direct i k) hr hpr hn hpv.symm
    · cases hwt.inv.tree.inj _ (.root i) hr hpr hn hpv.symm
    · cases hwt.inv.tree.inj _ (.entry i k) hr hpr hn hpv.symm

end Xv6Labs.Fs
