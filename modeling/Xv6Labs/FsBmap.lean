import Xv6Labs.FsSlots

/-! bmap keeps the tree of slots: it fills at most the slots on the path to one logical
block, and answers the block of that slot. -/
namespace Xv6Labs.Fs

section Stores

variable {s s1 : State} {a : Nat}

theorem Allocated.addr (ha : Allocated s s1 a) (i k : Nat) : s1.addr i k = s.addr i k := by
  simp only [State.addr, State.node, ha.icache, ha.dinode]

theorem word_congr (f g : Nat → Bytes) (r k : Nat) (h : r ≠ 0 → f r = g r) :
    word f r k = word g r k := by
  by_cases hr : r = 0
  · rw [hr, word_zero, word_zero]
  · rw [word_of_ne _ _ _ hr, word_of_ne _ _ _ hr, h hr]

/-- Allocation alone changes no slot. -/
theorem Allocated.val (hs : Tree s) (ha : Allocated s s1 a) (sl : Slot) (hr : sl.InRange) :
    s1.val sl = s.val sl := by
  cases sl with
  | direct i k => exact ha.addr i k
  | root i => exact ha.addr i NDIRECT
  | entry i k =>
    simp only [State.val, ha.addr]
    exact word_congr _ _ _ _ (hs.block_kept ha (.root i) trivial)
  | sroot k => simp only [State.val, hs.zero_kept ha]
  | sentry k l =>
    simp only [State.val, hs.zero_kept ha]
    exact word_congr _ _ _ _ (hs.block_kept ha (.sroot k) hr.1)

theorem setAddr_val_direct (u : State) (i k a : Nat) (hv : (u.icache i).valid = true)
    (hk : k < NDIRECT) (sl : Slot) :
    (u.setAddr i k a).val sl = if sl = .direct i k then a else u.val sl := by
  have haddr (j : Nat) : (u.setAddr i k a).addr j NDIRECT = u.addr j NDIRECT := by
    rw [setAddr_addr u i k a j _ hv, if_neg]
    omega
  cases sl with
  | direct j l => simp only [State.val, setAddr_addr u i k a j l hv, Slot.direct.injEq]
  | root j => exact haddr j
  | entry j l => simp only [State.val, haddr, setAddr_block, reduceCtorEq, if_false]
  | sroot l => rfl
  | sentry l m => rfl

theorem setAddr_val_root (u : State) (i a : Nat) (hv : (u.icache i).valid = true)
    (hz : u.addr i NDIRECT = 0) (ha : u.block a = zeroBytes) (sl : Slot) (hr : sl.InRange) :
    (u.setAddr i NDIRECT a).val sl = if sl = .root i then a else u.val sl := by
  have haddr (j : Nat) : (u.setAddr i NDIRECT a).addr j NDIRECT =
      if j = i then a else u.addr j NDIRECT := by
    simp only [setAddr_addr u i NDIRECT a j _ hv, and_true]
  cases sl with
  | direct j l =>
    have hl : l < NDIRECT := hr
    have hne : ¬(j = i ∧ l = NDIRECT) := by omega
    simp only [State.val, setAddr_addr u i NDIRECT a j l hv, if_neg hne, reduceCtorEq, if_false]
  | root j => simp only [State.val, haddr, Slot.root.injEq]
  | entry j l =>
    simp only [State.val, haddr, reduceCtorEq, if_false, setAddr_block]
    by_cases hj : j = i
    · -- the fresh index block is zeroed, so its words are empty slots as before
      rw [if_pos hj, hj, hz, word_zero, word, ha, getUint_zeroBytes, ite_self]
    · rw [if_neg hj]
  | sroot l => rfl
  | sentry l m => rfl

/-- A word store into the indirect block of inode `i`. -/
theorem logWrite_val_entry (u : State) (i k a p : Nat) (hp : u.addr i NDIRECT = p)
    (hp0 : p ≠ 0) (ha : a < 2^32) (hother : ∀ j, j ≠ i → u.addr j NDIRECT ≠ p)
    (hsroot : ∀ l, l < NINDIRECT → getUint (u.block 0) l ≠ p) (sl : Slot) (hr : sl.InRange) :
    (u.logWrite p (setUint (u.block p) k a)).val sl =
      if sl = .entry i k then a else u.val sl := by
  cases sl with
  | direct j l => rfl
  | root j => rfl
  | entry j l =>
    simp only [State.val, logWrite_addr, logWrite_block, Slot.entry.injEq]
    by_cases hj : j = i
    · rw [hj, hp, word_of_ne _ _ _ hp0, word_of_ne _ _ _ hp0, Function.update_self]
      by_cases hl : l = k
      · rw [hl, getUint_setUint_self _ _ _ ha, if_pos ⟨rfl, rfl⟩]
      · rw [getUint_setUint_ne _ _ _ _ hl, if_neg (fun h => hl h.2)]
    · rw [if_neg (fun h => hj h.1)]
      exact word_congr _ _ _ _ (fun _ => Function.update_of_ne (hother j hj) _ _)
  | sroot l =>
    simp only [State.val, logWrite_block, Function.update_of_ne hp0.symm, reduceCtorEq, if_false]
  | sentry l m =>
    simp only [State.val, logWrite_block, Function.update_of_ne hp0.symm, reduceCtorEq, if_false]
    exact word_congr _ _ _ _ (fun _ => Function.update_of_ne (hsroot l hr.1) _ _)

/-- A word store into block 0. -/
theorem logWrite_val_sroot (u : State) (k a : Nat) (ha : a < 2^32)
    (hz : getUint (u.block 0) k = 0) (hzero : u.block a = zeroBytes) (sl : Slot) :
    (u.logWrite 0 (setUint (u.block 0) k a)).val sl = if sl = .sroot k then a else u.val sl := by
  cases sl with
  | direct j l => rfl
  | root j => rfl
  | entry j l =>
    simp only [State.val, logWrite_addr, logWrite_block, reduceCtorEq, if_false]
    exact word_congr _ _ _ _ (fun h => Function.update_of_ne h _ _)
  | sroot l =>
    simp only [State.val, logWrite_block, Function.update_self, Slot.sroot.injEq]
    by_cases hl : l = k
    · rw [hl, getUint_setUint_self _ _ _ ha, if_pos rfl]
    · rw [getUint_setUint_ne _ _ _ _ hl, if_neg hl]
  | sentry l m =>
    simp only [State.val, logWrite_block, Function.update_self, reduceCtorEq, if_false]
    by_cases hl : l = k
    · rw [hl, getUint_setUint_self _ _ _ ha, hz, word_zero]
      by_cases ha0 : a = 0
      · rw [ha0, word_zero]
      · rw [word_of_ne _ _ _ ha0, Function.update_of_ne ha0, hzero, getUint_zeroBytes]
    · rw [getUint_setUint_ne _ _ _ _ hl]
      exact word_congr _ _ _ _ (fun h => Function.update_of_ne h _ _)

/-- A word store into a second-level block of the tree below block 0. -/
theorem logWrite_val_sentry (u : State) (k l a p : Nat) (hp : getUint (u.block 0) k = p)
    (hp0 : p ≠ 0) (ha : a < 2^32) (hroot : ∀ j, u.addr j NDIRECT ≠ p)
    (hother : ∀ k', k' < NINDIRECT → k' ≠ k → getUint (u.block 0) k' ≠ p)
    (sl : Slot) (hr : sl.InRange) :
    (u.logWrite p (setUint (u.block p) l a)).val sl =
      if sl = .sentry k l then a else u.val sl := by
  cases sl with
  | direct j m => rfl
  | root j => rfl
  | entry j m =>
    simp only [State.val, logWrite_addr, logWrite_block, reduceCtorEq, if_false]
    exact word_congr _ _ _ _ (fun _ => Function.update_of_ne (hroot j) _ _)
  | sroot m =>
    simp only [State.val, logWrite_block, Function.update_of_ne hp0.symm, reduceCtorEq, if_false]
  | sentry m n =>
    simp only [State.val, logWrite_block, Function.update_of_ne hp0.symm, Slot.sentry.injEq]
    by_cases hm : m = k
    · rw [hm, hp, word_of_ne _ _ _ hp0, word_of_ne _ _ _ hp0, Function.update_self]
      by_cases hn : n = l
      · rw [hn, getUint_setUint_self _ _ _ ha, if_pos ⟨rfl, rfl⟩]
      · rw [getUint_setUint_ne _ _ _ _ hn, if_neg (fun h => hn h.2)]
    · rw [if_neg (fun h => hm h.1)]
      exact word_congr _ _ _ _ (fun _ => Function.update_of_ne (hother m hr.1 hm) _ _)

end Stores

/-- All bits from `N` on are clear. -/
def ClearFrom (s : State) (N : Nat) : Prop := ∀ b, N ≤ b → b < s.sb.size → s.bit b = false

/-- At most `n` blocks are free. -/
def FreeWithin (s : State) (n : Nat) : Prop :=
  ∃ l : List Nat, l.length ≤ n ∧ ∀ b, b < s.sb.size → s.bit b = false → b ∈ l

theorem FreeWithin.mono {s : State} {n m : Nat} (h : FreeWithin s n) (hnm : n ≤ m) :
    FreeWithin s m := by
  obtain ⟨l, hl, hfree⟩ := h
  exact ⟨l, hl.trans hnm, hfree⟩

/-- What a slot allocation answers: the block of the slot, found or just allocated. -/
structure Mapped (s : State) (sl : Slot) (cost : Nat) (r : Except Panic (Nat × State)) : Prop where
  ok : ∀ a t, r = .ok (a, t) → Tree t ∧ Grows s t ∧ t.val sl = a ∧ a ≠ 0
  frame : ∀ a t, r = .ok (a, t) →
    ∀ sl' : Slot, sl'.InRange → sl'.owner ≠ sl.owner → t.val sl' = s.val sl'
  full : s.val sl ≠ 0 → r = .ok (s.val sl, s)
  error : ∀ p, r = .error p → p = .ballocOutOfBlocks
  few : ∀ p, r = .error p → ∃ n, n < cost ∧ FreeWithin s n
  took : ∀ a t, r = .ok (a, t) → ∀ n, FreeWithin t n → FreeWithin s (n + cost)
  room : ∀ N, ClearFrom s N → N + cost ≤ s.sb.size →
    ∃ a t, r = .ok (a, t) ∧ ClearFrom t (N + cost)

/-- The store of a fresh block `a` into slot `sl`. -/
structure Filled (s s1 t : State) (a : Nat) (sl : Slot) : Prop where
  sb : t.sb = s1.sb
  dinode : t.dinode = s1.dinode
  other : ∀ i, (t.icache i).ref = (s1.icache i).ref ∧
    (t.icache i).valid = (s1.icache i).valid ∧
    ∃ f, (t.icache i).copy = { (s1.icache i).copy with addrs := f }
  high : ∀ i k, NDIRECT < k → t.addr i k = s1.addr i k
  val : ∀ sl' : Slot, sl'.InRange → t.val sl' = if sl' = sl then a else s1.val sl'
  bitmap : ∀ c, s.sb.Bitmap c → t.block c = s1.block c
  data : ∀ sl' : Slot, sl'.InRange → sl'.Leaf → s.val sl' ≠ 0 →
    t.block (s.val sl') = s1.block (s.val sl')

section Specs

variable {s : State}

/-- Filling an empty slot through balloc. -/
theorem mapped_fill (hs : Tree s) (sl : Slot) (hr : sl.InRange) (hz : s.val sl = 0)
    (store : State → Nat → State)
    (hst : ∀ s1 a, Allocated s s1 a → Filled s s1 (store s1 a) a sl) :
    Mapped s sl 1 (balloc s >>= fun p => .ok (p.1, store p.2 p.1)) := by
  have hbits (s1 : State) (a : Nat) (ha : Allocated s s1 a) (b : Nat) (hb : b < s.sb.size) :
      (store s1 a).bit b = s1.bit b := by
    have hf := hst s1 a ha
    unfold State.bit
    rw [hf.sb, ha.sb, hf.bitmap _ (bblock_bitmap s.sb b hb)]
  have hres (a : Nat) (t : State) (h : (balloc s >>= fun p => .ok (p.1, store p.2 p.1)) =
      .ok (a, t)) : ∃ s1, Allocated s s1 a ∧ t = store s1 a := by
    obtain ⟨⟨a', s1⟩, hb, he⟩ := (bind_ok_iff _ _ _).mp h
    simp only [Except.ok.injEq, Prod.mk.injEq] at he
    obtain ⟨rfl, rfl⟩ := he
    exact ⟨s1, balloc_allocated s s1 a' hs.marked hb, rfl⟩
  have hval (s1 : State) (a : Nat) (ha : Allocated s s1 a) (sl' : Slot) (hr' : sl'.InRange) :
      (store s1 a).val sl' = if sl' = sl then a else s.val sl' := by
    rw [(hst s1 a ha).val sl' hr', ha.val hs sl' hr']
  refine ⟨?_, ?_, fun hn => absurd hz hn, ?_, ?_, ?_, ?_⟩
  · intro a t h
    obtain ⟨s1, ha, rfl⟩ := hres a t h
    have hf := hst s1 a ha
    have hval := hval s1 a ha
    refine ⟨hs.fill ha hr hz (hf.sb.trans ha.sb) (hbits s1 a ha) ?_ hval, ?_,
      by rw [hval sl hr, if_pos rfl], Tree.fresh_ne_zero ha⟩
    · intro i k hk
      rw [hf.high i k hk, ha.addr]
    · refine ⟨⟨hf.sb.trans ha.sb, hf.dinode.trans ha.dinode, ?_, ?_⟩, ?_⟩
      · intro i
        have ho := hf.other i
        rwa [ha.icache] at ho
      · intro sl' hr' hn
        rw [hval sl' hr', if_neg]
        intro he
        exact hn (he ▸ hz)
      · intro sl' hr' hl hn
        rw [hf.data sl' hr' hl hn, hs.block_kept ha sl' hr' hn]
  · intro a t h sl' hr' ho
    obtain ⟨s1, ha, rfl⟩ := hres a t h
    rw [hval s1 a ha sl' hr', if_neg]
    intro he
    exact ho (by rw [he])
  · intro p h
    rcases (bind_error_iff _ _ _).mp h with h | ⟨a, -, h⟩
    · exact (balloc_error s p h).1
    · cases h
  · intro p h
    refine ⟨0, Nat.one_pos, [], le_rfl, ?_⟩
    intro b hb hfree
    rcases (bind_error_iff _ _ _).mp h with h | ⟨a, -, h⟩
    · have := (balloc_error s p h).2 b hb
      rw [hfree] at this
      cases this
    · cases h
  · intro a t h n hn
    obtain ⟨s1, ha, rfl⟩ := hres a t h
    obtain ⟨l, hl, hfree⟩ := hn
    -- only the block that is taken was free before and is not now
    refine ⟨a :: l, Nat.succ_le_succ hl, ?_⟩
    intro b hb hbit
    by_cases hab : b = a
    · exact hab ▸ List.mem_cons_self
    · refine List.mem_cons_of_mem _ (hfree b (by rwa [(hst s1 a ha).sb, ha.sb]) ?_)
      rw [hbits s1 a ha b hb, ha.bit b hb, hbit, decide_eq_false (Ne.symm hab)]
      rfl
  · intro N hN hlt
    cases hb : balloc s with
    | error p =>
      have := (balloc_error s p hb).2 N (by omega)
      rw [hN N le_rfl (by omega)] at this
      cases this
    | ok r =>
      obtain ⟨a, s1⟩ := r
      have ha := balloc_allocated s s1 a hs.marked hb
      obtain ⟨-, -, hmin, -⟩ := balloc_ok s s1 a hb
      have haN : a ≤ N := by
        by_contra hn
        have := hmin N (by omega)
        rw [hN N le_rfl (by omega)] at this
        cases this
      refine ⟨a, store s1 a, rfl, ?_⟩
      intro b hNb hb'
      rw [(hst s1 a ha).sb, ha.sb] at hb'
      have hne : a ≠ b := by omega
      rw [hbits s1 a ha b hb', ha.bit b hb', hN b (by omega) hb']
      simp [hne]

/-- A slot that is already full. -/
theorem mapped_full (hs : Tree s) (sl : Slot) (hn : s.val sl ≠ 0) :
    Mapped s sl 1 (.ok (s.val sl, s)) := by
  refine ⟨?_, ?_, fun _ => rfl, ?_, ?_, ?_, ?_⟩
  · intro a t h
    simp only [Except.ok.injEq, Prod.mk.injEq] at h
    obtain ⟨rfl, rfl⟩ := h
    exact ⟨hs, Grows.refl s, rfl, hn⟩
  · intro a t h sl' _ _
    simp only [Except.ok.injEq, Prod.mk.injEq] at h
    rw [h.2]
  · intro p h
    cases h
  · intro p h
    cases h
  · intro a t h n hfree
    simp only [Except.ok.injEq, Prod.mk.injEq] at h
    obtain ⟨rfl, rfl⟩ := h
    exact hfree.mono (Nat.le_succ n)
  · intro N hN _
    exact ⟨_, s, rfl, fun b hb hlt => hN b (by omega) hlt⟩

theorem setAddr_filled (s1 : State) (i k a : Nat) (sl : Slot) (hk : k ≤ NDIRECT)
    (hv : (s1.icache i).valid = true)
    (hval : ∀ sl' : Slot, sl'.InRange →
      (s1.setAddr i k a).val sl' = if sl' = sl then a else s1.val sl') :
    Filled s s1 (s1.setAddr i k a) a sl := by
  refine ⟨rfl, rfl, ?_, ?_, hval, fun _ _ => rfl, fun _ _ _ _ => rfl⟩
  · intro j
    unfold State.setAddr
    rw [setCopy_ref, setCopy_valid]
    refine ⟨rfl, rfl, ?_⟩
    by_cases hj : j = i
    · subst hj
      exact ⟨_, by simp [State.setCopy]; rfl⟩
    · exact ⟨(s1.icache j).copy.addrs, by simp [State.setCopy, Function.update_of_ne hj]⟩
  · intro j l hl
    rw [setAddr_addr s1 i k a j _ hv, if_neg]
    omega

theorem slotAlloc_direct (hs : Tree s) (i k : Nat) (hk : k < NDIRECT)
    (hv : (s.icache i).valid = true) : Mapped s (.direct i k) 1 (slotAlloc s i k) := by
  unfold slotAlloc
  by_cases hz : s.addr i k = 0
  · rw [if_pos hz]
    apply mapped_fill hs (.direct i k) hk hz (fun s1 a => s1.setAddr i k a)
    intro s1 a ha
    have hv1 : (s1.icache i).valid = true := by rw [ha.icache, hv]
    exact setAddr_filled s1 i k a _ hk.le hv1
      (fun sl' _ => setAddr_val_direct s1 i k a hv1 hk sl')
  · rw [if_neg hz]
    exact mapped_full hs (.direct i k) hz

theorem slotAlloc_root (hs : Tree s) (i : Nat) (hv : (s.icache i).valid = true) :
    Mapped s (.root i) 1 (slotAlloc s i NDIRECT) := by
  unfold slotAlloc
  by_cases hz : s.addr i NDIRECT = 0
  · rw [if_pos hz]
    apply mapped_fill hs (.root i) trivial hz (fun s1 a => s1.setAddr i NDIRECT a)
    intro s1 a ha
    have hv1 : (s1.icache i).valid = true := by rw [ha.icache, hv]
    exact setAddr_filled s1 i NDIRECT a _ le_rfl hv1
      (setAddr_val_root s1 i a hv1 (by rw [ha.addr, hz]) ha.zero)
  · rw [if_neg hz]
    exact mapped_full hs (.root i) hz

/-- A word store into a block that holds no data and no bitmap. -/
theorem logWrite_filled (s1 : State) (p k a : Nat) (sl : Slot)
    (hp : ¬s.sb.Bitmap p)
    (hleaf : ∀ sl' : Slot, sl'.InRange → sl'.Leaf → s.val sl' ≠ 0 → s.val sl' ≠ p)
    (hval : ∀ sl' : Slot, sl'.InRange →
      (s1.logWrite p (setUint (s1.block p) k a)).val sl' = if sl' = sl then a else s1.val sl') :
    Filled s s1 (s1.logWrite p (setUint (s1.block p) k a)) a sl := by
  refine ⟨rfl, rfl, fun _ => ⟨rfl, rfl, _, rfl⟩, fun _ _ _ => rfl, hval, ?_, ?_⟩
  · intro c hc
    rw [logWrite_block, Function.update_of_ne]
    intro he
    exact hp (he ▸ hc)
  · intro sl' hr' hl hn
    rw [logWrite_block, Function.update_of_ne (hleaf sl' hr' hl hn)]

theorem entryAlloc_entry (hs : Tree s) (i k : Nat) (hk : k < NINDIRECT)
    (hroot : s.val (.root i) ≠ 0) :
    Mapped s (.entry i k) 1 (entryAlloc s (s.val (.root i)) k) := by
  unfold entryAlloc
  have hw : s.val (.entry i k) = getUint (s.block (s.val (.root i))) k :=
    word_of_ne _ _ _ hroot
  by_cases hz : getUint (s.block (s.val (.root i))) k = 0
  · rw [if_pos hz]
    apply mapped_fill hs (.entry i k) hk (hw.trans hz)
      (fun s1 a => s1.logWrite (s.val (.root i)) (setUint (s1.block (s.val (.root i))) k a))
    intro s1 a ha
    apply logWrite_filled s1 _ k a _ (hs.notBitmap (.root i) trivial hroot)
    · intro sl' hr' hl hn he
      rw [hs.inj sl' (.root i) hr' trivial hn he] at hl
      exact hl
    · have hsz := ha.lt_size
      have h32 := hs.wf.size_lt
      apply logWrite_val_entry s1 i k a _ (ha.addr i NDIRECT) hroot (by omega)
      · intro j hj he
        rw [ha.addr] at he
        have := hs.inj (.root i) (.root j) trivial trivial hroot he.symm
        rw [Slot.root.injEq] at this
        exact hj this.symm
      · intro l hl he
        rw [hs.zero_kept ha] at he
        cases hs.inj (.root i) (.sroot l) trivial hl hroot he.symm
  · rw [if_neg hz, ← hw]
    rw [← hw] at hz
    exact mapped_full hs (.entry i k) hz

theorem entryAlloc_sroot (hs : Tree s) (k : Nat) (hk : k < NINDIRECT) :
    Mapped s (.sroot k) 1 (entryAlloc s 0 k) := by
  unfold entryAlloc
  by_cases hz : getUint (s.block 0) k = 0
  · rw [if_pos hz]
    apply mapped_fill hs (.sroot k) hk hz
      (fun s1 a => s1.logWrite 0 (setUint (s1.block 0) k a))
    intro s1 a ha
    apply logWrite_filled s1 0 k a _ hs.notBitmap_zero (fun _ _ _ hn => hn)
    intro sl' _
    have hsz := ha.lt_size
    have h32 := hs.wf.size_lt
    exact logWrite_val_sroot s1 k a (by omega) (by rw [hs.zero_kept ha, hz]) ha.zero sl'
  · rw [if_neg hz]
    exact mapped_full hs (.sroot k) hz

theorem entryAlloc_sentry (hs : Tree s) (k l : Nat) (hk : k < NINDIRECT) (hl : l < NINDIRECT)
    (hroot : s.val (.sroot k) ≠ 0) :
    Mapped s (.sentry k l) 1 (entryAlloc s (s.val (.sroot k)) l) := by
  unfold entryAlloc
  have hw : s.val (.sentry k l) = getUint (s.block (s.val (.sroot k))) l :=
    word_of_ne _ _ _ hroot
  by_cases hz : getUint (s.block (s.val (.sroot k))) l = 0
  · rw [if_pos hz]
    apply mapped_fill hs (.sentry k l) ⟨hk, hl⟩ (hw.trans hz)
      (fun s1 a => s1.logWrite (s.val (.sroot k)) (setUint (s1.block (s.val (.sroot k))) l a))
    intro s1 a ha
    apply logWrite_filled s1 _ l a _ (hs.notBitmap (.sroot k) hk hroot)
    · intro sl' hr' hlf hn he
      rw [hs.inj sl' (.sroot k) hr' hk hn he] at hlf
      exact hlf
    · have hsz := ha.lt_size
      have h32 := hs.wf.size_lt
      apply logWrite_val_sentry s1 k l a _ (by rw [hs.zero_kept ha]; rfl) hroot (by omega)
      · intro j he
        rw [ha.addr] at he
        cases hs.inj (.sroot k) (.root j) hk trivial hroot he.symm
      · intro k' hk' hne he
        rw [hs.zero_kept ha] at he
        have := hs.inj (.sroot k) (.sroot k') hk hk' hroot he.symm
        rw [Slot.sroot.injEq] at this
        exact hne this.symm
  · rw [if_neg hz, ← hw]
    rw [← hw] at hz
    exact mapped_full hs (.sentry k l) hz

/-- Two allocations in a row, the second below the slot of the first. -/
theorem mapped_bind {r : Except Panic (Nat × State)} {f : Nat × State → Except Panic (Nat × State)}
    (sl sl' : Slot) (h : Mapped s sl 1 r)
    (hf : ∀ t, Tree t → Grows s t → t.val sl ≠ 0 → Mapped t sl' 1 (f (t.val sl, t)))
    (hsub : s.val sl' ≠ 0 → s.val sl ≠ 0) (howner : sl.owner = sl'.owner) :
    Mapped s sl' 2 (r >>= f) := by
  refine ⟨?_, ?_, ?_, ?_, ?_, ?_, ?_⟩
  · intro b u hu
    obtain ⟨⟨a, t⟩, h1, h2⟩ := (bind_ok_iff _ _ _).mp hu
    obtain ⟨ht, hg, rfl, ha⟩ := h.ok a t h1
    obtain ⟨hu', hg', hv, hb⟩ := (hf t ht hg ha).ok b u h2
    exact ⟨hu', hg.trans hg', hv, hb⟩
  · intro b u hu x hx ho
    obtain ⟨⟨a, t⟩, h1, h2⟩ := (bind_ok_iff _ _ _).mp hu
    obtain ⟨ht, hg, rfl, ha⟩ := h.ok a t h1
    rw [(hf t ht hg ha).frame b u h2 x hx ho, h.frame _ t h1 x hx (by rw [howner]; exact ho)]
  · intro hn
    have h1 := h.full (hsub hn)
    obtain ⟨ht, hg, -, ha⟩ := h.ok _ s h1
    exact (bind_ok_iff _ _ _).mpr ⟨_, h1, (hf s ht hg ha).full hn⟩
  · intro p hp
    rcases (bind_error_iff _ _ _).mp hp with h1 | ⟨⟨a, t⟩, h1, h2⟩
    · exact h.error p h1
    · obtain ⟨ht, hg, rfl, ha⟩ := h.ok a t h1
      exact (hf t ht hg ha).error p h2
  · intro p hp
    rcases (bind_error_iff _ _ _).mp hp with h1 | ⟨⟨a, t⟩, h1, h2⟩
    · obtain ⟨n, hn, hfree⟩ := h.few p h1
      exact ⟨n, by omega, hfree⟩
    · obtain ⟨ht, hg, rfl, ha⟩ := h.ok a t h1
      obtain ⟨n, hn, hfree⟩ := (hf t ht hg ha).few p h2
      exact ⟨n + 1, by omega, h.took _ t h1 n hfree⟩
  · intro b u hu n hfree
    obtain ⟨⟨a, t⟩, h1, h2⟩ := (bind_ok_iff _ _ _).mp hu
    obtain ⟨ht, hg, rfl, ha⟩ := h.ok a t h1
    exact h.took _ t h1 _ ((hf t ht hg ha).took b u h2 n hfree)
  · intro N hN hlt
    obtain ⟨a, t, h1, hN'⟩ := h.room N hN (by omega)
    obtain ⟨ht, hg, rfl, ha⟩ := h.ok a t h1
    obtain ⟨b, u, h2, hN2⟩ := (hf t ht hg ha).room (N+1) hN' (by rw [hg.sb]; omega)
    exact ⟨b, u, (bind_ok_iff _ _ _).mpr ⟨_, h1, h2⟩, hN2⟩

theorem Mapped.weaken {sl : Slot} {r : Except Panic (Nat × State)} (h : Mapped s sl 1 r) :
    Mapped s sl 2 r := by
  refine ⟨h.ok, h.frame, h.full, h.error, ?_, ?_, ?_⟩
  · intro p hp
    obtain ⟨n, hn, hfree⟩ := h.few p hp
    exact ⟨n, by omega, hfree⟩
  · intro a t ht n hfree
    exact (h.took a t ht n hfree).mono (Nat.le_succ _)
  · intro N hN hlt
    obtain ⟨a, t, h1, hN'⟩ := h.room N hN (by omega)
    exact ⟨a, t, h1, fun b hb hlt => hN' b (by omega) hlt⟩

/-- bmap answers the block of the slot of `bn`, allocating at most two blocks. -/
theorem bmap_spec (hs : Tree s) (i bn : Nat) (hv : (s.icache i).valid = true)
    (hbn : bn < MAXFILE) : Mapped s (leaf i bn) 2 (bmap s i bn) := by
  unfold bmap
  by_cases h1 : bn < NDIRECT
  · rw [if_pos h1, leaf_direct i bn h1]
    exact (slotAlloc_direct hs i bn h1 hv).weaken
  rw [if_neg h1]
  by_cases h2 : bn - NDIRECT < NINDIRECT
  · rw [if_pos h2, leaf_entry i bn h1 h2]
    apply mapped_bind (.root i) _ (slotAlloc_root hs i hv)
    · intro t ht hg hn
      exact entryAlloc_entry ht i _ h2 hn
    · intro hn hz
      apply hn
      change word s.block (s.addr i NDIRECT) _ = 0
      rw [show s.addr i NDIRECT = 0 from hz, word_zero]
    · rfl
  · have h3 : (bn - NDIRECT - NINDIRECT)/NINDIRECT < NINDIRECT := by
      simp only [NDIRECT_eq, NINDIRECT_eq, MAXFILE_eq] at *
      omega
    have h4 : (bn - NDIRECT - NINDIRECT)%NINDIRECT < NINDIRECT := Nat.mod_lt _ (by decide)
    -- the root slot is empty, so the map of every inode starts at block 0
    rw [if_neg h2, if_pos h3, leaf_sentry i bn h1 h2, hs.high i _ (Nat.lt_succ_self _)]
    apply mapped_bind (.sroot _) _ (entryAlloc_sroot hs _ h3)
    · intro t ht hg hn
      exact entryAlloc_sentry ht _ _ h3 h4 hn
    · intro hn hz
      apply hn
      change word s.block (getUint (s.block 0) _) _ = 0
      rw [show getUint (s.block 0) _ = 0 from hz, word_zero]
    · rfl

/-- bmap of inode `i` leaves the other cached inodes alone. -/
theorem bmap_icache (i bn a : Nat) (t : State) (h : bmap s i bn = .ok (a, t)) (j : Nat)
    (hj : j ≠ i) : t.icache j = s.icache j := by
  have hballoc (u v : State) (b : Nat) (hb : balloc u = .ok (b, v)) : v.icache = u.icache := by
    obtain ⟨-, -, -, rfl⟩ := balloc_ok u v b hb
    rfl
  have hslot (u v : State) (k b : Nat) (hb : slotAlloc u i k = .ok (b, v)) :
      v.icache j = u.icache j := by
    unfold slotAlloc at hb
    split_ifs at hb
    · obtain ⟨⟨c, w⟩, hc, hw⟩ := (bind_ok_iff _ _ _).mp hb
      simp only [Except.ok.injEq, Prod.mk.injEq] at hw
      rw [← hw.2, ← hballoc u w c hc]
      simp [State.setAddr, State.setCopy, hj]
    · simp only [Except.ok.injEq, Prod.mk.injEq] at hb
      rw [hb.2]
  have hentry (u v : State) (p k b : Nat) (hb : entryAlloc u p k = .ok (b, v)) :
      v.icache = u.icache := by
    unfold entryAlloc at hb
    split_ifs at hb
    · obtain ⟨⟨c, w⟩, hc, hw⟩ := (bind_ok_iff _ _ _).mp hb
      simp only [Except.ok.injEq, Prod.mk.injEq] at hw
      rw [← hw.2, ← hballoc u w c hc]
      rfl
    · simp only [Except.ok.injEq, Prod.mk.injEq] at hb
      rw [hb.2]
  unfold bmap at h
  split_ifs at h
  · exact hslot s t bn a h
  · obtain ⟨⟨b, u⟩, hb, hu⟩ := (bind_ok_iff _ _ _).mp h
    rw [hentry u t _ _ a hu, hslot s u _ b hb]
  · obtain ⟨⟨b, u⟩, hb, hu⟩ := (bind_ok_iff _ _ _).mp h
    rw [hentry u t _ _ a hu, hentry s u _ _ b hb]

end Specs

end Xv6Labs.Fs
