import Xv6Labs.FsData

/-! itrunc frees exactly the blocks in the slots of its inode. -/
namespace Xv6Labs.Fs

/-- `t` is `s` with the bits of the blocks in `P` cleared; only bitmap blocks differ. -/
structure Cleared (s t : State) (P : Nat → Prop) : Prop where
  bit : ∀ b, b < s.sb.size → (t.bit b = true ↔ s.bit b = true ∧ ¬P b)
  block : ∀ c, ¬s.sb.Bitmap c → t.block c = s.block c
  sb : t.sb = s.sb
  dinode : t.dinode = s.dinode

theorem Cleared.refl (s : State) : Cleared s s (fun _ => False) :=
  ⟨fun _ _ => by simp, fun _ _ => rfl, rfl, rfl⟩

theorem Cleared.trans {s t u : State} {P Q R : Nat → Prop} (h : Cleared s t P)
    (h' : Cleared t u Q) (hR : ∀ b, R b ↔ P b ∨ Q b) : Cleared s u R := by
  refine ⟨?_, ?_, h'.sb.trans h.sb, h'.dinode.trans h.dinode⟩
  · intro b hb
    rw [h'.bit b (by rw [h.sb]; exact hb), h.bit b hb, hR b]
    tauto
  · intro c hc
    rw [h'.block c (by rw [h.sb]; exact hc), h.block c hc]

/-- bfree of a marked block. -/
theorem bfree_cleared (s : State) (a : Nat) (ha : a < s.sb.size) (hused : s.bit a = true) :
    ∃ t, bfree s a = .ok t ∧ Cleared s t (fun b => b = a) ∧ t.icache = s.icache := by
  obtain ⟨t, ht, hf⟩ := bfree_freed s a ha hused
  refine ⟨t, ht, ⟨?_, hf.block, hf.sb, hf.dinode⟩, hf.icache⟩
  intro b hb
  rw [hf.bit b hb]
  simp only [Bool.and_eq_true, Bool.not_eq_true', decide_eq_false_iff_not, eq_comm (a := b)]
  tauto

/-- `c` is one of the nonzero values `v k` with `k` in `L`. -/
def Among (v : Nat → Nat) (L : List Nat) (c : Nat) : Prop := c ≠ 0 ∧ ∃ k ∈ L, v k = c

theorem among_cons (v : Nat → Nat) (j : Nat) (L : List Nat) (c : Nat) :
    Among v (j :: L) c ↔ (v j ≠ 0 ∧ c = v j) ∨ Among v L c := by
  unfold Among
  simp only [List.mem_cons, exists_eq_or_imp]
  constructor
  · rintro ⟨h0, rfl | h⟩
    · exact Or.inl ⟨h0, rfl⟩
    · exact Or.inr ⟨h0, h⟩
  · rintro (⟨h0, rfl⟩ | ⟨h0, h⟩)
    · exact ⟨h0, Or.inl rfl⟩
    · exact ⟨h0, Or.inr h⟩

theorem among_congr (v w : Nat → Nat) (L : List Nat) (h : ∀ k ∈ L, v k = w k) (c : Nat) :
    Among v L c ↔ Among w L c := by
  unfold Among
  rw [and_congr_right_iff]
  intro _
  exact exists_congr (fun k => and_congr_right (fun hk => by rw [h k hk]))

theorem Cleared.congr {s t : State} {P Q : Nat → Prop} (h : Cleared s t P)
    (hQ : ∀ b, Q b ↔ P b) : Cleared s t Q := by
  refine ⟨?_, h.block, h.sb, h.dinode⟩
  intro b hb
  rw [h.bit b hb, hQ b]

/-- The loop over the words of an index block frees its nonzero words. -/
theorem foldlM_entryFree (s : State) (b : Nat) (hb : ¬s.sb.Bitmap b) (L : List Nat)
    (hnd : L.Nodup)
    (hin : ∀ j ∈ L, getUint (s.block b) j ≠ 0 →
      getUint (s.block b) j < s.sb.size ∧ s.bit (getUint (s.block b) j) = true)
    (hinj : ∀ j ∈ L, ∀ k ∈ L, getUint (s.block b) j ≠ 0 →
      getUint (s.block b) j = getUint (s.block b) k → j = k) :
    ∃ t, L.foldlM (entryFree b) s = .ok t ∧ t.icache = s.icache ∧
      Cleared s t (Among (getUint (s.block b)) L) := by
  induction L generalizing s with
  | nil => exact ⟨s, rfl, rfl, (Cleared.refl s).congr (by simp [Among])⟩
  | cons j L ih =>
    obtain ⟨hj, hL⟩ := List.nodup_cons.mp hnd
    rw [List.foldlM_cons]
    unfold entryFree
    by_cases hz : getUint (s.block b) j = 0
    · rw [if_neg (not_not.mpr hz)]
      obtain ⟨t, ht, hic, hc⟩ := ih s hb hL (fun k hk => hin k (by simp [hk]))
        (fun k hk l hl => hinj k (by simp [hk]) l (by simp [hl]))
      refine ⟨t, ht, hic, hc.congr ?_⟩
      intro c
      simp [among_cons, hz]
    · rw [if_pos hz]
      obtain ⟨hlt, hbit⟩ := hin j (by simp) hz
      obtain ⟨s1, hs1, hc1, hic1⟩ := bfree_cleared s _ hlt hbit
      have hblk := hc1.block b hb
      obtain ⟨t, ht, hic, hc⟩ := ih s1 (by rw [hc1.sb]; exact hb) hL
        (fun k hk hn => by
          rw [hblk] at hn ⊢
          obtain ⟨h1, h2⟩ := hin k (by simp [hk]) hn
          refine ⟨by rw [hc1.sb]; exact h1, (hc1.bit _ h1).mpr ⟨h2, ?_⟩⟩
          intro he
          rw [hinj k (by simp [hk]) j (by simp) hn he] at hk
          exact hj hk)
        (fun k hk l hl => by rw [hblk]; exact hinj k (by simp [hk]) l (by simp [hl]))
      refine ⟨t, by rw [hs1]; exact ht, hic.trans hic1, hc1.trans hc ?_⟩
      intro c
      rw [among_cons, hblk, and_iff_right hz]

/-- The cached inode `i` after its slots in `L` have been set to 0. -/
def slotsZeroed (ip : Inode) (L : List Nat) : Inode :=
  { ip with copy := { ip.copy with
    addrs := fun k => if k ∈ L then 0 else ip.copy.addrs k } }

/-- bfree of the block in a slot, and the slot set to 0. -/
theorem slotClear_cleared (s : State) (i k : Nat)
    (hlt : s.addr i k < s.sb.size) (hbit : s.bit (s.addr i k) = true) :
    ∃ t, slotClear i s k = .ok t ∧ Cleared s t (fun b => b = s.addr i k) ∧
      t.icache = Function.update s.icache i (slotsZeroed (s.icache i) [k]) := by
  obtain ⟨s1, hs1, hc, hic⟩ := bfree_cleared s _ hlt hbit
  refine ⟨s1.setAddr i k 0, ?_, ⟨hc.bit, hc.block, hc.sb, hc.dinode⟩, ?_⟩
  · unfold slotClear
    rw [hs1]
    rfl
  · unfold State.setAddr State.setCopy slotsZeroed
    simp only [hic, List.mem_singleton]
    congr 3
    funext l
    simp only [Function.update_apply]

theorem slotsZeroed_nil (ip : Inode) : slotsZeroed ip [] = ip := by
  simp [slotsZeroed]

theorem slotsZeroed_append (ip : Inode) (L M : List Nat) :
    slotsZeroed (slotsZeroed ip L) M = slotsZeroed ip (L ++ M) := by
  simp only [slotsZeroed, List.mem_append]
  congr 2
  funext k
  by_cases h1 : k ∈ L <;> by_cases h2 : k ∈ M <;> simp [h1, h2]

/-- The cached inode's slots, seen through the state. -/
theorem addr_of_slotsZeroed (s t : State) (i : Nat) (L : List Nat)
    (hv : (s.icache i).valid = true) (hd : t.dinode = s.dinode)
    (hic : t.icache = Function.update s.icache i (slotsZeroed (s.icache i) L)) (j k : Nat) :
    t.addr j k = if j = i ∧ k ∈ L then 0 else s.addr j k := by
  unfold State.addr State.node
  by_cases hj : j = i
  · subst hj
    simp only [hic, Function.update_self, slotsZeroed, hv, if_true, true_and]
  · simp only [hic, Function.update_of_ne hj, hd, hj, false_and, if_false]

/-- The loop over direct slots frees their blocks and zeroes them. -/
theorem foldlM_slotFree (s : State) (i : Nat) (hv : (s.icache i).valid = true) (L : List Nat)
    (hnd : L.Nodup)
    (hin : ∀ k ∈ L, s.addr i k ≠ 0 → s.addr i k < s.sb.size ∧ s.bit (s.addr i k) = true)
    (hinj : ∀ k ∈ L, ∀ l ∈ L, s.addr i k ≠ 0 → s.addr i k = s.addr i l → k = l) :
    ∃ t, L.foldlM (slotFree i) s = .ok t ∧
      t.icache = Function.update s.icache i (slotsZeroed (s.icache i) L) ∧
      Cleared s t (Among (s.addr i) L) := by
  induction L generalizing s with
  | nil =>
    refine ⟨s, rfl, ?_, (Cleared.refl s).congr (by simp [Among])⟩
    rw [slotsZeroed_nil, Function.update_eq_self]
  | cons k L ih =>
    obtain ⟨hk, hL⟩ := List.nodup_cons.mp hnd
    rw [List.foldlM_cons]
    unfold slotFree
    by_cases hz : s.addr i k = 0
    · rw [if_neg (not_not.mpr hz)]
      obtain ⟨t, ht, hic, hc⟩ := ih s hv hL (fun l hl => hin l (by simp [hl]))
        (fun l hl m hm => hinj l (by simp [hl]) m (by simp [hm]))
      refine ⟨t, ht, ?_, hc.congr (fun c => by simp [among_cons, hz])⟩
      rw [hic]
      congr 1
      simp only [slotsZeroed, List.mem_cons]
      congr 2
      funext l
      by_cases hl : l = k
      · have h0 : (s.icache i).copy.addrs k = 0 := by
          rw [← hz, State.addr, node_of_valid s i hv]
        simp [hl, h0]
      · simp [hl]
    · rw [if_pos hz]
      obtain ⟨hlt, hbit⟩ := hin k (by simp) hz
      obtain ⟨s1, hs1, hc1, hic1⟩ := slotClear_cleared s i k hlt hbit
      have haddr (l : Nat) (hl : l ∈ L) : s1.addr i l = s.addr i l := by
        rw [addr_of_slotsZeroed s s1 i [k] hv hc1.dinode hic1, if_neg]
        rintro ⟨-, hm⟩
        rw [List.mem_singleton.mp hm] at hl
        exact hk hl
      have hv1 : (s1.icache i).valid = true := by
        rw [hic1, Function.update_self]
        exact hv
      obtain ⟨t, ht, hic, hc⟩ := ih s1 hv1 hL
        (fun l hl hn => by
          rw [haddr l hl] at hn ⊢
          obtain ⟨h1, h2⟩ := hin l (by simp [hl]) hn
          refine ⟨by rw [hc1.sb]; exact h1, (hc1.bit _ h1).mpr ⟨h2, ?_⟩⟩
          intro he
          rw [hinj l (by simp [hl]) k (by simp) hn he] at hl
          exact hk hl)
        (fun l hl m hm => by
          rw [haddr l hl, haddr m hm]
          exact hinj l (by simp [hl]) m (by simp [hm]))
      refine ⟨t, by rw [hs1]; exact ht, ?_, hc1.trans hc ?_⟩
      · rw [hic, hic1, Function.update_self, Function.update_idem, slotsZeroed_append]
        rfl
      · intro c
        rw [among_cons, and_iff_right hz, among_congr _ _ L haddr]

/-- Block `b` is in a slot of inode `i`. -/
def Owned (s : State) (i b : Nat) : Prop :=
  b ≠ 0 ∧ ∃ sl : Slot, sl.InRange ∧ sl.owner = some i ∧ s.val sl = b

theorem owned_iff (s : State) (i b : Nat) :
    Owned s i b ↔ Among (s.addr i) (List.range NDIRECT) b ∨
      (s.addr i NDIRECT ≠ 0 ∧
        (Among (getUint (s.block (s.addr i NDIRECT))) (List.range NINDIRECT) b ∨
          b = s.addr i NDIRECT)) := by
  unfold Owned Among
  constructor
  · rintro ⟨h0, sl, hr, ho, hv⟩
    cases sl with
    | direct j k =>
      obtain rfl : j = i := Option.some.inj ho
      exact Or.inl ⟨h0, k, List.mem_range.mpr hr, hv⟩
    | root j =>
      obtain rfl : j = i := Option.some.inj ho
      exact Or.inr ⟨fun h => h0 (by rw [← hv]; exact h), Or.inr hv.symm⟩
    | entry j k =>
      obtain rfl : j = i := Option.some.inj ho
      by_cases hroot : s.addr j NDIRECT = 0
      · simp only [State.val, hroot, word_zero] at hv
        exact absurd hv.symm h0
      · rw [State.val, word_of_ne _ _ _ hroot] at hv
        exact Or.inr ⟨hroot, Or.inl ⟨h0, k, List.mem_range.mpr hr, hv⟩⟩
    | sroot k => cases ho
    | sentry k l => cases ho
  · rintro (⟨h0, k, hk, hv⟩ | ⟨hroot, ⟨h0, k, hk, hv⟩ | rfl⟩)
    · exact ⟨h0, .direct i k, List.mem_range.mp hk, rfl, hv⟩
    · exact ⟨h0, .entry i k, List.mem_range.mp hk, rfl,
        by rw [State.val, word_of_ne _ _ _ hroot, hv]⟩
    · exact ⟨hroot, .root i, trivial, rfl, rfl⟩

/-- The part of itrunc before the size is reset: the bits of the inode's blocks are
cleared and its slots are 0. -/
theorem itrunc_slots (s : State) (i : Nat) (hs : Tree s) (hv : (s.icache i).valid = true) :
    ∃ t, itrunc s i = .ok (iupdate (t.setSize i 0) i) ∧ Cleared s t (Owned s i) ∧
      t.icache = Function.update s.icache i
        (slotsZeroed (s.icache i) (List.range (NDIRECT+1))) := by
  have hdirect (k : Nat) (hk : k ∈ List.range NDIRECT) : (Slot.direct i k).InRange :=
    List.mem_range.mp hk
  obtain ⟨s1, hs1, hic1, hc1⟩ := foldlM_slotFree s i hv (List.range NDIRECT) List.nodup_range
    (fun k hk hn => (hs.used (.direct i k) (hdirect k hk) hn).2)
    (fun k hk l hl hn he =>
      (Slot.direct.inj (hs.inj (.direct i k) (.direct i l) (hdirect k hk) (hdirect l hl) hn he)).2)
  have haddr1 := addr_of_slotsZeroed s s1 i _ hv hc1.dinode hic1
  have hroot1 : s1.addr i NDIRECT = s.addr i NDIRECT := by
    rw [haddr1, if_neg (by simp)]
  -- no direct slot holds a block of another slot
  have hkeep (sl : Slot) (hr : sl.InRange) (hn : s.val sl ≠ 0) (hd : ∀ k, sl ≠ .direct i k) :
      s1.bit (s.val sl) = true := by
    obtain ⟨-, hlt, hbit⟩ := hs.used sl hr hn
    refine (hc1.bit _ hlt).mpr ⟨hbit, ?_⟩
    rintro ⟨-, k, hk, he⟩
    exact hd k (hs.inj sl (.direct i k) hr (hdirect k hk) hn he.symm)
  unfold itrunc
  rw [hs1]
  simp only [bind, Except.bind]
  by_cases hroot : s.addr i NDIRECT = 0
  · rw [hroot1, hroot]
    have hdbl : s1.addr i (NDIRECT+1) = 0 := by
      rw [haddr1, hs.high _ _ (Nat.lt_succ_self _), ite_self]
    simp only [ne_eq, not_true, if_false, hdbl]
    refine ⟨s1, rfl, hc1.congr ?_, ?_⟩
    · intro b
      rw [owned_iff]
      simp [hroot]
    · rw [hic1]
      congr 1
      simp only [slotsZeroed, List.mem_range]
      congr 2
      funext k
      by_cases hk : k = NDIRECT
      · have h0 : (s.icache i).copy.addrs NDIRECT = 0 := by
          rw [← hroot, State.addr, node_of_valid s i hv]
        simp [hk, h0]
      · have : k < NDIRECT ↔ k < NDIRECT+1 := by omega
        simp only [this]
  · have hnb := hs.notBitmap (.root i) trivial hroot
    have hblk : s1.block (s.addr i NDIRECT) = s.block (s.addr i NDIRECT) := hc1.block _ hnb
    have hword (k : Nat) : getUint (s.block (s.addr i NDIRECT)) k = s.val (.entry i k) :=
      (word_of_ne _ _ _ hroot).symm
    obtain ⟨s2, hs2, hic2, hc2⟩ := foldlM_entryFree s1 (s.addr i NDIRECT)
      (by rw [hc1.sb]; exact hnb) (List.range NINDIRECT) List.nodup_range
      (fun k hk hn => by
        rw [hblk, hword] at hn ⊢
        rw [hc1.sb]
        exact ⟨(hs.used (.entry i k) (List.mem_range.mp hk) hn).2.1,
          hkeep (.entry i k) (List.mem_range.mp hk) hn (fun _ h => by cases h)⟩)
      (fun k hk l hl hn he => by
        rw [hblk, hword] at hn
        rw [hblk, hword, hword] at he
        exact (Slot.entry.inj (hs.inj (.entry i k) (.entry i l) (List.mem_range.mp hk)
          (List.mem_range.mp hl) hn he)).2)
    have hv1 : (s1.icache i).valid = true := by
      rw [hic1, Function.update_self]
      exact hv
    have hroot2 : s2.addr i NDIRECT = s.addr i NDIRECT := by
      rw [← hroot1]
      unfold State.addr State.node
      rw [hic2, hc2.dinode]
    obtain ⟨-, hlt, -⟩ := hs.used (.root i) trivial hroot
    obtain ⟨s3, hs3, hc3, hic3⟩ := slotClear_cleared s2 i NDIRECT
      (by rw [hroot2, hc2.sb, hc1.sb]; exact hlt)
      (by
        rw [hroot2]
        refine (hc2.bit _ (by rw [hc1.sb]; exact hlt)).mpr
          ⟨hkeep (.root i) trivial hroot (fun _ h => by cases h), ?_⟩
        rintro ⟨-, k, hk, he⟩
        rw [hblk, hword] at he
        cases hs.inj (.root i) (.entry i k) trivial (List.mem_range.mp hk) hroot he.symm)
    have hic : s3.icache = Function.update s.icache i
        (slotsZeroed (s.icache i) (List.range (NDIRECT+1))) := by
      rw [hic3, hic2, hic1, Function.update_self, Function.update_idem, slotsZeroed_append,
        List.range_succ]
    have hdn : s3.dinode = s.dinode := by rw [hc3.dinode, hc2.dinode, hc1.dinode]
    have hdbl : s3.addr i (NDIRECT+1) = 0 := by
      rw [addr_of_slotsZeroed s s3 i _ hv hdn hic, hs.high _ _ (Nat.lt_succ_self _), ite_self]
    rw [hroot1, if_pos hroot, freeIndirect, hs2]
    simp only [hs3, hdbl, ne_eq, not_true, if_false]
    refine ⟨s3, rfl, ((hc1.trans hc2 (fun _ => Iff.rfl)).trans hc3 (fun _ => Iff.rfl)).congr ?_,
      hic⟩
    intro b
    rw [owned_iff, hblk, hroot2, and_iff_right hroot, or_assoc]

/-- itrunc of inode `i` took `s` to `t`. -/
structure Truncated (s t : State) (i : Nat) : Prop where
  bit : ∀ b, b < s.sb.size → (t.bit b = true ↔ s.bit b = true ∧ ¬Owned s i b)
  block : ∀ c, ¬s.sb.Bitmap c → t.block c = s.block c
  sb : t.sb = s.sb
  dinode : t.dinode = Function.update s.dinode i (t.icache i).copy
  icache : t.icache = Function.update s.icache i
    { (s.icache i) with
      copy := { (s.icache i).copy with
        size := 0, addrs := fun k => if k < NDIRECT+1 then 0 else (s.icache i).copy.addrs k } }

theorem itrunc_truncated (s : State) (i : Nat) (hs : Tree s) (hv : (s.icache i).valid = true) :
    ∃ t, itrunc s i = .ok t ∧ Truncated s t i := by
  obtain ⟨t, ht, hc, hic⟩ := itrunc_slots s i hs hv
  refine ⟨_, ht, hc.bit, hc.block, hc.sb, ?_, ?_⟩
  · simp only [iupdate, setSize_dinode, hc.dinode]
  · simp only [iupdate, State.setSize, State.setCopy, hic, Function.update_self,
      Function.update_idem, slotsZeroed, List.mem_range]

section Truncate

variable {s t : State} {i : Nat}

theorem Truncated.addr (h : Truncated s t i) (hv : (s.icache i).valid = true) (j k : Nat) :
    t.addr j k = if j = i ∧ k < NDIRECT+1 then 0 else s.addr j k := by
  unfold State.addr State.node
  by_cases hj : j = i
  · subst hj
    simp only [h.icache, Function.update_self, hv, if_true, true_and]
  · simp only [h.icache, Function.update_of_ne hj, h.dinode, hj, false_and, if_false]

/-- The slots of the inode are empty, all others are as before. -/
theorem Truncated.val (h : Truncated s t i) (hs : Tree s) (hv : (s.icache i).valid = true)
    (sl : Slot) (hr : sl.InRange) :
    t.val sl = if sl.owner = some i then 0 else s.val sl := by
  have hzero : t.block 0 = s.block 0 := h.block 0 hs.notBitmap_zero
  cases sl with
  | direct j k =>
    have hk : k < NDIRECT+1 := Nat.lt_succ_of_lt hr
    simp only [State.val, h.addr hv, Slot.owner, Option.some.injEq, hk, and_true]
  | root j =>
    simp only [State.val, h.addr hv, Slot.owner, Option.some.injEq, Nat.lt_succ_self, and_true]
  | entry j k =>
    simp only [State.val, h.addr hv, Slot.owner, Option.some.injEq, Nat.lt_succ_self, and_true]
    by_cases hj : j = i
    · rw [if_pos hj, if_pos hj, word_zero]
    · rw [if_neg hj, if_neg hj]
      exact word_congr _ _ _ _ (fun hn => h.block _ (hs.notBitmap (.root j) trivial hn))
  | sroot k => simp only [State.val, hzero, Slot.owner, reduceCtorEq, if_false]
  | sentry k l =>
    simp only [State.val, hzero, Slot.owner, reduceCtorEq, if_false]
    exact word_congr _ _ _ _ (fun hn => h.block _ (hs.notBitmap (.sroot k) hr.1 hn))

theorem Truncated.tree (h : Truncated s t i) (hs : Tree s) (hv : (s.icache i).valid = true) :
    Tree t := by
  have hval := h.val hs hv
  have hmeta (b : Nat) (hb : b < s.sb.datastart) : ¬Owned s i b := by
    rintro ⟨h0, sl, hr, -, rfl⟩
    have := (hs.used sl hr h0).1
    omega
  refine ⟨by rw [h.sb]; exact hs.wf, ?_, ?_, ?_, ?_, ?_⟩
  · intro b hd hlt
    rw [h.sb] at hd hlt
    exact (h.bit b hlt).mpr ⟨hs.marked b hd hlt, hmeta b hd⟩
  · intro j k hk
    rw [h.addr hv, if_neg (by omega), hs.high j k hk]
  · intro sl hr hn
    rw [hval sl hr] at hn ⊢
    rw [h.sb]
    split_ifs at hn ⊢ with ho
    · exact absurd rfl hn
    · obtain ⟨h1, h2, h3⟩ := hs.used sl hr hn
      refine ⟨h1, h2, (h.bit _ h2).mpr ⟨h3, ?_⟩⟩
      rintro ⟨-, sl', hr', ho', he⟩
      rw [hs.inj sl sl' hr hr' hn he.symm] at ho
      exact ho ho'
  · intro x y hx hy hn he
    rw [hval x hx] at hn he
    rw [hval y hy] at he
    split_ifs at hn he with ho
    · exact absurd rfl hn
    · exact absurd rfl hn
    · exact absurd he hn
    · exact hs.inj x y hx hy hn he
  · intro b hd hlt hb
    rw [h.sb] at hd hlt
    obtain ⟨hb, hno⟩ := (h.bit b hlt).mp hb
    obtain ⟨sl, hr, hv'⟩ := hs.exact b hd hlt hb
    refine ⟨sl, hr, ?_⟩
    rw [hval sl hr, if_neg, hv']
    intro ho
    have := s.sb.datastart_pos
    exact hno ⟨by omega, sl, hr, ho, hv'⟩

theorem Truncated.size (h : Truncated s t i) (hv : (s.icache i).valid = true) (j : Nat) :
    (t.node j).size = if j = i then 0 else (s.node j).size := by
  unfold State.node
  by_cases hj : j = i
  · subst hj
    simp only [h.icache, Function.update_self, hv, if_true]
  · simp only [h.icache, Function.update_of_ne hj, h.dinode, hj, if_false]

/-- The bytes behind every slot that is left are as before. -/
theorem Truncated.byteAt (h : Truncated s t i) (hs : Tree s) (hv : (s.icache i).valid = true)
    (j p : Nat) (hp : p < MAXFILE*BSIZE) (hj : j ≠ i) (hn : s.val (leaf j (p/BSIZE)) ≠ 0) :
    t.val (leaf j (p/BSIZE)) ≠ 0 ∧ t.byteAt j p = s.byteAt j p := by
  have hr := leaf_inRange j (p/BSIZE) (by
    simp only [BSIZE_eq, MAXFILE_eq] at *
    omega)
  have ho : (leaf j (p/BSIZE)).owner ≠ some i := by
    unfold leaf
    split_ifs <;> simp [Slot.owner, hj]
  have hval : t.val (leaf j (p/BSIZE)) = s.val (leaf j (p/BSIZE)) := by
    rw [h.val hs hv _ hr, if_neg ho]
  refine ⟨by rw [hval]; exact hn, ?_⟩
  unfold State.byteAt
  rw [hval, h.block _ (hs.notBitmap _ hr hn)]

end Truncate

end Xv6Labs.Fs
