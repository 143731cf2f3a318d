import Xv6Labs.FsReference

/-! A writei whose source can be read only in part: which bytes, and which blocks of the log's
header, it leaves behind. -/
namespace Xv6Labs.Fs

section Logging

/-- What `t` has stored since `s` is in the log's header, also blocks that are newly marked. -/
structure Logs (s t : State) : Prop where
  sb : t.sb = s.sb
  sub : ∀ b ∈ s.logged, b ∈ t.logged
  stored : ∀ b, t.block b ≠ s.block b → b ∈ t.logged
  marked : ∀ b, b < s.sb.size → t.bit b = true → s.bit b = true ∨ b ∈ t.logged

variable {s t u : State}

theorem Logs.refl (s : State) : Logs s s :=
  ⟨rfl, fun _ hb => hb, fun _ hb => absurd rfl hb, fun _ _ hb => Or.inl hb⟩

theorem Logs.trans (h : Logs s t) (h' : Logs t u) : Logs s u := by
  refine ⟨h'.sb.trans h.sb, fun b hb => h'.sub b (h.sub b hb), ?_, ?_⟩
  · intro b hb
    by_cases ht : u.block b = t.block b
    · exact h'.sub b (h.stored b (by rwa [← ht]))
    · exact h'.stored b ht
  · intro b hlt hb
    rcases h'.marked b (by rw [h.sb]; exact hlt) hb with ht | ht
    · exact (h.marked b hlt ht).imp_right (h'.sub b)
    · exact Or.inr ht

/-- A store that is logged and leaves the bitmap alone. -/
theorem logWrite_logs {b : Nat} {d : Bytes} (hb : ¬s.sb.Bitmap b) : Logs s (s.logWrite b d) := by
  refine ⟨rfl, fun c hc => List.mem_cons_of_mem _ hc, ?_, ?_⟩
  · intro c hc
    rw [logWrite_block] at hc
    have hcb : c = b := by
      by_contra hne
      exact hc (Function.update_of_ne hne _ _)
    rw [hcb]
    exact List.mem_cons_self
  · intro c hlt hc
    left
    unfold State.bit at hc ⊢
    rw [logWrite_sb, logWrite_block, Function.update_of_ne] at hc
    · exact hc
    · intro he
      exact hb (he ▸ bblock_bitmap s.sb c hlt)

/-- A marked block that is no bitmap block: balloc does not log it. -/
structure Settled (s : State) (b : Nat) : Prop where
  marked : s.bit b = true
  data : ¬s.sb.Bitmap b

theorem balloc_logs {a : Nat} (hm : MetaMarked s) (h : balloc s = .ok (a, t)) :
    Logs s t ∧ a ∈ t.logged ∧ ∀ b, Settled s b → b ∈ t.logged → b ∈ s.logged := by
  have ha := balloc_allocated s t a hm h
  obtain ⟨hlt, hfree, -, rfl⟩ := balloc_ok s t a h
  refine ⟨⟨rfl, fun b hb => List.mem_cons_of_mem _ (List.mem_cons_of_mem _ hb), ?_, ?_⟩,
    List.mem_cons_self, ?_⟩
  · intro b hb
    by_contra hn
    have hba : b ≠ a := fun he => hn (he ▸ List.mem_cons_self)
    have hbb : b ≠ BBLOCK s.sb a :=
      fun he => hn (he ▸ List.mem_cons_of_mem _ List.mem_cons_self)
    apply hb
    simp only [bzero, logWrite_block, Function.update_of_ne hba, Function.update_of_ne hbb]
  · intro b hlt hb
    rw [ha.bit b hlt, Bool.or_eq_true, decide_eq_true_eq] at hb
    rcases hb with rfl | hb
    · exact Or.inr List.mem_cons_self
    · exact Or.inl hb
  · intro b hb hmem
    rcases List.mem_cons.mp hmem with rfl | hmem
    · rw [hb.marked] at hfree
      cases hfree
    · rcases List.mem_cons.mp hmem with rfl | hmem
      · exact absurd (bblock_bitmap s.sb a hlt) hb.data
      · exact hmem

theorem slotAlloc_logs {i k a : Nat} (hm : MetaMarked s) (h : slotAlloc s i k = .ok (a, t)) :
    Logs s t ∧ ∀ b, Settled s b → b ∈ t.logged → b ∈ s.logged := by
  unfold slotAlloc at h
  split at h
  · obtain ⟨⟨c, v⟩, hc, hv⟩ := (bind_ok_iff _ _ _).mp h
    simp only [Except.ok.injEq, Prod.mk.injEq] at hv
    obtain ⟨hl, -, hs⟩ := balloc_logs hm hc
    obtain ⟨-, rfl⟩ := hv
    exact ⟨⟨hl.sb, hl.sub, hl.stored, hl.marked⟩, hs⟩
  · simp only [Except.ok.injEq, Prod.mk.injEq] at h
    rw [← h.2]
    exact ⟨Logs.refl s, fun _ _ hb => hb⟩

theorem entryAlloc_logs {p k a : Nat} (hm : MetaMarked s) (hp : ¬s.sb.Bitmap p)
    (h : entryAlloc s p k = .ok (a, t)) :
    Logs s t ∧ ∀ b, Settled s b → b ≠ p → b ∈ t.logged → b ∈ s.logged := by
  unfold entryAlloc at h
  split at h
  · obtain ⟨⟨c, v⟩, hc, hv⟩ := (bind_ok_iff _ _ _).mp h
    simp only [Except.ok.injEq, Prod.mk.injEq] at hv
    obtain ⟨hl, -, hs⟩ := balloc_logs hm hc
    obtain ⟨-, rfl⟩ := hv
    refine ⟨hl.trans (logWrite_logs (by rw [hl.sb]; exact hp)), ?_⟩
    intro b hb hne hmem
    exact hs b hb ((List.mem_cons.mp hmem).resolve_left hne)
  · simp only [Except.ok.injEq, Prod.mk.injEq] at h
    rw [← h.2]
    exact ⟨Logs.refl s, fun _ _ _ hb => hb⟩

theorem Tree.settled (hs : Tree s) {x : Slot} (hr : x.InRange) (hn : s.val x ≠ 0) :
    Settled s (s.val x) :=
  ⟨(hs.used x hr hn).2.2, hs.notBitmap x hr hn⟩

/-- bmap logs what it stores, and no data block that was there before. -/
theorem bmap_logs {i bn a : Nat} (hs : Tree s) (hv : (s.icache i).valid = true)
    (h : bmap s i bn = .ok (a, t)) :
    Logs s t ∧ ∀ x : Slot, x.InRange → x.Leaf → s.val x ≠ 0 → s.val x ∈ t.logged →
      s.val x ∈ s.logged := by
  unfold bmap at h
  -- the second allocation stores into an index block, which is no data block
  have hsecond (sl : Slot) {v : State} {k : Nat} (hsl : sl.InRange) (hleaf : ¬sl.Leaf)
      (hl : Logs s v) (hkeep : ∀ b, Settled s b → b ∈ v.logged → b ∈ s.logged ∨ b = 0)
      (hv : Tree v) (hg : Grows s v) (hn : v.val sl ≠ 0)
      (he : entryAlloc v (v.val sl) k = .ok (a, t)) :
      Logs s t ∧ ∀ x : Slot, x.InRange → x.Leaf → s.val x ≠ 0 → s.val x ∈ t.logged →
        s.val x ∈ s.logged := by
    obtain ⟨hl2, hk2⟩ := entryAlloc_logs hv.marked (hv.notBitmap sl hsl hn) he
    refine ⟨hl.trans hl2, ?_⟩
    intro x hx hxl hxn hmem
    have hxv := hg.val x hx hxn
    have hne : s.val x ≠ v.val sl := by
      intro heq
      rw [← hxv] at heq
      rw [hv.inj x sl hx hsl (by rw [hxv]; exact hxn) heq] at hxl
      exact hleaf hxl
    have hset := hv.settled hx (by rw [hxv]; exact hxn)
    rw [hxv] at hset
    exact (hkeep _ (hs.settled hx hxn) (hk2 _ hset hne hmem)).resolve_right hxn
  split at h
  · obtain ⟨hl, hk⟩ := slotAlloc_logs hs.marked h
    exact ⟨hl, fun x hx _ hn hmem => hk _ (hs.settled hx hn) hmem⟩
  · split at h
    · obtain ⟨⟨c, v⟩, hc, he⟩ := (bind_ok_iff _ _ _).mp h
      obtain ⟨hl, hk⟩ := slotAlloc_logs hs.marked hc
      obtain ⟨htv, hg, rfl, hn⟩ := (slotAlloc_root hs i hv).ok c v hc
      exact hsecond (.root i) trivial id hl (fun b hb hm => Or.inl (hk b hb hm)) htv hg hn he
    · split at h
      · rename_i hk3
        rw [hs.high i _ (Nat.lt_succ_self _)] at h
        obtain ⟨⟨c, v⟩, hc, he⟩ := (bind_ok_iff _ _ _).mp h
        obtain ⟨hl, hk⟩ := entryAlloc_logs hs.marked hs.notBitmap_zero hc
        obtain ⟨htv, hg, rfl, hn⟩ := (entryAlloc_sroot hs _ hk3).ok c v hc
        refine hsecond (.sroot _) hk3 id hl ?_ htv hg hn he
        intro b hb hm
        by_cases h0 : b = 0
        · exact Or.inr h0
        · exact Or.inl (hk b hb h0 hm)
      · cases h

/-- A slot that has been filled holds a block of the log's header. -/
theorem Logs.filled (h : Logs s t) (hs : Tree s) (ht : Tree t) (he : Extends s t) {x : Slot}
    (hx : x.InRange) (hz : s.val x = 0) (hn : t.val x ≠ 0) : t.val x ∈ t.logged := by
  obtain ⟨hdata, hlt, hbit⟩ := ht.used x hx hn
  rw [he.sb] at hdata hlt
  rcases h.marked _ hlt hbit with hold | hlog
  · obtain ⟨y, hy, hyv⟩ := hs.exact _ hdata hlt hold
    have hyn : s.val y ≠ 0 := by rw [hyv]; exact hn
    have hty := he.val y hy hyn
    have hxy := ht.inj y x hy hx (by rw [hty]; exact hyn) (by rw [hty, hyv])
    rw [← hxy] at hz
    exact absurd hz hyn
  · exact hlog

end Logging

section Prefix

variable {src : Nat → Option UInt8} {k : Nat}

/-- The part of the source that can be read ends inside the chunk. -/
theorem eitherCopyin_short (hsrc : ∀ j, (src j).isSome ↔ j < k) (blk : Bytes) (o tot m : Nat)
    (hle : tot ≤ k) (hlt : k < tot + m) : eitherCopyin blk o src tot m =
      (false, fun j =>
        if o ≤ j ∧ j < o + (k - tot) then (src (tot + (j - o))).getD 0 else blk j) := by
  have hlen : ((List.range m).takeWhile (fun j => (src (tot + j)).isSome)).length = k - tot := by
    have hsplit : m = (k - tot) + (m - (k - tot)) := by omega
    have hrest : m - (k - tot) = (m - (k - tot) - 1) + 1 := by omega
    rw [hsplit, List.range_add, List.takeWhile_append_of_pos, hrest, List.range_succ_eq_map,
      List.map_cons, List.takeWhile_cons_of_neg, List.append_nil, List.length_range]
    · rw [hsrc]
      omega
    · intro j hj
      rw [hsrc]
      have := List.mem_range.mp hj
      omega
  have hne : (k - tot == m) = false := by
    rw [beq_eq_false_iff_ne]
    omega
  simp only [eitherCopyin, hlen, hne]

theorem eitherCopyin_long (hsrc : ∀ j, (src j).isSome ↔ j < k) (blk : Bytes) (o tot m : Nat)
    (hle : tot + m ≤ k) : (eitherCopyin blk o src tot m).1 = true :=
  eitherCopyin_total _ _ _ _ _ (fun j hj => (hsrc _).mpr (by omega))

/-- The loop stops in the chunk in which the readable part ends: up to its start it has run as
if that were all it was asked for, and `k - r` bytes of the chunk are stored and not logged. -/
structure Stops (s t : State) (i : Nat) (src : Nat → Option UInt8) (off n tot k : Nat)
    (q : Nat × Nat) (r : Nat) (v u : State) (a : Nat) : Prop where
  start : tot ≤ r
  le : r ≤ k
  answer : q = (r, off + (r - tot))
  same : ∀ p, off + (r - tot) ≤ p → p ≤ off + (k - tot) →
    p/BSIZE = (off + (k - tot))/BSIZE
  before : ∀ p, off ≤ p → p < off + (r - tot) → p/BSIZE < (off + (k - tot))/BSIZE
  loop : writeiLoop s i src off r tot = .ok ((r, off + (r - tot)), v)
  last : bmap v i ((off + (k - tot))/BSIZE) = .ok (a, u)
  final : t = u.modify a (fun j =>
    if (off + (r - tot))%BSIZE ≤ j ∧ j < (off + (r - tot))%BSIZE + (k - r)
    then (src (r + (j - (off + (r - tot))%BSIZE))).getD 0 else u.block a j)

theorem writeiLoop_stops (hsrc : ∀ j, (src j).isSome ↔ j < k) {s t : State} {i : Nat}
    {off n tot : Nat} {q : Nat × Nat} (htot : tot ≤ k) (hkn : k < n)
    (h : writeiLoop s i src off n tot = .ok (q, t)) :
    ∃ r v u a, Stops s t i src off n tot k q r v u a := by
  induction hd : n - tot using Nat.strong_induction_on generalizing s off tot with
  | _ d ih =>
    rw [writeiLoop, if_pos (by omega)] at h
    cases hb : bmap s i (off/BSIZE) with
    | error e =>
      rw [hb] at h
      cases h
    | ok c =>
      obtain ⟨a, u⟩ := c
      rw [hb] at h
      have hmod := Nat.mod_lt off (show 0 < BSIZE by decide)
      have hm2 : min (n - tot) (BSIZE - off%BSIZE) ≤ BSIZE - off%BSIZE := min_le_right _ _
      have hm0 : 0 < min (n - tot) (BSIZE - off%BSIZE) := by
        rw [lt_min_iff]
        omega
      have hmfull : min (n - tot) (BSIZE - off%BSIZE) = n - tot ∨
          min (n - tot) (BSIZE - off%BSIZE) = BSIZE - off%BSIZE := min_choice _ _
      simp only at h
      by_cases hlt : k < tot + min (n - tot) (BSIZE - off%BSIZE)
      · -- the source ends in this chunk: it is the last one
        rw [eitherCopyin_short hsrc _ _ _ _ htot hlt, if_neg Bool.false_ne_true] at h
        simp only [Except.ok.injEq, Prod.mk.injEq] at h
        obtain ⟨rfl, rfl⟩ := h
        have hsame : ∀ p, off ≤ p → p ≤ off + (k - tot) → p/BSIZE = off/BSIZE := by
          intro p h1 h2
          simp only [BSIZE_eq] at *
          omega
        have hend := hsame (off + (k - tot)) (Nat.le_add_right _ _) (Nat.le_refl _)
        have hzero : off + (tot - tot) = off := by omega
        refine ⟨tot, s, u, a, le_rfl, htot, by rw [hzero], ?_, ?_, ?_, by rw [hend]; exact hb, ?_⟩
        · intro p h1 h2
          rw [hend]
          exact hsame p (by omega) h2
        · intro p h1 h2
          omega
        · rw [writeiLoop, if_neg (Nat.lt_irrefl _), hzero]
        · rw [hzero]
      · -- the whole chunk can be read, and it ends at the end of its block
        have hchunk : min (n - tot) (BSIZE - off%BSIZE) = BSIZE - off%BSIZE := by omega
        rw [hchunk] at h hlt hm0
        have hcopy := eitherCopyin_long hsrc (u.block a) (off%BSIZE) tot (BSIZE - off%BSIZE)
          (by omega)
        rw [if_pos hcopy] at h
        obtain ⟨r, v, w, c, hst⟩ := ih (n - (tot + (BSIZE - off%BSIZE))) (by omega) (by omega) h rfl
        have hstart := hst.start
        have hle := hst.le
        have hadd (x : Nat) (hx : tot + (BSIZE - off%BSIZE) ≤ x) :
            off + (BSIZE - off%BSIZE) + (x - (tot + (BSIZE - off%BSIZE))) = off + (x - tot) := by
          omega
        have hsame := hst.same
        have hbefore := hst.before
        have hanswer := hst.answer
        have hlast := hst.last
        have hfinal := hst.final
        have hloop := hst.loop
        rw [hadd k (by omega)] at hsame hbefore hlast
        rw [hadd r hstart] at hsame hbefore hanswer hfinal hloop
        refine ⟨r, v, w, c, by omega, hle, hanswer, hsame, ?_, ?_, hlast, hfinal⟩
        · intro p h1 h2
          by_cases hp : off + (BSIZE - off%BSIZE) ≤ p
          · exact hbefore p hp h2
          · have hk : tot + (BSIZE - off%BSIZE) ≤ k := by omega
            simp only [BSIZE_eq] at *
            omega
        · rw [writeiLoop, if_pos (by omega), hb]
          have hmin : min (r - tot) (BSIZE - off%BSIZE) = BSIZE - off%BSIZE :=
            min_eq_right (by omega)
          simp only [hmin]
          rw [if_pos hcopy]
          exact hloop

/-- The rounds of the loop whose source can be read. -/
theorem writeiLoop_logs {s t : State} {i : Nat} (hs : Tree s) (hv : (s.icache i).valid = true)
    {off n tot : Nat} {q : Nat × Nat} (htot : tot ≤ n) (hmax : off + (n - tot) ≤ MAXFILE*BSIZE)
    (hall : ∀ j, j < n → (src j).isSome) (h : writeiLoop s i src off n tot = .ok (q, t)) :
    Logs s t ∧ ∀ x : Slot, x.InRange → x.Leaf → s.val x ≠ 0 →
      (∀ p, off ≤ p → p < off + (n - tot) → leaf i (p/BSIZE) ≠ x) → s.val x ∈ t.logged →
      s.val x ∈ s.logged := by
  induction hd : n - tot using Nat.strong_induction_on generalizing s off tot with
  | _ d ih =>
    rw [writeiLoop] at h
    by_cases hlt : tot < n
    · rw [if_pos hlt] at h
      have hoff : off/BSIZE < MAXFILE := by
        simp only [BSIZE_eq, MAXFILE_eq] at *
        omega
      have hmod := Nat.mod_lt off (show 0 < BSIZE by decide)
      cases hb : bmap s i (off/BSIZE) with
      | error e =>
        rw [hb] at h
        cases h
      | ok c =>
        obtain ⟨a, u⟩ := c
        rw [hb] at h
        simp only at h
        obtain ⟨hu, hg, rfl, hn⟩ := (bmap_spec hs i (off/BSIZE) hv hoff).ok a u hb
        obtain ⟨hl, hk⟩ := bmap_logs hs hv hb
        have hm1 : min (n - tot) (BSIZE - off%BSIZE) ≤ n - tot := min_le_left _ _
        have hm0 : 0 < min (n - tot) (BSIZE - off%BSIZE) := by
          rw [lt_min_iff]
          omega
        generalize min (n - tot) (BSIZE - off%BSIZE) = m at *
        rw [if_pos (eitherCopyin_total _ _ _ _ _ (fun j hj => hall _ (by omega)))] at h
        generalize (eitherCopyin (u.block (u.val (leaf i (off/BSIZE)))) (off%BSIZE) src tot m).2
          = d at h
        have hr := leaf_inRange i (off/BSIZE) hoff
        have hlf := leaf_isLeaf i (off/BSIZE)
        have hv1 : (u.icache i).valid = true := by rw [hg.valid, hv]
        obtain ⟨hl2, hk2⟩ := ih (n - (tot + m)) (by omega)
          (logWrite_tree (hu.modify (d := d) hr hlf hn)) hv1 (by omega) (by omega) h rfl
        have hl1 : Logs u (u.logWrite (u.val (leaf i (off/BSIZE))) d) :=
          logWrite_logs (hu.notBitmap _ hr hn)
        refine ⟨(hl.trans hl1).trans hl2, ?_⟩
        intro x hx hxl hxn hout hmem
        have hxu := hg.val x hx hxn
        have hxw : (u.logWrite (u.val (leaf i (off/BSIZE))) d).val x = s.val x := by
          rw [logWrite_val, hu.modify_val hr hlf hn x hx, hxu]
        have hrest := hk2 x hx hxl (by rw [hxw]; exact hxn)
          (fun p h1 h2 => hout p (by omega) (by omega)) (by rw [hxw]; exact hmem)
        rw [hxw] at hrest
        rcases List.mem_cons.mp hrest with he | hold
        · rw [← hxu] at he
          have hsl := hu.inj x _ hx hr (by rw [hxu]; exact hxn) he
          exact absurd hsl.symm (hout off le_rfl (by omega))
        · exact hk x hx hxl hxn hold
    · rw [if_neg hlt] at h
      simp only [Except.ok.injEq, Prod.mk.injEq] at h
      rw [← h.2]
      exact ⟨Logs.refl s, fun _ _ _ _ _ hm => hm⟩

/-- The state in which the loop has stopped, against the one before it. `u` is the state before
the last copy, whose target is block `a`, the block of slot `x`. -/
structure Partial (s t : State) (i : Nat) (src : Nat → Option UInt8) (off k r : Nat) (u : State)
    (a : Nat) : Prop where
  tree : Tree u
  ext : Extends s u
  logs : Logs s u
  spare : s.val (leaf i ((off + k)/BSIZE)) ≠ 0 → a ∈ u.logged → a ∈ s.logged
  val : u.val (leaf i ((off + k)/BSIZE)) = a
  mapped : a ≠ 0
  inside : ∀ p, off + r ≤ p → p < off + k → p/BSIZE = (off + k)/BSIZE ∧
    src (p - off) = some (t.byteAt i p) ∧ t.byteAt i p = t.block a (p%BSIZE)
  kept : ∀ p, p < MAXFILE*BSIZE → s.val (leaf i (p/BSIZE)) ≠ 0 → ¬(off ≤ p ∧ p < off + k) →
    t.byteAt i p = s.byteAt i p
  before : ∀ p, off ≤ p → p < off + r → p/BSIZE ≠ (off + k)/BSIZE
  other : ∀ b, b ≠ a → t.block b = u.block b
  rest : ∀ j, t.block a j ≠ u.block a j → ∃ p, off + r ≤ p ∧ p < off + k ∧ p%BSIZE = j
  logged : t.logged = u.logged
  sb : t.sb = u.sb
  dinode : t.dinode = u.dinode

theorem Stops.partial_ {s t : State} {i off n r a : Nat} {q : Nat × Nat} {v u : State}
    (h : Stops s t i src off n 0 k q r v u a) (hsrc : ∀ j, (src j).isSome ↔ j < k) (hs : Tree s)
    (hv : (s.icache i).valid = true) (hmax : off + k < MAXFILE*BSIZE) :
    Partial s t i src off k r u a := by
  have hle := h.le
  have hsame := h.same
  have hbefore := h.before
  have hlast := h.last
  have hfinal := h.final
  have hloop := h.loop
  simp only [Nat.sub_zero] at hsame hbefore hlast hfinal hloop
  have hbn : (off + k)/BSIZE < MAXFILE := by
    simp only [BSIZE_eq, MAXFILE_eq] at *
    omega
  have hstart := hsame (off + r) le_rfl (by omega)
  obtain ⟨-, hw⟩ := (writeiLoop_wrote src hs hv off r 0 (Nat.zero_le _) (by omega)).1 _ v hloop
  obtain ⟨hl1, hk1⟩ := writeiLoop_logs hs hv (Nat.zero_le _) (by omega)
    (fun j hj => (hsrc j).mpr (by omega)) hloop
  have hvv : (v.icache i).valid = true := by rw [hw.ext.valid, hv]
  obtain ⟨hu, hg, rfl, hn⟩ := (bmap_spec hw.tree i ((off + k)/BSIZE) hvv hbn).ok a u hlast
  obtain ⟨hl2, hk2⟩ := bmap_logs hw.tree hvv hlast
  have hr := leaf_inRange i ((off + k)/BSIZE) hbn
  have hlf := leaf_isLeaf i ((off + k)/BSIZE)
  have hnever (p : Nat) (h1 : off ≤ p) (h2 : p < off + r) : p/BSIZE ≠ (off + k)/BSIZE :=
    Nat.ne_of_lt (hbefore p h1 h2)
  -- the last chunk changes no slot, and of its block only the bytes that were read
  have hval (sl : Slot) (hsl : sl.InRange) : t.val sl = u.val sl := by
    rw [hfinal]
    exact hu.modify_val hr hlf hn sl hsl
  have hblock (j : Nat) : t.block (u.val (leaf i ((off + k)/BSIZE))) j =
      if (off + r)%BSIZE ≤ j ∧ j < (off + r)%BSIZE + (k - r)
      then (src (r + (j - (off + r)%BSIZE))).getD 0
      else u.block (u.val (leaf i ((off + k)/BSIZE))) j := by
    rw [hfinal, modify_block, Function.update_self]
  refine ⟨hu, hw.ext.trans hg.toExtends, hl1.trans hl2, ?_, rfl, hn, ?_, ?_, hnever, ?_, ?_,
    by rw [hfinal]; rfl, by rw [hfinal]; rfl, by rw [hfinal]; rfl⟩
  · intro hsx hmem
    have hvx := hw.ext.val _ hr hsx
    have hux := hg.val _ hr (by rw [hvx]; exact hsx)
    rw [hux] at hmem ⊢
    have hmem2 := hk2 _ hr hlf (by rw [hvx]; exact hsx) hmem
    rw [hvx] at hmem2 ⊢
    apply hk1 _ hr hlf hsx _ hmem2
    intro p h1 h2 he
    exact hnever p h1 h2 (leaf_inj i i _ _ he).1
  · intro p h1 h2
    have hp := hsame p h1 (by omega)
    have hbyte : t.byteAt i p = t.block (u.val (leaf i ((off + k)/BSIZE))) (p%BSIZE) := by
      unfold State.byteAt
      rw [hp, hval _ hr]
    have hin : (off + r)%BSIZE ≤ p%BSIZE ∧ p%BSIZE < (off + r)%BSIZE + (k - r) := by
      simp only [BSIZE_eq] at *
      omega
    have hpos : r + (p%BSIZE - (off + r)%BSIZE) = p - off := by
      simp only [BSIZE_eq] at *
      omega
    refine ⟨hp, ?_, hbyte⟩
    rw [hbyte, hblock, if_pos hin, hpos]
    obtain ⟨x, hx⟩ := Option.isSome_iff_exists.mp ((hsrc (p - off)).mpr (by omega))
    rw [hx]
    rfl
  · intro p hp hsp hout
    have hpb : p/BSIZE < MAXFILE := by
      simp only [BSIZE_eq, MAXFILE_eq] at *
      omega
    have hvp := hw.ext.val _ (leaf_inRange i _ hpb) hsp
    have hchunk := wrote_chunk (s := v) (i := i) u ((off + k)/BSIZE) (fun j =>
      if (off + r)%BSIZE ≤ j ∧ j < (off + r)%BSIZE + (k - r)
      then (src (r + (j - (off + r)%BSIZE))).getD 0
      else u.block (u.val (leaf i ((off + k)/BSIZE))) j) (off + r) (k - r) 0 (k - r) hstart.symm hbn
      hu hg hn (by omega) (fun j hj => if_neg hj) i p hp (by rw [hvp]; exact hsp)
      (fun hc => hout ⟨by omega, by omega⟩)
    rw [hfinal, hchunk, hw.kept i p hp hsp (fun hc => hout ⟨by omega, by omega⟩)]
  · intro b hb
    rw [hfinal, modify_block, Function.update_of_ne hb]
  · intro j hj
    rw [hblock] at hj
    have hin : (off + r)%BSIZE ≤ j ∧ j < (off + r)%BSIZE + (k - r) := by
      by_contra hout
      exact hj (if_neg hout)
    refine ⟨off + r + (j - (off + r)%BSIZE), by omega, by omega, ?_⟩
    have hend := hsame (off + r + (j - (off + r)%BSIZE)) (by omega) (by omega)
    simp only [BSIZE_eq] at *
    omega

end Prefix

section Report

/-- Each block and each disk inode that is not as on the disk is in the log's header. -/
def Listed (s : State) (blk : Nat → Bytes) (din : Nat → Dinode) : Prop :=
  (∀ b, s.block b ≠ blk b → b ∈ s.logged) ∧
  ∀ j, s.dinode j ≠ din j → IBLOCK s.sb j ∈ s.logged

/-- A writei that reports `r` bytes has stored these and changed nothing else. -/
structure Reported (s t : State) (i : Nat) (src : Nat → Option UInt8) (off r : Nat) : Prop where
  written : ∀ p, off ≤ p → p < off + r → src (p - off) = some (t.byteAt i p)
  others : ∀ p, p < (s.node i).size → ¬(off ≤ p ∧ p < off + r) → t.byteAt i p = s.byteAt i p
  size : (t.node i).size = max (s.node i).size (off + r)
  listed : ∀ blk din, Listed s blk din → Listed t blk din

/-- All `n` bytes can be read, or those that can be read of the last block make no difference: the
block is a new one, or each byte is there already, or lies behind the end of the file in a block
of the log's header. -/
def CleanStop (s : State) (i : Nat) (src : Nat → Option UInt8) (off n k : Nat) : Prop :=
  n ≤ k ∨ s.val (leaf i ((off + k)/BSIZE)) = 0 ∨
  ∀ p, off ≤ p → p < off + k → p/BSIZE = (off + k)/BSIZE →
    src (p - off) = some (s.byteAt i p) ∨
    ((s.node i).size ≤ p ∧ s.val (leaf i ((off + k)/BSIZE)) ∈ s.logged)

variable {s t : State} {i : Nat} {src : Nat → Option UInt8} {k : Nat}

theorem Logs.listed (h : Logs s t) (hd : t.dinode = s.dinode) {blk : Nat → Bytes}
    {din : Nat → Dinode} (hl : Listed s blk din) : Listed t blk din := by
  refine ⟨?_, ?_⟩
  · intro b hb
    by_cases hst : t.block b = s.block b
    · exact h.sub b (hl.1 b (hst ▸ hb))
    · exact h.stored b hst
  · intro j hj
    rw [hd] at hj
    rw [h.sb]
    exact h.sub _ (hl.2 j hj)

theorem resize_logged (off : Nat) : (resize s i off).logged = IBLOCK s.sb i :: s.logged := by
  unfold resize
  split <;> rfl

/-- iupdate logs the block of the inode. -/
theorem resize_listed (off : Nat) {blk : Nat → Bytes} {din : Nat → Dinode}
    (hl : Listed s blk din) : Listed (resize s i off) blk din := by
  unfold Listed
  rw [resize_block, resize_dinode, resize_logged, resize_sb]
  refine ⟨fun b hb => List.mem_cons_of_mem _ (hl.1 b hb), ?_⟩
  intro j hj
  by_cases hji : j = i
  · rw [hji]
    exact List.mem_cons_self
  · rw [Function.update_of_ne hji] at hj
    exact List.mem_cons_of_mem _ (hl.2 j hj)

section Stopped

variable {off r : Nat} {u : State} {a : Nat}

theorem Partial.listed (h : Partial s t i src off k r u a) (hs : Inv s)
    (hbn : (off + k)/BSIZE < MAXFILE) (hc : s.val (leaf i ((off + k)/BSIZE)) = 0 ∨
      ∀ p, off ≤ p → p < off + k → p/BSIZE = (off + k)/BSIZE →
        src (p - off) = some (s.byteAt i p) ∨
        ((s.node i).size ≤ p ∧ s.val (leaf i ((off + k)/BSIZE)) ∈ s.logged))
    {blk : Nat → Bytes} {din : Nat → Dinode} (hl : Listed s blk din) : Listed t blk din := by
  have hr := leaf_inRange i _ hbn
  obtain ⟨hlb, hld⟩ := h.logs.listed h.ext.dinode hl
  refine ⟨?_, ?_⟩
  · intro b hb
    rw [h.logged]
    by_cases hba : b = a
    · subst hba
      by_contra hmem
      have hsx : s.val (leaf i ((off + k)/BSIZE)) ≠ 0 := by
        intro hz
        have hn : u.val (leaf i ((off + k)/BSIZE)) ≠ 0 := by
          rw [h.val]
          exact h.mapped
        have hf := h.logs.filled hs.tree h.tree h.ext hr hz hn
        rw [h.val] at hf
        exact hmem hf
      have hsb : s.val (leaf i ((off + k)/BSIZE)) = b := by
        rw [← h.ext.val _ hr hsx, h.val]
      have hnot : b ∉ s.logged := fun hm => hmem (h.logs.sub b hm)
      -- the bytes of the last block were there before
      have hsame : t.block b = u.block b := by
        funext j
        by_contra hne
        obtain ⟨p, h1, h2, rfl⟩ := h.rest j hne
        obtain ⟨hp, hsrc, hbyte⟩ := h.inside p h1 h2
        have hold := (hc.resolve_left hsx) p (by omega) h2 hp
        rw [hsb] at hold
        have hu : u.block b = s.block b := by
          by_contra hn
          exact hmem (h.logs.stored b hn)
        rcases hold with hold | hold
        · rw [hsrc, Option.some.injEq] at hold
          apply hne
          rw [← hbyte, hold, hu]
          unfold State.byteAt
          rw [hp, hsb]
        · exact hnot hold.2
      rw [hsame] at hb
      exact hmem (hlb b hb)
    · rw [h.other b hba] at hb
      exact hlb b hb
  · intro j hj
    rw [h.dinode] at hj
    rw [h.sb, h.logged]
    exact hld j hj

/-- If the block's change shows, it is not in the log's header. -/
theorem Partial.clean (h : Partial s t i src off k r u a)
    (hbn : (off + k)/BSIZE < MAXFILE) (hblock : IBLOCK s.sb i < s.sb.bmapstart)
    (hothers : ∀ p, p < (s.node i).size → ¬(off ≤ p ∧ p < off + r) → t.byteAt i p = s.byteAt i p)
    (hlisted : ∀ b, t.block b ≠ s.block b → b ∈ IBLOCK s.sb i :: t.logged)
    (hsx : s.val (leaf i ((off + k)/BSIZE)) ≠ 0) (p : Nat) (h1 : off ≤ p) (h2 : p < off + k)
    (hp : p/BSIZE = (off + k)/BSIZE) : src (p - off) = some (s.byteAt i p) ∨
      ((s.node i).size ≤ p ∧ s.val (leaf i ((off + k)/BSIZE)) ∈ s.logged) := by
  have hr := leaf_inRange i _ hbn
  have hpr : off + r ≤ p := by
    by_contra hlt
    exact h.before p h1 (by omega) hp
  obtain ⟨-, hsrc, hbyte⟩ := h.inside p hpr h2
  by_cases heq : t.byteAt i p = s.byteAt i p
  · rw [← heq]
    exact Or.inl hsrc
  · right
    have hsa : s.val (leaf i ((off + k)/BSIZE)) = a := by
      rw [← h.ext.val _ hr hsx, h.val]
    refine ⟨?_, ?_⟩
    · by_contra hin
      exact heq (hothers p (by omega) (by omega))
    · rw [hsa]
      have hne : t.block a ≠ s.block a := by
        intro he
        apply heq
        rw [hbyte, he]
        unfold State.byteAt
        rw [hp, hsa]
      apply h.spare hsx
      rw [← h.logged]
      refine (List.mem_cons.mp (hlisted a hne)).resolve_left ?_
      intro hia
      have hdata := (h.tree.used _ hr (by rw [h.val]; exact h.mapped)).1
      rw [h.val, h.ext.sb, hia] at hdata
      have hle : s.sb.bmapstart ≤ s.sb.datastart := Nat.le_add_right_of_le (Nat.le_add_right _ _)
      omega

end Stopped

/-- A short writei changes exactly the bytes that it reports if and only if it stops cleanly. -/
theorem writei_reported_iff (s t : State) (i : Nat) (src : Nat → Option UInt8) (off n : UInt32)
    (k r : Nat) (hs : Inv s) (hv : (s.icache i).valid = true)
    (hblock : IBLOCK s.sb i < s.sb.bmapstart) (hacc : Accepts (s.node i).size off.toNat n.toNat)
    (hsrc : ∀ j, (src j).isSome ↔ j < k) (h : writei s i src off n = .ok (some r, t)) :
    Reported s t i src off.toNat r ↔ CleanStop s i src off.toNat n.toNat k := by
  obtain ⟨tot, htot, hw⟩ := (writei_written src hs hv hacc).1 _ t h
  cases htot
  rw [writei_accepted src hacc] at h
  have hmax := hacc.2
  generalize off.toNat = off at *
  generalize n.toNat = n at *
  cases hl : writeiLoop s i src off n 0 with
  | error e =>
    rw [hl] at h
    cases h
  | ok q =>
    obtain ⟨⟨r', off'⟩, t0⟩ := q
    rw [hl] at h
    simp only [Except.map, Except.ok.injEq, Prod.mk.injEq, Option.some.injEq] at h
    obtain ⟨rfl, rfl⟩ := h
    have hsize := hw.size i
    rw [if_pos rfl] at hsize
    obtain ⟨-, hw0⟩ :=
      (writeiLoop_wrote src hs.tree hv off n 0 (Nat.zero_le _) (by omega)).1 _ t0 hl
    have hvt : (t0.icache i).valid = true := by rw [hw0.ext.valid, hv]
    have hbyte := byteAt_congr t0 (resize t0 i off') (resize_block t0 i off')
      (fun j l => resize_addr t0 i off' j l hvt) i
    by_cases hkn : n ≤ k
    · -- the whole source can be read
      have hall : ∀ j, j < n → (src j).isSome := fun j hj => (hsrc j).mpr (by omega)
      have hrn : r' = n := hw.total hall
      refine ⟨fun _ => Or.inl hkn, fun _ => ⟨hw.written, ?_, hsize, ?_⟩⟩
      · intro p hp hout
        exact hw.kept i p hp (fun hc => hout (by rw [hrn]; exact hc.2))
      · intro blk din hlist
        exact resize_listed off' ((writeiLoop_logs hs.tree hv (Nat.zero_le _) (by omega) hall
          hl).1.listed hw0.ext.dinode hlist)
    · obtain ⟨r, v, u, a, hst⟩ := writeiLoop_stops hsrc (Nat.zero_le k) (by omega) hl
      have hr : r' = r := congrArg Prod.fst hst.answer
      rw [← hr] at hst
      have hpart := hst.partial_ hsrc hs.tree hv (by omega)
      have hbn : (off + k)/BSIZE < MAXFILE := by
        simp only [BSIZE_eq, MAXFILE_eq] at *
        omega
      have hsb : t0.sb = s.sb := hpart.sb.trans hpart.ext.sb
      constructor
      · intro hrep
        refine Or.inr (or_iff_not_imp_left.mpr (fun hsx => ?_))
        apply hpart.clean hbn hblock ?_ ?_ hsx
        · intro p hp hout
          rw [← hbyte]
          exact hrep.others p hp hout
        · intro b hb
          have hlist := (hrep.listed s.block s.dinode
            ⟨fun _ hne => absurd rfl hne, fun _ hne => absurd rfl hne⟩).1 b
            (by rw [resize_block]; exact hb)
          rw [resize_logged, hsb] at hlist
          exact hlist
      · intro hclean
        have hc := hclean.resolve_left hkn
        refine ⟨hw.written, ?_, hsize, fun blk din hlist => resize_listed off'
          (hpart.listed hs hbn hc hlist)⟩
        intro p hp hout
        have hpm := hs.mapped i p hp
        have hsm := hs.small i
        rw [hbyte]
        by_cases hin : off ≤ p ∧ p < off + k
        · obtain ⟨hpb, hsp, -⟩ := hpart.inside p (by omega) hin.2
          rw [hpb] at hpm
          rcases (hc.resolve_left hpm) p hin.1 hin.2 hpb with hold | hold
          · rw [hsp] at hold
            exact Option.some.inj hold
          · omega
        · exact hpart.kept p (by omega) hpm hin

/-- A source of which the first `k` bytes can be read. -/
def readable (v : UInt8) (k : Nat) : Nat → Option UInt8 := fun j => if j < k then some v else none

theorem readable_isSome (v : UInt8) (k j : Nat) : (readable v k j).isSome ↔ j < k := by
  unfold readable
  split <;> simp_all

/-- Ten bytes are written into an empty file of a fresh disk. -/
theorem writei_tenBytes : ∃ t, writei freshDisk 1 (readable 1 10) 0 10 = .ok (some 10, t) ∧
    Written freshDisk t 1 (readable 1 10) 0 10 10 ∧ ClearFrom t 72 := by
  have hacc : Accepts (freshDisk.node 1).size (0 : UInt32).toNat (10 : UInt32).toNat := by decide
  have ho := freshDisk_open 1 (Or.inl rfl)
  obtain ⟨r, t, hw, hc⟩ := writei_room (readable 1 10) freshDisk_empty.inv ho.2 hacc 70
    (freshDisk_empty.clearFrom) (by decide)
  obtain ⟨tot, rfl, hwr⟩ := (writei_written _ freshDisk_empty.inv ho.2 hacc).1 r t hw
  obtain rfl : tot = 10 := hwr.total (fun j hj => (readable_isSome 1 10 j).mpr hj)
  exact ⟨t, hw, hwr, hc⟩

/-- Five of the ten bytes can be read, and the block that they were copied to is a new one. -/
theorem writei_reported_iff_tenBytes :
    ∃ r t, writei freshDisk 1 (readable 1 5) 0 10 = .ok (some r, t) ∧ r ≤ 5 ∧
      Reported freshDisk t 1 (readable 1 5) 0 r := by
  have hacc : Accepts (freshDisk.node 1).size (0 : UInt32).toNat (10 : UInt32).toNat := by decide
  have hv := (freshDisk_open 1 (Or.inl rfl)).2
  obtain ⟨r, t, hw, -⟩ := writei_room (readable 1 5) freshDisk_empty.inv hv hacc 70
    (freshDisk_empty.clearFrom) (by decide)
  obtain ⟨tot, rfl, hwr⟩ := (writei_written _ freshDisk_empty.inv hv hacc).1 r t hw
  refine ⟨tot, t, hw, ?_, (writei_reported_iff freshDisk t 1 (readable 1 5) 0 10 5 tot
    freshDisk_empty.inv hv (by decide) hacc (readable_isSome 1 5) hw).mpr (Or.inr (Or.inl rfl))⟩
  by_contra hlong
  have hbyte := hwr.written 5 (Nat.zero_le _) (by
    change 5 < 0 + tot
    omega)
  cases hbyte

/-- The ten bytes are overwritten from a source of which one byte can be read: the answer is 0,
and the first byte of the file has changed. -/
theorem short_write_changes_more : ¬∀ (s t : State) (i : Nat) (src : Nat → Option UInt8)
    (off n : UInt32) (k r : Nat), Inv s → (s.icache i).valid = true →
    IBLOCK s.sb i < s.sb.bmapstart → Accepts (s.node i).size off.toNat n.toNat →
    (∀ j, (src j).isSome ↔ j < k) → writei s i src off n = .ok (some r, t) →
    Reported s t i src off.toNat r := by
  intro hall
  obtain ⟨s, -, hw, hc⟩ := writei_tenBytes
  have hv : (s.icache 1).valid = true := by
    rw [(hw.cache 1).1]
    exact (freshDisk_open 1 (Or.inl rfl)).2
  have hsize : (s.node 1).size = 10 := by
    rw [hw.size 1, if_pos rfl]
    decide
  have hacc : Accepts (s.node 1).size (0 : UInt32).toNat (10 : UInt32).toNat := by
    rw [hsize]
    decide
  have hblock : IBLOCK s.sb 1 < s.sb.bmapstart := by
    rw [hw.sb]
    decide
  obtain ⟨r, t, hrun, -⟩ := writei_room (readable 2 1) hw.inv hv hacc 72 hc
    (by rw [hw.sb]; decide)
  obtain ⟨tot, rfl, -⟩ := (writei_written _ hw.inv hv hacc).1 r t hrun
  have hrep := hall s t 1 (readable 2 1) 0 10 1 tot hw.inv hv hblock hacc (readable_isSome 2 1) hrun
  have hclean := (writei_reported_iff s t 1 (readable 2 1) 0 10 1 tot hw.inv hv hblock hacc
    (readable_isSome 2 1) hrun).mp hrep
  have hold : some (s.byteAt 1 0) = some 1 := (hw.written 0 (Nat.le_refl 0) (by decide)).symm
  rcases hclean with hn | hz | hp
  · exact absurd hn (by decide)
  · exact hw.inv.mapped 1 0 (by rw [hsize]; decide) hz
  · rcases hp 0 (Nat.le_refl 0) (by decide) (by decide) with h | h
    · rw [hold] at h
      exact absurd h (by decide)
    · rw [hsize] at h
      exact absurd h.1 (by decide)

end Report

end Xv6Labs.Fs
