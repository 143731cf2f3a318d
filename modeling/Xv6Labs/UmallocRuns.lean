import Xv6Labs.UmallocHeap

/-! Runs of malloc and free: the heap stays well formed, the loops end, and blocks in use keep
their bytes. -/
namespace Xv6Labs.Umalloc

section Carve

variable {base : Nat} {s : Heap} {w x y : Nat × Nat} {F U pre post : List (Nat × Nat)} {n : Nat}

/-- Other headers are outside a free block. -/
theorem Laid.outside (h : Laid base s F U) (hx : x ∈ F) (hy : y ∈ (base, 0) :: (F ++ U))
    (hne : y ≠ x) : y.1 + 16 ≤ x.1 ∨ x.1 + x.2 ≤ y.1 := by
  rcases List.mem_cons.mp hy with hb | hy
  · rw [hb]
    exact Or.inl (h.within x (List.mem_append_left _ hx)).1
  · have hlarge := h.large y hy
    have hap : Apart x y := by
      rcases List.mem_append.mp hy with hyF | hyU
      · exact h.spaced.apart hx hyF (Ne.symm hne)
      · exact h.apart x hx y hyU
    unfold Apart at hap
    omega

/-- A free block is not base, and its predecessor comes right before it. -/
theorem Laid.before (h : Laid base s F U) (hw : w ∈ (base, 0) :: F) (hx : x ∈ F)
    (hnext : ptr s.mem w.1 = x.1) : ∃ pre post, (base, 0) :: F = pre ++ w :: x :: post := by
  obtain ⟨pre, post, hsplit⟩ := List.append_of_mem hw
  have hseg := (h.split hsplit).2
  cases post with
  | nil =>
    have hbase : ptr s.mem w.1 = base := hseg
    have := (h.within x (List.mem_append_left _ hx)).1
    omega
  | cons y post =>
    have hy : ptr s.mem w.1 = y.1 := hseg.1
    have hyN : y ∈ (base, 0) :: F := by
      rw [hsplit]
      exact List.mem_append_right _ (List.mem_cons_of_mem _ List.mem_cons_self)
    have hyx : y = x := by
      by_contra hne
      have hmem : y ∈ (base, 0) :: (F ++ U) := by
        rw [← List.cons_append]
        exact List.mem_append_left _ hyN
      have haway := h.away hmem (List.mem_cons_of_mem _ (List.mem_append_left _ hx)) hne
      unfold Away at haway
      omega
    exact ⟨pre, post, by rw [hsplit, hyx]⟩

/-- The list of the free blocks is the list of all but its head. -/
theorem cons_eq_append {α : Type} {a x : α} {l l₁ l₂ : List α} (h : a :: l = l₁ ++ x :: l₂)
    (hne : x ≠ a) : ∃ k, l₁ = a :: k ∧ l = k ++ x :: l₂ := by
  cases l₁ with
  | nil =>
    have hax : a = x := (List.cons.inj h).1
    exact absurd hax.symm hne
  | cons b k =>
    obtain ⟨rfl, hl⟩ := List.cons.inj h
    exact ⟨k, rfl, hl⟩

/-- Where a free block and its predecessor are in the list, with base and without. -/
theorem Laid.placed (h : Laid base s F U) (hw : w ∈ (base, 0) :: F) (hx : x ∈ F)
    (hnext : ptr s.mem w.1 = x.1) :
    ∃ l pre post, (base, 0) :: F = l ++ w :: x :: post ∧ l ++ [w] = (base, 0) :: pre ∧
      F = pre ++ x :: post := by
  obtain ⟨l, post, hsplit⟩ := h.before hw hx hnext
  have hxbase : x ≠ (base, 0) := by
    intro heq
    have hin := (h.within x (List.mem_append_left _ hx)).1
    rw [heq] at hin
    exact absurd hin (Nat.not_le.mpr (Nat.lt_add_of_pos_right (by decide)))
  have hsplit' : (base, 0) :: F = (l ++ [w]) ++ x :: post := by
    rw [hsplit, List.append_assoc]
    rfl
  obtain ⟨pre, hpre, hF⟩ := cons_eq_append hsplit' hxbase
  exact ⟨l, pre, post, hsplit, hpre, hF⟩

section Lists

/-- A block that moves from the free ones to those in use. -/
theorem perm_take (x : Nat × Nat) (pre post U : List (Nat × Nat)) :
    (pre ++ post ++ x :: U).Perm (pre ++ x :: post ++ U) :=
  List.perm_middle.trans (List.perm_middle.append_right U).symm

theorem mem_middle : y ∈ pre ++ x :: post ↔ y = x ∨ y ∈ pre ++ post :=
  List.perm_middle.mem_iff.trans List.mem_cons

/-- What holds of two blocks and of the others holds of all. -/
theorem forall_parts {P : Nat × Nat → Prop} {y z : Nat × Nat} (hy : P y) (hz : P z)
    (h : ∀ v ∈ pre ++ post ++ U, P v) : ∀ v ∈ pre ++ y :: post ++ z :: U, P v := by
  intro v hv
  rcases mem_middle.mp hv with rfl | hv
  · exact hz
  · rcases List.mem_append.mp hv with hv | hv
    · rcases mem_middle.mp hv with rfl | hv
      · exact hy
      · exact h v (List.mem_append_left _ hv)
    · exact h v (List.mem_append_right _ hv)

end Lists

section Blocks

variable {m : Bytes} {f a b : Nat}

/-- A block that leaves the list is in use. -/
theorem Laid.take (h : Laid base s (pre ++ x :: post) U)
    (hring : Seg (ptr m) 0 base (((base, 0) :: (pre ++ post)).map Prod.fst) base)
    (hentry : f ∈ ((base, 0) :: (pre ++ post)).map Prod.fst)
    (hsizes : ∀ y ∈ (base, 0) :: (pre ++ x :: post ++ U), 16 * size m y.1 = y.2) :
    Laid base ⟨m, f, s.brk, s.got, s.grants⟩ (pre ++ post) (x :: U) := by
  have hmem : ∀ y, y ∈ pre ++ post ++ x :: U → y ∈ pre ++ x :: post ++ U :=
    fun y => (perm_take x pre post U).mem_iff.mp
  have hx : x ∈ pre ++ x :: post := mem_middle.mpr (Or.inl rfl)
  have hrest : ∀ y ∈ pre ++ post, y ∈ pre ++ x :: post := fun y hy => mem_middle.mpr (Or.inr hy)
  refine ⟨hring, hentry, ?_, h.spaced.remove, List.pairwise_cons.mpr ⟨h.apart x hx, h.used⟩, ?_,
    fun y hy => h.within y (hmem y hy), fun y hy => h.large y (hmem y hy), ?_, h.base_pos,
    h.above, h.fits, fun y hy => h.inside y (hmem y hy)⟩
  · intro y hy
    apply hsizes
    rcases List.mem_cons.mp hy with rfl | hy
    · exact List.mem_cons_self
    · exact List.mem_cons_of_mem _ (hmem y hy)
  · intro y hy u hu
    rcases List.mem_cons.mp hu with rfl | hu
    · exact h.spaced.apart (hrest y hy) hx (h.spaced.ne hy)
    · exact h.apart y (hrest y hy) u hu
  · have htotal := h.total
    rw [← List.sum_append, ← List.map_append] at htotal ⊢
    rw [((perm_take x pre post U).map Prod.snd).sum_eq]
    exact htotal

/-- A block whose tail is in use and whose front stays in the list. -/
theorem Laid.halve (h : Laid base s (pre ++ x :: post) U) (hparts : x.2 = a + b) (ha : 16 ≤ a)
    (hb : 16 ≤ b)
    (hring : Seg (ptr m) 0 base (((base, 0) :: (pre ++ x :: post)).map Prod.fst) base)
    (hentry : f ∈ ((base, 0) :: (pre ++ x :: post)).map Prod.fst)
    (hbase : 16 * size m base = 0) (hfront : 16 * size m x.1 = a)
    (hback : 16 * size m (x.1 + a) = b)
    (hsizes : ∀ y ∈ pre ++ post ++ U, 16 * size m y.1 = y.2) :
    Laid base ⟨m, f, s.brk, s.got, s.grants⟩ (pre ++ (x.1, a) :: post) ((x.1 + a, b) :: U) := by
  have hx : x ∈ pre ++ x :: post := mem_middle.mpr (Or.inl rfl)
  have hxall : x ∈ pre ++ x :: post ++ U := List.mem_append_left _ hx
  have hin := h.within x hxall
  have hmem : ∀ y ∈ pre ++ post ++ U, y ∈ pre ++ x :: post ++ U := by
    intro y hy
    rcases List.mem_append.mp hy with hy | hy
    · exact List.mem_append_left _ (mem_middle.mpr (Or.inr hy))
    · exact List.mem_append_right _ hy
  have hlist : ((base, 0) :: (pre ++ (x.1, a) :: post)).map Prod.fst =
      ((base, 0) :: (pre ++ x :: post)).map Prod.fst := by
    simp only [List.map_cons, List.map_append]
  -- the two parts are inside the block
  have hpart (y u : Nat × Nat) (hap : Apart x u) (hlo : x.1 ≤ y.1)
      (hhi : y.1 + y.2 ≤ x.1 + x.2) : Apart y u := hap.part hlo hhi
  have hfrontEnd : x.1 + a ≤ x.1 + x.2 := by omega
  have hbackEnd : x.1 + a + b ≤ x.1 + x.2 := by omega
  refine ⟨?_, ?_, ?_, h.spaced.shrink (by omega), ?_, ?_, ?_, ?_, ?_, h.base_pos, h.above, h.fits,
    ?_⟩
  · rw [hlist]
    exact hring
  · rw [hlist]
    exact hentry
  · exact List.forall_mem_cons.mpr ⟨hbase, forall_parts hfront hback hsizes⟩
  · refine List.pairwise_cons.mpr ⟨fun u hu => ?_, h.used⟩
    exact hpart _ u (h.apart x hx u hu) (Nat.le_add_right _ _) hbackEnd
  · intro y hy u hu
    rcases mem_middle.mp hy with rfl | hy
    · rcases List.mem_cons.mp hu with rfl | hu
      · exact Or.inl (Nat.le_refl _)
      · exact hpart _ u (h.apart x hx u hu) (Nat.le_refl _) hfrontEnd
    · have hyF : y ∈ pre ++ x :: post := mem_middle.mpr (Or.inr hy)
      rcases List.mem_cons.mp hu with rfl | hu
      · have hap := h.spaced.apart hx hyF (Ne.symm (h.spaced.ne hy))
        exact (hpart _ y hap (Nat.le_add_right _ _) hbackEnd).symm
      · exact h.apart y hyF u hu
  · apply forall_parts
    · change base + 16 ≤ x.1 ∧ x.1 + a ≤ s.brk
      omega
    · change base + 16 ≤ x.1 + a ∧ x.1 + a + b ≤ s.brk
      omega
    · exact fun y hy => h.within y (hmem y hy)
  · exact forall_parts ha hb (fun y hy => h.large y (hmem y hy))
  · have htotal := h.total
    simp only [List.map_append, List.map_cons, List.sum_append, List.sum_cons] at htotal ⊢
    omega
  · have hcovered := h.inside x hxall
    apply forall_parts
    · exact fun k hk hk' => hcovered k hk (by omega)
    · exact fun k hk hk' => hcovered k (by omega) (by omega)
    · exact fun y hy => h.inside y (hmem y hy)

end Blocks

section Unlink

variable {l : List (Nat × Nat)} {v : Nat}

theorem Laid.setPtr_sizes (h : Laid base s F U) (hw : w ∈ (base, 0) :: (F ++ U)) :
    ∀ y ∈ (base, 0) :: (F ++ U), 16 * size (setPtr s.mem w.1 v) y.1 = y.2 := by
  intro y hy
  by_cases hyw : y = w
  · rw [hyw, size_setPtr]
    exact h.sizes w hw
  · rw [(setPtr_kept _ _ (h.away hy hw hyw)).size]
    exact h.sizes y hy

theorem Laid.setPtr_intact (h : Laid base s F U) (hw : w ∈ (base, 0) :: F) :
    Intact s.mem (setPtr s.mem w.1 v) U := by
  intro u hu k hk hk'
  apply setPtr_outside
  rcases List.mem_cons.mp hw with rfl | hwF
  · have hin := (h.within u (List.mem_append_right _ hu)).1
    change k < base ∨ base + 16 ≤ k
    omega
  · have hap := h.apart w hwF u hu
    have hlarge := h.large w (List.mem_append_left _ hwF)
    unfold Apart at hap
    omega

theorem Laid.node_le (h : Laid base s F U) (hy : y ∈ (base, 0) :: F) :
    base ≤ y.1 ∧ y.1 ≤ 2^36 := by
  have habove := h.above
  have hfits := h.fits
  rcases List.mem_cons.mp hy with rfl | hy
  · change base ≤ base ∧ base ≤ 2^36
    omega
  · have hin := h.within y (List.mem_append_left _ hy)
    omega

/-- The list without the block behind `w`. -/
theorem Laid.unlink (h : Laid base s F U) (hsplit : (base, 0) :: F = l ++ w :: x :: post) :
    Seg (ptr (setPtr s.mem w.1 (ptr s.mem x.1))) 0 base ((l ++ w :: post).map Prod.fst) base := by
  have hnodes : ∀ y ∈ l ++ w :: x :: post, y ∈ (base, 0) :: F := fun y hy => hsplit ▸ hy
  have hall : ∀ y ∈ l ++ w :: x :: post, y ∈ (base, 0) :: (F ++ U) := fun y hy => by
    rw [← List.cons_append]
    exact List.mem_append_left _ (hnodes y hy)
  have hw : w ∈ l ++ w :: x :: post := mem_middle.mpr (Or.inl rfl)
  have hspaced := h.spaced_base
  rw [hsplit] at hspaced
  have hkept : ∀ y ∈ l ++ x :: post, Kept s.mem (setPtr s.mem w.1 (ptr s.mem x.1)) y.1 := by
    intro y hy
    have hy' : y ∈ l ++ w :: x :: post := mem_middle.mpr (Or.inr hy)
    exact setPtr_kept _ _ (h.away (hall y hy') (hall w hw) (hspaced.ne hy))
  have hsplit' : (base, 0) :: F = (l ++ [w]) ++ x :: post := by
    rw [hsplit, List.append_assoc]
    rfl
  have hfront := (h.split hsplit).1
  have hback := (h.split hsplit').2
  have hpost : ∀ y ∈ post, y ∈ x :: post := fun y hy => List.mem_cons_of_mem _ hy
  have hnext : ptr s.mem x.1 ≤ 2^36 := by
    refine Seg.start_le hback (fun y hy => ?_) (h.node_le List.mem_cons_self).2
    have hy' : y ∈ l ++ w :: x :: post :=
      mem_middle.mpr (Or.inr (List.mem_append_right _ (hpost y hy)))
    exact (h.node_le (hnodes y hy')).2
  have hwpos : w.1 ≠ 0 := by
    have hle := (h.node_le (hnodes w hw)).1
    have hpos := h.base_pos
    omega
  rw [List.map_append, List.map_cons]
  refine (Seg.kept hfront (fun y hy => hkept y (List.mem_append_left _ hy))).append
    ⟨rfl, hwpos, ?_⟩
  rw [ptr_setPtr _ _ (by omega)]
  exact Seg.kept hback (fun y hy => hkept y (List.mem_append_right _ (hpost y hy)))

/-- A block of the right size comes out of the list whole. -/
theorem carve_whole (h : Laid base s F U) (hw : w ∈ (base, 0) :: F) (hx : x ∈ F)
    (hnext : ptr s.mem w.1 = x.1) (heq : size s.mem x.1 = n) :
    ∃ F', carve s n w.1 x.1 =
        (⟨setPtr s.mem w.1 (ptr s.mem x.1), w.1, s.brk, s.got, s.grants⟩, x.1 + 16) ∧
      Laid base ⟨setPtr s.mem w.1 (ptr s.mem x.1), w.1, s.brk, s.got, s.grants⟩ F' (x :: U) ∧
      Intact s.mem (setPtr s.mem w.1 (ptr s.mem x.1)) U := by
  obtain ⟨l, pre, post, hsplit, hpre, rfl⟩ := h.placed hw hx hnext
  have hlist : (base, 0) :: (pre ++ post) = l ++ w :: post := by
    rw [← List.cons_append, ← hpre, List.append_assoc]
    rfl
  refine ⟨pre ++ post, if_pos heq, ?_, h.setPtr_intact hw⟩
  apply h.take
  · rw [hlist]
    exact h.unlink hsplit
  · rw [hlist]
    exact List.mem_map_of_mem (mem_middle.mpr (Or.inl rfl))
  · exact h.setPtr_sizes (Laid.node hsplit)

end Unlink

section Cut

variable {m : Bytes} {p z k : Nat}

/-- The headers of the two parts of the block at `p`. -/
def cut (m : Bytes) (p z n : Nat) : Bytes := setSize (setSize m p z) (p + 16 * z) n

theorem cut_outside (hk : k < p ∨ p + 16 * z + 16 ≤ k) : cut m p z n k = m k := by
  unfold cut
  rw [setSize_outside _ _ (by omega), setSize_outside _ _ (by omega)]

theorem cut_kept (hy : k + 16 ≤ p ∨ p + 16 * z + 16 ≤ k) : Kept m (cut m p z n) k :=
  fun i hi hi' => cut_outside (by omega)

theorem size_cut_back (hn : n < 2^32) : size (cut m p z n) (p + 16 * z) = n :=
  size_setSize _ _ hn

section Front

variable (hz : 0 < z)
include hz

theorem front_kept : Kept (setSize m p z) (cut m p z n) p :=
  setSize_kept _ _ (Or.inl (by omega))

theorem ptr_cut : ptr (cut m p z n) p = ptr m p := by
  rw [(front_kept hz).ptr, ptr_setSize]

theorem size_cut (hlt : z < 2^32) : size (cut m p z n) p = z := by
  rw [(front_kept hz).size, size_setSize _ _ hlt]

end Front

/-- The tail of a larger block comes out of the list. -/
theorem carve_tail (h : Laid base s F U) (hw : w ∈ (base, 0) :: F) (hx : x ∈ F) (hn : 0 < n)
    (hbig : n < size s.mem x.1) :
    ∃ F' q, carve s n w.1 x.1 =
        (⟨cut s.mem x.1 (size s.mem x.1 - n) n, w.1, s.brk, s.got, s.grants⟩, q + 16) ∧
      Laid base ⟨cut s.mem x.1 (size s.mem x.1 - n) n, w.1, s.brk, s.got, s.grants⟩ F'
        ((q, 16 * n) :: U) ∧
      Intact s.mem (cut s.mem x.1 (size s.mem x.1 - n) n) U := by
  have hxA : x ∈ F ++ U := List.mem_append_left _ hx
  have hsize := h.sizes x (List.mem_cons_of_mem _ hxA)
  have hin := h.within x hxA
  have hfits := h.fits
  obtain ⟨z, hz⟩ : ∃ z, z = size s.mem x.1 - n := ⟨_, rfl⟩
  have hzpos : 0 < z := by omega
  have hzlt : z < 2^32 := by omega
  have hnlt : n < 2^32 := by omega
  rw [← hz]
  have hcarve : carve s n w.1 x.1 =
      (⟨cut s.mem x.1 z n, w.1, s.brk, s.got, s.grants⟩, x.1 + 16 * z + 16) := by
    have hzx : size (setSize s.mem x.1 z) x.1 = z := size_setSize _ _ hzlt
    unfold carve
    rw [if_neg (by omega)]
    simp only [← hz, hzx]
    rfl
  have hkept : ∀ y ∈ (base, 0) :: (F ++ U), y ≠ x → Kept s.mem (cut s.mem x.1 z n) y.1 := by
    intro y hy hne
    have hout := h.outside hx hy hne
    exact cut_kept (by omega)
  have hsizes : ∀ y ∈ (base, 0) :: (F ++ U), y ≠ x → 16 * size (cut s.mem x.1 z n) y.1 = y.2 := by
    intro y hy hne
    rw [(hkept y hy hne).size]
    exact h.sizes y hy
  have hring : Seg (ptr (cut s.mem x.1 z n)) 0 base (((base, 0) :: F).map Prod.fst) base := by
    apply h.ring.congr
    intro p hp
    obtain ⟨y, hy, rfl⟩ := List.mem_map.mp hp
    by_cases hyx : y = x
    · rw [hyx]
      exact ptr_cut hzpos
    · refine (hkept y ?_ hyx).ptr
      rw [← List.cons_append]
      exact List.mem_append_left _ hy
  have hapart : ∀ u ∈ U, Apart x u := h.apart x hx
  obtain ⟨pre, post, rfl⟩ := List.append_of_mem hx
  refine ⟨pre ++ (x.1, 16 * z) :: post, x.1 + 16 * z, hcarve, ?_, ?_⟩
  · apply h.halve (by omega) (by omega) (by omega) hring (List.mem_map_of_mem hw)
    · refine hsizes (base, 0) List.mem_cons_self ?_
      rintro rfl
      have hlow : base + 16 ≤ base := hin.1
      omega
    · rw [size_cut hzpos hzlt]
    · rw [size_cut_back hnlt]
    · intro y hy
      rcases List.mem_append.mp hy with hy | hy
      · refine hsizes y (List.mem_cons_of_mem _ (List.mem_append_left _ ?_)) (h.spaced.ne hy)
        exact mem_middle.mpr (Or.inr hy)
      · refine hsizes y (List.mem_cons_of_mem _ (List.mem_append_right _ hy)) ?_
        rintro rfl
        have hself := hapart y hy
        unfold Apart at hself
        omega
  · intro u hu k hk hk'
    have hap := hapart u hu
    unfold Apart at hap
    exact cut_outside (by omega)

end Cut

/-- A block that is large enough comes out of the list, or its tail does. -/
theorem carve_spec (h : Laid base s F U) (hw : w ∈ (base, 0) :: F) (hx : x ∈ F)
    (hnext : ptr s.mem w.1 = x.1) (hn : 0 < n) (hfit : n ≤ size s.mem x.1) :
    ∃ F' u, (carve s n w.1 x.1).2 = u.1 + 16 ∧ u.2 = 16 * n ∧
      Laid base (carve s n w.1 x.1).1 F' (u :: U) ∧ (carve s n w.1 x.1).1.brk = s.brk ∧
      Intact s.mem (carve s n w.1 x.1).1.mem U := by
  by_cases heq : size s.mem x.1 = n
  · obtain ⟨F', hcarve, hlaid, hintact⟩ := carve_whole h hw hx hnext heq
    rw [hcarve]
    refine ⟨F', x, rfl, ?_, hlaid, rfl, hintact⟩
    rw [← heq]
    exact (h.sizes x (List.mem_cons_of_mem _ (List.mem_append_left _ hx))).symm
  · obtain ⟨F', q, hcarve, hlaid, hintact⟩ := carve_tail h hw hx hn (by omega)
    rw [hcarve]
    exact ⟨F', (q, 16 * n), rfl, rfl, hlaid, rfl, hintact⟩

end Carve

section Scan

variable {base : Nat} {s : Heap} {F U : List (Nat × Nat)} {n : Nat}

/-- What the loop of malloc does when it is back at `freep`. -/
def grow (fuel : Nat) (s : Heap) (nunits : Nat) (answers : List (Option Nat)) :
    Option (Heap × Nat) :=
  match morecore fuel s nunits answers.head?.join with
  | none => none
  | some (s, p) =>
    if p = 0 then some (s, 0) else scan fuel s nunits p (ptr s.mem p) answers.tail

/-- One time around the list: a block is large enough, or none is. -/
theorem scan_round (s : Heap) (n : Nat) (answers : List (Option Nat)) {p prevp : Nat}
    {ys : List Nat} (hseg : Seg (ptr s.mem) 0 p ys s.freep) (hfree : s.freep ∉ ys)
    (hprev : ptr s.mem prevp = p) :
    (∃ w q, (w = prevp ∨ w ∈ ys) ∧ (q = s.freep ∨ q ∈ ys) ∧ ptr s.mem w = q ∧
      n ≤ size s.mem q ∧ ∀ fuel, ys.length + 1 ≤ fuel →
        scan fuel s n prevp p answers = some (carve s n w q)) ∨
    ((∀ q, q = s.freep ∨ q ∈ ys → size s.mem q < n) ∧
      ∀ fuel, scan (fuel + (ys.length + 1)) s n prevp p answers = grow fuel s n answers) := by
  induction ys generalizing p prevp with
  | nil =>
    have hp : p = s.freep := hseg
    by_cases hfit : n ≤ size s.mem p
    · refine Or.inl ⟨prevp, p, Or.inl rfl, Or.inl hp, hprev, hfit, ?_⟩
      intro fuel hfuel
      obtain ⟨k, rfl⟩ : ∃ k, fuel = k + 1 := ⟨fuel - 1, by
        rw [List.length_nil] at hfuel
        omega⟩
      unfold scan
      exact if_pos hfit
    · refine Or.inr ⟨?_, ?_⟩
      · rintro q (rfl | hq)
        · rw [← hp]
          omega
        · cases hq
      · intro fuel
        change scan (fuel + 1) s n prevp p answers = _
        unfold scan
        rw [if_neg hfit, if_pos hp]
        rfl
  | cons y ys ih =>
    obtain ⟨rfl, hy0, hrest⟩ := hseg
    obtain ⟨hne, hfree'⟩ := not_or.mp (fun h => hfree (List.mem_cons.mpr h))
    by_cases hfit : n ≤ size s.mem p
    · refine Or.inl ⟨prevp, p, Or.inl rfl, Or.inr List.mem_cons_self, hprev, hfit, ?_⟩
      intro fuel hfuel
      obtain ⟨k, rfl⟩ : ∃ k, fuel = k + 1 := ⟨fuel - 1, by omega⟩
      unfold scan
      exact if_pos hfit
    · have hgo (fuel : Nat) : scan (fuel + 1) s n prevp p answers =
          scan fuel s n p (ptr s.mem p) answers := by
        conv => lhs; unfold scan
        rw [if_neg hfit, if_neg (Ne.symm hne)]
      rcases ih hrest hfree' rfl with ⟨w, q, hw, hq, hnext, hbig, hrun⟩ | ⟨hsmall, hrun⟩
      · refine Or.inl ⟨w, q, ?_, hq.imp id (List.mem_cons_of_mem _), hnext, hbig, ?_⟩
        · rcases hw with rfl | hw
          · exact Or.inr List.mem_cons_self
          · exact Or.inr (List.mem_cons_of_mem _ hw)
        · intro fuel hfuel
          rw [List.length_cons] at hfuel
          obtain ⟨k, rfl⟩ : ∃ k, fuel = k + 1 := ⟨fuel - 1, by omega⟩
          rw [hgo]
          exact hrun k (by omega)
      · refine Or.inr ⟨?_, ?_⟩
        · rintro q (hq | hq)
          · exact hsmall q (Or.inl hq)
          · rcases List.mem_cons.mp hq with rfl | hq
            · omega
            · exact hsmall q (Or.inr hq)
        · intro fuel
          rw [List.length_cons, ← hrun fuel, ← Nat.add_assoc, hgo]

/-- What malloc found: a block with room for the request. -/
structure Found (base : Nat) (s s' : Heap) (a n : Nat) (U : List (Nat × Nat)) : Prop where
  laid : ∃ F u, a = u.1 + 16 ∧ u.2 = 16 * n ∧ Laid base s' F (u :: U)
  brk : s.brk ≤ s'.brk
  intact : Intact s.mem s'.mem U

/-- When a free block is large enough, once around the list finds one. -/
theorem scan_found (h : Laid base s F U) (hn : 0 < n) (hfit : ∃ x ∈ F, 16 * n ≤ x.2)
    (answers : List (Option Nat)) : ∃ s' a, Found base s s' a n U ∧
      ∀ fuel, F.length + 1 ≤ fuel →
        scan fuel s n s.freep (ptr s.mem s.freep) answers = some (s', a) := by
  obtain ⟨ys, hys, hmem, hlen, hfree⟩ := h.rotate
  rcases scan_round s n answers hys.2.2 hfree rfl with
    ⟨w, q, hw, hq, hnext, hbig, hrun⟩ | ⟨hsmall, -⟩
  · have hwN : w ∈ ((base, 0) :: F).map Prod.fst :=
      (hmem w).mp (hw.elim (fun h => h ▸ List.mem_cons_self) (List.mem_cons_of_mem _))
    have hqN : q ∈ ((base, 0) :: F).map Prod.fst :=
      (hmem q).mp (hq.elim (fun h => h ▸ List.mem_cons_self) (List.mem_cons_of_mem _))
    obtain ⟨w, hwmem, rfl⟩ := List.mem_map.mp hwN
    obtain ⟨x, hxmem, rfl⟩ := List.mem_map.mp hqN
    have hxF : x ∈ F := by
      rcases List.mem_cons.mp hxmem with hb | hF
      · have hbase := h.sizes (base, 0) List.mem_cons_self
        change 16 * size s.mem base = 0 at hbase
        rw [hb] at hbig
        change n ≤ size s.mem base at hbig
        omega
      · exact hF
    obtain ⟨F', u, ha, hu, hlaid, hbrk, hint⟩ := carve_spec h hwmem hxF hnext hn hbig
    refine ⟨(carve s n w.1 x.1).1, (carve s n w.1 x.1).2,
      ⟨⟨F', u, ha, hu, hlaid⟩, Nat.le_of_eq hbrk.symm, hint⟩, ?_⟩
    intro fuel hfuel
    exact hrun fuel (by omega)
  · obtain ⟨x, hx, hle⟩ := hfit
    have hsize := h.sizes x (List.mem_cons_of_mem _ (List.mem_append_left _ hx))
    have hxys : x.1 ∈ s.freep :: ys :=
      (hmem x.1).mpr (List.mem_map_of_mem (List.mem_cons_of_mem _ hx))
    have := hsmall x.1 (List.mem_cons.mp hxys)
    omega

/-- The memory that sbrk answers with is a block in use, once its header has the size. -/
theorem Laid.grow (h : Laid base s F U) {p nu : Nat} (hp : s.brk ≤ p) (hpos : 0 < nu)
    (hnult : nu < 2^32) (hfit : p + 16 * nu ≤ 2^36) :
    Laid base ⟨setSize s.mem p nu, s.freep, p + 16 * nu, s.got + 16 * nu,
      (p, 16 * nu) :: s.grants⟩ F ((p, 16 * nu) :: U) := by
  have hfits := h.fits
  have habove := h.above
  have hkept : ∀ y ∈ (base, 0) :: (F ++ U), Kept s.mem (setSize s.mem p nu) y.1 := by
    intro y hy
    apply setSize_kept
    rcases List.mem_cons.mp hy with hb | hy
    · rw [hb]
      exact Or.inl (Nat.le_trans habove hp)
    · have hw := (h.within y hy).2
      have hl := h.large y hy
      exact Or.inl (by omega)
  have happend : ∀ y ∈ F ++ (p, 16 * nu) :: U, y = (p, 16 * nu) ∨ y ∈ F ++ U := by
    intro y hy
    rcases List.mem_append.mp hy with hy | hy
    · exact Or.inr (List.mem_append_left _ hy)
    · exact (List.mem_cons.mp hy).imp id (List.mem_append_right _)
  refine ⟨?_, h.entry, ?_, h.spaced, ?_, ?_, ?_, ?_, ?_, h.base_pos, ?_, hfit, ?_⟩
  · apply Seg.kept h.ring
    intro y hy
    apply hkept
    rw [← List.cons_append]
    exact List.mem_append_left _ hy
  · intro y hy
    change 16 * size (setSize s.mem p nu) y.1 = y.2
    rcases List.mem_cons.mp hy with hb | hy
    · rw [(hkept y (hb ▸ List.mem_cons_self)).size]
      exact h.sizes y (hb ▸ List.mem_cons_self)
    · rcases happend y hy with rfl | hy
      · change 16 * size (setSize s.mem p nu) p = 16 * nu
        rw [size_setSize _ _ hnult]
      · rw [(hkept y (List.mem_cons_of_mem _ hy)).size]
        exact h.sizes y (List.mem_cons_of_mem _ hy)
  · refine List.pairwise_cons.mpr ⟨?_, h.used⟩
    intro u hu
    have := (h.within u (List.mem_append_right _ hu)).2
    exact Or.inr (Nat.le_trans this hp)
  · intro y hy u hu
    rcases List.mem_cons.mp hu with rfl | hu
    · have := (h.within y (List.mem_append_left _ hy)).2
      exact Or.inl (Nat.le_trans this hp)
    · exact h.apart y hy u hu
  · intro y hy
    change base + 16 ≤ y.1 ∧ y.1 + y.2 ≤ p + 16 * nu
    rcases happend y hy with rfl | hy
    · exact ⟨Nat.le_trans habove hp, Nat.le_refl _⟩
    · have := h.within y hy
      omega
  · intro y hy
    rcases happend y hy with rfl | hy
    · change 16 ≤ 16 * nu
      omega
    · exact h.large y hy
  · have htotal := h.total
    rw [List.map_cons, List.sum_cons]
    change _ + (16 * nu + _) = s.got + 16 * nu
    omega
  · change base + 16 ≤ p + 16 * nu
    omega
  · intro y hy k hk hk'
    rcases happend y hy with rfl | hy
    · exact ⟨_, List.mem_cons_self, hk, hk'⟩
    · obtain ⟨g, hg, hgk⟩ := h.inside y hy k hk hk'
      exact ⟨g, List.mem_cons_of_mem _ hg, hgk⟩

/-- New memory goes into the list like a block that is freed. -/
theorem morecore_spec (h : Laid base s F U) (hn : 0 < n) (hnlt : n < 2^27) {p : Nat}
    (hp : s.brk ≤ p) (hfit : p + 16 * max 4096 n ≤ 2^36) :
    ∃ s', (∀ fuel, F.length + 1 ≤ fuel →
        morecore fuel s n (some p) = some (s', s'.freep)) ∧
      Laid base s' (addExtent (p, 16 * max 4096 n) F) U ∧ s.brk ≤ s'.brk ∧
      Intact s.mem s'.mem U := by
  obtain ⟨nu, hnu⟩ : ∃ nu, nu = max 4096 n := ⟨_, rfl⟩
  rw [← hnu] at hfit ⊢
  have hnu' : (if n < 4096 then 4096 else n) = nu := by
    split
    · omega
    · omega
  have hmod : nu * HEADER % 2^32 = 16 * nu := by
    change nu * 16 % 2^32 = 16 * nu
    omega
  have hbrk : p ≤ p + 16 * nu := Nat.le_add_right _ _
  have hfits := h.fits
  have habove := h.above
  have hnult : nu < 2^32 := by omega
  have hsbrk : sbrk s (16 * nu) p =
      ⟨s.mem, s.freep, p + 16 * nu, s.got + 16 * nu, (p, 16 * nu) :: s.grants⟩ := by
    unfold sbrk
    rw [if_pos (by omega)]
  have hlaid := h.grow hp (show 0 < nu by omega) hnult hfit
  obtain ⟨s', hrun, hlaid', hbrk', -, -, hint⟩ := free_spec hlaid
  refine ⟨s', ?_, hlaid', ?_, ?_⟩
  · intro fuel hfuel
    have hfree := hrun fuel hfuel
    unfold morecore
    simp only [hnu', hmod, hsbrk]
    change (free fuel _ (p + 16) >>= fun s => some (s, s.freep)) = _
    rw [hfree]
    rfl
  · rw [hbrk']
    change s.brk ≤ p + 16 * nu
    omega
  · intro u hu k hk hk'
    have hw := (h.within u (List.mem_append_right _ hu)).2
    rw [hint u hu k hk hk']
    exact setSize_outside _ _ (Or.inl (by omega))

/-- malloc gives a block, or 0 and leaves the heap as it is; its loops end. -/
theorem scan_spec (h : Laid base s F U) (hn : 0 < n) {answers : List (Option Nat)}
    (hsmall : n < 2^27 ∨ answers.head?.join = none ∨ ∃ x ∈ F, 16 * n ≤ x.2)
    (hgrant : Granted s.brk (16 * max 4096 n) answers) :
    ∃ s' a rounds, (Found base s s' a n U ∨ (s' = s ∧ a = 0)) ∧ ∀ fuel, rounds ≤ fuel →
      scan fuel s n s.freep (ptr s.mem s.freep) answers = some (s', a) := by
  obtain ⟨ys, hys, hmem, hlen, hfree⟩ := h.rotate
  rcases scan_round s n answers hys.2.2 hfree rfl with
    ⟨w, q, hw, hq, hnext, hbig, -⟩ | ⟨hnone, hrun⟩
  · -- some block is large enough
    have hfit : ∃ x ∈ F, 16 * n ≤ x.2 := by
      have hqN : q ∈ ((base, 0) :: F).map Prod.fst :=
        (hmem q).mp (hq.elim (fun h => h ▸ List.mem_cons_self) (List.mem_cons_of_mem _))
      obtain ⟨x, hxmem, rfl⟩ := List.mem_map.mp hqN
      rcases List.mem_cons.mp hxmem with hb | hF
      · have hbase := h.sizes (base, 0) List.mem_cons_self
        change 16 * size s.mem base = 0 at hbase
        rw [hb] at hbig
        change n ≤ size s.mem base at hbig
        omega
      · have hsize := h.sizes x (List.mem_cons_of_mem _ (List.mem_append_left _ hF))
        exact ⟨x, hF, by omega⟩
    obtain ⟨s', a, hfound, hrun⟩ := scan_found h hn hfit answers
    exact ⟨s', a, F.length + 1, Or.inl hfound, hrun⟩
  -- the first round over the list finds nothing and uses up its part of the fuel
  have hsplit (fuel rounds : Nat) (hfuel : rounds + (ys.length + 1) ≤ fuel) :
      ∃ k, rounds ≤ k ∧ fuel = k + (ys.length + 1) :=
    ⟨fuel - (ys.length + 1), by omega, by omega⟩
  have hrefused (hhead : answers.head?.join = none) (fuel : Nat) :
      grow fuel s n answers = some (s, 0) := by
    unfold grow
    rw [hhead]
    rfl
  cases answers with
  | nil =>
    refine ⟨s, 0, 0 + (ys.length + 1), Or.inr ⟨rfl, rfl⟩, ?_⟩
    intro fuel hfuel
    obtain ⟨k, -, rfl⟩ := hsplit fuel 0 hfuel
    rw [hrun, hrefused rfl]
  | cons answer rest =>
    cases answer with
    | none =>
      refine ⟨s, 0, 0 + (ys.length + 1), Or.inr ⟨rfl, rfl⟩, ?_⟩
      intro fuel hfuel
      obtain ⟨k, -, rfl⟩ := hsplit fuel 0 hfuel
      rw [hrun, hrefused rfl]
    | some p =>
      obtain ⟨hp, hfit, -⟩ := hgrant
      -- the block that the request needs was in the list, or the request is small
      have hnlt : n < 2^27 := by
        rcases hsmall with hlt | hrefuse | ⟨x, hx, hle⟩
        · exact hlt
        · cases hrefuse
        · have hsize := h.sizes x (List.mem_cons_of_mem _ (List.mem_append_left _ hx))
          have hxys := (hmem x.1).mpr (List.mem_map_of_mem (List.mem_cons_of_mem _ hx))
          have hlt := hnone x.1 (List.mem_cons.mp hxys)
          omega
      obtain ⟨t, hmore, hlaid, hbrk, hint⟩ := morecore_spec h hn hnlt hp hfit
      -- the new memory joins the list, and the next round finds a block
      obtain ⟨z, hz, hzle⟩ := addExtent_large (p, 16 * max 4096 n) F
      have hzle' : 16 * n ≤ z.2 := by
        have : 16 * max 4096 n ≤ z.2 := hzle
        omega
      obtain ⟨s', a, hfound, hscan⟩ := scan_found hlaid hn ⟨z, hz, hzle'⟩ rest
      have hfreep : t.freep ≠ 0 := by
        obtain ⟨y, hy, hyp⟩ := List.mem_map.mp hlaid.entry
        rw [← hyp]
        rcases List.mem_cons.mp hy with hb | hF
        · rw [hb]
          exact hlaid.base_pos
        · have := (hlaid.within y (List.mem_append_left _ hF)).1
          omega
      refine ⟨s', a, (F.length + 1 + ((addExtent (p, 16 * max 4096 n) F).length + 1)) +
        (ys.length + 1), Or.inl ⟨hfound.laid, Nat.le_trans hbrk hfound.brk, ?_⟩, ?_⟩
      · intro u hu k hk hk'
        rw [hfound.intact u hu k hk hk', hint u hu k hk hk']
      · intro fuel hfuel
        obtain ⟨k, hk, rfl⟩ := hsplit fuel _ hfuel
        rw [hrun]
        unfold grow
        change (match morecore k s n (some p) with
          | none => none
          | some (s, p) =>
            if p = 0 then some (s, 0) else scan k s n p (ptr s.mem p) rest) = some (s', a)
        rw [hmore k (by omega)]
        change (if t.freep = 0 then _ else _) = _
        rw [if_neg hfreep]
        exact hscan k (by omega)

end Scan

section Fuel

variable {base fuel : Nat}

theorem place_mono {m : Bytes} {bp p q : Nat} (h : place fuel m bp p = some q) :
    place (fuel + 1) m bp p = some q := by
  induction fuel generalizing p with
  | zero => cases h
  | succ fuel ih =>
    unfold place at h ⊢
    split at h
    · rename_i h1
      rw [if_pos h1]
      exact h
    · rename_i h1
      rw [if_neg h1]
      split at h
      · rename_i h2
        rw [if_pos h2]
        exact h
      · rename_i h2
        rw [if_neg h2]
        exact ih h

theorem free_mono {s t : Heap} {ap : Nat} (h : free fuel s ap = some t) :
    free (fuel + 1) s ap = some t := by
  unfold free at h ⊢
  obtain ⟨p, hp, ht⟩ := Option.bind_eq_some_iff.mp h
  exact Option.bind_eq_some_iff.mpr ⟨p, place_mono hp, ht⟩

theorem morecore_mono {s : Heap} {nu : Nat} {answer : Option Nat} {r : Heap × Nat}
    (h : morecore fuel s nu answer = some r) : morecore (fuel + 1) s nu answer = some r := by
  unfold morecore at h ⊢
  cases answer with
  | none => exact h
  | some p =>
    simp only at h ⊢
    obtain ⟨t, ht, hr⟩ := Option.bind_eq_some_iff.mp h
    exact Option.bind_eq_some_iff.mpr ⟨t, free_mono ht, hr⟩

theorem scan_mono {s : Heap} {n prevp p : Nat} {answers : List (Option Nat)} {r : Heap × Nat}
    (h : scan fuel s n prevp p answers = some r) :
    scan (fuel + 1) s n prevp p answers = some r := by
  induction fuel generalizing s prevp p answers with
  | zero => cases h
  | succ fuel ih =>
    unfold scan at h ⊢
    split at h
    · rename_i hfit
      rw [if_pos hfit]
      exact h
    · rename_i hfit
      rw [if_neg hfit]
      split at h
      · rename_i hp
        rw [if_pos hp]
        cases hm : morecore fuel s n answers.head?.join with
        | none =>
          rw [hm] at h
          cases h
        | some t =>
          rw [hm] at h
          rw [morecore_mono hm]
          simp only at h ⊢
          split at h
          · rename_i h0
            rw [if_pos h0]
            exact h
          · rename_i h0
            rw [if_neg h0]
            exact ih h
      · rename_i hp
        rw [if_neg hp]
        exact ih h

theorem step_mono {s t : System} {e : Call} (h : step fuel base s e = some t) :
    step (fuel + 1) base s e = some t := by
  unfold step at h ⊢
  cases e with
  | malloc nbytes answers =>
    obtain ⟨r, hr, ht⟩ := Option.map_eq_some_iff.mp h
    exact Option.map_eq_some_iff.mpr ⟨r, scan_mono hr, ht⟩
  | free ap =>
    obtain ⟨r, hr, ht⟩ := Option.map_eq_some_iff.mp h
    exact Option.map_eq_some_iff.mpr ⟨r, free_mono hr, ht⟩
  | write a b => exact h

theorem step_mono_le {s t : System} {e : Call} {fuel' : Nat} (hle : fuel ≤ fuel')
    (h : step fuel base s e = some t) : step fuel' base s e = some t := by
  induction hle with
  | refl => exact h
  | step _ ih => exact step_mono ih

end Fuel

section Systems

variable {base : Nat} {s t : System} {F U U' : List (Nat × Nat)}

theorem Laid.perm {h : Heap} (hl : Laid base h F U) (hp : U.Perm U') : Laid base h F U' := by
  have hmem : ∀ x, x ∈ F ++ U' → x ∈ F ++ U := by
    intro x hx
    rcases List.mem_append.mp hx with hx | hx
    · exact List.mem_append_left _ hx
    · exact List.mem_append_right _ (hp.mem_iff.mpr hx)
  have htotal := hl.total
  rw [(hp.map Prod.snd).sum_eq] at htotal
  refine ⟨hl.ring, hl.entry, ?_, hl.spaced, ?_, fun x hx u hu => hl.apart x hx u
    (hp.mem_iff.mpr hu), fun x hx => hl.within x (hmem x hx), fun x hx => hl.large x (hmem x hx),
    htotal, hl.base_pos, hl.above, hl.fits, fun x hx => hl.inside x (hmem x hx)⟩
  · intro x hx
    rcases List.mem_cons.mp hx with hb | hx
    · exact hl.sizes x (hb ▸ List.mem_cons_self)
    · exact hl.sizes x (List.mem_cons_of_mem _ (hmem x hx))
  · exact hp.pairwise hl.used (fun hxy => Apart.symm hxy)

/-- A write that changes no header. -/
theorem Laid.touch {h : Heap} (hl : Laid base h F U) {m : Bytes}
    (hkept : ∀ x ∈ (base, 0) :: (F ++ U), Kept h.mem m x.1) :
    Laid base { h with mem := m } F U := by
  refine ⟨?_, hl.entry, ?_, hl.spaced, hl.used, hl.apart, hl.within, hl.large, hl.total,
    hl.base_pos, hl.above, hl.fits, hl.inside⟩
  · apply Seg.kept hl.ring
    intro y hy
    apply hkept
    rw [← List.cons_append]
    exact List.mem_append_left _ hy
  · intro x hx
    rw [(hkept x hx).size]
    exact hl.sizes x hx

/-- The block that a user's block sits in, header included. -/
def blockOf (m : Bytes) (u : Nat × Nat) : Nat × Nat := (u.1 - 16, 16 * size m (u.1 - 16))

/-- The heap after the first call is laid out, and every block in use is large enough. -/
structure Tidy (base : Nat) (s : System) : Prop where
  laid : ∃ F, Laid base (start base s.heap) F
    (s.used.map (blockOf (start base s.heap).mem))
  room : ∀ u ∈ s.used, 16 ≤ u.1 ∧ u.1 + u.2 ≤ (u.1 - 16) + 16 * size s.heap.mem (u.1 - 16)
  idle : s.heap.freep = 0 → s.used = [] ∧ s.heap.got = 0

theorem start_of_ne {h : Heap} (hf : h.freep ≠ 0) : start base h = h := if_neg hf

theorem Laid.freep_ne {h : Heap} (hl : Laid base h F U) : h.freep ≠ 0 := by
  obtain ⟨y, hy, hyp⟩ := List.mem_map.mp hl.entry
  rw [← hyp]
  rcases List.mem_cons.mp hy with hb | hF
  · rw [hb]
    exact hl.base_pos
  · have := (hl.within y (List.mem_append_left _ hF)).1
    omega

theorem boot_tidy (mem : Bytes) {brk : Nat} (hbase : base ≠ 0) (habove : base + 16 ≤ brk)
    (hfits : brk ≤ 2^36) : Tidy base (boot mem brk) := by
  have hlt : base < 2^64 := by omega
  have hptr : ptr (setSize (setPtr mem base base) base 0) base = base := by
    rw [ptr_setSize, ptr_setPtr _ _ hlt]
  have hsize : size (setSize (setPtr mem base base) base 0) base = 0 :=
    size_setSize _ _ (by decide)
  have hstart : start base (boot mem brk).heap =
      ⟨setSize (setPtr mem base base) base 0, base, brk, 0, []⟩ := if_pos rfl
  refine ⟨⟨[], ?_⟩, nofun, fun _ => ⟨rfl, rfl⟩⟩
  rw [hstart]
  refine ⟨⟨rfl, hbase, hptr⟩, List.mem_cons_self, ?_, List.Pairwise.nil, List.Pairwise.nil, nofun,
    nofun, nofun, rfl, hbase, habove, hfits, nofun⟩
  intro x hx
  rw [List.mem_singleton.mp hx]
  change 16 * size (setSize (setPtr mem base base) base 0) base = 0
  rw [hsize]

/-- The blocks are where they were when their sizes are. -/
theorem blocks_same {used : List (Nat × Nat)} {m m' : Bytes}
    (h : ∀ x ∈ used.map (blockOf m), 16 * size m' x.1 = x.2) :
    used.map (blockOf m') = used.map (blockOf m) := by
  apply List.map_congr_left
  intro u hu
  have := h _ (List.mem_map_of_mem hu)
  change 16 * size m' (u.1 - 16) = 16 * size m (u.1 - 16) at this
  unfold blockOf
  rw [this]

/-- Following the list from `base` never leaves it. -/
theorem Laid.iterate {h : Heap} (hl : Laid base h F U) (k : Nat) :
    (ptr h.mem)^[k] base ∈ ((base, 0) :: F).map Prod.fst := by
  induction k with
  | zero => exact List.mem_cons_self
  | succ k ih =>
    rw [Function.iterate_succ_apply']
    obtain ⟨x, hx, hxk⟩ := List.mem_map.mp ih
    obtain ⟨pre, post, hsplit⟩ := List.append_of_mem hx
    have hseg := (hl.split hsplit).2
    rw [← hxk]
    cases post with
    | nil =>
      have hnext : ptr h.mem x.1 = base := hseg
      rw [hnext]
      exact List.mem_cons_self
    | cons y post =>
      have hnext : ptr h.mem x.1 = y.1 := hseg.1
      rw [hnext, hsplit]
      exact List.mem_map_of_mem (List.mem_append_right _ (List.mem_cons_of_mem _
        List.mem_cons_self))

/-- The argument of sbrk stays below 2^31, or sbrk is not needed, or refuses. -/
def Served (base : Nat) (s : System) (nbytes : Nat) (answers : List (Option Nat)) : Prop :=
  let mem := (start base s.heap).mem
  nbytes + 31 < 2^31 ∨ answers.head?.join = none ∨
    ∃ k, unitsOf nbytes ≤ size mem ((ptr mem)^[k] base)

theorem Laid.served {h : Heap} (hl : Laid base h F U) {n : Nat} (hn : 0 < n)
    (hbig : ∃ k, n ≤ size h.mem ((ptr h.mem)^[k] base)) : ∃ x ∈ F, 16 * n ≤ x.2 := by
  obtain ⟨k, hk⟩ := hbig
  obtain ⟨x, hx, hxk⟩ := List.mem_map.mp (hl.iterate k)
  rw [← hxk] at hk
  rcases List.mem_cons.mp hx with rfl | hxF
  · have hbase := hl.sizes (base, 0) List.mem_cons_self
    change 16 * size h.mem base = 0 at hbase
    change n ≤ size h.mem base at hk
    omega
  · have hsize := hl.sizes x (List.mem_cons_of_mem _ (List.mem_append_left _ hxF))
    exact ⟨x, hxF, by omega⟩

/-- What a call leaves alone: the blocks in use and their bytes, but for the block that is
freed or the byte that is written. -/
def Preserves (s t : System) : Call → Prop
  | .malloc _ _ => ∀ u ∈ s.used, u ∈ t.used ∧
      ∀ k, u.1 - 16 ≤ k → k < (u.1 - 16) + 16 * size s.heap.mem (u.1 - 16) →
        t.heap.mem k = s.heap.mem k
  | .free ap => ∀ u ∈ s.used, u.1 ≠ ap → u ∈ t.used ∧
      ∀ k, u.1 - 16 ≤ k → k < (u.1 - 16) + 16 * size s.heap.mem (u.1 - 16) →
        t.heap.mem k = s.heap.mem k
  | .write a _ => t.used = s.used ∧ ∀ k, k ≠ a → t.heap.mem k = s.heap.mem k

theorem malloc_tidy (h : Tidy base s) {nbytes : Nat} {answers : List (Option Nat)}
    (hn : nbytes < 2^32) (hserved : Served base s nbytes answers)
    (hgrant : Granted s.heap.brk (asked nbytes) answers) :
    ∃ t rounds, (∀ fuel, rounds ≤ fuel → step fuel base s (.malloc nbytes answers) = some t) ∧
      Tidy base t ∧ Preserves s t (.malloc nbytes answers) := by
  obtain ⟨F, hl⟩ := h.laid
  obtain ⟨n, hndef⟩ : ∃ n, n = unitsOf nbytes := ⟨_, rfl⟩
  have hnval : n = (nbytes + 15) / 16 + 1 := by
    rw [hndef]
    change ((nbytes + 16 - 1) / 16 + 1) % 2^32 = _
    omega
  have hbrk : (start base s.heap).brk = s.heap.brk := by
    unfold start
    split
    · rfl
    · rfl
  have hgrant' : Granted (start base s.heap).brk (16 * max 4096 n) answers := by
    rw [hbrk, hndef]
    exact hgrant
  have hsmall : n < 2^27 ∨ answers.head?.join = none ∨ ∃ x ∈ F, 16 * n ≤ x.2 := by
    rcases hserved with hlt | hrefuse | hbig
    · exact Or.inl (by omega)
    · exact Or.inr (Or.inl hrefuse)
    · rw [← hndef] at hbig
      exact Or.inr (Or.inr (hl.served (by omega) hbig))
  obtain ⟨s', a, rounds, hres, hrun⟩ := scan_spec hl (by omega) hsmall hgrant'
  have hstep : ∀ fuel, rounds ≤ fuel → step fuel base s (.malloc nbytes answers) =
      some ⟨s', if a = 0 then s.used else (a, nbytes) :: s.used⟩ := by
    intro fuel hfuel
    have hmalloc : malloc fuel base s.heap nbytes answers = some (s', a) := by
      unfold malloc
      rw [← hndef]
      exact hrun fuel hfuel
    unfold step
    simp only [hmalloc, Option.map_some]
  -- while the list is not there, no block is in use
  have hold : ∀ u ∈ s.used, (start base s.heap).mem = s.heap.mem := by
    intro u hu
    rw [start_of_ne (fun h0 => ?_)]
    have := (h.idle h0).1
    rw [this] at hu
    cases hu
  rcases hres with hfound | ⟨rfl, rfl⟩
  · obtain ⟨⟨F', u, ha, hu, hlaid⟩, -, hint⟩ := hfound
    have ha0 : a ≠ 0 := by omega
    have hfreep := hlaid.freep_ne
    have hsizeu : 16 * size s'.mem u.1 = u.2 :=
      hlaid.sizes u (List.mem_cons_of_mem _ (List.mem_append_right _ List.mem_cons_self))
    have hblock : blockOf s'.mem (a, nbytes) = u := by
      unfold blockOf
      change (a - 16, 16 * size s'.mem (a - 16)) = u
      rw [ha, Nat.add_sub_cancel, hsizeu]
    have hblocks : s.used.map (blockOf s'.mem) = s.used.map (blockOf (start base s.heap).mem) :=
      blocks_same (fun x hx => hlaid.sizes x (List.mem_cons_of_mem _
        (List.mem_append_right _ (List.mem_cons_of_mem _ hx))))
    refine ⟨⟨s', (a, nbytes) :: s.used⟩, rounds, ?_, ⟨⟨F', ?_⟩, ?_, ?_⟩, ?_⟩
    · intro fuel hfuel
      rw [hstep fuel hfuel, if_neg ha0]
    · change Laid base (start base s') F' (((a, nbytes) :: s.used).map
        (blockOf (start base s').mem))
      rw [start_of_ne hfreep, List.map_cons, hblock, hblocks]
      exact hlaid
    · intro v hv
      rcases List.mem_cons.mp hv with rfl | hv
      · change 16 ≤ a ∧ a + nbytes ≤ (a - 16) + 16 * size s'.mem (a - 16)
        rw [ha, Nat.add_sub_cancel, hsizeu, hu]
        omega
      · have hroom := h.room v hv
        have hsame : size s'.mem (v.1 - 16) = size s.heap.mem (v.1 - 16) := by
          have hb := List.map_inj_left.mp hblocks v hv
          have hb2 := congrArg Prod.snd hb
          change 16 * size s'.mem (v.1 - 16) =
            16 * size (start base s.heap).mem (v.1 - 16) at hb2
          rw [hold v hv] at hb2
          omega
        change 16 ≤ v.1 ∧ v.1 + v.2 ≤ (v.1 - 16) + 16 * size s'.mem (v.1 - 16)
        rw [hsame]
        exact hroom
    · intro h0
      exact absurd h0 hfreep
    · intro v hv
      refine ⟨List.mem_cons_of_mem _ hv, ?_⟩
      intro k hk hk'
      have hkept := hint _ (List.mem_map_of_mem hv) k hk (by
        unfold blockOf
        rw [hold v hv]
        exact hk')
      rw [hold v hv] at hkept
      exact hkept
  · have hfreep := hl.freep_ne
    refine ⟨⟨start base s.heap, s.used⟩, rounds, ?_, ⟨⟨F, ?_⟩, ?_, ?_⟩, ?_⟩
    · intro fuel hfuel
      rw [hstep fuel hfuel, if_pos rfl]
    · change Laid base (start base (start base s.heap)) F _
      rw [start_of_ne hfreep]
      exact hl
    · intro v hv
      change 16 ≤ v.1 ∧ v.1 + v.2 ≤ (v.1 - 16) + 16 * size (start base s.heap).mem (v.1 - 16)
      rw [hold v hv]
      exact h.room v hv
    · intro h0
      exact absurd h0 hfreep
    · intro v hv
      refine ⟨hv, ?_⟩
      intro k _ _
      change (start base s.heap).mem k = _
      rw [hold v hv]

theorem used_live (h : Tidy base s) {u : Nat × Nat} (hu : u ∈ s.used) : s.heap.freep ≠ 0 := by
  intro h0
  rw [(h.idle h0).1] at hu
  cases hu

theorem free_tidy (h : Tidy base s) {ap : Nat} (hap : ∃ u ∈ s.used, u.1 = ap) :
    ∃ t rounds, (∀ fuel, rounds ≤ fuel → step fuel base s (.free ap) = some t) ∧
      Tidy base t ∧ Preserves s t (.free ap) := by
  obtain ⟨u, hu, rfl⟩ := hap
  obtain ⟨F, hl⟩ := h.laid
  rw [start_of_ne (used_live h hu)] at hl
  obtain ⟨l₁, l₂, hsplit⟩ := List.append_of_mem hu
  -- no other block in use has the address
  have hothers : ∀ v ∈ l₁ ++ l₂, v.1 ≠ u.1 := by
    have hpair := hl.used
    rw [hsplit, List.pairwise_map, List.pairwise_append] at hpair
    obtain ⟨-, htail, hcross⟩ := hpair
    have hlarge := hl.large (blockOf s.heap.mem u)
      (List.mem_append_right _ (List.mem_map_of_mem hu))
    intro v hv heq
    have hself (hap : Apart (blockOf s.heap.mem v) (blockOf s.heap.mem u)) : False := by
      unfold Apart blockOf at hap
      unfold blockOf at hlarge
      rw [heq] at hap
      simp only at hap hlarge
      omega
    rcases List.mem_append.mp hv with hv | hv
    · exact hself (hcross v hv u List.mem_cons_self)
    · exact hself ((List.pairwise_cons.mp htail).1 v hv).symm
  have hfilter : s.used.filter (fun v => v.1 ≠ u.1) = l₁ ++ l₂ := by
    rw [hsplit, List.filter_append, List.filter_cons_of_neg (by simp)]
    rw [List.filter_eq_self.mpr (fun v hv => by
        simpa using hothers v (List.mem_append_left _ hv)),
      List.filter_eq_self.mpr (fun v hv => by
        simpa using hothers v (List.mem_append_right _ hv))]
  have hperm : (s.used.map (blockOf s.heap.mem)).Perm
      (blockOf s.heap.mem u :: (l₁ ++ l₂).map (blockOf s.heap.mem)) := by
    rw [hsplit]
    have hmiddle : (l₁ ++ u :: l₂).Perm (u :: (l₁ ++ l₂)) := List.perm_middle
    exact hmiddle.map _
  obtain ⟨s', hrun, hlaid, -, -, -, hint⟩ := free_spec (hl.perm hperm)
  have hapeq : (blockOf s.heap.mem u).1 + 16 = u.1 := by
    have := (h.room u hu).1
    change u.1 - 16 + 16 = u.1
    omega
  rw [hapeq] at hrun
  have hfreep := hlaid.freep_ne
  have hblocks : (l₁ ++ l₂).map (blockOf s'.mem) = (l₁ ++ l₂).map (blockOf s.heap.mem) :=
    blocks_same (fun x hx => hlaid.sizes x (List.mem_cons_of_mem _ (List.mem_append_right _ hx)))
  have hmem : ∀ v ∈ l₁ ++ l₂, v ∈ s.used := by
    intro v hv
    rw [hsplit]
    rcases List.mem_append.mp hv with hv | hv
    · exact List.mem_append_left _ hv
    · exact List.mem_append_right _ (List.mem_cons_of_mem _ hv)
  refine ⟨⟨s', l₁ ++ l₂⟩, F.length + 1, ?_, ⟨⟨addExtent (blockOf s.heap.mem u) F, ?_⟩, ?_, ?_⟩,
    ?_⟩
  · intro fuel hfuel
    unfold step
    simp only [hrun fuel hfuel, Option.map_some, hfilter]
  · change Laid base (start base s') _ ((l₁ ++ l₂).map (blockOf (start base s').mem))
    rw [start_of_ne hfreep, hblocks]
    exact hlaid
  · intro v hv
    have hb2 := congrArg Prod.snd (List.map_inj_left.mp hblocks v hv)
    change 16 * size s'.mem (v.1 - 16) = 16 * size s.heap.mem (v.1 - 16) at hb2
    change 16 ≤ v.1 ∧ v.1 + v.2 ≤ (v.1 - 16) + 16 * size s'.mem (v.1 - 16)
    rw [hb2]
    exact h.room v (hmem v hv)
  · intro h0
    exact absurd h0 hfreep
  · intro v hv hne
    have hv' : v ∈ l₁ ++ l₂ := by
      rw [← hfilter]
      exact List.mem_filter.mpr ⟨hv, by simpa using hne⟩
    exact ⟨hv', fun k hk hk' => hint _ (List.mem_map_of_mem hv') k hk hk'⟩

theorem write_tidy (h : Tidy base s) {a : Nat} (b : UInt8)
    (ha : ∃ u ∈ s.used, u.1 ≤ a ∧ a < u.1 + u.2) :
    ∃ t rounds, (∀ fuel, rounds ≤ fuel → step fuel base s (.write a b) = some t) ∧
      Tidy base t ∧ Preserves s t (.write a b) := by
  obtain ⟨u, hu, hlo, hhi⟩ := ha
  obtain ⟨F, hl⟩ := h.laid
  have hfreep := used_live h hu
  rw [start_of_ne hfreep] at hl
  have hroom := h.room u hu
  have hother (k : Nat) (hk : k ≠ a) : Function.update s.heap.mem a b k = s.heap.mem k :=
    Function.update_of_ne hk _ _
  -- the byte is in no header
  have hkept : ∀ x ∈ (base, 0) :: (F ++ s.used.map (blockOf s.heap.mem)),
      Kept s.heap.mem (Function.update s.heap.mem a b) x.1 := by
    have huU : blockOf s.heap.mem u ∈ s.used.map (blockOf s.heap.mem) := List.mem_map_of_mem hu
    have hapart (x : Nat × Nat) (hx : x ∈ F ++ s.used.map (blockOf s.heap.mem))
        (hap : Apart x (blockOf s.heap.mem u)) : a < x.1 ∨ x.1 + 16 ≤ a := by
      have := hl.large x hx
      unfold Apart blockOf at hap
      simp only at hap
      omega
    intro x hx k hk hk'
    apply hother
    rintro rfl
    rcases List.mem_cons.mp hx with hb | hx
    · have hw := (hl.within _ (List.mem_append_right _ huU)).1
      change base + 16 ≤ u.1 - 16 at hw
      rw [hb] at hk'
      change k < base + 16 at hk'
      omega
    · rcases List.mem_append.mp hx with hxF | hxU
      · have := hapart x hx (hl.apart x hxF _ huU)
        omega
      · by_cases hxu : x = blockOf s.heap.mem u
        · rw [hxu] at hk'
          change k < u.1 - 16 + 16 at hk'
          omega
        · have : Std.Symm Apart := ⟨fun _ _ => Apart.symm⟩
          have := hapart x hx (hl.used.forall hxU huU hxu)
          omega
  have hblocks : s.used.map (blockOf (Function.update s.heap.mem a b)) =
      s.used.map (blockOf s.heap.mem) :=
    blocks_same (fun x hx =>
      (hl.touch hkept).sizes x (List.mem_cons_of_mem _ (List.mem_append_right _ hx)))
  refine ⟨⟨{ s.heap with mem := Function.update s.heap.mem a b }, s.used⟩, 0, fun _ _ => rfl,
    ⟨⟨F, ?_⟩, ?_, ?_⟩, rfl, hother⟩
  · have hstart : start base { s.heap with mem := Function.update s.heap.mem a b } =
        { s.heap with mem := Function.update s.heap.mem a b } := start_of_ne hfreep
    rw [hstart]
    change Laid base _ F (s.used.map (blockOf (Function.update s.heap.mem a b)))
    rw [hblocks]
    exact hl.touch hkept
  · intro v hv
    have hb2 := congrArg Prod.snd (List.map_inj_left.mp hblocks v hv)
    change 16 * size (Function.update s.heap.mem a b) (v.1 - 16) =
      16 * size s.heap.mem (v.1 - 16) at hb2
    change 16 ≤ v.1 ∧ v.1 + v.2 ≤
      (v.1 - 16) + 16 * size (Function.update s.heap.mem a b) (v.1 - 16)
    rw [hb2]
    exact h.room v hv
  · intro h0
    exact absurd h0 hfreep

/-- Requests of any size, as long as sbrk gives what it is asked for. -/
def Obtains (base : Nat) (s : System) : Call → Prop
  | .malloc nbytes answers => nbytes < 2^32 ∧ Served base s nbytes answers ∧
      Granted s.heap.brk (asked nbytes) answers
  | .free ap => ∃ u ∈ s.used, u.1 = ap
  | .write a _ => ∃ u ∈ s.used, u.1 ≤ a ∧ a < u.1 + u.2

theorem Proper.obtains (base : Nat) {s : System} {e : Call} (h : Proper s e) :
    Obtains base s e := by
  cases e with
  | malloc nbytes answers =>
    have hn := h.1
    exact ⟨by omega, Or.inl (by omega), h.2⟩
  | free ap => exact h
  | write a b => exact h

/-- Every such call ends, and keeps the heap as it should be. -/
theorem step_tidy (h : Tidy base s) (e : Call) (he : Obtains base s e) :
    ∃ t rounds, (∀ fuel, rounds ≤ fuel → step fuel base s e = some t) ∧ Tidy base t ∧
      Preserves s t e := by
  cases e with
  | malloc nbytes answers => exact malloc_tidy h he.1 he.2.1 he.2.2
  | free ap => exact free_tidy h he
  | write a b => exact write_tidy h b he

end Systems

section Main

variable {base : Nat} {s : System}

/-- The free list is one cycle through `base` in the order of addresses, free blocks do not
touch, and all blocks are apart; together they are the memory that sbrk gave. -/
structure WellFormed (base : Nat) (s : System) (free : List Nat) : Prop where
  cycle : Seg (ptr s.heap.mem) 0 base (base :: free) base
  entry : s.heap.freep ∈ base :: free
  ordered : (base :: free).Pairwise (· < ·)
  base_size : size s.heap.mem base = 0
  nonempty : ∀ a ∈ free, 0 < size s.heap.mem a
  coalesced : free.Pairwise (fun a b => a + 16 * size s.heap.mem a < b)
  apart : ∀ a ∈ free, ∀ u ∈ s.used, Apart (a, 16 * size s.heap.mem a) (blockOf s.heap.mem u)
  used_apart : s.used.Pairwise (fun u v => Apart (blockOf s.heap.mem u) (blockOf s.heap.mem v))
  usable : ∀ u ∈ s.used, 16 ≤ u.1 ∧
    u.1 + u.2 ≤ (u.1 - 16) + 16 * size s.heap.mem (u.1 - 16)
  total : 16 * ((free.map (size s.heap.mem)).sum +
    (s.used.map (fun u => size s.heap.mem (u.1 - 16))).sum) = s.heap.got

theorem Tidy.wellFormed (h : Tidy base s) (hfreep : s.heap.freep ≠ 0) :
    ∃ free, WellFormed base s free := by
  obtain ⟨F, hl⟩ := h.laid
  rw [start_of_ne hfreep] at hl
  have hF : ∀ x ∈ F, 16 * size s.heap.mem x.1 = x.2 := fun x hx =>
    hl.sizes x (List.mem_cons_of_mem _ (List.mem_append_left _ hx))
  have hFsum : ∀ L : List (Nat × Nat), (∀ x ∈ L, 16 * size s.heap.mem x.1 = x.2) →
      16 * ((L.map Prod.fst).map (size s.heap.mem)).sum = (L.map Prod.snd).sum := by
    intro L hL
    induction L with
    | nil => rfl
    | cons x L ih =>
      have hx := hL x List.mem_cons_self
      have ih' := ih (fun y hy => hL y (List.mem_cons_of_mem _ hy))
      simp only [List.map_cons, List.sum_cons]
      omega
  refine ⟨F.map Prod.fst, hl.ring, hl.entry, ?_, ?_, ?_, ?_, ?_, ?_, h.room, ?_⟩
  · have hpairs := hl.spaced_base
    unfold Spaced at hpairs
    change (((base, 0) :: F).map Prod.fst).Pairwise (· < ·)
    rw [List.pairwise_map]
    exact hpairs.imp (fun hxy => by omega)
  · have hbase := hl.sizes (base, 0) List.mem_cons_self
    change 16 * size s.heap.mem base = 0 at hbase
    omega
  · intro a ha
    obtain ⟨x, hx, rfl⟩ := List.mem_map.mp ha
    have := hF x hx
    have := hl.large x (List.mem_append_left _ hx)
    omega
  · rw [List.pairwise_map]
    refine hl.spaced.imp_of_mem ?_
    intro x y hx _ hxy
    have := hF x hx
    omega
  · intro a ha u hu
    obtain ⟨x, hx, rfl⟩ := List.mem_map.mp ha
    rw [hF x hx]
    exact hl.apart x hx _ (List.mem_map_of_mem hu)
  · have hpairs := hl.used
    rw [List.pairwise_map] at hpairs
    exact hpairs
  · have hused := hFsum (s.used.map (blockOf s.heap.mem)) (fun x hx =>
      hl.sizes x (List.mem_cons_of_mem _ (List.mem_append_right _ hx)))
    have hfree := hFsum F hF
    have htotal := hl.total
    rw [List.map_map, List.map_map] at hused
    change 16 * (s.used.map (fun u => size s.heap.mem (u.1 - 16))).sum = _ at hused
    omega

/-- After every sequence of malloc and free the heap is well formed, and the next call ends and
leaves the other blocks in use alone. -/
theorem heap_wellFormed (mem : Bytes) (brk : Nat) (hbase : base ≠ 0) (habove : base + 16 ≤ brk)
    (hfits : brk ≤ 2^36) (fuel : Nat) (es : List Call) (t : System)
    (hok : Guarded (step fuel base) Proper (boot mem brk) es)
    (hrun : run (step fuel base) (boot mem brk) es = some t) :
    (t.heap.freep = 0 → t.used = [] ∧ t.heap.got = 0) ∧
    (t.heap.freep ≠ 0 → ∃ free, WellFormed base t free) ∧
    ∀ e, Proper t e → ∃ t' rounds,
      (∀ fuel', rounds ≤ fuel' → step fuel' base t e = some t') ∧ Preserves t t' e := by
  have htidy : Tidy base t := by
    refine guarded_run_invariant (step fuel base) Proper (Tidy base) ?_ _ t es
      (boot_tidy mem hbase habove hfits) hok hrun
    intro s e t hs hproper ht
    obtain ⟨t', rounds, hends, htidy, -⟩ := step_tidy hs e (hproper.obtains base)
    have h1 := hends (max rounds fuel) (Nat.le_max_left _ _)
    rw [step_mono_le (Nat.le_max_right rounds fuel) ht] at h1
    cases h1
    exact htidy
  refine ⟨htidy.idle, htidy.wellFormed, ?_⟩
  intro e he
  obtain ⟨t', rounds, hends, -, hpres⟩ := step_tidy htidy e (he.obtains base)
  exact ⟨t', rounds, hends, hpres⟩

/-- Three blocks, the middle one freed before its neighbours; a request that the heap cannot
meet, when sbrk refuses. -/
def heapCalls : List Call :=
  [.malloc 100 [some 8192], .malloc 20 [], .malloc 1 [], .write 73570 7, .free 73568, .free 73616,
    .malloc 100000 [none], .free 73536]

theorem heap_wellFormed_heapCalls :
    ∃ t, run (step 8 4096) (boot zeroBytes 8192) heapCalls = some t ∧
    t.used = [] ∧ ∃ free, WellFormed 4096 t free := by
  have hok : Guarded (step 8 4096) Proper (boot zeroBytes 8192) heapCalls := by
    decide +kernel
  have hrun : (run (step 8 4096) (boot zeroBytes 8192) heapCalls).map
      (fun t => (t.used, decide (t.heap.freep = 0))) = some ([], false) := by decide +kernel
  obtain ⟨t, ht, hvals⟩ := Option.map_eq_some_iff.mp hrun
  obtain ⟨hused, hfreep⟩ := Prod.mk.inj hvals
  have hall := @heap_wellFormed 4096 zeroBytes 8192 (by decide) (by decide) (by decide) 8
    heapCalls t hok ht
  exact ⟨t, ht, hused, hall.2.1 (of_decide_eq_false hfreep)⟩

/-- The bytes of a block in use that are in no memory sbrk gave. -/
def Beyond (s : System) : Prop :=
  ∃ u ∈ s.used, ∃ k, u.1 ≤ k ∧ k < u.1 + u.2 ∧ ∀ g ∈ s.heap.grants, k < g.1 ∨ g.1 + g.2 ≤ k

theorem Tidy.not_beyond (h : Tidy base s) : ¬Beyond s := by
  rintro ⟨u, hu, k, hlo, hhi, hnone⟩
  obtain ⟨F, hl⟩ := h.laid
  rw [start_of_ne (used_live h hu)] at hl
  have hroom := h.room u hu
  obtain ⟨g, hg, hgk⟩ := hl.inside (blockOf s.heap.mem u)
    (List.mem_append_right _ (List.mem_map_of_mem hu)) k
    (by change u.1 - 16 ≤ k; omega)
    (by change k < (u.1 - 16) + 16 * size s.heap.mem (u.1 - 16); omega)
  have hout := hnone g hg
  omega

/-- In every run in which malloc asks sbrk for less than 2^31 bytes, or does not need it, every
byte of every block lies in memory that sbrk gave. -/
theorem malloc_obtained (mem : Bytes) (brk : Nat) (hbase : base ≠ 0) (habove : base + 16 ≤ brk)
    (hfits : brk ≤ 2^36) (fuel : Nat) (es : List Call) (t : System)
    (hok : Guarded (step fuel base) (Obtains base) (boot mem brk) es)
    (hrun : run (step fuel base) (boot mem brk) es = some t) :
    ∀ u ∈ t.used, ∀ k, u.1 ≤ k → k < u.1 + u.2 →
      ∃ g ∈ t.heap.grants, g.1 ≤ k ∧ k < g.1 + g.2 := by
  have htidy : Tidy base t := by
    refine guarded_run_invariant (step fuel base) (Obtains base) (Tidy base) ?_ _ t es
      (boot_tidy mem hbase habove hfits) hok hrun
    intro s e t hs hobtains ht
    obtain ⟨t', rounds, hends, htidy, -⟩ := step_tidy hs e hobtains
    have h1 := hends (max rounds fuel) (Nat.le_max_left _ _)
    rw [step_mono_le (Nat.le_max_right rounds fuel) ht] at h1
    cases h1
    exact htidy
  intro u hu k hlo hhi
  by_contra hnone
  refine htidy.not_beyond ⟨u, hu, k, hlo, hhi, ?_⟩
  intro g hg
  by_contra hin
  exact hnone ⟨g, hg, by omega⟩

/-- The program's first request, for 100 bytes. -/
theorem malloc_obtained_first : ∃ t,
    run (step 8 4096) (boot zeroBytes 8192) [.malloc 100 [some 8192]] = some t ∧
    t.used = [(73616, 100)] ∧ ∀ u ∈ t.used, ∀ k, u.1 ≤ k → k < u.1 + u.2 →
      ∃ g ∈ t.heap.grants, g.1 ≤ k ∧ k < g.1 + g.2 := by
  have hok : Guarded (step 8 4096) (Obtains 4096) (boot zeroBytes 8192)
      [.malloc 100 [some 8192]] :=
    ⟨⟨by decide, Or.inl (by decide), by decide +kernel⟩, fun _ _ => trivial⟩
  have hrun : (run (step 8 4096) (boot zeroBytes 8192) [.malloc 100 [some 8192]]).map
      (fun t => t.used) = some [(73616, 100)] := by decide +kernel
  obtain ⟨t, ht, hused⟩ := Option.map_eq_some_iff.mp hrun
  exact ⟨t, ht, hused, @malloc_obtained 4096 zeroBytes 8192 (by decide) (by decide)
    (by decide) 8 _ t hok ht⟩

/-- `malloc(0xffffffff)`: sbrk is asked for 16 bytes. -/
theorem malloc_beyond : ∃ t,
    run (step 8 4096) (boot zeroBytes 8192) [.malloc (2^32 - 1) [some 8192]] = some t ∧
    t.heap.grants = [(8192, 16)] ∧ t.used = [(8208, 2^32 - 1)] ∧ Beyond t := by
  have hrun : (run (step 8 4096) (boot zeroBytes 8192) [.malloc (2^32 - 1) [some 8192]]).map
      (fun t => (t.heap.grants, t.used)) = some ([(8192, 16)], [(8208, 2^32 - 1)]) := by
    decide +kernel
  obtain ⟨t, ht, hvals⟩ := Option.map_eq_some_iff.mp hrun
  obtain ⟨hgrants, hused⟩ := Prod.mk.inj hvals
  refine ⟨t, ht, hgrants, hused, (8208, 2^32 - 1), ?_, 8208, Nat.le_refl _, by decide, ?_⟩
  · rw [hused]
    exact List.mem_singleton.mpr rfl
  · intro g hg
    rw [hgrants] at hg
    rw [List.mem_singleton.mp hg]
    exact Or.inr (by decide)

end Main

end Xv6Labs.Umalloc
