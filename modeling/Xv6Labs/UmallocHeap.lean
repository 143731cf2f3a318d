import Xv6Labs.UmallocCode
import Xv6Labs.Extents
import Xv6Labs.PointerChain

/-! The heap of malloc and free: the free blocks are a list of spaced extents behind `base`,
the blocks in use are apart from them and from each other. -/
namespace Xv6Labs.Umalloc

section Fields

variable {m m' : Bytes} {p q k v : Nat}

/-- The header at `p` is the same. -/
def Kept (m m' : Bytes) (p : Nat) : Prop := ∀ k, p ≤ k → k < p + 16 → m' k = m k

theorem Kept.ptr (h : Kept m m' p) : ptr m' p = ptr m p :=
  load_congr (fun k hk hk' => h k hk (by omega))

theorem Kept.size (h : Kept m m' p) : size m' p = size m p :=
  load_congr (fun k hk hk' => h k (by omega) (by omega))

theorem ptr_setPtr (m : Bytes) (p : Nat) (hv : v < 2^64) : ptr (setPtr m p v) p = v :=
  load_store_of_lt m p hv

theorem size_setSize (m : Bytes) (p : Nat) (hv : v < 2^32) : size (setSize m p v) p = v :=
  load_store_of_lt m (p + 8) hv

@[simp] theorem size_setPtr (m : Bytes) (p v : Nat) : size (setPtr m p v) p = size m p :=
  load_store_ne m v (Or.inr (Nat.le_refl _))

@[simp] theorem ptr_setSize (m : Bytes) (p v : Nat) : ptr (setSize m p v) p = ptr m p :=
  load_store_ne m v (Or.inl (Nat.le_refl _))

theorem setPtr_outside (m : Bytes) (v : Nat) (hk : k < p ∨ p + 16 ≤ k) : setPtr m p v k = m k :=
  store_outside 8 m v (by omega)

theorem setSize_outside (m : Bytes) (v : Nat) (hk : k < p ∨ p + 16 ≤ k) :
    setSize m p v k = m k :=
  store_outside 4 m v (by omega)

/-- Two headers do not overlap. -/
def Away (p q : Nat) : Prop := p + 16 ≤ q ∨ q + 16 ≤ p

theorem setPtr_kept (m : Bytes) (v : Nat) (h : Away q p) : Kept m (setPtr m p v) q := by
  intro k hk hk'
  unfold Away at h
  exact setPtr_outside m v (by omega)

theorem setSize_kept (m : Bytes) (v : Nat) (h : Away q p) : Kept m (setSize m p v) q := by
  intro k hk hk'
  unfold Away at h
  exact setSize_outside m v (by omega)

theorem Kept.trans {m'' : Bytes} (h : Kept m m' p) (h' : Kept m' m'' p) : Kept m m'' p :=
  fun k hk hk' => (h' k hk hk').trans (h k hk hk')

theorem joinDown_outside (m : Bytes) (q : Nat) (hk : k < p ∨ p + 16 ≤ k) :
    joinDown m q p k = m k := by
  unfold joinDown
  split
  · rw [setPtr_outside _ _ hk, setSize_outside _ _ hk]
  · exact setPtr_outside _ _ hk

theorem joinDown_kept (m : Bytes) (q : Nat) {r : Nat} (h : Away r p) :
    Kept m (joinDown m q p) r := by
  intro k hk hk'
  unfold Away at h
  exact joinDown_outside m q (by omega)

/-- The two joins of free are the same but for the block that stays. -/
theorem joinUp_eq (m : Bytes) (bp p : Nat) (h : Away p bp) :
    joinUp m bp p = joinDown m (ptr m p) bp := by
  unfold joinUp joinDown HEADER
  have hp (v : Nat) : ptr (setSize m bp v) p = ptr m p := (setSize_kept m v h).ptr
  split
  · simp only [hp]
  · rfl

end Fields

section Rings

variable {m : Bytes} {base q : Nat} {x : Nat × Nat} {G : List (Nat × Nat)}

/-- Where a list starts: at its first block, or at its end. -/
theorem Seg.start_le {t k : Nat} (hseg : Seg (ptr m) 0 q (G.map Prod.fst) t)
    (hG : ∀ y ∈ G, y.1 ≤ k) (ht : t ≤ k) : q ≤ k := by
  cases G with
  | nil =>
    have hq : q = t := hseg
    rw [hq]
    exact ht
  | cons y G =>
    have hq : q = y.1 := hseg.1
    rw [hq]
    exact hG y List.mem_cons_self

/-- A list is the same when its headers are. -/
theorem Seg.kept {m' : Bytes} {t : Nat} (hseg : Seg (ptr m) 0 q (G.map Prod.fst) t)
    (hkept : ∀ y ∈ G, Kept m m' y.1) : Seg (ptr m') 0 q (G.map Prod.fst) t := by
  apply hseg.congr
  intro p hp
  obtain ⟨y, hy, rfl⟩ := List.mem_map.mp hp
  exact (hkept y hy).ptr

/-- The store when the blocks touch. -/
theorem joinDown_touch {p : Nat} (h : p + 16 * size m p = q) (haway : Away q p) :
    joinDown m q p = setPtr (setSize m p (size m p + size m q)) p (ptr m q) := by
  have hq (v : Nat) : ptr (setSize m p v) q = ptr m q := (setSize_kept m v haway).ptr
  have hcond : p + HEADER * size m p = q := h
  unfold joinDown
  simp only [if_pos hcond, hq]

theorem joinDown_gap {p : Nat} (h : p + 16 * size m p ≠ q) : joinDown m q p = setPtr m p q := by
  have hcond : p + HEADER * size m p ≠ q := h
  exact if_neg hcond

/-- Linking a block with the list behind it. -/
theorem joinDown_seg (hseg : Seg (ptr m) 0 q (G.map Prod.fst) base)
    (hend : G = [] → x.1 + x.2 ≠ base) (hpos : x.1 ≠ 0)
    (haway : ∀ y ∈ G, Away y.1 x.1) (hsize : 16 * size m x.1 = x.2)
    (hsizes : ∀ y ∈ G, 16 * size m y.1 = y.2) (hfit : ∀ y ∈ G, y.1 + y.2 ≤ 2^36)
    (hbase : base ≤ 2^36) :
    Seg (ptr (joinDown m q x.1)) 0 x.1 ((joinNext x G).map Prod.fst) base ∧
      ∀ y ∈ joinNext x G, 16 * size (joinDown m q x.1) y.1 = y.2 := by
  have hkept : ∀ y ∈ G, Kept m (joinDown m q x.1) y.1 :=
    fun y hy => joinDown_kept m q (haway y hy)
  have hqle : q ≤ 2^36 := Seg.start_le hseg (fun y hy => by
    have := hfit y hy
    omega) hbase
  have hqlt : q < 2^64 := by omega
  have hgap (h : x.1 + x.2 ≠ q) :
      Seg (ptr (joinDown m q x.1)) 0 x.1 (x.1 :: G.map Prod.fst) base ∧
        ∀ y ∈ x :: G, 16 * size (joinDown m q x.1) y.1 = y.2 := by
    have hdown : joinDown m q x.1 = setPtr m x.1 q := joinDown_gap (by rw [hsize]; exact h)
    refine ⟨⟨rfl, hpos, ?_⟩, ?_⟩
    · have hseg' := Seg.kept hseg hkept
      rw [hdown] at hseg' ⊢
      rw [ptr_setPtr m _ hqlt]
      exact hseg'
    · intro z hz
      rcases List.mem_cons.mp hz with rfl | hz
      · rw [hdown, size_setPtr]
        exact hsize
      · rw [(hkept z hz).size]
        exact hsizes z hz
  cases G with
  | nil =>
    have hq : q = base := hseg
    exact hgap (by rw [hq]; exact hend rfl)
  | cons y G =>
    have hqy : q = y.1 := hseg.1
    by_cases htouch : x.1 + x.2 = y.1
    · rw [joinNext_of_touch htouch]
      subst hqy
      have hdown := joinDown_touch (m := m) (by rw [hsize]; exact htouch)
        (haway y List.mem_cons_self)
      have hrest : Seg (ptr m) 0 (ptr m y.1) (G.map Prod.fst) base := hseg.2.2
      have hptr : ptr m y.1 ≤ 2^36 := Seg.start_le hrest (fun z hz => by
        have := hfit z (List.mem_cons_of_mem _ hz)
        omega) hbase
      have hptrlt : ptr m y.1 < 2^64 := by omega
      have hy := hsizes y List.mem_cons_self
      have hyfit := hfit y List.mem_cons_self
      have hsum : size m x.1 + size m y.1 < 2^32 := by omega
      refine ⟨⟨rfl, hpos, ?_⟩, ?_⟩
      · have hrest' := Seg.kept hrest (fun z hz => hkept z (List.mem_cons_of_mem _ hz))
        rw [hdown] at hrest' ⊢
        rw [ptr_setPtr _ _ hptrlt]
        exact hrest'
      · intro z hz
        rcases List.mem_cons.mp hz with rfl | hz
        · change 16 * size (joinDown m y.1 x.1) x.1 = x.2 + y.2
          rw [hdown, size_setPtr, size_setSize _ _ hsum]
          omega
        · rw [(hkept z (List.mem_cons_of_mem _ hz)).size]
          exact hsizes z (List.mem_cons_of_mem _ hz)
    · rw [joinNext_of_gap htouch]
      exact hgap (by rw [hqy]; exact htouch)

end Rings

section Heaps

variable {base : Nat} {s : Heap} {e x y : Nat × Nat} {F U pre post : List (Nat × Nat)}

/-- Every byte of an extent lies in one of the others. -/
def Covered (grants : List (Nat × Nat)) (x : Nat × Nat) : Prop :=
  ∀ k, x.1 ≤ k → k < x.1 + x.2 → ∃ g ∈ grants, g.1 ≤ k ∧ k < g.1 + g.2

theorem joins_covered (grants : List (Nat × Nat)) : Joins (Covered grants) := by
  intro x y hxy hx hy k hk hk'
  change k < x.1 + (x.2 + y.2) at hk'
  by_cases hlt : k < x.1 + x.2
  · exact hx k hk hlt
  · exact hy k (by omega) (by omega)

/-- The free blocks `F` and the blocks in use `U` of a heap, as extents. -/
structure Laid (base : Nat) (s : Heap) (F U : List (Nat × Nat)) : Prop where
  ring : Seg (ptr s.mem) 0 base (((base, 0) :: F).map Prod.fst) base
  entry : s.freep ∈ ((base, 0) :: F).map Prod.fst
  sizes : ∀ x ∈ (base, 0) :: (F ++ U), 16 * size s.mem x.1 = x.2
  spaced : Spaced F
  used : U.Pairwise Apart
  apart : ∀ x ∈ F, ∀ u ∈ U, Apart x u
  within : ∀ x ∈ F ++ U, base + 16 ≤ x.1 ∧ x.1 + x.2 ≤ s.brk
  large : ∀ x ∈ F ++ U, 16 ≤ x.2
  total : (F.map Prod.snd).sum + (U.map Prod.snd).sum = s.got
  base_pos : base ≠ 0
  above : base + 16 ≤ s.brk
  fits : s.brk ≤ 2^36
  inside : ∀ x ∈ F ++ U, Covered s.grants x

/-- The blocks in use hold the same bytes. -/
def Intact (m m' : Bytes) (U : List (Nat × Nat)) : Prop :=
  ∀ u ∈ U, ∀ k, u.1 ≤ k → k < u.1 + u.2 → m' k = m k

theorem Laid.away (h : Laid base s F U) (hx : x ∈ (base, 0) :: (F ++ U))
    (hy : y ∈ (base, 0) :: (F ++ U)) (hne : x ≠ y) : Away x.1 y.1 := by
  have hbase (z : Nat × Nat) (hz : z ∈ F ++ U) : base + 16 ≤ z.1 := (h.within z hz).1
  have hfar (hx : x ∈ F ++ U) (hy : y ∈ F ++ U) (hap : Apart x y) : Away x.1 y.1 := by
    have hlx := h.large x hx
    have hly := h.large y hy
    unfold Apart at hap
    unfold Away
    omega
  rcases List.mem_cons.mp hx with rfl | hx
  · rcases List.mem_cons.mp hy with rfl | hy
    · exact absurd rfl hne
    · exact Or.inl (hbase y hy)
  rcases List.mem_cons.mp hy with rfl | hy
  · exact Or.inr (hbase x hx)
  apply hfar hx hy
  rcases List.mem_append.mp hx with hxF | hxU
  · rcases List.mem_append.mp hy with hyF | hyU
    · exact h.spaced.apart hxF hyF hne
    · exact h.apart x hxF y hyU
  · rcases List.mem_append.mp hy with hyF | hyU
    · exact (h.apart y hyF x hxU).symm
    · have : Std.Symm Apart := ⟨fun _ _ => Apart.symm⟩
      exact h.used.forall hxU hyU hne

theorem Laid.spaced_base (h : Laid base s F U) : Spaced ((base, 0) :: F) := by
  refine List.pairwise_cons.mpr ⟨?_, h.spaced⟩
  intro x hx
  have := (h.within x (List.mem_append_left _ hx)).1
  change base + 0 < x.1
  omega

theorem Laid.node (hsplit : (base, 0) :: F = pre ++ x :: post) :
    x ∈ (base, 0) :: (F ++ U) := by
  rw [← List.cons_append, hsplit]
  exact List.mem_append_left _ (List.mem_append_right _ List.mem_cons_self)

/-- The list up to a block, and from the block on. -/
theorem Laid.split (h : Laid base s F U) (hsplit : (base, 0) :: F = pre ++ x :: post) :
    Seg (ptr s.mem) 0 base (pre.map Prod.fst) x.1 ∧
      Seg (ptr s.mem) 0 (ptr s.mem x.1) (post.map Prod.fst) base := by
  have hring := h.ring
  rw [hsplit, List.map_append, List.map_cons] at hring
  obtain ⟨t, hpre, htail⟩ := hring.split
  have ht : t = x.1 := htail.1
  rw [ht] at hpre
  exact ⟨hpre, htail.2.2⟩

/-- The condition under which the search of free ends. -/
def Stop (m : Bytes) (bp p : Nat) : Prop :=
  (p < bp ∧ bp < ptr m p) ∨ (ptr m p ≤ p ∧ (p < bp ∨ bp < ptr m p))

/-- A block stops the search exactly when the new one goes behind it. -/
theorem Laid.stop_iff (h : Laid base s F U) {bp : Nat} (hbp : base < bp)
    (hsplit : (base, 0) :: F = pre ++ x :: post) :
    Stop s.mem bp x.1 ↔ x.1 < bp ∧ ∀ z ∈ post, bp < z.1 := by
  have hspaced := h.spaced_base
  rw [hsplit] at hspaced
  have htail := (List.pairwise_append.mp hspaced).2.1
  obtain ⟨hgap, hpost⟩ := List.pairwise_cons.mp htail
  have hxbase : base ≤ x.1 := by
    rcases List.mem_cons.mp (Laid.node (U := U) hsplit) with hx | hx
    · rw [hx]
    · have := (h.within x hx).1
      omega
  have hseg := (h.split hsplit).2
  unfold Stop
  cases post with
  | nil =>
    have hnext : ptr s.mem x.1 = base := hseg
    constructor
    · intro hstop
      exact ⟨by omega, nofun⟩
    · rintro ⟨hlt, -⟩
      exact Or.inr ⟨by omega, Or.inl hlt⟩
  | cons y post =>
    have hnext : ptr s.mem x.1 = y.1 := hseg.1
    have hxy := hgap y List.mem_cons_self
    constructor
    · intro hstop
      refine ⟨by omega, ?_⟩
      intro z hz
      rcases List.mem_cons.mp hz with rfl | hz
      · omega
      · have := (List.pairwise_cons.mp hpost).1 z hz
        omega
    · rintro ⟨hlt, hall⟩
      have := hall y List.mem_cons_self
      exact Or.inl ⟨hlt, by omega⟩

theorem Laid.nodup (h : Laid base s F U) : (((base, 0) :: F).map Prod.fst).Nodup := by
  have hpairs := h.spaced_base
  unfold Spaced at hpairs
  unfold List.Nodup
  rw [List.pairwise_map]
  apply hpairs.imp
  intro x y hxy
  omega

/-- The list from `freep` on, all around. -/
theorem Laid.rotate (h : Laid base s F U) :
    ∃ ys, Seg (ptr s.mem) 0 s.freep (s.freep :: ys) s.freep ∧
    (∀ q, q ∈ s.freep :: ys ↔ q ∈ ((base, 0) :: F).map Prod.fst) ∧ ys.length = F.length ∧
      s.freep ∉ ys := by
  obtain ⟨A, B, hAB⟩ := List.append_of_mem h.entry
  have hring := h.ring
  rw [hAB] at hring
  obtain ⟨t, hA, hB⟩ := hring.split
  have ht : t = s.freep := hB.1
  rw [ht] at hA hB
  have hperm : (s.freep :: (B ++ A)).Perm (((base, 0) :: F).map Prod.fst) := by
    rw [hAB]
    have hcomm : (s.freep :: B ++ A).Perm (A ++ s.freep :: B) := List.perm_append_comm
    exact hcomm
  refine ⟨B ++ A, hB.append hA, fun q => hperm.mem_iff, ?_, ?_⟩
  · have hlen := hperm.length_eq
    simp only [List.length_cons, List.length_map] at hlen
    omega
  · exact (List.nodup_cons.mp (hperm.nodup_iff.mpr h.nodup)).1

/-- The search goes around until it finds a block that stops it. -/
theorem place_spec {m : Bytes} {bp p t : Nat} {ys : List Nat} (hseg : Seg (ptr m) 0 p ys t)
    (hstop : ∃ q ∈ ys, Stop m bp q) :
    ∃ q ∈ ys, Stop m bp q ∧ ∀ fuel, ys.length ≤ fuel → place fuel m bp p = some q := by
  induction ys generalizing p with
  | nil =>
    obtain ⟨q, hq, -⟩ := hstop
    cases hq
  | cons y ys ih =>
    have hy : p = y := hseg.1
    subst hy
    by_cases hp : Stop m bp p
    · refine ⟨p, List.mem_cons_self, hp, ?_⟩
      intro fuel hfuel
      obtain ⟨k, rfl⟩ : ∃ k, fuel = k + 1 := ⟨fuel - 1, by
        rw [List.length_cons] at hfuel
        omega⟩
      unfold place
      rcases hp with h1 | h2
      · rw [if_pos h1]
      · by_cases h1 : p < bp ∧ bp < ptr m p
        · rw [if_pos h1]
        · rw [if_neg h1, if_pos h2]
    · have hlater : ∃ q ∈ ys, Stop m bp q := by
        obtain ⟨q, hq, hs⟩ := hstop
        rcases List.mem_cons.mp hq with rfl | hq
        · exact absurd hs hp
        · exact ⟨q, hq, hs⟩
      obtain ⟨q, hq, hs, hrun⟩ := ih hseg.2.2 hlater
      refine ⟨q, List.mem_cons_of_mem _ hq, hs, ?_⟩
      intro fuel hfuel
      obtain ⟨k, rfl⟩ : ∃ k, fuel = k + 1 := ⟨fuel - 1, by
        rw [List.length_cons] at hfuel
        omega⟩
      rw [List.length_cons] at hfuel
      obtain ⟨h1, h2⟩ := not_or.mp hp
      unfold place
      rw [if_neg h1, if_neg h2]
      exact hrun k (by omega)

end Heaps

section Free

variable {base : Nat} {s : Heap} {e x y : Nat × Nat} {F U pre post : List (Nat × Nat)}

/-- The memory after the joins: the new block is in the list. -/
theorem Laid.joined (h : Laid base s F (e :: U)) (hsplit : (base, 0) :: F = pre ++ x :: post)
    (hx : x.1 < e.1) (hpost : ∀ z ∈ post, e.1 < z.1) {m : Bytes}
    (hm : m = joinDown (joinUp s.mem e.1 x.1) e.1 x.1) :
    Seg (ptr m) 0 base (((base, 0) :: addExtent e F).map Prod.fst) base ∧
      (∀ y ∈ (base, 0) :: addExtent e F, 16 * size m y.1 = y.2) ∧
      (∀ y ∈ (base, 0) :: (F ++ e :: U), y ≠ e → y ≠ x → Kept s.mem m y.1) ∧
      x.1 ∈ ((base, 0) :: addExtent e F).map Prod.fst := by
  have hemem : e ∈ F ++ e :: U := List.mem_append_right _ List.mem_cons_self
  have heall : e ∈ (base, 0) :: (F ++ e :: U) := List.mem_cons_of_mem _ hemem
  have hxall : x ∈ (base, 0) :: (F ++ e :: U) := Laid.node hsplit
  have hxe : x ≠ e := fun heq => absurd hx (by rw [heq]; exact Nat.lt_irrefl _)
  have haway := h.away hxall heall hxe
  have hnodes : ∀ y ∈ pre ++ x :: post, y ∈ (base, 0) :: (F ++ e :: U) := by
    intro y hy
    rw [← hsplit] at hy
    rw [← List.cons_append]
    exact List.mem_append_left _ hy
  have hspaced := h.spaced_base
  rw [hsplit] at hspaced
  have hcross := (List.pairwise_append.mp hspaced).2.2
  obtain ⟨hgap, hpostspaced⟩ := List.pairwise_cons.mp (List.pairwise_append.mp hspaced).2.1
  have hpostF : ∀ y ∈ post, y ∈ F := by
    intro y hy
    have hyN : y ∈ (base, 0) :: F := by
      rw [hsplit]
      exact List.mem_append_right _ (List.mem_cons_of_mem _ hy)
    rcases List.mem_cons.mp hyN with hb | hF
    · have := hpost y hy
      have hew := (h.within e hemem).1
      rw [hb] at this
      change e.1 < base at this
      omega
    · exact hF
  have hpostne : ∀ y ∈ post, y ≠ e := fun y hy heq => absurd (hpost y hy) (by
    rw [heq]
    exact Nat.lt_irrefl _)
  have hfits := h.fits
  have hfit : ∀ y ∈ F ++ e :: U, base + 16 ≤ y.1 ∧ y.1 + y.2 ≤ 2^36 := by
    intro y hy
    have := h.within y hy
    exact ⟨this.1, by omega⟩
  have habove := h.above
  have hbasele : base ≤ 2^36 := by omega
  have hefit := hfit e hemem
  have hpost' : ∀ y ∈ post, y ∈ F ++ e :: U :=
    fun y hy => List.mem_append_left _ (hpostF y hy)
  obtain ⟨hpreseg, htail⟩ := h.split hsplit
  -- the new block in front of what follows it
  have hup := joinUp_eq s.mem e.1 x.1 haway
  obtain ⟨hseg1, hsizes1⟩ := joinDown_seg (x := e) htail (by omega) (by omega)
    (fun y hy => h.away (hnodes y (by simp [hy])) heall (hpostne y hy))
    (h.sizes e heall) (fun y hy => h.sizes y (hnodes y (by simp [hy])))
    (fun y hy => (hfit y (hpost' y hy)).2) hbasele
  rw [← hup] at hseg1 hsizes1
  have hkept1 : ∀ y ∈ (base, 0) :: (F ++ e :: U), y ≠ e →
      Kept s.mem (joinUp s.mem e.1 x.1) y.1 := by
    intro y hy hne
    rw [hup]
    exact joinDown_kept _ _ (h.away hy heall hne)
  -- its predecessor in front of both
  have hafter : ∀ y ∈ joinNext e post, x.1 + 16 ≤ y.1 := by
    apply joinNext_forall (joins_after _)
    · unfold Away at haway
      omega
    · intro y hy
      have hyx := h.away (hnodes y (by simp [hy])) hxall (fun heq => by
        have := hgap y hy
        rw [heq] at this
        omega)
      have := hgap y hy
      unfold Away at hyx
      omega
  have hfit1 : ∀ y ∈ joinNext e post, base + 16 ≤ y.1 ∧ y.1 + y.2 ≤ 2^36 :=
    joinNext_forall (joins_within _ _) hefit (fun y hy => hfit y (hpost' y hy))
  have hxpos : x.1 ≠ 0 := by
    rcases List.mem_cons.mp hxall with hb | hx'
    · rw [hb]
      exact h.base_pos
    · have := (hfit x hx').1
      omega
  have hsizex : 16 * size (joinUp s.mem e.1 x.1) x.1 = x.2 := by
    rw [(hkept1 x hxall hxe).size]
    exact h.sizes x hxall
  have hnonempty : joinNext e post ≠ [] := by
    obtain ⟨k, G, hG⟩ := joinNext_head e post
    rw [hG]
    exact List.cons_ne_nil _ _
  obtain ⟨hseg2, hsizes2⟩ := joinDown_seg (x := x) hseg1 (fun hnil => absurd hnil hnonempty)
    hxpos (fun y hy => Or.inr (hafter y hy)) hsizex hsizes1 (fun y hy => (hfit1 y hy).2) hbasele
  rw [← hm] at hseg2 hsizes2
  have hkept : ∀ y ∈ (base, 0) :: (F ++ e :: U), y ≠ e → y ≠ x → Kept s.mem m y.1 := by
    intro y hy hne hnx
    rw [hm]
    exact (hkept1 y hy hne).trans (joinDown_kept _ _ (h.away hy hxall hnx))
  have hlist : (base, 0) :: addExtent e F = pre ++ joinNext x (joinNext e post) := by
    rw [← addExtent_append hspaced hx hpost, ← hsplit]
    refine (addExtent_gap ?_ ?_).symm
    · intro y hy
      have := (hfit y (List.mem_append_left _ hy)).1
      change base + 0 < y.1
      omega
    · change base + 0 < e.1
      omega
  have hpre : ∀ y ∈ pre, y ≠ e ∧ y ≠ x := by
    intro y hy
    have := hcross y hy x List.mem_cons_self
    refine ⟨fun heq => ?_, fun heq => ?_⟩
    · rw [heq] at this
      omega
    · rw [heq] at this
      omega
  have hpremem : ∀ y ∈ pre, y ∈ (base, 0) :: (F ++ e :: U) :=
    fun y hy => hnodes y (List.mem_append_left _ hy)
  refine ⟨?_, ?_, hkept, ?_⟩
  · rw [hlist, List.map_append]
    exact (Seg.kept hpreseg (fun y hy =>
      hkept y (hpremem y hy) (hpre y hy).1 (hpre y hy).2)).append hseg2
  · intro y hy
    rw [hlist] at hy
    rcases List.mem_append.mp hy with hy | hy
    · rw [(hkept y (hpremem y hy) (hpre y hy).1 (hpre y hy).2).size]
      exact h.sizes y (hpremem y hy)
    · exact hsizes2 y hy
  · rw [hlist, List.map_append]
    apply List.mem_append_right
    obtain ⟨k, G, hG⟩ := joinNext_head x (joinNext e post)
    rw [hG]
    exact List.mem_cons_self

/-- free puts a block in use back; its search ends. -/
theorem free_spec (h : Laid base s F (e :: U)) : ∃ s',
    (∀ fuel, F.length + 1 ≤ fuel → free fuel s (e.1 + 16) = some s') ∧
      Laid base s' (addExtent e F) U ∧ s'.brk = s.brk ∧ s'.got = s.got ∧
      s'.grants = s.grants ∧ Intact s.mem s'.mem U := by
  have hemem : e ∈ F ++ e :: U := List.mem_append_right _ List.mem_cons_self
  have heU : e ∈ e :: U := List.mem_cons_self
  have hbase : base < e.1 := by
    have := (h.within e hemem).1
    omega
  have hebig := h.large e hemem
  have hne : ∀ y ∈ F, y.1 ≠ e.1 := by
    intro y hy heq
    have hap := h.apart y hy e heU
    have := h.large y (List.mem_append_left _ hy)
    unfold Apart at hap
    omega
  -- the search
  obtain ⟨ys, hys, hmem, hlen, -⟩ := h.rotate
  have hexists : ∃ q ∈ s.freep :: ys, Stop s.mem e.1 q := by
    obtain ⟨pre, x, post, hsplit, hx, hpost⟩ := h.spaced_base.exists_pred hbase hne
    refine ⟨x.1, (hmem x.1).mpr ?_, (h.stop_iff hbase hsplit).mpr ⟨hx, hpost⟩⟩
    rw [hsplit]
    exact List.mem_map_of_mem (List.mem_append_right _ List.mem_cons_self)
  obtain ⟨q, hq, hstop, hrun⟩ := place_spec hys hexists
  obtain ⟨x, hxmem, rfl⟩ := List.mem_map.mp ((hmem q).mp hq)
  obtain ⟨pre, post, hsplit⟩ := List.append_of_mem hxmem
  obtain ⟨hx, hpost⟩ := (h.stop_iff hbase hsplit).mp hstop
  obtain ⟨m, hm⟩ : ∃ m, m = joinDown (joinUp s.mem e.1 x.1) e.1 x.1 := ⟨_, rfl⟩
  obtain ⟨hring, hsizes, hkept, hentry⟩ := h.joined hsplit hx hpost hm
  have hUne : ∀ u ∈ U, u ≠ e ∧ u ≠ x := by
    intro u hu
    have hlarge := h.large u (List.mem_append_right _ (List.mem_cons_of_mem _ hu))
    refine ⟨fun heq => ?_, fun heq => ?_⟩
    · have hap := (List.pairwise_cons.mp h.used).1 u hu
      rw [heq] at hap
      unfold Apart at hap
      omega
    · rw [← heq] at hxmem
      rcases List.mem_cons.mp hxmem with hb | hF
      · rw [hb] at hlarge
        cases hlarge
      · have hap := h.apart u hF u (List.mem_cons_of_mem _ hu)
        unfold Apart at hap
        omega
  have hUmem : ∀ u ∈ U, u ∈ (base, 0) :: (F ++ e :: U) := fun u hu =>
    List.mem_cons_of_mem _ (List.mem_append_right _ (List.mem_cons_of_mem _ hu))
  have hlarge : ∀ y ∈ addExtent e F, 16 ≤ y.2 :=
    addExtent_forall (joins_large _) hebig (fun y hy => h.large y (List.mem_append_left _ hy))
  have hwithin : ∀ y ∈ addExtent e F, base + 16 ≤ y.1 ∧ y.1 + y.2 ≤ s.brk :=
    addExtent_forall (joins_within _ _) (h.within e hemem)
      (fun y hy => h.within y (List.mem_append_left _ hy))
  have hinside : ∀ y ∈ addExtent e F, Covered s.grants y :=
    addExtent_forall (joins_covered _) (h.inside e hemem)
      (fun y hy => h.inside y (List.mem_append_left _ hy))
  refine ⟨⟨m, x.1, s.brk, s.got, s.grants⟩, ?_, ?_, rfl, rfl, rfl, ?_⟩
  · intro fuel hfuel
    have hplace := hrun fuel (by
      rw [List.length_cons]
      omega)
    have hap : e.1 + 16 - HEADER = e.1 := Nat.add_sub_cancel _ _
    unfold free
    simp only [hap, hplace, Option.bind_eq_bind, Option.bind_some, hm]
  · refine ⟨hring, hentry, ?_, ?_, (List.pairwise_cons.mp h.used).2, ?_, ?_, ?_, ?_,
      h.base_pos, h.above, h.fits, ?_⟩
    · intro y hy
      rw [← List.cons_append] at hy
      rcases List.mem_append.mp hy with hy | hy
      · exact hsizes y hy
      · rw [(hkept y (hUmem y hy) (hUne y hy).1 (hUne y hy).2).size]
        exact h.sizes y (hUmem y hy)
    · exact addExtent_spaced h.spaced
        (fun y hy => by
          have := h.large y (List.mem_append_left _ hy)
          omega) (by omega) (fun y hy => h.apart y hy e heU)
    · intro y hy u hu
      have hubig := h.large u (List.mem_append_right _ (List.mem_cons_of_mem _ hu))
      exact addExtent_forall (joins_apart (u := u) (by omega))
        ((List.pairwise_cons.mp h.used).1 u hu)
        (fun y hy => h.apart y hy u (List.mem_cons_of_mem _ hu)) y hy
    · intro y hy
      rcases List.mem_append.mp hy with hy | hy
      · exact hwithin y hy
      · exact h.within y (List.mem_append_right _ (List.mem_cons_of_mem _ hy))
    · intro y hy
      rcases List.mem_append.mp hy with hy | hy
      · exact hlarge y hy
      · exact h.large y (List.mem_append_right _ (List.mem_cons_of_mem _ hy))
    · have htotal := h.total
      rw [List.map_cons, List.sum_cons] at htotal
      rw [addExtent_sum]
      change e.2 + _ + _ = s.got
      omega
    · intro y hy
      rcases List.mem_append.mp hy with hy | hy
      · exact hinside y hy
      · exact h.inside y (List.mem_append_right _ (List.mem_cons_of_mem _ hy))
  · -- only two headers change, and neither is in a block in use
    intro u hu k hk hk'
    have hue := (List.pairwise_cons.mp h.used).1 u hu
    have hubig := h.large u (List.mem_append_right _ (List.mem_cons_of_mem _ hu))
    have houte : k < e.1 ∨ e.1 + 16 ≤ k := by
      unfold Apart at hue
      omega
    have houtx : k < x.1 ∨ x.1 + 16 ≤ k := by
      rcases List.mem_cons.mp hxmem with hb | hF
      · have := (h.within u (List.mem_append_right _ (List.mem_cons_of_mem _ hu))).1
        rw [hb]
        change k < base ∨ base + 16 ≤ k
        omega
      · have hap := h.apart x hF u (List.mem_cons_of_mem _ hu)
        have := h.large x (List.mem_append_left _ hF)
        unfold Apart at hap
        omega
    have hxe : x ≠ e := fun heq => absurd hx (by
      rw [heq]
      exact Nat.lt_irrefl _)
    have haway := h.away (Laid.node hsplit) (List.mem_cons_of_mem _ hemem) hxe
    change m k = s.mem k
    rw [hm, joinDown_outside _ _ houtx, joinUp_eq s.mem e.1 x.1 haway, joinDown_outside _ _ houte]

end Free

end Xv6Labs.Umalloc
