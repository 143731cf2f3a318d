import Mathlib.Algebra.BigOperators.Group.List.Basic
import Mathlib.Data.List.Pairwise
import Mathlib.Algebra.GroupWithZero.Nat

/-! Sets of extents of an address space, in increasing order and with a gap between any two.
An extent is its start and its length. -/
namespace Xv6Labs

section Extents

variable {x y e u : Nat × Nat} {F pre post : List (Nat × Nat)}

/-- Two extents have no address in common. -/
def Apart (x y : Nat × Nat) : Prop := x.1 + x.2 ≤ y.1 ∨ y.1 + y.2 ≤ x.1

theorem Apart.symm (h : Apart x y) : Apart y x := Or.symm h

/-- In increasing order, and no two of them touch. -/
def Spaced (F : List (Nat × Nat)) : Prop := F.Pairwise (fun x y => x.1 + x.2 < y.1)

/-- An extent before all of a list, joined with the first of them when they touch. -/
def joinNext (x : Nat × Nat) : List (Nat × Nat) → List (Nat × Nat)
  | [] => [x]
  | y :: F => if x.1 + x.2 = y.1 then (x.1, x.2 + y.2) :: F else x :: y :: F

/-- One more extent, joined with the neighbours that it touches. -/
def addExtent (e : Nat × Nat) : List (Nat × Nat) → List (Nat × Nat)
  | [] => [e]
  | x :: F => if e.1 < x.1 then joinNext e (x :: F) else joinNext x (addExtent e F)

theorem joinNext_of_touch (h : x.1 + x.2 = y.1) (F : List (Nat × Nat)) :
    joinNext x (y :: F) = (x.1, x.2 + y.2) :: F := if_pos h

theorem joinNext_of_gap (h : x.1 + x.2 ≠ y.1) (F : List (Nat × Nat)) :
    joinNext x (y :: F) = x :: y :: F := if_neg h

theorem joinNext_head (x : Nat × Nat) (F : List (Nat × Nat)) :
    ∃ k G, joinNext x F = (x.1, k) :: G := by
  cases F with
  | nil => exact ⟨x.2, [], rfl⟩
  | cons y F =>
    by_cases h : x.1 + x.2 = y.1
    · exact ⟨x.2 + y.2, F, joinNext_of_touch h F⟩
    · exact ⟨x.2, y :: F, joinNext_of_gap h F⟩

/-- What holds of all starts and stops. -/
theorem joinNext_spaced (hF : Spaced F) (hx : ∀ y ∈ F, x.1 + x.2 ≤ y.1) :
    Spaced (joinNext x F) := by
  unfold Spaced at hF ⊢
  cases F with
  | nil => exact List.pairwise_singleton _ _
  | cons y F =>
    obtain ⟨hy, hF'⟩ := List.pairwise_cons.mp hF
    by_cases h : x.1 + x.2 = y.1
    · rw [joinNext_of_touch h]
      refine List.pairwise_cons.mpr ⟨?_, hF'⟩
      intro z hz
      have := hy z hz
      change x.1 + (x.2 + y.2) < z.1
      omega
    · rw [joinNext_of_gap h]
      refine List.pairwise_cons.mpr ⟨?_, hF⟩
      intro z hz
      have hxy := hx y List.mem_cons_self
      rcases List.mem_cons.mp hz with rfl | hz
      · omega
      · have := hy z hz
        omega

theorem joinNext_sum (x : Nat × Nat) (F : List (Nat × Nat)) :
    ((joinNext x F).map Prod.snd).sum = x.2 + (F.map Prod.snd).sum := by
  cases F with
  | nil => rfl
  | cons y F =>
    by_cases h : x.1 + x.2 = y.1
    · rw [joinNext_of_touch h]
      simp only [List.map_cons, List.sum_cons]
      omega
    · rw [joinNext_of_gap h]
      simp only [List.map_cons, List.sum_cons]

/-- A property of extents that a union of two touching ones has when both have it. -/
def Joins (Q : Nat × Nat → Prop) : Prop :=
  ∀ x y, x.1 + x.2 = y.1 → Q x → Q y → Q (x.1, x.2 + y.2)

theorem joinNext_forall {Q : Nat × Nat → Prop} (hQ : Joins Q) (hx : Q x)
    (hF : ∀ y ∈ F, Q y) : ∀ y ∈ joinNext x F, Q y := by
  cases F with
  | nil =>
    intro y hy
    rw [List.mem_singleton.mp hy]
    exact hx
  | cons z F =>
    by_cases h : x.1 + x.2 = z.1
    · rw [joinNext_of_touch h]
      intro y hy
      rcases List.mem_cons.mp hy with rfl | hy
      · exact hQ x z h hx (hF z List.mem_cons_self)
      · exact hF y (List.mem_cons_of_mem _ hy)
    · rw [joinNext_of_gap h]
      intro y hy
      rcases List.mem_cons.mp hy with rfl | hy
      · exact hx
      · exact hF y hy

theorem joins_apart (hu : 0 < u.2) : Joins (fun x => Apart x u) := by
  intro x y hxy hx hy
  unfold Apart at hx hy ⊢
  change x.1 + (x.2 + y.2) ≤ u.1 ∨ u.1 + u.2 ≤ x.1
  omega

theorem joins_within (a b : Nat) : Joins (fun x => a ≤ x.1 ∧ x.1 + x.2 ≤ b) := by
  intro x y hxy hx hy
  change a ≤ x.1 ∧ x.1 + (x.2 + y.2) ≤ b
  omega

theorem joins_large (k : Nat) : Joins (fun x => k ≤ x.2) := by
  intro x y _ hx _
  change k ≤ x.2 + y.2
  omega

theorem addExtent_forall {Q : Nat × Nat → Prop} (hQ : Joins Q) (he : Q e)
    (hF : ∀ y ∈ F, Q y) : ∀ y ∈ addExtent e F, Q y := by
  induction F with
  | nil =>
    intro y hy
    rw [List.mem_singleton.mp hy]
    exact he
  | cons x F ih =>
    unfold addExtent
    split
    · exact joinNext_forall hQ he hF
    · exact joinNext_forall hQ (hF x List.mem_cons_self)
        (ih (fun y hy => hF y (List.mem_cons_of_mem _ hy)))

theorem addExtent_sum (e : Nat × Nat) (F : List (Nat × Nat)) :
    ((addExtent e F).map Prod.snd).sum = e.2 + (F.map Prod.snd).sum := by
  induction F with
  | nil => rfl
  | cons x F ih =>
    unfold addExtent
    split
    · exact joinNext_sum e (x :: F)
    · rw [joinNext_sum, ih, List.map_cons, List.sum_cons]
      omega

theorem joins_after (a : Nat) : Joins (fun x => a ≤ x.1) := fun _ _ _ hx _ => hx

theorem addExtent_spaced (hF : Spaced F) (hpos : ∀ x ∈ F, 0 < x.2) (he : 0 < e.2)
    (hapart : ∀ x ∈ F, Apart x e) : Spaced (addExtent e F) := by
  induction F with
  | nil => exact List.pairwise_singleton _ _
  | cons x F ih =>
    obtain ⟨hx, hF'⟩ := List.pairwise_cons.mp hF
    have hxpos := hpos x List.mem_cons_self
    have hxe := hapart x List.mem_cons_self
    unfold Apart at hxe
    unfold addExtent
    split
    · rename_i hlt
      apply joinNext_spaced hF
      intro y hy
      rcases List.mem_cons.mp hy with rfl | hy
      · omega
      · have := hx y hy
        omega
    · rename_i hge
      apply joinNext_spaced (ih hF' (fun y hy => hpos y (List.mem_cons_of_mem _ hy))
        (fun y hy => hapart y (List.mem_cons_of_mem _ hy)))
      apply addExtent_forall (joins_after _)
      · omega
      · intro y hy
        exact Nat.le_of_lt (hx y hy)

theorem addExtent_first (hpost : ∀ y ∈ post, e.1 < y.1) :
    addExtent e post = joinNext e post := by
  cases post with
  | nil => rfl
  | cons y post =>
    unfold addExtent
    exact if_pos (hpost y List.mem_cons_self)

/-- No extent gets smaller. -/
theorem joinNext_large (hy : y ∈ x :: F) : ∃ z ∈ joinNext x F, y.2 ≤ z.2 := by
  cases F with
  | nil =>
    rw [List.mem_singleton.mp hy]
    exact ⟨x, List.mem_singleton.mpr rfl, Nat.le_refl _⟩
  | cons w F =>
    by_cases h : x.1 + x.2 = w.1
    · rw [joinNext_of_touch h]
      rcases List.mem_cons.mp hy with rfl | hy
      · exact ⟨_, List.mem_cons_self, Nat.le_add_right _ _⟩
      · rcases List.mem_cons.mp hy with rfl | hy
        · exact ⟨_, List.mem_cons_self, Nat.le_add_left _ _⟩
        · exact ⟨y, List.mem_cons_of_mem _ hy, Nat.le_refl _⟩
    · rw [joinNext_of_gap h]
      exact ⟨y, hy, Nat.le_refl _⟩

theorem addExtent_large (e : Nat × Nat) (F : List (Nat × Nat)) :
    ∃ z ∈ addExtent e F, e.2 ≤ z.2 := by
  induction F with
  | nil => exact ⟨e, List.mem_singleton.mpr rfl, Nat.le_refl _⟩
  | cons x F ih =>
    unfold addExtent
    split
    · exact joinNext_large List.mem_cons_self
    · obtain ⟨y, hy, hle⟩ := ih
      obtain ⟨z, hz, hle'⟩ := joinNext_large (x := x) (List.mem_cons_of_mem _ hy)
      exact ⟨z, hz, Nat.le_trans hle hle'⟩

/-- An extent before a gap stays as it is. -/
theorem addExtent_gap (hF : ∀ y ∈ F, x.1 + x.2 < y.1) (he : x.1 + x.2 < e.1) :
    addExtent e (x :: F) = x :: addExtent e F := by
  have hrest : ∀ y ∈ addExtent e F, x.1 + x.2 + 1 ≤ y.1 :=
    addExtent_forall (joins_after _) he hF
  have hlt : ¬e.1 < x.1 := by omega
  have hdef : addExtent e (x :: F) = joinNext x (addExtent e F) := if_neg hlt
  rw [hdef]
  cases hG : addExtent e F with
  | nil => rfl
  | cons y G =>
    have hy := hrest y (by rw [hG]; exact List.mem_cons_self)
    have hne : x.1 + x.2 ≠ y.1 := by omega
    exact joinNext_of_gap hne G

/-- Where the new extent goes: after all that start before it. -/
theorem addExtent_append (hF : Spaced (pre ++ x :: post)) (hx : x.1 < e.1)
    (hpost : ∀ y ∈ post, e.1 < y.1) :
    addExtent e (pre ++ x :: post) = pre ++ joinNext x (joinNext e post) := by
  induction pre with
  | nil =>
    rw [List.nil_append, List.nil_append, ← addExtent_first hpost]
    exact if_neg (by omega)
  | cons z pre ih =>
    rw [List.cons_append] at hF ⊢
    obtain ⟨hgap, hF'⟩ := List.pairwise_cons.mp hF
    have hzx := hgap x (List.mem_append_right _ List.mem_cons_self)
    rw [addExtent_gap hgap (by omega), ih hF']
    rfl

/-- The last extent that starts before an address. -/
theorem Spaced.exists_pred {k : Nat} (h : Spaced (x :: F)) (hx : x.1 < k)
    (hne : ∀ y ∈ F, y.1 ≠ k) : ∃ pre y post, x :: F = pre ++ y :: post ∧ y.1 < k ∧
      ∀ z ∈ post, k < z.1 := by
  induction F generalizing x with
  | nil => exact ⟨[], x, [], rfl, hx, nofun⟩
  | cons y F ih =>
    obtain ⟨-, hF⟩ := List.pairwise_cons.mp h
    have hy := hne y List.mem_cons_self
    by_cases hlt : k < y.1
    · refine ⟨[], x, y :: F, rfl, hx, ?_⟩
      intro z hz
      rcases List.mem_cons.mp hz with rfl | hz
      · exact hlt
      · have := (List.pairwise_cons.mp hF).1 z hz
        omega
    · obtain ⟨pre, w, post, hsplit, hw, hpost⟩ := ih hF (by omega)
        (fun z hz => hne z (List.mem_cons_of_mem _ hz))
      exact ⟨x :: pre, w, post, by rw [hsplit]; rfl, hw, hpost⟩

theorem Spaced.remove (h : Spaced (pre ++ x :: post)) : Spaced (pre ++ post) :=
  h.sublist (List.Sublist.append_left (List.sublist_cons_self _ _) _)

/-- The front part of an extent in its place. -/
theorem Spaced.shrink (h : Spaced (pre ++ x :: post)) {k : Nat} (hk : k ≤ x.2) :
    Spaced (pre ++ (x.1, k) :: post) := by
  unfold Spaced at h ⊢
  rw [List.pairwise_append, List.pairwise_cons] at h ⊢
  obtain ⟨hpre, ⟨hx, hpost⟩, hcross⟩ := h
  refine ⟨hpre, ⟨?_, hpost⟩, ?_⟩
  · intro y hy
    have := hx y hy
    change x.1 + k < y.1
    omega
  · intro y hy z hz
    rcases List.mem_cons.mp hz with rfl | hz
    · exact hcross y hy x List.mem_cons_self
    · exact hcross y hy z (List.mem_cons_of_mem _ hz)

theorem Spaced.ne (h : Spaced (pre ++ x :: post)) (hy : y ∈ pre ++ post) : y ≠ x := by
  rintro rfl
  obtain ⟨-, hafter, hcross⟩ := List.pairwise_append.mp h
  rcases List.mem_append.mp hy with hpre | hpost
  · have hlt := hcross y hpre y List.mem_cons_self
    omega
  · have hlt := (List.pairwise_cons.mp hafter).1 y hpost
    omega

/-- A part of an extent is apart from what the extent is apart from. -/
theorem Apart.part {u : Nat × Nat} (h : Apart x u) (hlo : x.1 ≤ y.1)
    (hhi : y.1 + y.2 ≤ x.1 + x.2) : Apart y u := by
  unfold Apart at h ⊢
  omega

/-- In a spaced list every other extent is apart from one of it. -/
theorem Spaced.apart (h : Spaced F) (hx : x ∈ F) (hy : y ∈ F) (hne : x ≠ y) : Apart x y := by
  have hpairs : F.Pairwise Apart := h.imp (fun hab => Or.inl (Nat.le_of_lt hab))
  have : Std.Symm Apart := ⟨fun _ _ => Apart.symm⟩
  exact hpairs.forall hx hy hne

end Extents

end Xv6Labs
