import Xv6Labs.KmemOwnership
import Mathlib.Tactic.FinCases
import Mathlib.Order.Fin.Basic

/-! One kalloc while the other CPUs do nothing: where the page comes from, and how a stolen
list is divided. -/
namespace Xv6Labs.Kmem

variable {N : Nat}

/-- The steps of the call that runs on CPU `c`, up to its return, with its result. -/
def finish (c : Fin N) : Nat → State N → Option (Nat × State N)
  | 0, _ => none
  | fuel+1, s =>
    match s.pc c with
    | .allocReturn r => (advance s c).map (fun t => (r, t))
    | _ => (advance s c).bind (finish c fuel)

def kallocAlone (c : Fin N) (fuel : Nat) (s : State N) : Option (Nat × State N) :=
  (step s (.kalloc c)).bind (finish c fuel)

/-- No CPU but `c` is inside the allocator: `c` is at `q`, it holds the locks of `q` and the
free lists are `L`. -/
structure Alone (s : State N) (L : Fin N → List Nat) (c : Fin N) (q : PC N) : Prop where
  pc : s.pc c = q
  lock : ∀ j, s.lock j = if j ∈ q.locks c then some c else none
  chains : ∀ x, Chain s.mem 0 (s.freelist x) (L x)

/-- With enough fuel the call returns `r` and leaves the lists `L`. -/
def Returns (c : Fin N) (r : Nat) (L : Fin N → List Nat) (s : State N) : Prop :=
  ∃ n, ∀ fuel, n ≤ fuel → ∃ t, finish c fuel s = some (r, t) ∧ Alone t L c .idle

section Moves

variable {s t : State N} {L : Fin N → List Nat} {c : Fin N} {q : PC N}

theorem Returns.step {r : Nat} {M : Fin N → List Nat} (hs : advance s c = some t)
    (hq : ∀ r', s.pc c ≠ .allocReturn r') (ht : Returns c r M t) : Returns c r M s := by
  obtain ⟨n, hn⟩ := ht
  refine ⟨n+1, ?_⟩
  intro fuel hf
  obtain ⟨k, rfl⟩ : ∃ k, fuel = k+1 := ⟨fuel-1, by omega⟩
  obtain ⟨u, hu, ha⟩ := hn k (by omega)
  refine ⟨u, ?_, ha⟩
  unfold finish
  split
  · rename_i r' hr'
    exact absurd hr' (hq r')
  · rw [hs]
    exact hu

theorem Alone.read (h : Alone s L c q) (q' : PC N) (hl : q'.locks c = q.locks c) :
    Alone (s.goto c q') L c q' :=
  ⟨Function.update_self .., by rw [hl]; exact h.lock, h.chains⟩

theorem Alone.acquire (h : Alone s L c q) (i : Fin N) (q' : PC N) (hi : i ∉ q.locks c)
    (hl : ∀ j, j ∈ q'.locks c ↔ j = i ∨ j ∈ q.locks c) :
    ∃ u, s.acquire c i = some u ∧ Alone (u.goto c q') L c q' := by
  have hfree : s.lock i = none := by rw [h.lock, if_neg hi]
  refine ⟨_, if_pos hfree, Function.update_self .., ?_, h.chains⟩
  intro j
  simp only [State.goto]
  by_cases hj : j = i
  · subst hj
    rw [Function.update_self, if_pos ((hl j).mpr (Or.inl rfl))]
  · rw [Function.update_of_ne hj, h.lock]
    apply if_congr _ rfl rfl
    rw [hl]
    simp [hj]

theorem Alone.release (h : Alone s L c q) (i : Fin N) (q' : PC N)
    (hl : ∀ j, j ∈ q'.locks c ↔ j ≠ i ∧ j ∈ q.locks c) :
    Alone ((s.release i).goto c q') L c q' := by
  refine ⟨Function.update_self .., ?_, h.chains⟩
  intro j
  simp only [State.goto, State.release]
  by_cases hj : j = i
  · subst hj
    rw [Function.update_self, if_neg (fun hm => ((hl j).mp hm).1 rfl)]
  · rw [Function.update_of_ne hj, h.lock]
    apply if_congr _ rfl rfl
    rw [hl]
    simp [hj]

theorem Alone.relist (h : Alone s L c q) (i : Fin N) (v : Nat) (l : List Nat) (q' : PC N)
    (hl : q'.locks c = q.locks c) (hv : Chain s.mem 0 v l) :
    Alone ((s.setHead i v).goto c q') (Function.update L i l) c q' := by
  refine ⟨Function.update_self .., by rw [hl]; exact h.lock, ?_⟩
  intro x
  simp only [State.goto, State.setHead]
  by_cases hx : x = i
  · subst hx
    rw [Function.update_self, Function.update_self]
    exact hv
  · rw [Function.update_of_ne hx, Function.update_of_ne hx]
    exact h.chains x

/-- A store into a page that is on no list. -/
theorem Alone.store (h : Alone s L c q) (p v : Nat) (q' : PC N) (hp : ∀ x, p ∉ L x)
    (hl : q'.locks c = q.locks c) : Alone ((s.store p v).goto c q') L c q' := by
  refine ⟨Function.update_self .., by rw [hl]; exact h.lock, ?_⟩
  intro x
  apply (h.chains x).congr
  intro y hy
  apply Function.update_of_ne
  rintro rfl
  exact hp x hy

end Moves

section Own

variable {s : State N} {L : Fin N → List Nat} {c : Fin N}

/-- The page is filled with junk and returned. -/
theorem returns_finish (r : Nat) (h : Alone s L c (.allocFinish r)) (hr : ∀ x, r ∉ L x) :
    Returns c r L s := by
  refine Returns.step (by simp only [advance, h.pc]; rfl) (by simp [h.pc]) ?_
  have hret := h.release c (.allocReturn r) (by simp [PC.locks])
  refine ⟨1, ?_⟩
  intro fuel hf
  obtain ⟨k, rfl⟩ : ∃ k, fuel = k+1 := ⟨fuel-1, by omega⟩
  simp only [finish, hret.pc]
  by_cases h0 : r = 0
  · refine ⟨_, ?_, hret.read .idle rfl⟩
    simp only [advance, hret.pc, if_neg (not_not.mpr h0), Option.map_some]
  · have hdone := hret.store r allocJunk .idle hr rfl
    simp only [advance, hret.pc, if_pos h0, Option.map_some]
    exact ⟨_, rfl, hdone.pc, hdone.lock, hdone.chains⟩

/-- Up to the second acquire, with the head of the own list popped. -/
theorem returns_own {r : Nat} {M : Fin N → List Nat} (h : Alone s L c .allocAcquire)
    (hcons : ∀ u a l, L c = a :: l → Alone u (Function.update L c l) c (.allocFinish a) →
      Returns c r M u)
    (hnil : ∀ u, L c = [] → Alone u L c (.scan 0) → Returns c r M u) : Returns c r M s := by
  obtain ⟨s1, h1, hs1⟩ := h.acquire c .allocRead (by simp [PC.locks]) (by simp [PC.locks])
  refine Returns.step (by simp [advance, h.pc, h1]; rfl) (by simp [h.pc]) ?_
  have hchain := hs1.chains c
  generalize hu1 : s1.goto c .allocRead = u1 at hs1 hchain ⊢
  by_cases h0 : u1.freelist c = 0
  · rw [h0] at hchain
    have hempty : L c = [] := hchain.nil_of_null
    refine Returns.step (by simp [advance, hs1.pc, h0]; rfl) (by simp [hs1.pc]) ?_
    have hs2 := hs1.read (.allocRelease 0) rfl
    refine Returns.step (by simp only [advance, hs2.pc]; rfl) (by simp [hs2.pc]) ?_
    have hs3 := hs2.release c (.allocReacquire 0) (by simp [PC.locks])
    obtain ⟨s4, h4, hs4⟩ := hs3.acquire c (.scan 0) (by simp [PC.locks]) (by simp [PC.locks])
    exact Returns.step (by simp [advance, hs3.pc, h4]) (by simp [hs3.pc]) (hnil _ hempty hs4)
  · obtain ⟨l, hl, hcl⟩ := hchain.cons_of_ne h0
    refine Returns.step (by simp [advance, hs1.pc, h0]; rfl) (by simp [hs1.pc]) ?_
    have hs2 := hs1.read (.allocNext (u1.freelist c)) rfl
    have hs3 := hs2.read (.allocPop (u1.freelist c) (u1.mem (u1.freelist c))) rfl
    refine Returns.step (by simp only [advance, hs2.pc]; rfl) (by simp [hs2.pc]) ?_
    change Returns c r M ((u1.goto c _).goto c (.allocPop _ (u1.mem (u1.freelist c))))
    refine Returns.step (by simp only [advance, hs3.pc]; rfl) (by simp [hs3.pc]) ?_
    have hs4 := hs3.relist c _ l (.allocRelease (u1.freelist c)) rfl hcl
    refine Returns.step (by simp only [advance, hs4.pc]; rfl) (by simp [hs4.pc]) ?_
    have hs5 := hs4.release c (.allocReacquire (u1.freelist c)) (by simp [PC.locks])
    obtain ⟨s6, h6, hs6⟩ := hs5.acquire c (.allocFinish (u1.freelist c)) (by simp [PC.locks])
      (by simp [PC.locks])
    exact Returns.step (by simp [advance, hs5.pc, h0, h6]) (by simp [hs5.pc])
      (hcons _ _ l hl hs6)

end Own

section Steal

variable {s : State N} {L : Fin N → List Nat} {c i : Fin N} {l : List Nat}

/-- `p` points to the cell number `k` of the list `l`, or is null at its end. -/
def AtCell (mem : Nat → Nat) (l : List Nat) (k p : Nat) : Prop :=
  k ≤ l.length ∧ Chain mem 0 p (l.drop k)

theorem AtCell.lt {mem : Nat → Nat} {k p : Nat} (h : AtCell mem l k p) (hp : p ≠ 0) :
    k < l.length := by
  by_contra hk
  have hnil := h.2
  rw [List.drop_eq_nil_of_le (by omega)] at hnil
  exact hp hnil

theorem AtCell.end_of_null {mem : Nat → Nat} {k : Nat} (h : AtCell mem l k 0) :
    k = l.length := by
  have hnil := List.drop_eq_nil_iff.mp h.2.nil_of_null
  have := h.1
  omega

theorem AtCell.next {mem : Nat → Nat} {k p : Nat} (h : AtCell mem l k p) (hk : k < l.length) :
    AtCell mem l (k+1) (mem p) := by
  have hc := h.2
  rw [List.drop_eq_getElem_cons hk] at hc
  obtain ⟨rfl, -, hc⟩ := hc
  exact ⟨hk, hc⟩

/-- The first page of the stolen part is returned, the others become the own list. -/
theorem returns_take {r : Nat} {T : List Nat} (h : Alone s L c (.takeRead r))
    (hT : Chain s.mem 0 r T) (hne : T ≠ []) (hone : ∀ p, T.count p ≤ 1)
    (hoff : ∀ p ∈ T, ∀ x, p ∉ L x) : Returns c r (Function.update L c T.tail) s := by
  have hr : r ≠ 0 := by
    rintro rfl
    exact hne hT.nil_of_null
  obtain ⟨l, rfl, hl⟩ := hT.cons_of_ne hr
  refine Returns.step (by simp only [advance, h.pc]; rfl) (by simp [h.pc]) ?_
  have s1 := h.read (.takeHead r (s.mem r)) rfl
  refine Returns.step (by simp only [advance, s1.pc]; rfl) (by simp [s1.pc]) ?_
  have s2 := s1.relist c (s.mem r) l (.allocFinish r) rfl hl
  refine returns_finish r s2 ?_
  intro x
  by_cases hx : x = c
  · subst hx
    rw [Function.update_self, List.tail_cons]
    intro hm
    have hcr := hone r
    rw [List.count_cons_self] at hcr
    have := List.count_pos_iff.mpr hm
    omega
  · rw [Function.update_of_ne hx]
    exact hoff r (by simp) x

/-- Cutting after the slow pointer divides the list in the middle. -/
theorem returns_split {r r1 k : Nat} {M : Fin N → List Nat}
    (h : Alone s L c (.splitRead i r r1)) (hci : i ≠ c) (hone : ∀ p, tally L p ≤ 1)
    (hown : L c = []) (hr : s.freelist i = r) (hk : k < (L i).length)
    (h1 : AtCell s.mem (L i) k r1)
    (hM : M = Function.update (Function.update L i ((L i).drop (k+1))) c
      ((L i).take (k+1)).tail) : Returns c r M s := by
  have hnext := h1.next hk
  have hseg := h.chains i
  rw [hr, ← List.take_append_drop (k+1) (L i)] at hseg
  obtain ⟨m, hseg, -⟩ := hseg.split
  have hcell : r1 = (L i)[k] := by
    have hc := h1.2
    rw [List.drop_eq_getElem_cons hk] at hc
    exact hc.1
  have htake : (L i).take (k+1) = (L i).take k ++ [r1] := by
    rw [hcell, List.take_succ_eq_append_getElem hk]
  have hcount (p : Nat) : ((L i).take (k+1)).count p + ((L i).drop (k+1)).count p ≤ 1 := by
    rw [← List.count_append, List.take_append_drop]
    exact (count_le_tally L i p).trans (hone p)
  -- no page of the first half is on a list any more
  have hoff (p : Nat) (hp : p ∈ (L i).take (k+1)) (x : Fin N) :
      p ∉ Function.update L i ((L i).drop (k+1)) x := by
    intro hx
    have hpos := List.count_pos_iff.mpr hx
    have hpp := List.count_pos_iff.mpr hp
    have hle := count_le_tally (Function.update L i ((L i).drop (k+1))) x p
    have hu := tally_update L i ((L i).drop (k+1)) p
    have hsum : (L i).count p =
        ((L i).take (k+1)).count p + ((L i).drop (k+1)).count p := by
      rw [← List.count_append, List.take_append_drop]
    have := hone p
    omega
  refine Returns.step (by simp only [advance, h.pc]; rfl) (by simp [h.pc]) ?_
  have s1 := h.read (.splitHead i r r1 (s.mem r1)) rfl
  refine Returns.step (by simp only [advance, s1.pc]; rfl) (by simp [s1.pc]) ?_
  have s2 := s1.relist i (s.mem r1) ((L i).drop (k+1)) (.splitCut i r r1) rfl hnext.2
  refine Returns.step (by simp only [advance, s2.pc]; rfl) (by simp [s2.pc]) ?_
  have s3 := s2.store r1 0 (.splitRelease i r) (hoff r1 (by simp [htake])) rfl
  refine Returns.step (by simp only [advance, s3.pc]; rfl) (by simp [s3.pc]) ?_
  have s4 := s3.release i (.takeRead r) (by
    intro j
    simp only [PC.locks, List.mem_cons, List.not_mem_nil, or_false]
    constructor
    · rintro rfl
      exact ⟨hci.symm, Or.inl rfl⟩
    · rintro ⟨hj, hj' | hj'⟩
      · exact hj'
      · exact absurd hj' hj)
  have hcut : Chain (Function.update s.mem r1 0) 0 r ((L i).take (k+1)) := by
    have hcr := hcount r1
    rw [htake, List.count_append, List.count_singleton_self] at hcr
    rw [htake] at hseg ⊢
    apply cut_chain hseg
    intro hm
    have := List.count_pos_iff.mpr hm
    omega
  have hne : (L i).take (k+1) ≠ [] := by simp [htake]
  rw [hM]
  exact returns_take s4 hcut hne (fun p => (Nat.le_add_right _ _).trans (hcount p)) hoff

/-- The walk: the fast pointer is twice as far as the slow one, so the slow one stops at
the last cell of the first half. -/
theorem returns_walk {M : Fin N → List Nat} (fuel : Nat) {r r1 r2 k : Nat}
    (h : Alone s L c (.walkTest i r r1 r2)) (hci : i ≠ c) (hone : ∀ p, tally L p ≤ 1)
    (hown : L c = []) (hr : s.freelist i = r) (h1 : AtCell s.mem (L i) k r1)
    (h2 : AtCell s.mem (L i) (2*k+1) r2) (hfuel : (L i).length ≤ 2*k + fuel)
    (hM : M = Function.update (Function.update L i ((L i).drop (((L i).length+1)/2))) c
      ((L i).take (((L i).length+1)/2)).tail) : Returns c r M s := by
  induction fuel generalizing s r1 r2 k with
  | zero =>
    have := h2.1
    omega
  | succ fuel ih =>
    have hk : k < (L i).length := by
      have := h2.1
      omega
    by_cases hr2 : r2 = 0
    · subst hr2
      have hend := h2.end_of_null
      refine Returns.step (by simp only [advance, h.pc]; rfl) (by simp [h.pc]) ?_
      have s1 := h.read (.splitRead i r r1) rfl
      apply returns_split s1 hci hone hown hr hk h1
      rw [hM, show ((L i).length+1)/2 = k+1 by omega]
    · refine Returns.step (by simp only [advance, h.pc, if_pos hr2]; rfl) (by simp [h.pc]) ?_
      have s1 := h.read (.walkSlow i r r1 (s.mem r2)) rfl
      have h2' := h2.next (h2.lt hr2)
      generalize s.mem r2 = r2' at s1 h2'
      by_cases hr2' : r2' = 0
      · subst hr2'
        have hend := h2'.end_of_null
        refine Returns.step (by simp only [advance, s1.pc]; rfl) (by simp [s1.pc]) ?_
        have s2 := s1.read (.splitRead i r r1) rfl
        apply returns_split s2 hci hone hown hr hk h1
        rw [hM, show ((L i).length+1)/2 = k+1 by omega]
      · refine Returns.step (by simp only [advance, s1.pc, if_pos hr2']; rfl) (by simp [s1.pc]) ?_
        change Returns c r M ((s.goto c _).goto c (.walkFast i r (s.mem r1) r2'))
        have s2 := s1.read (.walkFast i r (s.mem r1) r2') rfl
        refine Returns.step (by simp only [advance, s2.pc]; rfl) (by simp [s2.pc]) ?_
        have s3 := s2.read (.walkTest i r (s.mem r1) (s.mem r2')) rfl
        have hlt := h2'.lt hr2'
        exact ih (k := k+1) s3 hr (h1.next hk) (h2'.next hlt) (by omega)

/-- The loop over the other CPUs: the first list that is not empty is divided. -/
theorem returns_scan {r : Nat} {M : Fin N → List Nat} (fuel k : Nat)
    (h : Alone s L c (.scan k)) (hfuel : N ≤ k + fuel) (hown : L c = [])
    (hone : ∀ p, tally L p ≤ 1) (hbefore : ∀ j : Fin N, j.val < k → L j = [])
    (hmiss : (∀ j, L j = []) → r = 0 ∧ M = L)
    (hsteal : ∀ i, L i ≠ [] → (∀ j, j < i → L j = []) → (L i).head? = some r ∧
      M = Function.update (Function.update L i ((L i).drop (((L i).length+1)/2))) c
        ((L i).take (((L i).length+1)/2)).tail) : Returns c r M s := by
  induction fuel generalizing s k with
  | zero =>
    -- every CPU has been looked at
    have hall (j : Fin N) : L j = [] := hbefore j (by omega)
    obtain ⟨rfl, rfl⟩ := hmiss hall
    refine Returns.step (by simp only [advance, h.pc, dif_neg (show ¬k < N by omega)]; rfl)
      (by simp [h.pc]) ?_
    have s1 := h.read (.allocFinish 0) rfl
    exact returns_finish 0 s1 (fun x => by simp [hall])
  | succ fuel ih =>
    by_cases hk : k < N
    · -- one more CPU without pages
      have hnext (hempty : L ⟨k, hk⟩ = []) (j : Fin N) (hj : j.val < k+1) : L j = [] := by
        by_cases hjk : j.val = k
        · rw [show j = ⟨k, hk⟩ from Fin.ext hjk]
          exact hempty
        · exact hbefore j (by omega)
      by_cases hkc : k = c.val
      · refine Returns.step (by simp only [advance, h.pc, dif_pos hk, if_pos hkc]; rfl)
          (by simp [h.pc]) ?_
        have s1 := h.read (.scan (k+1)) rfl
        refine ih (k+1) s1 (by omega) (hnext ?_)
        rw [show (⟨k, hk⟩ : Fin N) = c from Fin.ext hkc]
        exact hown
      · have hic : (⟨k, hk⟩ : Fin N) ≠ c := fun he => hkc (congrArg Fin.val he)
        refine Returns.step (by simp only [advance, h.pc, dif_pos hk, if_neg hkc]; rfl)
          (by simp [h.pc]) ?_
        generalize hi : (⟨k, hk⟩ : Fin N) = i at hic hnext ⊢
        have hik : i.val = k := by rw [← hi]
        have s1 := h.read (.scanAcquire i (s.freelist i)) rfl
        have hchain := h.chains i
        by_cases h0 : s.freelist i = 0
        · rw [h0] at hchain
          obtain ⟨u, hu, s2⟩ := s1.acquire i (.scanMiss i) (by simp [PC.locks, hic])
            (by simp [PC.locks, or_comm])
          refine Returns.step (by
            simp only [advance, s1.pc, hu, Option.map_some, if_neg (not_not.mpr h0)]
            rfl) (by simp [s1.pc]) ?_
          refine Returns.step (by simp only [advance, s2.pc]; rfl) (by simp [s2.pc]) ?_
          have s3 := s2.release i (.scan (i.val+1)) (by
            intro j
            simp only [PC.locks, List.mem_cons, List.not_mem_nil, or_false]
            grind -linarith -order)
          rw [hik] at s3 ⊢
          exact ih (k+1) s3 (by omega) (hnext hchain.nil_of_null)
        · -- CPU i has pages, so it is the first one that does
          obtain ⟨l, hl, hcl⟩ := hchain.cons_of_ne h0
          have hne : L i ≠ [] := by simp [hl]
          obtain ⟨hhead, hM⟩ := hsteal i hne
            (fun j hj => hbefore j (by have := Fin.lt_def.mp hj; omega))
          have hr : s.freelist i = r := by simpa [hl] using hhead
          obtain ⟨u, hu, s2⟩ := s1.acquire i (.walkInit i r) (by simp [PC.locks, hic])
            (by simp [PC.locks, or_comm])
          refine Returns.step (by
            simp only [advance, s1.pc, hu, Option.map_some, if_pos h0]
            rfl) (by simp [s1.pc]) ?_
          rw [hr]
          have hsame : u.freelist = s.freelist ∧ u.mem = s.mem := by
            unfold State.acquire at hu
            split_ifs at hu
            cases hu
            exact ⟨rfl, rfl⟩
          refine Returns.step (by simp only [advance, s2.pc]; rfl) (by simp [s2.pc]) ?_
          have s3 := s2.read (.walkTest i r r (u.mem r)) rfl
          have h0c : AtCell s.mem (L i) 0 r := ⟨Nat.zero_le _, by rw [← hr]; exact h.chains i⟩
          have h1c := h0c.next (by simp [hl])
          exact returns_walk (L i).length (k := 0) s3 hic hone hown
            (by rw [← hr]; exact congrFun hsame.1 i) (by simpa [State.goto, hsame.2] using h0c)
            (by simpa [State.goto, hsame.2] using h1c) (by omega) hM
    · exact ih k h (by omega) hbefore

end Steal

/-- What one kalloc on CPU `c` makes of the free lists `L`: it takes the page `r` and leaves
the lists `M`. -/
structure Taken (L M : Fin N → List Nat) (c : Fin N) (r : Nat) : Prop where
  fails : r = 0 ↔ ∀ i, L i = []
  same : (∀ i, L i = []) → M = L
  own : ∀ a l, L c = a :: l → r = a ∧ M = Function.update L c l
  head : ∀ i, L c = [] → L i ≠ [] → (∀ j, j < i → L j = []) → (L i).head? = some r
  taken : ∀ i, L c = [] → L i ≠ [] → (∀ j, j < i → L j = []) →
    M c = ((L i).take (((L i).length+1)/2)).tail
  left : ∀ i, L c = [] → L i ≠ [] → (∀ j, j < i → L j = []) →
    M i = (L i).drop (((L i).length+1)/2) ∧ (M i).length = (L i).length/2
  others : ∀ i j, L c = [] → L i ≠ [] → (∀ j, j < i → L j = []) → j ≠ c → j ≠ i → M j = L j
  conserved : ∀ p, tally M p + (heldOf r).count p = tally L p

section Taken

variable {L : Fin N → List Nat} {c i : Fin N}

theorem taken_own {a : Nat} {l : List Nat} (h : L c = a :: l) (ha : a ≠ 0) :
    Taken L (Function.update L c l) c a := by
  have hne : L c ≠ [] := by simp [h]
  refine ⟨⟨fun h0 => absurd h0 ha, fun hall => absurd (hall c) hne⟩,
    fun hall => absurd (hall c) hne, ?_, fun i hc => absurd hc hne, fun i hc => absurd hc hne,
    fun i hc => absurd hc hne, fun i j hc => absurd hc hne, ?_⟩
  · intro a' l' h'
    rw [h] at h'
    cases h'
    exact ⟨rfl, rfl⟩
  · intro p
    have hu := tally_update L c l p
    rw [h, List.count_cons] at hu
    rw [heldOf_ne a ha, List.count_singleton]
    omega

theorem taken_none (h : ∀ i, L i = []) : Taken L L c 0 := by
  refine ⟨⟨fun _ => h, fun _ => rfl⟩, fun _ => rfl, ?_, fun i _ hi => absurd (h i) hi,
    fun i _ hi => absurd (h i) hi, fun i _ hi => absurd (h i) hi,
    fun i j _ hi => absurd (h i) hi, fun p => by simp [heldOf]⟩
  intro a l hc
  rw [h c] at hc
  cases hc

/-- The first list that is not empty is the only one the loop takes from. -/
theorem taken_steal {r : Nat} (hc : L c = []) (hi : L i ≠ []) (hfirst : ∀ j, j < i → L j = [])
    (hr : (L i).head? = some r) (h0 : r ≠ 0) :
    Taken L (Function.update (Function.update L i ((L i).drop (((L i).length+1)/2))) c
      ((L i).take (((L i).length+1)/2)).tail) c r := by
  have hic : i ≠ c := by
    rintro rfl
    exact hi hc
  have honly (j : Fin N) (hj : L j ≠ []) (hj' : ∀ k, k < j → L k = []) : j = i := by
    rcases lt_trichotomy j i with hlt | heq | hgt
    · exact absurd (hfirst j hlt) hj
    · exact heq
    · exact absurd (hj' i hgt) hi
  refine ⟨⟨fun hz => absurd hz h0, fun hall => absurd (hall i) hi⟩,
    fun hall => absurd (hall i) hi, ?_, ?_, ?_, ?_, ?_, ?_⟩
  · intro a l hl
    rw [hc] at hl
    cases hl
  · intro j _ hj hj'
    rw [honly j hj hj']
    exact hr
  · intro j _ hj hj'
    rw [honly j hj hj', Function.update_self]
  · intro j _ hj hj'
    rw [honly j hj hj', Function.update_of_ne hic, Function.update_self, List.length_drop]
    exact ⟨rfl, by omega⟩
  · intro j k _ hj hj' hk hkj
    rw [honly j hj hj'] at hkj
    rw [Function.update_of_ne hk, Function.update_of_ne hkj]
  · intro p
    -- the page r, the rest of the first half and the second half are the old list
    have hu := tally_update L i ((L i).drop (((L i).length+1)/2)) p
    have hv := tally_update (Function.update L i ((L i).drop (((L i).length+1)/2))) c
      ((L i).take (((L i).length+1)/2)).tail p
    rw [Function.update_of_ne hic.symm, hc, List.count_nil] at hv
    have hsum : (L i).count p = ((L i).take (((L i).length+1)/2)).count p +
        ((L i).drop (((L i).length+1)/2)).count p := by
      rw [← List.count_append, List.take_append_drop]
    obtain ⟨l, hl⟩ : ∃ l, L i = r :: l := by
      cases hli : L i with
      | nil => exact absurd hli hi
      | cons a l =>
        rw [hli] at hr
        cases hr
        exact ⟨l, rfl⟩
    have htake : (L i).take (((L i).length+1)/2) =
        r :: ((L i).take (((L i).length+1)/2)).tail := by
      rw [hl, List.length_cons, show (l.length+1+1)/2 = l.length/2+1 by omega]
      rfl
    rw [htake, List.count_cons] at hsum
    rw [heldOf_ne r h0, List.count_singleton]
    omega

end Taken

/-- A kalloc that nobody disturbs returns, and takes its page from the own list or else from
the first list that is not empty, which it divides in the middle. -/
theorem kalloc_alone (s : State N) (L : Fin N → List Nat) (c : Fin N) (hpc : s.pc c = .idle)
    (hlock : ∀ i, s.lock i = none) (hchains : ∀ x, Chain s.mem 0 (s.freelist x) (L x))
    (hone : ∀ p, tally L p ≤ 1) :
    ∃ r M, Taken L M c r ∧ ∃ n, ∀ fuel, n ≤ fuel → ∃ t, kallocAlone c fuel s = some (r, t) ∧
      t.pc c = .idle ∧ (∀ i, t.lock i = none) ∧ ∀ x, Chain t.mem 0 (t.freelist x) (M x) := by
  have hstart : Alone (s.goto c .allocAcquire) L c .allocAcquire := by
    refine ⟨Function.update_self .., ?_, hchains⟩
    intro j
    simp [PC.locks, State.goto, hlock]
  have hret : ∃ r M, Taken L M c r ∧ Returns c r M (s.goto c .allocAcquire) := by
    cases hc : L c with
    -- the own list has a page
    | cons a l =>
      have ha : a ≠ 0 := (hchains c).ne_null a (by simp [hc])
      refine ⟨a, _, taken_own hc ha, returns_own hstart ?_ ?_⟩
      · intro u a' l' hl' hu
        rw [hc] at hl'
        cases hl'
        apply returns_finish a hu
        intro x hx
        have hu' := tally_update L c l a
        have hle := count_le_tally (Function.update L c l) x a
        have hpos := List.count_pos_iff.mpr hx
        have h1 := hone a
        rw [hc, List.count_cons_self] at hu'
        omega
      · intro u hnil
        rw [hc] at hnil
        cases hnil
    | nil =>
      by_cases hall : ∀ i, L i = []
      · -- no CPU has a page
        refine ⟨0, L, taken_none hall, returns_own hstart ?_ ?_⟩
        · intro u a l hl
          rw [hc] at hl
          cases hl
        · intro u _ hu
          exact returns_scan N 0 hu (by omega) hc hone (fun j hj => by omega)
            (fun _ => ⟨rfl, rfl⟩) (fun i hi => absurd (hall i) hi)
      · obtain ⟨k, hk⟩ := not_forall.mp hall
        -- the first CPU that has pages loses half of them
        obtain ⟨i, hi, hmin⟩ := wellFounded_lt.has_min {j : Fin N | L j ≠ []} ⟨k, hk⟩
        have hfirst (j : Fin N) (hj : j < i) : L j = [] := by
          by_contra hne
          exact hmin j hne hj
        obtain ⟨r, l, hl⟩ := List.exists_cons_of_ne_nil hi
        have hr : (L i).head? = some r := by simp [hl]
        have h0 : r ≠ 0 := (hchains i).ne_null r (by simp [hl])
        refine ⟨r, _, taken_steal hc hi hfirst hr h0, returns_own hstart ?_ ?_⟩
        · intro u a l hl
          rw [hc] at hl
          cases hl
        · intro u _ hu
          refine returns_scan N 0 hu (by omega) hc hone (fun j hj => by omega)
            (fun hz => absurd hz hall) ?_
          intro j hj hj'
          have hji : j = i := by
            rcases lt_trichotomy j i with hlt | heq | hgt
            · exact absurd (hfirst j hlt) hj
            · exact heq
            · exact absurd (hj' i hgt) hi
          subst hji
          exact ⟨hr, rfl⟩
  obtain ⟨r, M, hM, n, hn⟩ := hret
  refine ⟨r, M, hM, n, ?_⟩
  intro fuel hf
  obtain ⟨t, ht, hdone⟩ := hn fuel hf
  refine ⟨t, ?_, hdone.pc, ?_, hdone.chains⟩
  · simp only [kallocAlone, step, if_pos hpc, Option.bind_some]
    exact ht
  · intro i
    rw [hdone.lock]
    simp [PC.locks]

/-- Three free pages on CPU 1, and a call on CPU 0. -/
theorem kalloc_alone_three :
    ∃ r M, Taken (Function.update (fun _ => []) 1 [3, 2, 1]) M (0 : Fin 2) r ∧
      ∃ n, ∀ fuel, n ≤ fuel → ∃ t, kallocAlone 0 fuel (kinit 1 [1, 2, 3]) = some (r, t) ∧
        t.pc 0 = .idle ∧ (∀ i, t.lock i = none) ∧
        ∀ x, Chain t.mem 0 (t.freelist x) (M x) := by
  apply kalloc_alone
  · rfl
  · exact fun _ => rfl
  · intro x
    fin_cases x
    · rfl
    · exact ⟨rfl, by decide, rfl, by decide, rfl, by decide, rfl⟩
  · intro p
    have hn : [3, 2, 1].Nodup := by decide
    have hu := tally_update (fun _ : Fin 2 => []) 1 [3, 2, 1] p
    have h0 : tally (fun _ : Fin 2 => ([] : List Nat)) p = 0 := by simp [tally]
    have h1 := List.nodup_iff_count_le_one.mp hn p
    rw [h0, List.count_nil] at hu
    omega

example : (kallocAlone 0 40 (kinit 1 [1, 2, 3] : State 2)).map (fun x => (x.1, x.2.freelist 0,
    x.2.freelist 1)) = some (3, 2, 1) := by decide

end Xv6Labs.Kmem
