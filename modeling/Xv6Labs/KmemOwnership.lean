import Xv6Labs.KmemCode
import Xv6Labs.PointerChain
import Xv6Labs.Tally
import Xv6Labs.LockTable
import Mathlib.Tactic.SplitIfs

/-! Every page of the per-CPU allocator is in one place, as long as a stealing CPU that has
read a list head finds the same head once it holds the lock. -/
namespace Xv6Labs.Kmem

variable {N : Nat}

/-- The pages a call holds for its pointer `r`. -/
def heldOf (r : Nat) : List Nat := if r = 0 then [] else [r]

/-- The locks a CPU holds at a program point. -/
def PC.locks (c : Fin N) : PC N → List (Fin N)
  | .idle | .allocAcquire | .allocReacquire _ | .allocReturn _ | .freeAcquire _ => []
  | .allocRead | .allocNext _ | .allocPop _ _ | .allocRelease _ | .scan _ | .scanAcquire _ _
  | .takeRead _ | .takeHead _ _ | .allocFinish _ | .freeRead _ | .freeStore _ _ | .freePush _
  | .freeRelease => [c]
  | .scanMiss i | .walkInit i _ | .walkTest i _ _ _ | .walkSlow i _ _ _ | .walkFast i _ _ _
  | .splitRead i _ _ | .splitHead i _ _ _ | .splitCut i _ _ | .splitRelease i _ => [c, i]

/-- The two pointers into the list `l`: `r1` is on it and `r2` runs ahead of it, by at
least two cells when `ahead` is set. -/
def Walk (mem : Nat → Nat) (l : List Nat) (r1 r2 : Nat) (ahead : Bool) : Prop :=
  ∃ a b1 b2, l = a ++ r1 :: (b1 ++ b2) ∧ Chain mem 0 r2 b2 ∧ (ahead = true → b1 ≠ [])

/-- A steal from CPU `i` by CPU `c`, before the list is cut. -/
structure Stealing (free : Fin N → Nat) (c i : Fin N) (H : List Nat) (r : Nat) : Prop where
  none : H = []
  own : free c = 0
  other : i ≠ c
  head : free i = r

/-- What CPU `c`, holding the pages `H`, knows at each program point. -/
def PcInv (mem : Nat → Nat) (free : Fin N → Nat) (L : Fin N → List Nat) (c : Fin N)
    (H : List Nat) : PC N → Prop
  | .idle | .allocAcquire | .allocRead | .freeRelease => H = []
  | .allocNext r => H = [] ∧ r ≠ 0 ∧ free c = r
  | .allocPop r t => H = [] ∧ free c = r ∧ ∃ l, L c = r :: l ∧ Chain mem 0 t l
  | .allocRelease r | .allocReacquire r => H = heldOf r ∧ (r = 0 → free c = 0)
  | .scan _ => H = [] ∧ free c = 0
  | .scanAcquire i _ | .scanMiss i => H = [] ∧ free c = 0 ∧ i ≠ c
  | .walkInit i r => Stealing free c i H r ∧ r ≠ 0
  | .walkTest i r r1 r2 => Stealing free c i H r ∧ Walk mem (L i) r1 r2 false
  | .walkSlow i r r1 r2 => Stealing free c i H r ∧ Walk mem (L i) r1 r2 true
  | .walkFast i r r1 r2 => Stealing free c i H r ∧ Walk mem (L i) r1 r2 false ∧ r2 ≠ 0
  | .splitRead i r r1 => Stealing free c i H r ∧ r1 ∈ L i
  | .splitHead i r r1 t => Stealing free c i H r ∧
    ∃ a b, L i = a ++ r1 :: b ∧ Chain mem 0 t b
  | .splitCut i r r1 => free c = 0 ∧ i ≠ c ∧ ∃ a t, H = a ++ [r1] ∧ Seg mem 0 r H t
  | .splitRelease i r => free c = 0 ∧ i ≠ c ∧ H ≠ [] ∧ Chain mem 0 r H
  | .takeRead r => free c = 0 ∧ H ≠ [] ∧ Chain mem 0 r H
  | .takeHead r t => free c = 0 ∧ r ≠ 0 ∧ ∃ l, H = r :: l ∧ Chain mem 0 t l
  | .allocFinish r | .allocReturn r => H = heldOf r
  | .freeAcquire pa | .freeRead pa => H = [pa] ∧ pa ≠ 0
  | .freeStore pa t => H = [pa] ∧ pa ≠ 0 ∧ t = free c
  | .freePush pa => H = [pa] ∧ pa ≠ 0 ∧ mem pa = free c

section Frame

variable {mem mem' : Nat → Nat} {free free' : Fin N → Nat} {L L' : Fin N → List Nat} {d : Fin N}
  {H : List Nat}

theorem Walk.congr {l : List Nat} {r1 r2 : Nat} {ahead : Bool} (h : Walk mem l r1 r2 ahead)
    (hmem : ∀ p ∈ l, mem' p = mem p) : Walk mem' l r1 r2 ahead := by
  obtain ⟨a, b1, b2, rfl, hc, hb⟩ := h
  exact ⟨a, b1, b2, rfl, hc.congr (fun p hp => hmem p (by simp [hp])), hb⟩

/-- A CPU's knowledge survives steps that leave alone its pages, the lists it has locked
and the emptiness of its own list. -/
theorem PcInv.frame {q : PC N} (h : PcInv mem free L d H q)
    (hH : ∀ p ∈ H, mem' p = mem p) (hL : ∀ i ∈ q.locks d, ∀ p ∈ L i, mem' p = mem p)
    (hlist : ∀ i ∈ q.locks d, free' i = free i ∧ L' i = L i)
    (hown : free d = 0 → free' d = 0) : PcInv mem' free' L' d H q := by
  have hsteal (i : Fin N) (r : Nat) (hi : i ∈ q.locks d) (hs : Stealing free d i H r) :
      Stealing free' d i H r :=
    ⟨hs.none, hown hs.own, hs.other, by rw [(hlist i hi).1, hs.head]⟩
  cases q with
  | idle | allocAcquire | allocRead | freeRelease => exact h
  | allocNext r => exact ⟨h.1, h.2.1, by rw [(hlist d (by simp [PC.locks])).1, h.2.2]⟩
  | allocPop r t =>
    obtain ⟨h1, h2, l, h3, h4⟩ := h
    have hd : d ∈ (PC.allocPop (N := N) r t).locks d := by simp [PC.locks]
    refine ⟨h1, by rw [(hlist d hd).1, h2], l, by rw [(hlist d hd).2, h3], ?_⟩
    exact h4.congr (fun p hp => hL d hd p (by simp [h3, hp]))
  | allocRelease r | allocReacquire r => exact ⟨h.1, fun hr => hown (h.2 hr)⟩
  | scan i => exact ⟨h.1, hown h.2⟩
  | scanAcquire i r1 | scanMiss i => exact ⟨h.1, hown h.2.1, h.2.2⟩
  | walkInit i r => exact ⟨hsteal i r (by simp [PC.locks]) h.1, h.2⟩
  | walkTest i r r1 r2 | walkSlow i r r1 r2 =>
    refine ⟨hsteal i r (by simp [PC.locks]) h.1, ?_⟩
    rw [(hlist i (by simp [PC.locks])).2]
    exact h.2.congr (hL i (by simp [PC.locks]))
  | walkFast i r r1 r2 =>
    refine ⟨hsteal i r (by simp [PC.locks]) h.1, ?_, h.2.2⟩
    rw [(hlist i (by simp [PC.locks])).2]
    exact h.2.1.congr (hL i (by simp [PC.locks]))
  | splitRead i r r1 =>
    refine ⟨hsteal i r (by simp [PC.locks]) h.1, ?_⟩
    rw [(hlist i (by simp [PC.locks])).2]
    exact h.2
  | splitHead i r r1 t =>
    obtain ⟨h1, a, b, h2, h3⟩ := h
    refine ⟨hsteal i r (by simp [PC.locks]) h1, a, b,
      by rw [(hlist i (by simp [PC.locks])).2, h2], ?_⟩
    exact h3.congr (fun p hp => hL i (by simp [PC.locks]) p (by simp [h2, hp]))
  | splitCut i r r1 =>
    obtain ⟨h1, h2, a, t, h3, h4⟩ := h
    exact ⟨hown h1, h2, a, t, h3, h4.congr hH⟩
  | splitRelease i r => exact ⟨hown h.1, h.2.1, h.2.2.1, h.2.2.2.congr hH⟩
  | takeRead r => exact ⟨hown h.1, h.2.1, h.2.2.congr hH⟩
  | takeHead r t =>
    obtain ⟨h1, h2, l, h3, h4⟩ := h
    exact ⟨hown h1, h2, l, h3, h4.congr (fun p hp => hH p (by simp [h3, hp]))⟩
  | allocFinish r | allocReturn r => exact h
  | freeAcquire pa | freeRead pa => exact h
  | freeStore pa t => exact ⟨h.1, h.2.1, by rw [(hlist d (by simp [PC.locks])).1, h.2.2]⟩
  | freePush pa =>
    refine ⟨h.1, h.2.1, ?_⟩
    rw [hH pa (by simp [h.1]), (hlist d (by simp [PC.locks])).1, h.2.2]

end Frame

/-- The free lists are `L`, the calls on the CPUs hold `H`, and each page is in exactly one
place. -/
structure InvAt (pages : List Nat) (s : State N) (L H : Fin N → List Nat) : Prop where
  chains : ∀ c, Chain s.mem 0 (s.freelist c) (L c)
  pcs : ∀ c, PcInv s.mem s.freelist L c (H c) (s.pc c)
  once : ∀ p, tally L p + s.owned.count p + tally H p = if p ∈ pages then 1 else 0
  locks : Agree s.lock (fun d => (s.pc d).locks d)
  null : 0 ∉ pages

section Moves

variable {pages : List Nat} {s : State N} {L H : Fin N → List Nat}

theorem InvAt.le_one (h : InvAt pages s L H) (p : Nat) :
    tally L p + s.owned.count p + tally H p ≤ 1 := by
  rw [h.once p]
  split_ifs <;> omega

theorem InvAt.ne_zero (h : InvAt pages s L H) (p : Nat)
    (hp : 0 < tally L p + s.owned.count p + tally H p) : p ≠ 0 := by
  rintro rfl
  rw [h.once 0, if_neg h.null] at hp
  omega

/-- A page that CPU `c` holds, or a caller owns, is on no list and in no other call. -/
theorem InvAt.apart (h : InvAt pages s L H) (c d : Fin N) (hcd : d ≠ c) (p q : Nat)
    (hp : p ∈ H c ∨ p ∈ s.owned) (hq : q ∈ H d ∨ ∃ i, q ∈ L i) : q ≠ p := by
  rintro rfl
  have hle := h.le_one q
  rcases hq with hq | ⟨i, hq⟩
  · have hqd := List.count_pos_iff.mpr hq
    rcases hp with hp | hp
    · have := count_add_count_le_tally H d c hcd q
      have := List.count_pos_iff.mpr hp
      omega
    · have := count_le_tally H d q
      have := List.count_pos_iff.mpr hp
      omega
  · have hqi := List.count_pos_iff.mpr hq
    have := count_le_tally L i q
    rcases hp with hp | hp
    · have := count_le_tally H c q
      have := List.count_pos_iff.mpr hp
      omega
    · have := List.count_pos_iff.mpr hp
      omega

/-- The locks held after CPU `c` has gone to `q`. -/
theorem locks_update (pc : Fin N → PC N) (c : Fin N) (q : PC N) :
    (fun d => (Function.update pc c q d).locks d) =
      Function.update (fun d => (pc d).locks d) c (q.locks c) := by
  funext d
  exact Function.apply_update (fun d q => PC.locks d q) pc c q d

/-- A step of CPU `c` to the program point `q`: it may write the pages it holds or the
owned ones and change lists it has locked; it may empty another CPU's list but not fill
an empty one. -/
theorem InvAt.move (h : InvAt pages s L H) (c : Fin N) (q : PC N) (s' : State N)
    (L' : Fin N → List Nat) (l : List Nat) (hpc : s'.pc = Function.update s.pc c q)
    (hchains : ∀ x, Chain s'.mem 0 (s'.freelist x) (L' x))
    (hc : PcInv s'.mem s'.freelist L' c l q)
    (hcount : ∀ p, tally L' p + s'.owned.count p + l.count p =
      tally L p + s.owned.count p + (H c).count p)
    (hmem : ∀ p, s'.mem p ≠ s.mem p → p ∈ H c ∨ p ∈ s.owned)
    (hlist : ∀ x, (s'.freelist x = s.freelist x ∧ L' x = L x) ∨
      (x ∈ (s.pc c).locks c ∧ (x ≠ c → s.freelist x ≠ 0)))
    (hlock : Agree s'.lock (Function.update (fun d => (s.pc d).locks d) c (q.locks c))) :
    InvAt pages s' L' (Function.update H c l) := by
  refine ⟨hchains, ?_, ?_, by rw [hpc, locks_update]; exact hlock, h.null⟩
  · intro d
    rw [hpc]
    by_cases hd : d = c
    · subst hd
      rw [Function.update_self, Function.update_self]
      exact hc
    · rw [Function.update_of_ne hd, Function.update_of_ne hd]
      have hkeep (p : Nat) (hp : p ∈ H d ∨ ∃ i, p ∈ L i) : s'.mem p = s.mem p := by
        by_contra hne
        exact h.apart c d hd p p (hmem p hne) hp rfl
      apply (h.pcs d).frame (fun p hp => hkeep p (Or.inl hp))
        (fun i _ p hp => hkeep p (Or.inr ⟨i, hp⟩))
      · intro i hi
        rcases hlist i with hsame | ⟨hic, -⟩
        · exact hsame
        · exact absurd (h.locks.unique i c d hic hi) hd
      · intro h0
        rcases hlist d with hsame | ⟨-, hne⟩
        · rw [hsame.1, h0]
        · exact absurd h0 (hne hd)
  · intro p
    have hu := tally_update H c l p
    have hp := hcount p
    have ho := h.once p
    omega

/-- A step that only reads. -/
theorem InvAt.read (h : InvAt pages s L H) (c : Fin N) (q : PC N)
    (hc : PcInv s.mem s.freelist L c (H c) q) (hl : q.locks c = (s.pc c).locks c) :
    InvAt pages (s.goto c q) L (Function.update H c (H c)) := by
  apply h.move c q (s.goto c q) L (H c) rfl h.chains hc (fun _ => rfl)
  · intro p hp
    exact absurd rfl hp
  · intro x
    exact Or.inl ⟨rfl, rfl⟩
  · exact h.locks.keep c _ (fun j => by rw [hl])

/-- acquire of lock `i`. -/
theorem InvAt.acquire (h : InvAt pages s L H) (c i : Fin N) (q : PC N)
    (hfree : s.lock i = none) (hc : PcInv s.mem s.freelist L c (H c) q)
    (hl : ∀ j, j ∈ q.locks c ↔ j = i ∨ j ∈ (s.pc c).locks c) :
    InvAt pages (State.goto { s with lock := Function.update s.lock i (some c) } c q) L
      (Function.update H c (H c)) := by
  apply h.move c q (State.goto { s with lock := Function.update s.lock i (some c) } c q) L (H c)
    rfl h.chains hc (fun _ => rfl)
  · intro p hp
    exact absurd rfl hp
  · intro x
    exact Or.inl ⟨rfl, rfl⟩
  · exact h.locks.acquire c i _ hfree hl

/-- release of lock `i`, the last step of a critical section. -/
theorem InvAt.release (h : InvAt pages s L H) (c i : Fin N) (q : PC N)
    (hc : PcInv s.mem s.freelist L c (H c) q)
    (hl : ∀ j, j ∈ (s.pc c).locks c ↔ j = i ∨ j ∈ q.locks c) (hi : i ∉ q.locks c) :
    InvAt pages ((s.release i).goto c q) L (Function.update H c (H c)) := by
  apply h.move c q ((s.release i).goto c q) L (H c) rfl h.chains hc (fun _ => rfl)
  · intro p hp
    exact absurd rfl hp
  · intro x
    exact Or.inl ⟨rfl, rfl⟩
  · exact h.locks.release c i _ hl hi

/-- The lists after the head of list `i` has been set. -/
theorem chains_setHead (h : InvAt pages s L H) (i : Fin N) (v : Nat) (l : List Nat)
    (hl : Chain s.mem 0 v l) (x : Fin N) :
    Chain (s.setHead i v).mem 0 ((s.setHead i v).freelist x) (Function.update L i l x) := by
  simp only [State.setHead]
  by_cases hx : x = i
  · subst hx
    rw [Function.update_self, Function.update_self]
    exact hl
  · rw [Function.update_of_ne hx, Function.update_of_ne hx]
    exact h.chains x

/-- A new head for list `i`, which CPU `c` has locked; pages move between the list and
the call. -/
theorem InvAt.relist (h : InvAt pages s L H) (c i : Fin N) (q : PC N) (v : Nat)
    (l held : List Nat) (hl : Chain s.mem 0 v l)
    (hc : PcInv s.mem (Function.update s.freelist i v) (Function.update L i l) c held q)
    (hcount : ∀ p, l.count p + held.count p = (L i).count p + (H c).count p)
    (hi : i ∈ (s.pc c).locks c) (hne : i ≠ c → s.freelist i ≠ 0)
    (hlocks : q.locks c = (s.pc c).locks c) :
    InvAt pages ((s.setHead i v).goto c q) (Function.update L i l)
      (Function.update H c held) := by
  apply h.move c q ((s.setHead i v).goto c q) _ held rfl (chains_setHead h i v l hl) hc
  · intro p
    have hu := tally_update L i l p
    have := hcount p
    simp only [State.goto, State.setHead]
    omega
  · intro p hp
    exact absurd rfl hp
  · intro x
    by_cases hx : x = i
    · subst hx
      exact Or.inr ⟨hi, hne⟩
    · exact Or.inl ⟨Function.update_of_ne hx _ _, Function.update_of_ne hx _ _⟩
  · exact h.locks.keep c _ (fun j => by rw [hlocks])

/-- A store into a page that CPU `c` holds. -/
theorem InvAt.storeHeld (h : InvAt pages s L H) (c : Fin N) (q : PC N) (p v : Nat)
    (hp : p ∈ H c) (hc : PcInv (Function.update s.mem p v) s.freelist L c (H c) q)
    (hlocks : q.locks c = (s.pc c).locks c) :
    InvAt pages ((s.store p v).goto c q) L (Function.update H c (H c)) := by
  have hoff (x : Fin N) (y : Nat) (hy : y ∈ L x) : y ≠ p := by
    rintro rfl
    have := h.le_one y
    have := count_le_tally L x y
    have := count_le_tally H c y
    have := List.count_pos_iff.mpr hy
    have := List.count_pos_iff.mpr hp
    omega
  apply h.move c q ((s.store p v).goto c q) L (H c) rfl _ hc (fun _ => rfl)
  · intro y hy
    by_cases hyp : y = p
    · subst hyp
      exact Or.inl hp
    · exact absurd (Function.update_of_ne hyp _ _) hy
  · intro x
    exact Or.inl ⟨rfl, rfl⟩
  · exact h.locks.keep c _ (fun j => by rw [hlocks])
  · intro x
    exact (h.chains x).congr (fun y hy => Function.update_of_ne (hoff x y hy) _ _)

end Moves

/-- A stealing CPU that gets the lock of list `i` finds there the head it has read. -/
def Fresh (s : State N) : Event N → Prop
  | .advance c =>
    match s.pc c with
    | .scanAcquire i r1 => s.lock i = none → r1 = 0 ∨ s.freelist i = r1
    | _ => True
  | _ => True

instance (s : State N) (e : Event N) : Decidable (Fresh s e) := by
  unfold Fresh
  split
  · split <;> infer_instance
  · infer_instance

section Steps

variable {pages : List Nat} {s t : State N} {L H : Fin N → List Nat}

theorem heldOf_ne (r : Nat) (h : r ≠ 0) : heldOf r = [r] := if_neg h

/-- The slow pointer's successor, where the fast one is two cells ahead. -/
theorem Walk.slow {mem : Nat → Nat} {l : List Nat} {h r1 r2 : Nat} (hc : Chain mem 0 h l)
    (hw : Walk mem l r1 r2 true) : Walk mem l (mem r1) r2 false := by
  obtain ⟨a, b1, b2, rfl, hr2, hb⟩ := hw
  obtain ⟨x, b1, rfl⟩ := List.exists_cons_of_ne_nil (hb rfl)
  obtain ⟨m, -, hm⟩ := hc.split
  obtain ⟨-, -, hx⟩ := hm
  have hx1 : mem r1 = x := hx.1
  refine ⟨a ++ [r1], b1, b2, ?_, hr2, fun hf => by cases hf⟩
  rw [hx1]
  simp

/-- The fast pointer advances by one cell. -/
theorem Walk.fast {mem : Nat → Nat} {l : List Nat} {r1 r2 : Nat} (ahead : Bool)
    (hw : Walk mem l r1 r2 ahead) (hr : r2 ≠ 0) : Walk mem l r1 (mem r2) true := by
  obtain ⟨a, b1, b2, rfl, hr2, -⟩ := hw
  obtain ⟨b3, rfl, hb3⟩ := hr2.cons_of_ne hr
  exact ⟨a, b1 ++ [r2], b3, by simp, hb3, fun _ => by simp⟩

theorem Walk.mem {mem : Nat → Nat} {l : List Nat} {r1 r2 : Nat} {ahead : Bool}
    (hw : Walk mem l r1 r2 ahead) : r1 ∈ l := by
  obtain ⟨a, b1, b2, rfl, -, -⟩ := hw
  simp

theorem Walk.weaken {mem : Nat → Nat} {l : List Nat} {r1 r2 : Nat} {ahead : Bool}
    (hw : Walk mem l r1 r2 ahead) : Walk mem l r1 r2 false := by
  obtain ⟨a, b1, b2, h1, h2, -⟩ := hw
  exact ⟨a, b1, b2, h1, h2, fun hf => by cases hf⟩

/-- Cutting the segment that ends at `r1` off the rest of the list. -/
theorem cut_chain {mem : Nat → Nat} {r r1 t : Nat} {a : List Nat}
    (h : Seg mem 0 r (a ++ [r1]) t) (hnot : r1 ∉ a) :
    Chain (Function.update mem r1 0) 0 r (a ++ [r1]) := by
  obtain ⟨m, h1, h2⟩ := h.split
  obtain ⟨rfl, hne, -⟩ := h2
  refine Seg.append (h1.congr ?_) ⟨rfl, hne, ?_⟩
  · intro p hp
    apply Function.update_of_ne
    rintro rfl
    exact hnot hp
  · rw [Function.update_self]
    rfl

/-- The first part of kalloc: one page from the own list. -/
theorem advance_alloc (h : InvAt pages s L H) (c : Fin N) (ht : advance s c = some t)
    (hpc : s.pc c = .allocAcquire ∨ s.pc c = .allocRead ∨ (∃ r, s.pc c = .allocNext r) ∨
      (∃ r v, s.pc c = .allocPop r v) ∨ (∃ r, s.pc c = .allocRelease r) ∨
      ∃ r, s.pc c = .allocReacquire r) :
    ∃ L' H', InvAt pages t L' H' := by
  have hown := h.pcs c
  have hchain := h.chains c
  unfold advance at ht
  rcases hpc with hpc | hpc | ⟨r, hpc⟩ | ⟨r, v, hpc⟩ | ⟨r, hpc⟩ | ⟨r, hpc⟩ <;>
    simp only [hpc] at ht hown
  · obtain ⟨hl, rfl⟩ := acquire_map ht
    exact ⟨L, _, h.acquire c c _ hl hown (by simp [PC.locks, hpc])⟩
  · cases ht
    refine ⟨L, _, h.read c _ ?_ ?_⟩
    · split_ifs with hr
      · exact ⟨hown, hr, rfl⟩
      · have hr0 : s.freelist c = 0 := not_not.mp hr
        exact ⟨by rw [hr0]; exact hown, id⟩
    · split_ifs <;> simp [PC.locks, hpc]
  · cases ht
    obtain ⟨h1, h2, h3⟩ := hown
    rw [h3] at hchain
    obtain ⟨l, hl, hcl⟩ := hchain.cons_of_ne h2
    exact ⟨L, _, h.read c _ ⟨h1, h3, l, hl, hcl⟩ (by simp [PC.locks, hpc])⟩
  · cases ht
    obtain ⟨h1, h2, l, hl, hcl⟩ := hown
    have hr : r ≠ 0 := hchain.ne_null r (by simp [hl])
    refine ⟨_, _, h.relist c c _ v l [r] hcl ⟨(heldOf_ne r hr).symm, fun h0 => absurd h0 hr⟩ ?_
      (by simp [PC.locks, hpc]) (fun hc => absurd rfl hc) (by simp [PC.locks, hpc])⟩
    intro p
    rw [hl, h1, List.count_cons, List.count_cons, List.count_nil]
    omega
  · cases ht
    exact ⟨L, _, h.release c c _ hown (by simp [PC.locks, hpc]) (by simp [PC.locks])⟩
  · obtain ⟨hl, rfl⟩ := acquire_map ht
    refine ⟨L, _, h.acquire c c _ hl ?_ ?_⟩
    · split_ifs with hr
      · subst hr
        exact ⟨hown.1, hown.2 rfl⟩
      · exact hown.1
    · split_ifs <;> simp [PC.locks, hpc]

/-- The loop over the other CPUs, up to the walk through the victim's list. -/
theorem advance_scan (h : InvAt pages s L H) (c : Fin N) (ht : advance s c = some t)
    (hf : Fresh s (.advance c))
    (hpc : (∃ i, s.pc c = .scan i) ∨ (∃ i r1, s.pc c = .scanAcquire i r1) ∨
      ∃ i, s.pc c = .scanMiss i) :
    ∃ L' H', InvAt pages t L' H' := by
  have hown := h.pcs c
  unfold advance at ht
  rcases hpc with ⟨i, hpc⟩ | ⟨i, r1, hpc⟩ | ⟨i, hpc⟩ <;> simp only [hpc] at ht hown
  · split_ifs at ht with hi hic
    · cases ht
      exact ⟨L, _, h.read c _ hown (by simp [PC.locks, hpc])⟩
    · cases ht
      refine ⟨L, _, h.read c _ ⟨hown.1, hown.2, ?_⟩ (by simp [PC.locks, hpc])⟩
      intro he
      exact hic (by rw [← he])
    · cases ht
      exact ⟨L, _, h.read c _ hown.1 (by simp [PC.locks, hpc])⟩
  · obtain ⟨hl, rfl⟩ := acquire_map ht
    -- here the head that was read without the lock must still be the head
    have hfresh : r1 = 0 ∨ s.freelist i = r1 := by
      simp only [Fresh, hpc] at hf
      exact hf hl
    refine ⟨L, _, h.acquire c i _ hl ?_ ?_⟩
    · split_ifs with hr
      · rcases hfresh with h0 | h1
        · exact absurd h0 hr
        · exact ⟨⟨hown.1, hown.2.1, hown.2.2, h1⟩, hr⟩
      · exact hown
    · intro j
      split_ifs <;> simp [PC.locks, hpc, or_comm]
  · cases ht
    obtain ⟨h1, h2, h3⟩ := hown
    refine ⟨L, _, h.release c i _ ⟨h1, h2⟩ ?_ (by simpa [PC.locks] using h3)⟩
    intro j
    simp [PC.locks, hpc, or_comm]

/-- The walk with two pointers only reads. -/
theorem advance_walk (h : InvAt pages s L H) (c : Fin N) (ht : advance s c = some t)
    (hpc : (∃ i r, s.pc c = .walkInit i r) ∨ (∃ i r r1 r2, s.pc c = .walkTest i r r1 r2) ∨
      (∃ i r r1 r2, s.pc c = .walkSlow i r r1 r2) ∨
      ∃ i r r1 r2, s.pc c = .walkFast i r r1 r2) :
    ∃ L' H', InvAt pages t L' H' := by
  have hown := h.pcs c
  unfold advance at ht
  rcases hpc with ⟨i, r, hpc⟩ | ⟨i, r, r1, r2, hpc⟩ | ⟨i, r, r1, r2, hpc⟩ | ⟨i, r, r1, r2, hpc⟩ <;>
    simp only [hpc] at ht hown
  · cases ht
    obtain ⟨hs, hr⟩ := hown
    have hchain := h.chains i
    rw [hs.head] at hchain
    obtain ⟨l, hl, hcl⟩ := hchain.cons_of_ne hr
    refine ⟨L, _, h.read c _ ⟨hs, [], [], l, ?_, hcl, fun hf => by cases hf⟩
      (by simp [PC.locks, hpc])⟩
    simpa using hl
  · split_ifs at ht with hr
    · cases ht
      exact ⟨L, _, h.read c _ ⟨hown.1, hown.2.fast false hr⟩ (by simp [PC.locks, hpc])⟩
    · cases ht
      exact ⟨L, _, h.read c _ ⟨hown.1, hown.2.mem⟩ (by simp [PC.locks, hpc])⟩
  · split_ifs at ht with hr
    · cases ht
      exact ⟨L, _, h.read c _ ⟨hown.1, hown.2.slow (h.chains i), hr⟩ (by simp [PC.locks, hpc])⟩
    · cases ht
      exact ⟨L, _, h.read c _ ⟨hown.1, hown.2.mem⟩ (by simp [PC.locks, hpc])⟩
  · cases ht
    obtain ⟨h1, h2, h3⟩ := hown
    exact ⟨L, _, h.read c _ ⟨h1, (h2.fast false h3).weaken⟩ (by simp [PC.locks, hpc])⟩

/-- Cutting the victim's list and taking the first half. -/
theorem advance_split (h : InvAt pages s L H) (c : Fin N) (ht : advance s c = some t)
    (hpc : (∃ i r r1, s.pc c = .splitRead i r r1) ∨ (∃ i r r1 v, s.pc c = .splitHead i r r1 v) ∨
      (∃ i r r1, s.pc c = .splitCut i r r1) ∨ (∃ i r, s.pc c = .splitRelease i r) ∨
      (∃ r, s.pc c = .takeRead r) ∨ ∃ r v, s.pc c = .takeHead r v) :
    ∃ L' H', InvAt pages t L' H' := by
  have hown := h.pcs c
  unfold advance at ht
  rcases hpc with ⟨i, r, r1, hpc⟩ | ⟨i, r, r1, v, hpc⟩ | ⟨i, r, r1, hpc⟩ | ⟨i, r, hpc⟩ |
    ⟨r, hpc⟩ | ⟨r, v, hpc⟩ <;> simp only [hpc] at ht hown <;> cases ht
  · -- splitRead: r1 is a cell of the list
    obtain ⟨hs, hr1⟩ := hown
    obtain ⟨a, b, hab⟩ := List.append_of_mem hr1
    have hchain := h.chains i
    rw [hab] at hchain
    obtain ⟨m, -, hm⟩ := hchain.split
    exact ⟨L, _, h.read c _ ⟨hs, a, b, hab, hm.2.2⟩ (by simp [PC.locks, hpc])⟩
  · -- splitHead: CPU i keeps the part behind r1, the thief holds the rest
    obtain ⟨hs, a, b, hab, hcb⟩ := hown
    have hchain := h.chains i
    rw [hs.head, hab, show a ++ r1 :: b = (a ++ [r1]) ++ b by simp] at hchain
    obtain ⟨m, hseg, -⟩ := hchain.split
    have hr : s.freelist i ≠ 0 := by
      intro h0
      have hchain0 := h.chains i
      rw [h0] at hchain0
      rw [hchain0.nil_of_null] at hab
      simp at hab
    refine ⟨_, _, h.relist c i _ v b (a ++ [r1]) hcb ?_ ?_ (by simp [PC.locks, hpc])
      (fun _ => hr) (by simp [PC.locks, hpc])⟩
    · refine ⟨?_, hs.other, a, m, rfl, hseg⟩
      rw [Function.update_of_ne hs.other.symm]
      exact hs.own
    · intro p
      rw [hab, hs.none]
      simp only [List.count_append, List.count_cons, List.count_nil]
      omega
  · -- splitCut: the part that is held ends at r1
    obtain ⟨h1, h2, a, m, ha, hseg⟩ := hown
    have hmem : r1 ∈ H c := by simp [ha]
    have hnot : r1 ∉ a := by
      intro hm
      have := h.le_one r1
      have hle := count_le_tally H c r1
      have := List.count_pos_iff.mpr hm
      rw [ha, List.count_append, List.count_singleton_self] at hle
      omega
    refine ⟨L, _, h.storeHeld c _ r1 0 hmem ⟨h1, h2, by simp [ha], ?_⟩ (by simp [PC.locks, hpc])⟩
    rw [ha] at hseg ⊢
    exact cut_chain hseg hnot
  · -- splitRelease: the held part stays with the thief
    obtain ⟨h1, h2, h3, h4⟩ := hown
    refine ⟨L, _, h.release c i _ ⟨h1, h3, h4⟩ ?_ (by simpa [PC.locks] using h2)⟩
    intro j
    simp [PC.locks, hpc, or_comm]
  · -- takeRead: the page after r
    obtain ⟨h1, h2, h3⟩ := hown
    have hr : r ≠ 0 := by
      rintro rfl
      exact h2 h3.nil_of_null
    obtain ⟨l, hl, hcl⟩ := h3.cons_of_ne hr
    exact ⟨L, _, h.read c _ ⟨h1, hr, l, hl, hcl⟩ (by simp [PC.locks, hpc])⟩
  · -- takeHead: r is the answer, the pages behind it a new list
    obtain ⟨h1, hr, l, hl, hcl⟩ := hown
    have hempty : L c = [] := by
      have hchain := h.chains c
      rw [h1] at hchain
      exact hchain.nil_of_null
    refine ⟨_, _, h.relist c c _ v l [r] hcl (heldOf_ne r hr).symm ?_ (by simp [PC.locks, hpc])
      (fun hc => absurd rfl hc) (by simp [PC.locks, hpc])⟩
    intro p
    rw [hempty, hl]
    simp only [List.count_cons, List.count_nil]
    omega

/-- A page changes hands between a call and the callers; its first word is overwritten. -/
theorem InvAt.handOver (h : InvAt pages s L H) (c : Fin N) (q : PC N) (p v : Nat)
    (held owned : List Nat) (hp : p ∈ H c ∨ p ∈ s.owned)
    (hcount : ∀ x, owned.count x + held.count x = s.owned.count x + (H c).count x)
    (hc : PcInv (Function.update s.mem p v) s.freelist L c held q)
    (hlocks : q.locks c = (s.pc c).locks c) :
    InvAt pages { (s.store p v).goto c q with owned := owned } L (Function.update H c held) := by
  have hoff (x : Fin N) (y : Nat) (hy : y ∈ L x) : y ≠ p := by
    rintro rfl
    have := h.le_one y
    have := count_le_tally L x y
    have := List.count_pos_iff.mpr hy
    rcases hp with hp | hp
    · have := count_le_tally H c y
      have := List.count_pos_iff.mpr hp
      omega
    · have := List.count_pos_iff.mpr hp
      omega
  apply h.move c q { (s.store p v).goto c q with owned := owned } L held rfl _ hc
  · intro x
    have := hcount x
    simp only
    omega
  · intro y hy
    by_cases hyp : y = p
    · subst hyp
      exact hp
    · exact absurd (Function.update_of_ne hyp _ _) hy
  · intro x
    exact Or.inl ⟨rfl, rfl⟩
  · exact h.locks.keep c _ (fun j => by rw [hlocks])
  · intro x
    exact (h.chains x).congr (fun y hy => Function.update_of_ne (hoff x y hy) _ _)

/-- The end of kalloc, and kfree. -/
theorem advance_rest (h : InvAt pages s L H) (c : Fin N) (ht : advance s c = some t)
    (hpc : (∃ r, s.pc c = .allocFinish r) ∨ (∃ r, s.pc c = .allocReturn r) ∨
      (∃ pa, s.pc c = .freeAcquire pa) ∨ (∃ pa, s.pc c = .freeRead pa) ∨
      (∃ pa v, s.pc c = .freeStore pa v) ∨ (∃ pa, s.pc c = .freePush pa) ∨
      s.pc c = .freeRelease) :
    ∃ L' H', InvAt pages t L' H' := by
  have hown := h.pcs c
  unfold advance at ht
  rcases hpc with ⟨r, hpc⟩ | ⟨r, hpc⟩ | ⟨pa, hpc⟩ | ⟨pa, hpc⟩ | ⟨pa, v, hpc⟩ | ⟨pa, hpc⟩ | hpc <;>
    simp only [hpc] at ht hown
  · cases ht
    exact ⟨L, _, h.release c c _ hown (by simp [PC.locks, hpc]) (by simp [PC.locks])⟩
  · split_ifs at ht with hr
    · cases ht
      have hheld : H c = [r] := hown.trans (heldOf_ne r hr)
      refine ⟨L, _, h.handOver c _ r _ [] _ (Or.inl (by simp [hheld])) ?_ rfl
        (by simp [PC.locks, hpc])⟩
      intro x
      rw [hheld]
      simp only [List.count_cons, List.count_nil]
      omega
    · cases ht
      have hr0 : r = 0 := not_not.mp hr
      subst hr0
      exact ⟨L, _, h.read c _ hown (by simp [PC.locks, hpc])⟩
  · obtain ⟨hl, rfl⟩ := acquire_map ht
    exact ⟨L, _, h.acquire c c _ hl hown (by simp [PC.locks, hpc])⟩
  · cases ht
    exact ⟨L, _, h.read c _ ⟨hown.1, hown.2, rfl⟩ (by simp [PC.locks, hpc])⟩
  · cases ht
    obtain ⟨h1, h2, h3⟩ := hown
    refine ⟨L, _, h.storeHeld c _ pa v (by simp [h1]) ⟨h1, h2, ?_⟩ (by simp [PC.locks, hpc])⟩
    rw [Function.update_self, h3]
  · cases ht
    obtain ⟨h1, h2, h3⟩ := hown
    have hchain : Chain s.mem 0 pa (pa :: L c) := by
      apply Chain.cons h2
      rw [h3]
      exact h.chains c
    refine ⟨_, _, h.relist c c _ pa (pa :: L c) [] hchain rfl ?_ (by simp [PC.locks, hpc])
      (fun hc => absurd rfl hc) (by simp [PC.locks, hpc])⟩
    intro x
    rw [h1]
    simp only [List.count_cons, List.count_nil]
    omega
  · cases ht
    exact ⟨L, _, h.release c c _ hown (by simp [PC.locks, hpc]) (by simp [PC.locks])⟩

theorem step_inv (h : InvAt pages s L H) (e : Event N) (hf : Fresh s e)
    (ht : step s e = some t) : ∃ L' H', InvAt pages t L' H' := by
  cases e with
  | kalloc c =>
    simp only [step] at ht
    split_ifs at ht with hpc
    cases ht
    have hown := h.pcs c
    rw [hpc] at hown
    exact ⟨L, _, h.read c _ hown (by simp [PC.locks, hpc])⟩
  | kfree c pa =>
    simp only [step] at ht
    split_ifs at ht with hpc
    cases ht
    have hown := h.pcs c
    rw [hpc.1] at hown
    have hpos := List.count_pos_iff.mpr hpc.2
    refine ⟨L, _, h.handOver c _ pa _ [pa] _ (Or.inr hpc.2) ?_ ⟨rfl, ?_⟩
      (by simp [PC.locks, hpc.1])⟩
    · intro x
      rw [hown, List.count_erase, List.count_singleton, List.count_nil]
      by_cases hx : pa = x
      · subst hx
        simp only [beq_self_eq_true, if_true]
        omega
      · have hx' : (pa == x) = false := by simpa using hx
        simp [hx']
    · exact h.ne_zero pa (by omega)
  | advance c =>
    simp only [step] at ht
    cases hpc : s.pc c with
    | idle => simp [Kmem.advance, hpc] at ht
    | allocAcquire | allocRead | allocNext r | allocPop r v | allocRelease r
    | allocReacquire r => exact advance_alloc h c ht (by simp [hpc])
    | scan i | scanAcquire i r1 | scanMiss i => exact advance_scan h c ht hf (by simp [hpc])
    | walkInit i r | walkTest i r r1 r2 | walkSlow i r r1 r2 | walkFast i r r1 r2 =>
      exact advance_walk h c ht (by simp [hpc])
    | splitRead i r r1 | splitHead i r r1 v | splitCut i r r1 | splitRelease i r | takeRead r
    | takeHead r v => exact advance_split h c ht (by simp [hpc])
    | allocFinish r | allocReturn r | freeAcquire pa | freeRead pa | freeStore pa v
    | freePush pa | freeRelease => exact advance_rest h c ht (by simp [hpc])
  | write pa v =>
    simp only [step] at ht
    split_ifs at ht with hp
    cases ht
    have hpos := List.count_pos_iff.mpr hp
    have hoff (q : Nat) (hq : 0 < tally L q ∨ 0 < tally H q) :
        Function.update s.mem pa v q = s.mem q := by
      apply Function.update_of_ne
      rintro rfl
      have := h.le_one q
      omega
    have hl (x : Fin N) (q : Nat) (hq : q ∈ L x) : Function.update s.mem pa v q = s.mem q := by
      have := List.count_pos_iff.mpr hq
      have := count_le_tally L x q
      exact hoff q (Or.inl (by omega))
    have hh (x : Fin N) (q : Nat) (hq : q ∈ H x) : Function.update s.mem pa v q = s.mem q := by
      have := List.count_pos_iff.mpr hq
      have := count_le_tally H x q
      exact hoff q (Or.inr (by omega))
    exact ⟨L, H, fun x => (h.chains x).congr (hl x),
      fun d => (h.pcs d).frame (hh d) (fun i _ => hl i) (fun _ _ => ⟨rfl, rfl⟩) id,
      h.once, h.locks, h.null⟩

end Steps

section Boot

/-- kinit puts all pages on the list of the booting CPU, the last one first. -/
theorem kinit_inv (boot : Fin N) (pages : List Nat) (hnd : pages.Nodup) (h0 : 0 ∉ pages) :
    InvAt pages (kinit boot pages) (Function.update (fun _ => []) boot pages.reverse)
      (fun _ => []) := by
  have hshape (l : List Nat) (hl : l.Nodup) (hz : 0 ∉ l) :
      Chain (kinit boot l).mem 0 ((kinit boot l).freelist boot) l.reverse ∧
      (∀ c, c ≠ boot → (kinit boot l).freelist c = 0) ∧ (kinit boot l).owned = [] ∧
      (∀ c, (kinit boot l).pc c = .idle) ∧ ∀ c, (kinit boot l).lock c = none := by
    -- the list grows at its end, as freerange walks up the addresses
    induction l using List.reverseRecOn with
    | nil => exact ⟨rfl, fun _ _ => rfl, rfl, fun _ => rfl, fun _ => rfl⟩
    | append_singleton l p ih =>
      obtain ⟨hln, -, hdis⟩ := List.nodup_append.mp hl
      have hp0 : p ≠ 0 := by
        rintro rfl
        simp at hz
      obtain ⟨h1, h2, h3, h4, h5⟩ := ih hln (fun h => hz (by simp [h]))
      have hk : kinit boot (l ++ [p]) = bootFree boot (kinit boot l) p := by
        simp only [kinit, List.foldl_append, List.foldl_cons, List.foldl_nil]
      rw [hk]
      refine ⟨?_, ?_, h3, h4, h5⟩
      · simp only [bootFree, State.store, State.setHead, Function.update_self, List.reverse_append,
          List.reverse_singleton, List.singleton_append]
        apply Chain.cons hp0
        rw [Function.update_self]
        apply h1.congr
        intro q hq
        apply Function.update_of_ne
        rintro rfl
        exact hdis q (List.mem_reverse.mp hq) q (by simp) rfl
      · intro c hc
        simp only [bootFree, State.setHead, State.store, Function.update_of_ne hc]
        exact h2 c hc
  obtain ⟨h1, h2, h3, h4, h5⟩ := hshape pages hnd h0
  refine ⟨?_, ?_, ?_, ?_, h0⟩
  · intro c
    by_cases hc : c = boot
    · subst hc
      rw [Function.update_self]
      exact h1
    · rw [Function.update_of_ne hc, h2 c hc]
      rfl
  · intro c
    rw [h4 c]
    rfl
  · intro p
    have hu := tally_update (fun _ : Fin N => ([] : List Nat)) boot pages.reverse p
    have hz : tally (fun _ : Fin N => ([] : List Nat)) p = 0 := by simp [tally]
    rw [h3, hz, List.count_nil]
    rw [hz, List.count_nil, List.count_reverse] at hu
    rw [List.Nodup.count hnd] at hu
    omega
  · intro i d
    simp only [h5 i, h4 d, PC.locks]
    simp

end Boot

/-- The pages that the call at a program point holds. -/
def PC.Holds (mem : Nat → Nat) (H : List Nat) : PC N → Prop
  | .allocRelease r | .allocReacquire r | .allocFinish r | .allocReturn r => H = heldOf r
  | .splitCut _ r r1 => ∃ a t, H = a ++ [r1] ∧ Seg mem 0 r H t
  | .splitRelease _ r | .takeRead r => Chain mem 0 r H
  | .takeHead r t => ∃ l, H = r :: l ∧ Chain mem 0 t l
  | .freeAcquire pa | .freeRead pa | .freeStore pa _ | .freePush pa => H = [pa]
  | _ => H = []

theorem PcInv.holds {mem : Nat → Nat} {free : Fin N → Nat} {L : Fin N → List Nat} {c : Fin N}
    {H : List Nat} {q : PC N} (h : PcInv mem free L c H q) : q.Holds mem H := by
  cases q with
  | idle | allocAcquire | allocRead | freeRelease | allocFinish r | allocReturn r => exact h
  | allocNext r | allocPop r t | allocRelease r | allocReacquire r | scan i | scanAcquire i r1
  | scanMiss i | freeAcquire pa | freeRead pa | freeStore pa t | freePush pa => exact h.1
  | walkInit i r | walkTest i r r1 r2 | walkSlow i r r1 r2 | walkFast i r r1 r2
  | splitRead i r r1 | splitHead i r r1 t => exact h.1.none
  | splitCut i r r1 => exact h.2.2
  | splitRelease i r => exact h.2.2.2
  | takeRead r => exact h.2.2
  | takeHead r t => exact h.2.2

/-- Each page is in exactly one place: once on one free list, once among the owned pages
or once among the pages of one call. -/
def OnePlace (pages : List Nat) (s : State N) : Prop :=
  ∃ L H : Fin N → List Nat, (∀ c, Chain s.mem 0 (s.freelist c) (L c)) ∧
    (∀ c, (s.pc c).Holds s.mem (H c)) ∧
    ∀ p, tally L p + s.owned.count p + tally H p = if p ∈ pages then 1 else 0

/-- In every run in which a stealing CPU finds, once it has the victim's lock, the head it
has read before, each page is in exactly one place. -/
theorem pages_in_one_place (boot : Fin N) (pages : List Nat) (hnd : pages.Nodup)
    (h0 : 0 ∉ pages) (es : List (Event N)) (s : State N)
    (hf : Guarded step Fresh (kinit boot pages) es)
    (hr : run step (kinit boot pages) es = some s) : OnePlace pages s := by
  have hinv : ∃ L H, InvAt pages s L H := by
    refine guarded_run_invariant step Fresh (fun s => ∃ L H, InvAt pages s L H) ?_ _ s es
      ⟨_, _, kinit_inv boot pages hnd h0⟩ hf hr
    rintro s e t ⟨L, H, h⟩ hf ht
    exact step_inv h e hf ht
  obtain ⟨L, H, h⟩ := hinv
  exact ⟨L, H, h.chains, fun c => (h.pcs c).holds, h.once⟩

/-- CPU 1 steals from CPU 0, undisturbed. -/
def soloSteal : List (Event 8) := .kalloc 1 :: List.replicate 17 (.advance 1)

theorem pages_in_one_place_steal :
    ∃ s, run step (kinit 0 [4096, 8192]) soloSteal = some s ∧ s.owned = [8192] ∧
      OnePlace [4096, 8192] s := by
  have hrun : (run step (kinit 0 [4096, 8192]) soloSteal).map State.owned = some [8192] := rfl
  obtain ⟨s, hs, howned⟩ := Option.map_eq_some_iff.mp hrun
  exact ⟨s, hs, howned, pages_in_one_place 0 [4096, 8192] (by decide) (by decide) soloSteal s
    (by decide) hs⟩

/-- CPU 1 reads the head of CPU 0's list; CPU 0 then allocates that page and its caller
clears it; CPU 1 takes the lock and goes on with the page it has read. -/
def staleSteal : List (Event 8) :=
  .kalloc 1 :: List.replicate 5 (.advance 1) ++
  .kalloc 0 :: List.replicate 8 (.advance 0) ++
  .write 8192 0 :: List.replicate 11 (.advance 1)

/-- Page 8192 has two owners, and page 4096 is lost: all lists are empty. -/
theorem page_returned_twice :
    ∃ s, run step (kinit 0 [4096, 8192]) staleSteal = some s ∧ s.owned = [8192, 8192] ∧
      List.ofFn s.freelist = [0, 0, 0, 0, 0, 0, 0, 0] ∧ ¬OnePlace [4096, 8192] s := by
  have hrun : (run step (kinit 0 [4096, 8192]) staleSteal).map
      (fun s => (s.owned, List.ofFn s.freelist)) =
      some ([8192, 8192], [0, 0, 0, 0, 0, 0, 0, 0]) := rfl
  obtain ⟨s, hs, hend⟩ := Option.map_eq_some_iff.mp hrun
  obtain ⟨howned, hlists⟩ := Prod.mk.inj hend
  refine ⟨s, hs, howned, hlists, ?_⟩
  rintro ⟨L, H, -, -, h⟩
  have h1 := h 8192
  have h2 : ([8192, 8192] : List Nat).count 8192 = 2 := by decide
  rw [howned, h2, if_pos (by decide)] at h1
  omega

end Xv6Labs.Kmem
