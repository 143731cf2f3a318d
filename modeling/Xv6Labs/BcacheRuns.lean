import Xv6Labs.BcacheInv

/-! The buffer cache keeps one copy of a block: the steps of bget, brelse, bpin and bunpin
keep the invariant, in every interleaving. -/
namespace Xv6Labs.Bcache

variable {B P : Nat} {s : State B P} {L : Bucket → List (Fin B)}

section Moves

/-- A step of process `p` to the program point `q`. -/
theorem InvAt.move (h : InvAt s L) (p : Fin P) (q : PC B) (s' : State B P)
    (L' : Bucket → List (Fin B)) (hpc : s'.pc = Function.update s.pc p q)
    (hchains : ∀ i, Chain s'.next .null (.head i) (cells L' i))
    (honce : ∀ x, tally L' x + q.detached.count x = tally L x + (s.pc p).detached.count x)
    (hhash : ∀ i x, x ∈ L' i → s'.keyOf (.buf x) = i)
    (hused : ∀ x, 0 < (s'.buf (.buf x)).refcnt →
      cached s' L' (s'.buf (.buf x)).dev (s'.buf (.buf x)).blockno = some x)
    (hrefs : ∀ b, (s'.buf b).refcnt + s.pins b + (s.sleep b).toList.length +
        (s.pc p).refs.count b =
      (s.buf b).refcnt + s'.pins b + (s'.sleep b).toList.length + q.refs.count b)
    (hlock : Agree s'.bucketLock (Function.update (fun r => (s.pc r).buckets) p q.buckets))
    (hevict : Agree (fun _ : Unit => s'.evictionLock)
      (Function.update (fun r => (s.pc r).evicting) p q.evicting))
    (hq : PcInv s' L' p q) (hother : ∀ r, r ≠ p → PcInv s' L' r (s.pc r)) : InvAt s' L' := by
  refine ⟨hchains, ?_, hhash, hused, ?_, ?_, ?_, ?_⟩
  · intro x
    rw [hpc, family_update PC.detached]
    have h1 := tally_update (fun r => (s.pc r).detached) p q.detached x
    have h2 := honce x
    have h3 := h.once x
    omega
  · intro b
    rw [hpc, family_update PC.refs]
    have h1 := tally_update (fun r => (s.pc r).refs) p q.refs b
    have h2 := hrefs b
    have h3 := h.refs b
    omega
  · rw [hpc, family_update PC.buckets]
    exact hlock
  · rw [hpc, family_update PC.evicting]
    exact hevict
  · intro r
    rw [hpc]
    by_cases hr : r = p
    · subst hr
      rw [Function.update_self]
      exact hq
    · rw [Function.update_of_ne hr]
      exact hother r hr

/-- The block that each buffer holds. -/
def SameIds (s s' : State B P) : Prop :=
  ∀ b, (s'.buf b).dev = (s.buf b).dev ∧ (s'.buf b).blockno = (s.buf b).blockno

theorem SameIds.cached_eq {s' : State B P} (h : SameIds s s') (dev blockno : UInt32) :
    cached s' L dev blockno = cached s L dev blockno := by
  unfold cached State.Matches
  simp only [(h _).1, (h _).2]

theorem SameIds.keyOf_eq {s' : State B P} (h : SameIds s s') (b : Ptr B) :
    s'.keyOf b = s.keyOf b := by
  unfold State.keyOf
  rw [(h b).1, (h b).2]

theorem Candidate.congr {s' : State B P} {i : Nat} {least : Option (Ptr B)}
    {holding : Option Bucket} (h : Candidate s L i least holding)
    (hkeep : ∀ j x, j ∈ holding → x ∈ L j → (s.buf (.buf x)).refcnt = 0 →
      (s'.buf (.buf x)).refcnt = 0) : Candidate s' L i least holding := by
  match least, holding, h with
  | none, none, _ => trivial
  | some c, some j, ⟨hlt, k, x, r, a, hL, ha, h0⟩ =>
    exact ⟨hlt, k, x, r, a, hL, ha, hkeep j x rfl (by simp [hL]) h0⟩

/-- What another process knows stays true when a step moves no buffer and bumps an unused
buffer only under the lock of its bucket. -/
theorem PcInv.congr {s' : State B P} {r : Fin P} {q : PC B} (h : PcInv s L r q)
    (hids : SameIds s s') (hsleep : ∀ b, s.sleep b = some r → s'.sleep b = some r)
    (hkeep : ∀ x, (s.buf (.buf x)).refcnt = 0 → (x ∈ q.detached ∨ ∃ j ∈ q.buckets, x ∈ L j) →
      (s'.buf (.buf x)).refcnt = 0) : PcInv s' L r q := by
  have hmove (b : Ptr B) (hb : ∀ x ∈ b.bufs, x ∈ q.detached) (hu : Unused s b) : Unused s' b := by
    obtain ⟨x, rfl, h0⟩ := hu
    exact ⟨x, rfl, hkeep x h0 (Or.inl (hb x (by simp [Ptr.bufs])))⟩
  cases q with
  | recheckAcquire b dev blockno =>
    obtain ⟨x, hb, hx⟩ := h
    exact ⟨x, hb, by rw [hids.cached_eq, hx]⟩
  | scanAcquire i least holding dev blockno =>
    refine ⟨by rw [hids.cached_eq]; exact h.1, h.2.congr ?_⟩
    intro j x hj hx h0
    exact hkeep x h0 (Or.inr ⟨j, by simpa [PC.buckets] using hj, hx⟩)
  | scanRelease i j least holding dev blockno =>
    refine ⟨by rw [hids.cached_eq]; exact h.1, h.2.1.congr ?_, h.2.2⟩
    intro j x hj hx h0
    exact hkeep x h0 (Or.inr ⟨j, by simp [PC.buckets, Option.mem_def.mp hj], hx⟩)
  | moveRelease i b dev blockno =>
    exact ⟨by rw [hids.cached_eq]; exact h.1, hmove b (fun x hx => hx) h.2⟩
  | moveAcquire b dev blockno =>
    exact ⟨by rw [hids.cached_eq]; exact h.1, hmove b (fun x hx => hx) h.2⟩
  | bpinAcquire key b => exact hsleep b h
  | _ => trivial

/-- A step that moves no buffer and assigns none. -/
theorem InvAt.quiet (h : InvAt s L) (p : Fin P) (q : PC B) (s' : State B P)
    (hpc : s'.pc = Function.update s.pc p q) (hnext : s'.next = s.next) (hids : SameIds s s')
    (hdet : q.detached = (s.pc p).detached)
    (hrefs : ∀ b, (s'.buf b).refcnt + s.pins b + (s.sleep b).toList.length +
        (s.pc p).refs.count b =
      (s.buf b).refcnt + s'.pins b + (s'.sleep b).toList.length + q.refs.count b)
    (hsleep : ∀ b r, r ≠ p → s.sleep b = some r → s'.sleep b = some r)
    (hlock : Agree s'.bucketLock (Function.update (fun r => (s.pc r).buckets) p q.buckets))
    (hevict : Agree (fun _ : Unit => s'.evictionLock)
      (Function.update (fun r => (s.pc r).evicting) p q.evicting))
    (hq : PcInv s' L p q)
    (hbump : ∀ x, (s.buf (.buf x)).refcnt = 0 → 0 < (s'.buf (.buf x)).refcnt →
      cached s L (s.buf (.buf x)).dev (s.buf (.buf x)).blockno = some x ∧
        s.keyOf (.buf x) ∈ q.buckets) : InvAt s' L := by
  apply h.move p q s' L hpc _ (fun x => by rw [hdet]) _ _ hrefs hlock hevict hq
  · intro r hr
    apply (h.pcs r).congr hids (fun b => hsleep b r hr)
    intro x h0 hx
    by_contra hpos
    obtain ⟨hc, hkey⟩ := hbump x h0 (by omega)
    rcases hx with hx | ⟨j, hj, hx⟩
    · exact h.not_mem_of_detached r _ x hx (List.mem_of_find?_eq_some hc)
    · -- the bucket of `x` would be locked by both processes
      rw [h.hashed j x hx] at hkey
      apply hr
      apply hlock.unique j p r
      · rw [Function.update_self]
        exact hkey
      · rw [Function.update_of_ne hr]
        exact hj
  · rw [hnext]
    exact h.chains
  · intro i x hx
    rw [hids.keyOf_eq]
    exact h.hashed i x hx
  · intro x hx
    rw [hids.cached_eq, (hids _).1, (hids _).2]
    by_cases h0 : (s.buf (.buf x)).refcnt = 0
    · exact (hbump x h0 hx).1
    · exact h.used x (by omega)

/-- A step that changes locks only. -/
theorem InvAt.still (h : InvAt s L) (p : Fin P) (q : PC B) (bl : Bucket → Option (Fin P))
    (el : Option (Fin P)) (hdet : q.detached = (s.pc p).detached)
    (hrefs : q.refs = (s.pc p).refs)
    (hlock : Agree bl (Function.update (fun r => (s.pc r).buckets) p q.buckets))
    (hevict : Agree (fun _ : Unit => el)
      (Function.update (fun r => (s.pc r).evicting) p q.evicting))
    (hq : PcInv s L p q) :
    InvAt (State.goto { s with bucketLock := bl, evictionLock := el } p q) L := by
  apply h.quiet p q (State.goto { s with bucketLock := bl, evictionLock := el } p q) rfl rfl
    (fun b => ⟨rfl, rfl⟩) hdet _ (fun b r _ hb => hb) hlock hevict hq
  · intro x h0 hpos
    have h0' : 0 < (s.buf (.buf x)).refcnt := hpos
    omega
  · intro b
    rw [hrefs]
    rfl

/-- A step that takes and gives no lock. -/
theorem InvAt.go (h : InvAt s L) (p : Fin P) (q : PC B)
    (hdet : q.detached = (s.pc p).detached) (hrefs : q.refs = (s.pc p).refs)
    (hb : q.buckets = (s.pc p).buckets) (he : q.evicting = (s.pc p).evicting)
    (hq : PcInv s L p q) : InvAt (s.goto p q) L := by
  apply h.still p q s.bucketLock s.evictionLock hdet hrefs _ _ hq
  · exact h.buckets.keep p _ (fun j => by rw [hb])
  · exact h.evict.keep p _ (fun j => by rw [he])

theorem InvAt.acquire (h : InvAt s L) (p : Fin P) (i : Bucket) (q : PC B)
    (hfree : s.bucketLock i = none) (hdet : q.detached = (s.pc p).detached)
    (hrefs : q.refs = (s.pc p).refs)
    (hb : ∀ j, j ∈ q.buckets ↔ j = i ∨ j ∈ (s.pc p).buckets)
    (he : q.evicting = (s.pc p).evicting) (hq : PcInv s L p q) :
    InvAt (State.goto { s with bucketLock := Function.update s.bucketLock i (some p) } p q) L := by
  apply h.still p q _ s.evictionLock hdet hrefs _ _ hq
  · exact h.buckets.acquire p i _ hfree hb
  · exact h.evict.keep p _ (fun j => by rw [he])

theorem InvAt.release (h : InvAt s L) (p : Fin P) (i : Bucket) (q : PC B)
    (hdet : q.detached = (s.pc p).detached) (hrefs : q.refs = (s.pc p).refs)
    (hb : ∀ j, j ∈ (s.pc p).buckets ↔ j = i ∨ j ∈ q.buckets) (hi : i ∉ q.buckets)
    (he : q.evicting = (s.pc p).evicting) (hq : PcInv s L p q) :
    InvAt ((s.release i).goto p q) L := by
  apply h.still p q _ s.evictionLock hdet hrefs _ _ hq
  · exact h.buckets.release p i _ hb hi
  · exact h.evict.keep p _ (fun j => by rw [he])

/-- release of the eviction lock. -/
theorem InvAt.releaseEviction (h : InvAt s L) (p : Fin P) (q : PC B)
    (hdet : q.detached = (s.pc p).detached) (hrefs : q.refs = (s.pc p).refs)
    (hb : q.buckets = (s.pc p).buckets) (he : (s.pc p).evicting = [()])
    (he' : q.evicting = []) (hq : PcInv s L p q) :
    InvAt (State.goto { s with evictionLock := none } p q) L := by
  apply h.still p q s.bucketLock none hdet hrefs _ _ hq
  · exact h.buckets.keep p _ (fun j => by rw [hb])
  · have hr := h.evict.release p () q.evicting (by simp [he, he']) (by simp [he'])
    intro j r
    have hjr := hr j r
    rwa [Function.update_self] at hjr

/-- acquire of the lock of bucket `i`, with a new reference count and pins for `b`. -/
theorem InvAt.adjust (h : InvAt s L) (p : Fin P) (i : Bucket) (q : PC B) (b : Ptr B) (v : Buf)
    (pins : Ptr B → Nat) (hfree : s.bucketLock i = none)
    (hdet : q.detached = (s.pc p).detached)
    (hb : ∀ j, j ∈ q.buckets ↔ j = i ∨ j ∈ (s.pc p).buckets)
    (he : q.evicting = (s.pc p).evicting) (hq : ∀ t : State B P, PcInv t L p q)
    (hv : v.dev = (s.buf b).dev ∧ v.blockno = (s.buf b).blockno)
    (hcount : v.refcnt + s.pins b + (s.pc p).refs.count b =
      (s.buf b).refcnt + pins b + q.refs.count b)
    (hrest : ∀ c, c ≠ b → (s.pc p).refs.count c = q.refs.count c ∧ pins c = s.pins c)
    (hbump : (s.buf b).refcnt = 0 → ∃ x, b = .buf x ∧
      cached s L (s.buf b).dev (s.buf b).blockno = some x ∧ i = s.keyOf b) :
    InvAt (State.goto { s with
      bucketLock := Function.update s.bucketLock i (some p)
      buf := Function.update s.buf b v
      pins := pins } p q) L := by
  have hids (c : Ptr B) : (Function.update s.buf b v c).dev = (s.buf c).dev ∧
      (Function.update s.buf b v c).blockno = (s.buf c).blockno := by
    by_cases hc : c = b
    · subst hc
      rw [Function.update_self]
      exact hv
    · rw [Function.update_of_ne hc]
      exact ⟨rfl, rfl⟩
  refine h.quiet p q _ rfl rfl hids hdet ?_ (fun b r _ hb => hb)
    (h.buckets.acquire p i _ hfree hb) (h.evict.keep p _ (fun j => by rw [he])) (hq _) ?_
  · intro c
    simp only [State.goto]
    by_cases hc : c = b
    · subst hc
      rw [Function.update_self]
      omega
    · rw [Function.update_of_ne hc, (hrest c hc).1, (hrest c hc).2]
  · intro x h0 hpos
    by_cases hx : Ptr.buf x = b
    · subst hx
      obtain ⟨y, hy, hc, rfl⟩ := hbump h0
      cases hy
      exact ⟨hc, (hb _).mpr (Or.inl rfl)⟩
    · simp only [State.goto, Function.update_of_ne hx] at hpos
      omega

end Moves

section Victim

/-- The steps of the process with the eviction lock. -/
theorem PcInv.of_evictor (h : InvAt s L) (p r : Fin P) (hr : r ≠ p)
    (hp : (s.pc p).evicting = [()]) (s' : State B P) (L' : Bucket → List (Fin B))
    (hsleep : s'.sleep = s.sleep) : PcInv s' L' r (s.pc r) := by
  have hne : () ∉ (s.pc r).evicting := by
    intro hin
    exact hr (h.evict.unique () p r (by simp [hp]) hin)
  have hpc := h.pcs r
  cases hq : s.pc r with
  | bpinAcquire key b =>
    rw [hq] at hpc
    change s'.sleep b = some r
    rw [hsleep]
    exact hpc
  | _ => first | trivial | simp [hq, PC.evicting] at hne

/-- The victim has been taken out of the chain of bucket `i`. -/
theorem InvAt.detach (h : InvAt s L) (p : Fin P) (i : Bucket) (c : Ptr B) (k r : List (Fin B))
    (x : Fin B) (a : List (Ptr B)) (dev blockno : UInt32) (hev : (s.pc p).evicting = [()])
    (hb : (s.pc p).buckets = [i]) (hrefs : (s.pc p).refs = []) (hdet : (s.pc p).detached = [])
    (hL : L i = k ++ x :: r) (ha : Ptr.head i :: k.map .buf = a ++ [c])
    (h0 : (s.buf (.buf x)).refcnt = 0) (hmiss : cached s L dev blockno = none) :
    InvAt (State.goto { s with next := Function.update s.next c (s.next (.buf x)) } p
      (.moveRelease i (.buf x) dev blockno)) (Function.update L i (k ++ r)) := by
  have hsub (j : Bucket) (y : Fin B) (hy : y ∈ Function.update L i (k ++ r) j) : y ∈ L j := by
    by_cases hj : j = i
    · subst hj
      rw [Function.update_self] at hy
      rw [hL]
      simp only [List.mem_append, List.mem_cons] at hy ⊢
      tauto
    · rwa [Function.update_of_ne hj] at hy
  refine h.move p _ _ _ rfl ?_ ?_ ?_ ?_ ?_ ?_ ?_ ?_ ?_
  · exact (h.chained.unlink hL ha).chains
  · intro y
    have ht := tally_update L i (k ++ r) y
    rw [hL] at ht
    simp only [List.count_append, List.count_cons] at ht
    rw [hdet]
    simp only [PC.detached, Ptr.bufs, List.count_cons, List.count_nil]
    omega
  · intro j y hy
    exact h.hashed j y (hsub j y hy)
  · intro y hy
    have hcy := h.used y hy
    have hne : x ≠ y := by
      rintro rfl
      have hpos : 0 < (s.buf (.buf x)).refcnt := hy
      omega
    unfold cached at hcy ⊢
    by_cases hj : BUFMAP_HASH (s.buf (.buf y)).dev (s.buf (.buf y)).blockno = i
    · simp only [State.goto, hj, Function.update_self]
      rw [hj, hL] at hcy
      exact find?_remove hcy hne
    · simp only [State.goto, Function.update_of_ne hj]
      exact hcy
  · intro b
    rw [hrefs]
    rfl
  · exact h.buckets.keep p _ (fun j => by rw [hb]; rfl)
  · exact h.evict.keep p _ (fun j => by rw [hev]; rfl)
  · refine ⟨?_, x, rfl, h0⟩
    apply List.find?_eq_none.mpr
    intro y hy
    exact Bool.eq_false_iff.mp (cached_none hmiss (hsub _ y hy))
  · intro q hq
    exact PcInv.of_evictor h p q hq hev _ _ rfl

/-- The searches after buffer `x` has been given the block `(dev, blockno)`, which no
chained buffer had. -/
theorem cached_assign (h : InvAt s L) (x : Fin B) (dev blockno : UInt32)
    (L' : Bucket → List (Fin B)) (s' : State B P)
    (hfilter : ∀ j, (L' j).filter (· ≠ x) = (L j).filter (· ≠ x))
    (hx : x ∈ L' (BUFMAP_HASH dev blockno)) (h0 : (s.buf (.buf x)).refcnt = 0)
    (hmiss : cached s L dev blockno = none)
    (hid : (s'.buf (.buf x)).dev = dev ∧ (s'.buf (.buf x)).blockno = blockno)
    (hsame : ∀ y, y ≠ x → s'.buf (.buf y) = s.buf (.buf y)) (z : Fin B)
    (hz : 0 < (s'.buf (.buf z)).refcnt) :
    cached s' L' (s'.buf (.buf z)).dev (s'.buf (.buf z)).blockno = some z := by
  have hother (d n : UInt32) (y : Fin B) (hy : y ≠ x) :
      s'.Matches d n (.buf y) = s.Matches d n (.buf y) := by
    unfold State.Matches
    rw [hsame y hy]
  have hmem (j : Bucket) (y : Fin B) (hy : y ≠ x) (hyj : y ∈ L' j) : y ∈ L j := by
    have hin : y ∈ (L' j).filter (· ≠ x) := List.mem_filter.mpr ⟨hyj, by simpa using hy⟩
    rw [hfilter] at hin
    exact (List.mem_filter.mp hin).1
  by_cases hzx : z = x
  · subst hzx
    rw [hid.1, hid.2]
    -- the only match in the chain
    have honly (y : Fin B) (hy : y ∈ L' (BUFMAP_HASH dev blockno))
        (hm : s'.Matches dev blockno (.buf y) = true) : y = z := by
      by_contra hne
      rw [hother _ _ y hne, cached_none hmiss (hmem _ y hne hy)] at hm
      cases hm
    have hmz : s'.Matches dev blockno (.buf z) = true := by simp [State.Matches, hid]
    unfold cached
    cases hf : (L' (BUFMAP_HASH dev blockno)).find? (fun y => s'.Matches dev blockno (.buf y)) with
    | none => exact absurd hmz (List.find?_eq_none.mp hf z hx)
    | some y =>
      have hm := List.find?_some hf
      rw [honly y (List.mem_of_find?_eq_some hf) hm]
  · rw [hsame z hzx] at hz ⊢
    have hused := h.used z hz
    obtain ⟨-, -, hzin⟩ := cached_some hused
    -- `z` holds another block, so `x` is no match for it
    have hmx : s'.Matches (s.buf (.buf z)).dev (s.buf (.buf z)).blockno (.buf x) = false := by
      unfold State.Matches
      rw [hid.1, hid.2]
      by_contra hm
      simp only [Bool.not_eq_false, Bool.and_eq_true, beq_iff_eq] at hm
      rw [← hm.1, ← hm.2] at hzin
      have hm' := cached_none hmiss hzin
      simp [State.Matches, hm.1, hm.2] at hm'
    have hfirst : ((L (s.keyOf (.buf z))).filter (· ≠ x)).find?
        (fun y => s.Matches (s.buf (.buf z)).dev (s.buf (.buf z)).blockno (.buf y)) = some z := by
      rw [List.find?_filter]
      apply find?_of_imp hused
      · simp [hzx, State.Matches]
      · intro y _ hy
        exact (of_decide_eq_true hy).2
    rw [← hfilter, List.find?_filter] at hfirst
    apply find?_of_imp hfirst
    · rw [hother _ _ z hzx]
      simp [State.Matches]
    · intro y _ hy
      have hyx : y ≠ x := by
        rintro rfl
        rw [hmx] at hy
        cases hy
      rw [hother _ _ y hyx] at hy
      simp [hyx, hy]

/-- The victim gets its new block, in its old chain or in the new one. -/
theorem InvAt.assign (h : InvAt s L) (p : Fin P) (x : Fin B) (dev blockno : UInt32)
    (next : Ptr B → Ptr B) (bl : Bucket → Option (Fin P)) (L' : Bucket → List (Fin B))
    (hev : (s.pc p).evicting = [()]) (hrefs : (s.pc p).refs = [])
    (hchains : ∀ i, Chain next .null (.head i) (cells L' i))
    (honce : ∀ y, tally L' y = tally L y + (s.pc p).detached.count y)
    (hfilter : ∀ j, (L' j).filter (· ≠ x) = (L j).filter (· ≠ x))
    (hx : ∀ j, x ∈ L' j ↔ j = BUFMAP_HASH dev blockno) (h0 : (s.buf (.buf x)).refcnt = 0)
    (hmiss : cached s L dev blockno = none)
    (hlock : Agree bl (Function.update (fun r => (s.pc r).buckets) p
      [BUFMAP_HASH dev blockno])) :
    InvAt ((State.assign { s with next := next, bucketLock := bl } (.buf x) dev blockno).goto p
      (.assignRelease (BUFMAP_HASH dev blockno) (.buf x))) L' := by
  have hne (y : Fin B) (hy : y ≠ x) : Ptr.buf y ≠ Ptr.buf x := by
    intro he
    cases he
    exact hy rfl
  refine h.move p _ _ _ rfl hchains ?_ ?_ ?_ ?_ hlock ?_ trivial ?_
  · intro y
    rw [honce y]
    rfl
  · intro j y hy
    simp only [State.keyOf, State.goto, State.assign]
    by_cases hyx : y = x
    · subst hyx
      rw [Function.update_self]
      exact ((hx j).mp hy).symm
    · rw [Function.update_of_ne (hne y hyx)]
      have hin : y ∈ (L' j).filter (· ≠ x) := List.mem_filter.mpr ⟨hy, by simpa using hyx⟩
      rw [hfilter] at hin
      exact h.hashed j y (List.mem_filter.mp hin).1
  · intro z hz
    apply cached_assign h x dev blockno L' _ hfilter ((hx _).mpr rfl) h0 hmiss _ _ z hz
    · simp [State.goto, State.assign]
    · intro y hy
      exact Function.update_of_ne (hne y hy) _ _
  · intro b
    rw [hrefs]
    simp only [State.goto, State.assign, PC.refs]
    by_cases hb : b = .buf x
    · subst hb
      simp only [Function.update_self, h0, List.count_nil, List.count_singleton_self]
      omega
    · rw [Function.update_of_ne hb, List.count_singleton, if_neg (by simpa using Ne.symm hb)]
      simp
  · exact h.evict.keep p _ (fun j => by rw [hev]; rfl)
  · intro r hr
    exact PcInv.of_evictor h p r hr hev _ _ rfl

/-- Only unused buffers get another block. -/
def Reassigns (s s' : State B P) : Prop :=
  ∀ b, (s'.buf b).dev ≠ (s.buf b).dev ∨ (s'.buf b).blockno ≠ (s.buf b).blockno →
    (s.buf b).refcnt = 0

theorem SameIds.reassigns {s' : State B P} (h : SameIds s s') : Reassigns s s' := by
  intro b hb
  rcases hb with hb | hb
  · exact absurd (h b).1 hb
  · exact absurd (h b).2 hb

theorem assign_reassigns (b c : Ptr B) (dev blockno : UInt32) (hc : (s.buf c).refcnt = 0)
    (hb : ((s.assign c dev blockno).buf b).dev ≠ (s.buf b).dev ∨
      ((s.assign c dev blockno).buf b).blockno ≠ (s.buf b).blockno) :
    (s.buf b).refcnt = 0 := by
  by_cases hbc : b = c
  · rw [hbc]
    exact hc
  · simp [State.assign, Function.update_of_ne hbc] at hb

/-- What a step leads to. -/
def Next (s s' : State B P) : Prop := (∃ L', InvAt s' L') ∧ Reassigns s s'

theorem chooseVictim_next (h : InvAt s L) (p : Fin P) (i : Nat) (least : Option (Ptr B))
    (holding : Option Bucket) (dev blockno : UInt32)
    (hpc : s.pc p = .scanAcquire i least holding dev blockno) (s' : State B P)
    (hs : chooseVictim s p least holding dev blockno = some s') : Next s s' := by
  have hinv := h.pcs p
  rw [hpc] at hinv
  obtain ⟨hmiss, hcand⟩ := hinv
  match least, holding, hcand with
  | none, none, _ => cases hs
  | some c, some j, ⟨_, k, x, r, a, hL, ha, h0⟩ =>
    have hchain := h.chains j
    rw [cells_of_candidate hL ha] at hchain
    have hb : s.next c = .buf x := hchain.next_of_append
    simp only [chooseVictim, hb] at hs
    split at hs
    · cases hs
      refine ⟨⟨Function.update L j (k ++ r), ?_⟩, SameIds.reassigns (fun b => ⟨rfl, rfl⟩)⟩
      apply h.detach p j c k r x a dev blockno _ _ _ _ hL ha h0 hmiss
      all_goals rw [hpc]; rfl
    · rename_i hj
      have hj : j = BUFMAP_HASH dev blockno := not_not.mp hj
      subst hj
      cases hs
      refine ⟨⟨L, ?_⟩, fun b hb => assign_reassigns b _ dev blockno h0 hb⟩
      apply h.assign p x dev blockno s.next s.bucketLock L _ _ h.chains _ (fun _ => rfl) _ h0 hmiss
      · exact h.buckets.keep p _ (fun j => by rw [hpc]; rfl)
      · rw [hpc]
        rfl
      · rw [hpc]
        rfl
      · intro y
        rw [hpc]
        rfl
      · have hx : x ∈ L (BUFMAP_HASH dev blockno) := by simp [hL]
        intro j
        constructor
        · intro hj
          exact h.chained.bucket_unique j _ x hj hx
        · rintro rfl
          exact hx

/-- The head of the scan loop, in a state `t` where the process has the locks for it. -/
theorem scanNext_next (p : Fin P) (i : Nat) (least : Option (Ptr B)) (holding : Option Bucket)
    (dev blockno : UInt32) (t s' : State B P)
    (hs : scanNext t p i least holding dev blockno = some s') (hbuf : t.buf = s.buf)
    (h : InvAt (t.goto p (.scanAcquire i least holding dev blockno)) L) : Next s s' := by
  have hnext : Next t s' := by
    unfold scanNext at hs
    split at hs
    · cases hs
      exact ⟨⟨L, h⟩, SameIds.reassigns (fun b => ⟨rfl, rfl⟩)⟩
    · have hgoto : chooseVictim (t.goto p (.scanAcquire i least holding dev blockno)) p least
          holding dev blockno = some s' := by
        rw [← hs]
        unfold chooseVictim
        simp [State.goto, State.assign]
      exact chooseVictim_next h p i least holding dev blockno (by simp [State.goto]) s' hgoto
  refine ⟨hnext.1, ?_⟩
  have hre := hnext.2
  unfold Reassigns at hre
  rw [hbuf] at hre
  exact hre

/-- The victim is put at the head of its new chain. -/
theorem moveAcquire_inv (h : InvAt s L) (p : Fin P) (x : Fin B) (dev blockno : UInt32)
    (hpc : s.pc p = .moveAcquire (.buf x) dev blockno)
    (hfree : s.bucketLock (BUFMAP_HASH dev blockno) = none) :
    InvAt ((State.assign { s with
        next := Function.update (Function.update s.next (.buf x)
          (s.next (.head (BUFMAP_HASH dev blockno)))) (.head (BUFMAP_HASH dev blockno)) (.buf x)
        bucketLock := Function.update s.bucketLock (BUFMAP_HASH dev blockno) (some p) }
      (.buf x) dev blockno).goto p (.assignRelease (BUFMAP_HASH dev blockno) (.buf x)))
      (Function.update L (BUFMAP_HASH dev blockno) (x :: L (BUFMAP_HASH dev blockno))) := by
  have hinv := h.pcs p
  rw [hpc] at hinv
  obtain ⟨hmiss, y, hy, h0⟩ := hinv
  have hdet : (s.pc p).detached = [x] := by rw [hpc]; rfl
  have hout (j : Bucket) : x ∉ L j := h.not_mem_of_detached p j x (by simp [hdet])
  apply h.assign p x dev blockno _ _ _ _ _ _ _ _ _ h0 hmiss
  · exact h.buckets.acquire p _ _ hfree (fun j => by rw [hpc]; simp [PC.buckets])
  · rw [hpc]
    rfl
  · rw [hpc]
    rfl
  · exact (h.chained.insert _ x hout).chains
  · intro z
    have ht := tally_update L (BUFMAP_HASH dev blockno) (x :: L (BUFMAP_HASH dev blockno)) z
    rw [hdet]
    simp only [List.count_cons, List.count_nil] at ht ⊢
    omega
  · intro j
    by_cases hj : j = BUFMAP_HASH dev blockno
    · subst hj
      rw [Function.update_self, List.filter_cons_of_neg (by simp)]
    · rw [Function.update_of_ne hj]
  · intro j
    by_cases hj : j = BUFMAP_HASH dev blockno
    · simp [hj]
    · rw [Function.update_of_ne hj]
      simp [hj, hout j]

end Victim

section Steps

theorem acquire_eq_some {p : Fin P} {i : Bucket} {t : State B P} (h : s.acquire p i = some t) :
    s.bucketLock i = none ∧
      t = { s with bucketLock := Function.update s.bucketLock i (some p) } := by
  unfold State.acquire at h
  split at h
  · cases h
    exact ⟨‹_›, rfl⟩
  · cases h

/-- A process that has counted a reference to `b`, or has its sleep lock, keeps it used. -/
theorem InvAt.refcnt_pos (h : InvAt s L) (p : Fin P) (b : Ptr B)
    (hb : b ∈ (s.pc p).refs ∨ s.sleep b = some p) : 0 < (s.buf b).refcnt := by
  have hr := h.refs b
  rcases hb with hb | hb
  · have h1 := count_le_tally (fun p => (s.pc p).refs) p b
    have h2 := List.count_pos_iff.mpr hb
    omega
  · rw [hb] at hr
    simp at hr
    omega

/-- acquire with a first reference or one more to the buffer that the search has found. -/
theorem hit_next (h : InvAt s L) (p : Fin P) (dev blockno : UInt32) (x : Fin B) (q : PC B)
    (hfree : s.bucketLock (BUFMAP_HASH dev blockno) = none)
    (hx : cached s L dev blockno = some x) (hb : (s.pc p).buckets = [])
    (hrefs : (s.pc p).refs = []) (hdet : q.detached = (s.pc p).detached)
    (hqb : q.buckets = [BUFMAP_HASH dev blockno]) (hqr : q.refs = [.buf x])
    (he : q.evicting = (s.pc p).evicting) (hq : ∀ t : State B P, PcInv t L p q) (s' : State B P)
    (hs : s' = (State.setRefcnt { s with
      bucketLock := Function.update s.bucketLock (BUFMAP_HASH dev blockno) (some p) }
      (.buf x) ((s.buf (.buf x)).refcnt + 1)).goto p q) : Next s s' := by
  obtain ⟨hd, hn, -⟩ := cached_some hx
  subst hs
  refine ⟨⟨L, ?_⟩, SameIds.reassigns ?_⟩
  · apply h.adjust p (BUFMAP_HASH dev blockno) q (.buf x) _ s.pins hfree hdet
    · simp [hqb, hb]
    · exact he
    · exact hq
    · exact ⟨rfl, rfl⟩
    · rw [hrefs, hqr]
      simp
      omega
    · intro c hc
      rw [hrefs, hqr, List.count_nil, List.count_singleton, if_neg (by simpa using Ne.symm hc)]
      exact ⟨rfl, rfl⟩
    · intro _
      refine ⟨x, rfl, ?_, ?_⟩
      · rw [hd, hn]
        exact hx
      · rw [State.keyOf, hd, hn]
  · intro b
    simp only [State.goto, State.setRefcnt]
    by_cases hbx : b = .buf x
    · subst hbx
      rw [Function.update_self]
      exact ⟨rfl, rfl⟩
    · rw [Function.update_of_ne hbx]
      exact ⟨rfl, rfl⟩

/-- acquire with a new count for a buffer that is in use. -/
theorem count_next (h : InvAt s L) (p : Fin P) (key : Bucket) (b : Ptr B) (v : Buf)
    (pins : Ptr B → Nat) (hfree : s.bucketLock key = none) (hb : (s.pc p).buckets = [])
    (hdet : (s.pc p).detached = []) (he : (s.pc p).evicting = [])
    (hpos : 0 < (s.buf b).refcnt)
    (hv : v.dev = (s.buf b).dev ∧ v.blockno = (s.buf b).blockno)
    (hcount : v.refcnt + s.pins b + (s.pc p).refs.count b = (s.buf b).refcnt + pins b)
    (hrest : ∀ c, c ≠ b → (s.pc p).refs.count c = 0 ∧ pins c = s.pins c) :
    Next s (State.goto { s with
      bucketLock := Function.update s.bucketLock key (some p)
      buf := Function.update s.buf b v
      pins := pins } p (.bucketRelease key)) := by
  refine ⟨⟨L, ?_⟩, SameIds.reassigns ?_⟩
  · apply h.adjust p key (.bucketRelease key) b v pins hfree
    · rw [hdet]
      rfl
    · intro j
      rw [hb]
      simp [PC.buckets]
    · rw [he]
      rfl
    · intro t
      trivial
    · exact hv
    · exact hcount
    · exact hrest
    · omega
  · intro c
    simp only [State.goto]
    by_cases hc : c = b
    · subst hc
      rw [Function.update_self]
      exact hv
    · rw [Function.update_of_ne hc]
      exact ⟨rfl, rfl⟩

/-- A step that assigns no buffer. -/
theorem InvAt.next {s' : State B P} (h : InvAt s' L) (hbuf : s'.buf = s.buf) : Next s s' :=
  ⟨⟨L, h⟩, SameIds.reassigns (fun b => by rw [hbuf]; exact ⟨rfl, rfl⟩)⟩

theorem getAcquire_next (h : InvAt s L) (p : Fin P) (dev blockno : UInt32)
    (hpc : s.pc p = .getAcquire dev blockno) (s' : State B P)
    (hs : advance s p = some s') : Next s s' := by
  simp only [advance, hpc, Option.map_eq_some_iff] at hs
  obtain ⟨t, ht, hs⟩ := hs
  obtain ⟨hfree, ht⟩ := acquire_eq_some ht
  rw [bucketLookup_eq h.chained t dev blockno (by rw [ht]) (by rw [ht])] at hs
  subst ht
  cases hx : cached s L dev blockno with
  | some x =>
    rw [hx] at hs
    apply hit_next h p dev blockno x (.getHit (BUFMAP_HASH dev blockno) (.buf x)) hfree hx
    case hs => exact hs.symm
    all_goals first | rw [hpc]; rfl | rfl | exact fun t => trivial
  | none =>
    rw [hx] at hs
    cases hs
    refine InvAt.next (L := L) ?_ rfl
    apply h.acquire p _ _ hfree
    · rw [hpc]
      rfl
    · rw [hpc]
      rfl
    · intro j
      rw [hpc]
      simp [PC.buckets]
    · rw [hpc]
      rfl
    · trivial

theorem evictAcquire_next (h : InvAt s L) (p : Fin P) (dev blockno : UInt32)
    (hpc : s.pc p = .evictAcquire dev blockno) (s' : State B P)
    (hs : advance s p = some s') : Next s s' := by
  simp only [advance, hpc] at hs
  split at hs
  · rename_i hfree
    have hlook : bucketLookup { s with evictionLock := some p } dev blockno =
      (cached s L dev blockno).map .buf := bucketLookup_eq h.chained _ dev blockno rfl rfl
    rw [hlook] at hs
    -- the process gets the eviction lock and goes on to `q`
    have hgo (q : PC B) (hd : q.detached = []) (hr : q.refs = []) (hb : q.buckets = [])
        (he : q.evicting = [()]) (hq : PcInv s L p q) :
        InvAt (State.goto { s with evictionLock := some p } p q) L := by
      apply h.still p q s.bucketLock (some p) _ _ _ _ hq
      · rw [hd, hpc]
        rfl
      · rw [hr, hpc]
        rfl
      · exact h.buckets.keep p _ (fun j => by rw [hb, hpc]; rfl)
      · have ha := h.evict.acquire p () q.evicting hfree (fun j => by rw [he, hpc]; simp)
        intro j r
        have hjr := ha j r
        rwa [Function.update_self] at hjr
    cases hx : cached s L dev blockno with
    | some x =>
      rw [hx] at hs
      cases hs
      exact InvAt.next (hgo (.recheckAcquire (.buf x) dev blockno) rfl rfl rfl rfl ⟨x, rfl, hx⟩)
        rfl
    | none =>
      rw [hx] at hs
      apply scanNext_next p 0 none none dev blockno _ s' hs rfl
      exact hgo (.scanAcquire 0 none none dev blockno) rfl rfl rfl rfl ⟨hx, trivial⟩
  · cases hs

theorem recheckAcquire_next (h : InvAt s L) (p : Fin P) (b : Ptr B) (dev blockno : UInt32)
    (hpc : s.pc p = .recheckAcquire b dev blockno) (s' : State B P)
    (hs : advance s p = some s') : Next s s' := by
  have hinv := h.pcs p
  rw [hpc] at hinv
  obtain ⟨x, rfl, hx⟩ := hinv
  simp only [advance, hpc, Option.map_eq_some_iff] at hs
  obtain ⟨t, ht, hs⟩ := hs
  obtain ⟨hfree, rfl⟩ := acquire_eq_some ht
  apply hit_next h p dev blockno x (.recheckRelease (BUFMAP_HASH dev blockno) (.buf x)) hfree hx
  case hs => exact hs.symm
  all_goals first | rw [hpc]; rfl | rfl | exact fun t => trivial

theorem Candidate.mono {i j : Nat} {least : Option (Ptr B)} {holding : Option Bucket}
    (h : Candidate s L i least holding) (hij : i ≤ j) : Candidate s L j least holding := by
  match least, holding, h with
  | none, none, _ => trivial
  | some c, some k, ⟨hlt, hrest⟩ => exact ⟨by omega, hrest⟩

theorem Candidate.not_mem {i : Nat} {least : Option (Ptr B)} {holding : Option Bucket}
    (h : Candidate s L i least holding) (k : Bucket) (hk : i ≤ k.val) : k ∉ holding := by
  match least, holding, h with
  | none, none, _ => simp
  | some c, some j, ⟨hlt, _⟩ =>
    intro hj
    cases hj
    omega

theorem scanAcquire_next (h : InvAt s L) (p : Fin P) (i : Nat) (least : Option (Ptr B))
    (holding : Option Bucket) (dev blockno : UInt32)
    (hpc : s.pc p = .scanAcquire i least holding dev blockno) (s' : State B P)
    (hs : advance s p = some s') : Next s s' := by
  have hinv := h.pcs p
  rw [hpc] at hinv
  obtain ⟨hmiss, hcand⟩ := hinv
  simp only [advance, hpc] at hs
  split at hs
  · rename_i hi
    obtain ⟨t, ht, hs⟩ := Option.bind_eq_some_iff.mp hs
    obtain ⟨hfree, rfl⟩ := acquire_eq_some ht
    -- the process gets the lock of bucket `i` and goes on to `q`
    have hgo (q : PC B) (hd : q.detached = []) (hr : q.refs = [])
        (hb : ∀ j, j ∈ q.buckets ↔ j = ⟨i, hi⟩ ∨ j ∈ holding) (he : q.evicting = [()])
        (hq : PcInv s L p q) :
        InvAt (State.goto { s with bucketLock := Function.update s.bucketLock ⟨i, hi⟩ (some p) }
          p q) L := by
      apply h.acquire p ⟨i, hi⟩ q hfree _ _ _ _ hq
      · rw [hd, hpc]
        rfl
      · rw [hr, hpc]
        rfl
      · intro j
        rw [hb, hpc]
        simp [PC.buckets]
      · rw [he, hpc]
        rfl
    have hchain := h.chains ⟨i, hi⟩
    have hspec := scanBucket_spec (L := L)
      (s := { s with bucketLock := Function.update s.bucketLock ⟨i, hi⟩ (some p) })
      ⟨i, hi⟩ (B+1) (.head ⟨i, hi⟩) [] (L ⟨i, hi⟩) [] least false rfl rfl hchain.2.2
    rcases hspec with hscan | ⟨c, k, x, r, a, hscan, hL, ha, h0⟩
    · rw [hscan] at hs
      cases hs
      refine InvAt.next (hgo _ rfl rfl ?_ rfl ⟨hmiss, hcand.mono (by omega), ?_⟩) rfl
      · intro j
        simp [PC.buckets]
      · exact hcand.not_mem ⟨i, hi⟩ (le_refl i)
    · rw [hscan] at hs
      have hcand' : Candidate s L (i+1) (some c) (some ⟨i, hi⟩) :=
        ⟨by simp, k, x, r, a, hL, ha, h0⟩
      cases holding with
      | some j =>
        cases hs
        refine InvAt.next (hgo _ rfl rfl ?_ rfl ⟨hmiss, hcand', ?_⟩) rfl
        · intro m
          simp [PC.buckets]
          tauto
        · have hj := hcand.not_mem ⟨i, hi⟩ (le_refl i)
          simpa [eq_comm] using hj
      | none =>
        apply scanNext_next p (i+1) (some c) (some ⟨i, hi⟩) dev blockno _ s' hs rfl
        exact hgo (.scanAcquire (i+1) (some c) (some ⟨i, hi⟩) dev blockno) rfl rfl
          (by simp [PC.buckets]) rfl ⟨hmiss, hcand'⟩
  · cases hs

/-- A step that takes or gives the sleep lock of `b`. -/
theorem sleep_next (h : InvAt s L) (p : Fin P) (b : Ptr B) (o : Option (Fin P)) (q : PC B)
    (hown : ∀ r, r ≠ p → s.sleep b ≠ some r) (hb : q.buckets = (s.pc p).buckets)
    (hdet : q.detached = (s.pc p).detached) (he : q.evicting = (s.pc p).evicting)
    (hcount : (s.sleep b).toList.length + (s.pc p).refs.count b =
      o.toList.length + q.refs.count b)
    (hrest : ∀ c, c ≠ b → (s.pc p).refs.count c = q.refs.count c)
    (hq : ∀ t : State B P, PcInv t L p q) :
    Next s (State.goto { s with sleep := Function.update s.sleep b o } p q) := by
  refine InvAt.next (L := L) ?_ rfl
  refine h.quiet p q _ rfl rfl (fun c => ⟨rfl, rfl⟩) hdet ?_ ?_
    (h.buckets.keep p _ (fun j => by rw [hb])) (h.evict.keep p _ (fun j => by rw [he])) (hq _) ?_
  · intro c
    simp only [State.goto]
    by_cases hc : c = b
    · subst hc
      rw [Function.update_self]
      omega
    · rw [Function.update_of_ne hc, hrest c hc]
  · intro c r hr hcr
    simp only [State.goto]
    rw [Function.update_of_ne]
    · exact hcr
    · rintro rfl
      exact hown r hr hcr
  · intro x h0 hpos
    simp only [State.goto] at hpos
    omega

theorem advance_next (h : InvAt s L) (p : Fin P) (s' : State B P)
    (hs : advance s p = some s') : Next s s' := by
  cases hpc : s.pc p with
  | idle => simp [advance, hpc] at hs
  | getAcquire dev blockno => exact getAcquire_next h p dev blockno hpc s' hs
  | evictAcquire dev blockno => exact evictAcquire_next h p dev blockno hpc s' hs
  | recheckAcquire b dev blockno => exact recheckAcquire_next h p b dev blockno hpc s' hs
  | scanAcquire i least holding dev blockno =>
    exact scanAcquire_next h p i least holding dev blockno hpc s' hs
  | getHit key b =>
    simp only [advance, hpc, Option.some.injEq] at hs
    subst hs
    refine InvAt.next (h.release p key (.sleepAcquire b) ?_ ?_ ?_ ?_ ?_ trivial) rfl
    all_goals simp [hpc, PC.detached, PC.refs, PC.buckets, PC.evicting]
  | getMiss dev blockno =>
    simp only [advance, hpc, Option.some.injEq] at hs
    subst hs
    refine InvAt.next (h.release p _ (.evictAcquire dev blockno) ?_ ?_ ?_ ?_ ?_ trivial) rfl
    all_goals simp [hpc, PC.detached, PC.refs, PC.buckets, PC.evicting]
  | recheckRelease key b =>
    simp only [advance, hpc, Option.some.injEq] at hs
    subst hs
    refine InvAt.next (h.release p key (.recheckDone b) ?_ ?_ ?_ ?_ ?_ trivial) rfl
    all_goals simp [hpc, PC.detached, PC.refs, PC.buckets, PC.evicting]
  | recheckDone b =>
    simp only [advance, hpc, Option.some.injEq] at hs
    subst hs
    refine InvAt.next (h.releaseEviction p (.sleepAcquire b) ?_ ?_ ?_ ?_ ?_ trivial) rfl
    all_goals simp [hpc, PC.detached, PC.refs, PC.buckets, PC.evicting]
  | scanRelease i j least holding dev blockno =>
    have hinv := h.pcs p
    -- the lock of the bucket that the scan leaves goes, the best one so far stays held
    rw [hpc] at hinv
    obtain ⟨hmiss, hcand, hj⟩ := hinv
    simp only [advance, hpc] at hs
    apply scanNext_next p i least holding dev blockno _ s' hs rfl
    apply h.release p j (.scanAcquire i least holding dev blockno) _ _ _ _ _ ⟨hmiss, hcand⟩
    all_goals simp [hpc, PC.detached, PC.refs, PC.buckets, PC.evicting]
    simpa using hj
  | moveRelease i b dev blockno =>
    have hinv := h.pcs p
    rw [hpc] at hinv
    simp only [advance, hpc, Option.some.injEq] at hs
    subst hs
    refine InvAt.next (h.release p i (.moveAcquire b dev blockno) ?_ ?_ ?_ ?_ ?_ hinv) rfl
    all_goals simp [hpc, PC.detached, PC.refs, PC.buckets, PC.evicting]
  | moveAcquire b dev blockno =>
    have hinv := h.pcs p
    rw [hpc] at hinv
    -- the victim is unused and in no bucket while it changes its block
    obtain ⟨-, x, rfl, h0⟩ := hinv
    simp only [advance, hpc, Option.map_eq_some_iff] at hs
    obtain ⟨t, ht, hs⟩ := hs
    obtain ⟨hfree, rfl⟩ := acquire_eq_some ht
    subst hs
    refine ⟨⟨_, moveAcquire_inv h p x dev blockno hpc hfree⟩, ?_⟩
    intro b hb
    exact assign_reassigns b (.buf x) dev blockno h0 hb
  | assignRelease key b =>
    simp only [advance, hpc, Option.some.injEq] at hs
    subst hs
    refine InvAt.next (h.release p key (.assignDone b) ?_ ?_ ?_ ?_ ?_ trivial) rfl
    all_goals simp [hpc, PC.detached, PC.refs, PC.buckets, PC.evicting]
  | assignDone b =>
    simp only [advance, hpc, Option.some.injEq] at hs
    subst hs
    refine InvAt.next (h.releaseEviction p (.sleepAcquire b) ?_ ?_ ?_ ?_ ?_ trivial) rfl
    all_goals simp [hpc, PC.detached, PC.refs, PC.buckets, PC.evicting]
  | sleepAcquire b =>
    simp only [advance, hpc] at hs
    split at hs
    · rename_i hfree
      cases hs
      apply sleep_next h p b (some p) .idle
      · simp [hfree]
      · simp [hpc, PC.buckets]
      · simp [hpc, PC.detached]
      · simp [hpc, PC.evicting]
      · simp [hpc, hfree, PC.refs]
      · intro c hc
        simp [hpc, PC.refs, Ne.symm hc]
      · exact fun t => trivial
    · cases hs
  | brelseAcquire key b =>
    simp only [advance, hpc, Option.map_eq_some_iff] at hs
    obtain ⟨t, ht, hs⟩ := hs
    obtain ⟨hfree, rfl⟩ := acquire_eq_some ht
    subst hs
    -- the caller's own reference is counted, so the count does not go below zero
    have hpos := h.refcnt_pos p b (Or.inl (by simp [hpc, PC.refs]))
    apply count_next h p key b _ s.pins hfree _ _ _ hpos
    · exact ⟨rfl, rfl⟩
    · simp [hpc, PC.refs]
      omega
    · intro c hc
      simp [hpc, PC.refs, Ne.symm hc]
    all_goals simp [hpc, PC.detached, PC.buckets, PC.evicting]
  | bpinAcquire key b =>
    have hinv := h.pcs p
    rw [hpc] at hinv
    simp only [advance, hpc, Option.map_eq_some_iff] at hs
    obtain ⟨t, ht, hs⟩ := hs
    obtain ⟨hfree, rfl⟩ := acquire_eq_some ht
    subst hs
    -- bpin is of a buffer that the caller holds
    have hpos := h.refcnt_pos p b (Or.inr hinv)
    apply count_next h p key b _ (Function.update s.pins b (s.pins b + 1)) hfree _ _ _ hpos
    · exact ⟨rfl, rfl⟩
    · simp [hpc, PC.refs]
      omega
    · intro c hc
      simp [hpc, PC.refs, Function.update_of_ne hc]
    all_goals simp [hpc, PC.detached, PC.buckets, PC.evicting]
  | bunpinAcquire key b =>
    simp only [advance, hpc, Option.map_eq_some_iff] at hs
    obtain ⟨t, ht, hs⟩ := hs
    obtain ⟨hfree, rfl⟩ := acquire_eq_some ht
    subst hs
    have hpos := h.refcnt_pos p b (Or.inl (by simp [hpc, PC.refs]))
    apply count_next h p key b _ s.pins hfree _ _ _ hpos
    · exact ⟨rfl, rfl⟩
    · simp [hpc, PC.refs]
      omega
    · intro c hc
      simp [hpc, PC.refs, Ne.symm hc]
    all_goals simp [hpc, PC.detached, PC.buckets, PC.evicting]
  | bucketRelease key =>
    simp only [advance, hpc, Option.some.injEq] at hs
    subst hs
    refine InvAt.next (h.release p key .idle ?_ ?_ ?_ ?_ ?_ trivial) rfl
    all_goals simp [hpc, PC.detached, PC.refs, PC.buckets, PC.evicting]

/-- Every step of a process, and every clock tick. -/
theorem step_next (h : InvAt s L) (e : Event B P) (s' : State B P)
    (hs : step s e = some s') : Next s s' := by
  cases e with
  | bget p dev blockno =>
    simp only [step] at hs
    split at hs
    · rename_i hpc
      cases hs
      refine InvAt.next (h.go p (.getAcquire dev blockno) ?_ ?_ ?_ ?_ trivial) rfl
      all_goals simp [hpc, PC.detached, PC.refs, PC.buckets, PC.evicting]
    · cases hs
  | brelse p b =>
    simp only [step] at hs
    split at hs
    · rename_i hpc
      obtain ⟨hpc, hown⟩ := hpc
      cases hs
      apply sleep_next h p b none (.brelseAcquire (s.keyOf b) b)
      · intro r hr
        simp [hown, Ne.symm hr]
      · simp [hpc, PC.buckets]
      · simp [hpc, PC.detached]
      · simp [hpc, PC.evicting]
      · simp [hpc, hown, PC.refs]
      · intro c hc
        simp [hpc, PC.refs, Ne.symm hc]
      · exact fun t => trivial
    · cases hs
  | bpin p b =>
    simp only [step] at hs
    split at hs
    · rename_i hpc
      obtain ⟨hpc, hown⟩ := hpc
      cases hs
      refine InvAt.next (h.go p (.bpinAcquire (s.keyOf b) b) ?_ ?_ ?_ ?_ hown) rfl
      all_goals simp [hpc, PC.detached, PC.refs, PC.buckets, PC.evicting]
    · cases hs
  | bunpin p b =>
    simp only [step] at hs
    split at hs
    · rename_i hpc
      obtain ⟨hpc, hpin⟩ := hpc
      cases hs
      refine InvAt.next (L := L) ?_ rfl
      -- the pin becomes a reference of the call
      refine h.quiet p (.bunpinAcquire (s.keyOf b) b) _ rfl rfl (fun c => ⟨rfl, rfl⟩) ?_ ?_
        (fun c r _ hc => hc) (h.buckets.keep p _ ?_) (h.evict.keep p _ ?_) trivial ?_
      · simp [hpc, PC.detached]
      · intro c
        simp only [State.goto, hpc, PC.refs]
        by_cases hc : c = b
        · subst hc
          rw [Function.update_self, List.count_nil, List.count_singleton_self]
          omega
        · rw [Function.update_of_ne hc, List.count_singleton, if_neg (by simpa using Ne.symm hc)]
          rfl
      · simp [hpc, PC.buckets]
      · simp [hpc, PC.evicting]
      · intro x h0 hpos
        simp only [State.goto] at hpos
        omega
    · cases hs
  | advance p => exact advance_next h p s' hs
  | tick =>
    cases hs
    refine InvAt.next (L := L) ?_ rfl
    exact ⟨h.chains, h.once, h.hashed, h.used, h.refs, h.buckets, h.evict, h.pcs⟩

end Steps

section Boot

/-- binit's loop has put the buffers `l` into bucket 0, the last one first. -/
theorem binitPush_chain (l : List (Fin B)) (hl : l.Nodup) (i : Bucket) :
    Chain (l.foldl binitPush (fun _ => .null)) .null (.head i)
      (cells (Function.update (fun _ => []) bucket0 l.reverse) i) := by
  induction l using List.reverseRecOn with
  | nil =>
    have hnil : cells (Function.update (fun _ => []) bucket0 ([] : List (Fin B)).reverse) i =
        [.head i] := by
      by_cases hi : i = bucket0 <;> simp [cells, hi]
    rw [hnil]
    exact Chain.cons (by simp) rfl
  | append_singleton l x ih =>
    obtain ⟨hln, -, hdis⟩ := List.nodup_append.mp hl
    have hx : x ∉ l := fun h => hdis x h x (by simp) rfl
    have ih := ih hln
    rw [List.foldl_append, List.foldl_cons, List.foldl_nil, binitPush]
    by_cases hi : i = bucket0
    · subst hi
      simp only [cells, Function.update_self] at ih ⊢
      rw [List.reverse_append, List.reverse_singleton, List.singleton_append, List.map_cons]
      exact ih.insert (by simp) (by simp [hx]) (by simp)
    · simp only [cells, Function.update_of_ne hi] at ih ⊢
      apply ih.congr
      intro y hy
      simp only [List.map_nil, List.mem_singleton] at hy
      subst hy
      rw [Function.update_of_ne (by simpa using hi), Function.update_of_ne (by simp)]

theorem binit_inv : InvAt (binit B P)
    (Function.update (fun _ => []) bucket0 (List.finRange B).reverse) := by
  have hnone (α : Type) [DecidableEq α] (x : α) : tally (fun _ : Fin P => ([] : List α)) x = 0 := by
    simp [tally]
  refine ⟨binitPush_chain _ (List.nodup_finRange B), ?_, ?_, ?_, ?_, ?_, ?_, fun p => trivial⟩
  · intro x
    have ht := tally_update (fun _ => []) bucket0 (List.finRange B).reverse x
    have h0 : tally (fun _ : Bucket => ([] : List (Fin B))) x = 0 := by simp [tally]
    have h1 := hnone (Fin B) x
    rw [List.count_reverse, List.count_eq_one_of_mem (List.nodup_finRange B) (List.mem_finRange x),
      List.count_nil, h0] at ht
    change _ + tally (fun _ : Fin P => ([] : List (Fin B))) x = 1
    omega
  · intro i x hx
    by_cases hi : i = bucket0
    · rw [hi]
      change BUFMAP_HASH 0 0 = bucket0
      decide
    · simp [Function.update_of_ne hi] at hx
  · intro x hx
    exact absurd hx (Nat.lt_irrefl 0)
  · intro b
    have h1 := hnone (Ptr B) b
    change 0 = 0 + 0 + tally (fun _ : Fin P => ([] : List (Ptr B))) b
    omega
  · intro i p
    simp [binit, PC.buckets]
  · intro i p
    simp [binit, PC.evicting]

end Boot

/-- In every reachable state two buffers in use hold different blocks, a step gives another
block to an unused buffer only, and while no one evicts every buffer is in one chain, that
of its block. -/
theorem one_cached_copy (es : List (Event B P)) (s : State B P)
    (hr : run step (binit B P) es = some s) :
    (∀ x y : Fin B, 0 < (s.buf (.buf x)).refcnt → 0 < (s.buf (.buf y)).refcnt →
      (s.buf (.buf x)).dev = (s.buf (.buf y)).dev →
      (s.buf (.buf x)).blockno = (s.buf (.buf y)).blockno → x = y) ∧
    (∀ e s', step s e = some s' → ∀ b, (s'.buf b).dev ≠ (s.buf b).dev ∨
      (s'.buf b).blockno ≠ (s.buf b).blockno → (s.buf b).refcnt = 0) ∧
    ∃ L : Bucket → List (Fin B),
      (∀ i, Chain s.next .null (.head i) (.head i :: (L i).map .buf)) ∧
      (s.evictionLock = none → ∀ x, ∃ i, (L i).count x = 1 ∧ (∀ j, j ≠ i → x ∉ L j) ∧
        BUFMAP_HASH (s.buf (.buf x)).dev (s.buf (.buf x)).blockno = i) := by
  have hinv : ∃ L, InvAt s L := by
    refine run_invariant step (fun s => ∃ L, InvAt s L) ?_ _ s es ⟨_, binit_inv⟩ hr
    rintro s e t ⟨L, h⟩ ht
    exact (step_next h e t ht).1
  obtain ⟨L, h⟩ := hinv
  refine ⟨?_, ?_, L, h.chains, ?_⟩
  · intro x y hx hy hdev hno
    have h1 := h.used x hx
    rw [hdev, hno, h.used y hy] at h1
    exact (Option.some.inj h1).symm
  · intro e s' hs
    exact (step_next h e s' hs).2
  · intro hfree x
    have hdet : tally (fun p => (s.pc p).detached) x = 0 := by
      apply Finset.sum_eq_zero
      intro p _
      -- a process with a detached buffer has the eviction lock
      have hp : () ∉ (s.pc p).evicting := by
        rw [← h.evict () p, hfree]
        simp
      cases hpc : s.pc p <;> simp [hpc, PC.evicting, PC.detached] at hp ⊢
    have hone := h.once x
    rw [hdet, Nat.add_zero] at hone
    obtain ⟨i, hi⟩ : ∃ i, x ∈ L i := by
      by_contra hno
      have hzero : tally L x = 0 := by
        apply Finset.sum_eq_zero
        intro i _
        exact List.count_eq_zero.mpr (fun hi => hno ⟨i, hi⟩)
      omega
    refine ⟨i, List.count_eq_one_of_mem (h.chained.nodup i) hi, ?_, h.hashed i x hi⟩
    intro j hj hxj
    exact hj (h.chained.bucket_unique j i x hxj hi)

/-- Both processes miss block 5; process 0 evicts and gets the buffer, process 1 then finds
it there, and process 0 pins it. -/
def twoReaders : List (Event 2 2) :=
  .bget 0 1 5 :: .bget 1 1 5 :: .advance 0 :: .advance 0 :: .advance 1 :: .advance 1 ::
  List.replicate 29 (.advance 0) ++
  [.advance 1, .advance 1, .advance 1, .advance 1, .bpin 0 (.buf 1), .advance 0, .advance 0]

theorem one_cached_copy_twoReaders :
    ∃ s, run step (binit 2 2) twoReaders = some s ∧ (s.buf (.buf 1)).refcnt = 3 ∧
      (∀ y, 0 < (s.buf (.buf y)).refcnt → (s.buf (.buf 1)).dev = (s.buf (.buf y)).dev →
        (s.buf (.buf 1)).blockno = (s.buf (.buf y)).blockno → 1 = y) ∧
      ∃ L : Bucket → List (Fin 2),
        (∀ i, Chain s.next .null (.head i) (.head i :: (L i).map .buf)) ∧
        ∀ x, ∃ i, (L i).count x = 1 := by
  have hrun : (run step (binit 2 2) twoReaders).map
      (fun s => ((s.buf (.buf 1)).refcnt, s.evictionLock)) = some (3, none) := by
    decide +kernel
  obtain ⟨s, hs, hend⟩ := Option.map_eq_some_iff.mp hrun
  obtain ⟨hcount, hfree⟩ := Prod.mk.inj hend
  obtain ⟨hone, -, L, hchains, hplace⟩ := one_cached_copy twoReaders s hs
  refine ⟨s, hs, hcount, fun y => hone 1 y (by omega), L, hchains, ?_⟩
  intro x
  obtain ⟨i, hi, -⟩ := hplace hfree x
  exact ⟨i, hi⟩

end Xv6Labs.Bcache
