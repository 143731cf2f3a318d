import Xv6Labs.BcacheRuns

/-! Eviction in the buffer cache. A process that runs bget alone for a block that is not
cached recycles the least recently used unused buffer, from any distribution of the buffers
over the buckets. -/
namespace Xv6Labs.Bcache

variable {B P : Nat} {s : State B P} {L : Bucket → List (Fin B)}

/-- Each buffer is in one chain, once. -/
structure Placed (s : State B P) (L : Bucket → List (Fin B)) : Prop where
  chains : ∀ i, Chain s.next .null (.head i) (cells L i)
  once : ∀ x, tally L x = 1

/-- bget is about to stop with "bget: no buffers": the loop over the buckets is done, but
for the release of the last lock, and has found nothing. -/
def Panics (s : State B P) (p : Fin P) : Prop :=
  ∃ j holding dev blockno, s.pc p = .scanRelease NBUFMAP_BUCKET j none holding dev blockno

/-- From `s` to `t`, process `p` has recycled `v` for the block and waits for its sleep
lock. -/
structure Recycled (s : State B P) (L : Bucket → List (Fin B)) (p : Fin P)
    (dev blockno : UInt32) (v : Fin B) (L' : Bucket → List (Fin B)) (t : State B P) : Prop where
  returns : t.pc = Function.update s.pc p (.sleepAcquire (.buf v))
  unused : (s.buf (.buf v)).refcnt = 0
  least : ∀ y, (s.buf (.buf y)).refcnt = 0 → (s.buf (.buf v)).lastuse ≤ (s.buf (.buf y)).lastuse
  placed : Placed t L'
  target : v ∈ L' (BUFMAP_HASH dev blockno)
  order : ∀ i, (L' i).filter (· ≠ v) = (L i).filter (· ≠ v)
  assigned : t.buf = Function.update s.buf (.buf v)
    ⟨dev, blockno, 1, (s.buf (.buf v)).lastuse, false⟩
  bucketLock : ∀ i, t.bucketLock i = none
  evictionLock : t.evictionLock = none
  frame : t.sleep = s.sleep ∧ t.pins = s.pins ∧ t.ticks = s.ticks

theorem Placed.chained (h : Placed s L) : Chained s.next L :=
  ⟨h.chains, fun x => (h.once x).le⟩

theorem Placed.exists_bucket (h : Placed s L) (x : Fin B) : ∃ i, x ∈ L i := by
  by_contra hno
  have hzero : tally L x = 0 := by
    apply Finset.sum_eq_zero
    intro i _
    exact List.count_eq_zero.mpr (fun hi => hno ⟨i, hi⟩)
  rw [h.once x] at hzero
  cases hzero

section Scan

/-- `scanBucket` looks at the chains and the buffers only. -/
theorem scanBucket_congr {t : State B P} (hn : t.next = s.next) (hb : t.buf = s.buf) (fuel : Nat)
    (b : Ptr B) (least : Option (Ptr B)) (found : Bool) :
    scanBucket t fuel b least found = scanBucket s fuel b least found := by
  induction fuel generalizing b least found with
  | zero => rfl
  | succ n ih =>
    rw [scanBucket, scanBucket]
    simp only [hn, hb, ih]

/-- `least` is the cell before a buffer that was used no later than time `n`. -/
def Before (s : State B P) (least : Option (Ptr B)) (n : Nat) : Prop :=
  ∃ c, least = some c ∧ (s.buf (s.next c)).lastuse ≤ n

/-- What the search of the rest `l` of a chain has found is no later than what it started
with, and than any unused buffer of the rest. -/
theorem scanBucket_least (fuel : Nat) (b : Ptr B) (l : List (Fin B)) (least : Option (Ptr B))
    (found : Bool) (hl : Chain s.next .null (s.next b) (l.map .buf)) (hf : l.length < fuel) :
    (∀ n, Before s least n → Before s (scanBucket s fuel b least found).1 n) ∧
      ∀ y ∈ l, (s.buf (.buf y)).refcnt = 0 →
        Before s (scanBucket s fuel b least found).1 (s.buf (.buf y)).lastuse := by
  induction l generalizing fuel b least found with
  | nil =>
    have hb : s.next b = .null := hl
    cases fuel with
    | zero => exact absurd hf (by simp)
    | succ m =>
      rw [scanBucket, if_pos hb]
      exact ⟨fun n h => h, fun y hy => by cases hy⟩
  | cons x l ih =>
    obtain ⟨hb, -, hl⟩ := hl
    cases fuel with
    | zero => exact absurd hf (by simp)
    | succ m =>
      have hlen : l.length < m := by simpa using hf
      rw [scanBucket, hb, if_neg (by simp)]
      by_cases hc : (s.buf (.buf x)).refcnt = 0 ∧
          ∀ c ∈ least, (s.buf (.buf x)).lastuse < (s.buf (s.next c)).lastuse
      · rw [if_pos hc]
        obtain ⟨hkeep, hrest⟩ := ih m (.buf x) (some b) true hl hlen
        refine ⟨?_, ?_⟩
        · rintro n ⟨c, hleast, hle⟩
          have hlt := hc.2 c hleast
          exact hkeep n ⟨b, rfl, by rw [hb]; omega⟩
        · intro y hy h0
          rcases List.mem_cons.mp hy with rfl | hy
          · exact hkeep _ ⟨b, rfl, by rw [hb]⟩
          · exact hrest y hy h0
      · rw [if_neg hc]
        obtain ⟨hkeep, hrest⟩ := ih m (.buf x) least found hl hlen
        refine ⟨hkeep, ?_⟩
        intro y hy h0
        rcases List.mem_cons.mp hy with rfl | hy
        · -- `y` was passed over, so an earlier one is as old
          have hold : ∃ c, least = some c ∧
              (s.buf (s.next c)).lastuse ≤ (s.buf (.buf y)).lastuse := by
            by_contra hno
            apply hc
            refine ⟨h0, ?_⟩
            intro c hleast
            by_contra hlt
            exact hno ⟨c, hleast, by omega⟩
          exact hkeep _ hold
        · exact hrest y hy h0

/-- `least` and `holding` after the first `i` buckets. -/
def Best (s : State B P) (L : Bucket → List (Fin B)) (i : Nat) (least : Option (Ptr B))
    (holding : Option Bucket) : Prop :=
  Candidate s L i least holding ∧
    ∀ (j : Bucket) y, j.val < i → y ∈ L j → (s.buf (.buf y)).refcnt = 0 →
      Before s least (s.buf (.buf y)).lastuse

/-- One bucket of the search. -/
theorem Best.round (hs : Placed s L) (i : Bucket) (least : Option (Ptr B))
    (holding : Option Bucket) (h : Best s L i least holding) (least' : Option (Ptr B))
    (found : Bool) (hscan : scanBucket s (B+1) (.head i) least false = (least', found)) :
    Best s L (i.val+1) least' (if found then some i else holding) ∧
      (found = false → least' = least) ∧ (found = true → least' ≠ none) := by
  obtain ⟨-, -, hchain⟩ := hs.chains i
  have hlen := hs.chained.length_le i
  obtain ⟨hkeep, hrest⟩ := scanBucket_least (B+1) (.head i) (L i) least false hchain (by omega)
  rw [hscan] at hkeep hrest
  have hmin : ∀ (j : Bucket) y, j.val < i.val+1 → y ∈ L j → (s.buf (.buf y)).refcnt = 0 →
      Before s least' (s.buf (.buf y)).lastuse := by
    intro j y hj hy h0
    by_cases hji : j = i
    · subst hji
      exact hrest y hy h0
    · have hne : j.val ≠ i.val := fun e => hji (Fin.ext e)
      exact hkeep _ (h.2 j y (by omega) hy h0)
  rcases scanBucket_spec i (B+1) (.head i) [] (L i) [] least false rfl rfl hchain with hsame | hnew
  · rw [hscan] at hsame
    cases hsame
    refine ⟨⟨?_, hmin⟩, fun _ => rfl, fun hf => by cases hf⟩
    have hcand := h.1
    match least, holding, hcand with
    | none, none, _ => trivial
    | some c, some j, ⟨hlt, hrest⟩ => exact ⟨Nat.lt_succ_of_lt hlt, hrest⟩
  · obtain ⟨c, k, x, r, a, hsome, hL, ha, h0⟩ := hnew
    rw [hscan] at hsome
    cases hsome
    exact ⟨⟨⟨Nat.lt_succ_self _, k, x, r, a, hL, ha, h0⟩, hmin⟩, (fun hf => by cases hf),
      fun _ => by simp⟩

/-- Process `p` is in the search: it has the eviction lock and the lock of the bucket
`holding`, and nothing else has changed since `s`. -/
structure Scanning (s t : State B P) (p : Fin P) (holding : Option Bucket) : Prop where
  next : t.next = s.next
  buf : t.buf = s.buf
  others : ∀ q, Function.update t.pc p q = Function.update s.pc p q
  lock : ∀ j, t.bucketLock j = if holding = some j then some p else none
  evict : t.evictionLock = some p
  frame : t.sleep = s.sleep ∧ t.pins = s.pins ∧ t.ticks = s.ticks

theorem Scanning.goto {t : State B P} {p : Fin P} {holding : Option Bucket}
    (h : Scanning s t p holding) (q : PC B) : Scanning s (t.goto p q) p holding := by
  refine ⟨h.next, h.buf, ?_, h.lock, h.evict, h.frame⟩
  intro q'
  rw [← h.others q']
  exact Function.update_idem ..

/-- The process changes only which bucket locks it has. -/
theorem Scanning.relock {t : State B P} {p : Fin P} {holding holding' : Option Bucket}
    (h : Scanning s t p holding) (bl : Bucket → Option (Fin P))
    (hbl : ∀ j, bl j = if holding' = some j then some p else none) :
    Scanning s { t with bucketLock := bl } p holding' :=
  ⟨h.next, h.buf, h.others, hbl, h.evict, h.frame⟩

/-- The lock of bucket `i` has been acquired. -/
def State.locked (t : State B P) (p : Fin P) (i : Bucket) : State B P :=
  { t with bucketLock := Function.update t.bucketLock i (some p) }

/-- The step that gives back the lock of bucket `j`. -/
theorem release_step {t a : State B P} {p : Fin P} {n : Nat} {j : Bucket}
    {least : Option (Ptr B)} {holding : Option Bucket} {dev blockno : UInt32}
    (hstep : step t (.advance p) =
      some (a.goto p (.scanRelease n j least holding dev blockno))) :
    run step t (List.replicate 1 (.advance p)) =
        some (a.goto p (.scanRelease n j least holding dev blockno)) ∧
      step (a.goto p (.scanRelease n j least holding dev blockno)) (.advance p) =
        scanNext ((a.goto p (.scanRelease n j least holding dev blockno)).release j) p n least
          holding dev blockno := by
  refine ⟨?_, ?_⟩
  · simp only [List.replicate_one, run, hstep, Option.bind_some]
  · simp only [step, advance, State.goto, Function.update_self]

/-- The loop over one bucket, with the cell before the candidate and the bucket it is in. -/
def pick (s : State B P) (r : Option (Ptr B) × Option Bucket) (i : Bucket) :
    Option (Ptr B) × Option Bucket :=
  let q := scanBucket s (B+1) (.head i) r.1 false
  (q.1, if q.2 then some i else r.2)

/-- The advances of process `p` for one bucket end at the head of the loop. -/
theorem scan_round (hs : Placed s L) (p : Fin P) (dev blockno : UInt32) (i : Bucket)
    (least : Option (Ptr B)) (holding : Option Bucket) (h : Best s L i least holding)
    (t : State B P) (ht : Scanning s t p holding)
    (hpc : t.pc p = .scanAcquire i least holding dev blockno) :
    ∃ m t' least' holding' u, run step t (List.replicate m (.advance p)) = some t' ∧
      step t' (.advance p) = scanNext u p (i+1) least' holding' dev blockno ∧
      Scanning s u p holding' ∧ Best s L (i+1) least' holding' ∧
      (least' = none → ∃ j, t'.pc p = .scanRelease (i+1) j none holding' dev blockno) ∧
      (least', holding') = pick s (least, holding) i := by
  have hne : holding ≠ some i := by
    rintro rfl
    have hcand := h.1
    match least, hcand with
    | some c, hcand => exact absurd hcand.1 (lt_irrefl _)
  have hfree : t.bucketLock i = none := by rw [ht.lock i, if_neg hne]
  have hacq : t.acquire p i = some (t.locked p i) := by rw [State.acquire, if_pos hfree]; rfl
  have hlt : i.val < NBUFMAP_BUCKET := i.isLt
  -- what the search of the bucket returns
  obtain ⟨⟨least', found⟩, hscan⟩ : ∃ r, scanBucket s (B+1) (.head i) least false = r := ⟨_, rfl⟩
  obtain ⟨hbest, -, hnew⟩ := h.round hs i least holding least' found hscan
  have hpick : pick s (least, holding) i = (least', if found then some i else holding) := by
    simp only [pick, hscan]
  rw [hpick]
  have hscan' : scanBucket (t.locked p i) (B+1) (.head i) least false = (least', found) := by
    rw [scanBucket_congr (s := s) (t := t.locked p i) ht.next ht.buf, hscan]
  cases found with
  | false =>
    -- the lock of the bucket is given back
    have hstep : step t (.advance p) =
        some ((t.locked p i).goto p (.scanRelease (i+1) i least' holding dev blockno)) := by
      simp only [step, advance, hpc, dif_pos hlt, Fin.eta, hacq, Option.bind_some, hscan']
    obtain ⟨hrun, hnext⟩ := release_step hstep
    refine ⟨1, _, least', holding, _, hrun, hnext, ?_, hbest, ?_, rfl⟩
    · apply (ht.goto (.scanRelease (i+1) i least' holding dev blockno)).relock
      intro j
      by_cases hj : j = i
      · subst hj
        simp [State.goto, State.locked, hne]
      · simp only [State.goto, State.locked, Function.update_of_ne hj]
        exact ht.lock j
    · rintro rfl
      exact ⟨i, by simp [State.goto]⟩
  | true =>
    cases holding with
    | some j =>
      -- the lock of the old candidate's bucket is given back
      have hji : j ≠ i := fun e => hne (by rw [e])
      have hstep : step t (.advance p) =
          some ((t.locked p i).goto p (.scanRelease (i+1) j least' (some i) dev blockno)) := by
        simp only [step, advance, hpc, dif_pos hlt, Fin.eta, hacq, Option.bind_some, hscan']
      obtain ⟨hrun, hnext⟩ := release_step hstep
      refine ⟨1, _, least', some i, _, hrun, hnext, ?_, hbest, ?_, rfl⟩
      · apply (ht.goto (.scanRelease (i+1) j least' (some i) dev blockno)).relock
        intro l
        have hl := ht.lock l
        by_cases hlj : l = j
        · subst hlj
          simp [State.goto, State.locked, Ne.symm hji]
        · by_cases hli : l = i
          · subst hli
            simp [State.goto, State.locked, hlj]
          · simp only [State.goto, State.locked, Function.update_of_ne hlj,
              Function.update_of_ne hli]
            rw [hl, if_neg (by simpa using Ne.symm hlj), if_neg (by simpa using Ne.symm hli)]
      · intro hno
        exact absurd hno (hnew rfl)
    | none =>
      refine ⟨0, t, least', some i, t.locked p i, rfl, ?_, ?_, hbest, ?_, rfl⟩
      · simp only [step, advance, hpc, dif_pos hlt, Fin.eta, hacq, Option.bind_some, hscan']
      · apply ht.relock
        intro l
        by_cases hli : l = i
        · subst hli
          rw [Function.update_self, if_pos rfl]
        · rw [Function.update_of_ne hli, ht.lock l, if_neg (by simp),
            if_neg (by simpa using Ne.symm hli)]
      · intro hno
        exact absurd hno (hnew rfl)

theorem run_replicate_add (t u v : State B P) (p : Fin P) (m n : Nat)
    (h1 : run step t (List.replicate m (.advance p)) = some u)
    (h2 : run step u (List.replicate n (.advance p)) = some v) :
    run step t (List.replicate (m + n) (.advance p)) = some v := by
  rw [List.replicate_add, run_append]
  exact ⟨u, h1, h2⟩

theorem drop_bucket (i : Nat) (hi : i < NBUFMAP_BUCKET) :
    (List.finRange NBUFMAP_BUCKET).drop i =
      ⟨i, hi⟩ :: (List.finRange NBUFMAP_BUCKET).drop (i + 1) := by
  rw [List.drop_eq_getElem_cons (by rwa [List.length_finRange]), List.getElem_finRange]
  rfl

/-- The whole search, from bucket `i` on. -/
theorem scan_run (hs : Placed s L) (p : Fin P) (dev blockno : UInt32) (k i : Nat)
    (hk : i + k + 1 = NBUFMAP_BUCKET) (least : Option (Ptr B)) (holding : Option Bucket)
    (h : Best s L i least holding) (t : State B P) (ht : Scanning s t p holding)
    (hpc : t.pc p = .scanAcquire i least holding dev blockno) :
    ∃ m t' least' holding' u, run step t (List.replicate m (.advance p)) = some t' ∧
      step t' (.advance p) = chooseVictim u p least' holding' dev blockno ∧
      Scanning s u p holding' ∧ Best s L NBUFMAP_BUCKET least' holding' ∧
      (least' = none → Panics t' p) ∧
      (least', holding') =
        ((List.finRange NBUFMAP_BUCKET).drop i).foldl (pick s) (least, holding) := by
  induction k generalizing i least holding t with
  | zero =>
    obtain ⟨m, t', least', holding', u, hrun, hstep, hu, hbest, hno, hpick⟩ :=
      scan_round hs p dev blockno ⟨i, by omega⟩ least holding h t ht hpc
    have hi : i + 1 = NBUFMAP_BUCKET := hk
    rw [drop_bucket i (by omega), List.foldl_cons, ← hpick]
    refine ⟨m, t', least', holding', u, hrun, ?_, hu, ?_, ?_, ?_⟩
    · rw [hstep, scanNext, if_neg (by simp [hi])]
    · rw [← hi]
      exact hbest
    · intro hnone
      obtain ⟨j, hj⟩ := hno hnone
      exact ⟨j, holding', dev, blockno, by rw [hj]; simp [hi]⟩
    · rw [hi, List.drop_of_length_le (by rw [List.length_finRange])]
      rfl
  | succ k ih =>
    obtain ⟨m, t', least', holding', u, hrun, hstep, hu, hbest, -, hpick⟩ :=
      scan_round hs p dev blockno ⟨i, by omega⟩ least holding h t ht hpc
    rw [drop_bucket i (by omega), List.foldl_cons, ← hpick]
    rw [scanNext, if_pos (by simp only; omega)] at hstep
    obtain ⟨m', t'', least'', holding'', u', hrun', hrest⟩ :=
      ih (i + 1) (by omega) least' holding' hbest
        (u.goto p (.scanAcquire (i + 1) least' holding' dev blockno)) (hu.goto _)
        (by simp [State.goto])
    refine ⟨m + 1 + m', t'', least'', holding'', u', ?_, hrest⟩
    refine run_replicate_add t _ t'' p (m + 1) m' ?_ hrun'
    refine run_replicate_add t t' _ p m 1 hrun ?_
    simp only [List.replicate_one, run, hstep, Option.bind_some]

end Scan

section Moved

/-- The state when bget goes to sleep on the victim's lock. -/
def State.recycled (t : State B P) (p : Fin P) (dev blockno : UInt32) (v : Fin B)
    (next : Ptr B → Ptr B) : State B P :=
  { t.assign (.buf v) dev blockno with
    next := next
    bucketLock := fun _ => none
    evictionLock := none
    pc := Function.update t.pc p (.sleepAcquire (.buf v)) }

/-- The bucket locks when process `p` has that of `i` and nobody has another. -/
def onlyLock (p : Fin P) (i : Bucket) : Bucket → Option (Fin P) :=
  Function.update (fun _ => none) i (some p)

theorem onlyLock_release (p : Fin P) (i : Bucket) :
    Function.update (onlyLock p i) i none = fun _ => none := by
  rw [onlyLock, Function.update_idem]
  exact Function.update_eq_self i (fun _ => none)

/-- The end of bget, after the victim has its block. -/
theorem assigned_run (u : State B P) (p : Fin P) (dev blockno : UInt32) (key : Bucket)
    (v : Fin B) (next : Ptr B → Ptr B) (hlock : u.bucketLock = onlyLock p key) :
    run step (State.goto { u.assign (.buf v) dev blockno with next := next } p
      (.assignRelease key (.buf v))) (List.replicate 2 (.advance p)) =
        some (u.recycled p dev blockno v next) := by
  simp only [List.replicate, run, step, advance, State.goto, State.release, State.assign,
    Function.update_self, Function.update_idem, Option.bind_some, hlock, onlyLock_release,
    State.recycled]

/-- The victim stays in its chain when that is the block's bucket. -/
theorem stay_run (t u : State B P) (p : Fin P) (dev blockno : UInt32) (c : Ptr B) (v : Fin B)
    (hc : u.next c = .buf v) (hlock : u.bucketLock = onlyLock p (BUFMAP_HASH dev blockno))
    (hstep : step t (.advance p) =
      chooseVictim u p (some c) (some (BUFMAP_HASH dev blockno)) dev blockno) :
    run step t (List.replicate 3 (.advance p)) = some (u.recycled p dev blockno v u.next) := by
  unfold chooseVictim at hstep
  simp only [ne_eq, not_true_eq_false, if_false, hc] at hstep
  refine run_replicate_add t ((u.assign (.buf v) dev blockno).goto p
    (.assignRelease (BUFMAP_HASH dev blockno) (.buf v))) _ p 1 2 ?_ ?_
  · simp only [List.replicate_one, run, hstep, Option.bind_some]
  · exact assigned_run u p dev blockno _ v u.next hlock

/-- The next pointers after the victim, behind cell `c`, has moved to the head of `key`. -/
def movedNext (next : Ptr B → Ptr B) (c : Ptr B) (v : Fin B) (key : Bucket) : Ptr B → Ptr B :=
  Function.update (Function.update (Function.update next c (next (.buf v))) (.buf v)
    (Function.update next c (next (.buf v)) (.head key))) (.head key) (.buf v)

/-- The victim moves to the block's bucket from another one. -/
theorem move_run (t u : State B P) (p : Fin P) (dev blockno : UInt32) (c : Ptr B) (v : Fin B)
    (h : Bucket) (hh : h ≠ BUFMAP_HASH dev blockno) (hc : u.next c = .buf v)
    (hlock : u.bucketLock = onlyLock p h)
    (hstep : step t (.advance p) = chooseVictim u p (some c) (some h) dev blockno) :
    run step t (List.replicate 5 (.advance p)) = some
      (u.recycled p dev blockno v (movedNext u.next c v (BUFMAP_HASH dev blockno))) := by
  unfold chooseVictim at hstep
  simp only [ne_eq, hh, not_false_eq_true, if_true, hc] at hstep
  -- out of its chain, and into the other one
  have hmove : run step t (List.replicate 3 (.advance p)) = some
      (State.goto { (State.assign { u with
          bucketLock := onlyLock p (BUFMAP_HASH dev blockno) } (.buf v) dev blockno) with
        next := movedNext u.next c v (BUFMAP_HASH dev blockno) } p
        (.assignRelease (BUFMAP_HASH dev blockno) (.buf v))) := by
    simp only [List.replicate, run, hstep, Option.bind_some]
    simp only [step, advance, State.goto, State.release, State.acquire, State.assign,
      Function.update_self, Function.update_idem, Option.bind_some, hlock, onlyLock_release,
      if_true, Option.map_some, movedNext]
    rfl
  exact run_replicate_add t _ _ p 3 2 hmove (assigned_run
    { u with bucketLock := onlyLock p (BUFMAP_HASH dev blockno) } p dev blockno _ v _ rfl)

end Moved

/-- The chains after `v` has gone from bucket `i` to `key`. -/
def rehash (L : Bucket → List (Fin B)) (i key : Bucket) (v : Fin B) : Bucket → List (Fin B) :=
  let rest := Function.update L i ((L i).erase v)
  if i = key then L else Function.update rest key (v :: rest key)

/-- The buffers of each chain after the victim has moved. -/
theorem Placed.move (h : Placed s L) (i key : Bucket) (c : Ptr B) (k r : List (Fin B)) (v : Fin B)
    (a : List (Ptr B)) (hL : L i = k ++ v :: r) (ha : Ptr.head i :: k.map .buf = a ++ [c])
    (hkey : i ≠ key) (t : State B P) (ht : t.next = movedNext s.next c v key) :
    Placed t (rehash L i key v) ∧ v ∈ rehash L i key v key ∧
      ∀ j, (rehash L i key v j).filter (· ≠ v) = (L j).filter (· ≠ v) := by
  have hnd := h.chained.nodup i
  rw [hL] at hnd
  obtain ⟨-, hvr, hkv⟩ := List.nodup_append.mp hnd
  have hrest : v ∉ k ++ r := by
    intro hv
    rcases List.mem_append.mp hv with hv | hv
    · exact hkv v hv v (by simp) rfl
    · exact (List.nodup_cons.mp hvr).1 hv
  have hout : ∀ j, v ∉ Function.update L i (k ++ r) j := by
    intro j
    by_cases hj : j = i
    · subst hj
      rw [Function.update_self]
      exact hrest
    · rw [Function.update_of_ne hj]
      intro hv
      exact hj (h.chained.bucket_unique j i v hv (by simp [hL]))
  have hnew := (h.chained.unlink hL ha).insert key v hout
  have herase : (L i).erase v = k ++ r := by
    rw [hL, List.erase_append_right _ (fun hv => hrest (List.mem_append_left _ hv)),
      List.erase_cons_head]
  unfold rehash
  simp only [if_neg hkey, herase]
  refine ⟨⟨?_, ?_⟩, ?_, ?_⟩
  · rw [ht]
    exact hnew.chains
  · intro y
    have h1 := tally_update L i (k ++ r) y
    have h2 := tally_update (Function.update L i (k ++ r)) key
      (v :: Function.update L i (k ++ r) key) y
    have h3 := h.once y
    rw [hL] at h1
    simp only [List.count_append, List.count_cons] at h1 h2
    omega
  · simp
  · intro j
    by_cases hj : j = key
    · subst hj
      rw [Function.update_self, Function.update_of_ne (Ne.symm hkey),
        List.filter_cons_of_neg (by simp)]
    · rw [Function.update_of_ne hj]
      by_cases hji : j = i
      · subst hji
        rw [Function.update_self, hL, List.filter_append, List.filter_append,
          List.filter_cons_of_neg (by simp)]
      · rw [Function.update_of_ne hji]

section Alone

variable {p : Fin P} {dev blockno : UInt32}

/-- The victim, after the whole search. -/
theorem Best.victim (hs : Placed s L) {c : Ptr B} {h : Bucket}
    (hbest : Best s L NBUFMAP_BUCKET (some c) (some h)) :
    ∃ v k r a, L h = k ++ v :: r ∧ Ptr.head h :: k.map .buf = a ++ [c] ∧ s.next c = .buf v ∧
      (s.buf (.buf v)).refcnt = 0 ∧
      ∀ y, (s.buf (.buf y)).refcnt = 0 → (s.buf (.buf v)).lastuse ≤ (s.buf (.buf y)).lastuse := by
  obtain ⟨⟨-, k, v, r, a, hL, ha, h0⟩, hmin⟩ := hbest
  have hc := hs.chained.next_eq hL ha
  refine ⟨v, k, r, a, hL, ha, hc, h0, ?_⟩
  intro y hy
  obtain ⟨j, hj⟩ := hs.exists_bucket y
  obtain ⟨c', hc', hle⟩ := hmin j y j.isLt hj hy
  cases hc'
  rwa [hc] at hle

/-- The state after the search, with a candidate, leads to the end of bget. -/
theorem victim_run (hs : Placed s L) (t u : State B P) (c : Ptr B) (h : Bucket)
    (hu : Scanning s u p (some h)) (hbest : Best s L NBUFMAP_BUCKET (some c) (some h))
    (hstep : step t (.advance p) = chooseVictim u p (some c) (some h) dev blockno) :
    ∃ n w v, run step t (List.replicate n (.advance p)) = some w ∧ s.next c = .buf v ∧
      Recycled s L p dev blockno v (rehash L h (BUFMAP_HASH dev blockno) v) w := by
  obtain ⟨v, k, r, a, hL, ha, hc, h0, hmin⟩ := hbest.victim hs
  have hcu : u.next c = .buf v := by rw [hu.next, hc]
  have hlock : u.bucketLock = onlyLock p h := by
    funext j
    rw [hu.lock j, onlyLock]
    by_cases hj : j = h
    · subst hj
      simp
    · rw [Function.update_of_ne hj, if_neg (by simpa using Ne.symm hj)]
  -- the parts of the last state that do not depend on the way there
  have hend (next : Ptr B → Ptr B) (L' : Bucket → List (Fin B))
      (hplaced : Placed (u.recycled p dev blockno v next) L')
      (htarget : v ∈ L' (BUFMAP_HASH dev blockno))
      (horder : ∀ i, (L' i).filter (· ≠ v) = (L i).filter (· ≠ v)) :
      Recycled s L p dev blockno v L' (u.recycled p dev blockno v next) := by
    refine ⟨hu.others _, h0, hmin, hplaced, htarget, horder, ?_, fun _ => rfl, rfl, hu.frame⟩
    simp only [State.recycled, State.assign, hu.buf]
  by_cases hkey : h = BUFMAP_HASH dev blockno
  · subst hkey
    have hstay : rehash L (BUFMAP_HASH dev blockno) (BUFMAP_HASH dev blockno) v = L := if_pos rfl
    refine ⟨3, _, v, stay_run t u p dev blockno c v hcu hlock hstep, hc, ?_⟩
    rw [hstay]
    refine hend u.next L ?_ ?_ ?_
    · refine ⟨?_, hs.once⟩
      intro i
      have hi := hs.chains i
      rwa [← hu.next] at hi
    · simp [hL]
    · intro i
      rfl
  · obtain ⟨hplaced, htarget, horder⟩ := hs.move h (BUFMAP_HASH dev blockno) c k r v a hL ha
      hkey (u.recycled p dev blockno v (movedNext u.next c v (BUFMAP_HASH dev blockno)))
      (by rw [← hu.next]; rfl)
    exact ⟨5, _, v, move_run t u p dev blockno c v h hkey hcu hlock hstep, hc,
      hend _ _ hplaced htarget horder⟩

/-- bget up to the first bucket of the search. -/
theorem miss_run (hs : Placed s L) (hidle : s.pc p = .idle) (hfree : ∀ i, s.bucketLock i = none)
    (hev : s.evictionLock = none) (hmiss : cached s L dev blockno = none) :
    ∃ t, run step s (.bget p dev blockno :: List.replicate 3 (.advance p)) = some t ∧
      Scanning s t p none ∧ t.pc p = .scanAcquire 0 none none dev blockno := by
  have hlook (t : State B P) (hn : t.next = s.next) (hb : t.buf = s.buf) :
      bucketLookup t dev blockno = none := by
    rw [bucketLookup_eq hs.chained t dev blockno hn hb, hmiss]
    rfl
  have hlocks : s.bucketLock = fun _ => none := funext hfree
  refine ⟨State.goto { s with evictionLock := some p } p (.scanAcquire 0 none none dev blockno),
    ?_, ?_, by simp [State.goto]⟩
  · have hgoto : step s (.bget p dev blockno) = some (s.goto p (.getAcquire dev blockno)) := by
      simp only [step, hidle, if_true]
    have h1 : step (s.goto p (.getAcquire dev blockno)) (.advance p) =
        some ((s.locked p (BUFMAP_HASH dev blockno)).goto p (.getMiss dev blockno)) := by
      have hacq : (s.goto p (.getAcquire dev blockno)).acquire p (BUFMAP_HASH dev blockno) =
          some ((s.goto p (.getAcquire dev blockno)).locked p (BUFMAP_HASH dev blockno)) := by
        have hfree' := hfree (BUFMAP_HASH dev blockno)
        rw [State.acquire, if_pos (by exact hfree')]
        rfl
      have hnone := hlook ((s.goto p (.getAcquire dev blockno)).locked p
        (BUFMAP_HASH dev blockno)) rfl rfl
      have hpc : (s.goto p (.getAcquire dev blockno)).pc p = .getAcquire dev blockno := by
        simp [State.goto]
      simp only [step, advance, hpc, hacq, Option.map_some, hnone]
      simp only [State.goto, State.locked, Function.update_idem]
    have h2 : step ((s.locked p (BUFMAP_HASH dev blockno)).goto p (.getMiss dev blockno))
        (.advance p) = some (s.goto p (.evictAcquire dev blockno)) := by
      simp only [step, advance, State.goto, State.release, State.locked, Function.update_self,
        Function.update_idem]
      rw [hlocks]
      simp
    have h3 : step (s.goto p (.evictAcquire dev blockno)) (.advance p) = some (State.goto
        { s with evictionLock := some p } p (.scanAcquire 0 none none dev blockno)) := by
      have hnone := hlook { s.goto p (.evictAcquire dev blockno) with evictionLock := some p }
        rfl rfl
      have hlt : 0 < NBUFMAP_BUCKET := by decide
      simp only [step, advance, State.goto, Function.update_self, hev, if_true] at hnone ⊢
      simp only [hnone, scanNext, hlt, if_true, State.goto, Function.update_idem]
    simp only [List.replicate, run, hgoto, h1, h2, h3, Option.bind_some]
  · refine ⟨rfl, rfl, fun q => Function.update_idem .., ?_, rfl, rfl, rfl, rfl⟩
    intro j
    exact hfree j

/-- bget alone up to the choice of the victim. -/
theorem search_run (hs : Placed s L) (hidle : s.pc p = .idle)
    (hfree : ∀ i, s.bucketLock i = none) (hev : s.evictionLock = none)
    (hmiss : cached s L dev blockno = none) :
    ∃ m t least holding u,
      run step s (.bget p dev blockno :: List.replicate m (.advance p)) = some t ∧
      step t (.advance p) = chooseVictim u p least holding dev blockno ∧
      Scanning s u p holding ∧ Best s L NBUFMAP_BUCKET least holding ∧
      (least = none → Panics t p) ∧
      (least, holding) = (List.finRange NBUFMAP_BUCKET).foldl (pick s) (none, none) := by
  obtain ⟨t, hrun, hscan, hpc⟩ := miss_run hs hidle hfree hev hmiss
  have hstart : Best s L 0 none none := by
    refine ⟨trivial, ?_⟩
    intro j y hj
    exact absurd hj (Nat.not_lt_zero _)
  obtain ⟨m, t', least, holding, u, hrun', hrest⟩ :=
    scan_run hs p dev blockno 12 0 rfl none none hstart t hscan hpc
  refine ⟨3 + m, t', least, holding, u, ?_, hrest⟩
  rw [List.replicate_add, ← List.cons_append, run_append]
  exact ⟨t, hrun, hrun'⟩

/-- Two runs of the same process, the shorter one first. -/
theorem run_replicate_le {s t u : State B P} {e : Event B P} {m n : Nat} (hmn : m ≤ n)
    (ht : run step s (e :: List.replicate m (.advance p)) = some t)
    (hu : run step s (e :: List.replicate n (.advance p)) = some u) :
    run step t (List.replicate (n - m) (.advance p)) = some u := by
  have hsplit : List.replicate n (Event.advance p : Event B P) =
      List.replicate m (.advance p) ++ List.replicate (n - m) (.advance p) := by
    rw [← List.replicate_add, Nat.add_sub_cancel' hmn]
  rw [hsplit, ← List.cons_append, run_append] at hu
  obtain ⟨t', ht', hu⟩ := hu
  rw [ht] at ht'
  cases ht'
  exact hu

theorem Panics.stuck {t : State B P} (h : Panics t p) : step t (.advance p) = none := by
  obtain ⟨j, holding, dev, blockno, hpc⟩ := h
  simp only [step, advance, hpc, scanNext, lt_irrefl, if_false, chooseVictim]

/-- Once bget waits for the sleep lock, it does not panic. -/
theorem Recycled.no_panic {v : Fin B} {L' : Bucket → List (Fin B)} {t u : State B P}
    (h : Recycled s L p dev blockno v L' t) (n : Nat)
    (hrun : run step t (List.replicate n (.advance p)) = some u) : ¬ Panics u p := by
  have hpc : t.pc p = .sleepAcquire (.buf v) := by rw [h.returns, Function.update_self]
  rintro ⟨j, holding, d, b, hu⟩
  cases n with
  | zero =>
    cases hrun
    rw [hpc] at hu
    cases hu
  | succ n =>
    rw [List.replicate_succ, run_cons] at hrun
    obtain ⟨w, hw, hrun⟩ := hrun
    simp only [step, advance, hpc] at hw
    split at hw
    · cases hw
      -- the process is idle, and takes no further step
      cases n with
      | zero =>
        cases hrun
        simp [State.goto] at hu
      | succ n =>
        rw [List.replicate_succ, run_cons] at hrun
        obtain ⟨w, hw, -⟩ := hrun
        simp [step, advance, State.goto] at hw
    · cases hw

/-- bget alone, for a block that is not cached, from any distribution of the buffers and any
reference counts and times of use: an unused buffer of least `lastuse` is recycled, and
alone moved to the block's bucket, with all locks released; without an unused buffer, and
only then, it panics. -/
theorem bget_recycles (hs : Placed s L) (hidle : s.pc p = .idle)
    (hfree : ∀ i, s.bucketLock i = none) (hev : s.evictionLock = none)
    (hmiss : cached s L dev blockno = none) :
    ((∃ x, (s.buf (.buf x)).refcnt = 0) → ∃ n t v L',
      run step s (.bget p dev blockno :: List.replicate n (.advance p)) = some t ∧
      Recycled s L p dev blockno v L' t ∧
      (s.sleep (.buf v) = none → ∃ u, step t (.advance p) = some u ∧ u.pc = s.pc ∧
        u.sleep = Function.update s.sleep (.buf v) (some p))) ∧
    ((∃ n t, run step s (.bget p dev blockno :: List.replicate n (.advance p)) = some t ∧
      Panics t p) ↔ ∀ x, (s.buf (.buf x)).refcnt ≠ 0) := by
  obtain ⟨m, t, least, holding, u, hrun, hstep, hu, hbest, hpanic, -⟩ :=
    search_run hs hidle hfree hev hmiss
  -- with an unused buffer the search finds a candidate
  have hgood (x : Fin B) (hx : (s.buf (.buf x)).refcnt = 0) : ∃ n w v L',
      run step s (.bget p dev blockno :: List.replicate n (.advance p)) = some w ∧
      Recycled s L p dev blockno v L' w := by
    obtain ⟨j, hj⟩ := hs.exists_bucket x
    obtain ⟨c, rfl, -⟩ := hbest.2 j x j.isLt hj hx
    cases holding with
    | some h =>
      obtain ⟨n, w, v, hrun', -, hw⟩ := victim_run hs t u c h hu hbest hstep
      refine ⟨m + n, w, v, _, ?_, hw⟩
      rw [List.replicate_add, ← List.cons_append, run_append]
      exact ⟨t, hrun, hrun'⟩
    | none => exact absurd hbest.1 (fun hc => hc)
  refine ⟨?_, ?_, ?_⟩
  · rintro ⟨x, hx⟩
    obtain ⟨n, w, v, L', hrunw, hw⟩ := hgood x hx
    refine ⟨n, w, v, L', hrunw, hw, ?_⟩
    intro hsleep
    have hpc : w.pc p = .sleepAcquire (.buf v) := by rw [hw.returns, Function.update_self]
    have hfreew : w.sleep (.buf v) = none := by rw [hw.frame.1, hsleep]
    refine ⟨_, by simp only [step, advance, hpc, hfreew, if_true]; rfl, ?_, ?_⟩
    · simp only [State.goto, hw.returns, Function.update_idem]
      rw [← hidle]
      exact Function.update_eq_self p s.pc
    · simp only [State.goto, hw.frame.1]
  · rintro ⟨n, t', hrun', hp⟩ x hx
    obtain ⟨n', w, v, L', hrunw, hw⟩ := hgood x hx
    by_cases hle : n' ≤ n
    · exact hw.no_panic _ (run_replicate_le hle hrunw hrun') hp
    · -- the run cannot go on from a panic
      have hlater := run_replicate_le (by omega) hrun' hrunw
      obtain ⟨d, hd⟩ : ∃ d, n' - n = d + 1 := ⟨n' - n - 1, by omega⟩
      rw [hd, List.replicate_succ, run_cons, hp.stuck] at hlater
      obtain ⟨_, hnone, -⟩ := hlater
      cases hnone
  · intro hused
    refine ⟨m, t, hrun, hpanic ?_⟩
    cases least with
    | none => rfl
    | some c =>
      cases holding with
      | some h =>
        obtain ⟨v, -, -, -, -, -, -, h0, -⟩ := hbest.victim hs
        exact absurd h0 (hused v)
      | none => exact absurd hbest.1 (fun hc => hc)

theorem binit_placed : Placed (binit B P)
    (Function.update (fun _ => []) bucket0 (List.finRange B).reverse) := by
  refine ⟨binit_inv.chains, fun x => ?_⟩
  have hx := (binit_inv (B := B) (P := P)).once x
  have hdet : tally (fun p => ((binit B P).pc p).detached) x = 0 := by
    simp [tally, binit, PC.detached]
  omega

/-- Three buffers, all in bucket 0, and a block that goes to bucket 1. -/
theorem bget_recycles_boot : ∃ n t v L',
    run step (binit 3 1) (.bget 0 1 6 :: List.replicate n (.advance 0)) = some t ∧
      Recycled (binit 3 1) (Function.update (fun _ => []) bucket0 (List.finRange 3).reverse)
        0 1 6 v L' t := by
  obtain ⟨hfound, -⟩ := @bget_recycles 3 1 (binit 3 1) _ 0 1 6 binit_placed rfl
    (fun _ => rfl) rfl (by decide)
  obtain ⟨n, t, v, L', hrun, hrec, -⟩ := hfound ⟨0, rfl⟩
  exact ⟨n, t, v, L', hrun, hrec⟩

end Alone

end Xv6Labs.Bcache
