import Xv6Labs.HashRuns

/-! What gets find once the puts are done: the last value put for each key, so that only the
order of the puts of one key matters. -/
namespace Xv6Labs.Hash

variable {T : Type}

def PC.inPut : PC → Bool
  | .putLock _ _ | .putHead _ _ | .putScan _ _ _ | .putUpdate _ _ _ | .insert _ _ | .malloc _ _ _
  | .setKey _ _ _ _ | .setValue _ _ _ _ | .setNext _ _ _ _ | .link _ _ _ | .putUnlock _ => true
  | _ => false

def Event.isPut : Event T → Bool
  | .put _ _ _ => true
  | _ => false

/-- No put is under way. -/
def Quiet (s : State T) : Prop := ∀ x, (s.pc x).inPut = false

/-- What get(`k`) finds in the table: the value of the first entry with the key, if any. -/
def Finds (s : State T) (k : Nat) (r : Option Int) : Prop :=
  ∃ l, Chain (fun p => (s.heap p).next) 0 (s.table (k % NBUCKET)) l ∧ r = look s.heap l k

/-- `e` is the right answer of get(`k`) after the puts that have taken their lock. -/
def Answer (s : State T) (k e : Nat) : Prop :=
  (e ≠ 0 ↔ ∃ v, (k, v) ∈ s.log) ∧
    (e ≠ 0 → (s.heap e).key = k ∧ lastPut s.log k = some (s.heap e).value)

theorem putting_inPut {q : PC} {p : Nat × Int} (h : q.putting = some p) : q.inPut = true := by
  cases q <;> first | rfl | cases h

theorem lastPut_eq_none (log : List (Nat × Int)) (k : Nat) :
    lastPut log k = none ↔ ¬∃ v, (k, v) ∈ log := by
  simp only [lastPut, Option.map_eq_none_iff, List.find?_eq_none, List.mem_reverse,
    decide_eq_true_eq]
  constructor
  · rintro h ⟨v, hv⟩
    exact h (k, v) hv rfl
  · rintro h ⟨k', v⟩ hp rfl
    exact h ⟨v, hp⟩

/-- The last put of a key is the last one among the puts of that key. -/
theorem lastPut_filter (log : List (Nat × Int)) (k : Nat) :
    lastPut (log.filter (fun p => p.1 = k)) k = lastPut log k := by
  unfold lastPut
  rw [← List.filter_reverse, List.find?_filter]
  simp

section Answers

variable {s : State T} {C : Nat → List Nat}

theorem InvAt.answer (h : InvAt s C) (x : T) (k e : Nat) (hpc : s.pc x = .getUnlock k e) :
    Answer s k e := by
  have hb : (s.pc x).lockOf = some (k % NBUCKET) := by rw [hpc]; rfl
  have hlook : look s.heap (C (k % NBUCKET)) k = lastPut s.log k := by
    rcases h.maps_locked hb k rfl with ⟨v, hv⟩ | hlook
    · rw [hpc] at hv
      cases hv
    · exact hlook
  have hk := h.knows x
  rw [hpc] at hk
  rcases hk with ⟨rfl, habs⟩ | ⟨he, hkey⟩
  · rw [look_none habs] at hlook
    exact ⟨iff_of_false (fun hne => hne rfl) ((lastPut_eq_none _ _).mp hlook.symm),
      fun hne => absurd rfl hne⟩
  · have h0 : e ≠ 0 := (h.holds _).chain.ne_null e he
    have hmem := look_mem (h.holds _).keys he
    rw [hkey, hlook] at hmem
    refine ⟨iff_of_true h0 ?_, fun _ => ⟨hkey, hmem⟩⟩
    by_contra hnone
    rw [(lastPut_eq_none _ _).mpr hnone] at hmem
    cases hmem

theorem InvAt.finds (h : InvAt s C) (hq : Quiet s) (k : Nat) : Finds s k (lastPut s.log k) := by
  refine ⟨C (k % NBUCKET), (h.holds _).chain, ?_⟩
  rcases h.maps k with ⟨x, v, hv⟩ | hlook
  · have hx := putting_inPut hv
    rw [hq x] at hx
    cases hx
  · exact hlook.symm

theorem Finds.unique {k : Nat} {r r' : Option Int} (h : Finds s k r) (h' : Finds s k r') :
    r = r' := by
  obtain ⟨l, hl, rfl⟩ := h
  obtain ⟨l', hl', rfl⟩ := h'
  rw [hl.unique hl']

end Answers

section Steps

variable [DecidableEq T] {s t : State T}

/-- What a step of one thread does to the log and, outside put, to the table. -/
theorem advance_effect (x : T) (addr : Nat) (ht : advance s x addr = some t) :
    ∃ q, t.pc = Function.update s.pc x q ∧ (∀ k v, q ≠ .putLock k v) ∧
      ((∃ k v, s.pc x = .putLock k v ∧ t.log = s.log ++ [(k, v)]) ∨
        ((∀ k v, s.pc x ≠ .putLock k v) ∧ t.log = s.log)) ∧
      ((s.pc x).inPut = false → q.inPut = false ∧ t.heap = s.heap ∧ t.table = s.table) := by
  unfold advance at ht
  cases hpc : s.pc x <;> simp only [hpc] at ht
  case putLock k v =>
    obtain ⟨-, rfl⟩ := acquire_map ht
    exact ⟨_, rfl, by simp, Or.inl ⟨k, v, rfl, rfl⟩, fun hf => by cases hf⟩
  case getLock k =>
    obtain ⟨-, rfl⟩ := acquire_map ht
    exact ⟨_, rfl, by simp, Or.inr ⟨by simp, rfl⟩, fun _ => ⟨rfl, rfl, rfl⟩⟩
  case idle => cases ht
  all_goals
    try split_ifs at ht
    all_goals
      cases ht
      refine ⟨_, rfl, by simp, Or.inr ⟨by simp, rfl⟩, fun hf => ?_⟩
      first | exact ⟨rfl, rfl, rfl⟩ | cases hf

/-- The puts that have been called are those in the log and those that wait for their lock. -/
theorem step_puts (e : Event T) (ht : step s e = some t) (k : Nat) (v : Int) :
    ((k, v) ∈ t.log ∨ ∃ x, t.pc x = .putLock k v) ↔
      ((k, v) ∈ s.log ∨ ∃ x, s.pc x = .putLock k v) ∨ ∃ x, e = .put x k v := by
  cases e with
  | put x k' v' =>
    simp only [step] at ht
    split_ifs at ht with hx
    cases ht
    have hpc (y : T) : Function.update s.pc x (.putLock k' v') y = .putLock k v ↔
        s.pc y = .putLock k v ∨ (y = x ∧ k' = k ∧ v' = v) := by
      by_cases hy : y = x
      · subst hy
        simp [hx]
      · simp [hy]
    simp only [State.goto, hpc, exists_or, Event.put.injEq, or_assoc]
    simp
  | get x k' =>
    simp only [step] at ht
    split_ifs at ht with hx
    cases ht
    have hpc (y : T) : Function.update s.pc x (.getLock k') y = .putLock k v ↔
        s.pc y = .putLock k v := by
      by_cases hy : y = x
      · subst hy
        simp [hx]
      · simp [Function.update_of_ne hy]
    simp only [State.goto, hpc]
    simp
  | advance x addr =>
    obtain ⟨q, hpc, hq, hlog, -⟩ := advance_effect x addr ht
    have hpcy (y : T) : t.pc y = .putLock k v ↔ y ≠ x ∧ s.pc y = .putLock k v := by
      rw [hpc]
      by_cases hy : y = x
      · subst hy
        simp [hq]
      · simp [hy]
    simp only [hpcy, reduceCtorEq, exists_false, or_false]
    rcases hlog with ⟨k', v', hx, hlog⟩ | ⟨hx, hlog⟩
    · rw [hlog, List.mem_append, List.mem_singleton]
      constructor
      · rintro ((hm | he) | ⟨y, -, hy⟩)
        · exact Or.inl hm
        · cases he
          exact Or.inr ⟨x, hx⟩
        · exact Or.inr ⟨y, hy⟩
      · rintro (hm | ⟨y, hy⟩)
        · exact Or.inl (Or.inl hm)
        · by_cases hyx : y = x
          · subst hyx
            rw [hx] at hy
            cases hy
            exact Or.inl (Or.inr rfl)
          · exact Or.inr ⟨y, hyx, hy⟩
    · rw [hlog]
      constructor
      · rintro (hm | ⟨y, -, hy⟩)
        · exact Or.inl hm
        · exact Or.inr ⟨y, hy⟩
      · rintro (hm | ⟨y, hy⟩)
        · exact Or.inl hm
        · exact Or.inr ⟨y, fun hyx => hx k v (hyx ▸ hy), hy⟩

theorem run_puts (es : List (Event T)) (hr : run step s es = some t) (k : Nat) (v : Int) :
    ((k, v) ∈ t.log ∨ ∃ x, t.pc x = .putLock k v) ↔
      ((k, v) ∈ s.log ∨ ∃ x, s.pc x = .putLock k v) ∨ ∃ x, .put x k v ∈ es := by
  induction es generalizing s with
  | nil =>
    cases hr
    simp
  | cons e es ih =>
    obtain ⟨u, hu, ht⟩ := (run_cons step s t e es).mp hr
    rw [ih ht, step_puts e hu]
    simp only [List.mem_cons, exists_or, or_assoc, eq_comm]

/-- While no put is called and none is under way, the table stays as it is. -/
theorem run_quiet (es : List (Event T)) (hq : Quiet s) (he : ∀ e ∈ es, e.isPut = false)
    (hr : run step s es = some t) : t.heap = s.heap ∧ t.table = s.table ∧ t.log = s.log := by
  induction es generalizing s with
  | nil =>
    cases hr
    exact ⟨rfl, rfl, rfl⟩
  | cons e es ih =>
    obtain ⟨u, hu, ht⟩ := (run_cons step s t e es).mp hr
    have hstep : Quiet u ∧ u.heap = s.heap ∧ u.table = s.table ∧ u.log = s.log := by
      have hupd (x : T) (q : PC) (hin : q.inPut = false) (y : T) :
          (Function.update s.pc x q y).inPut = false := by
        by_cases hy : y = x
        · subst hy
          rw [Function.update_self]
          exact hin
        · rw [Function.update_of_ne hy]
          exact hq y
      cases e with
      | put x k v => exact absurd (he _ List.mem_cons_self) (by simp [Event.isPut])
      | get x k =>
        simp only [step] at hu
        split_ifs at hu
        cases hu
        exact ⟨hupd x _ rfl, rfl, rfl, rfl⟩
      | advance x addr =>
        obtain ⟨q, hpc, -, hlog, hout⟩ := advance_effect x addr hu
        obtain ⟨hin, hheap, htable⟩ := hout (hq x)
        refine ⟨fun y => by rw [hpc]; exact hupd x q hin y, hheap, htable, ?_⟩
        rcases hlog with ⟨k, v, hx, -⟩ | ⟨-, hlog⟩
        · have hqx := hq x
          rw [hx] at hqx
          cases hqx
        · exact hlog
    obtain ⟨h1, h2, h3⟩ := ih hstep.1 (fun f hf => he f (List.mem_cons_of_mem _ hf)) ht
    exact ⟨h1.trans hstep.2.1, h2.trans hstep.2.2.1, h3.trans hstep.2.2.2⟩

end Steps

variable [DecidableEq T]

/-- In every run the unlocked buckets are well formed and each get answers with the puts so
far. Once the puts are done the table holds the last value put for each key, and further gets
leave it so; only the order of the puts of one key matters. -/
theorem puts_are_kept (heap : Nat → Entry) (es : List (Event T)) (s : State T)
    (hr : run step (init heap) es = some s) :
    (∀ b, s.lock b = none → ∃ l, Holds s.heap (s.table b) b l) ∧
    (∀ x k e, s.pc x = .getUnlock k e → Answer s k e) ∧
    (Quiet s → (∀ k v, (k, v) ∈ s.log ↔ ∃ x, .put x k v ∈ es) ∧
      (∀ k, Finds s k (lastPut s.log k)) ∧
      (∀ fs t, (∀ f ∈ fs, f.isPut = false) → run step s fs = some t →
        t.heap = s.heap ∧ t.table = s.table ∧ t.log = s.log) ∧
      ∀ heap' es' (s' : State T), run step (init heap') es' = some s' → Quiet s' →
        ∀ k, s.log.filter (fun p => p.1 = k) = s'.log.filter (fun p => p.1 = k) →
          ∀ r r', Finds s k r → Finds s' k r' → r = r') := by
  have hinv (heap : Nat → Entry) (es : List (Event T)) (s : State T)
      (hr : run step (init heap) es = some s) : ∃ C, InvAt s C :=
    run_invariant step (fun s => ∃ C, InvAt s C) step_inv (init heap) s es
      ⟨_, init_inv heap⟩ hr
  obtain ⟨C, h⟩ := hinv heap es s hr
  refine ⟨fun b _ => ⟨C b, h.holds b⟩, h.answer, ?_⟩
  intro hq
  refine ⟨?_, h.finds hq, fun fs t hf ht => run_quiet fs hq hf ht, ?_⟩
  · intro k v
    have hp := run_puts es hr k v
    have hno : ¬∃ x, s.pc x = .putLock k v := by
      rintro ⟨x, hx⟩
      have hqx := hq x
      rw [hx] at hqx
      cases hqx
    simpa [init, hno] using hp
  · intro heap' es' s' hr' hq' k hk r r' hf hf'
    obtain ⟨C', h'⟩ := hinv heap' es' s' hr'
    rw [hf.unique (h.finds hq k), hf'.unique (h'.finds hq' k), ← lastPut_filter s.log, hk,
      lastPut_filter]

/-- Two threads put keys of one bucket and of another at the same time, and thread 1 puts key 7
again. -/
def putTwice : List (Event (Fin 2)) :=
  [.put 0 7 1, .put 1 8 5, .advance 0 0, .advance 1 0, .advance 0 0, .advance 1 0, .advance 1 0,
    .advance 0 0, .advance 1 0, .advance 0 0, .advance 1 96, .advance 0 64, .advance 0 0,
    .advance 1 0, .advance 1 0, .advance 0 0, .advance 1 0, .advance 0 0, .advance 1 0,
    .advance 1 0, .put 1 12 3, .advance 0 0, .advance 0 0, .get 0 7, .advance 1 0,
    .advance 1 0, .advance 1 0, .advance 1 0, .advance 1 0, .advance 1 128, .advance 1 0,
    .advance 1 0, .advance 1 0, .advance 1 0, .advance 1 0, .put 1 7 2, .advance 1 0,
    .advance 1 0, .advance 1 0, .advance 1 0, .advance 1 0, .advance 1 0]

theorem puts_are_kept_putTwice : ∃ s, run step (init fun _ => ⟨0, 0, 0⟩) putTwice = some s ∧
    Finds s 7 (some 2) ∧ Finds s 8 (some 5) ∧ Finds s 12 (some 3) := by
  have hr : ((run step (init fun _ => ⟨0, 0, 0⟩) putTwice).map (fun s => (s.pc 0, s.pc 1, s.log))) =
      some (.getLock 7, .idle, [(7, 1), (8, 5), (12, 3), (7, 2)]) := by decide
  obtain ⟨s, hs, he⟩ := Option.map_eq_some_iff.mp hr
  obtain ⟨hpc0, he⟩ := Prod.mk.inj he
  obtain ⟨hpc1, hlog⟩ := Prod.mk.inj he
  have hquiet : Quiet s := by
    intro x
    match x with
    | 0 => rw [hpc0]; rfl
    | 1 => rw [hpc1]; rfl
  have hfinds := ((puts_are_kept _ putTwice s hs).2.2 hquiet).2.1
  rw [hlog] at hfinds
  exact ⟨s, hs, hfinds 7, hfinds 8, hfinds 12⟩

end Xv6Labs.Hash
