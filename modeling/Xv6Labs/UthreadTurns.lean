import Xv6Labs.UthreadRuns

/-! thread_schedule takes the threads in turn: a runnable thread runs again, where it stopped,
after at most as many calls as there are other threads. -/
namespace Xv6Labs.Uthread

variable {allThread : Nat} {s t : State} {x : Fin MAX_THREAD}

/-- The calls that come to thread_schedule. -/
def Event.schedules : Event → Bool
  | .threadYield | .exit | .threadSchedule => true
  | .work _ | .threadCreate _ => false

/-- The threads that come before `x` when the scan starts behind `c`. -/
def ahead (c x : Fin MAX_THREAD) : Nat := (x.val + (MAX_THREAD - 1) - c.val) % MAX_THREAD

theorem ahead_eq (c x : Fin MAX_THREAD) : ahead c x = (x.val + 3 - c.val) % 4 := rfl

theorem ahead_lt {c : Fin MAX_THREAD} (h : x ≠ c) : ahead c x < 3 := by
  have hmax : MAX_THREAD = 4 := rfl
  have hx := x.isLt
  have hc := c.isLt
  have hne : x.val ≠ c.val := fun he => h (Fin.ext he)
  rw [ahead_eq]
  omega

/-- The scan behind `c` stops at `x` or at a thread that is before `x`. -/
theorem first_ahead {state : Fin MAX_THREAD → ThreadState} {c j : Fin MAX_THREAD}
    (hj : First state MAX_THREAD (c.val + 1) j) (hx : state x = .runnable) :
    j = x ∨ ahead j x < ahead c x := by
  have hmax : MAX_THREAD = 4 := rfl
  obtain ⟨d, hd, hjd, -, hbefore⟩ := hj
  have hxlt := x.isLt
  have hclt := c.isLt
  have hjd : j.val = (c.val + 1 + d) % 4 := hjd
  have hturn : x.val = (c.val + 1 + ahead c x) % 4 := by
    rw [ahead_eq]
    omega
  -- the scan does not go past a runnable thread
  have hle : d ≤ ahead c x := by
    by_contra hlt
    exact hbefore (ahead c x) (Nat.lt_of_not_le hlt) x hturn hx
  by_cases hdx : d = ahead c x
  · refine Or.inl (Fin.ext ?_)
    rw [hjd, hturn, hdx]
  · refine Or.inr ?_
    rw [ahead_eq] at hle hdx ⊢
    rw [ahead_eq]
    omega

/-- A step while thread `x` waits for its turn: `x` gets it, or stays as it is and has come
closer to it if the step was a call of thread_schedule. -/
theorem step_ahead (h : Inv allThread s) (e : Event) (ht : step allThread s e = some t)
    (hx : s.state x = .runnable) (hne : x ≠ s.current) :
    t.current = x ∨ (x ≠ t.current ∧ t.state x = .runnable ∧ t.resume x = s.resume x ∧
      (e.schedules = true → ahead t.current x < ahead s.current x) ∧
      (e.schedules = false → t.current = s.current)) := by
  have hk := (step_spec h e ht).2
  by_cases hturn : t.current = x
  · exact Or.inl hturn
  have hwait : x ≠ t.current := fun he => hturn he.symm
  obtain ⟨hresume, hstate⟩ := hk.others x hne hx hwait
  refine Or.inr ⟨hwait, hstate.trans hx, hresume, ?_, ?_⟩
  · intro hsched
    have hscan : ∃ st, statesAt s e = some st ∧ st x = .runnable := by
      cases e with
      | threadYield => exact ⟨_, rfl, (Function.update_of_ne hne _ _).trans hx⟩
      | exit => exact ⟨_, rfl, (Function.update_of_ne hne _ _).trans hx⟩
      | threadSchedule => exact ⟨_, rfl, hx⟩
      | work regs => cases hsched
      | threadCreate func => cases hsched
    obtain ⟨st, hst, hxst⟩ := hscan
    have hlive : t.ended = false := by
      by_contra hend
      exact (hk.ends st hst).mp (by simpa using hend) x hxst
    rcases first_ahead (hk.picks st hst hlive) hxst with he | hlt
    · exact absurd he hturn
    · exact hlt
  · intro hsched
    unfold step at ht
    split_ifs at ht with hended
    cases e with
    | work regs =>
      cases ht
      rfl
    | threadCreate func =>
      have hs : s.ended = false := by simpa using hended
      obtain ⟨-, i, hi⟩ := create_spec h hs func ht
      exact hi.regs.2.2.1
    | threadYield => cases hsched
    | exit => cases hsched
    | threadSchedule => cases hsched

/-- The run up to the step that gives thread `x` its turn. -/
structure Turn (allThread : Nat) (s : State) (x : Fin MAX_THREAD) (fs : List Event) where
  before : List Event
  event : Event
  after : List Event
  old : State
  new : State
  split : fs = before ++ event :: after
  runs : run (step allThread) s before = some old
  steps : step allThread old event = some new
  waits : old.resume x = s.resume x
  gets : new.current = x
  goesOn : Resumes allThread old new

theorem turn_of_run (h : Inv allThread s) (hx : s.state x = .runnable) (hne : x ≠ s.current)
    (fs : List Event) (ht : run (step allThread) s fs = some t)
    (hmany : ahead s.current x < fs.countP Event.schedules) :
    ∃ turn : Turn allThread s x fs, turn.before.countP Event.schedules ≤ ahead s.current x := by
  induction fs generalizing s with
  | nil => exact absurd hmany (Nat.not_lt_zero _)
  | cons e fs ih =>
    obtain ⟨u, hu, hrun⟩ := (run_cons _ s t e fs).mp ht
    obtain ⟨hinv, hk⟩ := step_spec h e hu
    rcases step_ahead h e hu hx hne with hturn | ⟨hwait, hstate, hresume, hless, hsame⟩
    · refine ⟨⟨[], e, fs, s, u, rfl, rfl, hu, rfl, hturn, ?_⟩, Nat.zero_le _⟩
      exact (hk.resumes (by rw [hturn]; exact hne)).1
    · rw [List.countP_cons] at hmany
      have hmore : ahead u.current x < fs.countP Event.schedules ∧
          ahead u.current x + (if e.schedules then 1 else 0) ≤ ahead s.current x := by
        cases hsched : e.schedules with
        | true =>
          have hlt := hless hsched
          simp only [hsched, if_true] at hmany ⊢
          omega
        | false =>
          rw [hsame hsched]
          simpa [hsched] using hmany
      obtain ⟨turn, hcount⟩ := ih hinv hstate hwait hrun hmore.1
      refine ⟨⟨e :: turn.before, turn.event, turn.after, turn.old, turn.new, ?_, ?_, turn.steps,
        turn.waits.trans hresume, turn.gets, turn.goesOn⟩, ?_⟩
      · rw [List.cons_append, ← turn.split]
      · exact (run_cons _ s _ e _).mpr ⟨u, hu, turn.runs⟩
      · simp only [List.countP_cons]
        omega

/-- In every run of the threads, a thread that is runnable in some state runs again, from where
it stopped, before the run has called thread_schedule as often as there are other threads. -/
theorem runnable_gets_turn (allThread : Nat) (regs : Reg → Nat) (mem : Nat → Nat) (pc : Nat)
    (es : List Event) (s : State)
    (hr : run (step allThread) (threadInit regs mem pc) es = some s) (x : Fin MAX_THREAD)
    (hx : s.state x = .runnable) (hne : x ≠ s.current) (fs : List Event) (t : State)
    (ht : run (step allThread) s fs = some t)
    (hmany : MAX_THREAD - 1 ≤ fs.countP Event.schedules) :
    ∃ turn : Turn allThread s x fs, turn.before.countP Event.schedules < MAX_THREAD - 1 := by
  have h : Inv allThread s := run_invariant (step allThread) (Inv allThread)
    (fun s e t h ht => (step_spec h e ht).1) _ s es (init_inv regs mem pc) hr
  have hlt : ahead s.current x < MAX_THREAD - 1 := ahead_lt hne
  obtain ⟨turn, hcount⟩ := turn_of_run h hx hne fs ht (hlt.trans_le hmany)
  exact ⟨turn, hcount.trans_lt hlt⟩

/-- main creates three threads, which yield in turn; the third has its turn after two others. -/
theorem runnable_gets_turn_three : ∃ s,
    ∃ turn : Turn 4096 s (Fin.last 3) [.threadYield, .threadYield, .threadYield],
    run (step 4096) (threadInit (fun _ => 7) (fun _ => 0) 0)
      [.threadCreate 64, .threadCreate 64, .threadCreate 64] = some s ∧
    turn.before.countP Event.schedules < MAX_THREAD - 1 := by
  have hs : ((run (step 4096) (threadInit (fun _ => 7) (fun _ => 0) 0)
      [.threadCreate 64, .threadCreate 64, .threadCreate 64]).map
      (fun s => (s.current.val, s.state (Fin.last 3),
        (run (step 4096) s [.threadYield, .threadYield, .threadYield]).isSome))) =
      some (0, .runnable, true) := by decide
  obtain ⟨s, hs, hend⟩ := Option.map_eq_some_iff.mp hs
  obtain ⟨hcur, hend⟩ := Prod.mk.inj hend
  obtain ⟨hstate, hruns⟩ := Prod.mk.inj hend
  obtain ⟨t, ht⟩ := Option.isSome_iff_exists.mp hruns
  have hne : (Fin.last 3 : Fin MAX_THREAD) ≠ s.current := by
    intro he
    rw [← he] at hcur
    cases hcur
  obtain ⟨turn, hcount⟩ := runnable_gets_turn 4096 _ _ 0 _ s hs (Fin.last 3) hstate hne
    [.threadYield, .threadYield, .threadYield] t ht (by decide)
  exact ⟨s, turn, hs, hcount⟩

end Xv6Labs.Uthread
