import Xv6Labs.PipeRuns

/-! No wakeup of a pipe gets lost, unless a writer is killed between two of its bytes: a reader
sleeps only on an empty pipe, a writer only on a full one, and one of the two can always go on. -/
namespace Xv6Labs.Pipe

variable {P : Type}

/-- The process sleeps on `chan`. -/
def PC.sleeps : PC → Chan → Prop
  | .writeAsleep .., .nwrite => True
  | .readAsleep .., .nread => True
  | _, _ => False

/-- What a sleeper on `chan` waits for has not happened. -/
def State.Waits (s : State P) : Chan → Prop
  | .nread => s.nread = s.nwrite ∧ s.writeopen = true
  | .nwrite => s.nwrite = s.nread + PIPESIZE.toUInt32 ∧ s.readopen = true

/-- Process `p`, which has the lock, calls `wakeup(chan)` before it lets the lock go. -/
def State.Rouses (s : State P) (p : P) : Chan → Prop
  | .nread => (∃ i, s.pc p = .writeDone i) ∨
      ((∃ src n i, s.pc p = .writeLoop src n i) ∧ s.readopen = true ∧ s.killed p = false)
  | .nwrite => (∃ n room i, s.pc p = .readCopy n room i) ∨ ∃ n i, s.pc p = .readDone n i

structure Awake (s : State P) : Prop where
  held : ∀ p, s.lock = some p → (s.pc p).locked = true
  owner : ∀ p, (s.pc p).locked = true → s.lock = some p
  sleep : ∀ chan x, (s.pc x).sleeps chan →
    s.Waits chan ∨ ∃ p, s.lock = some p ∧ s.Rouses p chan

/-- In the loop of pipewrite, with the lock. -/
def PC.writing : PC → Bool
  | .writeLoop .. => true
  | _ => false

/-- No writer is killed between two of its bytes. -/
def KillsOutside (s : State P) : Event P → Prop
  | .kill p => (s.pc p).writing = false
  | _ => True

instance (s : State P) : (e : Event P) → Decidable (KillsOutside s e)
  | .kill p => inferInstanceAs (Decidable ((s.pc p).writing = false))
  | .pipewrite .. | .piperead .. | .pipeclose .. | .advance .. => inferInstanceAs (Decidable True)

section Steps

variable {s t : State P}

theorem sleeps_unlocked {chan : Chan} {q : PC} (h : q.sleeps chan) : q.locked = false := by
  cases q with
  | writeAsleep src n i | readAsleep n room => rfl
  | _ => exact h.elim

theorem sleeps_wake {chan c : Chan} {q : PC} (h : (q.wake chan).sleeps c) :
    q.sleeps c ∧ c ≠ chan := by
  cases q with
  | writeAsleep src n i | readAsleep n room =>
    cases chan <;> cases c <;> first | exact h.elim | exact ⟨trivial, by simp⟩
  | _ => exact h.elim

theorem State.Waits.congr {c : Chan} (h : s.Waits c) (hr : t.nread = s.nread)
    (hw : t.nwrite = s.nwrite) (hro : t.readopen = s.readopen) (hwo : t.writeopen = s.writeopen) :
    t.Waits c := by
  cases c with
  | nread => exact ⟨by rw [hr, hw]; exact h.1, by rw [hwo]; exact h.2⟩
  | nwrite => exact ⟨by rw [hr, hw]; exact h.1, by rw [hro]; exact h.2⟩

/-- A step of process `p` to `q`, when it has the lock or nobody has it. -/
theorem Awake.goto (h : Awake s) (p : P) (t : State P)
    (hpc : ∀ x, x ≠ p → t.pc x = s.pc x ∨ ∃ chan, t.pc x = (s.pc x).wake chan)
    (hmine : s.lock = some p ∨ s.lock = none)
    (hlock : ((t.pc p).locked = true ∧ t.lock = some p) ∨
      ((t.pc p).locked = false ∧ t.lock = none))
    (hp : ∀ chan, (t.pc p).sleeps chan → t.Waits chan)
    (hsleep : ∀ chan x, x ≠ p → (t.pc x).sleeps chan → s.Waits chan ∨ s.Rouses p chan →
      t.Waits chan ∨ (t.lock = some p ∧ t.Rouses p chan)) : Awake t := by
  have hother (x : P) (hx : x ≠ p) : (s.pc x).locked = false := by
    by_contra hl
    have hlx := h.owner x (by simpa using hl)
    rcases hmine with hs | hs
    · rw [hs] at hlx
      exact hx (Option.some.inj hlx).symm
    · rw [hs] at hlx
      cases hlx
  -- wakeup takes no lock
  have hother' (x : P) (hx : x ≠ p) : (t.pc x).locked = false := by
    rcases hpc x hx with he | ⟨chan, he⟩
    · rw [he]
      exact hother x hx
    · rw [he, wake_locked]
      exact hother x hx
  refine ⟨?_, ?_, ?_⟩
  · intro x hx
    rcases hlock with ⟨hl, ht⟩ | ⟨-, ht⟩
    · rw [ht] at hx
      exact Option.some.inj hx ▸ hl
    · rw [ht] at hx
      cases hx
  · intro x hx
    by_cases hxp : x = p
    · subst hxp
      rcases hlock with ⟨-, ht⟩ | ⟨hl, -⟩
      · exact ht
      · rw [hl] at hx
        cases hx
    · rw [hother' x hxp] at hx
      cases hx
  · intro chan x hx
    by_cases hxp : x = p
    · exact Or.inl (hp chan (hxp ▸ hx))
    · have hold : (s.pc x).sleeps chan := by
        rcases hpc x hxp with he | ⟨c, he⟩
        · rwa [he] at hx
        · rw [he] at hx
          exact (sleeps_wake hx).1
      have hs : s.Waits chan ∨ s.Rouses p chan := by
        rcases h.sleep chan x hold with hw | ⟨r, hr, hrouse⟩
        · exact Or.inl hw
        · rcases hmine with hs | hs
          · rw [hs] at hr
            exact Or.inr (Option.some.inj hr ▸ hrouse)
          · rw [hs] at hr
            cases hr
      rcases hsleep chan x hxp hx hs with hw | hr
      · exact Or.inl hw
      · exact Or.inr ⟨p, hr⟩

variable [DecidableEq P]

/-- acquire by process `p`. -/
theorem Awake.acquire (h : Awake s) (p : P) (q : PC) (hs : s.lock = none) (hq : q.locked = true) :
    Awake (State.goto { s with lock := some p } p q) := by
  refine h.goto p _ (fun _ hx => Or.inl (Function.update_of_ne hx _ _)) (Or.inr hs)
    (Or.inl ⟨by simp [State.goto, hq], rfl⟩) ?_ ?_
  · intro chan hsleep
    simp only [State.goto, Function.update_self] at hsleep
    rw [sleeps_unlocked hsleep] at hq
    cases hq
  · intro chan x hx hsleep hw
    simp only [State.goto, Function.update_of_ne hx] at hsleep
    rcases h.sleep chan x hsleep with hw | ⟨r, hr, -⟩
    · exact Or.inl (hw.congr rfl rfl rfl rfl)
    · rw [hs] at hr
      cases hr

/-- A step of process `p` inside its critical section. -/
theorem Awake.keep (h : Awake s) (p : P) (q : PC) (hs : s.lock = some p) (hq : q.locked = true)
    (hrouse : ∀ chan, s.Rouses p chan → (s.goto p q).Rouses p chan) : Awake (s.goto p q) := by
  refine h.goto p _ (fun _ hx => Or.inl (Function.update_of_ne hx _ _)) (Or.inl hs)
    (Or.inl ⟨by simp [State.goto, hq], hs⟩) ?_ ?_
  · intro chan hsleep
    simp only [State.goto, Function.update_self] at hsleep
    rw [sleeps_unlocked hsleep] at hq
    cases hq
  · rintro chan x hx hsleep (hw | hr)
    · exact Or.inl (hw.congr rfl rfl rfl rfl)
    · exact Or.inr ⟨hs, hrouse chan hr⟩

/-- Release with no wakeup, by a process that owes none. -/
theorem Awake.release (h : Awake s) (p : P) (q : PC) (hs : s.lock = some p)
    (hq : q.locked = false) (hwait : ∀ chan, q.sleeps chan → s.Waits chan)
    (hrouse : ∀ chan, ¬s.Rouses p chan) : Awake (s.release.goto p q) := by
  refine h.goto p _ (fun _ hx => Or.inl (Function.update_of_ne hx _ _)) (Or.inl hs)
    (Or.inr ⟨by simp [State.goto, hq], rfl⟩) ?_ ?_
  · intro chan hsleep
    simp only [State.goto, Function.update_self] at hsleep
    exact (hwait chan hsleep).congr rfl rfl rfl rfl
  · rintro chan x hx hsleep (hw | hr)
    · exact Or.inl (hw.congr rfl rfl rfl rfl)
    · exact absurd hr (hrouse chan)

/-- `wakeup(chan)` and release, by a process that owes no other wakeup. -/
theorem Awake.wakeup (h : Awake s) (p : P) (q : PC) (chan : Chan) (hs : s.lock = some p)
    (hq : q.locked = false) (hwait : ∀ c, q.sleeps c → s.Waits c)
    (hrouse : ∀ c, s.Rouses p c → c = chan) :
    Awake (((s.wakeup chan).release).goto p q) := by
  refine h.goto p _ ?_ (Or.inl hs) (Or.inr ⟨by simp [State.goto, hq], rfl⟩) ?_ ?_
  · intro x hx
    exact Or.inr ⟨chan, Function.update_of_ne hx _ _⟩
  · intro c hsleep
    simp only [State.goto, Function.update_self] at hsleep
    exact (hwait c hsleep).congr rfl rfl rfl rfl
  · rintro c x hx hsleep (hw | hr)
    · exact Or.inl (hw.congr rfl rfl rfl rfl)
    · simp only [State.goto, Function.update_of_ne hx] at hsleep
      exact absurd (hrouse c hr) (sleeps_wake hsleep).2

/-- The steps of pipewrite. -/
theorem awake_write (h : Awake s) (p : P) {src : List UInt8} {n : Int} {i : Nat}
    (hpc : s.pc p = .writeLoop src n i) (ht : advance s p = some t) : Awake t := by
  have hs : s.lock = some p := h.owner p (by rw [hpc]; rfl)
  have hwriter : ¬s.Rouses p .nwrite := by
    rintro (⟨_, _, _, hc⟩ | ⟨_, _, hc⟩) <;> rw [hpc] at hc <;> cases hc
  unfold advance at ht
  simp only [hpc] at ht
  split_ifs at ht with hin hbad hfull
  · -- the process is not one that owes a wakeup: it would have found its end open
    cases ht
    refine h.keep p _ hs rfl ?_
    rintro (_ | _) hr
    · rcases hr with ⟨_, hc⟩ | ⟨-, hopen, hkilled⟩
      · rw [hpc] at hc
        cases hc
      · rcases hbad with hclosed | hdead
        · rw [hclosed] at hopen
          cases hopen
        · rw [hdead] at hkilled
          cases hkilled
    · exact absurd hr hwriter
  · -- the pipe is full: readers are woken before the writer sleeps
    cases ht
    have hopen : s.readopen = true := by
      have := fun hc => hbad (Or.inl hc)
      simpa using this
    refine h.wakeup p _ .nread hs rfl ?_ ?_
    · rintro (_ | _) hsleep
      · exact hsleep.elim
      · exact ⟨hfull, hopen⟩
    · rintro (_ | _) hr
      · rfl
      · exact absurd hr hwriter
  · cases hch : src[i]? with
    | none =>
      rw [hch] at ht
      cases ht
      refine h.keep p _ hs rfl ?_
      rintro (_ | _) hr
      · exact Or.inl ⟨i, by simp [State.goto]⟩
      · exact absurd hr hwriter
    | some ch =>
      rw [hch] at ht
      cases ht
      refine h.goto p _ (fun _ hx => Or.inl (Function.update_of_ne hx _ _)) (Or.inl hs)
        (Or.inl ⟨by simp [State.goto, PC.locked], hs⟩) ?_ ?_
      · intro chan hsleep
        simp only [State.goto, Function.update_self] at hsleep
        exact hsleep.elim
      · rintro (_ | _) x hx hsleep hw
        · -- readers may sleep beside this byte: the writer owes them the wakeup of its end
          refine Or.inr ⟨hs, Or.inr ⟨⟨src, n, i + 1, by simp [State.goto]⟩, ?_, ?_⟩⟩
          · have := fun hc => hbad (Or.inl hc)
            simpa [State.goto, State.put] using this
          · have := fun hc => hbad (Or.inr hc)
            simpa [State.goto, State.put] using this
        · rcases hw with hw | hw
          · exact absurd hw.1 hfull
          · exact absurd hw hwriter
  · cases ht
    refine h.keep p _ hs rfl ?_
    rintro (_ | _) hr
    · exact Or.inl ⟨i, by simp [State.goto]⟩
    · exact absurd hr hwriter

/-- The steps of piperead between its acquire and its release. -/
theorem awake_read (h : Awake s) (p : P) {n : Int} {room : Nat}
    (hpc : s.pc p = .readTest n room ∨ ∃ i, s.pc p = .readCopy n room i)
    (ht : advance s p = some t) : Awake t := by
  have hs : s.lock = some p := by
    apply h.owner
    rcases hpc with hpc | ⟨i, hpc⟩ <;> rw [hpc] <;> rfl
  have hreader : ¬s.Rouses p .nread := by
    rintro (⟨_, hc⟩ | ⟨⟨_, _, _, hc⟩, -⟩) <;> rcases hpc with hpc | ⟨i, hpc⟩ <;>
      rw [hpc] at hc <;> cases hc
  unfold advance at ht
  rcases hpc with hpc | ⟨i, hpc⟩ <;> simp only [hpc] at ht
  · have hwriter : ¬s.Rouses p .nwrite := by
      rintro (⟨_, _, _, hc⟩ | ⟨_, _, hc⟩) <;> rw [hpc] at hc <;> cases hc
    have hnone : ∀ chan, ¬s.Rouses p chan := by
      rintro (_ | _)
      · exact hreader
      · exact hwriter
    split_ifs at ht with hempty hkilled
    · cases ht
      exact h.keep p _ hs rfl (fun chan hr => absurd hr (hnone chan))
    · cases ht
      refine h.release p _ hs rfl ?_ hnone
      rintro (_ | _) hsleep
      · exact hempty
      · exact hsleep.elim
    · cases ht
      exact h.keep p _ hs rfl (fun chan hr => absurd hr (hnone chan))
  · -- whatever the loop does next, a wakeup of the writers comes at its end
    have hdone (k : Nat) : Awake (s.goto p (.readDone n k)) := by
      refine h.keep p _ hs rfl ?_
      rintro (_ | _) hr
      · exact absurd hr hreader
      · exact Or.inr ⟨n, k, by simp [State.goto]⟩
    have hget (out : Bool) (q : PC) (hne : s.nread ≠ s.nwrite) (hl : q.locked = true)
        (hq : (∃ n room i, q = .readCopy n room i) ∨ ∃ n i, q = .readDone n i) :
        Awake ((s.get out).goto p q) := by
      refine h.goto p _ (fun _ hx => Or.inl (Function.update_of_ne hx _ _)) (Or.inl hs)
        (Or.inl ⟨by simp [State.goto, hl], hs⟩) ?_ ?_
      · intro chan hsleep
        simp only [State.goto, Function.update_self] at hsleep
        rw [sleeps_unlocked hsleep] at hl
        cases hl
      · rintro (_ | _) x hx hsleep hw
        · rcases hw with hw | hw
          · exact absurd hw.1 hne
          · exact absurd hw hreader
        · refine Or.inr ⟨hs, ?_⟩
          simp only [State.Rouses, State.goto, Function.update_self]
          exact hq
    split_ifs at ht with hin hempty hfits
    · cases ht
      exact hdone i
    · cases ht
      exact hget true _ hempty rfl (Or.inl ⟨n, room, i + 1, rfl⟩)
    · cases ht
      exact hget false _ hempty rfl (Or.inr ⟨n, i, rfl⟩)
    · cases ht
      exact hdone i

theorem advance_awake (h : Awake s) (p : P) (ht : advance s p = some t) : Awake t := by
  cases hpc : s.pc p with
  | idle | writeAsleep src n i | readAsleep n room =>
    simp only [advance, hpc] at ht
    cases ht
  | writeLoop src n i => exact awake_write h p hpc ht
  | readTest n room => exact awake_read h p (Or.inl hpc) ht
  | readCopy n room i => exact awake_read h p (Or.inr ⟨i, hpc⟩) ht
  | writeAcquire src n i | readAcquire n room =>
    simp only [advance, hpc] at ht
    obtain ⟨hs, rfl⟩ := acquire_map ht
    exact h.acquire p _ hs rfl
  | writeDone i =>
    have hs : s.lock = some p := h.owner p (by rw [hpc]; rfl)
    simp only [advance, hpc] at ht
    cases ht
    refine h.wakeup p _ .nread hs rfl (fun _ hsleep => hsleep.elim) ?_
    rintro (_ | _) hr
    · rfl
    · rcases hr with ⟨_, _, _, hc⟩ | ⟨_, _, hc⟩ <;> rw [hpc] at hc <;> cases hc
  | readDone n i =>
    have hs : s.lock = some p := h.owner p (by rw [hpc]; rfl)
    simp only [advance, hpc] at ht
    cases ht
    refine h.wakeup p _ .nwrite hs rfl (fun _ hsleep => hsleep.elim) ?_
    rintro (_ | _) hr
    · rcases hr with ⟨_, hc⟩ | ⟨⟨_, _, _, hc⟩, -⟩ <;> rw [hpc] at hc <;> cases hc
    · rfl
  | fail =>
    have hs : s.lock = some p := h.owner p (by rw [hpc]; rfl)
    simp only [advance, hpc] at ht
    cases ht
    refine h.release p _ hs rfl (fun _ hsleep => hsleep.elim) ?_
    rintro (_ | _) hr
    · rcases hr with ⟨_, hc⟩ | ⟨⟨_, _, _, hc⟩, -⟩ <;> rw [hpc] at hc <;> cases hc
    · rcases hr with ⟨_, _, _, hc⟩ | ⟨_, _, hc⟩ <;> rw [hpc] at hc <;> cases hc

/-- A call starts, or a sleeper is woken by kill: nobody's lock or wakeup changes. -/
theorem Awake.outside (h : Awake s) (p : P) (t : State P)
    (hpc : ∀ x, x ≠ p → t.pc x = s.pc x) (hlock : t.lock = s.lock)
    (hold : (s.pc p).locked = (t.pc p).locked) (hp : ∀ chan, ¬(t.pc p).sleeps chan)
    (hwait : ∀ chan, s.Waits chan → t.Waits chan)
    (hrouse : ∀ r chan, s.lock = some r → s.Rouses r chan → t.Rouses r chan) : Awake t := by
  have hlocked (x : P) : (t.pc x).locked = (s.pc x).locked := by
    by_cases hx : x = p
    · rw [hx, hold]
    · rw [hpc x hx]
  refine ⟨?_, ?_, ?_⟩
  · intro x hx
    rw [hlocked]
    exact h.held x (hlock ▸ hx)
  · intro x hx
    rw [hlocked] at hx
    rw [hlock]
    exact h.owner x hx
  · intro chan x hx
    have hxp : x ≠ p := by
      rintro rfl
      exact hp chan hx
    rw [hpc x hxp] at hx
    rcases h.sleep chan x hx with hw | ⟨r, hr, hrs⟩
    · exact Or.inl (hwait chan hw)
    · exact Or.inr ⟨r, by rw [hlock]; exact hr, hrouse r chan hr hrs⟩

omit [DecidableEq P] in
theorem pipeclose_awake (h : Awake s) (writable : Bool) (ht : pipeclose s writable = some t) :
    Awake t := by
  unfold pipeclose at ht
  have hclose (t : State P) (chan : Chan) (hs : s.lock = none) (hlock : t.lock = none)
      (hpc : t.pc = fun x => (s.pc x).wake chan)
      (hwait : ∀ c, c ≠ chan → s.Waits c → t.Waits c) : Awake t := by
    refine ⟨?_, ?_, ?_⟩
    · intro x hx
      rw [hlock] at hx
      cases hx
    · intro x hx
      rw [hpc, wake_locked] at hx
      rw [hlock, ← hs]
      exact h.owner x hx
    · intro c x hx
      rw [hpc] at hx
      obtain ⟨hsleep, hc⟩ := sleeps_wake hx
      rcases h.sleep c x hsleep with hw | ⟨r, hr, -⟩
      · exact Or.inl (hwait c hc hw)
      · rw [hs] at hr
        cases hr
  split_ifs at ht with hs hw <;> cases ht
  · refine hclose _ .nread hs hs rfl ?_
    rintro (_ | _) hc hw
    · exact absurd rfl hc
    · exact hw
  · refine hclose _ .nwrite hs hs rfl ?_
    rintro (_ | _) hc hw
    · exact hw
    · exact absurd rfl hc

theorem step_awake (s : State P) (e : Event P) (t : State P) (h : Awake s)
    (hk : KillsOutside s e) (ht : step s e = some t) : Awake t := by
  unfold step at ht
  split_ifs at ht with hgone
  cases e with
  | pipewrite p src n | piperead p n room =>
    simp only at ht
    split_ifs at ht with hidle
    cases ht
    refine h.outside p _ (fun x hx => Function.update_of_ne hx _ _) rfl ?_ ?_ ?_ ?_
    · simp [State.goto, hidle, PC.locked]
    · intro chan hsleep
      simp only [State.goto, Function.update_self] at hsleep
      exact hsleep.elim
    · exact fun chan hw => hw.congr rfl rfl rfl rfl
    · intro r chan hr hrs
      have hrp : r ≠ p := by
        rintro rfl
        have hl := h.held r hr
        rw [hidle] at hl
        cases hl
      cases chan <;> simp only [State.Rouses, State.goto, Function.update_of_ne hrp] <;> exact hrs
  | pipeclose writable => exact pipeclose_awake h writable ht
  | advance p => exact advance_awake h p ht
  | kill p =>
    cases ht
    refine h.outside p _ (fun x hx => Function.update_of_ne hx _ _) rfl ?_ ?_ ?_ ?_
    · simp only [State.goto, Function.update_self, wake_locked]
    · intro chan hsleep
      simp only [State.goto, Function.update_self] at hsleep
      obtain ⟨hread, hc⟩ := sleeps_wake hsleep
      cases chan with
      | nread => exact (sleeps_wake hread).2 rfl
      | nwrite => exact hc rfl
    · exact fun chan hw => hw.congr rfl rfl rfl rfl
    · intro r chan hr hrs
      by_cases hrp : r = p
      · subst hrp
        cases chan with
        | nread =>
          rcases hrs with ⟨i, hi⟩ | ⟨⟨src, n, i, hi⟩, -⟩
          · exact Or.inl ⟨i, by simp [State.goto, hi, PC.wake]⟩
          · -- a killed writer returns without its wakeup
            have hout : (s.pc r).writing = false := hk
            rw [hi] at hout
            cases hout
        | nwrite =>
          rcases hrs with ⟨n, room, i, hi⟩ | ⟨n, i, hi⟩
          · exact Or.inl ⟨n, room, i, by simp [State.goto, hi, PC.wake]⟩
          · exact Or.inr ⟨n, i, by simp [State.goto, hi, PC.wake]⟩
      · cases chan <;> simp only [State.Rouses, State.goto, Function.update_of_ne hrp] <;> exact hrs

omit [DecidableEq P] in
theorem pipealloc_awake (junk : Nat → UInt8) (killed : P → Bool) :
    Awake (pipealloc junk killed) := by
  refine ⟨?_, ?_, fun chan x hx => hx.elim⟩
  · intro p hp
    cases hp
  · intro p hp
    cases hp

/-- The process with the lock can go on. -/
theorem locked_advances {p : P} (hp : (s.pc p).locked = true) : ∃ t, advance s p = some t := by
  unfold advance
  cases hpc : s.pc p with
  | idle | writeAcquire src n i | writeAsleep src n i | readAcquire n room | readAsleep n room =>
    rw [hpc] at hp
    cases hp
  | writeDone i | readDone n i | fail => exact ⟨_, rfl⟩
  | readTest n room =>
    simp only
    split_ifs <;> exact ⟨_, rfl⟩
  | readCopy n room i =>
    simp only
    split_ifs <;> exact ⟨_, rfl⟩
  | writeLoop src n i =>
    simp only
    split_ifs
    · exact ⟨_, rfl⟩
    · exact ⟨_, rfl⟩
    · cases src[i]? <;> exact ⟨_, rfl⟩
    · exact ⟨_, rfl⟩

/-- Without the lock, a process that cannot go on makes no call or sleeps. -/
theorem stuck_sleeps (hs : s.lock = none) (p : P) (hidle : s.pc p ≠ .idle)
    (hp : (s.pc p).locked = false) (hstuck : advance s p = none) :
    ∃ chan, (s.pc p).sleeps chan := by
  unfold advance at hstuck
  cases hpc : s.pc p with
  | idle => exact absurd hpc hidle
  | writeAsleep src n i => exact ⟨.nwrite, trivial⟩
  | readAsleep n room => exact ⟨.nread, trivial⟩
  | writeAcquire src n i | readAcquire n room =>
    simp only [hpc, State.acquire, hs, if_true] at hstuck
    cases hstuck
  | _ =>
    rw [hpc] at hp
    cases hp

end Steps

section Runs

theorem full_ne_empty (c : UInt32) : c ≠ c + PIPESIZE.toUInt32 := by
  intro h
  have hnat := congrArg UInt32.toNat h
  have hsize : PIPESIZE.toUInt32.toNat = 512 := rfl
  rw [UInt32.toNat_add, hsize] at hnat
  have hlt := c.toNat_lt
  omega

variable [DecidableEq P]

/-- What the sleepers wait for is still to come. -/
structure NoneMissed (s : State P) : Prop where
  reader : ∀ r n room, s.pc r = .readAsleep n room → s.nread = s.nwrite ∧ s.writeopen = true
  writer : ∀ w src n i, s.pc w = .writeAsleep src n i →
    s.nwrite = s.nread + PIPESIZE.toUInt32 ∧ s.readopen = true

/-- In a run that kills no writer between two of its bytes: while the lock is free, a reader
sleeps only when the pipe is empty and can still be written, a writer only when it is full and
can still be read. When no process in a call can go on, all of them are such readers, or all of
them are such writers. -/
theorem no_wakeup_lost (junk : Nat → UInt8) (killed : P → Bool) (es : List (Event P))
    (s : State P) (hg : Guarded step KillsOutside (pipealloc junk killed) es)
    (hrun : run step (pipealloc junk killed) es = some s) :
    (s.lock = none → NoneMissed s) ∧
    ((∀ p, advance s p = none) → NoneMissed s ∧
      ((∀ p, s.pc p = .idle ∨ ∃ n room, s.pc p = .readAsleep n room) ∨
        ∀ p, s.pc p = .idle ∨ ∃ src n i, s.pc p = .writeAsleep src n i)) := by
  have h : Awake s := guarded_run_invariant step KillsOutside Awake
    step_awake _ _ es
    (pipealloc_awake junk killed) hg hrun
  -- a sleeper that has been missed needs a call with the lock to come
  have hmissed (hs : s.lock = none) : NoneMissed s := by
    refine ⟨?_, ?_⟩
    · intro r n room hr
      rcases h.sleep .nread r (by rw [hr]; trivial) with hw | ⟨p, hp, -⟩
      · exact hw
      · rw [hs] at hp
        cases hp
    · intro w src n i hw
      rcases h.sleep .nwrite w (by rw [hw]; trivial) with hw | ⟨p, hp, -⟩
      · exact hw
      · rw [hs] at hp
        cases hp
  refine ⟨hmissed, ?_⟩
  intro hstuck
  have hs : s.lock = none := by
    cases hl : s.lock with
    | none => rfl
    | some p =>
      obtain ⟨t, ht⟩ := locked_advances (h.held p hl)
      rw [hstuck p] at ht
      cases ht
  -- no step and the lock is free: a call that is not over is asleep
  have hwhere (p : P) (hidle : s.pc p ≠ .idle) : (∃ n room, s.pc p = .readAsleep n room) ∨
      ∃ src n i, s.pc p = .writeAsleep src n i := by
    have hfree : (s.pc p).locked = false := by
      by_contra hl
      have hlp := h.owner p (by simpa using hl)
      rw [hs] at hlp
      cases hlp
    obtain ⟨chan, hc⟩ := stuck_sleeps hs p hidle hfree (hstuck p)
    cases hpc : s.pc p with
    | readAsleep n room => exact Or.inl ⟨n, room, rfl⟩
    | writeAsleep src n i => exact Or.inr ⟨src, n, i, rfl⟩
    | _ =>
      rw [hpc] at hc
      exact hc.elim
  have hm := hmissed hs
  refine ⟨hm, ?_⟩
  by_cases hreader : ∃ r n room, s.pc r = .readAsleep n room
  · obtain ⟨r, n, room, hr⟩ := hreader
    refine Or.inl ?_
    intro p
    by_cases hidle : s.pc p = .idle
    · exact Or.inl hidle
    · rcases hwhere p hidle with hp | ⟨src, k, i, hp⟩
      · exact Or.inr hp
      · -- the pipe would be both empty and full
        have hempty := (hm.reader r n room hr).1
        have hfull := (hm.writer p src k i hp).1
        rw [hempty] at hfull
        exact absurd hfull (full_ne_empty _)
  · refine Or.inr ?_
    intro p
    by_cases hidle : s.pc p = .idle
    · exact Or.inl hidle
    · rcases hwhere p hidle with ⟨n, room, hp⟩ | hp
      · exact absurd ⟨p, n, room, hp⟩ hreader
      · exact Or.inr hp

/-- Process 1 sleeps on the empty pipe; process 0 writes a byte, wakes it and returns. -/
def sleepThenWrite : List (Event (Fin 2)) :=
  [.piperead 1 4 4, .advance 1, .advance 1, .pipewrite 0 [7] 1, .advance 0, .advance 0, .advance 0,
    .advance 0]

theorem no_wakeup_lost_sleepThenWrite :
    ∃ s, run step (pipealloc (fun _ => 5) (fun _ => false)) sleepThenWrite = some s ∧
      s.nread ≠ s.nwrite ∧ s.lock = none ∧ NoneMissed s := by
  have hrun : (run step (pipealloc (fun _ => 5) (fun _ => false)) sleepThenWrite).map
      (fun s => (s.nread, s.nwrite, s.lock)) = some (0, 1, none) := by decide
  obtain ⟨s, hs, hend⟩ := Option.map_eq_some_iff.mp hrun
  obtain ⟨hread, hend⟩ := Prod.mk.inj hend
  obtain ⟨hwrite, hlock⟩ := Prod.mk.inj hend
  refine ⟨s, hs, by rw [hread, hwrite]; decide, hlock, ?_⟩
  exact (no_wakeup_lost (fun _ => 5) (fun _ => false) sleepThenWrite s (by decide) hs).1 hlock

/-- Process 1 sleeps; process 0 puts a byte into the pipe, is killed, and returns -1 without the
wakeup: process 1 sleeps on beside a byte that it could read. -/
theorem killed_writer_strands_reader :
    ∃ s, run step (pipealloc (fun _ => 5) (fun _ => false))
      [.piperead (1 : Fin 2) 4 4, .advance 1, .advance 1, .pipewrite 0 [7, 8] 2, .advance 0,
        .advance 0, .kill 0, .advance 0, .advance 0] = some s ∧ s.lock = none ∧ ¬NoneMissed s := by
  have hrun : (run step (pipealloc (fun _ => 5) (fun _ => false))
      [.piperead (1 : Fin 2) 4 4, .advance 1, .advance 1, .pipewrite 0 [7, 8] 2, .advance 0,
        .advance 0, .kill 0, .advance 0, .advance 0]).map
      (fun s => (s.pc 1, s.nread, s.nwrite, s.lock)) = some (.readAsleep 4 4, 0, 1, none) := by
    decide
  obtain ⟨s, hs, hend⟩ := Option.map_eq_some_iff.mp hrun
  obtain ⟨hpc, hend⟩ := Prod.mk.inj hend
  obtain ⟨hread, hend⟩ := Prod.mk.inj hend
  obtain ⟨hwrite, hlock⟩ := Prod.mk.inj hend
  refine ⟨s, hs, hlock, ?_⟩
  intro hm
  have hempty := (hm.reader 1 4 4 hpc).1
  rw [hread, hwrite] at hempty
  cases hempty

end Runs

end Xv6Labs.Pipe
