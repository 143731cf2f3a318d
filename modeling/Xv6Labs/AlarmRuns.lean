import Xv6Labs.Runs
import Xv6Labs.AlarmCode
import Mathlib.Logic.Function.Basic

/-! What a program sees of its alarms: the state it is resumed in after a handler, and the ticks
at which handlers are entered. -/
namespace Xv6Labs.Alarm

variable {table : List (Option Sys)} {m m' : Machine} {e : Event}

section Entering

/-- The alarm branch of usertrap is taken at a timer interrupt. -/
def Enters (p : Proc) : Prop :=
  p.alarmInterval ≠ 0 ∧ p.isHandler = 0 ∧ p.alarmTicks = p.alarmInterval

instance (p : Proc) : Decidable (Enters p) := inferInstanceAs (Decidable (_ ∧ _))

theorem alarmTick_enters {p : Proc} (h : Enters p) : alarmTick p = { p with
    isHandler := 1
    saveTrapframe := p.trapframe
    alarmTicks := 0
    trapframe := { p.trapframe with epc := p.alarmHandler } } := by
  unfold alarmTick
  rw [if_pos ⟨h.1, h.2.1⟩, if_pos h.2.2]

/-- Without an entry at most the counter changes. -/
theorem alarmTick_stays {p : Proc} (h : ¬Enters p) :
    ∃ x, alarmTick p = { p with alarmTicks := x } := by
  unfold alarmTick
  by_cases hon : p.alarmInterval ≠ 0 ∧ p.isHandler = 0
  · have hne : p.alarmTicks ≠ p.alarmInterval := fun heq => h ⟨hon.1, hon.2, heq⟩
    rw [if_pos hon, if_neg hne]
    exact ⟨_, rfl⟩
  · rw [if_neg hon]
    exact ⟨p.alarmTicks, rfl⟩

/-- The process as usertrap finds it. -/
def trapped (m : Machine) : Proc :=
  { m.proc with trapframe := { m.proc.trapframe with regs := m.user.regs, epc := m.user.pc } }

/-- How a process goes back to user space. -/
def resumed (p : Proc) (k : KernelRegs) : Machine :=
  ⟨{ p with trapframe := { p.trapframe with kernel := k } }, ⟨p.trapframe.epc, p.trapframe.regs⟩⟩

theorem step_trap (table : List (Option Sys)) (m : Machine) (cause : Cause) (k : KernelRegs) :
    step table m (.trap cause k) = (if m.proc.killed then none
      else match cause with
        | .ecall ret => some (syscall table ((trapped m).setEpc (m.user.pc + 4)) ret)
        | .device => some (trapped m)
        | .timer => some (alarmTick (trapped m))
        | .unexpected => none).map (fun p => resumed p k) := rfl

theorem step_timer {k : KernelRegs} (h : step table m (.trap .timer k) = some m') :
    m.proc.killed = false ∧ m' = resumed (alarmTick (trapped m)) k := by
  rw [step_trap] at h
  cases hk : m.proc.killed with
  | true =>
    rw [hk] at h
    cases h
  | false =>
    rw [hk] at h
    cases h
    exact ⟨rfl, rfl⟩

theorem step_ecall {k : KernelRegs} {ret : UInt64}
    (h : step table m (.trap (.ecall ret) k) = some m') :
    m' = resumed (syscall table ((trapped m).setEpc (m.user.pc + 4)) ret) k := by
  rw [step_trap] at h
  cases hk : m.proc.killed with
  | true =>
    rw [hk] at h
    cases h
  | false =>
    rw [hk] at h
    cases h
    rfl

/-- The system call that an ecall of the program makes. -/
def called (table : List (Option Sys)) (m : Machine) : Option Sys :=
  lookup table (m.user.regs .a7)

/-- A system call other than the two for alarms leaves the alarm of the process. -/
theorem syscall_other (ret : UInt64) (ha : called table m ≠ some .sigalarm)
    (hr : called table m ≠ some .sigreturn) :
    ∃ tf, syscall table ((trapped m).setEpc (m.user.pc + 4)) ret =
      { m.proc with trapframe := tf } := by
  have hcall : lookup table (((trapped m).setEpc (m.user.pc + 4)).trapframe.regs .a7) =
      called table m := rfl
  unfold syscall
  rw [hcall]
  match hc : called table m with
  | some .sigalarm => exact absurd hc ha
  | some .sigreturn => exact absurd hc hr
  | some .other => exact ⟨_, rfl⟩
  | none => exact ⟨_, rfl⟩

end Entering

section Transparency

/-- What happens in a handler: anything but the two system calls for alarms. -/
def Inside (table : List (Option Sys)) (m : Machine) : Event → Prop
  | .trap (.ecall _) _ => called table m ≠ some .sigalarm ∧ called table m ≠ some .sigreturn
  | _ => True

instance (table : List (Option Sys)) (m : Machine) (e : Event) : Decidable (Inside table m e) := by
  unfold Inside
  split <;> infer_instance

/-- In a handler the saved frame stays. -/
theorem inside_step {tf : Trapframe} (h : m.proc.isHandler = 1 ∧ m.proc.saveTrapframe = tf)
    (hin : Inside table m e) (hstep : step table m e = some m') :
    m'.proc.isHandler = 1 ∧ m'.proc.saveTrapframe = tf := by
  match e with
  | .compute u =>
    cases hstep
    exact h
  | .kill =>
    cases hstep
    exact h
  | .trap .timer k =>
    obtain ⟨-, rfl⟩ := step_timer hstep
    have hno : ¬Enters (trapped m) := by
      intro hen
      have hzero : m.proc.isHandler = 0 := hen.2.1
      rw [h.1] at hzero
      exact absurd hzero (by decide)
    obtain ⟨x, hx⟩ := alarmTick_stays hno
    rw [hx]
    exact h
  | .trap (.ecall ret) k =>
    obtain ⟨tf', htf⟩ := syscall_other ret hin.1 hin.2
    rw [step_ecall hstep, htf]
    exact h
  | .trap .device k =>
    rw [step_trap] at hstep
    split at hstep
    · cases hstep
    · cases hstep
      exact h
  | .trap .unexpected k =>
    rw [step_trap] at hstep
    split at hstep <;> cases hstep

/-- After sigreturn the interrupted program has its pc and all registers back but `a0`, which is
zero; so it goes on as it was exactly when `a0` was zero. -/
theorem alarm_transparent_iff (table : List (Option Sys)) (m₀ m₁ m₂ m₃ : Machine)
    (k k' : KernelRegs) (ret : UInt64) (es : List Event) (henter : Enters m₀.proc)
    (hentry : step table m₀ (.trap .timer k) = some m₁)
    (hin : Guarded (step table) (Inside table) m₁ es)
    (hrun : run (step table) m₁ es = some m₂)
    (hcall : called table m₂ = some .sigreturn)
    (hreturn : step table m₂ (.trap (.ecall ret) k') = some m₃) :
    (m₃.user.pc = m₀.user.pc ∧ ∀ r, r ≠ .a0 → m₃.user.regs r = m₀.user.regs r) ∧
    (m₃.user = m₀.user ↔ m₀.user.regs .a0 = 0) := by
  obtain ⟨-, rfl⟩ := step_timer hentry
  have hstart : (resumed (alarmTick (trapped m₀)) k).proc.isHandler = 1 ∧
      (resumed (alarmTick (trapped m₀)) k).proc.saveTrapframe = (trapped m₀).trapframe := by
    rw [alarmTick_enters (p := trapped m₀) henter]
    exact ⟨rfl, rfl⟩
  have hsave := guarded_run_invariant (step table) (Inside table)
    (fun m => m.proc.isHandler = 1 ∧ m.proc.saveTrapframe = (trapped m₀).trapframe)
    (fun m e m' h hg hs => inside_step h hg hs) _ m₂ es hstart hin hrun
  have hsys : syscall table ((trapped m₂).setEpc (m₂.user.pc + 4)) ret =
      (sysSigreturn ((trapped m₂).setEpc (m₂.user.pc + 4))).1.setReg .a0 0 := by
    have hlook : lookup table (((trapped m₂).setEpc (m₂.user.pc + 4)).trapframe.regs .a7) =
      some .sigreturn := hcall
    unfold syscall
    rw [hlook]
    rfl
  have huser : m₃.user = ⟨m₀.user.pc, Function.update m₀.user.regs .a0 0⟩ := by
    have hframe : (sysSigreturn ((trapped m₂).setEpc (m₂.user.pc + 4))).1.trapframe =
        (trapped m₀).trapframe := hsave.2
    rw [step_ecall hreturn, hsys]
    simp only [resumed, Proc.setReg, hframe]
    rfl
  refine ⟨⟨?_, ?_⟩, ?_⟩
  · rw [huser]
  · intro r hr
    rw [huser]
    exact Function.update_of_ne hr _ _
  · rw [huser]
    constructor
    · intro heq
      have hregs : Function.update m₀.user.regs .a0 0 = m₀.user.regs := congrArg User.regs heq
      rw [← hregs]
      exact Function.update_self _ _ _
    · intro hzero
      rw [← hzero, Function.update_eq_self]

def noRegs : KernelRegs := ⟨0, 0, 0, 0⟩

/-- System call 2 is sigalarm and 3 is sigreturn. -/
def alarmTable : List (Option Sys) := [none, some .other, some .sigalarm, some .sigreturn]

/-- A program at 0x40 with `a0` as given, when its alarm with the handler 0x80 is due. -/
def dueMachine (a0 : UInt64) : Machine :=
  ⟨⟨⟨noRegs, 0, fun _ => 0⟩, ⟨noRegs, 0, fun _ => 0⟩, 2, 0x80, 2, 0, false⟩,
    ⟨0x40, fun r => if r = .a0 then a0 else 7⟩⟩

/-- The handler computes, is interrupted and calls sigreturn. -/
def handlerEvents : List Event :=
  [.compute ⟨0x84, fun _ => 9⟩, .trap .timer noRegs, .trap .timer noRegs,
    .compute ⟨0x88, fun r => if r = .a7 then 3 else 1⟩]

theorem alarm_transparent_iff_dueMachine : ∃ m₁ m₂ m₃ : Machine,
    step alarmTable (dueMachine 0) (.trap .timer noRegs) = some m₁ ∧ m₁.user.pc = 0x80 ∧
    run (step alarmTable) m₁ handlerEvents = some m₂ ∧
    step alarmTable m₂ (.trap (.ecall 0) noRegs) = some m₃ ∧ m₃.user = (dueMachine 0).user := by
  obtain ⟨m₁, h₁⟩ : ∃ m, step alarmTable (dueMachine 0) (.trap .timer noRegs) = some m := ⟨_, rfl⟩
  have hpc : m₁.user.pc = 0x80 := by
    cases h₁
    rfl
  obtain ⟨m₂, h₂⟩ : ∃ m, run (step alarmTable) m₁ handlerEvents = some m := by
    cases h₁
    exact ⟨_, rfl⟩
  have hin : Guarded (step alarmTable) (Inside alarmTable) m₁ handlerEvents := by
    cases h₁
    decide
  obtain ⟨m₃, h₃⟩ : ∃ m, step alarmTable m₂ (.trap (.ecall 0) noRegs) = some m := by
    cases h₁
    cases h₂
    exact ⟨_, rfl⟩
  have hcall : called alarmTable m₂ = some .sigreturn := by
    cases h₁
    cases h₂
    decide
  exact ⟨m₁, m₂, m₃, h₁, hpc, h₂, h₃, (alarm_transparent_iff alarmTable (dueMachine 0) m₁ m₂ m₃
    noRegs noRegs 0 handlerEvents (by decide) h₁ hin h₂ hcall h₃).2.mpr rfl⟩

/-- A program that is interrupted with 5 in `a0` goes on with 0 in it. -/
theorem alarm_clobbers_a0 : ∃ m₁ m₂ m₃ : Machine,
    step alarmTable (dueMachine 5) (.trap .timer noRegs) = some m₁ ∧ m₁.user.pc = 0x80 ∧
    run (step alarmTable) m₁ handlerEvents = some m₂ ∧
    step alarmTable m₂ (.trap (.ecall 0) noRegs) = some m₃ ∧
    (dueMachine 5).user.regs .a0 = 5 ∧ m₃.user.regs .a0 = 0 :=
  ⟨_, _, _, rfl, rfl, rfl, rfl, rfl, rfl⟩

end Transparency

section Schedule

/-- What an event is to the alarm of the process. The interval is what alarm_interval is set to. -/
inductive Input where
  | tick
  | sigalarm (interval handler : UInt64)
  | sigreturn
  | other
  deriving DecidableEq

def input (table : List (Option Sys)) (u : User) : Event → Input
  | .trap .timer _ => .tick
  | .trap (.ecall _) _ =>
    match lookup table (u.regs .a7) with
    | some .sigalarm => .sigalarm (uint64 (toInt32 (u.regs .a0))) (u.regs .a1)
    | some .sigreturn => .sigreturn
    | _ => .other
  | _ => .other

/-- What is known of the process from its calls and entries: the arguments of the last sigalarm,
whether a handler has been entered that has not called sigreturn, and the timer interrupts outside
handlers since the later of the arming call and the last entry. -/
structure Watch where
  interval : UInt64
  handler : UInt64
  inHandler : Bool
  since : Nat
  deriving DecidableEq

/-- The watch after an input; `entered` tells whether a tick has led to a handler. -/
def Watch.next (w : Watch) (entered : Bool) : Input → Watch
  | .tick =>
    if entered then { w with inHandler := true, since := 0 }
    else if w.inHandler then w
    else { w with since := w.since + 1 }
  | .sigalarm n h => { w with interval := n, handler := h, since := 0 }
  | .sigreturn => { w with inHandler := false }
  | .other => w

/-- A timer interrupt is on schedule: a handler is entered when it is the n-th outside handlers,
and only then; none is entered in a handler or when the alarm is off; and what is entered is the
handler that was asked for, with the registers as they were. -/
structure OnSchedule (m m' : Machine) (w : Watch) : Prop where
  due : w.interval ≠ 0 → w.inHandler = false →
    (Enters m.proc ↔ w.since + 1 = w.interval.toNat)
  nested : w.inHandler = true → ¬Enters m.proc
  off : w.interval = 0 → ¬Enters m.proc
  entry : Enters m.proc → m'.user = ⟨w.handler, m.user.regs⟩
  stay : ¬Enters m.proc → m'.user = m.user

/-- The schedule as it should be, kept from the inputs alone. `rearmed` tells whether the process
has called sigalarm since the last entry, and `before` how many ticks it has had since then, with
its alarm on, before the last sigalarm or, after it, in the handler. -/
structure Plan extends Watch where
  rearmed : Bool
  before : Nat
  deriving DecidableEq

/-- The next tick is the n-th. -/
def Plan.due (g : Plan) : Bool := !g.inHandler && decide (g.since + 1 = g.interval.toNat)

def Plan.next (g : Plan) : Input → Plan
  | .tick =>
    if g.due then ⟨g.toWatch.next true .tick, false, 0⟩
    else if g.interval ≠ 0 ∧ g.inHandler ∧ g.rearmed then
      ⟨g.toWatch.next false .tick, true, g.before + 1⟩
    else ⟨g.toWatch.next false .tick, g.rearmed, g.before⟩
  | .sigalarm n h => ⟨g.toWatch.next false (.sigalarm n h), true,
      if g.interval ≠ 0 then g.before + g.since else g.before⟩
  | i => ⟨g.toWatch.next false i, g.rearmed, g.before⟩

/-- A tick comes in time. Outside handlers: exactly one tick has gone before the alarm was set, or
this is not the n-th tick since, with or without those that have gone before. In a handler that has
set the alarm: the ticks since then are not n. -/
def Plan.InTime (g : Plan) : Prop :=
  g.interval ≠ 0 →
    (g.inHandler = false → g.before % 2^64 = 1 ∨
      (g.since + 1 ≠ g.interval.toNat ∧ (g.before + g.since) % 2^64 ≠ g.interval.toNat)) ∧
    (g.inHandler = true → g.rearmed = true → g.before % 2^64 ≠ g.interval.toNat)

instance (g : Plan) : Decidable g.InTime := inferInstanceAs (Decidable (_ → _))

structure Watched where
  machine : Machine
  watch : Watch
  plan : Plan

/-- A step of the machine. The watch follows what it does, the plan the inputs. -/
def watchStep (table : List (Option Sys)) (x : Watched) (e : Event) : Option Watched :=
  (step table x.machine e).map (fun m =>
    let i := input table x.machine.user e
    ⟨m, x.watch.next (decide (Enters x.machine.proc)) i, x.plan.next i⟩)

/-- Every event is a timer interrupt on schedule or something else. -/
def Punctual (table : List (Option Sys)) (x : Watched) : Event → Prop
  | .trap .timer k =>
    ∀ m', step table x.machine (.trap .timer k) = some m' → OnSchedule x.machine m' x.watch
  | _ => True

/-- Every event is a tick that comes in time or something else. -/
def Timely (x : Watched) : Event → Prop
  | .trap .timer _ => x.machine.proc.killed = false → x.plan.InTime
  | _ => True

instance (x : Watched) (e : Event) : Decidable (Timely x e) := by
  unfold Timely
  split <;> infer_instance

/-- As long as all ticks are on schedule the plan says what has happened, the counter of the
process is the one of the plan, and the alarm is not late. -/
structure InStep (x : Watched) : Prop where
  watch : x.plan.toWatch = x.watch
  interval : x.machine.proc.alarmInterval = x.watch.interval
  handler : x.machine.proc.alarmHandler = x.watch.handler
  flag : x.watch.interval ≠ 0 →
    (x.machine.proc.isHandler = 0 ↔ x.watch.inHandler = false ∨ x.plan.rearmed = true)
  ticks : x.machine.proc.alarmTicks.toNat =
    (x.plan.before + if x.watch.interval ≠ 0 then x.watch.since else 0) % 2^64
  idle : x.watch.inHandler = true → x.watch.since = 0
  early : x.watch.interval ≠ 0 → x.watch.since < x.watch.interval.toNat

variable {x y : Watched}

theorem pos_of_ne_zero {n : UInt64} (h : n ≠ 0) : 0 < n.toNat := by
  by_contra hz
  exact h (UInt64.toNat_inj.mp (by change n.toNat = 0; omega))

theorem InStep.due_iff (h : InStep x) : x.plan.due = true ↔
    x.watch.inHandler = false ∧ x.watch.since + 1 = x.watch.interval.toNat := by
  unfold Plan.due
  rw [h.watch, Bool.and_eq_true, Bool.not_eq_true', decide_eq_true_eq]

/-- When the code enters a handler, by the counts of the plan. -/
theorem InStep.enters_iff (h : InStep x) : Enters x.machine.proc ↔
    x.watch.interval ≠ 0 ∧ (x.watch.inHandler = false ∨ x.plan.rearmed = true) ∧
      (x.plan.before + x.watch.since) % 2^64 = x.watch.interval.toNat := by
  have hticks := h.ticks
  unfold Enters
  rw [h.interval]
  constructor
  · rintro ⟨hon, hflag, heq⟩
    rw [if_pos hon] at hticks
    refine ⟨hon, (h.flag hon).mp hflag, ?_⟩
    rw [← hticks, heq]
  · rintro ⟨hon, hflag, heq⟩
    rw [if_pos hon] at hticks
    exact ⟨hon, (h.flag hon).mpr hflag, UInt64.toNat_inj.mp (hticks.trans heq)⟩

/-- The code and the plan agree on a tick exactly when it comes in time. -/
theorem InStep.agrees_iff (h : InStep x) :
    (Enters x.machine.proc ↔ x.plan.due = true) ↔ x.plan.InTime := by
  have hlt := x.watch.interval.toNat_lt
  rw [h.enters_iff, h.due_iff]
  unfold Plan.InTime
  rw [h.watch]
  by_cases hon : x.watch.interval = 0
  · have hzero : x.watch.interval.toNat = 0 := by
      rw [hon]
      rfl
    constructor
    · exact fun _ hne => absurd hon hne
    · exact fun _ => ⟨fun hen => absurd hon hen.1, fun hdue => by omega⟩
  · have hpos := pos_of_ne_zero hon
    have hearly := h.early hon
    cases hin : x.watch.inHandler with
    | false =>
      simp only [ne_eq, hon, not_false_eq_true, true_and, true_or, forall_const,
        Bool.false_eq_true, false_implies, and_true]
      constructor
      · intro hiff
        by_cases hdue : x.watch.since + 1 = x.watch.interval.toNat
        · have hcount := hiff.mpr hdue
          left
          omega
        · exact Or.inr ⟨hdue, fun hcount => hdue (hiff.mp hcount)⟩
      · rintro (hone | ⟨hdue, hcount⟩)
        · constructor <;> intro _ <;> omega
        · exact ⟨fun heq => absurd heq hcount, fun heq => absurd heq hdue⟩
    | true =>
      have hidle := h.idle hin
      simp only [ne_eq, hon, not_false_eq_true, true_and, Bool.true_eq_false, false_or,
        false_and, iff_false, forall_const, false_implies, hidle, Nat.add_zero, not_and]

/-- A tick is on schedule exactly when the code and the plan agree on it. -/
theorem InStep.onSchedule_iff (h : InStep x) (k : KernelRegs) :
    OnSchedule x.machine (resumed (alarmTick (trapped x.machine)) k) x.watch ↔
      (Enters x.machine.proc ↔ x.plan.due = true) := by
  rw [h.due_iff]
  constructor
  · intro hs
    by_cases hon : x.watch.interval = 0
    · have hzero : x.watch.interval.toNat = 0 := by
        rw [hon]
        rfl
      exact ⟨fun hen => absurd hen (hs.off hon), fun hdue => by omega⟩
    · cases hin : x.watch.inHandler with
      | false =>
        rw [hs.due hon hin]
        exact ⟨fun hdue => ⟨rfl, hdue⟩, fun hdue => hdue.2⟩
      | true =>
        exact ⟨fun hen => absurd hen (hs.nested hin), fun hdue => (by cases hdue.1)⟩
  · intro hiff
    refine ⟨?_, ?_, ?_, ?_, ?_⟩
    · intro _ hin
      rw [hiff]
      exact ⟨fun hdue => hdue.2, fun hdue => ⟨hin, hdue⟩⟩
    · intro hin hen
      rw [hiff, hin] at hen
      cases hen.1
    · intro hoff hen
      exact hen.1 (h.interval.trans hoff)
    · intro hen
      rw [alarmTick_enters (p := trapped x.machine) hen, ← h.handler]
      rfl
    · intro hen
      obtain ⟨c, hc⟩ := alarmTick_stays (p := trapped x.machine) hen
      rw [hc]
      rfl

theorem punctual_iff (h : InStep x) (e : Event) : Punctual table x e ↔ Timely x e := by
  match e with
  | .compute u => exact Iff.rfl
  | .kill => exact Iff.rfl
  | .trap .device k => exact Iff.rfl
  | .trap .unexpected k => exact Iff.rfl
  | .trap (.ecall ret) k => exact Iff.rfl
  | .trap .timer k =>
    constructor
    · intro hp hk
      have hgo : step table x.machine (.trap .timer k) =
          some (resumed (alarmTick (trapped x.machine)) k) := by
        rw [step_trap, hk]
        rfl
      exact h.agrees_iff.mp ((h.onSchedule_iff k).mp (hp _ hgo))
    · intro ht m' hm
      obtain ⟨hk, rfl⟩ := step_timer hm
      exact (h.onSchedule_iff k).mpr (h.agrees_iff.mpr (ht hk))

/-- A tick that does not enter a handler counts when an alarm is set and no handler runs, or the
handler has set it again. -/
theorem InStep.tick_counts (h : InStep x) (hen : ¬Enters x.machine.proc) :
    (alarmTick (trapped x.machine)).alarmTicks.toNat = (x.machine.proc.alarmTicks.toNat +
      if x.watch.interval ≠ 0 ∧ (x.watch.inHandler = false ∨ x.plan.rearmed = true) then 1
      else 0) % 2^64 := by
  by_cases hon : x.watch.interval ≠ 0 ∧ (x.watch.inHandler = false ∨ x.plan.rearmed = true)
  · have hcond : (trapped x.machine).alarmInterval ≠ 0 ∧ (trapped x.machine).isHandler = 0 :=
      ⟨fun hz => hon.1 (h.interval.symm.trans hz), (h.flag hon.1).mpr hon.2⟩
    have hne : (trapped x.machine).alarmTicks ≠ (trapped x.machine).alarmInterval :=
      fun heq => hen ⟨hcond.1, hcond.2, heq⟩
    unfold alarmTick
    rw [if_pos hcond, if_neg hne, if_pos hon]
    exact UInt64.toNat_add _ _
  · have hcond : ¬((trapped x.machine).alarmInterval ≠ 0 ∧ (trapped x.machine).isHandler = 0) := by
      rintro ⟨hint, hfree⟩
      have hint' : x.watch.interval ≠ 0 := fun hz => hint (h.interval.trans hz)
      exact hon ⟨hint', (h.flag hint').mp hfree⟩
    unfold alarmTick
    rw [if_neg hcond, if_neg hon, Nat.add_zero, Nat.mod_eq_of_lt (UInt64.toNat_lt _)]
    rfl

/-- Such a tick leaves the alarm and the flag as they are. -/
theorem InStep.tick_keeps (h : InStep x) (hen : ¬Enters x.machine.proc) :
    (alarmTick (trapped x.machine)).alarmInterval = x.watch.interval ∧
      (alarmTick (trapped x.machine)).alarmHandler = x.watch.handler ∧
      (x.watch.interval ≠ 0 → ((alarmTick (trapped x.machine)).isHandler = 0 ↔
        x.watch.inHandler = false ∨ x.plan.rearmed = true)) := by
  obtain ⟨c, hc⟩ := alarmTick_stays (p := trapped x.machine) hen
  rw [hc]
  exact ⟨h.interval, h.handler, h.flag⟩

theorem InStep.tick_enters (h : InStep x) (hen : Enters x.machine.proc)
    (hdue : x.plan.due = true) (k : KernelRegs) :
    InStep ⟨resumed (alarmTick (trapped x.machine)) k, x.watch.next true .tick,
      x.plan.next .tick⟩ := by
  rw [alarmTick_enters (p := trapped x.machine) hen]
  unfold Plan.next
  dsimp only
  rw [if_pos hdue]
  refine ⟨congrArg (·.next true .tick) h.watch, h.interval, h.handler, ?_, ?_, fun _ => rfl,
    pos_of_ne_zero⟩
  · intro _
    simp [Watch.next, resumed]
  · simp [Watch.next, resumed]

/-- Outside handlers the ticks since the last entry are one more. -/
theorem InStep.tick_outside (h : InStep x) (hen : ¬Enters x.machine.proc)
    (hdue : x.plan.due = false) (hin : x.watch.inHandler = false) (k : KernelRegs) :
    InStep ⟨resumed (alarmTick (trapped x.machine)) k, x.watch.next false .tick,
      x.plan.next .tick⟩ := by
  have hcounts := h.tick_counts hen
  obtain ⟨hinterval, hhandler, hflag⟩ := h.tick_keeps hen
  have hnotdue := mt h.due_iff.mpr (by rw [hdue]; exact Bool.false_ne_true)
  have hwatch : x.watch.next false .tick = { x.watch with since := x.watch.since + 1 } := by
    simp [Watch.next, hin]
  have hplan : ¬(x.plan.interval ≠ 0 ∧ x.plan.inHandler ∧ x.plan.rearmed) := by
    rw [h.watch, hin]
    rintro ⟨-, hb, -⟩
    cases hb
  have hnext : x.plan.next .tick =
      ⟨{ x.watch with since := x.watch.since + 1 }, x.plan.rearmed, x.plan.before⟩ := by
    unfold Plan.next
    dsimp only
    rw [if_neg (by rw [hdue]; exact Bool.false_ne_true), if_neg hplan, h.watch, hwatch]
  rw [hnext, hwatch]
  refine ⟨rfl, hinterval, hhandler, hflag, ?_, ?_, ?_⟩
  · refine hcounts.trans ?_
    rw [h.ticks]
    by_cases hon : x.watch.interval ≠ 0
    · simp only [if_pos hon, if_pos (And.intro hon (Or.inl hin))]
      omega
    · simp only [if_neg hon, if_neg (fun hh => hon (And.left hh))]
      omega
  · intro hin'
    exact absurd (hin.symm.trans hin') Bool.false_ne_true
  · intro hon
    have hearly := h.early hon
    have hlate : x.watch.since + 1 ≠ x.watch.interval.toNat := fun heq => hnotdue ⟨hin, heq⟩
    change x.watch.since + 1 < x.watch.interval.toNat
    omega

/-- In a handler only an alarm that it has set counts, and the count is of ticks before it. -/
theorem InStep.tick_inHandler (h : InStep x) (hen : ¬Enters x.machine.proc)
    (hdue : x.plan.due = false) (hin : x.watch.inHandler = true) (k : KernelRegs) :
    InStep ⟨resumed (alarmTick (trapped x.machine)) k, x.watch.next false .tick,
      x.plan.next .tick⟩ := by
  have hcounts := h.tick_counts hen
  obtain ⟨hinterval, hhandler, hflag⟩ := h.tick_keeps hen
  have hticks := h.ticks
  have hsince := h.idle hin
  have hwatch : x.watch.next false .tick = x.watch := by simp [Watch.next, hin]
  have hnext : x.plan.next .tick =
      if x.watch.interval ≠ 0 ∧ x.watch.inHandler ∧ x.plan.rearmed then
        ⟨x.watch, true, x.plan.before + 1⟩
      else ⟨x.watch, x.plan.rearmed, x.plan.before⟩ := by
    unfold Plan.next
    dsimp only
    rw [if_neg (by rw [hdue]; exact Bool.false_ne_true), h.watch, hwatch]
  rw [hnext, hwatch]
  by_cases hcount : x.watch.interval ≠ 0 ∧ x.plan.rearmed = true
  · rw [if_pos ⟨hcount.1, hin, hcount.2⟩]
    rw [hcount.2] at hflag
    refine ⟨rfl, hinterval, hhandler, hflag, ?_, h.idle, h.early⟩
    refine hcounts.trans ?_
    simp only [hticks, if_pos (And.intro hcount.1 (Or.inr hcount.2)), if_pos hcount.1, hsince]
    omega
  · rw [if_neg (fun hh => hcount ⟨hh.1, hh.2.2⟩)]
    refine ⟨rfl, hinterval, hhandler, hflag, ?_, h.idle, h.early⟩
    have hoff : ¬(x.watch.interval ≠ 0 ∧
        (x.watch.inHandler = false ∨ x.plan.rearmed = true)) := by
      rintro ⟨hon, hor⟩
      rw [hin] at hor
      exact hcount ⟨hon, hor.resolve_left (fun hf => by cases hf)⟩
    refine hcounts.trans ?_
    rw [if_neg hoff, Nat.add_zero, Nat.mod_eq_of_lt (UInt64.toNat_lt _)]
    exact hticks

/-- A tick on which the code and the plan agree. -/
theorem tick_inStep (h : InStep x) (hagree : Enters x.machine.proc ↔ x.plan.due = true)
    (k : KernelRegs) : InStep ⟨resumed (alarmTick (trapped x.machine)) k,
      x.watch.next (decide (Enters x.machine.proc)) .tick, x.plan.next .tick⟩ := by
  by_cases hen : Enters x.machine.proc
  · rw [decide_eq_true hen]
    exact h.tick_enters hen (hagree.mp hen) k
  · have hdue : x.plan.due = false := Bool.eq_false_iff.mpr (fun hd => hen (hagree.mpr hd))
    rw [decide_eq_false hen]
    cases hin : x.watch.inHandler with
    | true => exact h.tick_inHandler hen hdue hin k
    | false => exact h.tick_outside hen hdue hin k

/-- The counter of the process goes with the plan as long as ticks come in time. -/
theorem watchStep_inStep (h : InStep x) (ht : Timely x e) (hstep : watchStep table x e = some y) :
    InStep y := by
  obtain ⟨m', hm, rfl⟩ := Option.map_eq_some_iff.mp hstep
  obtain ⟨m, w, g⟩ := x
  obtain rfl : g.toWatch = w := h.watch
  match e with
  | .compute u =>
    cases hm
    exact ⟨rfl, h.interval, h.handler, h.flag, h.ticks, h.idle, h.early⟩
  | .kill =>
    cases hm
    exact ⟨rfl, h.interval, h.handler, h.flag, h.ticks, h.idle, h.early⟩
  | .trap .device k =>
    rw [step_trap] at hm
    split at hm
    · cases hm
    · cases hm
      exact ⟨rfl, h.interval, h.handler, h.flag, h.ticks, h.idle, h.early⟩
  | .trap .unexpected k =>
    rw [step_trap] at hm
    split at hm <;> cases hm
  | .trap .timer k =>
    obtain ⟨hk, rfl⟩ := step_timer hm
    exact tick_inStep h (h.agrees_iff.mpr (ht hk)) k
  | .trap (.ecall ret) k =>
    rw [step_ecall hm]
    have hlook : lookup table (((trapped m).setEpc (m.user.pc + 4)).trapframe.regs .a7) =
      lookup table (m.user.regs .a7) := rfl
    simp only [input]
    match hc : lookup table (m.user.regs .a7) with
    | some .sigalarm =>
      rw [hc] at hlook
      simp only [syscall, hlook]
      refine ⟨rfl, rfl, rfl, fun _ => ⟨fun _ => Or.inr rfl, fun _ => rfl⟩, ?_, fun _ => rfl,
        pos_of_ne_zero⟩
      -- the counter goes on from what the earlier alarm has counted
      change m.proc.alarmTicks.toNat = ((if g.interval ≠ 0 then g.before + g.since else g.before) +
        if uint64 (toInt32 (m.user.regs .a0)) ≠ 0 then 0 else 0) % 2^64
      rw [ite_self, Nat.add_zero]
      refine h.ticks.trans ?_
      change (g.before + if g.interval ≠ 0 then g.since else 0) % 2^64 = _
      split <;> rfl
    | some .sigreturn =>
      rw [hc] at hlook
      simp only [syscall, hlook]
      exact ⟨rfl, h.interval, h.handler, fun _ => ⟨fun _ => Or.inl rfl, fun _ => rfl⟩, h.ticks,
        fun hin => (by cases hin), h.early⟩
    | some .other =>
      rw [hc] at hlook
      simp only [syscall, hlook]
      exact ⟨rfl, h.interval, h.handler, h.flag, h.ticks, h.idle, h.early⟩
    | none =>
      rw [hc] at hlook
      simp only [syscall, hlook]
      exact ⟨rfl, h.interval, h.handler, h.flag, h.ticks, h.idle, h.early⟩

/-- A process after allocproc, before its first sigalarm. -/
def fresh (old : Proc) (u : User) : Watched :=
  ⟨⟨allocproc old, u⟩, ⟨0, 0, false, 0⟩, ⟨⟨0, 0, false, 0⟩, false, 0⟩⟩

theorem fresh_inStep (old : Proc) (u : User) : InStep (fresh old u) :=
  ⟨rfl, rfl, rfl, fun hon => absurd rfl hon, rfl, fun hin => (by cases hin),
    fun hon => absurd rfl hon⟩

/-- In every run of a process, all timer interrupts are on schedule exactly when all of them come
in time. -/
theorem alarms_punctual_iff (table : List (Option Sys)) (old : Proc) (u : User)
    (es : List Event) :
    Guarded (watchStep table) (Punctual table) (fresh old u) es ↔
      Guarded (watchStep table) Timely (fresh old u) es := by
  constructor
  · intro hp
    exact guarded_imp (watchStep table) (Punctual table) (Punctual table) Timely InStep
      (fun x e y hx hg hy => watchStep_inStep hx ((punctual_iff hx e).mp hg) hy)
      (fun x e hx _ hp => (punctual_iff hx e).mp hp) _ es (fresh_inStep old u) hp hp
  · intro hc
    exact guarded_imp (watchStep table) Timely Timely (Punctual table) InStep
      (fun x e y hx hg hy => watchStep_inStep hx hg hy)
      (fun x e hx _ hc => (punctual_iff hx e).mpr hc) _ es (fresh_inStep old u) hc hc

/-- The registers for a system call. -/
def args (num a0 a1 : UInt64) : User :=
  ⟨0x40, fun r => if r = .a7 then num else if r = .a0 then a0 else if r = .a1 then a1 else 7⟩

/-- sigalarm(5, 0x90), a tick, and before the alarm is due sigalarm(2, 0x80), whose handler is
entered two ticks later, is interrupted and returns. Another tick, and the alarm is switched
off. -/
def rearmedEvents : List Event :=
  [.compute (args 2 5 0x90), .trap (.ecall 0) noRegs, .trap .timer noRegs,
    .compute (args 2 2 0x80), .trap (.ecall 0) noRegs, .trap .timer noRegs, .trap .timer noRegs,
    .trap .timer noRegs, .compute (args 3 0 0), .trap (.ecall 0) noRegs, .trap .timer noRegs,
    .compute (args 2 0 0), .trap (.ecall 0) noRegs, .trap .timer noRegs, .trap .timer noRegs]

theorem alarms_punctual_iff_rearmed :
    Guarded (watchStep alarmTable) (Punctual alarmTable)
      (fresh (dueMachine 0).proc (dueMachine 0).user) rearmedEvents ∧
    ∃ x, run (watchStep alarmTable) (fresh (dueMachine 0).proc (dueMachine 0).user)
        (rearmedEvents.take 7) = some x ∧
      x.machine.user.pc = 0x80 ∧ x.watch.inHandler = true :=
  ⟨(alarms_punctual_iff alarmTable _ _ rearmedEvents).mpr (by decide), _, rfl, rfl, rfl⟩

/-- sigalarm(2, 0x80) and two timer interrupts. -/
def lateEvents : List Event :=
  [.compute (args 2 2 0x80), .trap (.ecall 0) noRegs, .trap .timer noRegs, .trap .timer noRegs]

/-- The handler is not entered at the second of them. -/
theorem alarm_late :
    ¬Guarded (watchStep alarmTable) (Punctual alarmTable)
      (fresh (dueMachine 0).proc (dueMachine 0).user) lateEvents := by
  intro hp
  have hrest := ((hp.2 _ rfl).2 _ rfl).2 _ rfl
  have hright := hrest.1 _ rfl
  have hen := (hright.due (by decide) rfl).mpr rfl
  exact absurd hen.2.2 (by decide)

end Schedule

end Xv6Labs.Alarm
