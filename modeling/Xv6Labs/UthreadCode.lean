import Xv6Labs.Runs
import Mathlib.Logic.Function.Basic
import Mathlib.Data.List.FinRange

/-! uthread.c and uthread_switch.S: user threads with a saved context each. The running thread
computes with its registers and calls thread_create, thread_yield and thread_schedule, the last
also after it has set its state to FREE. Memory is a map from addresses to 8-byte words. -/
namespace Xv6Labs.Uthread

def STACK_SIZE : Nat := 8192
def MAX_THREAD : Nat := 4

/-- The registers that thread_switch names. -/
inductive Reg
  | ra | sp | s0 | s1 | s2 | s3 | s4 | s5 | s6 | s7 | s8 | s9 | s10 | s11 | a0 | a1
  deriving DecidableEq

inductive Instr
  | sd (r : Reg) (off : Nat) (base : Reg)
  | ld (r : Reg) (off : Nat) (base : Reg)
  | ret
  deriving DecidableEq

structure Machine where
  regs : Reg → Nat
  mem : Nat → Nat
  pc : Nat

def Instr.exec (m : Machine) : Instr → Machine
  | .sd r off base => { m with mem := Function.update m.mem (m.regs base + off) (m.regs r) }
  | .ld r off base => { m with regs := Function.update m.regs r (m.mem (m.regs base + off)) }
  | .ret => { m with pc := m.regs .ra }

def threadSwitch : List Instr :=
  [.sd .ra 0 .a0, .sd .sp 8 .a0, .sd .s0 16 .a0, .sd .s1 24 .a0, .sd .s2 32 .a0, .sd .s3 40 .a0,
    .sd .s4 48 .a0, .sd .s5 56 .a0, .sd .s6 64 .a0, .sd .s7 72 .a0, .sd .s8 80 .a0,
    .sd .s9 88 .a0, .sd .s10 96 .a0, .sd .s11 104 .a0,
    .ld .ra 0 .a1, .ld .sp 8 .a1, .ld .s0 16 .a1, .ld .s1 24 .a1, .ld .s2 32 .a1, .ld .s3 40 .a1,
    .ld .s4 48 .a1, .ld .s5 56 .a1, .ld .s6 64 .a1, .ld .s7 72 .a1, .ld .s8 80 .a1,
    .ld .s9 88 .a1, .ld .s10 96 .a1, .ld .s11 104 .a1, .ret]

inductive ThreadState
  | free | running | runnable
  deriving DecidableEq

/-- How a thread that does not run will go on: at its function, or after its thread_switch with
the registers `c`. -/
inductive Resume
  | none
  | start (func : Nat)
  | back (c : Reg → Nat)

/-- The machine with the thread table; `resume` is only recorded. -/
structure State where
  regs : Reg → Nat
  mem : Nat → Nat
  pc : Nat
  state : Fin MAX_THREAD → ThreadState
  current : Fin MAX_THREAD
  ended : Bool
  resume : Fin MAX_THREAD → Resume

/-- struct thread: the stack, the state in a padded word, the context of 14 words. -/
def sizeofThread : Nat := STACK_SIZE + 8 + 14 * 8

/-- `&all_thread[i].stack` and `&all_thread[i].contx` -/
def stackAddr (allThread : Nat) (i : Fin MAX_THREAD) : Nat := allThread + sizeofThread * i.val
def contxAddr (allThread : Nat) (i : Fin MAX_THREAD) : Nat :=
  stackAddr allThread i + STACK_SIZE + 8

/-- The loop of thread_schedule, from `t` on with `i` turns left. -/
def scan (state : Fin MAX_THREAD → ThreadState) : Nat → Nat → Option (Fin MAX_THREAD)
  | 0, _ => none
  | i+1, t =>
    let t : Fin MAX_THREAD := if h : t < MAX_THREAD then ⟨t, h⟩ else ⟨0, by decide⟩
    if state t = .runnable then some t else scan state i (t.val+1)

/-- The call of thread_switch with the addresses of two contexts. -/
def State.switch (s : State) (old new : Nat) : State :=
  let m := threadSwitch.foldl Instr.exec
    ⟨Function.update (Function.update s.regs .a0 old) .a1 new, s.mem, s.pc⟩
  { s with regs := m.regs, mem := m.mem, pc := m.pc }

def threadSchedule (allThread : Nat) (s : State) : State :=
  match scan s.state MAX_THREAD (s.current.val+1) with
  | none => { s with ended := true }
  | some next =>
    if s.current ≠ next then
      State.switch { s with state := Function.update s.state next .running, current := next,
                            resume := Function.update s.resume s.current (.back s.regs) }
        (contxAddr allThread s.current) (contxAddr allThread next)
    -- a thread that goes on keeps its state, RUNNABLE after a yield
    else s

/-- thread_create, when a slot is FREE. -/
def threadCreate (allThread : Nat) (s : State) (func : Nat) : Option State :=
  ((List.finRange MAX_THREAD).find? (fun t => s.state t = .free)).map (fun t =>
    { s with state := Function.update s.state t .runnable,
             mem := Function.update (Function.update s.mem (contxAddr allThread t) func)
               (contxAddr allThread t + 8) (stackAddr allThread t + (STACK_SIZE - 1)),
             resume := Function.update s.resume t (.start func) })

inductive Event
  /-- the running thread computes, up to its next call -/
  | work (regs : Reg → Nat)
  | threadCreate (func : Nat)
  | threadYield
  /-- `current_thread->state = FREE; thread_schedule()` -/
  | exit
  /-- main's own call of thread_schedule -/
  | threadSchedule

def step (allThread : Nat) (s : State) (e : Event) : Option State :=
  if s.ended then none
  else
    match e with
    | .work regs => some { s with regs := regs }
    | .threadCreate func => threadCreate allThread s func
    | .threadYield => some (Uthread.threadSchedule allThread
        { s with state := Function.update s.state s.current .runnable })
    | .exit => some (Uthread.threadSchedule allThread
        { s with state := Function.update s.state s.current .free })
    | .threadSchedule => some (Uthread.threadSchedule allThread s)

/-- The state after thread_init. -/
def threadInit (regs : Reg → Nat) (mem : Nat → Nat) (pc : Nat) : State where
  regs := regs
  mem := mem
  pc := pc
  state := Function.update (fun _ => .free) ⟨0, by decide⟩ .running
  current := ⟨0, by decide⟩
  ended := false
  resume := fun _ => .none

end Xv6Labs.Uthread
