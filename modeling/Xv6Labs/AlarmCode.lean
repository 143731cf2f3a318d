import Mathlib.Data.List.Basic
import Mathlib.Algebra.GroupWithZero.Nat
import Mathlib.Algebra.Group.Int.Defs

/-! Traps from user space in the `traps` kernel: the trap frame, usertrap with its alarm, and the
two system calls that alarms need. The table of system calls is not among these files. -/
namespace Xv6Labs.Alarm

section Frames

/-- The user registers that a trap frame saves. -/
inductive Reg where
  | ra | sp | gp | tp
  | t0 | t1 | t2 | t3 | t4 | t5 | t6
  | s0 | s1 | s2 | s3 | s4 | s5 | s6 | s7 | s8 | s9 | s10 | s11
  | a0 | a1 | a2 | a3 | a4 | a5 | a6 | a7
  deriving DecidableEq, Repr

/-- What usertrapret leaves in the trap frame for the next trap. -/
structure KernelRegs where
  satp : UInt64
  sp : UInt64
  trap : UInt64
  hartid : UInt64
  deriving DecidableEq

structure Trapframe where
  kernel : KernelRegs
  epc : UInt64
  regs : Reg → UInt64

/-- The state that user code runs on. -/
structure User where
  pc : UInt64
  regs : Reg → UInt64

/-- The part of struct proc that traps use. -/
structure Proc where
  trapframe : Trapframe
  saveTrapframe : Trapframe
  alarmInterval : UInt64
  alarmHandler : UInt64
  alarmTicks : UInt64
  isHandler : UInt64
  killed : Bool

def Proc.setEpc (p : Proc) (x : UInt64) : Proc :=
  { p with trapframe := { p.trapframe with epc := x } }

def Proc.setReg (p : Proc) (r : Reg) (x : UInt64) : Proc :=
  { p with trapframe := { p.trapframe with regs := Function.update p.trapframe.regs r x } }

/-- What allocproc sets. It leaves `is_handler` of the slot's last process. -/
def allocproc (old : Proc) : Proc :=
  { old with alarmTicks := 0, alarmInterval := 0, alarmHandler := 0, killed := false }

end Frames

section Calls

/-- A 64-bit register as an int. -/
def toInt32 (x : UInt64) : Int :=
  if x.toNat % 2^32 < 2^31 then (x.toNat % 2^32 : Nat) else (x.toNat % 2^32 : Nat) - 2^32

/-- An int that is assigned to a uint64. -/
def uint64 (n : Int) : UInt64 := UInt64.ofNat (n % 2^64).toNat

def sysSigalarm (p : Proc) : Proc × UInt64 :=
  ({ p with
    alarmInterval := uint64 (toInt32 (p.trapframe.regs .a0))
    alarmHandler := p.trapframe.regs .a1
    isHandler := 0 }, 0)

def sysSigreturn (p : Proc) : Proc × UInt64 :=
  ({ p with trapframe := p.saveTrapframe, isHandler := 0 }, 0)

/-- An entry of the table of system calls. -/
inductive Sys where
  | sigalarm
  | sigreturn
  | other
  deriving DecidableEq

/-- The system call that syscall finds in the table. -/
def lookup (table : List (Option Sys)) (a7 : UInt64) : Option Sys :=
  let num := toInt32 a7
  if 0 < num ∧ num < table.length then (table[num.toNat]?).join else none

/-- syscall; `ret` is what a call other than the two for alarms returns. -/
def syscall (table : List (Option Sys)) (p : Proc) (ret : UInt64) : Proc :=
  match lookup table (p.trapframe.regs .a7) with
  | some .sigalarm =>
    let r := sysSigalarm p
    r.1.setReg .a0 r.2
  | some .sigreturn =>
    let r := sysSigreturn p
    r.1.setReg .a0 r.2
  | some .other => p.setReg .a0 ret
  | none => p.setReg .a0 (UInt64.ofNat (2^64 - 1))

end Calls

section Traps

/-- Why user code traps. -/
inductive Cause where
  | ecall (ret : UInt64)
  | device
  | timer
  | unexpected

/-- A timer interrupt in usertrap. -/
def alarmTick (p : Proc) : Proc :=
  if p.alarmInterval ≠ 0 ∧ p.isHandler = 0 then
    -- the count is compared before this tick is added to it
    if p.alarmTicks = p.alarmInterval then
      { p with
        isHandler := 1
        saveTrapframe := p.trapframe
        alarmTicks := 0
        trapframe := { p.trapframe with epc := p.alarmHandler } }
    else { p with alarmTicks := p.alarmTicks + 1 }
  else p

/-- usertrap up to usertrapret, or `none` when the process exits. -/
def usertrap (table : List (Option Sys)) (p : Proc) (sepc : UInt64) (cause : Cause) : Option Proc :=
  let p := p.setEpc sepc
  if p.killed then none
  else
    match cause with
    | .ecall ret => some (syscall table (p.setEpc (p.trapframe.epc + 4)) ret)
    | .device => some p
    | .timer => some (alarmTick p)
    | .unexpected => none

structure Machine where
  proc : Proc
  user : User

/-- A trap from uservec to userret; `k` is what the kernel leaves for the next trap. -/
def trap (table : List (Option Sys)) (m : Machine) (cause : Cause) (k : KernelRegs) :
    Option Machine :=
  let saved := { m.proc with trapframe := { m.proc.trapframe with regs := m.user.regs } }
  (usertrap table saved m.user.pc cause).map (fun p =>
    let tf := { p.trapframe with kernel := k }
    ⟨{ p with trapframe := tf }, ⟨tf.epc, tf.regs⟩⟩)

inductive Event where
  /-- User code computes and jumps. -/
  | compute (u : User)
  | trap (cause : Cause) (k : KernelRegs)
  /-- Another process kills this one. -/
  | kill

def step (table : List (Option Sys)) (m : Machine) : Event → Option Machine
  | .compute u => some { m with user := u }
  | .trap cause k => trap table m cause k
  | .kill => some { m with proc := { m.proc with killed := true } }

end Traps

end Xv6Labs.Alarm
