import Xv6Labs.Runs
import Mathlib.Logic.Function.Basic
import Mathlib.Data.List.FinRange
import Mathlib.Data.Multiset.AddSub

/-! proc.c of the `traps` kernel: process creation and its failures. The kalloc.c and vm.c of
this kernel are not in the tree: what proc.c calls of them is a parameter. -/
namespace Xv6Labs.ProcTable

def NPROC : Nat := 64
def PGSIZE : Nat := 4096
def MAXVA : Nat := 2^38
def TRAMPOLINE : Nat := MAXVA - PGSIZE
def TRAPFRAME : Nat := TRAMPOLINE - PGSIZE

def PTE_R : Nat := 2
def PTE_W : Nat := 4
def PTE_X : Nat := 8

/-- What proc.c calls. A page table belongs to one process, `0` is the null pointer, and
`none` as a whole answer is a panic. -/
structure Vm (Heap Table : Type) where
  kalloc : Heap → Heap × Nat
  kfree : Heap → Nat → Heap
  uvmcreate : Heap → Heap × Option Table
  mappages : Heap → Table → (va size pa perm : Nat) → Heap × Table × Bool
  uvmunmap : Heap → Table → (va npages : Nat) → (doFree : Bool) → Option (Heap × Table)
  uvmfree : Heap → Table → (sz : Nat) → Option Heap
  uvmcopy : Heap → (old new : Table) → (sz : Nat) → Option (Heap × Table × Bool)
  trampoline : Nat

inductive ProcState where
  | UNUSED
  | SLEEPING
  | RUNNABLE
  | RUNNING
  | ZOMBIE
  deriving DecidableEq

/-- The fields of struct proc that these functions read or write. -/
structure Proc (Table : Type) where
  state : ProcState
  parent : Option (Fin NPROC)
  chan : Nat
  killed : Bool
  xstate : Int
  pid : Nat
  sz : Nat
  pagetable : Option Table
  trapframe : Nat
  name : List UInt8
  alarmInterval : Nat
  alarmHandler : Nat
  alarmTicks : Nat
  saveTrapframe : Nat

/-- `taken` and `given` are the pages that were allocated and freed as a `save_trapframe`. -/
structure State (Heap Table : Type) where
  proc : Fin NPROC → Proc Table
  heap : Heap
  nextpid : Nat
  taken : Multiset Nat
  given : Multiset Nat

variable {Heap Table : Type}

def State.setProc (s : State Heap Table) (i : Fin NPROC) (p : Proc Table) : State Heap Table :=
  { s with proc := Function.update s.proc i p }

def initproc : Fin NPROC := ⟨0, by decide⟩

section Code

variable (vm : Vm Heap Table)

/-- proc_pagetable, for the trapframe page `trapframe`. -/
def procPagetable (h : Heap) (trapframe : Nat) : Option (Heap × Option Table) :=
  match vm.uvmcreate h with
  | (h, none) => some (h, none)
  | (h, some t) =>
    match vm.mappages h t TRAMPOLINE PGSIZE vm.trampoline (PTE_R ||| PTE_X) with
    | (h, t, false) => do
      let h ← vm.uvmfree h t 0
      some (h, none)
    | (h, t, true) =>
      match vm.mappages h t TRAPFRAME PGSIZE trapframe (PTE_R ||| PTE_W) with
      | (h, t, false) => do
        let (h, t) ← vm.uvmunmap h t TRAMPOLINE 1 false
        let h ← vm.uvmfree h t 0
        some (h, none)
      | (h, t, true) => some (h, some t)

/-- proc_freepagetable -/
def procFreepagetable (h : Heap) (t : Table) (sz : Nat) : Option Heap := do
  let (h, t) ← vm.uvmunmap h t TRAMPOLINE 1 false
  let (h, t) ← vm.uvmunmap h t TRAPFRAME 1 false
  vm.uvmfree h t sz

/-- freeproc; the pointer `save_trapframe` stays as it is. -/
def freeproc (s : State Heap Table) (i : Fin NPROC) : Option (State Heap Table) := do
  let p := s.proc i
  let h := if p.trapframe ≠ 0 then vm.kfree s.heap p.trapframe else s.heap
  let h ← match p.pagetable with
    | some t => procFreepagetable vm h t p.sz
    | none => some h
  let p := { p with
    trapframe := 0, pagetable := none, sz := 0, pid := 0, parent := none, name := [], chan := 0,
    killed := false, xstate := 0, state := .UNUSED, alarmInterval := 0, alarmHandler := 0,
    alarmTicks := 0 }
  let s := { s.setProc i p with heap := h }
  if p.saveTrapframe ≠ 0 then
    some { s with
      heap := vm.kfree s.heap p.saveTrapframe
      given := p.saveTrapframe ::ₘ s.given }
  else some s

/-- The first slot whose state is UNUSED. -/
def found (s : State Heap Table) : Option (Fin NPROC) :=
  (List.finRange NPROC).find? (fun i => (s.proc i).state = .UNUSED)

/-- allocproc; the slot of the new process, or `none` for the return of 0. -/
def allocproc (s : State Heap Table) : Option (State Heap Table × Option (Fin NPROC)) :=
  match found s with
  | none => some (s, none)
  | some i =>
    let p := { s.proc i with
      pid := s.nextpid, alarmTicks := 0, alarmInterval := 0, alarmHandler := 0 }
    let s := { s with nextpid := s.nextpid + 1 }
    let r := vm.kalloc s.heap
    let p := { p with saveTrapframe := r.2 }
    if r.2 = 0 then some ({ s.setProc i p with heap := r.1 }, none)
    else
      let s := { s with heap := r.1, taken := r.2 ::ₘ s.taken }
      let r := vm.kalloc s.heap
      let p := { p with trapframe := r.2 }
      let s := { s.setProc i p with heap := r.1 }
      if r.2 = 0 then some (s, none)
      else do
        let (h, t) ← procPagetable vm s.heap p.trapframe
        let s := { s.setProc i { p with pagetable := t } with heap := h }
        match t with
        | none =>
          let s ← freeproc vm s i
          some (s, none)
        | some _ => some (s, some i)

/-- fork by the process of slot `p`; the pid, or -1. -/
def fork (s : State Heap Table) (p : Fin NPROC) : Option (State Heap Table × Int) := do
  let (s, np) ← allocproc vm s
  match np with
  | none => some (s, -1)
  | some i =>
    let old ← (s.proc p).pagetable
    let new ← (s.proc i).pagetable
    let (h, new, ok) ← vm.uvmcopy s.heap old new (s.proc p).sz
    let s := { s.setProc i { s.proc i with pagetable := some new } with heap := h }
    if ok then
      let s := s.setProc i { s.proc i with
        sz := (s.proc p).sz, parent := some p, name := (s.proc p).name, state := .RUNNABLE }
      some (s, ((s.proc i).pid : Int))
    else
      let s ← freeproc vm s i
      some (s, -1)

end Code

/-- exit by the process of slot `p`, up to its files: its children go to init. -/
def exit (s : State Heap Table) (p : Fin NPROC) (status : Int) : Option (State Heap Table) :=
  if p = initproc then none
  else
    let reparented := fun i =>
      if (s.proc i).parent = some p then { s.proc i with parent := some initproc } else s.proc i
    let zombie := { reparented p with xstate := status, state := .ZOMBIE }
    some { s with proc := Function.update reparented p zombie }

/-- wait by the process of slot `p`; `copied` says whether copyout succeeds. With children
that still run it sleeps, which is no step. -/
def wait (vm : Vm Heap Table) (s : State Heap Table) (p : Fin NPROC) (copied : Bool) :
    Option (State Heap Table × Int) :=
  match (List.finRange NPROC).find?
      (fun i => (s.proc i).parent = some p ∧ (s.proc i).state = .ZOMBIE) with
  | some i =>
    if copied then do
      let t ← freeproc vm s i
      some (t, ((s.proc i).pid : Int))
    else some (s, -1)
  | none =>
    if (List.finRange NPROC).all (fun i => (s.proc i).parent ≠ some p) || (s.proc p).killed then
      some (s, -1)
    else none

inductive Event where
  | fork (p : Fin NPROC)
  | exit (p : Fin NPROC) (status : Int)
  | wait (p : Fin NPROC) (copied : Bool)

/-- A process that is running. -/
def State.active (s : State Heap Table) (p : Fin NPROC) : Bool :=
  (s.proc p).state ≠ .UNUSED ∧ (s.proc p).state ≠ .ZOMBIE

/-- A call by a running process. -/
def step (vm : Vm Heap Table) (s : State Heap Table) : Event → Option (State Heap Table)
  | .fork p => if s.active p then (fork vm s p).map (·.1) else none
  | .exit p status => if s.active p then exit s p status else none
  | .wait p copied => if s.active p then (wait vm s p copied).map (·.1) else none

end Xv6Labs.ProcTable
