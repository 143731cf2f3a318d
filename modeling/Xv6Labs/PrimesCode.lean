import Xv6Labs.Runs
import Mathlib.Logic.Function.Basic

/-! primes.c: main feeds 2, 3, ..., N into a pipe, and every stage forks the next one. A step is
a system call of one process, or the test of a loop with the call behind it. A pipe is a queue of
ints; `pipe` and `fork` succeed. -/
namespace Xv6Labs.Primes

section Code

/-- PIPESIZE bytes hold this many ints. -/
def PIPEINTS : Nat := 128
def NOFILE : Nat := 16

inductive End where
  | reading
  | writing
  deriving DecidableEq

/-- An end of a pipe. -/
abbrev Fd := Nat × End

inductive Output where
  | prime (p : Nat)
  | writeError
  deriving DecidableEq

/-- Where a process stands. -/
inductive Pc where
  | unused
  -- main
  | start
  | forkFirst
  | closeFirst
  | feed (i : Nat)
  | closeFeed
  | waitFirst
  -- a child, before it calls prime
  | childClose
  -- prime
  | closeIn
  | first
  | print (p : Nat)
  | mkPipe (p : Nat)
  | forkNext (p : Nat)
  | closeNext (p : Nat)
  | loop (p : Nat)
  | pass (p num : Nat)
  | closeOut
  | waitNext
  | closeLast
  | exiting
  | exited
  /-- the first number was never read, and `p` has no value -/
  | lost
  deriving DecidableEq

/-- A process: `pi` and `pNext` are the pipes of the arrays of that name, and main's `p` is its
`pNext`. -/
structure Proc where
  pc : Pc
  parent : Option Nat
  pi : Nat
  pNext : Nat
  fds : List Fd

structure State where
  /-- the number of processes, and of pipes -/
  procs : Nat
  pipes : Nat
  proc : Nat → Proc
  queue : Nat → List Nat
  out : List Output

def Proc.at (P : Proc) (pc : Pc) : Proc := { P with pc := pc }

def Proc.close (P : Proc) (f : Fd) : Proc := { P with fds := P.fds.filter (fun g => g ≠ f) }

def State.set (s : State) (k : Nat) (P : Proc) : State :=
  { s with proc := Function.update s.proc k P }

def State.setQueue (s : State) (q : Nat) (xs : List Nat) : State :=
  { s with queue := Function.update s.queue q xs }

/-- Some process has this end of a pipe open. -/
def State.held (s : State) (f : Fd) : Bool :=
  (List.range s.procs).any (fun j => decide (f ∈ (s.proc j).fds))

inductive ReadResult where
  | sleeps
  | fails
  | eof
  | got (num : Nat) (rest : List Nat)

/-- `read(q[0], &num, sizeof(num))` -/
def read (s : State) (k q : Nat) : ReadResult :=
  if (q, End.reading) ∈ (s.proc k).fds then
    match s.queue q with
    | num :: rest => .got num rest
    | [] => if s.held (q, .writing) then .sleeps else .eof
  else .fails

inductive WriteResult where
  | sleeps
  | fails
  | put

/-- `write(q[1], &num, sizeof(num))` -/
def write (s : State) (k q : Nat) : WriteResult :=
  if (q, End.writing) ∈ (s.proc k).fds ∧ s.held (q, .reading) = true then
    if (s.queue q).length < PIPEINTS then .put else .sleeps
  else .fails

/-- `pipe(pNext)` -/
def pipe (s : State) (k : Nat) (next : Pc) : State :=
  let P := s.proc k
  { s.set k { P with
      pc := next
      pNext := s.pipes
      fds := (s.pipes, .reading) :: (s.pipes, .writing) :: P.fds } with
    pipes := s.pipes + 1 }

/-- The child of process `k`: `prime` gets the pipe its parent made. -/
def child (s : State) (k : Nat) : Proc :=
  { pc := .childClose, parent := some k, pi := (s.proc k).pNext, pNext := 0,
    fds := (s.proc k).fds }

def fork (s : State) (k : Nat) (next : Pc) : State :=
  { (s.set k ((s.proc k).at next)).set s.procs (child s k) with procs := s.procs + 1 }

/-- `wait(0)` sleeps while the process has children and none of them has exited. -/
def waits (s : State) (k : Nat) : Bool :=
  let children := (List.range s.procs).filter (fun j => decide ((s.proc j).parent = some k))
  decide (children ≠ []) && children.all (fun j => decide ((s.proc j).pc ≠ .exited))

/-- The next step of process `k`, unless it sleeps. -/
def step (N : Nat) (s : State) (k : Nat) : Option State :=
  let P := s.proc k
  match P.pc with
  | .unused | .exited | .lost => none
  | .start => some (pipe s k .forkFirst)
  | .forkFirst => some (fork s k .closeFirst)
  | .closeFirst => some (s.set k ((P.close (P.pNext, .reading)).at (.feed 2)))
  | .feed i =>
    if i ≤ N then
      match write s k P.pNext with
      | .sleeps => none
      | .fails => some (s.set k (P.at (.feed (i + 1))))
      | .put => some ((s.set k (P.at (.feed (i + 1)))).setQueue P.pNext (s.queue P.pNext ++ [i]))
    else some (s.set k (P.at .closeFeed))
  | .closeFeed => some (s.set k ((P.close (P.pNext, .writing)).at .waitFirst))
  | .waitFirst => if waits s k then none else some (s.set k (P.at .exiting))
  | .childClose => some (s.set k ((P.close (P.pi, .writing)).at .closeIn))
  | .closeIn => some (s.set k ((P.close (P.pi, .writing)).at .first))
  | .first =>
    match read s k P.pi with
    | .sleeps => none
    | .fails => some (s.set k (P.at .lost))
    | .eof => some (s.set k (P.at .exiting))
    | .got p rest => some ((s.set k (P.at (.print p))).setQueue P.pi rest)
  | .print p => some { s.set k (P.at (.mkPipe p)) with out := s.out ++ [.prime p] }
  | .mkPipe p => some (pipe s k (.forkNext p))
  | .forkNext p => some (fork s k (.closeNext p))
  | .closeNext p => some (s.set k ((P.close (P.pNext, .reading)).at (.loop p)))
  | .loop p =>
    match read s k P.pi with
    | .sleeps => none
    | .fails | .eof => some (s.set k (P.at .closeOut))
    | .got num rest =>
      some ((s.set k (P.at (if num % p ≠ 0 then .pass p num else .loop p))).setQueue P.pi rest)
  | .pass p num =>
    match write s k P.pNext with
    | .sleeps => none
    | .fails => some { s.set k (P.at .exiting) with out := s.out ++ [.writeError] }
    | .put => some ((s.set k (P.at (.loop p))).setQueue P.pNext (s.queue P.pNext ++ [num]))
  | .closeOut => some (s.set k ((P.close (P.pNext, .writing)).at .waitNext))
  | .waitNext => if waits s k then none else some (s.set k (P.at .closeLast))
  | .closeLast => some (s.set k ((P.close (P.pi, .reading)).at .exiting))
  | .exiting => some (s.set k { P with pc := .exited, fds := [] })

def noProc : Proc := { pc := .unused, parent := none, pi := 0, pNext := 0, fds := [] }

/-- main is about to run; its standard descriptors are left out. -/
def boot : State :=
  { procs := 1
    pipes := 0
    proc := Function.update (fun _ => noProc) 0 (noProc.at .start)
    queue := fun _ => []
    out := [] }

end Code

end Xv6Labs.Primes
