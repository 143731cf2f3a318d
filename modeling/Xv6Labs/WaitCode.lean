import Xv6Labs.Runs
import Mathlib.Logic.Function.Basic

/-! The process table of the pgtbl kernel: fork, exit, reparent, wait, sleep, wakeup, kill and the
scheduler. A step is one operation on `wait_lock` or on a `p->lock`, with the code after it up to
the next one. -/
namespace Xv6Labs.Wait

/-- enum procstate -/
inductive ProcState
  | unused | used | sleeping | runnable | running | zombie
  deriving DecidableEq, Repr

/-- What a process sleeps on: a `struct proc`, or some other address of the kernel. -/
inductive Chan (N : Nat)
  | proc (i : Fin N)
  | other (n : Nat)
  deriving DecidableEq, Repr

/-- struct proc -/
structure Proc (N : Nat) where
  state : ProcState
  chan : Option (Chan N)
  killed : Bool
  xstate : Int
  pid : Nat
  parent : Option (Fin N)
  deriving DecidableEq, Repr

/-- `wait_lock` and the lock of each process -/
inductive Lk (N : Nat)
  | wait
  | proc (i : Fin N)
  deriving DecidableEq, Repr

/-- How wait ends. -/
inductive WaitEnd
  | pid (n : Nat)
  | badAddr
  | giveUp
  deriving DecidableEq, Repr

/-- The value that wait returns. -/
def WaitEnd.value : WaitEnd → Int
  | .pid n => n
  | .badAddr | .giveUp => -1

/-- Where the kernel thread of a process stands. `k` is where it goes on. -/
inductive PC (N : Nat)
  /-- in user space, or in the kernel without these locks -/
  | user
  /-- fork: the loop of allocproc; parent link; state of the child -/
  | forkScan (i : Nat)
  | forkLink (np : Fin N)
  | forkStart (np : Fin N)
  /-- exit: `acquire(&wait_lock)`; reparent; `acquire(&p->lock)`; after sched -/
  | exit (status : Int)
  | reparent (pp : Nat) (status : Int)
  | exitLock (status : Int)
  | dead
  /-- wait: `acquire(&wait_lock)`; the scan; `acquire(&np->lock)`; `release(&wait_lock)` -/
  | wait (addr : Nat)
  | waitScan (addr : Nat) (np : Nat) (havekids : Bool)
  | waitLock (addr : Nat) (np : Fin N)
  | waitReturn (r : WaitEnd)
  /-- sleep: `acquire(&p->lock)`; channel and state; after sched. `lk` is set for wait_lock. -/
  | sleep (chan : Chan N) (lk : Bool) (k : PC N)
  | sleepMark (chan : Chan N) (k : PC N)
  | sleepTidy (k : PC N)
  | yield (k : PC N)
  /-- sched: swtch to the CPU; switched away -/
  | sched (k : PC N)
  | parked (k : PC N)
  | wakeup (chan : Option (Chan N)) (i : Nat) (k : PC N)
  | kill (pid : Nat) (i : Nat)
  | release (l : Lk N) (k : PC N)
  deriving DecidableEq, Repr

/-- The locks that a process has while its thread stands there on a CPU. -/
def PC.locks (p : Fin N) : PC N → List (Lk N)
  | .user | .forkScan _ | .forkLink _ | .forkStart _ | .exit _ | .wait _ | .yield _ | .parked _
  | .kill _ _ => []
  | .reparent _ _ | .exitLock _ | .waitScan _ _ _ | .waitLock _ _ | .waitReturn _ => [.wait]
  | .sleep _ lk _ => if lk then [.wait] else []
  | .dead | .sleepMark _ _ | .sleepTidy _ | .sched _ => [.proc p]
  | .wakeup _ _ k => k.locks p
  | .release l k => l :: k.locks p

/-- Where swtch goes on. -/
def PC.resume : PC N → PC N
  | .parked k => k
  | k => k

/-- What a CPU does: the loop of scheduler at slot `i`, a process, or an interrupt in the loop. -/
inductive Cpu (N : Nat)
  | scan (i : Fin N)
  | running (p : Fin N)
  | release (i : Fin N)
  | wakeup (n : Nat) (i : Nat) (back : Fin N)
  | wakeupRelease (n : Nat) (i back : Fin N)
  deriving DecidableEq, Repr

/-- What is told of a process: its fork, its exit, a freeproc of it and what copyout delivered. -/
inductive Note (N : Nat)
  | forked (pid parent : Nat)
  | dropped (pid : Nat)
  | exited (pid : Nat) (status : Int)
  | reaped (pid : Nat) (waiter : Fin N) (waiterPid : Nat) (addr : Nat) (out : Option Int)
  | returned (waiter : Fin N) (value : Int)
  deriving DecidableEq, Repr

structure State (N M : Nat) where
  procs : Fin N → Proc N
  pc : Fin N → PC N
  cpu : Fin M → Cpu N
  lock : Lk N → Option (Fin M)
  /-- an int in proc.c, which holds the same number as long as it is below 2^31 -/
  nextpid : Nat
  /-- what has happened, the latest first -/
  trace : List (Note N)

variable {N M : Nat}

def State.goto (s : State N M) (p : Fin N) (k : PC N) : State N M :=
  { s with pc := Function.update s.pc p k }

def State.onCpu (s : State N M) (c : Fin M) (k : Cpu N) : State N M :=
  { s with cpu := Function.update s.cpu c k }

def State.setProc (s : State N M) (i : Fin N) (q : Proc N) : State N M :=
  { s with procs := Function.update s.procs i q }

def State.note (s : State N M) (n : Note N) : State N M := { s with trace := n :: s.trace }

/-- acquire spins until the lock is free. -/
def State.acquire (s : State N M) (c : Fin M) (l : Lk N) : Option (State N M) :=
  if s.lock l = none then some { s with lock := Function.update s.lock l (some c) } else none

def State.release (s : State N M) (l : Lk N) : State N M :=
  { s with lock := Function.update s.lock l none }

/-- freeproc -/
def freeproc : Proc N :=
  { state := .unused, chan := none, killed := false, xstate := 0, pid := 0, parent := none }

/-- The context that allocproc gives a process: forkret releases `p->lock`. -/
def forkret (p : Fin N) : PC N := .release (.proc p) .user

/-- The body of allocproc's loop and the rest of fork up to `release(&np->lock)`. `fail` is set
when a page cannot be allocated, in allocproc or in uvmcopy. -/
def State.alloc (s : State N M) (p np : Fin N) (fail : Bool) : State N M :=
  if (s.procs np).state = .unused then
    let pid := s.nextpid
    let s := { s with nextpid := s.nextpid + 1 }
    if fail then
      ((s.setProc np freeproc).note (.dropped pid)).goto p (.release (.proc np) .user)
    else
      let s := s.setProc np { s.procs np with pid := pid, state := .used }
      (s.goto np (.parked (forkret np))).goto p (.release (.proc np) (.forkLink np))
  else
    s.goto p (.release (.proc np) (.forkScan (np + 1)))

/-- The body of wakeup's loop. -/
def Proc.wake (q : Proc N) (chan : Option (Chan N)) : Proc N :=
  if q.state = .sleeping ∧ q.chan = chan then { q with state := .runnable } else q

/-- What kill does with the process it has found. -/
def Proc.kill (q : Proc N) : Proc N :=
  { q with killed := true, state := if q.state = .sleeping then .runnable else q.state }

/-- The body of wait's scan with `np->lock` held. `fail` is set when copyout fails. -/
def State.check (s : State N M) (p np : Fin N) (addr : Nat) (fail : Bool) : State N M :=
  let q := s.procs np
  if q.state = .zombie then
    if addr ≠ 0 ∧ fail then
      s.goto p (.release (.proc np) (.waitReturn .badAddr))
    else
      let out := if addr = 0 then none else some q.xstate
      ((s.setProc np freeproc).note (.reaped q.pid p (s.procs p).pid addr out)).goto p
        (.release (.proc np) (.waitReturn (.pid q.pid)))
  else
    s.goto p (.release (.proc np) (.waitScan addr (np + 1) true))

/-- What decides how a thread goes on: a system call, an interrupt, or `fail` when the kernel
finds no memory or a bad user address. -/
inductive Choice
  | go | fail
  | fork | exit (status : Int) | wait (addr : Nat) | kill (pid : Nat)
  | sleep (n : Nat) | wakeup (n : Nat)
  | timer | intr (n : Nat)
  deriving DecidableEq, Repr

/-- A system call, or what another one does with its own channels. init must not exit. -/
def State.call [NeZero N] (s : State N M) (p : Fin N) : Choice → Option (State N M)
  | .fork => some (s.goto p (.forkScan 0))
  | .exit st => if p = 0 then none else some (s.goto p (.exit st))
  | .wait addr => some (s.goto p (.wait addr))
  | .kill pid => some (s.goto p (.kill pid 0))
  | .sleep n => some (s.goto p (.sleep (.other n) false .user))
  | .wakeup n => some (s.goto p (.wakeup (some (.other n)) 0 .user))
  | _ => none

/-- The next step of the thread of process `p` on CPU `c`. -/
def State.thread [NeZero N] (s : State N M) (c : Fin M) (p : Fin N) (a : Choice) :
    Option (State N M) :=
  match s.pc p with
  | .user => s.call p a
  | .forkScan i =>
    if h : i < N then
      (s.acquire c (.proc ⟨i, h⟩)).map (fun s => s.alloc p ⟨i, h⟩ (a = .fail))
    else some (s.goto p .user)
  | .forkLink np =>
    (s.acquire c .wait).map (fun s =>
      ((s.setProc np { s.procs np with parent := some p }).note
        (.forked (s.procs np).pid (s.procs p).pid)).goto p (.release .wait (.forkStart np)))
  | .forkStart np =>
    (s.acquire c (.proc np)).map (fun s =>
      (s.setProc np { s.procs np with state := .runnable }).goto p (.release (.proc np) .user))
  | .exit st => (s.acquire c .wait).map (fun s => s.goto p (.reparent 0 st))
  | .reparent pp st =>
    if h : pp < N then
      if (s.procs ⟨pp, h⟩).parent = some p then
        -- init is woken inside the loop, for every child that it gets
        some ((s.setProc ⟨pp, h⟩ { s.procs ⟨pp, h⟩ with parent := some 0 }).goto p
          (.wakeup (some (.proc 0)) 0 (.reparent (pp + 1) st)))
      else some (s.goto p (.reparent (pp + 1) st))
    -- the parent may sleep in wait
    else some (s.goto p (.wakeup ((s.procs p).parent.map .proc) 0 (.exitLock st)))
  | .exitLock st =>
    -- wait_lock goes after the state is set, so no parent misses the ZOMBIE
    (s.acquire c (.proc p)).map (fun s =>
      ((s.setProc p { s.procs p with xstate := st, state := .zombie }).note
        (.exited (s.procs p).pid st)).goto p (.release .wait (.sched .dead)))
  | .dead => none
  | .wait addr => (s.acquire c .wait).map (fun s => s.goto p (.waitScan addr 0 false))
  | .waitScan addr np havekids =>
    if h : np < N then
      if (s.procs ⟨np, h⟩).parent = some p then some (s.goto p (.waitLock addr ⟨np, h⟩))
      else some (s.goto p (.waitScan addr (np + 1) havekids))
    else if !havekids || (s.procs p).killed then some (s.goto p (.waitReturn .giveUp))
    else some (s.goto p (.sleep (.proc p) true (.wait addr)))
  | .waitLock addr np => (s.acquire c (.proc np)).map (fun s => s.check p np addr (a = .fail))
  | .waitReturn r => some (((s.release .wait).note (.returned p r.value)).goto p .user)
  | .sleep ch lk k =>
    -- the process's own lock comes first, so that no wakeup is missed in between
    (s.acquire c (.proc p)).map (fun s =>
      s.goto p (if lk then .release .wait (.sleepMark ch k) else .sleepMark ch k))
  | .sleepMark ch k =>
    some ((s.setProc p { s.procs p with chan := some ch, state := .sleeping }).goto p
      (.sched (.sleepTidy k)))
  | .sleepTidy k =>
    some ((s.setProc p { s.procs p with chan := none }).goto p (.release (.proc p) k))
  | .yield k =>
    (s.acquire c (.proc p)).map (fun s =>
      (s.setProc p { s.procs p with state := .runnable }).goto p
        (.sched (.release (.proc p) k)))
  | .sched k => some ((s.onCpu c (.release p)).goto p (.parked k))
  | .parked _ => none
  | .wakeup ch i k =>
    if h : i < N then
      if i = p then some (s.goto p (.wakeup ch (i + 1) k))
      else (s.acquire c (.proc ⟨i, h⟩)).map (fun s =>
        (s.setProc ⟨i, h⟩ ((s.procs ⟨i, h⟩).wake ch)).goto p
          (.release (.proc ⟨i, h⟩) (.wakeup ch (i + 1) k)))
    else some (s.goto p k)
  | .kill pid i =>
    if h : i < N then
      (s.acquire c (.proc ⟨i, h⟩)).map (fun s =>
        if (s.procs ⟨i, h⟩).pid = pid then
          (s.setProc ⟨i, h⟩ (s.procs ⟨i, h⟩).kill).goto p (.release (.proc ⟨i, h⟩) .user)
        else s.goto p (.release (.proc ⟨i, h⟩) (.kill pid (i + 1))))
    else some (s.goto p .user)
  | .release l k => some ((s.release l).goto p k)

/-- The next slot of scheduler's loop. -/
def nextSlot [NeZero N] (i : Fin N) : Fin N := if h : i + 1 < N then ⟨i + 1, h⟩ else 0

/-- The next step of CPU `c`. Interrupts come while no lock is held: a timer makes the process
yield, a device wakes up those who sleep on its channel. -/
def step [NeZero N] (s : State N M) (e : Fin M × Choice) : Option (State N M) :=
  let (c, a) := e
  match s.cpu c with
  | .scan i =>
    match a with
    | .intr n => some (s.onCpu c (.wakeup n 0 i))
    | _ => (s.acquire c (.proc i)).map (fun s =>
        -- the process goes on with its lock held, and gives it up itself
        if (s.procs i).state = .runnable then
          ((s.setProc i { s.procs i with state := .running }).onCpu c (.running i)).goto i
            (s.pc i).resume
        else s.onCpu c (.release i))
  | .release i => some ((s.release (.proc i)).onCpu c (.scan (nextSlot i)))
  | .wakeup n i back =>
    if h : i < N then
      (s.acquire c (.proc ⟨i, h⟩)).map (fun s =>
        (s.setProc ⟨i, h⟩ ((s.procs ⟨i, h⟩).wake (some (.other n)))).onCpu c
          (.wakeupRelease n ⟨i, h⟩ back))
    else some (s.onCpu c (.scan back))
  | .wakeupRelease n i back => some ((s.release (.proc i)).onCpu c (.wakeup n (i + 1) back))
  | .running p =>
    match a with
    | .timer => if (s.pc p).locks p = [] then some (s.goto p (.yield (s.pc p))) else none
    | .intr n =>
      if (s.pc p).locks p = [] then some (s.goto p (.wakeup (some (.other n)) 0 (s.pc p)))
      else none
    | a => s.thread c p a

/-- After procinit and userinit, with every CPU in scheduler. -/
def boot [NeZero N] : State N M :=
  { procs := fun i => if i = 0 then { freeproc with state := .runnable, pid := 1 } else freeproc
    pc := fun i => .parked (if i = 0 then forkret i else .dead)
    cpu := fun _ => .scan 0
    lock := fun _ => none
    nextpid := 2
    trace := [] }

end Xv6Labs.Wait
