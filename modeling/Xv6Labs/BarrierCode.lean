import Xv6Labs.Runs
import Mathlib.Logic.Function.Basic

/-! barrier.c: the threads of main, each calling barrier() once a round. A step is one operation
on the mutex or the condition variable, or one access to `bstate`. -/
namespace Xv6Labs.Barrier

/-- Where a thread is. -/
inductive PC
  /-- thread(): `t = bstate.round; assert (i == t)` -/
  | check
  | lock
  /-- `++bstate.nthread < nthread` -/
  | arrive
  /-- inside pthread_cond_wait, with a broadcast since or not -/
  | waiting (signalled : Bool)
  /-- `bstate.nthread = 0; bstate.round++; pthread_cond_broadcast` -/
  | reset
  | bump
  | broadcast
  | unlock
  | done
  deriving DecidableEq

/-- `bstate`, the threads and their loop counters; `aborted` is set by a failing assertion. -/
structure State (n : Nat) where
  nthread : Nat
  round : Nat
  mutex : Option (Fin n)
  pc : Fin n → PC
  i : Fin n → Nat
  aborted : Bool

variable {n : Nat}

def State.goto (s : State n) (x : Fin n) (q : PC) : State n :=
  { s with pc := Function.update s.pc x q }

/-- pthread_cond_broadcast: every thread in pthread_cond_wait is signalled. -/
def PC.signal : PC → PC
  | .waiting _ => .waiting true
  | q => q

/-- The next step of thread `x`. pthread_cond_wait comes back as soon as the mutex is free,
with a signal or without one. -/
def step (rounds : Nat) (s : State n) (x : Fin n) : Option (State n) :=
  if s.aborted then none
  else
    match s.pc x with
    | .check =>
      if s.i x < rounds then
        if s.i x = s.round then some (s.goto x .lock) else some { s with aborted := true }
      else some (s.goto x .done)
    | .lock =>
      if s.mutex = none then some (State.goto { s with mutex := some x } x .arrive) else none
    | .arrive =>
      if s.nthread + 1 < n then
        some (State.goto { s with nthread := s.nthread + 1, mutex := none } x (.waiting false))
      else some (State.goto { s with nthread := s.nthread + 1 } x .reset)
    -- the call of pthread_cond_wait is not in a loop
    | .waiting _ =>
      if s.mutex = none then some (State.goto { s with mutex := some x } x .unlock) else none
    | .reset => some (State.goto { s with nthread := 0 } x .bump)
    | .bump => some (State.goto { s with round := s.round + 1 } x .broadcast)
    | .broadcast =>
      some (State.goto { s with pc := fun y => (s.pc y).signal } x .unlock)
    | .unlock =>
      some (State.goto { s with mutex := none, i := Function.update s.i x (s.i x + 1) } x .check)
    | .done => none

/-- barrier_init, and the threads before their first round. -/
def init (n : Nat) : State n := ⟨0, 0, none, fun _ => .check, fun _ => 0, false⟩

/-- The calls of barrier() that a thread has made, returned from or not. -/
def State.calls (s : State n) (x : Fin n) : Nat :=
  match s.pc x with
  | .check | .done => s.i x
  | _ => s.i x + 1

/-- No thread is ahead of another by a whole call, a thread that calls again finds the number
of its rounds, and the count stays within the number of threads. -/
structure Safe (s : State n) : Prop where
  together : ∀ x y, s.i x ≤ s.calls y
  round : ∀ x, s.pc x = .check → s.round = s.i x
  asserts : s.aborted = false
  count : s.nthread ≤ n

/-- pthread_cond_wait comes back only after a broadcast. -/
def Signalled (s : State n) (x : Fin n) : Prop := s.pc x ≠ .waiting false

instance (s : State n) (x : Fin n) : Decidable (Signalled s x) := by
  unfold Signalled
  infer_instance

end Xv6Labs.Barrier
