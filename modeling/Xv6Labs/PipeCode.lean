import Xv6Labs.Runs
import Mathlib.Logic.Function.Basic

/-! pipe.c: one pipe and the calls of pipewrite, piperead and pipeclose on it. A process runs
one call at a time; a step is one pass of a loop, or what the code does with `pi->lock` before
and after it. The pipe is gone once both ends are closed. -/
namespace Xv6Labs.Pipe

def PIPESIZE : Nat := 512

/-- What sleepers wait for: `&pi->nread` or `&pi->nwrite`. -/
inductive Chan
  | nread
  | nwrite
  deriving DecidableEq

/-- Where a process is. A writer carries the bytes that can be read at `addr` and `n`, a
reader `n` and the number of bytes that can be written at `addr`; `i` is the loop's counter. -/
inductive PC
  | idle
  /-- `acquire(&pi->lock)`, at the start and at the end of sleep -/
  | writeAcquire (src : List UInt8) (n : Int) (i : Nat)
  | writeLoop (src : List UInt8) (n : Int) (i : Nat)
  | writeAsleep (src : List UInt8) (n : Int) (i : Nat)
  /-- `wakeup(&pi->nread); release(&pi->lock); return i` -/
  | writeDone (i : Nat)
  | readAcquire (n : Int) (room : Nat)
  | readTest (n : Int) (room : Nat)
  | readAsleep (n : Int) (room : Nat)
  | readCopy (n : Int) (room i : Nat)
  | readDone (n : Int) (i : Nat)
  /-- `release(&pi->lock); return -1` -/
  | fail
  deriving DecidableEq

/-- The process is between acquire and release of `pi->lock`. -/
def PC.locked : PC → Bool
  | .writeLoop .. | .writeDone .. | .readTest .. | .readCopy .. | .readDone .. | .fail => true
  | _ => false

/-- A sleeper on `chan` goes on to take the lock again. -/
def PC.wake (chan : Chan) : PC → PC
  | .writeAsleep src n i => if chan = .nwrite then .writeAcquire src n i else .writeAsleep src n i
  | .readAsleep n room => if chan = .nread then .readAcquire n room else .readAsleep n room
  | q => q

/-- struct pipe, with the processes that use it. `accepted` and `delivered` record the bytes
that went in and out, in order. -/
structure State (P : Type) where
  data : Nat → UInt8
  nread : UInt32
  nwrite : UInt32
  readopen : Bool
  writeopen : Bool
  lock : Option P
  pc : P → PC
  killed : P → Bool
  accepted : List UInt8
  delivered : List UInt8

variable {P : Type} [DecidableEq P]

def State.goto (s : State P) (p : P) (q : PC) : State P :=
  { s with pc := Function.update s.pc p q }

def State.acquire (s : State P) (p : P) : Option (State P) :=
  if s.lock = none then some { s with lock := some p } else none

def State.release (s : State P) : State P := { s with lock := none }

/-- All sleepers on `chan` wake up. -/
def State.wakeup (s : State P) (chan : Chan) : State P :=
  { s with pc := fun q => (s.pc q).wake chan }

/-- `pi->data[pi->nwrite++ % PIPESIZE] = ch` -/
def State.put (s : State P) (ch : UInt8) : State P :=
  { s with data := Function.update s.data (s.nwrite.toNat % PIPESIZE) ch,
           nwrite := s.nwrite + 1, accepted := s.accepted ++ [ch] }

/-- `ch = pi->data[pi->nread++ % PIPESIZE]`, copied out to the reader when `out` is set. -/
def State.get (s : State P) (out : Bool) : State P :=
  { s with nread := s.nread + 1,
           delivered := s.delivered ++ (if out then [s.data (s.nread.toNat % PIPESIZE)] else []) }

/-- The next step of the call of process `p`. -/
def advance (s : State P) (p : P) : Option (State P) :=
  match s.pc p with
  | .idle | .writeAsleep .. | .readAsleep .. => none
  | .writeAcquire src n i => (s.acquire p).map (fun s => s.goto p (.writeLoop src n i))
  | .writeLoop src n i =>
    if (i : Int) < n then
      -- -1, whatever the loop has written before
      if s.readopen = false ∨ s.killed p then some (s.goto p .fail)
      else if s.nwrite = s.nread + PIPESIZE.toUInt32 then
        some (((s.wakeup .nread).release).goto p (.writeAsleep src n i))
      else
        match src[i]? with
        -- copyin fails: the bytes written so far are the answer
        | none => some (s.goto p (.writeDone i))
        | some ch => some ((s.put ch).goto p (.writeLoop src n (i+1)))
    else some (s.goto p (.writeDone i))
  | .writeDone _ => some (((s.wakeup .nread).release).goto p .idle)
  | .readAcquire n room => (s.acquire p).map (fun s => s.goto p (.readTest n room))
  | .readTest n room =>
    if s.nread = s.nwrite ∧ s.writeopen then
      if s.killed p then some (s.goto p .fail)
      else some (s.release.goto p (.readAsleep n room))
    else some (s.goto p (.readCopy n room 0))
  | .readCopy n room i =>
    if (i : Int) < n then
      if s.nread = s.nwrite then some (s.goto p (.readDone n i))
      else if i < room then some ((s.get true).goto p (.readCopy n room (i+1)))
      -- copyout fails: the byte is taken and not counted
      else some ((s.get false).goto p (.readDone n i))
    else some (s.goto p (.readDone n i))
  | .readDone _ _ => some (((s.wakeup .nwrite).release).goto p .idle)
  | .fail => some (s.release.goto p .idle)

/-- pipeclose on one end, run between its acquire and its release. -/
def pipeclose (s : State P) (writable : Bool) : Option (State P) :=
  if s.lock = none then
    if writable then some (State.wakeup { s with writeopen := false } .nread)
    else some (State.wakeup { s with readopen := false } .nwrite)
  else none

inductive Event (P : Type)
  | pipewrite (p : P) (src : List UInt8) (n : Int)
  | piperead (p : P) (n : Int) (room : Nat)
  | pipeclose (writable : Bool)
  | advance (p : P)
  /-- kill: it also ends the sleep of `p` -/
  | kill (p : P)

/-- After the second pipeclose the page of the pipe is free: nothing happens on it. -/
def step (s : State P) (e : Event P) : Option (State P) :=
  if s.readopen = false ∧ s.writeopen = false then none
  else
    match e with
    | .pipewrite p src n => if s.pc p = .idle then some (s.goto p (.writeAcquire src n 0)) else none
    | .piperead p n room => if s.pc p = .idle then some (s.goto p (.readAcquire n room)) else none
    | .pipeclose writable => pipeclose s writable
    | .advance p => advance s p
    | .kill p => some (State.goto { s with killed := Function.update s.killed p true } p
        (((s.pc p).wake .nread).wake .nwrite))

/-- The pipe made by pipealloc in a page with any content, and processes that make no call. -/
def pipealloc (junk : Nat → UInt8) (killed : P → Bool) : State P where
  data := junk
  nread := 0
  nwrite := 0
  readopen := true
  writeopen := true
  lock := none
  pc := fun _ => .idle
  killed := killed
  accepted := []
  delivered := []

end Xv6Labs.Pipe
