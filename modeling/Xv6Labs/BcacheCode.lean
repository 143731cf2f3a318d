import Xv6Labs.Runs
import Mathlib.Logic.Function.Basic
import Mathlib.Data.Fintype.Basic

/-! bio.c of the `locks` lab: the buffer cache with a hash table of locked buckets. A step
of a process is one acquire or release of a bucket lock, of the eviction lock or of a sleep
lock, with the code up to the next one. `B` is the number of buffers, `P` the number of
processes. -/
namespace Xv6Labs.Bcache

/-- Number of hash buckets. -/
def NBUFMAP_BUCKET : Nat := 13

abbrev Bucket := Fin NBUFMAP_BUCKET

def BUFMAP_HASH (dev blockno : UInt32) : Bucket :=
  ⟨((dev <<< 27) ||| blockno).toNat % NBUFMAP_BUCKET, Nat.mod_lt _ (by decide)⟩

/-- A `struct buf *`: null, the head `bufmap[i]` of a bucket or `buf[b]`. -/
inductive Ptr (B : Nat) where
  | null
  | head (i : Bucket)
  | buf (b : Fin B)
  deriving DecidableEq

/-- The fields of a `struct buf`, apart from `next`, the sleep lock and the data. The uint `refcnt`
counts the processes that use the buffer and the pins, which are fewer than 2^32. -/
structure Buf where
  dev : UInt32
  blockno : UInt32
  refcnt : Nat
  lastuse : Nat
  valid : Bool

/-- What a process does next. -/
inductive PC (B : Nat) where
  | idle
  /-- bget, the lookup under the bucket lock -/
  | getAcquire (dev blockno : UInt32)
  | getHit (key : Bucket) (b : Ptr B)
  | getMiss (dev blockno : UInt32)
  /-- bget, the second lookup under the eviction lock -/
  | evictAcquire (dev blockno : UInt32)
  | recheckAcquire (b : Ptr B) (dev blockno : UInt32)
  | recheckRelease (key : Bucket) (b : Ptr B)
  | recheckDone (b : Ptr B)
  /-- bget, the search for the least recently used buffer: about to acquire the lock of
  bucket `i`, or to release that of `j` before bucket `i` -/
  | scanAcquire (i : Nat) (least : Option (Ptr B)) (holding : Option Bucket)
      (dev blockno : UInt32)
  | scanRelease (i : Nat) (j : Bucket) (least : Option (Ptr B)) (holding : Option Bucket)
      (dev blockno : UInt32)
  /-- bget, moving the buffer to its new bucket -/
  | moveRelease (h : Bucket) (b : Ptr B) (dev blockno : UInt32)
  | moveAcquire (b : Ptr B) (dev blockno : UInt32)
  | assignRelease (key : Bucket) (b : Ptr B)
  | assignDone (b : Ptr B)
  | sleepAcquire (b : Ptr B)
  /-- brelse, bpin and bunpin -/
  | brelseAcquire (key : Bucket) (b : Ptr B)
  | bpinAcquire (key : Bucket) (b : Ptr B)
  | bunpinAcquire (key : Bucket) (b : Ptr B)
  | bucketRelease (key : Bucket)
  deriving DecidableEq

/-- `pins` counts the calls of bpin that no bunpin has undone. -/
structure State (B P : Nat) where
  next : Ptr B → Ptr B
  buf : Ptr B → Buf
  bucketLock : Bucket → Option (Fin P)
  evictionLock : Option (Fin P)
  sleep : Ptr B → Option (Fin P)
  pins : Ptr B → Nat
  ticks : Nat
  pc : Fin P → PC B

variable {B P : Nat}

def State.goto (s : State B P) (p : Fin P) (q : PC B) : State B P :=
  { s with pc := Function.update s.pc p q }

def State.acquire (s : State B P) (p : Fin P) (i : Bucket) : Option (State B P) :=
  if s.bucketLock i = none then
    some { s with bucketLock := Function.update s.bucketLock i (some p) }
  else none

def State.release (s : State B P) (i : Bucket) : State B P :=
  { s with bucketLock := Function.update s.bucketLock i none }

def State.setRefcnt (s : State B P) (b : Ptr B) (n : Nat) : State B P :=
  { s with buf := Function.update s.buf b { s.buf b with refcnt := n } }

def State.Matches (s : State B P) (dev blockno : UInt32) (b : Ptr B) : Bool :=
  (s.buf b).dev == dev && (s.buf b).blockno == blockno

/-- `for(; b; b = b->next) if(b->dev == dev && b->blockno == blockno)`: the first match. -/
def lookup (s : State B P) (dev blockno : UInt32) : Nat → Ptr B → Option (Ptr B)
  | 0, _ => none
  | fuel+1, b =>
    if b = .null then none
    else if s.Matches dev blockno b then some b
    else lookup s dev blockno fuel (s.next b)

/-- The chain of bucket `key` has at most `B` buffers. -/
def bucketLookup (s : State B P) (dev blockno : UInt32) : Option (Ptr B) :=
  lookup s dev blockno (B+1) (s.next (.head (BUFMAP_HASH dev blockno)))

/-- The loop over one bucket in the search for the least recently used buffer: `least` is
the buffer before it, the flag is `newfound`. -/
def scanBucket (s : State B P) : Nat → Ptr B → Option (Ptr B) → Bool → Option (Ptr B) × Bool
  | 0, _, least, found => (least, found)
  | fuel+1, b, least, found =>
    if s.next b = .null then (least, found)
    else if (s.buf (s.next b)).refcnt = 0 ∧
        (∀ c ∈ least, (s.buf (s.next b)).lastuse < (s.buf (s.next c)).lastuse) then
      scanBucket s fuel (s.next b) (some b) true
    else scanBucket s fuel (s.next b) least found

/-- `b->dev = dev; b->blockno = blockno; b->refcnt = 1; b->valid = 0;` -/
def State.assign (s : State B P) (b : Ptr B) (dev blockno : UInt32) : State B P :=
  { s with
    buf := Function.update s.buf b
      { (s.buf b) with dev := dev, blockno := blockno, refcnt := 1, valid := false } }

/-- The code after the loop over the buckets. No free buffer is a panic. -/
def chooseVictim (s : State B P) (p : Fin P) (least : Option (Ptr B)) (holding : Option Bucket)
    (dev blockno : UInt32) : Option (State B P) :=
  let key := BUFMAP_HASH dev blockno
  match least, holding with
  | some c, some h =>
    let b := s.next c
    -- the victim leaves its chain before the bucket of the new block is locked
    if h ≠ key then
      some (State.goto { s with next := Function.update s.next c (s.next b) } p
        (.moveRelease h b dev blockno))
    else some ((s.assign b dev blockno).goto p (.assignRelease key b))
  | _, _ => none

/-- The head of the loop over the buckets. -/
def scanNext (s : State B P) (p : Fin P) (i : Nat) (least : Option (Ptr B))
    (holding : Option Bucket) (dev blockno : UInt32) : Option (State B P) :=
  if i < NBUFMAP_BUCKET then some (s.goto p (.scanAcquire i least holding dev blockno))
  else chooseVictim s p least holding dev blockno

/-- The next step of process `p`. -/
def advance (s : State B P) (p : Fin P) : Option (State B P) :=
  match s.pc p with
  | .idle => none
  | .getAcquire dev blockno =>
    (s.acquire p (BUFMAP_HASH dev blockno)).map (fun s =>
      match bucketLookup s dev blockno with
      | some b => (s.setRefcnt b ((s.buf b).refcnt + 1)).goto p
          (.getHit (BUFMAP_HASH dev blockno) b)
      | none => s.goto p (.getMiss dev blockno))
  | .getHit key b => some ((s.release key).goto p (.sleepAcquire b))
  | .getMiss dev blockno =>
    some ((s.release (BUFMAP_HASH dev blockno)).goto p (.evictAcquire dev blockno))
  | .evictAcquire dev blockno =>
    if s.evictionLock = none then
      let s := { s with evictionLock := some p }
      -- the bucket lock is not held here
      match bucketLookup s dev blockno with
      | some b => some (s.goto p (.recheckAcquire b dev blockno))
      | none => scanNext s p 0 none none dev blockno
    else none
  | .recheckAcquire b dev blockno =>
    (s.acquire p (BUFMAP_HASH dev blockno)).map (fun s =>
      (s.setRefcnt b ((s.buf b).refcnt + 1)).goto p
        (.recheckRelease (BUFMAP_HASH dev blockno) b))
  | .recheckRelease key b => some ((s.release key).goto p (.recheckDone b))
  | .recheckDone b =>
    some (State.goto { s with evictionLock := none } p (.sleepAcquire b))
  | .scanAcquire i least holding dev blockno =>
    if h : i < NBUFMAP_BUCKET then
      (s.acquire p ⟨i, h⟩).bind (fun s =>
        match scanBucket s (B+1) (.head ⟨i, h⟩) least false with
        -- no better one here: the bucket is let go
        | (least, false) =>
          some (s.goto p (.scanRelease (i+1) ⟨i, h⟩ least holding dev blockno))
        | (least, true) =>
          match holding with
          -- a better one: the bucket of the one before is let go
          | some j => some (s.goto p (.scanRelease (i+1) j least (some ⟨i, h⟩) dev blockno))
          | none => scanNext s p (i+1) least (some ⟨i, h⟩) dev blockno)
    else none
  | .scanRelease i j least holding dev blockno =>
    scanNext (s.release j) p i least holding dev blockno
  | .moveRelease h b dev blockno => some ((s.release h).goto p (.moveAcquire b dev blockno))
  | .moveAcquire b dev blockno =>
    let key := BUFMAP_HASH dev blockno
    (s.acquire p key).map (fun s =>
      let s := { s with
        next := Function.update (Function.update s.next b (s.next (.head key))) (.head key) b }
      (s.assign b dev blockno).goto p (.assignRelease key b))
  | .assignRelease key b => some ((s.release key).goto p (.assignDone b))
  | .assignDone b => some (State.goto { s with evictionLock := none } p (.sleepAcquire b))
  | .sleepAcquire b =>
    if s.sleep b = none then
      some (State.goto { s with sleep := Function.update s.sleep b (some p) } p .idle)
    else none
  | .brelseAcquire key b =>
    (s.acquire p key).map (fun s =>
      let n := (s.buf b).refcnt - 1
      State.goto { s with
        buf := Function.update s.buf b
          { (s.buf b) with
            refcnt := n
            lastuse := if n = 0 then s.ticks else (s.buf b).lastuse } } p (.bucketRelease key))
  | .bpinAcquire key b =>
    (s.acquire p key).map (fun s =>
      State.goto { s.setRefcnt b ((s.buf b).refcnt + 1) with
        pins := Function.update s.pins b (s.pins b + 1) } p (.bucketRelease key))
  | .bunpinAcquire key b =>
    (s.acquire p key).map (fun s =>
      (s.setRefcnt b ((s.buf b).refcnt - 1)).goto p (.bucketRelease key))
  | .bucketRelease key => some ((s.release key).goto p .idle)

inductive Event (B P : Nat) where
  | bget (p : Fin P) (dev blockno : UInt32)
  | brelse (p : Fin P) (b : Ptr B)
  | bpin (p : Fin P) (b : Ptr B)
  | bunpin (p : Fin P) (b : Ptr B)
  | advance (p : Fin P)
  | tick

/-- The bucket of the block that `b` holds. -/
def State.keyOf (s : State B P) (b : Ptr B) : Bucket :=
  BUFMAP_HASH (s.buf b).dev (s.buf b).blockno

/-- A process starts a call when it is in none. brelse and bpin are called by the holder
of the sleep lock, bunpin undoes an earlier bpin. -/
def step (s : State B P) : Event B P → Option (State B P)
  | .bget p dev blockno =>
    if s.pc p = .idle then some (s.goto p (.getAcquire dev blockno)) else none
  | .brelse p b =>
    if s.pc p = .idle ∧ s.sleep b = some p then
      some (State.goto { s with sleep := Function.update s.sleep b none } p
        (.brelseAcquire (s.keyOf b) b))
    else none
  | .bpin p b =>
    if s.pc p = .idle ∧ s.sleep b = some p then
      some (s.goto p (.bpinAcquire (s.keyOf b) b))
    else none
  | .bunpin p b =>
    if s.pc p = .idle ∧ 0 < s.pins b then
      some (State.goto { s with pins := Function.update s.pins b (s.pins b - 1) } p
        (.bunpinAcquire (s.keyOf b) b))
    else none
  | .advance p => Bcache.advance s p
  | .tick => some { s with ticks := s.ticks + 1 }

/-- Bucket 0, where binit puts all buffers. -/
def bucket0 : Bucket := ⟨0, by decide⟩

/-- One round of binit's loop: put buffer `b` at the head of bucket 0. -/
def binitPush (next : Ptr B → Ptr B) (b : Fin B) : Ptr B → Ptr B :=
  Function.update (Function.update next (.buf b) (next (.head bucket0))) (.head bucket0) (.buf b)

/-- The state after binit; the buffers' memory is zero. -/
def binit (B P : Nat) : State B P where
  next := (List.finRange B).foldl binitPush (fun _ => .null)
  buf := fun _ => ⟨0, 0, 0, 0, false⟩
  bucketLock := fun _ => none
  evictionLock := none
  sleep := fun _ => none
  pins := fun _ => 0
  ticks := 0
  pc := fun _ => .idle

end Xv6Labs.Bcache
