import Xv6Labs.Runs
import Mathlib.Logic.Function.Basic

/-! virtio_disk.c: the driver of the disk, and the device as the driver relies on it. A thread is
a process in virtio_disk_rw or a run of virtio_disk_intr; a step is what it does between two
points where the device or another thread can be seen. Registers that only tell the device to
look at the ring, or that acknowledge an interrupt, are left out. -/
namespace Xv6Labs.Virtio

def NUM : Nat := 8

def BSIZE : Nat := 1024

def VRING_DESC_F_NEXT : UInt16 := 1

def VRING_DESC_F_WRITE : UInt16 := 2

/-- What a descriptor points to: `disk.ops[i]`, `b->data` or `disk.info[i].status`. -/
inductive Addr (B : Type)
  | null
  | op (i : Nat)
  | data (b : B)
  | status (i : Nat)
  deriving DecidableEq

/-- struct virtq_desc -/
structure Desc (B : Type) where
  addr : Addr B
  len : UInt32
  flags : UInt16
  next : Nat
  deriving DecidableEq

inductive ReqType
  | blkIn
  | blkOut
  deriving DecidableEq

/-- struct virtio_blk_req -/
structure BlkReq where
  type : ReqType
  reserved : UInt32
  sector : UInt64
  deriving DecidableEq

/-- The array `idx` of virtio_disk_rw. -/
structure Idx where
  d0 : Nat
  d1 : Nat
  d2 : Nat
  deriving DecidableEq

/-- Where a thread is. After the avail index has moved a call also carries the number of its
entry, counted from the first one. -/
inductive PC (B : Type)
  | idle
  /-- `acquire(&disk.vdisk_lock)`, at the start and at the end of sleep -/
  | acquire (b : B) (write : Bool)
  | alloc (b : B) (write : Bool)
  /-- `sleep(&disk.free[0], &disk.vdisk_lock)` -/
  | asleepFree (b : B) (write : Bool)
  | format (b : B) (write : Bool) (idx : Idx)
  | ring (b : B) (write : Bool) (idx : Idx)
  | bump (b : B) (write : Bool) (idx : Idx)
  /-- `while(b->disk == 1)` -/
  | wait (b : B) (write : Bool) (idx : Idx) (k : Nat)
  /-- `sleep(b, &disk.vdisk_lock)` -/
  | asleepBuf (b : B) (write : Bool) (idx : Idx) (k : Nat)
  | reacquire (b : B) (write : Bool) (idx : Idx) (k : Nat)
  | intrAcquire
  | intrLoop
  deriving DecidableEq

/-- The channels of the two calls of sleep. -/
inductive Chan (B : Type)
  | free
  | buf (b : B)

/-- What the device has read of the chain that starts at `head`, for the `k`-th entry. -/
structure Taken (B : Type) where
  k : Nat
  head : Nat
  req : Option BlkReq
  data : Addr B
  status : Addr B
  deriving DecidableEq

/-- struct disk with the rings, the fields `disk`, `blockno` and `lock` of the buffers, the
threads, and the device's index and its work. `requests` are the entries of the avail ring,
`completed` the numbers of those that the device has put into the used ring, `cleared` the buffers
whose flag virtio_disk_intr has cleared and `returned` the numbers of the calls that are over. -/
structure State (P B : Type) where
  desc : Nat → Desc B
  availRing : Nat → Nat
  availIdx : UInt16
  usedRing : Nat → Nat
  usedRingIdx : UInt16
  free : Nat → Bool
  usedIdx : UInt16
  infoB : Nat → Option B
  status : Nat → UInt8
  ops : Nat → BlkReq
  blockno : B → UInt32
  disk : B → Bool
  owner : B → Option P
  lock : Option P
  pc : P → PC B
  panicked : Option String
  lastAvail : UInt16
  inflight : List (Taken B)
  consumed : Nat
  requests : List (B × Bool × Idx)
  completed : List Nat
  cleared : List B
  returned : List Nat

variable {P B : Type}

section Driver

variable [DecidableEq B]

/-- A sleeper on `chan` goes on to take the lock again. -/
def PC.wake (chan : Chan B) : PC B → PC B
  | .asleepFree b w =>
    match chan with
    | .free => .acquire b w
    | .buf _ => .asleepFree b w
  | .asleepBuf b w idx k =>
    match chan with
    | .free => .asleepBuf b w idx k
    | .buf c => if c = b then .reacquire b w idx k else .asleepBuf b w idx k
  | q => q

/-- kill ends any sleep. -/
def PC.kill : PC B → PC B
  | .asleepFree b w => .acquire b w
  | .asleepBuf b w idx k => .reacquire b w idx k
  | q => q

def State.wakeup (s : State P B) (chan : Chan B) : State P B :=
  { s with pc := fun q => (s.pc q).wake chan }

def State.panic (s : State P B) (msg : String) : State P B := { s with panicked := some msg }

def allocDesc (s : State P B) : Option Nat × State P B :=
  match (List.range NUM).find? s.free with
  | some i => (some i, { s with free := Function.update s.free i false })
  | none => (none, s)

def freeDesc (s : State P B) (i : Nat) : State P B :=
  if NUM ≤ i then s.panic "free_desc 1"
  else if s.free i then s.panic "free_desc 2"
  else
    State.wakeup { s with desc := Function.update s.desc i ⟨.null, 0, 0, 0⟩,
                          free := Function.update s.free i true } .free

/-- The loop of free_chain; after `NUM` rounds that free something a round panics. -/
def freeChain : Nat → State P B → Nat → State P B
  | 0, s, _ => s.panic "free_chain"
  | n + 1, s, i =>
    let flag := (s.desc i).flags
    let nxt := (s.desc i).next
    let s := freeDesc s i
    if s.panicked ≠ none then s
    else if flag &&& VRING_DESC_F_NEXT ≠ 0 then freeChain n s nxt
    else s

/-- When a descriptor is missing those that it got before are given back. -/
def alloc3Desc (s : State P B) : Option Idx × State P B :=
  match allocDesc s with
  | (none, s) => (none, s)
  | (some d0, s) =>
    match allocDesc s with
    | (none, s) => (none, freeDesc s d0)
    | (some d1, s) =>
      match allocDesc s with
      | (none, s) => (none, freeDesc (freeDesc s d0) d1)
      | (some d2, s) => (some ⟨d0, d1, d2⟩, s)

/-- The three descriptors are filled in, and the buffer is recorded for virtio_disk_intr. -/
def State.formatDescs (s : State P B) (b : B) (write : Bool) (idx : Idx) : State P B :=
  let sector := (s.blockno b * 2).toUInt64
  let flags := (if write then 0 else VRING_DESC_F_WRITE) ||| VRING_DESC_F_NEXT
  { s with
    ops := Function.update s.ops idx.d0 ⟨if write then .blkOut else .blkIn, 0, sector⟩
    desc := Function.update (Function.update (Function.update s.desc
      idx.d0 ⟨.op idx.d0, 16, VRING_DESC_F_NEXT, idx.d1⟩)
      idx.d1 ⟨.data b, BSIZE.toUInt32, flags, idx.d2⟩)
      idx.d2 ⟨.status idx.d0, 1, VRING_DESC_F_WRITE, 0⟩
    status := Function.update s.status idx.d0 0xff
    disk := Function.update s.disk b true
    infoB := Function.update s.infoB idx.d0 (some b) }

variable [DecidableEq P]

def State.goto (s : State P B) (p : P) (q : PC B) : State P B :=
  { s with pc := Function.update s.pc p q }

def State.acquire (s : State P B) (p : P) : Option (State P B) :=
  if s.lock = none then some { s with lock := some p } else none

def State.release (s : State P B) : State P B := { s with lock := none }

/-- One round of the loop of virtio_disk_intr. -/
def intrLoop (s : State P B) (p : P) : State P B :=
  if s.usedIdx = s.usedRingIdx then s.release.goto p .idle
  else
    let id := s.usedRing (s.usedIdx.toNat % NUM)
    if s.status id ≠ 0 then s.panic "virtio_disk_intr status"
    else
      match s.infoB id with
      -- b is the null pointer, and the write to b->disk faults
      | none => s.panic "kerneltrap"
      | some b =>
        State.wakeup { s with disk := Function.update s.disk b false, usedIdx := s.usedIdx + 1,
                              cleared := s.cleared ++ [b] } (.buf b)

/-- The next step of thread `p`. -/
def advance (s : State P B) (p : P) : Option (State P B) :=
  match s.pc p with
  | .idle | .asleepFree .. | .asleepBuf .. => none
  | .acquire b w => (s.acquire p).map (fun s => s.goto p (.alloc b w))
  | .alloc b w =>
    match alloc3Desc s with
    | (some idx, s) => some (s.goto p (.format b w idx))
    | (none, s) => some (s.release.goto p (.asleepFree b w))
  | .format b w idx => some ((s.formatDescs b w idx).goto p (.ring b w idx))
  | .ring b w idx =>
    some (State.goto { s with
      availRing := Function.update s.availRing (s.availIdx.toNat % NUM) idx.d0 } p (.bump b w idx))
  | .bump b w idx =>
    some (State.goto { s with availIdx := s.availIdx + 1, requests := s.requests ++ [(b, w, idx)] }
      p (.wait b w idx s.requests.length))
  | .wait b w idx k =>
    -- virtio_disk_intr has not cleared b->disk yet
    if s.disk b then some (s.release.goto p (.asleepBuf b w idx k))
    else
      let s := freeChain (NUM + 1)
        { s with infoB := Function.update s.infoB idx.d0 none } idx.d0
      if s.panicked ≠ none then some s
      else some (State.goto { s.release with returned := s.returned ++ [k] } p .idle)
  | .reacquire b w idx k => (s.acquire p).map (fun s => s.goto p (.wait b w idx k))
  | .intrAcquire => (s.acquire p).map (fun s => s.goto p .intrLoop)
  | .intrLoop => some (intrLoop s p)

end Driver

section Device

/-- The device follows the chain that starts at `head`. -/
def readChain (s : State P B) (head : Nat) : Taken B :=
  let d0 := s.desc head
  let d1 := s.desc d0.next
  let d2 := s.desc d1.next
  { k := s.consumed, head := head, req := match d0.addr with | .op i => some (s.ops i) | _ => none,
    data := d1.addr, status := d2.addr }

/-- The device takes the next entry of the avail ring. -/
def consume (s : State P B) : Option (State P B) :=
  if s.lastAvail = s.availIdx then none
  else
    some { s with inflight := s.inflight ++ [readChain s (s.availRing (s.lastAvail.toNat % NUM))],
                  lastAvail := s.lastAvail + 1, consumed := s.consumed + 1 }

/-- The device is done with a request: status 0, then an entry in the used ring. -/
def complete [DecidableEq B] (s : State P B) (r : Taken B) : Option (State P B) :=
  if r ∈ s.inflight then
    some { s with
      inflight := s.inflight.erase r
      status := match r.status with | .status i => Function.update s.status i 0 | _ => s.status
      usedRing := Function.update s.usedRing (s.usedRingIdx.toNat % NUM) r.head
      usedRingIdx := s.usedRingIdx + 1
      completed := s.completed ++ [r.k] }
  else none

end Device

inductive Event (P B : Type)
  /-- acquiresleep and releasesleep on `b->lock` -/
  | acquiresleep (p : P) (b : B)
  | releasesleep (p : P) (b : B)
  | virtioDiskRw (p : P) (b : B) (write : Bool)
  | virtioDiskIntr (p : P)
  | advance (p : P)
  | kill (p : P)
  | consume
  | complete (r : Taken B)

variable [DecidableEq P] [DecidableEq B]

/-- A caller of virtio_disk_rw has the sleep lock of the buffer. -/
def step (s : State P B) (e : Event P B) : Option (State P B) :=
  if s.panicked ≠ none then none
  else
    match e with
    | .acquiresleep p b =>
      if s.pc p = .idle ∧ s.owner b = none then
        some { s with owner := Function.update s.owner b (some p) }
      else none
    | .releasesleep p b =>
      if s.pc p = .idle ∧ s.owner b = some p then
        some { s with owner := Function.update s.owner b none }
      else none
    | .virtioDiskRw p b write =>
      if s.pc p = .idle ∧ s.owner b = some p then some (s.goto p (.acquire b write)) else none
    | .virtioDiskIntr p => if s.pc p = .idle then some (s.goto p .intrAcquire) else none
    | .advance p => advance s p
    | .kill p => some (s.goto p (s.pc p).kill)
    | .consume => consume s
    | .complete r => complete s r

/-- After virtio_disk_init. -/
def virtioDiskInit (P : Type) (blockno : B → UInt32) : State P B where
  desc := fun _ => ⟨.null, 0, 0, 0⟩
  availRing := fun _ => 0
  availIdx := 0
  usedRing := fun _ => 0
  usedRingIdx := 0
  free := fun _ => true
  usedIdx := 0
  infoB := fun _ => none
  status := fun _ => 0
  ops := fun _ => ⟨.blkIn, 0, 0⟩
  blockno := blockno
  disk := fun _ => false
  owner := fun _ => none
  lock := none
  pc := fun _ => .idle
  panicked := none
  lastAvail := 0
  inflight := []
  consumed := 0
  requests := []
  completed := []
  cleared := []
  returned := []

end Xv6Labs.Virtio
