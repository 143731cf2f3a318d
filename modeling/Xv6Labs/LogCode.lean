import Xv6Labs.ByteWords
import Xv6Labs.Runs
import Xv6Labs.RedoLog

/-! log.c of the `file system` kernel, one disk write at a time. The system calls open and
close operations and log blocks; log_write makes its tests one by one, without log.lock, and
appends under it; the last end_op commits; a crash may come before any disk write, also during
recovery. -/
namespace Xv6Labs.Log

def MAXOPBLOCKS : Nat := 10
def LOGSIZE : Nat := MAXOPBLOCKS*3

/-- Where commit or recovery stands: the next thing it does. -/
inductive Phase where
  /-- no commit is going on -/
  | running
  /-- write_log, about to write log block `tail` -/
  | writeLog (tail : Nat)
  /-- install_trans(0), about to install log block `tail` -/
  | install (tail : Nat)
  /-- commit has returned to end_op -/
  | finish
  /-- the machine has just started, about to call read_head -/
  | boot
  /-- install_trans(1), about to install log block `tail` -/
  | recover (tail : Nat)
  deriving DecidableEq

/-- System calls wait until recover_from_log has returned. -/
def Phase.recovering : Phase → Bool
  | .boot | .recover _ => true
  | _ => false

/-- A block write made by operation `op`. -/
structure Write where
  op : Nat
  block : Nat
  data : Bytes

def Write.store (w : Write) : Nat × Bytes := (w.block, w.data)

/-- Where a call of log_write stands: at one of its tests, or before it takes log.lock. -/
inductive Stage where
  | logsize
  | size
  | outstanding
  | append
  deriving DecidableEq

/-- A call of log_write with a buffer whose data the operation has changed. The operation has
the buffer's lock until after the call, so nobody reads the data before they are logged. -/
structure Call where
  block : Nat
  data : Bytes
  stage : Stage

/-- The log, the disk and the buffer cache. `cache b` is what bread of block `b` answers;
`pinned` lists the blocks bpin keeps in the cache; `calls` has the log_write that an operation
is in. The fields from `active` on are not in the kernel: they record the running operations,
every write of the run, the writes of the open group, the groups whose first write_head reached
the disk and those whose commit returned. -/
structure State where
  start : Nat
  size : Nat
  disk : Nat → Bytes
  cache : Nat → Bytes
  pinned : List Nat
  outstanding : Nat
  committing : Bool
  lh : List Nat
  phase : Phase
  calls : Nat → Option Call
  active : List Nat
  nextOp : Nat
  history : List Write
  pending : List Write
  groups : List (List Write)
  returned : List (List Write)

/-- Store the words `xs` into a block from word `k` on. -/
def storeWords : Bytes → Nat → List Nat → Bytes
  | b, _, [] => b
  | b, k, x :: xs => storeWords (setUint b k x) (k+1) xs

/-- The header block that write_head builds in its buffer. -/
def headBlock (buf : Bytes) (lh : List Nat) : Bytes := storeWords (setUint buf 0 lh.length) 1 lh

/-- The header that read_head takes from a block. -/
def readHead (buf : Bytes) : List Nat :=
  (List.range (getUint buf 0)).map (fun i => getUint buf (i+1))

/-- Change a buffer and bwrite it. -/
def State.bwrite (s : State) (b : Nat) (data : Bytes) : State :=
  { s with cache := Function.update s.cache b data, disk := Function.update s.disk b data }

def State.writeHead (s : State) : State :=
  s.bwrite s.start (headBlock (s.cache s.start) s.lh)

/-- The body of install_trans's loop for log block `tail`, without the unpinning. -/
def State.installBlock (s : State) (tail b : Nat) : State :=
  s.bwrite b (s.cache (s.start + tail + 1))

/-- Blocks outside the log area. -/
def State.Home (s : State) (b : Nat) : Prop := b < s.start ∨ s.start + s.size ≤ b

instance (s : State) (b : Nat) : Decidable (s.Home b) := inferInstanceAs (Decidable (_ ∨ _))

inductive Event where
  | beginOp
  /-- log_write is called -/
  | logWrite (op b : Nat) (data : Bytes)
  /-- log_write goes on -/
  | logNext (op : Nat)
  | endOp (op : Nat)
  /-- commit, end_op after it, or recovery goes on -/
  | next
  /-- a buffer that is not pinned is recycled and read again -/
  | evict (b : Nat)
  | crash

/-- begin_op returns: a new operation has started. -/
def beginOp (s : State) : Option State :=
  if s.phase.recovering then none
  else if s.committing ∨ LOGSIZE < s.lh.length + (s.outstanding+1)*MAXOPBLOCKS then none
  else some { s with
    outstanding := s.outstanding + 1
    active := s.nextOp :: s.active
    nextOp := s.nextOp + 1 }

/-- An operation calls log_write. It has the buffer's lock, so no other log_write of the block
is going on. -/
def logWrite (s : State) (op b : Nat) (data : Bytes) : Option State :=
  if s.active.any (fun o => (s.calls o).any (fun c => o = op ∨ c.block = b)) then none
  else some { s with calls := Function.update s.calls op (some ⟨b, data, .logsize⟩) }

/-- The part of log_write under log.lock. A block that is already in the header is absorbed. -/
def append (s : State) (op : Nat) (c : Call) : State :=
  { s with
    calls := Function.update s.calls op none
    cache := Function.update s.cache c.block c.data
    lh := if c.block ∈ s.lh then s.lh else s.lh ++ [c.block]
    pinned := if c.block ∈ s.lh then s.pinned else s.pinned ++ [c.block]
    history := s.history ++ [⟨op, c.block, c.data⟩]
    pending := s.pending ++ [⟨op, c.block, c.data⟩] }

def State.atStage (s : State) (op : Nat) (c : Call) (stage : Stage) : State :=
  { s with calls := Function.update s.calls op (some { c with stage := stage }) }

/-- The next test of log_write, which panics or lets the call go on, or its append. -/
def advance (s : State) (op : Nat) (c : Call) : Option State :=
  match c.stage with
  -- the tests do not hold log.lock: another CPU may append between two of them
  | .logsize => if LOGSIZE ≤ s.lh.length then none else some (s.atStage op c .size)
  | .size => if s.size - 1 ≤ s.lh.length then none else some (s.atStage op c .outstanding)
  | .outstanding => if s.outstanding < 1 then none else some (s.atStage op c .append)
  | .append => some (append s op c)

/-- end_op up to the call of commit. -/
def endOp (s : State) (op : Nat) : Option State :=
  if s.committing then none
  else if s.outstanding - 1 = 0 then
    -- the last operation commits; with an empty header commit does nothing
    some { s with
      outstanding := s.outstanding - 1
      active := s.active.erase op
      committing := true
      phase := if 0 < s.lh.length then .writeLog 0 else .finish }
  else some { s with
    outstanding := s.outstanding - 1
    active := s.active.erase op }

/-- The next disk write of commit or recovery, with what the code does around it. -/
def next (s : State) : Option State :=
  match s.phase with
  | .running => none
  | .writeLog tail =>
    match s.lh[tail]? with
    | some b => some { s.bwrite (s.start + tail + 1) (s.cache b) with phase := .writeLog (tail+1) }
    -- write_head: from here on a crash keeps the group
    | none => some { s.writeHead with
      phase := .install 0
      groups := s.groups ++ [s.pending]
      pending := [] }
  | .install tail =>
    match s.lh[tail]? with
    | some b => some { s.installBlock tail b with
      pinned := s.pinned.erase b
      phase := .install (tail+1) }
    -- the empty header is written: the group is installed for good
    | none => some { State.writeHead { s with lh := [] } with
      phase := .finish
      returned := s.returned ++ [s.groups.getLastD []] }
  | .finish => some { s with committing := false, phase := .running }
  | .boot => some { s with lh := readHead (s.cache s.start), phase := .recover 0 }
  | .recover tail =>
    match s.lh[tail]? with
    | some b => some { s.installBlock tail b with phase := .recover (tail+1) }
    | none => some { State.writeHead { s with lh := [] } with phase := .running }

/-- Memory is lost; the disk stays. -/
def crash (s : State) : State :=
  { s with
    cache := s.disk
    pinned := []
    outstanding := 0
    committing := false
    lh := []
    phase := .boot
    calls := fun _ => none
    active := []
    pending := [] }

/-- One step of the system. Callers log blocks outside the log area, between their
begin_op and their end_op. -/
def step (s : State) : Event → Option State
  | .beginOp => beginOp s
  | .logWrite op b data =>
    if op ∈ s.active ∧ s.Home b ∧ b < 2^32 then logWrite s op b data else none
  | .logNext op => (s.calls op).bind (advance s op)
  | .endOp op => if op ∈ s.active ∧ (s.calls op).isNone then endOp s op else none
  | .next => next s
  | .evict b => if b ∈ s.pinned then none
    else some { s with cache := Function.update s.cache b (s.disk b) }
  | .crash => some (crash s)

/-- A log_write from its call to its return. -/
def logged (op b : Nat) (data : Bytes) : List Event :=
  [.logWrite op b data, .logNext op, .logNext op, .logNext op, .logNext op]

/-- A machine about to start on a disk whose log is empty. -/
def boot (start size : Nat) (disk : Nat → Bytes) : State where
  start := start
  size := size
  disk := disk
  cache := disk
  pinned := []
  outstanding := 0
  committing := false
  lh := []
  phase := .boot
  calls _ := none
  active := []
  nextOp := 0
  history := []
  pending := []
  groups := []
  returned := []

/-- The step appends a block that is new to the header. -/
def adds (s : State) : Event → Bool
  | .logNext op => (s.calls op).any (fun c => c.stage = .append ∧ c.block ∉ s.lh)
  | _ => false

/-- A group has at most LOGSIZE blocks. -/
def GroupFits (s : State) (e : Event) : Prop := adds s e = true → s.lh.length < LOGSIZE

/-- A block that is new to the header has a log block. -/
def LogFits (s : State) (e : Event) : Prop := adds s e = true → s.lh.length < s.size - 1

instance (s : State) (e : Event) : Decidable (GroupFits s e) :=
  inferInstanceAs (Decidable (_ → _))

instance (s : State) (e : Event) : Decidable (LogFits s e) :=
  inferInstanceAs (Decidable (_ → _))

/-- The disk after some groups. -/
def afterGroups (disk : Nat → Bytes) (groups : List (List Write)) : Nat → Bytes :=
  applyWrites disk (groups.flatten.map Write.store)

end Xv6Labs.Log
