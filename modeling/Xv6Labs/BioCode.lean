import Xv6Labs.BcacheCode

/-! The buffer caches of locks/bio.c and of `file system`/kernel/bio.c as one process uses them,
one call after the other, with the contents of the buffers: a hash table with a search for the
least recently used buffer, and a list in the order of use. Chains are lists of buffers. The steps
of locks/bio.c between its locks are in BcacheCode; one process alone takes them to the same end
(`bget_run`, `brelse_run`). -/
namespace Xv6Labs.Bio
open Bcache (BUFMAP_HASH NBUFMAP_BUCKET Bucket)

section Buffers

/-- The device of the file system, the only one in use. -/
def ROOTDEV : UInt32 := 1

/-- A `struct buf`, apart from its links. The uint `refcnt` counts at most one holder and the pins,
of which there are fewer than 2^32. -/
structure Buf (D : Type) where
  dev : UInt32
  blockno : UInt32
  valid : Bool
  locked : Bool
  refcnt : Nat
  lastuse : Nat
  data : D

/-- The buffers, and the disk: the blocks by their first sector. -/
structure Bufs (B : Nat) (D : Type) where
  buf : Fin B → Buf D
  disk : Nat → D

variable {B : Nat} {D : Type}

def Bufs.set (c : Bufs B D) (b : Fin B) (v : Buf D) : Bufs B D :=
  { c with buf := Function.update c.buf b v }

/-- `uint64 sector = b->blockno * (BSIZE / 512);`, which is a product of uints. -/
def sector (blockno : UInt32) : Nat := (blockno * 2).toNat

/-- virtio_disk_rw, which does not look at `b->dev`. -/
def Bufs.virtioDiskRw (c : Bufs B D) (b : Fin B) (write : Bool) : Bufs B D :=
  let v := c.buf b
  if write then { c with disk := Function.update c.disk (sector v.blockno) v.data }
  else c.set b { v with data := c.disk (sector v.blockno) }

/-- acquiresleep; a process that has the lock itself sleeps for ever. -/
def Bufs.acquiresleep (c : Bufs B D) (b : Fin B) : Option (Bufs B D) :=
  if (c.buf b).locked then none else some (c.set b { c.buf b with locked := true })

def Bufs.releasesleep (c : Bufs B D) (b : Fin B) : Bufs B D :=
  c.set b { c.buf b with locked := false }

def Bufs.Matches (c : Bufs B D) (dev blockno : UInt32) (b : Fin B) : Bool :=
  (c.buf b).dev == dev && (c.buf b).blockno == blockno

/-- `b->refcnt++; acquiresleep(&b->lock);` -/
def Bufs.share (c : Bufs B D) (b : Fin B) : Option (Bufs B D) :=
  (c.set b { c.buf b with refcnt := (c.buf b).refcnt + 1 }).acquiresleep b

/-- The buffer gets another block. -/
def Bufs.recycle (c : Bufs B D) (b : Fin B) (dev blockno : UInt32) : Option (Bufs B D) :=
  (c.set b
    { c.buf b with dev := dev, blockno := blockno, refcnt := 1, valid := false }).acquiresleep b

/-- bread after bget. -/
def Bufs.fill (c : Bufs B D) (b : Fin B) : Bufs B D :=
  if (c.buf b).valid then c
  else
    let c := c.virtioDiskRw b false
    c.set b { c.buf b with valid := true }

def Bufs.bwrite (c : Bufs B D) (b : Fin B) : Option (Bufs B D) :=
  if (c.buf b).locked then some (c.virtioDiskRw b true) else none

def Bufs.bpin (c : Bufs B D) (b : Fin B) : Bufs B D :=
  c.set b { c.buf b with refcnt := (c.buf b).refcnt + 1 }

def Bufs.bunpin (c : Bufs B D) (b : Fin B) : Bufs B D :=
  c.set b { c.buf b with refcnt := (c.buf b).refcnt - 1 }

end Buffers

section Caches

variable {B : Nat} {D : Type}

/-- A cache: its buffers, and the two functions that the two files have each their own way. -/
structure Cache (B : Nat) (D S : Type) where
  bufs : S → Bufs B D
  setBufs : S → Bufs B D → S
  bget : S → UInt32 → UInt32 → Option (S × Fin B)
  brelse : S → Fin B → Nat → Option S

/-- locks/bio.c -/
structure Hashed (B : Nat) (D : Type) where
  bufs : Bufs B D
  bufmap : Bucket → List (Fin B)

/-- The search of one bucket for the least recently used buffer. -/
def scanBucket (c : Bufs B D) (i : Bucket) :
    List (Fin B) → Option (Bucket × Fin B) → Option (Bucket × Fin B)
  | [], least => least
  | b :: rest, least =>
    if (c.buf b).refcnt = 0 ∧ least.all (fun l => (c.buf b).lastuse < (c.buf l.2).lastuse) then
      scanBucket c i rest (some (i, b))
    else scanBucket c i rest least

def Hashed.least (s : Hashed B D) : Option (Bucket × Fin B) :=
  (List.finRange NBUFMAP_BUCKET).foldl (fun l i => scanBucket s.bufs i (s.bufmap i) l) none

/-- bget; the second lookup, under the eviction lock, finds what the first has found. -/
def Hashed.bget (s : Hashed B D) (dev blockno : UInt32) : Option (Hashed B D × Fin B) :=
  let key := BUFMAP_HASH dev blockno
  match (s.bufmap key).find? (s.bufs.Matches dev blockno) with
  | some b => (s.bufs.share b).map (fun c => ({ s with bufs := c }, b))
  | none =>
    match s.least with
    | none => none
    | some (holding, b) =>
      let rest := Function.update s.bufmap holding ((s.bufmap holding).erase b)
      let bufmap := if holding = key then s.bufmap else Function.update rest key (b :: rest key)
      (s.bufs.recycle b dev blockno).map (fun c => (⟨c, bufmap⟩, b))

def Hashed.brelse (s : Hashed B D) (b : Fin B) (ticks : Nat) : Option (Hashed B D) :=
  if (s.bufs.buf b).locked then
    let c := s.bufs.releasesleep b
    let v := { c.buf b with refcnt := (c.buf b).refcnt - 1 }
    some { s with bufs := c.set b (if v.refcnt = 0 then { v with lastuse := ticks } else v) }
  else none

def hashed : Cache B D (Hashed B D) where
  bufs := Hashed.bufs
  setBufs s c := { s with bufs := c }
  bget := Hashed.bget
  brelse := Hashed.brelse

/-- `file system`/kernel/bio.c; the list is `head.next` and so on. -/
structure Listed (B : Nat) (D : Type) where
  bufs : Bufs B D
  list : List (Fin B)

def Listed.bget (s : Listed B D) (dev blockno : UInt32) : Option (Listed B D × Fin B) :=
  match s.list.find? (s.bufs.Matches dev blockno) with
  | some b => (s.bufs.share b).map (fun c => ({ s with bufs := c }, b))
  | none =>
    match s.list.reverse.find? (fun b => (s.bufs.buf b).refcnt = 0) with
    | none => none
    | some b => (s.bufs.recycle b dev blockno).map (fun c => ({ s with bufs := c }, b))

def Listed.brelse (s : Listed B D) (b : Fin B) : Option (Listed B D) :=
  if (s.bufs.buf b).locked then
    let c := s.bufs.releasesleep b
    let v := { c.buf b with refcnt := (c.buf b).refcnt - 1 }
    some ⟨c.set b v, if v.refcnt = 0 then b :: s.list.erase b else s.list⟩
  else none

def listed : Cache B D (Listed B D) where
  bufs := Listed.bufs
  setBufs s c := { s with bufs := c }
  bget := Listed.bget
  brelse s b _ := s.brelse b

/-- binit, over a disk; the buffers are zero but for their data. -/
def bootBufs (junk : Fin B → D) (disk : Nat → D) : Bufs B D :=
  ⟨fun b => ⟨0, 0, false, false, 0, 0, junk b⟩, disk⟩

def Hashed.binit (junk : Fin B → D) (disk : Nat → D) : Hashed B D :=
  ⟨bootBufs junk disk, fun i => if i = BUFMAP_HASH 0 0 then (List.finRange B).reverse else []⟩

def Listed.binit (junk : Fin B → D) (disk : Nat → D) : Listed B D :=
  ⟨bootBufs junk disk, (List.finRange B).reverse⟩

end Caches

section Programs

/-- A call; a buffer is named by the block that it was read for. -/
inductive Op (D : Type) where
  | bread (blockno : UInt32)
  | modify (blockno : UInt32) (f : D → D)
  | bwrite (blockno : UInt32)
  | brelse (blockno : UInt32) (ticks : Nat)
  | bpin (blockno : UInt32)
  | bunpin (blockno : UInt32)

/-- A cache, and the variables in which its user keeps what bread has returned. -/
structure Prog (B : Nat) (S : Type) where
  cache : S
  var : UInt32 → Option (Fin B)

variable {B : Nat} {D S : Type}

/-- The buffers of the cache are changed. -/
def Cache.put (k : Cache B D S) (s : Prog B S) (c : Bufs B D) : Prog B S × Option D :=
  ({ s with cache := k.setBufs s.cache c }, none)

/-- A call and, for bread, the contents it returns. There is no step where the kernel panics or
where the process would sleep for ever. -/
def Cache.step (k : Cache B D S) (s : Prog B S) : Op D → Option (Prog B S × Option D)
  | .bread blockno =>
    (k.bget s.cache ROOTDEV blockno).map (fun r =>
      let c := (k.bufs r.1).fill r.2
      (⟨k.setBufs r.1 c, Function.update s.var blockno (some r.2)⟩, some (c.buf r.2).data))
  | .modify blockno f =>
    (s.var blockno).map (fun b =>
      let c := k.bufs s.cache
      k.put s (c.set b { c.buf b with data := f (c.buf b).data }))
  | .bwrite blockno =>
    (s.var blockno).bind (fun b => ((k.bufs s.cache).bwrite b).map (k.put s))
  | .brelse blockno ticks =>
    (s.var blockno).bind (fun b =>
      (k.brelse s.cache b ticks).map (fun s' => ({ s with cache := s' }, none)))
  | .bpin blockno => (s.var blockno).map (fun b => k.put s ((k.bufs s.cache).bpin b))
  | .bunpin blockno => (s.var blockno).map (fun b => k.put s ((k.bufs s.cache).bunpin b))

end Programs

end Xv6Labs.Bio
