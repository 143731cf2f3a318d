import Xv6Labs.FsLayout
import Mathlib.Data.List.Basic

/-! fs.c of the `file system` kernel: block allocation, the block map, truncation,
file data and the inode cache. A panic of the source is an error of the model. -/
namespace Xv6Labs.Fs

def bzero (s : State) (bno : Nat) : State := s.logWrite bno zeroBytes

/-- The inner loop of balloc over one bitmap block. -/
def ballocScan (s : State) (b : Nat) : Option Nat :=
  (List.range BPB).find?
    (fun bi => decide (b + bi < s.sb.size) && !getBit (s.block (BBLOCK s.sb b)) bi)

/-- Allocate a zeroed disk block. -/
def balloc (s : State) : Except Panic (Nat × State) :=
  -- b = 0, BPB, 2*BPB, ... while b < sb.size
  match (List.range ((s.sb.size + BPB - 1)/BPB)).findSome?
      (fun k => (ballocScan s (k*BPB)).map (fun bi => (k*BPB, bi))) with
  | none => .error .ballocOutOfBlocks
  | some (b, bi) =>
    let bp := BBLOCK s.sb b
    .ok (b + bi, bzero (s.logWrite bp (setBit (s.block bp) bi)) (b + bi))

/-- Free a disk block. -/
def bfree (s : State) (b : Nat) : Except Panic State :=
  let bp := BBLOCK s.sb b
  let bi := b%BPB
  if getBit (s.block bp) bi = false then .error .freeingFreeBlock
  else .ok (s.logWrite bp (clearBit (s.block bp) bi))

/-- `if((addr = ip->addrs[k]) == 0) ip->addrs[k] = addr = balloc(dev)`. -/
def slotAlloc (s : State) (i k : Nat) : Except Panic (Nat × State) :=
  if s.addr i k = 0 then do
    let (addr, s) ← balloc s
    .ok (addr, s.setAddr i k addr)
  else .ok (s.addr i k, s)

/-- `if((addr = a[k]) == 0){ a[k] = addr = balloc(dev); log_write(bp); }` for the
words `a` of block `b`. -/
def entryAlloc (s : State) (b k : Nat) : Except Panic (Nat × State) :=
  if getUint (s.block b) k = 0 then do
    let (addr, s) ← balloc s
    .ok (addr, s.logWrite b (setUint (s.block b) k addr))
  else .ok (getUint (s.block b) k, s)

/-- The disk block of the `bn`-th block of inode `i`, allocated on demand. The
doubly-indirect root `addrs[NDIRECT+1]` is read as it is: it is not allocated. -/
def bmap (s : State) (i bn : Nat) : Except Panic (Nat × State) :=
  if bn < NDIRECT then slotAlloc s i bn
  else if bn - NDIRECT < NINDIRECT then do
    let (addr, s) ← slotAlloc s i NDIRECT
    entryAlloc s addr (bn - NDIRECT)
  else if (bn - NDIRECT - NINDIRECT)/NINDIRECT < NINDIRECT then do
    let (addr, s) ← entryAlloc s (s.addr i (NDIRECT+1)) ((bn - NDIRECT - NINDIRECT)/NINDIRECT)
    entryAlloc s addr ((bn - NDIRECT - NINDIRECT)%NINDIRECT)
  else .error .bmapOutOfRange

/-- Copy the cached inode to its disk inode. -/
def iupdate (s : State) (i : Nat) : State :=
  { s with
    dinode := Function.update s.dinode i (s.icache i).copy
    logged := IBLOCK s.sb i :: s.logged }

/-- `bfree(dev, ip->addrs[k]); ip->addrs[k] = 0;` -/
def slotClear (i : Nat) (s : State) (k : Nat) : Except Panic State := do
  let s ← bfree s (s.addr i k)
  .ok (s.setAddr i k 0)

/-- The body of itrunc's loop over the direct slots. -/
def slotFree (i : Nat) (s : State) (k : Nat) : Except Panic State :=
  if s.addr i k ≠ 0 then slotClear i s k else .ok s

/-- `if(a[j]) bfree(dev, a[j])` for the words `a` of block `b`. -/
def entryFree (b : Nat) (s : State) (j : Nat) : Except Panic State :=
  if getUint (s.block b) j ≠ 0 then bfree s (getUint (s.block b) j) else .ok s

/-- The words of one singly-indirect block. -/
def freeIndirect (s : State) (b : Nat) : Except Panic State :=
  (List.range NINDIRECT).foldlM (entryFree b) s

/-- One word of a doubly-indirect block: the blocks below it, then itself. -/
def entryFree2 (b : Nat) (s : State) (j : Nat) : Except Panic State :=
  if getUint (s.block b) j ≠ 0 then do
    let s1 ← freeIndirect s (getUint (s.block b) j)
    bfree s1 (getUint (s1.block b) j)
  else .ok s

/-- Truncate inode `i`. -/
def itrunc (s : State) (i : Nat) : Except Panic State := do
  let s ← (List.range NDIRECT).foldlM (slotFree i) s
  let s ←
    if s.addr i NDIRECT ≠ 0 then do
      let s ← freeIndirect s (s.addr i NDIRECT)
      slotClear i s NDIRECT
    else .ok s
  let s ←
    -- the root of the second level goes after everything below it
    if s.addr i (NDIRECT+1) ≠ 0 then do
      let s ← (List.range NINDIRECT).foldlM (entryFree2 (s.addr i (NDIRECT+1))) s
      slotClear i s (NDIRECT+1)
    else .ok s
  .ok (iupdate (s.setSize i 0) i)

/-- The loop of readi. `ok tot m` tells whether either_copyout of the `m` bytes at
position `tot` succeeds; the bytes copied out so far are in `out`. The answer `none`
is the return value -1. -/
def readiLoop (s : State) (i : Nat) (ok : Nat → Nat → Bool) (off n tot : Nat)
    (out : List UInt8) : Except Panic (Option (List UInt8) × State) :=
  if tot < n then
    match bmap s i (off/BSIZE) with
    | .error p => .error p
    | .ok (addr, s1) =>
      let m := min (n - tot) (BSIZE - off%BSIZE)
      if ok tot m then
        readiLoop s1 i ok (off + m) n (tot + m)
          (out ++ (List.range m).map (fun j => s1.block addr (off%BSIZE + j)))
      else .ok (none, s1)
  else .ok (some out, s)
termination_by n - tot
decreasing_by
  have := Nat.mod_lt off (show 0 < BSIZE by decide)
  omega

/-- Read data from inode `i`: the bytes copied out, or `none` for -1. -/
def readi (s : State) (i : Nat) (ok : Nat → Nat → Bool) (off n : UInt32) :
    Except Panic (Option (List UInt8) × State) :=
  let size := (s.node i).size
  if off.toNat > size || off + n < off then .ok (some [], s)
  else
    let n := if (off + n).toNat > size then size - off.toNat else n.toNat
    readiLoop s i ok off.toNat n 0 []

/-- either_copyin into a buffer at position `o`: `m` bytes from position `tot` of the
source. An unreadable source byte is `none`; the bytes before it have been copied. -/
def eitherCopyin (blk : Bytes) (o : Nat) (src : Nat → Option UInt8) (tot m : Nat) :
    Bool × Bytes :=
  let c := ((List.range m).takeWhile (fun j => (src (tot + j)).isSome)).length
  (c == m, fun k => if o ≤ k ∧ k < o + c then (src (tot + (k - o))).getD 0 else blk k)

/-- The loop of writei; answers the final `tot` and `off`. -/
def writeiLoop (s : State) (i : Nat) (src : Nat → Option UInt8) (off n tot : Nat) :
    Except Panic ((Nat × Nat) × State) :=
  if tot < n then
    match bmap s i (off/BSIZE) with
    | .error p => .error p
    | .ok (addr, s1) =>
      let m := min (n - tot) (BSIZE - off%BSIZE)
      let r := eitherCopyin (s1.block addr) (off%BSIZE) src tot m
      if r.1 then writeiLoop (s1.logWrite addr r.2) i src (off + m) n (tot + m)
      -- what was copied of the chunk stays in the buffer and is not counted
      else .ok ((tot, off), s1.modify addr r.2)
  else .ok ((tot, off), s)
termination_by n - tot
decreasing_by
  have := Nat.mod_lt off (show 0 < BSIZE by decide)
  omega

/-- Write data to inode `i`; `none` is the return value -1. -/
def writei (s : State) (i : Nat) (src : Nat → Option UInt8) (off n : UInt32) :
    Except Panic (Option Nat × State) :=
  if off.toNat > (s.node i).size || off + n < off then .ok (none, s)
  else if (off + n).toNat > MAXFILE*BSIZE then .ok (none, s)
  else do
    let ((tot, off), s) ← writeiLoop s i src off.toNat n.toNat 0
    let s := if off > (s.node i).size then s.setSize i off else s
    .ok (some tot, iupdate s i)

/-- Find or make the cache entry of inode `i` and take a reference. The cache has
`NINODE` entries; an entry whose `ref` is 0 is free. -/
def iget (s : State) (i : Nat) : Except Panic State :=
  if (s.icache i).ref > 0 then .ok { s with
    icache := Function.update s.icache i
      { (s.icache i) with ref := (s.icache i).ref + 1 } }
  else if NINODE ≤ (List.range s.sb.ninodes).countP (fun j => decide ((s.icache j).ref > 0)) then
    .error .igetNoInodes
  else .ok { s with
    icache := Function.update s.icache i { (s.icache i) with ref := 1, valid := false } }

/-- Lock inode `i`, reading it from disk if necessary. -/
def ilock (s : State) (i : Nat) : Except Panic State :=
  if (s.icache i).ref < 1 then .error .ilock
  else if (s.icache i).valid then .ok s
  else if (s.dinode i).type = 0 then .error .ilockNoType
  else .ok { s with
    icache := Function.update s.icache i
      { (s.icache i) with valid := true, copy := s.dinode i } }

def emptyDinode (type : Nat) : Dinode := ⟨type, 0, 0, 0, 0, fun _ => 0⟩

/-- Allocate a free disk inode and take a reference to it. -/
def ialloc (s : State) (type : Nat) : Except Panic (Nat × State) :=
  match (List.range' 1 (s.sb.ninodes - 1)).find? (fun i => (s.dinode i).type == 0) with
  | none => .error .iallocNoInodes
  | some i => do
    let s ← iget { s with
      dinode := Function.update s.dinode i (emptyDinode type)
      logged := IBLOCK s.sb i :: s.logged } i
    .ok (i, s)

/-- Drop a reference; the last one frees an inode without links. -/
def iput (s : State) (i : Nat) : Except Panic State := do
  let s ←
    if (s.icache i).ref = 1 ∧ (s.icache i).valid ∧ (s.icache i).copy.nlink = 0 then do
      let s ← itrunc s i
      let s := iupdate (s.setCopy i { (s.icache i).copy with type := 0 }) i
      .ok { s with
        icache := Function.update s.icache i { (s.icache i) with valid := false } }
    else .ok s
  .ok { s with
    icache := Function.update s.icache i { (s.icache i) with ref := (s.icache i).ref - 1 } }

end Xv6Labs.Fs
