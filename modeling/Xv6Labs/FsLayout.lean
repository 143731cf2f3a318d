import Xv6Labs.ByteWords

/-! The data of the `file system` kernel (fs.h, file.h, fs.c): the disk as the
buffer cache shows it, the inodes on disk and the in-memory inodes. -/
namespace Xv6Labs.Fs

def BSIZE : Nat := 1024
def NDIRECT : Nat := 11
def NINDIRECT : Nat := BSIZE/4
def MAXFILE : Nat := NINDIRECT*NINDIRECT + NINDIRECT + NDIRECT
def BPB : Nat := BSIZE*8
/-- Inodes per block; a `struct dinode` is 64 bytes. -/
def IPB : Nat := BSIZE/64

/-- Entries of the inode cache. -/
def NINODE : Nat := 50

theorem BSIZE_eq : BSIZE = 1024 := rfl
theorem NDIRECT_eq : NDIRECT = 11 := rfl
theorem NINDIRECT_eq : NINDIRECT = 256 := rfl
theorem MAXFILE_eq : MAXFILE = 65803 := rfl
theorem BPB_eq : BPB = 8192 := rfl

structure Superblock where
  size : Nat
  ninodes : Nat
  inodestart : Nat
  bmapstart : Nat

def BBLOCK (sb : Superblock) (b : Nat) : Nat := b/BPB + sb.bmapstart
def IBLOCK (sb : Superblock) (i : Nat) : Nat := i/IPB + sb.inodestart

/-- First block after the bitmap: the data area of mkfs's layout
`boot | super | log | inodes | bitmap | data`. -/
def Superblock.datastart (sb : Superblock) : Nat := sb.bmapstart + sb.size/BPB + 1

/-- The on-disk inode; `addrs` has `NDIRECT+2` slots. -/
structure Dinode where
  type : Nat
  major : Nat
  minor : Nat
  nlink : Nat
  size : Nat
  addrs : Nat → Nat

/-- The in-memory inode: reference count, validity and the copy of the disk inode. -/
structure Inode where
  ref : Nat
  valid : Bool
  copy : Dinode

/-- The file system seen through the buffer cache. Blocks are raw bytes, apart
from the inode blocks, which are kept decoded: `dinode i` is entry `i%IPB` of
block `IBLOCK i`. `logged` lists the blocks passed to log_write. -/
structure State where
  sb : Superblock
  block : Nat → Bytes
  dinode : Nat → Dinode
  icache : Nat → Inode
  logged : List Nat

inductive Panic where
  | ballocOutOfBlocks
  | freeingFreeBlock
  | bmapOutOfRange
  | ilock
  | ilockNoType
  | iallocNoInodes
  | igetNoInodes
  deriving DecidableEq, Repr

/-- Store into a buffer without telling the log. -/
def State.modify (s : State) (b : Nat) (data : Bytes) : State :=
  { s with block := Function.update s.block b data }

/-- Store into a buffer and log_write it. -/
def State.logWrite (s : State) (b : Nat) (data : Bytes) : State :=
  { s.modify b data with logged := b :: s.logged }

/-- The inode as the kernel knows it: the cached copy once it is valid. -/
def State.node (s : State) (i : Nat) : Dinode :=
  if (s.icache i).valid then (s.icache i).copy else s.dinode i

def State.addr (s : State) (i k : Nat) : Nat := (s.node i).addrs k

/-- Change the cached copy of inode `i`. -/
def State.setCopy (s : State) (i : Nat) (d : Dinode) : State :=
  { s with icache := Function.update s.icache i { (s.icache i) with copy := d } }

/-- `ip->addrs[k] = a`. -/
def State.setAddr (s : State) (i k a : Nat) : State :=
  s.setCopy i { (s.icache i).copy with
    addrs := Function.update (s.icache i).copy.addrs k a }

/-- `ip->size = n`. -/
def State.setSize (s : State) (i n : Nat) : State :=
  s.setCopy i { (s.icache i).copy with size := n }

/-- The bitmap bit of block `b`. -/
def State.bit (s : State) (b : Nat) : Bool := getBit (s.block (BBLOCK s.sb b)) (b%BPB)

section Fields

variable (s : State) (b i k a : Nat) (d : Bytes)

@[simp] theorem modify_sb : (s.modify b d).sb = s.sb := rfl
@[simp] theorem modify_icache : (s.modify b d).icache = s.icache := rfl
@[simp] theorem modify_dinode : (s.modify b d).dinode = s.dinode := rfl
@[simp] theorem modify_block : (s.modify b d).block = Function.update s.block b d := rfl
@[simp] theorem modify_node : (s.modify b d).node i = s.node i := rfl
@[simp] theorem modify_addr : (s.modify b d).addr i k = s.addr i k := rfl
@[simp] theorem logWrite_sb : (s.logWrite b d).sb = s.sb := rfl
@[simp] theorem logWrite_icache : (s.logWrite b d).icache = s.icache := rfl
@[simp] theorem logWrite_dinode : (s.logWrite b d).dinode = s.dinode := rfl
@[simp] theorem logWrite_block : (s.logWrite b d).block = Function.update s.block b d := rfl
@[simp] theorem logWrite_node : (s.logWrite b d).node i = s.node i := rfl
@[simp] theorem logWrite_addr : (s.logWrite b d).addr i k = s.addr i k := rfl
@[simp] theorem setCopy_sb (d : Dinode) : (s.setCopy i d).sb = s.sb := rfl
@[simp] theorem setCopy_block (d : Dinode) : (s.setCopy i d).block = s.block := rfl
@[simp] theorem setCopy_dinode (d : Dinode) : (s.setCopy i d).dinode = s.dinode := rfl
@[simp] theorem setAddr_sb : (s.setAddr i k a).sb = s.sb := rfl
@[simp] theorem setAddr_block : (s.setAddr i k a).block = s.block := rfl
@[simp] theorem setAddr_dinode : (s.setAddr i k a).dinode = s.dinode := rfl
@[simp] theorem setSize_sb : (s.setSize i a).sb = s.sb := rfl
@[simp] theorem setSize_block : (s.setSize i a).block = s.block := rfl
@[simp] theorem setSize_dinode : (s.setSize i a).dinode = s.dinode := rfl

end Fields

theorem setCopy_valid (s : State) (i j : Nat) (d : Dinode) :
    ((s.setCopy i d).icache j).valid = (s.icache j).valid := by
  by_cases hj : j = i
  · subst hj
    simp [State.setCopy]
  · simp [State.setCopy, Function.update_of_ne hj]

theorem setCopy_ref (s : State) (i j : Nat) (d : Dinode) :
    ((s.setCopy i d).icache j).ref = (s.icache j).ref := by
  by_cases hj : j = i
  · subst hj
    simp [State.setCopy]
  · simp [State.setCopy, Function.update_of_ne hj]

theorem setCopy_node (s : State) (i j : Nat) (d : Dinode) (hv : (s.icache i).valid = true) :
    (s.setCopy i d).node j = if j = i then d else s.node j := by
  unfold State.node
  rw [setCopy_valid, setCopy_dinode]
  by_cases hj : j = i
  · subst hj
    simp [State.setCopy, hv]
  · simp [State.setCopy, hj]

theorem node_of_valid (s : State) (i : Nat) (hv : (s.icache i).valid = true) :
    s.node i = (s.icache i).copy := by
  simp [State.node, hv]

/-- A slot store changes that slot of that inode and nothing else. -/
theorem setAddr_addr (s : State) (i k a j l : Nat) (hv : (s.icache i).valid = true) :
    (s.setAddr i k a).addr j l = if j = i ∧ l = k then a else s.addr j l := by
  unfold State.addr State.setAddr
  rw [setCopy_node s i j _ hv]
  by_cases hj : j = i
  · subst hj
    rw [node_of_valid s j hv]
    by_cases hl : l = k
    · simp [hl]
    · simp [hl]
  · simp [hj]

end Xv6Labs.Fs
