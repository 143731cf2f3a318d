import Xv6Labs.Runs
import Mathlib.Logic.Function.Basic
import Mathlib.Data.Fintype.Basic
import Mathlib.Algebra.Group.Int.Defs

/-! The inode cache, directories and path names of the `file system` kernel. The cache is
write-through, so what an inode holds is kept once, by inode number. A directory holds a list
of entries, every other inode a list of bytes. -/
namespace Xv6Labs.Dir

def NINODE : Nat := 50
def NFILE : Nat := 100
def NOFILE : Nat := 16
def NDEV : Nat := 10
def MAXPATH : Nat := 128
def DIRSIZ : Nat := 14
def ROOTINO : Nat := 1

def O_WRONLY : Nat := 0x001
def O_RDWR : Nat := 0x002
def O_CREATE : Nat := 0x200
def O_TRUNC : Nat := 0x400
def O_NOFOLLOW : Nat := 0x800

/-- `x & flag`, as a condition -/
def has (x flag : Nat) : Bool := decide (x &&& flag ≠ 0)

/-- A value stored in a `short`. -/
def int16 (x : Int) : Int := (x + 2^15) % 2^16 - 2^15

/-- The panics on the way. `sleep` is a wait for a lock that the caller itself holds, and
`nullCwd` an access through a null `p->cwd`. -/
inductive Panic where
  | ilock
  | noType
  | iunlock
  | igetNoInodes
  | iallocNoInodes
  | dirlookupNotDir
  | unlinkNlink
  | createDots
  | createDirlink
  | filedup
  | fileclose
  | initExiting
  | nullCwd
  | sleep
  deriving DecidableEq

section Strings

/-- The bytes of a string, without the NUL. -/
abbrev Path := List UInt8

def slash : UInt8 := 47
def dot : Path := [46]
def dotdot : Path := [46, 46]

/-- The string that starts at a given place of memory. -/
def cstring (bytes : List UInt8) : Path := bytes.takeWhile (· != 0)

/-- argstr with a buffer of MAXPATH bytes, where `mem` is what the user can read from the
address on. -/
def argstr (mem : List UInt8) : Option Path :=
  if (0 : UInt8) ∈ mem.take MAXPATH then some (cstring mem) else none

/-- The next element of a path and the rest. -/
def skipelem (path : Path) : Option (Path × Path) :=
  match path.dropWhile (· == slash) with
  | [] => none
  | c :: s => some (((c :: s).takeWhile (· != slash)).take DIRSIZ,
      ((c :: s).dropWhile (· != slash)).dropWhile (· == slash))

theorem length_dropWhile_le {α : Type} (q : α → Bool) (l : List α) :
    (l.dropWhile q).length ≤ l.length :=
  (List.dropWhile_sublist q).length_le

theorem skipelem_length {path name rest : Path} (h : skipelem path = some (name, rest)) :
    rest.length < path.length := by
  unfold skipelem at h
  split at h
  · cases h
  · rename_i c s hd
    have hpath := length_dropWhile_le (· == slash) path
    rw [hd, List.length_cons] at hpath
    have hc : (c == slash) = false := by
      have hhead := List.head?_dropWhile_not (· == slash) path
      rw [hd] at hhead
      simpa using hhead
    have hname : ((c :: s).dropWhile (· != slash)).length ≤ s.length := by
      rw [List.dropWhile_cons_of_pos (by simp [bne, hc])]
      exact length_dropWhile_le _ _
    have hrest := length_dropWhile_le (· == slash) ((c :: s).dropWhile (· != slash))
    simp only [Option.some.injEq, Prod.mk.injEq] at h
    rw [← h.2]
    omega

/-- The elements that skipelem takes from a path, one after the other. -/
def elems (path : Path) : List Path :=
  match _h : skipelem path with
  | none => []
  | some (name, rest) => name :: elems rest
termination_by path.length
decreasing_by exact skipelem_length _h

end Strings

section State

/-- T_DIR, T_FILE, T_DEVICE, T_SYMLINK; an inode of type 0 is free. -/
inductive Kind where
  | free
  | dir
  | file
  | device
  | symlink
  deriving DecidableEq

/-- The entry is free when `inum` is 0. -/
structure Dirent where
  inum : Nat
  name : Path
  deriving DecidableEq

structure Dinode where
  type : Kind
  major : Int
  minor : Int
  nlink : Int
  dirents : List Dirent
  data : List UInt8
  deriving DecidableEq

/-- `memset(dip, 0, sizeof(*dip))` -/
def emptyDinode : Dinode := ⟨.free, 0, 0, 0, [], []⟩

/-- An entry of the inode cache. -/
structure Inode where
  inum : Nat
  ref : Int
  valid : Bool
  locked : Bool

abbrev Slot := Fin NINODE

inductive FileType where
  | none
  | pipe
  | inode
  | device
  deriving DecidableEq

structure File where
  type : FileType
  ref : Int
  readable : Bool
  writable : Bool
  ip : Option Slot
  off : Nat
  major : Int

abbrev FileId := Fin NFILE

inductive ProcState where
  | unused
  | running
  | zombie
  deriving DecidableEq

structure Proc where
  state : ProcState
  ofile : Fin NOFILE → Option FileId
  cwd : Option Slot

structure State (n : Nat) where
  ninodes : Nat
  disk : Nat → Dinode
  icache : Slot → Inode
  file : FileId → File
  proc : Fin n → Proc
  initproc : Fin n
  outstanding : Int

variable {n : Nat}

def State.setDisk (s : State n) (k : Nat) (d : Dinode) : State n :=
  { s with disk := Function.update s.disk k d }

def State.setInode (s : State n) (i : Slot) (e : Inode) : State n :=
  { s with icache := Function.update s.icache i e }

def State.setFile (s : State n) (f : FileId) (F : File) : State n :=
  { s with file := Function.update s.file f F }

def State.setProc (s : State n) (p : Fin n) (P : Proc) : State n :=
  { s with proc := Function.update s.proc p P }

def State.setOfile (s : State n) (p : Fin n) (fd : Fin NOFILE) (f : Option FileId) : State n :=
  s.setProc p { s.proc p with ofile := Function.update (s.proc p).ofile fd f }

def State.setCwd (s : State n) (p : Fin n) (c : Option Slot) : State n :=
  s.setProc p { s.proc p with cwd := c }

/-- What the inode of a cache entry holds. -/
def State.node (s : State n) (i : Slot) : Dinode := s.disk (s.icache i).inum

/-- A change of an inode through its cache entry, with the iupdate that follows. -/
def State.setNode (s : State n) (i : Slot) (d : Dinode) : State n :=
  s.setDisk (s.icache i).inum d

def beginOp (s : State n) : State n := { s with outstanding := s.outstanding + 1 }

def endOp (s : State n) : State n := { s with outstanding := s.outstanding - 1 }

end State

section Inodes

variable {n : Nat}

def iget (s : State n) (inum : Nat) : Except Panic (State n × Slot) :=
  match (List.finRange NINODE).find? (fun i =>
      decide (0 < (s.icache i).ref) && decide ((s.icache i).inum = inum)) with
  | some i => .ok (s.setInode i { s.icache i with ref := (s.icache i).ref + 1 }, i)
  | none =>
    match (List.finRange NINODE).find? (fun i => decide ((s.icache i).ref = 0)) with
    | none => .error .igetNoInodes
    | some i => .ok (s.setInode i { s.icache i with inum := inum, ref := 1, valid := false }, i)

def idup (s : State n) (i : Slot) : State n :=
  s.setInode i { s.icache i with ref := (s.icache i).ref + 1 }

/-- acquiresleep, by a caller that is alone. -/
def acquiresleep (s : State n) (i : Slot) : Except Panic (State n) :=
  if (s.icache i).locked then .error .sleep
  else .ok (s.setInode i { s.icache i with locked := true })

def releasesleep (s : State n) (i : Slot) : State n :=
  s.setInode i { s.icache i with locked := false }

def ilock (s : State n) (i : Slot) : Except Panic (State n) :=
  if (s.icache i).ref < 1 then .error .ilock
  else do
    let s ← acquiresleep s i
    if (s.icache i).valid then .ok s
    else if (s.node i).type = .free then .error .noType
    else .ok (s.setInode i { s.icache i with valid := true })

def iunlock (s : State n) (i : Slot) : Except Panic (State n) :=
  if !(s.icache i).locked || decide ((s.icache i).ref < 1) then .error .iunlock
  else .ok (releasesleep s i)

def itrunc (s : State n) (i : Slot) : State n :=
  s.setNode i { s.node i with dirents := [], data := [] }

/-- The inode has no links and no other references: truncate and free. -/
def ifree (s : State n) (i : Slot) : Except Panic (State n) := do
  let s ← acquiresleep s i
  let s := itrunc s i
  let s := s.setNode i { s.node i with type := .free }
  let s := s.setInode i { s.icache i with valid := false }
  .ok (releasesleep s i)

def iput (s : State n) (i : Slot) : Except Panic (State n) :=
  if (s.icache i).ref = 1 ∧ (s.icache i).valid = true ∧ (s.node i).nlink = 0 then do
    let s ← ifree s i
    .ok (s.setInode i { s.icache i with ref := (s.icache i).ref - 1 })
  else .ok (s.setInode i { s.icache i with ref := (s.icache i).ref - 1 })

def iunlockput (s : State n) (i : Slot) : Except Panic (State n) := do
  let s ← iunlock s i
  iput s i

def ialloc (s : State n) (type : Kind) : Except Panic (State n × Slot) :=
  match (List.range' 1 (s.ninodes - 1)).find? (fun k => decide ((s.disk k).type = .free)) with
  | none => .error .iallocNoInodes
  | some k => iget (s.setDisk k { emptyDinode with type := type }) k

end Inodes

section Directories

variable {n : Nat}

/-- The place of the first entry with a given name. -/
def findEntry (l : List Dirent) (name : Path) : Option Nat :=
  l.findIdx? (fun e => decide (e.inum ≠ 0) && decide (e.name = name))

def entryAt (l : List Dirent) (off : Nat) : Dirent := l.getD off ⟨0, []⟩

/-- dirlookup; the inode, and the place of its entry. -/
def dirlookup (s : State n) (dp : Slot) (name : Path) :
    Except Panic (State n × Option (Slot × Nat)) :=
  if (s.node dp).type ≠ .dir then .error .dirlookupNotDir
  else
    match findEntry (s.node dp).dirents name with
    | none => .ok (s, none)
    | some off => do
      let r ← iget s (entryAt (s.node dp).dirents off).inum
      .ok (r.1, some (r.2, off))

/-- The entries with `e` in the first free place, or at the end. -/
def addEntry : List Dirent → Dirent → List Dirent
  | [], e => [e]
  | d :: l, e => if d.inum = 0 then e :: l else d :: addEntry l e

/-- dirlink; `false` is the return of -1. `de.inum` is a `ushort`. -/
def dirlink (s : State n) (dp : Slot) (name : Path) (inum : Nat) :
    Except Panic (State n × Bool) := do
  let r ← dirlookup s dp name
  match r.2 with
  | some (ip, _) =>
    let s ← iput r.1 ip
    .ok (s, false)
  | none =>
    let d := r.1.node dp
    .ok (r.1.setNode dp { d with dirents := addEntry d.dirents ⟨inum % 2^16, name⟩ }, true)

/-- The loop of namex over the elements that are left. The answer is the inode and the last
element, if it was asked for. -/
def namexLoop (parent : Bool) : List Path → State n → Slot →
    Except Panic (State n × Option (Slot × Path))
  | [], s, ip =>
    if parent then do
      let s ← iput s ip
      .ok (s, none)
    else .ok (s, some (ip, []))
  | name :: rest, s, ip => do
    let s ← ilock s ip
    if (s.node ip).type ≠ .dir then
      let s ← iunlockput s ip
      .ok (s, none)
    else if parent ∧ rest = [] then
      -- stop one level early
      let s ← iunlock s ip
      .ok (s, some (ip, name))
    else
      let r ← dirlookup s ip name
      let s ← iunlockput r.1 ip
      match r.2 with
      | none => .ok (s, none)
      | some (next, _) => namexLoop parent rest s next

/-- Where namex starts. -/
def namexStart (s : State n) (p : Fin n) (path : Path) : Except Panic (State n × Slot) :=
  if path.head? = some slash then iget s ROOTINO
  else
    match (s.proc p).cwd with
    | none => .error .nullCwd
    | some c => .ok (idup s c, c)

def namex (s : State n) (p : Fin n) (path : Path) (parent : Bool) :
    Except Panic (State n × Option (Slot × Path)) := do
  let r ← namexStart s p path
  namexLoop parent (elems path) r.1 r.2

def namei (s : State n) (p : Fin n) (path : Path) : Except Panic (State n × Option Slot) := do
  let r ← namex s p path false
  .ok (r.1, r.2.map Prod.fst)

def nameiparent (s : State n) (p : Fin n) (path : Path) :
    Except Panic (State n × Option (Slot × Path)) :=
  namex s p path true

end Directories

end Xv6Labs.Dir
