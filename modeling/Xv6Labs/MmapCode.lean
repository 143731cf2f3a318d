import Xv6Labs.Runs
import Mathlib.Logic.Function.Basic
import Mathlib.Data.Fintype.Basic
import Mathlib.Algebra.Group.Int.Defs

/-! vm.c, the open files and the mappings of the `mmap` kernel. Every leaf PTE has a page of
its own here, so a PTE carries the bytes of its page. Whether a kalloc succeeds is read from
a given sequence of answers. Addresses are `uint64`, lengths are `int`. -/
namespace Xv6Labs.Mmap

def PGSIZE : Nat := 4096
def MAXVA : Nat := 2^38
def TRAMPOLINE : Nat := MAXVA - PGSIZE
def TRAPFRAME : Nat := TRAMPOLINE - PGSIZE
def NVMA : Nat := 16
def NOFILE : Nat := 16
def NFILE : Nat := 100
def BSIZE : Nat := 1024
def MAXFILE : Nat := 12 + 256
def MAXOPBLOCKS : Nat := 10

def PROT_READ : Nat := 1
def PROT_WRITE : Nat := 2
def PROT_EXEC : Nat := 4
def MAP_SHARED : Nat := 1
def MAP_PRIVATE : Nat := 2

section Words

def PGROUNDUP (a : Nat) : Nat := (a + PGSIZE - 1) % 2^64 / PGSIZE * PGSIZE
def PGROUNDDOWN (a : Nat) : Nat := a / PGSIZE * PGSIZE

/-- A value stored in an `int`. -/
def int32 (n : Int) : Int := (n + 2^31) % 2^32 - 2^31

/-- The `uint64` sum of an address and an `int`. -/
def add64 (a : Nat) (n : Int) : Nat := ((a + n) % 2^64).toNat

/-- PGROUNDUP of an `int`. -/
def PGROUNDUPint (n : Int) : Int := int32 (n + PGSIZE - 1) / PGSIZE * PGSIZE

/-- `x & flag`, as a condition -/
def has (x flag : Nat) : Bool := decide (x &&& flag ≠ 0)

end Words

/-- The panics on the way, and the access to page 0 of the kernel. -/
inductive Panic where
  | walk
  | remap
  | unmapNotAligned
  | unmapWalk
  | unmapNotLeaf
  | copyPte
  | freewalkLeaf
  | kfree
  | ilock
  | nullPage
  | filedup
  | fileclose
  | filewrite
  | uvmclear
  deriving DecidableEq

section PageTables

/-- A valid leaf PTE. `own` tells the pages of kalloc from the trampoline. -/
structure PTE where
  r : Bool
  w : Bool
  x : Bool
  u : Bool
  own : Bool
  page : Nat → UInt8

/-- A page table: which second-level and last-level pages there are, and the leaf PTEs, by
page number. -/
structure Table where
  mid : Nat → Bool
  low : Nat → Bool
  leaf : Nat → Option PTE

/-- The answers of kalloc from now on. -/
abbrev Mem := Nat → Bool

def kalloc (m : Mem) : Mem × Bool := (fun i => m (i+1), m 0)

/-- One round of walk's loop, for a page-table page that is there or not. -/
def walkLevel (m : Mem) (present alloc : Bool) : Mem × Bool :=
  if present then (m, true) else if alloc then kalloc m else (m, false)

/-- walk; the answer is whether there is a last-level page for `va` now. -/
def walk (m : Mem) (t : Table) (va : Nat) (alloc : Bool) : Except Panic (Mem × Table × Bool) :=
  if MAXVA ≤ va then .error .walk
  else
    let r := walkLevel m (t.mid (va / 2^30)) alloc
    if r.2 then
      let t := { t with mid := Function.update t.mid (va / 2^30) true }
      let r := walkLevel r.1 (t.low (va / 2^21)) alloc
      if r.2 then .ok (r.1, { t with low := Function.update t.low (va / 2^21) true }, true)
      else .ok (r.1, t, false)
    else .ok (r.1, t, false)

/-- walk without `alloc`: `none` is its 0, and then the PTE there, if it is valid. -/
def findPTE (t : Table) (va : Nat) : Except Panic (Option (Option PTE)) :=
  if MAXVA ≤ va then .error .walk
  else if t.mid (va / 2^30) && t.low (va / 2^21) then .ok (some (t.leaf (va / PGSIZE)))
  else .ok none

def walkaddr (t : Table) (va : Nat) : Option PTE :=
  match findPTE t va with
  | .ok (some (some e)) => if e.u then some e else none
  | _ => none

def Table.set (t : Table) (k : Nat) (o : Option PTE) : Table :=
  { t with leaf := Function.update t.leaf k o }

/-- mappages of the one page at `va`; every caller maps one page. -/
def mappages (m : Mem) (t : Table) (va : Nat) (e : PTE) : Except Panic (Mem × Table × Bool) := do
  let r ← walk m t va true
  if r.2.2 then
    match r.2.1.leaf (va / PGSIZE) with
    | some _ => .error .remap
    | none => .ok (r.1, r.2.1.set (va / PGSIZE) (some e), true)
  else .ok r

/-- `PTE_FLAGS(*pte) == PTE_V` -/
def PTE.noFlags (e : PTE) : Bool := !(e.r || e.w || e.x || e.u)

/-- The loop of uvmunmap, for `n` pages from `a` on. A page that is not mapped is skipped. -/
def uvmunmapLoop (doFree : Bool) : Nat → Table → Nat → Except Panic Table
  | 0, t, _ => .ok t
  | n+1, t, a => do
    match ← findPTE t a with
    | none => .error .unmapWalk
    | some none => uvmunmapLoop doFree n t (a + PGSIZE)
    | some (some e) =>
      if e.noFlags then .error .unmapNotLeaf
      else if doFree && !e.own then .error .kfree
      else uvmunmapLoop doFree n (t.set (a / PGSIZE) none) (a + PGSIZE)

def uvmunmap (t : Table) (va npages : Nat) (doFree : Bool) : Except Panic Table :=
  if va % PGSIZE ≠ 0 then .error .unmapNotAligned
  else uvmunmapLoop doFree (((va + npages * PGSIZE) % 2^64 - va) / PGSIZE) t va

/-- Whether some last-level page of the table has a valid entry. -/
@[irreducible] def Table.leftover (t : Table) : Bool :=
  (List.range 512).any (fun i => t.mid i && (List.range 512).any (fun j =>
    t.low (i * 512 + j) && (List.range 512).any (fun k =>
      (t.leaf ((i * 512 + j) * 512 + k)).isSome)))

/-- freewalk: a valid entry of a last-level page is a leaf. -/
def freewalk (t : Table) : Except Panic Unit :=
  if t.leftover then .error .freewalkLeaf else .ok ()

def uvmfree (t : Table) (sz : Nat) : Except Panic Unit := do
  let t ← if 0 < sz then uvmunmap t 0 (PGROUNDUP sz / PGSIZE) true else .ok t
  freewalk t

def uvmdealloc (t : Table) (oldsz newsz : Nat) : Except Panic (Table × Nat) :=
  if oldsz ≤ newsz then .ok (t, oldsz)
  else if PGROUNDUP newsz < PGROUNDUP oldsz then do
    let npages := int32 ((PGROUNDUP oldsz - PGROUNDUP newsz) / PGSIZE : Nat)
    let t ← uvmunmap t (PGROUNDUP newsz) (add64 0 npages) true
    .ok (t, newsz)
  else .ok (t, newsz)

def zeroPage : Nat → UInt8 := fun _ => 0

/-- `PTE_W|PTE_X|PTE_R|PTE_U` -/
def userPTE : PTE := ⟨true, true, true, true, true, zeroPage⟩

/-- The loop of uvmalloc, for `n` pages from `a` on; `false` is the return of 0. -/
def uvmallocLoop (oldsz : Nat) : Nat → Mem → Table → Nat → Except Panic (Mem × Table × Bool)
  | 0, m, t, _ => .ok (m, t, true)
  | n+1, m, t, a => do
    let r := kalloc m
    if r.2 then
      let q ← mappages r.1 t a userPTE
      if q.2.2 then uvmallocLoop oldsz n q.1 q.2.1 (a + PGSIZE)
      else
        let d ← uvmdealloc q.2.1 a oldsz
        .ok (q.1, d.1, false)
    else
      let d ← uvmdealloc t a oldsz
      .ok (r.1, d.1, false)

/-- uvmalloc; the new size, or 0. -/
def uvmalloc (m : Mem) (t : Table) (oldsz newsz : Nat) : Except Panic (Mem × Table × Nat) :=
  if newsz < oldsz then .ok (m, t, oldsz)
  else do
    let r ← uvmallocLoop (PGROUNDUP oldsz) ((newsz - PGROUNDUP oldsz + PGSIZE - 1) / PGSIZE) m t
      (PGROUNDUP oldsz)
    .ok (r.1, r.2.1, if r.2.2 then newsz else 0)

/-- The loop of uvmcopy, for `n` pages from `i` on; `false` is the return of -1. -/
def uvmcopyLoop (old : Table) : Nat → Mem → Table → Nat → Except Panic (Mem × Table × Bool)
  | 0, m, new, _ => .ok (m, new, true)
  | n+1, m, new, i => do
    match ← findPTE old i with
    | none => .error .copyPte
    -- a page that has not been touched is left out
    | some none => uvmcopyLoop old n m new (i + PGSIZE)
    | some (some e) =>
      let r := kalloc m
      if r.2 then
        let q ← mappages r.1 new i { e with own := true }
        if q.2.2 then uvmcopyLoop old n q.1 q.2.1 (i + PGSIZE)
        else
          let t ← uvmunmap q.2.1 0 (i / PGSIZE) true
          .ok (q.1, t, false)
      else
        let t ← uvmunmap new 0 (i / PGSIZE) true
        .ok (r.1, t, false)

def uvmcopy (m : Mem) (old new : Table) (sz : Nat) : Except Panic (Mem × Table × Bool) :=
  uvmcopyLoop old ((sz + PGSIZE - 1) / PGSIZE) m new 0

def uvmclear (t : Table) (va : Nat) : Except Panic Table := do
  match ← findPTE t va with
  | none => .error .uvmclear
  | some o => .ok (t.set (va / PGSIZE) (o.map (fun e => { e with u := false })))

/-- The bytes that copyin moves before it finds a page missing. -/
def copyinLen (t : Table) : Nat → Nat → Nat → Nat
  | 0, _, _ => 0
  | fuel+1, srcva, len =>
    if len = 0 then 0
    else
      match walkaddr t (PGROUNDDOWN srcva) with
      | none => 0
      | some _ =>
        let k := min (PGSIZE - (srcva - PGROUNDDOWN srcva)) len
        k + copyinLen t fuel (PGROUNDDOWN srcva + PGSIZE) (len - k)

/-- The byte at a user address. -/
def userByte (t : Table) (va : Nat) : UInt8 :=
  match t.leaf (va / PGSIZE) with
  | some e => e.page (va % PGSIZE)
  | none => 0

/-- copyout of one byte after the other; `false` is the return of -1. -/
def copyout : Table → Nat → List UInt8 → Table × Bool
  | t, _, [] => (t, true)
  | t, dstva, b :: src =>
    match walkaddr t (PGROUNDDOWN dstva) with
    | none => (t, false)
    | some e =>
      copyout (t.set (dstva / PGSIZE)
        (some { e with page := Function.update e.page (dstva % PGSIZE) b })) (dstva + 1) src

def emptyTable : Table := ⟨fun _ => false, fun _ => false, fun _ => none⟩

def trampolinePTE : PTE := ⟨true, false, true, false, false, zeroPage⟩
def trapframePTE : PTE := ⟨true, true, false, false, true, zeroPage⟩

/-- proc_pagetable; 0 is `none`. -/
def procPagetable (m : Mem) : Except Panic (Mem × Option Table) := do
  let r := kalloc m
  if r.2 then
    let q ← mappages r.1 emptyTable TRAMPOLINE trampolinePTE
    if q.2.2 then
      let q ← mappages q.1 q.2.1 TRAPFRAME trapframePTE
      if q.2.2 then .ok (q.1, some q.2.1)
      else
        let t ← uvmunmap q.2.1 TRAMPOLINE 1 false
        uvmfree t 0
        .ok (q.1, none)
    else
      uvmfree q.2.1 0
      .ok (q.1, none)
  else .ok (r.1, none)

def procFreepagetable (t : Table) (sz : Nat) : Except Panic Unit := do
  let t ← uvmunmap t TRAMPOLINE 1 false
  let t ← uvmunmap t TRAPFRAME 1 false
  uvmfree t sz

end PageTables

section State

inductive FileType where
  | none
  | pipe
  | inode
  | device
  deriving DecidableEq

abbrev FileId := Fin NFILE

instance : NeZero NFILE := ⟨by decide⟩

structure File where
  type : FileType
  ref : Nat
  readable : Bool
  writable : Bool
  ip : Option Nat
  off : Nat

structure Inode where
  ref : Nat
  nlink : Nat
  size : Nat
  data : Nat → UInt8

/-- struct vm_area. `image` is not in the kernel: it tells the program image for which the
mapping was made. -/
structure VMA where
  used : Bool
  addr : Nat
  length : Int
  prot : Nat
  flags : Nat
  mapfile : FileId
  offset : Nat
  image : Nat

inductive ProcState where
  | unused
  | running
  | zombie
  deriving DecidableEq

/-- A process. `given` (the pages that sbrk and exec have given it) and `image` (how many
times it has called exec) are not in the kernel. -/
structure Proc where
  state : ProcState
  sz : Nat
  table : Table
  vma : Fin NVMA → VMA
  ofile : Fin NOFILE → Option FileId
  cwd : Nat
  given : Nat → Bool
  image : Nat

structure State (n : Nat) where
  proc : Fin n → Proc
  file : FileId → File
  inode : Nat → Inode
  mem : Mem

variable {n : Nat}

def State.setProc (s : State n) (p : Fin n) (P : Proc) : State n :=
  { s with proc := Function.update s.proc p P }

def State.setFile (s : State n) (f : FileId) (F : File) : State n :=
  { s with file := Function.update s.file f F }

def State.setInode (s : State n) (ip : Nat) (I : Inode) : State n :=
  { s with inode := Function.update s.inode ip I }

def State.setMem (s : State n) (m : Mem) : State n := { s with mem := m }

def State.setTable (s : State n) (p : Fin n) (t : Table) : State n :=
  s.setProc p { s.proc p with table := t }

def State.setVma (s : State n) (p : Fin n) (i : Fin NVMA) (v : VMA) : State n :=
  s.setProc p { s.proc p with vma := Function.update (s.proc p).vma i v }

def State.setOfile (s : State n) (p : Fin n) (fd : Fin NOFILE) (o : Option FileId) : State n :=
  s.setProc p { s.proc p with ofile := Function.update (s.proc p).ofile fd o }

end State

section Files

variable {n : Nat}

def filedup (s : State n) (f : FileId) : Except Panic (State n) :=
  if (s.file f).ref < 1 then .error .filedup
  else .ok (s.setFile f { s.file f with ref := (s.file f).ref + 1 })

def idup (s : State n) (ip : Nat) : State n :=
  s.setInode ip { s.inode ip with ref := (s.inode ip).ref + 1 }

/-- iput; an inode that has no name and no other user is truncated. -/
def iput (s : State n) (ip : Nat) : State n :=
  let I := s.inode ip
  let I := if I.ref = 1 ∧ I.nlink = 0 then { I with size := 0, data := fun _ => 0 } else I
  s.setInode ip { I with ref := I.ref - 1 }

def fileclose (s : State n) (f : FileId) : Except Panic (State n) :=
  let F := s.file f
  if F.ref < 1 then .error .fileclose
  else if 0 < F.ref - 1 then .ok (s.setFile f { F with ref := F.ref - 1 })
  else
    let s := s.setFile f { F with ref := 0, type := .none }
    match F.type, F.ip with
    | .inode, some ip => .ok (iput s ip)
    | .device, some ip => .ok (iput s ip)
    | .inode, none => .error .nullPage
    | .device, none => .error .nullPage
    | _, _ => .ok s

/-- The first file that is not in use. -/
def filealloc (s : State n) : Option FileId :=
  (List.finRange NFILE).find? (fun f => decide ((s.file f).ref = 0))

/-- The first free descriptor. -/
def fdalloc (P : Proc) : Option (Fin NOFILE) :=
  (List.finRange NOFILE).find? (fun fd => (P.ofile fd).isNone)

/-- argfd for a descriptor given as an `int`. -/
def argfd (P : Proc) (fd : Int) : Option (Fin NOFILE × FileId) :=
  if h : 0 ≤ fd ∧ fd < NOFILE then
    let i : Fin NOFILE := ⟨fd.toNat, by omega⟩
    (P.ofile i).map (fun f => (i, f))
  else none

/-- ilock of the inode of a file. -/
def ilock (s : State n) (f : FileId) : Except Panic Nat :=
  match (s.file f).ip with
  | none => .error .ilock
  | some ip => if (s.inode ip).ref < 1 then .error .ilock else .ok ip

/-- A zeroed page into which readi has read PGSIZE bytes from `off` on. -/
def readPage (I : Inode) (off : Nat) : Nat → UInt8 := fun i =>
  if I.size < off ∨ 2^32 ≤ off + PGSIZE then 0
  else if i < PGSIZE ∧ off + i < I.size then I.data (off + i) else 0

/-- The loop of writei, from the user address `src` to file position `off` for `len` bytes; the
bytes of a block that are copied before a page is missing stay in its buffer. The answer is
the data, the position reached and the bytes written. -/
def writeiLoop (t : Table) : Nat → (Nat → UInt8) → Nat → Nat → Nat → Nat →
    (Nat → UInt8) × Nat × Nat
  | 0, data, _, off, _, tot => (data, off, tot)
  | fuel+1, data, src, off, len, tot =>
    if len ≤ tot then (data, off, tot)
    else
      let k := min (len - tot) (BSIZE - off % BSIZE)
      let c := copyinLen t (k+1) src k
      let data' := fun i => if off ≤ i ∧ i < off + c then userByte t (src + (i - off)) else data i
      -- the copied part of the chunk stays and is not counted
      if c < k then (data', off, tot)
      else writeiLoop t fuel data' (src + k) (off + k) len (tot + k)

/-- writei from user memory; -1 is `none`. -/
def writei (t : Table) (I : Inode) (src off len : Nat) : Inode × Option Nat :=
  if I.size < off ∨ (off + len) % 2^32 < off then (I, none)
  else if MAXFILE * BSIZE < (off + len) % 2^32 then (I, none)
  else
    let r := writeiLoop t len I.data src off len 0
    ({ I with data := r.1, size := max I.size r.2.1 }, some r.2.2)

/-- The bytes that filewrite writes in one operation. -/
def writeMax : Nat := (MAXOPBLOCKS - 1 - 1 - 2) / 2 * BSIZE

/-- The loop of filewrite on an inode. -/
def filewriteLoop (t : Table) (f : FileId) (addr len : Nat) :
    Nat → State n → Nat → Except Panic (State n)
  | 0, s, _ => .ok s
  | fuel+1, s, i =>
    if len ≤ i then .ok s
    else do
      let n1 := min (len - i) writeMax
      let ip ← ilock s f
      let r := writei t (s.inode ip) (addr + i) (s.file f).off n1
      let s := s.setInode ip r.1
      match r.2 with
      | none => .ok s
      | some k =>
        let s := s.setFile f { s.file f with off := (s.file f).off + k }
        if k = n1 then filewriteLoop t f addr len fuel s (i + k) else .ok s

/-- filewrite; what it returns is not used here. A pipe and a device keep nothing that is
modelled. -/
def filewrite (s : State n) (t : Table) (f : FileId) (addr : Nat) (len : Int) :
    Except Panic (State n) :=
  if !(s.file f).writable then .ok s
  else
    match (s.file f).type with
    | .pipe => .ok s
    | .device => .ok s
    | .inode => filewriteLoop t f addr len.toNat len.toNat s 0
    | .none => .error .filewrite

end Files

end Xv6Labs.Mmap
