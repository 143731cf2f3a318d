import Xv6Labs.MmapCode

/-! The system calls and page faults of the `mmap` kernel that deal with mappings, files and
processes, and the machine they make. -/
namespace Xv6Labs.Mmap

variable {n : Nat}

section Calls

/-- `vma->used && vma->addr <= va && va < vma->addr + vma->length` -/
def VMA.hit (v : VMA) (va : Nat) : Bool :=
  v.used && decide (v.addr ≤ va) && decide (va < add64 v.addr v.length)

/-- The checks of sys_mmap. -/
def mmapFile (s : State n) (p : Fin n) (prot flags : Nat) (fd : Int) : Option FileId :=
  (argfd (s.proc p) fd).bind (fun r =>
    let F := s.file r.2
    if (!F.readable && has prot PROT_READ) ||
        (!F.writable && (has prot PROT_WRITE && !has flags MAP_PRIVATE)) then none
    else some r.2)

/-- The first VMA that is not used. -/
def freeVma (P : Proc) : Option (Fin NVMA) :=
  (List.finRange NVMA).find? (fun i => !(P.vma i).used)

/-- sys_mmap; the address, or `none` for -1. -/
def sysMmap (s : State n) (p : Fin n) (length : Int) (prot flags : Nat) (fd : Int)
    (offset : Nat) : Except Panic (State n × Option Nat) :=
  match mmapFile s p prot flags fd with
  | none => .ok (s, none)
  | some f =>
    match freeVma (s.proc p) with
    | none => .ok (s, none)
    | some i => do
      let P := s.proc p
      -- the mapping starts where the process ends, at a page boundary or not
      let v : VMA := ⟨true, P.sz, length, prot, flags, f, offset, P.image⟩
      let s := s.setProc p { P with
        vma := Function.update P.vma i v
        sz := add64 P.sz length }
      let s ← filedup s f
      .ok (s, some P.sz)

/-- Whether the pages of a mapping are written back. -/
def writesBack (s : State n) (v : VMA) : Bool :=
  has v.prot PROT_WRITE && (s.file v.mapfile).writable && has v.flags MAP_SHARED

/-- The write back of the pages from `addr` on, where the mapping asks for it. -/
def writeBack (s : State n) (p : Fin n) (v : VMA) (addr : Nat) (len : Int) :
    Except Panic (State n) :=
  if writesBack s v then filewrite s (s.proc p).table v.mapfile addr len else .ok s

/-- The body of sys_munmap's loop for a VMA that holds `addr`; `false` is `return 1`. -/
def munmapVma (s : State n) (p : Fin n) (addr : Nat) (length : Int) (i : Fin NVMA) :
    Except Panic (State n × Bool) := do
  let v := (s.proc p).vma i
  let s ← writeBack s p v (PGROUNDDOWN addr) (PGROUNDUPint length)
  let t ← uvmunmap (s.proc p).table (PGROUNDDOWN addr) (add64 0 (PGROUNDUPint length / PGSIZE)) true
  let s := s.setTable p t
  if addr = v.addr ∧ length = v.length then
    let s ← fileclose s v.mapfile
    .ok (s.setVma p i { v with used := false }, true)
  else if addr = v.addr then
    .ok (s.setVma p i { v with
      addr := add64 v.addr length
      length := int32 (v.length - length)
      offset := add64 v.offset length }, true)
  else if add64 addr length = add64 v.addr v.length then
    .ok (s.setVma p i { v with length := int32 (v.length - length) }, true)
  else .ok (s, false)

def munmapLoop (p : Fin n) (addr : Nat) (length : Int) :
    List (Fin NVMA) → State n → Except Panic (State n × Nat)
  | [], s => .ok (s, 0)
  | i :: is, s =>
    if ((s.proc p).vma i).hit addr then do
      let r ← munmapVma s p addr length i
      if r.2 then munmapLoop p addr length is r.1 else .ok (r.1, 1)
    else munmapLoop p addr length is s

/-- sys_munmap; the answer is 0 or 1. -/
def sysMunmap (s : State n) (p : Fin n) (addr : Nat) (length : Int) :
    Except Panic (State n × Nat) :=
  munmapLoop p addr length (List.finRange NVMA) s

/-- exit closes one descriptor. -/
def closeFd (p : Fin n) (s : State n) (fd : Fin NOFILE) : Except Panic (State n) :=
  match (s.proc p).ofile fd with
  | none => .ok s
  | some f => do
    let s ← fileclose s f
    .ok (s.setOfile p fd none)

/-- exit releases one VMA. -/
def closeVma (p : Fin n) (s : State n) (i : Fin NVMA) : Except Panic (State n) :=
  let v := (s.proc p).vma i
  if v.used then do
    let s ← writeBack s p v (PGROUNDDOWN v.addr) v.length
    let s ← fileclose s v.mapfile
    let t ← uvmunmap (s.proc p).table v.addr (add64 0 (v.length.tdiv PGSIZE)) true
    .ok ((s.setTable p t).setVma p i { v with used := false })
  else .ok s

def exit (s : State n) (p : Fin n) : Except Panic (State n) := do
  let s ← (List.finRange NOFILE).foldlM (closeFd p) s
  let s ← (List.finRange NVMA).foldlM (closeVma p) s
  let s := iput s (s.proc p).cwd
  .ok (s.setProc p { s.proc p with state := .zombie })

/-- freeproc of a process that has a page table. -/
def freeproc (s : State n) (q : Fin n) : Except Panic (State n) := do
  procFreepagetable (s.proc q).table (s.proc q).sz
  .ok (s.setProc q { s.proc q with state := .unused, sz := 0, table := emptyTable })

/-- fork's copy of one descriptor. -/
def forkFd (p q : Fin n) (s : State n) (fd : Fin NOFILE) : Except Panic (State n) :=
  match (s.proc p).ofile fd with
  | none => .ok s
  | some f => do
    let s ← filedup s f
    .ok (s.setOfile q fd (some f))

/-- fork's copy of one VMA. -/
def forkVma (p q : Fin n) (s : State n) (i : Fin NVMA) : Except Panic (State n) :=
  let v := (s.proc p).vma i
  if v.used then filedup (s.setVma q i v) v.mapfile else .ok s

/-- fork into the free process `q`. -/
def fork (s : State n) (p q : Fin n) : Except Panic (State n) :=
  let r := kalloc s.mem
  if r.2 then do
    let a ← procPagetable r.1
    match a.2 with
    | none => .ok (s.setMem a.1)
    | some new =>
      let c ← uvmcopy a.1 (s.proc p).table new (s.proc p).sz
      let s := (s.setMem c.1).setTable q c.2.1
      if c.2.2 then
        let P := s.proc p
        let s := idup (s.setProc q { s.proc q with
          state := .running, sz := P.sz, cwd := P.cwd, given := P.given, image := P.image }) P.cwd
        let s ← (List.finRange NOFILE).foldlM (forkFd p q) s
        (List.finRange NVMA).foldlM (forkVma p q) s
      else freeproc s q
  else .ok (s.setMem r.1)

/-- The page fault at `va` in the VMA `i`; `false` means that the process is killed. -/
def faultVma (s : State n) (p : Fin n) (va : Nat) (i : Fin NVMA) :
    Except Panic (State n × Bool) := do
  let v := (s.proc p).vma i
  let va := PGROUNDDOWN va
  let r := kalloc s.mem
  if r.2 then
    let ip ← ilock s v.mapfile
    let page := readPage (s.inode ip)
      (add64 v.offset (PGROUNDDOWN (add64 va (-v.addr))) % 2^32)
    let e : PTE := ⟨has v.prot PROT_READ, has v.prot PROT_WRITE, has v.prot PROT_EXEC, true, true,
      page⟩
    let q ← mappages r.1 (s.proc p).table va e
    .ok ((s.setMem q.1).setTable p q.2.1, q.2.2)
  -- kalloc's answer is not checked: memset is given the null pointer
  else .error .nullPage

/-- The VMA that usertrap finds for `va`. -/
def findVma (P : Proc) (va : Nat) : Option (Fin NVMA) :=
  (List.finRange NVMA).find? (fun i => (P.vma i).hit va)

/-- usertrap for a page fault at `va`. -/
def usertrap (s : State n) (p : Fin n) (va : Nat) : Except Panic (State n) :=
  -- an address of MAXVA itself passes
  if MAXVA < va ∨ (s.proc p).sz < va then exit s p
  else
    match findVma (s.proc p) va with
    | none => exit s p
    | some i => do
      let r ← faultVma s p va i
      if r.2 then .ok r.1 else exit r.1 p

/-- What the hardware finds: a PTE with PTE_U, PTE_R and, for a store, PTE_W. A PTE with
PTE_W alone is reserved and faults. -/
def translate (t : Table) (va : Nat) (store : Bool) : Option PTE :=
  match walkaddr t va with
  | some e => if e.r && (!store || e.w) then some e else none
  | none => none

/-- A user access: an attempt that faults goes to usertrap and is tried again. The answer is
the PTE that was used, if any. -/
def access (p : Fin n) (va : Nat) (store : Bool) :
    Nat → State n → Except Panic (State n × Option PTE)
  | 0, s => .ok (s, none)
  | tries+1, s =>
    match translate (s.proc p).table va store with
    | some e => .ok (s, some e)
    | none => do
      let s ← usertrap s p va
      if (s.proc p).state = .running then access p va store tries s else .ok (s, none)

def load (s : State n) (p : Fin n) (va : Nat) : Except Panic (State n × Option UInt8) := do
  let r ← access p va false 2 s
  .ok (r.1, r.2.map (fun e => e.page (va % PGSIZE)))

def store (s : State n) (p : Fin n) (va : Nat) (b : UInt8) : Except Panic (State n) := do
  let r ← access p va true 2 s
  match r.2 with
  | none => .ok r.1
  | some e => .ok (r.1.setTable p ((r.1.proc p).table.set (va / PGSIZE)
      (some { e with page := Function.update e.page (va % PGSIZE) b })))

/-- `uint` -/
def uint32 (a : Nat) : Nat := a % 2^32

/-- The pages that the addresses from `lo` up to `hi` lie in. -/
def pagesOf (lo hi j : Nat) : Bool :=
  decide (lo < hi) && decide (PGROUNDDOWN lo ≤ j * PGSIZE) && decide (j * PGSIZE < hi)

/-- growproc. `sz` is a `uint` there. -/
def growproc (s : State n) (p : Fin n) (k : Int) : Except Panic (State n) :=
  let P := s.proc p
  let sz := uint32 P.sz
  let newsz := ((sz + k) % 2^32).toNat
  if 0 < k then do
    let r ← uvmalloc s.mem P.table sz newsz
    let s := s.setMem r.1
    if r.2.2 = 0 then .ok (s.setTable p r.2.1)
    else .ok (s.setProc p { P with
      table := r.2.1
      sz := uint32 r.2.2
      given := fun j => P.given j || pagesOf sz newsz j })
  else if k < 0 then do
    let r ← uvmdealloc P.table sz newsz
    .ok (s.setProc p { P with
      table := r.1
      sz := uint32 r.2
      given := fun j => P.given j && !(decide (newsz ≤ j * PGSIZE) && decide (j * PGSIZE < sz)) })
  else .ok (s.setProc p { P with sz := sz })

/-- exec's segments: uvmalloc up to the end of each; `none` is `goto bad`. -/
def loadSegments : List Nat → Mem → Table → Nat → Except Panic (Mem × Table × Nat × Bool)
  | [], m, t, sz => .ok (m, t, sz, true)
  | top :: segs, m, t, sz => do
    let r ← uvmalloc m t sz top
    if r.2.2 = 0 then .ok (r.1, r.2.1, sz, false) else loadSegments segs r.1 r.2.1 r.2.2

/-- exec of a program whose segments end at `segs`. `bad` tells that a check fails after
they are loaded; the bytes of the program are left out. -/
def exec (s : State n) (p : Fin n) (segs : List Nat) (bad : Bool) : Except Panic (State n) := do
  let a ← procPagetable s.mem
  match a.2 with
  | none => .ok (s.setMem a.1)
  | some t =>
    let r ← loadSegments segs a.1 t 0
    if r.2.2.2 then
      let sz := PGROUNDUP r.2.2.1
      let q ← uvmalloc r.1 r.2.1 sz (sz + 2 * PGSIZE)
      let s := s.setMem q.1
      if q.2.2 = 0 then
        procFreepagetable q.2.1 sz
        .ok s
      else
        let t ← uvmclear q.2.1 (q.2.2 - 2 * PGSIZE)
        if bad then
          procFreepagetable t q.2.2
          .ok s
        else
          let P := s.proc p
          procFreepagetable P.table P.sz
          .ok (s.setProc p { P with
            table := t
            sz := q.2.2
            given := fun j => decide (j * PGSIZE < q.2.2)
            image := P.image + 1 })
    else
      procFreepagetable r.2.1 r.2.2.1
      .ok (s.setMem r.1)

end Calls

section Descriptors

/-- sys_open once the path is resolved to the inode `ip`. -/
def sysOpen (s : State n) (p : Fin n) (ip : Nat) (device readable writable trunc : Bool) :
    Except Panic (State n) :=
  -- namei's reference
  let s := idup s ip
  match filealloc s with
  | none => .ok (iput s ip)
  | some f =>
    let s := s.setFile f { s.file f with ref := 1 }
    match fdalloc (s.proc p) with
    | none => do
      let s ← fileclose s f
      .ok (iput s ip)
    | some fd =>
      let s := s.setOfile p fd (some f)
      let F := s.file f
      let s := s.setFile f { F with
        type := if device then .device else .inode
        off := if device then F.off else 0
        ip := some ip
        readable := readable
        writable := writable }
      if trunc then .ok (s.setInode ip { s.inode ip with size := 0, data := fun _ => 0 })
      else .ok s

def sysDup (s : State n) (p : Fin n) (fd : Int) : Except Panic (State n) :=
  match argfd (s.proc p) fd with
  | none => .ok s
  | some (_, f) =>
    match fdalloc (s.proc p) with
    | none => .ok s
    | some fd' => filedup (s.setOfile p fd' (some f)) f

def sysClose (s : State n) (p : Fin n) (fd : Int) : Except Panic (State n) :=
  match argfd (s.proc p) fd with
  | none => .ok s
  | some (i, f) => fileclose (s.setOfile p i none) f

/-- The two ends of a new pipe. -/
def pipeEnd (F : File) (writable : Bool) : File :=
  { F with type := .pipe, readable := !writable, writable := writable }

/-- pipealloc; `none` is the return of -1. -/
def pipealloc (s : State n) : Except Panic (State n × Option (FileId × FileId)) :=
  match filealloc s with
  | none => .ok (s, none)
  | some f0 =>
    let s := s.setFile f0 { s.file f0 with ref := 1 }
    match filealloc s with
    | none => do
      let s ← fileclose s f0
      .ok (s, none)
    | some f1 =>
      let s := s.setFile f1 { s.file f1 with ref := 1 }
      let r := kalloc s.mem
      let s := s.setMem r.1
      if r.2 then
        let s := s.setFile f0 (pipeEnd (s.file f0) false)
        .ok (s.setFile f1 (pipeEnd (s.file f1) true), some (f0, f1))
      else do
        let s ← fileclose s f0
        let s ← fileclose s f1
        .ok (s, none)

/-- `(char*)&fd`, four bytes -/
def intBytes (fd : Fin NOFILE) : List UInt8 := [UInt8.ofNat fd, 0, 0, 0]

def sysPipe (s : State n) (p : Fin n) (fdarray : Nat) : Except Panic (State n) := do
  let a ← pipealloc s
  match a.2 with
  | none => .ok a.1
  | some (rf, wf) =>
    let s := a.1
    match fdalloc (s.proc p) with
    | none => do
      let s ← fileclose s rf
      fileclose s wf
    | some fd0 =>
      let s := s.setOfile p fd0 (some rf)
      match fdalloc (s.proc p) with
      | none => do
        let s ← fileclose (s.setOfile p fd0 none) rf
        fileclose s wf
      | some fd1 =>
        let s := s.setOfile p fd1 (some wf)
        let c0 := copyout (s.proc p).table fdarray (intBytes fd0)
        let c1 := if c0.2 then copyout c0.1 (fdarray + 4) (intBytes fd1) else c0
        let s := s.setTable p c1.1
        if c1.2 then .ok s
        else do
          let s ← fileclose ((s.setOfile p fd0 none).setOfile p fd1 none) rf
          fileclose s wf

end Descriptors

/-- The system calls, page faults included. An argument that argint fetches is an `int`. -/
inductive Op (n : Nat) where
  | openFile (p : Fin n) (ip : Nat) (device readable writable trunc : Bool)
  | dup (p : Fin n) (fd : Int32)
  | close (p : Fin n) (fd : Int32)
  | pipe (p : Fin n) (fdarray : Nat)
  | mmap (p : Fin n) (length : Int32) (prot flags : Nat) (fd : Int32) (offset : Nat)
  | munmap (p : Fin n) (addr : Nat) (length : Int32)
  | load (p : Fin n) (va : Nat)
  | store (p : Fin n) (va : Nat) (b : UInt8)
  | fork (p q : Fin n)
  | exit (p : Fin n)
  | wait (q : Fin n)
  | sbrk (p : Fin n) (k : Int32)
  | exec (p : Fin n) (segs : List Nat) (bad : Bool)

/-- The process that must run for an operation. -/
def Op.caller : Op n → Option (Fin n)
  | .openFile p _ _ _ _ _ | .dup p _ | .close p _ | .pipe p _ | .mmap p _ _ _ _ _
  | .munmap p _ _ | .load p _ | .store p _ _ | .fork p _ | .exit p | .sbrk p _
  | .exec p _ _ => some p
  | .wait _ => none

/-- An operation of a running process. -/
def act (s : State n) : Op n → Except Panic (State n)
  | .openFile p ip device readable writable trunc =>
    sysOpen s p ip device readable writable trunc
  | .dup p fd => sysDup s p fd.toInt
  | .close p fd => sysClose s p fd.toInt
  | .pipe p fdarray => sysPipe s p fdarray
  | .mmap p length prot flags fd offset => do
    let r ← sysMmap s p length.toInt prot flags fd.toInt offset
    .ok r.1
  | .munmap p addr length => do
    let r ← sysMunmap s p addr length.toInt
    .ok r.1
  | .load p va => do
    let r ← load s p va
    .ok r.1
  | .store p va b => store s p va b
  | .fork p q => if (s.proc q).state = .unused then fork s p q else .ok s
  | .exit p => exit s p
  | .wait q => if (s.proc q).state = .zombie then freeproc s q else .ok s
  | .sbrk p k => growproc s p k.toInt
  | .exec p segs bad => exec s p segs bad

/-- One step of the machine; a process that does not run does nothing. -/
def step (s : State n) (op : Op n) : Except Panic (State n) :=
  match op.caller with
  | some p => if (s.proc p).state = .running then act s op else .ok s
  | none => act s op

/-- A panic stops the machine. -/
def next (s : State n) (op : Op n) : Option (State n) := (step s op).toOption

section Boot

/-- A table with one user page. -/
def firstTable : Table where
  mid := fun i => i == 0 || i == 255
  low := fun i => i == 0 || i == 131071
  leaf := fun k =>
    if k = 0 then some userPTE
    else if k = TRAPFRAME / PGSIZE then some trapframePTE
    else if k = TRAMPOLINE / PGSIZE then some trampolinePTE
    else none

def noVma : VMA := ⟨false, 0, 0, 0, 0, 0, 0, 0⟩

def unusedProc : Proc where
  state := .unused
  sz := 0
  table := emptyTable
  vma := fun _ => noVma
  ofile := fun _ => none
  cwd := 0
  given := fun _ => false
  image := 0

/-- The first process: one page, and inode 1 as its current directory. -/
def firstProc : Proc :=
  { unusedProc with
    state := .running
    sz := PGSIZE
    table := firstTable
    cwd := 1
    given := fun k => k == 0 }

def freeFile : File := ⟨.none, 0, false, false, none, 0⟩

/-- The machine when the first process starts; `size` and `data` are the files on disk. -/
def firstState (size : Nat → Nat) (data : Nat → Nat → UInt8) : State (n+1) where
  proc := fun p => if p = 0 then firstProc else unusedProc
  file := fun _ => freeFile
  inode := fun ip => ⟨if ip = 1 then 1 else 0, 1, size ip, data ip⟩
  mem := fun _ => true

end Boot

end Xv6Labs.Mmap
