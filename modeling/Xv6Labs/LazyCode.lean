import Xv6Labs.MmapSys

/-! vm.c, sys_sbrk and the page faults of the `lazys` kernel, and the eager kernel it replaces.
Page tables, walk and mappages are those of the `mmap` kernel, whose text is the same. -/
namespace Xv6Labs.Lazy

open Mmap (PGSIZE MAXVA TRAMPOLINE TRAPFRAME PGROUNDUP PGROUNDDOWN int32 add64 uint32 Panic PTE
  Table Mem kalloc findPTE walkaddr mappages freewalk zeroPage userPTE emptyTable trampolinePTE
  trapframePTE translate)

section PageTables

/-- The loop of uvmunmap, for `n` pages from `a` on. What is not there is skipped. -/
def uvmunmapLoop (doFree : Bool) : Nat → Table → Nat → Except Panic Table
  | 0, t, _ => .ok t
  | n+1, t, a => do
    match ← findPTE t a with
    | none => uvmunmapLoop doFree n t (a + PGSIZE)
    | some none => uvmunmapLoop doFree n t (a + PGSIZE)
    | some (some e) =>
      if e.noFlags then .error .unmapNotLeaf
      else if doFree && !e.own then .error .kfree
      else uvmunmapLoop doFree n (t.set (a / PGSIZE) none) (a + PGSIZE)

def uvmunmap (t : Table) (va npages : Nat) (doFree : Bool) : Except Panic Table :=
  if va % PGSIZE ≠ 0 then .error .unmapNotAligned
  else uvmunmapLoop doFree (((va + npages * PGSIZE) % 2^64 - va) / PGSIZE) t va

def uvmdealloc (t : Table) (oldsz newsz : Nat) : Except Panic (Table × Nat) :=
  if oldsz ≤ newsz then .ok (t, oldsz)
  else if PGROUNDUP newsz < PGROUNDUP oldsz then do
    let npages := int32 ((PGROUNDUP oldsz - PGROUNDUP newsz) / PGSIZE : Nat)
    let t ← uvmunmap t (PGROUNDUP newsz) (add64 0 npages) true
    .ok (t, newsz)
  else .ok (t, newsz)

/-- The loop of uvmalloc, for `n` pages from `a` on; `false` is the return of 0. -/
def uvmallocLoop (oldsz : Nat) : Nat → Mem → Table → Nat → Except Panic (Mem × Table × Bool)
  | 0, m, t, _ => .ok (m, t, true)
  | n+1, m, t, a => do
    let r := kalloc m
    if r.2 then
      let q ← mappages r.1 t a userPTE
      if q.2.2 then uvmallocLoop oldsz n q.1 q.2.1 (a + PGSIZE)
      else
        let d ← uvmdealloc q.2.1 a oldsz
        .ok (q.1, d.1, false)
    else
      let d ← uvmdealloc t a oldsz
      .ok (r.1, d.1, false)

/-- uvmalloc; the new size, or 0. -/
def uvmalloc (m : Mem) (t : Table) (oldsz newsz : Nat) : Except Panic (Mem × Table × Nat) :=
  if newsz < oldsz then .ok (m, t, oldsz)
  else do
    let r ← uvmallocLoop (PGROUNDUP oldsz) ((newsz - PGROUNDUP oldsz + PGSIZE - 1) / PGSIZE) m t
      (PGROUNDUP oldsz)
    .ok (r.1, r.2.1, if r.2.2 then newsz else 0)

def uvmfree (t : Table) (sz : Nat) : Except Panic Unit := do
  let t ← if 0 < sz then uvmunmap t 0 (PGROUNDUP sz / PGSIZE) true else .ok t
  freewalk t

/-- The loop of uvmcopy, for `n` pages from `i` on; `false` is the return of -1. -/
def uvmcopyLoop (old : Table) : Nat → Mem → Table → Nat → Except Panic (Mem × Table × Bool)
  | 0, m, new, _ => .ok (m, new, true)
  | n+1, m, new, i => do
    match ← findPTE old i with
    | none => uvmcopyLoop old n m new (i + PGSIZE)
    | some none => uvmcopyLoop old n m new (i + PGSIZE)
    | some (some e) =>
      let r := kalloc m
      if r.2 then
        let q ← mappages r.1 new i { e with own := true }
        if q.2.2 then uvmcopyLoop old n q.1 q.2.1 (i + PGSIZE)
        else
          let t ← uvmunmap q.2.1 0 (i / PGSIZE) true
          .ok (q.1, t, false)
      else
        let t ← uvmunmap new 0 (i / PGSIZE) true
        .ok (r.1, t, false)

def uvmcopy (m : Mem) (old new : Table) (sz : Nat) : Except Panic (Mem × Table × Bool) :=
  uvmcopyLoop old ((sz + PGSIZE - 1) / PGSIZE) m new 0

/-- proc_pagetable; 0 is `none`. -/
def procPagetable (m : Mem) : Except Panic (Mem × Option Table) := do
  let r := kalloc m
  if r.2 then
    let q ← mappages r.1 emptyTable TRAMPOLINE trampolinePTE
    if q.2.2 then
      let q ← mappages q.1 q.2.1 TRAPFRAME trapframePTE
      if q.2.2 then .ok (q.1, some q.2.1)
      else
        let t ← uvmunmap q.2.1 TRAMPOLINE 1 false
        uvmfree t 0
        .ok (q.1, none)
    else
      uvmfree q.2.1 0
      .ok (q.1, none)
  else .ok (r.1, none)

def procFreepagetable (t : Table) (sz : Nat) : Except Panic Unit := do
  let t ← uvmunmap t TRAMPOLINE 1 false
  let t ← uvmunmap t TRAPFRAME 1 false
  uvmfree t sz

end PageTables

section Processes

inductive ProcState where
  | unused
  | running
  | zombie
  deriving DecidableEq

structure Proc where
  state : ProcState
  sz : Nat
  table : Table
  killed : Bool

structure State (n : Nat) where
  proc : Fin n → Proc
  mem : Mem

variable {n : Nat}

def State.setProc (s : State n) (p : Fin n) (P : Proc) : State n :=
  { s with proc := Function.update s.proc p P }

def State.setMem (s : State n) (m : Mem) : State n := { s with mem := m }

/-- The page below which the kernel stack of process `p` is. -/
def KSTACK (p : Nat) : Nat := TRAMPOLINE - (p + 1) * 2 * PGSIZE

/-- uvmlazycheck, where r_sp() reads `sp`. -/
def uvmlazycheck (P : Proc) (sp va : Nat) : Except Panic Bool :=
  let va := PGROUNDDOWN va
  if va < P.sz ∧ va ≠ sp then do
    match ← findPTE P.table va with
    | some (some _) => .ok false
    | _ => .ok true
  else .ok false

def uvmlazyalloc (m : Mem) (P : Proc) (addr : Nat) : Except Panic (Mem × Proc) := do
  let addr := PGROUNDDOWN addr
  let r := kalloc m
  if r.2 then
    let q ← mappages r.1 P.table addr userPTE
    .ok (q.1, { P with table := q.2.1, killed := P.killed || !q.2.2 })
  else .ok (r.1, { P with killed := true })

/-- `if(uvmlazycheck(va)) uvmlazyalloc(va);` -/
def lazyTouch (m : Mem) (P : Proc) (sp va : Nat) : Except Panic (Mem × Proc) := do
  if ← uvmlazycheck P sp va then uvmlazyalloc m P va else .ok (m, P)

/-- exit, as far as the memory of the process goes. -/
def exit (s : State n) (p : Fin n) : State n :=
  s.setProc p { s.proc p with state := .zombie }

/-- usertrap's answer to a page fault at `va`. -/
def pageFault (m : Mem) (P : Proc) (sp va : Nat) : Except Panic (Mem × Proc) := do
  if ← uvmlazycheck P sp va then uvmlazyalloc m P va else .ok (m, { P with killed := true })

/-- usertrap for a page fault at `va`. -/
def usertrap (s : State n) (p : Fin n) (sp va : Nat) : Except Panic (State n) := do
  let r ← pageFault s.mem (s.proc p) sp va
  let s := (s.setMem r.1).setProc p r.2
  if r.2.killed then .ok (exit s p) else .ok s

/-- sys_sbrk; `addr` is an `int`. -/
def sysSbrk (s : State n) (p : Fin n) (k : Int) : Except Panic (State n × Int) := do
  let P := s.proc p
  let addr := int32 P.sz
  let sz := add64 P.sz k
  if k < 0 then
    let d ← uvmdealloc P.table P.sz sz
    .ok (s.setProc p { P with table := d.1, sz := sz }, addr)
  else .ok (s.setProc p { P with sz := sz }, addr)

/-- freeproc of a process that has a page table. -/
def freeproc (s : State n) (q : Fin n) : Except Panic (State n) := do
  procFreepagetable (s.proc q).table (s.proc q).sz
  .ok (s.setProc q ⟨.unused, 0, emptyTable, false⟩)

/-- fork into the free process `q`; `false` is the return of -1. -/
def fork (s : State n) (p q : Fin n) : Except Panic (State n × Bool) :=
  let r := kalloc s.mem
  if r.2 then do
    let a ← procPagetable r.1
    match a.2 with
    | none => .ok (s.setMem a.1, false)
    | some new =>
      let c ← uvmcopy a.1 (s.proc p).table new (s.proc p).sz
      let s := (s.setMem c.1).setProc q { s.proc q with table := c.2.1 }
      if c.2.2 then
        .ok (s.setProc q { s.proc q with state := .running, sz := (s.proc p).sz }, true)
      else do
        let s ← freeproc s q
        .ok (s, false)
  else .ok (s.setMem r.1, false)

end Processes

section Copies

/-- memmove of `bytes` to the offset `off` of a page. -/
def movePage (page : Nat → UInt8) (off : Nat) (bytes : List UInt8) : Nat → UInt8 := fun i =>
  if off ≤ i ∧ i < off + bytes.length then bytes.getD (i - off) 0 else page i

/-- The `n` bytes of a page from `off` on. -/
def pageBytes (page : Nat → UInt8) (off n : Nat) : List UInt8 :=
  (List.range n).map (fun i => page (off + i))

/-- The bytes that one round of a copy moves. -/
def chunk (va len : Nat) : Nat := min (PGSIZE - (va - PGROUNDDOWN va)) len

/-- The loop of copyout; `false` is the return of -1. A round moves a byte at least, so
`src.length` rounds are enough. -/
def copyoutLoop : Nat → Table → Nat → List UInt8 → Table × Bool
  | 0, t, _, src => (t, src.isEmpty)
  | rounds+1, t, dstva, src =>
    if src.isEmpty then (t, true)
    else
      let va0 := PGROUNDDOWN dstva
      match walkaddr t va0 with
      | none => (t, false)
      | some e =>
        let n := chunk dstva src.length
        let e := { e with page := movePage e.page (dstva - va0) (src.take n) }
        copyoutLoop rounds (t.set (va0 / PGSIZE) (some e)) (va0 + PGSIZE) (src.drop n)

def copyout (m : Mem) (P : Proc) (sp dstva : Nat) (src : List UInt8) :
    Except Panic (Mem × Proc × Bool) := do
  -- only the page of the first byte is made present
  let r ← lazyTouch m P sp dstva
  let c := copyoutLoop src.length r.2.table dstva src
  .ok (r.1, { r.2 with table := c.1 }, c.2)

/-- The loop of copyin, with what it has moved; `false` is the return of -1. -/
def copyinLoop : Nat → Table → Nat → Nat → List UInt8 × Bool
  | 0, _, _, len => ([], len == 0)
  | rounds+1, t, srcva, len =>
    if len == 0 then ([], true)
    else
      let va0 := PGROUNDDOWN srcva
      match walkaddr t va0 with
      | none => ([], false)
      | some e =>
        let n := chunk srcva len
        let r := copyinLoop rounds t (va0 + PGSIZE) (len - n)
        (pageBytes e.page (srcva - va0) n ++ r.1, r.2)

def copyin (m : Mem) (P : Proc) (sp srcva len : Nat) :
    Except Panic (Mem × Proc × List UInt8 × Bool) := do
  -- again only the first page
  let r ← lazyTouch m P sp srcva
  .ok (r.1, r.2, copyinLoop len r.2.table srcva len)

/-- The bytes up to the first NUL, and whether there is one. -/
def upToNull : List UInt8 → List UInt8 × Bool
  | [] => ([], false)
  | b :: bs => if b == 0 then ([0], true) else
    let r := upToNull bs
    (b :: r.1, r.2)

/-- The loop of copyinstr, with what it has put at `dst`; `false` is the return of -1. -/
def copyinstrLoop : Nat → Table → Nat → Nat → List UInt8 × Bool
  | 0, _, _, _ => ([], false)
  | rounds+1, t, srcva, max =>
    if max == 0 then ([], false)
    else
      let va0 := PGROUNDDOWN srcva
      match walkaddr t va0 with
      | none => ([], false)
      | some e =>
        let n := chunk srcva max
        let c := upToNull (pageBytes e.page (srcva - va0) n)
        if c.2 then c
        else
          let r := copyinstrLoop rounds t (va0 + PGSIZE) (max - n)
          (c.1 ++ r.1, r.2)

def copyinstr (P : Proc) (srcva max : Nat) : List UInt8 × Bool :=
  copyinstrLoop max P.table srcva max

end Copies

section Eager

variable {n : Nat}

/-- The usertrap that the lab starts from: a page fault kills. -/
def eagerTrap (s : State n) (p : Fin n) : State n :=
  exit (s.setProc p { s.proc p with killed := true }) p

/-- The sys_sbrk that the lab starts from, with its growproc. `sz` is a `uint` there. -/
def eagerSbrk (s : State n) (p : Fin n) (k : Int) : Except Panic (State n × Int) := do
  let P := s.proc p
  let addr := int32 P.sz
  let sz := uint32 P.sz
  let newsz := ((sz + k) % 2^32).toNat
  if 0 < k then
    let r ← uvmalloc s.mem P.table sz newsz
    let s := s.setMem r.1
    if r.2.2 = 0 then .ok (s.setProc p { P with table := r.2.1 }, -1)
    else .ok (s.setProc p { P with table := r.2.1, sz := uint32 r.2.2 }, addr)
  else if k < 0 then
    let d ← uvmdealloc P.table sz newsz
    .ok (s.setProc p { P with table := d.1, sz := uint32 d.2 }, addr)
  else .ok (s.setProc p { P with sz := sz }, addr)

end Eager

section Machine

variable {n : Nat}

/-- What the user programs do. `sp` is what r_sp() reads in the trap, if there is one. -/
inductive Op (n : Nat) where
  | sbrk (p : Fin n) (k : Int32)
  | fork (p q : Fin n)
  | load (p : Fin n) (va sp : Nat)
  | store (p : Fin n) (va sp : Nat) (b : UInt8)

/-- What a user program sees. -/
inductive Out where
  | addr (a : Int)
  | forked (ok : Bool)
  | value (b : UInt8)
  | stored
  | killed
  | idle
  deriving DecidableEq

/-- An access is tried again after a page fault that does not kill. The answer is the PTE,
or that the process is dead; the second fault in a row has no answer. -/
def access (trap : State n → Except Panic (State n)) (s : State n) (p : Fin n) (va : Nat)
    (store : Bool) : Except Panic (Option (State n × Option PTE)) :=
  match translate (s.proc p).table va store with
  | some e => .ok (some (s, some e))
  | none => do
    let s ← trap s
    if (s.proc p).state = .running then
      match translate (s.proc p).table va store with
      | some e => .ok (some (s, some e))
      | none => .ok none
    else .ok (some (s, none))

/-- The store of a byte through a PTE. -/
def putByte (s : State n) (p : Fin n) (va : Nat) (b : UInt8) (e : PTE) : State n :=
  let P := s.proc p
  let e := { e with page := Function.update e.page (va % PGSIZE) b }
  s.setProc p { P with table := P.table.set (va / PGSIZE) (some e) }

/-- A load or, with a byte, a store. -/
def touch (trap : State n → Except Panic (State n)) (s : State n) (p : Fin n) (va : Nat)
    (b : Option UInt8) : Except Panic (Option (State n × Out)) := do
  match ← access trap s p va b.isSome with
  | none => .ok none
  | some (s, none) => .ok (some (s, .killed))
  | some (s, some e) =>
    match b with
    | none => .ok (some (s, .value (e.page (va % PGSIZE))))
    | some b => .ok (some (putByte s p va b e, .stored))

/-- The process that makes an operation. -/
def Op.caller : Op n → Fin n
  | .sbrk p _ | .fork p _ | .load p _ _ | .store p _ _ _ => p

/-- One operation of a running process, with sbrk and the page faults of either kernel. -/
def stepWith (sbrk : State n → Fin n → Int → Except Panic (State n × Int))
    (trap : Fin n → Nat → Nat → State n → Except Panic (State n)) (s : State n) (op : Op n) :
    Except Panic (Option (State n × Out)) :=
  if (s.proc op.caller).state = .running then
    match op with
    | .sbrk p k => do
      let r ← sbrk s p k.toInt
      .ok (some (r.1, .addr r.2))
    | .fork p q =>
      if (s.proc q).state = .unused then do
        let r ← fork s p q
        .ok (some (r.1, .forked r.2))
      else .ok (some (s, .forked false))
    | .load p va sp => touch (trap p sp va) s p va none
    | .store p va sp b => touch (trap p sp va) s p va (some b)
  else .ok (some (s, .idle))

/-- A step of the lazy kernel; a panic, or a fault after a fault, stops it. -/
def lazyStep (s : State n) (op : Op n) : Option (State n × Out) :=
  (stepWith sysSbrk (fun p sp va s => usertrap s p sp va) s op).toOption.join

def eagerStep (s : State n) (op : Op n) : Option (State n × Out) :=
  (stepWith eagerSbrk (fun p _ _ s => .ok (eagerTrap s p)) s op).toOption.join

end Machine

end Xv6Labs.Lazy
