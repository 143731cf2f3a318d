import Xv6Labs.Runs
import Mathlib.Logic.Function.Basic
import Mathlib.Data.Fintype.Prod
import Mathlib.Data.Fintype.Sum
import Mathlib.Tactic.DeriveFintype

/-! kalloc.c and vm.c of the `copy-to-fork` lab: reference-counted physical pages, page
tables and the copy-on-write fork, with the eager uvmcopy of the `pgtbl` lab beside it.
There are `n` page tables, one for each process. A function that panics answers `none`. -/
namespace Xv6Labs.Cow

def PGSIZE : Nat := 4096
def KERNBASE : Nat := 0x80000000
def PHYSTOP : Nat := KERNBASE + 128*1024*1024
def MAXVA : Nat := 2^38

def PGROUNDUP (sz : Nat) : Nat := (sz + PGSIZE - 1) / PGSIZE * PGSIZE
def PGROUNDDOWN (a : Nat) : Nat := a / PGSIZE * PGSIZE

def PA2PGREF_ID (pa : Nat) : Nat := (pa - KERNBASE) / PGSIZE

/-- A leaf PTE with its address and flags. An invalid one is `none`. -/
structure PTE where
  pa : Nat
  r : Bool
  w : Bool
  x : Bool
  u : Bool
  cow : Bool
  deriving DecidableEq

/-- The place of a page-table page in its table, as the path to it: the root, the page
below entry `i` of the root, the page below entry `i % 512` of page `i / 512`. -/
inductive Node where
  | root
  | mid (i : Fin 512)
  | low (i : Fin 262144)
  deriving DecidableEq, Fintype

/-- The place of a leaf PTE: entry `i % 512` of the last-level page `i / 512`. -/
abbrev Slot := Fin 134217728

instance neZero_slots : NeZero 134217728 := ⟨by decide⟩

def midOf (va : Nat) : Fin 512 := Fin.ofNat 512 (va / 2^30)
def lowOf (va : Nat) : Fin 262144 := Fin.ofNat 262144 (va / 2^21)
def slotOf (va : Nat) : Slot := Fin.ofNat 134217728 (va / PGSIZE)

/-- `mem pa i` is byte `i` of the page at `pa`; `kend` is the linker's `end`. `held` are
the pages of direct callers of kalloc; `failed` records that some kalloc has returned 0. -/
structure State (n : Nat) where
  kend : Nat
  freelist : List Nat
  p_refered : Nat → Int
  mem : Nat → Nat → UInt8
  node : Fin n × Node → Option Nat
  leaf : Fin n × Slot → Option PTE
  sz : Fin n → Nat
  killed : Fin n → Bool
  held : List Nat
  failed : Bool

variable {n : Nat}

section Kalloc

def State.ref (s : State n) (pa : Nat) : Int := s.p_refered (PA2PGREF_ID pa)

def State.setRef (s : State n) (pa : Nat) (v : Int) : State n :=
  { s with p_refered := Function.update s.p_refered (PA2PGREF_ID pa) v }

/-- memset or memmove of a whole page. -/
def State.fill (s : State n) (pa : Nat) (page : Nat → UInt8) : State n :=
  { s with mem := Function.update s.mem pa page }

def kfree (s : State n) (pa : Nat) : Option (State n) :=
  if pa % PGSIZE ≠ 0 ∨ pa < s.kend ∨ PHYSTOP ≤ pa then none
  else
    let s := s.setRef pa (s.ref pa - 1)
    if s.ref pa ≤ 0 then some { s.fill pa (fun _ => 1) with freelist := pa :: s.freelist }
    else some s

def kalloc (s : State n) : State n × Option Nat :=
  match s.freelist with
  | [] => ({ s with failed := true }, none)
  | r :: l => (({ s with freelist := l }.fill r (fun _ => 5)).setRef r 1, some r)

def krefpage (s : State n) (pa : Nat) : State n := s.setRef pa (s.ref pa + 1)

def kcopyNDeref (s : State n) (pa : Nat) : State n × Option Nat :=
  if s.ref pa ≤ 1 then (s, some pa)
  else
    match kalloc s with
    | (s, none) => (s, none)
    | (s, some new) =>
      let s := s.fill new (s.mem pa)
      (s.setRef pa (s.ref pa - 1), some new)

/-- The pages that freerange hands to kfree. -/
def freerangePages (kend : Nat) : List Nat :=
  (List.range ((PHYSTOP - PGROUNDUP kend) / PGSIZE)).map (fun i => PGROUNDUP kend + i * PGSIZE)

def freerange (s : State n) : Option (State n) := (freerangePages s.kend).foldlM kfree s

end Kalloc

section PageTables

def State.setNode (s : State n) (t : Fin n) (k : Node) (o : Option Nat) : State n :=
  { s with node := Function.update s.node (t, k) o }

def State.setLeaf (s : State n) (t : Fin n) (i : Slot) (o : Option PTE) : State n :=
  { s with leaf := Function.update s.leaf (t, i) o }

/-- One round of walk's loop: make sure of the page-table page `k`. -/
def walkLevel (s : State n) (t : Fin n) (k : Node) (alloc : Bool) : State n × Bool :=
  if (s.node (t, k)).isSome then (s, true)
  else if alloc then
    match kalloc s with
    | (s, none) => (s, false)
    | (s, some pa) => ((s.fill pa (fun _ => 0)).setNode t k (some pa), true)
  else (s, false)

/-- The place of the PTE, or `none` for walk's 0. -/
def walk (s : State n) (t : Fin n) (va : Nat) (alloc : Bool) :
    Option (State n × Option Slot) :=
  if MAXVA ≤ va then none
  else
    let r := walkLevel s t (.mid (midOf va)) alloc
    if r.2 then
      let r := walkLevel r.1 t (.low (lowOf va)) alloc
      if r.2 then some (r.1, some (slotOf va)) else some (r.1, none)
    else some (r.1, none)

/-- walk without `alloc`, and the valid PTE there. -/
def findPTE (s : State n) (t : Fin n) (va : Nat) : Option (Option PTE) :=
  (walk s t va false).map (fun r => r.2.bind (fun i => s.leaf (t, i)))

/-- The loop of mappages, for `npages` pages from `a` on; `false` is the return of -1. -/
def mappagesLoop (t : Fin n) : Nat → State n → Nat → PTE → Option (State n × Bool)
  | 0, s, _, _ => some (s, true)
  | npages+1, s, a, e =>
    match walk s t a true with
    | none => none
    | some (s, none) => some (s, false)
    | some (s, some i) =>
      mappagesLoop t npages (s.setLeaf t i (some e)) (a + PGSIZE) { e with pa := e.pa + PGSIZE }

/-- mappages, with the address and the permissions given as the first PTE. -/
def mappages (s : State n) (t : Fin n) (va size : Nat) (e : PTE) : Option (State n × Bool) :=
  mappagesLoop t ((PGROUNDDOWN (va + size - 1) - PGROUNDDOWN va) / PGSIZE + 1) s
    (PGROUNDDOWN va) e

/-- `PTE_FLAGS(*pte) == PTE_V` -/
def PTE.noFlags (e : PTE) : Bool := !(e.r || e.w || e.x || e.u || e.cow)

/-- The loop of uvmunmap, for `npages` pages from `a` on. -/
def uvmunmapLoop (t : Fin n) (doFree : Bool) : Nat → State n → Nat → Option (State n)
  | 0, s, _ => some s
  | npages+1, s, a =>
    match findPTE s t a with
    | some (some e) =>
      if e.noFlags then none
      else
        (if doFree then kfree s e.pa else some s).bind (fun s =>
          uvmunmapLoop t doFree npages (s.setLeaf t (slotOf a) none) (a + PGSIZE))
    | _ => none

def uvmunmap (s : State n) (t : Fin n) (va npages : Nat) (doFree : Bool) : Option (State n) :=
  if va % PGSIZE ≠ 0 then none else uvmunmapLoop t doFree npages s va

/-- uvmcreate: the table is all zero. -/
def uvmcreate (s : State n) (t : Fin n) : State n × Bool :=
  match kalloc s with
  | (s, none) => (s, false)
  | (s, some pa) => ((s.fill pa (fun _ => 0)).setNode t .root (some pa), true)

def uvmdealloc (s : State n) (t : Fin n) (oldsz newsz : Nat) : Option (State n × Nat) :=
  if oldsz ≤ newsz then some (s, oldsz)
  else if PGROUNDUP newsz < PGROUNDUP oldsz then
    (uvmunmap s t (PGROUNDUP newsz) ((PGROUNDUP oldsz - PGROUNDUP newsz) / PGSIZE) true).map
      (fun s => (s, newsz))
  else some (s, newsz)

/-- `PTE_W|PTE_X|PTE_R|PTE_U` -/
def userPTE (pa : Nat) : PTE := ⟨pa, true, true, true, true, false⟩

/-- The loop of uvmalloc, for the pages from `a` on; `false` is the return of 0. -/
def uvmallocLoop (t : Fin n) (oldsz : Nat) : Nat → State n → Nat → Option (State n × Bool)
  | 0, s, _ => some (s, true)
  | k+1, s, a =>
    match kalloc s with
    -- no page: what the loop has allocated is freed again
    | (s, none) => (uvmdealloc s t a oldsz).map (fun r => (r.1, false))
    | (s, some pa) =>
      match mappages (s.fill pa (fun _ => 0)) t a PGSIZE (userPTE pa) with
      | none => none
      | some (s, true) => uvmallocLoop t oldsz k s (a + PGSIZE)
      | some (s, false) =>
        (kfree s pa).bind (fun s => (uvmdealloc s t a oldsz).map (fun r => (r.1, false)))

/-- The number of pages from `a` up to `b`. -/
def pagesTo (a b : Nat) : Nat := (b - a + PGSIZE - 1) / PGSIZE

/-- uvmalloc; the new size, or 0. -/
def uvmalloc (s : State n) (t : Fin n) (oldsz newsz : Nat) : Option (State n × Nat) :=
  if newsz < oldsz then some (s, oldsz)
  else
    (uvmallocLoop t (PGROUNDUP oldsz) (pagesTo (PGROUNDUP oldsz) newsz) s (PGROUNDUP oldsz)).map
      (fun r => (r.1, if r.2 then newsz else 0))

def State.freeNode (s : State n) (t : Fin n) (k : Node) : Option (State n) :=
  match s.node (t, k) with
  | none => some s
  | some pa => (kfree s pa).map (fun s => s.setNode t k none)

/-- Entry `j` of page-table page `i`. -/
def entry (m i : Nat) [NeZero m] (j : Fin 512) : Fin m := Fin.ofNat m (i * 512 + j)

/-- freewalk of a last-level page: a valid entry there is a leaf. -/
def freewalkLow (t : Fin n) (s : State n) (i : Fin 262144) : Option (State n) :=
  if ∃ j, (s.leaf (t, entry 134217728 i j)).isSome ∧ (s.node (t, .low i)).isSome then none
  else s.freeNode t (.low i)

def freewalkMid (t : Fin n) (s : State n) (i : Fin 512) : Option (State n) :=
  if (s.node (t, .mid i)).isSome then
    (((List.finRange 512).map (entry 262144 i)).foldlM (freewalkLow t) s).bind
      (fun s => s.freeNode t (.mid i))
  else some s

def freewalk (s : State n) (t : Fin n) : Option (State n) :=
  ((List.finRange 512).foldlM (freewalkMid t) s).bind (fun s => s.freeNode t .root)

def uvmfree (s : State n) (t : Fin n) (sz : Nat) : Option (State n) :=
  (if 0 < sz then uvmunmap s t 0 (PGROUNDUP sz / PGSIZE) true else some s).bind
    (fun s => freewalk s t)

/-- `*pte &= ~PTE_U` -/
def uvmclear (s : State n) (t : Fin n) (va : Nat) : Option (State n) :=
  match walk s t va false with
  | some (_, some i) => some (s.setLeaf t i ((s.leaf (t, i)).map (fun e => { e with u := false })))
  | _ => none

/-- `if(*pte & PTE_W) *pte = (*pte & ~PTE_W) | PTE_COW` -/
def PTE.share (e : PTE) : PTE := if e.w then { e with w := false, cow := true } else e

/-- The loop of the copy-on-write uvmcopy from page `i` on; `false` is the return of -1. -/
def uvmcopyLoop (old new : Fin n) : Nat → State n → Nat → Option (State n × Bool)
  | 0, s, _ => some (s, true)
  | k+1, s, i =>
    match findPTE s old i with
    | some (some e) =>
      let s := s.setLeaf old (slotOf i) (some e.share)
      match mappages s new i PGSIZE e.share with
      | none => none
      | some (s, true) => uvmcopyLoop old new k (krefpage s e.pa) (i + PGSIZE)
      -- the pages of the child go; those of the parent stay read-only
      | some (s, false) => (uvmunmap s new 0 (i / PGSIZE) true).map (fun s => (s, false))
    | _ => none

def uvmcopy (s : State n) (old new : Fin n) (sz : Nat) : Option (State n × Bool) :=
  uvmcopyLoop old new (pagesTo 0 sz) s 0

/-- The loop of the eager uvmcopy. -/
def uvmcopyEagerLoop (old new : Fin n) : Nat → State n → Nat → Option (State n × Bool)
  | 0, s, _ => some (s, true)
  | k+1, s, i =>
    match findPTE s old i with
    | some (some e) =>
      match kalloc s with
      | (s, none) => (uvmunmap s new 0 (i / PGSIZE) true).map (fun s => (s, false))
      | (s, some pa) =>
        match mappages (s.fill pa (s.mem e.pa)) new i PGSIZE { e with pa := pa } with
        | none => none
        | some (s, true) => uvmcopyEagerLoop old new k s (i + PGSIZE)
        | some (s, false) =>
          (kfree s pa).bind (fun s =>
            (uvmunmap s new 0 (i / PGSIZE) true).map (fun s => (s, false)))
    | _ => none

def uvmcopyEager (s : State n) (old new : Fin n) (sz : Nat) : Option (State n × Bool) :=
  uvmcopyEagerLoop old new (pagesTo 0 sz) s 0

end PageTables

section CopyOnWrite

/-- cow_check for the process `t`. -/
def cowCheck (s : State n) (t : Fin n) (va : Nat) : Bool :=
  if MAXVA ≤ va then false
  else
    match findPTE s t va with
    | some (some e) => decide (va < s.sz t) && e.cow
    | _ => false

def cowAlloc (s : State n) (t : Fin n) (va : Nat) : Option (State n) :=
  match findPTE s t va with
  | some (some e) =>
    match kcopyNDeref s e.pa with
    -- no page: the process is killed and its page is still shared
    | (s, none) => some { s with killed := Function.update s.killed t true }
    | (s, some new) =>
      -- kcopy_n_deref has dropped the reference to the old page
      (uvmunmap s t (PGROUNDDOWN va) 1 false).bind (fun s =>
        match mappages s t va 1 { e with pa := new, w := true, cow := false } with
        | some (s, true) => some s
        | _ => none)
  | _ => none

/-- walkaddr; 0 is `none`. -/
def walkaddr (s : State n) (t : Fin n) (va : Nat) : Option Nat :=
  if MAXVA ≤ va then none
  else
    match findPTE s t va with
    | some (some e) => if e.u then some e.pa else none
    | _ => none

/-- `memmove(page + off, src, src.length)` -/
def writeBytes (page : Nat → UInt8) (off : Nat) (src : List UInt8) : Nat → UInt8 :=
  fun i => if off ≤ i then (src[i - off]?).getD (page i) else page i

/-- The bytes that fit on the page of `va`. -/
def chunk (va len : Nat) : Nat := min (PGSIZE - (va - PGROUNDDOWN va)) len

/-- The loop of copyout; each round writes at least one byte. `false` is the return of -1. -/
def copyoutLoop (t : Fin n) : Nat → State n → Nat → List UInt8 → Option (State n × Bool)
  | 0, s, _, _ => some (s, true)
  | fuel+1, s, dstva, src =>
    if src.length = 0 then some (s, true)
    else
      (if cowCheck s t dstva then cowAlloc s t dstva else some s).bind (fun s =>
        match walkaddr s t (PGROUNDDOWN dstva) with
        | none => some (s, false)
        | some pa0 =>
          let m := chunk dstva src.length
          let s := s.fill pa0
            (writeBytes (s.mem pa0) (dstva - PGROUNDDOWN dstva) (src.take m))
          copyoutLoop t fuel s (PGROUNDDOWN dstva + PGSIZE) (src.drop m))

def copyout (s : State n) (t : Fin n) (dstva : Nat) (src : List UInt8) :
    Option (State n × Bool) :=
  copyoutLoop t src.length s dstva src

/-- The loop of copyin; the bytes, or `none` for -1. -/
def copyinLoop (s : State n) (t : Fin n) : Nat → Nat → Nat → Option (List UInt8)
  | 0, _, _ => some []
  | fuel+1, srcva, len =>
    if len = 0 then some []
    else
      match walkaddr s t (PGROUNDDOWN srcva) with
      | none => none
      | some pa0 =>
        let m := chunk srcva len
        (copyinLoop s t fuel (PGROUNDDOWN srcva + PGSIZE) (len - m)).map (fun rest =>
          (List.range m).map (fun i => s.mem pa0 (srcva - PGROUNDDOWN srcva + i)) ++ rest)

def copyin (s : State n) (t : Fin n) (srcva len : Nat) : Option (List UInt8) :=
  copyinLoop s t len srcva len

/-- What the hardware finds for a user access: a valid PTE with PTE_U and the permission. -/
def translate (s : State n) (t : Fin n) (va : Nat) (perm : PTE → Bool) : Option Nat :=
  if MAXVA ≤ va then none
  else
    match findPTE s t va with
    | some (some e) => if e.u && perm e then some e.pa else none
    | _ => none

/-- A user access to `va`. A page fault goes to usertrap, which repairs a copy-on-write
page and lets the process try again, or kills it: the answer is the physical page. The
second fault on a page kills. -/
def userAccess (t : Fin n) (va : Nat) (perm : PTE → Bool) :
    Nat → State n → Option (State n × Option Nat)
  | 0, _ => none
  | fuel+1, s =>
    match translate s t va perm with
    | some pa => some (s, some pa)
    | none =>
      if cowCheck s t va then
        (cowAlloc s t va).bind (fun s =>
          if s.killed t then some (s, none) else userAccess t va perm fuel s)
      else some ({ s with killed := Function.update s.killed t true }, none)

end CopyOnWrite

/-- The memory at boot, before kinit: nothing is allocated. -/
def boot (n kend : Nat) : State n where
  kend := kend
  freelist := []
  p_refered := fun _ => 0
  mem := fun _ _ => 0
  node := fun _ => none
  leaf := fun _ => none
  sz := fun _ => 0
  killed := fun _ => false
  held := []
  failed := false

def kinit (n kend : Nat) : Option (State n) := freerange (boot n kend)

end Xv6Labs.Cow
