import Xv6Labs.NodePaths
import Mathlib.Algebra.GroupWithZero.Nat

/-! The page tables of pgtbl/vm.c in memory: 512 words of 64 bits to a page, three levels, and the
functions that change one of them. What kalloc answers to a call is given with the call. -/
namespace Xv6Labs.Pgtbl

section Words

def PGSIZE : Nat := 4096
def MAXVA : Nat := 2^38
def PHYSTOP : Nat := 0x88000000

def PTE_V : Nat := 1
def PTE_W : Nat := 4
def PTE_U : Nat := 16

def PGROUNDDOWN (a : Nat) : Nat := a / PGSIZE * PGSIZE
def PA2PTE (pa : Nat) : Nat := (pa >>> 12) <<< 10
def PTE2PA (pte : Nat) : Nat := ((pte >>> 10) <<< 12) % 2^64
def PTE_FLAGS (pte : Nat) : Nat := pte &&& 0x3ff
def PX (level va : Nat) : Nat := (va >>> (12 + 9 * level)) &&& 0x1ff

/-- `x & ~y` -/
def andNot (x y : Nat) : Nat := x ^^^ (x &&& y)

end Words

inductive Panic where
  | walk
  | mappagesSize
  | remap
  | unmapNotAligned
  | unmapWalk
  | unmapNotMapped
  | unmapNotLeaf
  | uvmclear
  | kfree
  deriving DecidableEq

/-- `word p i` is the `i`-th word of the page at address `p`. `answers` is what the next calls of
kalloc return, and `kend` the end of the kernel's own memory. -/
structure State where
  word : Nat → Nat → Nat
  answers : List Nat
  kend : Nat

section Code

def kalloc (s : State) : State × Nat :=
  match s.answers with
  | [] => (s, 0)
  | p :: rest => ({ s with answers := rest }, p)

/-- memset of a page to 0. -/
def State.clear (s : State) (p : Nat) : State :=
  { s with word := Function.update s.word p (fun _ => 0) }

def State.set (s : State) (p i w : Nat) : State := { s with word := writeWord s.word p i w }

/-- kfree, as far as page tables are concerned: the page is filled with junk. -/
def kfree (s : State) (pa : Nat) : Except Panic State :=
  if pa % PGSIZE ≠ 0 ∨ pa < s.kend ∨ PHYSTOP ≤ pa then .error .kfree
  else .ok { s with word := Function.update s.word pa (fun _ => 0x0101010101010101) }

/-- The loop of walk, from `level` down to 1; the page that holds the last PTE, or `none`. -/
def walkLoop (va : Nat) (alloc : Bool) : Nat → State → Nat → State × Option Nat
  | 0, s, pagetable => (s, some pagetable)
  | level+1, s, pagetable =>
    let i := PX (level + 1) va
    let pte := s.word pagetable i
    if pte &&& PTE_V ≠ 0 then walkLoop va alloc level s (PTE2PA pte)
    else if alloc then
      let r := kalloc s
      if r.2 = 0 then (r.1, none)
      else
        let s := (r.1.clear r.2).set pagetable i (PA2PTE r.2 ||| PTE_V)
        walkLoop va alloc level s r.2
    else (s, none)

/-- walk; the PTE is word `PX 0 va` of the page that is returned. -/
def walk (s : State) (pagetable va : Nat) (alloc : Bool) : Except Panic (State × Option Nat) :=
  if MAXVA ≤ va then .error .walk else .ok (walkLoop va alloc 2 s pagetable)

/-- The PTE for `va`, when walk finds one. -/
def pteAt (s : State) (t va : Nat) : Nat := s.word t (PX 0 va)

def walkaddr (s : State) (pagetable va : Nat) : Nat :=
  if MAXVA ≤ va then 0
  else
    match (walkLoop va false 2 s pagetable).2 with
    | none => 0
    | some t =>
      let pte := pteAt s t va
      if pte &&& PTE_V = 0 then 0
      else if pte &&& PTE_U = 0 then 0
      else PTE2PA pte

/-- The loop of mappages, which has at most `rounds` rounds before walk panics. -/
def mappagesLoop (pagetable last perm : Nat) : Nat → State → Nat → Nat → Except Panic (State × Int)
  | 0, _, _, _ => .error .walk
  | rounds+1, s, a, pa => do
    let r ← walk s pagetable a true
    match r.2 with
    | none => .ok (r.1, -1)
    | some t =>
      if pteAt r.1 t a &&& PTE_V ≠ 0 then .error .remap
      else
        let s := r.1.set t (PX 0 a) (PA2PTE pa ||| perm ||| PTE_V)
        if a = last then .ok (s, 0)
        else mappagesLoop pagetable last perm rounds s (a + PGSIZE) ((pa + PGSIZE) % 2^64)

def mappages (s : State) (pagetable va size pa perm : Nat) : Except Panic (State × Int) :=
  if size = 0 then .error .mappagesSize
  else
    let a := PGROUNDDOWN va
    let last := PGROUNDDOWN ((va + size - 1) % 2^64)
    mappagesLoop pagetable last perm (MAXVA / PGSIZE + 1 - a / PGSIZE) s a pa

/-- `if(do_free) kfree((void*)PTE2PA(*pte));` -/
def unmapFree (s : State) (doFree : Bool) (pte : Nat) : Except Panic State :=
  if doFree then kfree s (PTE2PA pte) else .ok s

/-- The loop of uvmunmap, for `n` pages from `a` on. -/
def uvmunmapLoop (pagetable : Nat) (doFree : Bool) : Nat → State → Nat → Except Panic State
  | 0, s, _ => .ok s
  | n+1, s, a => do
    let r ← walk s pagetable a false
    match r.2 with
    | none => .error .unmapWalk
    | some t =>
      let pte := pteAt r.1 t a
      if pte &&& PTE_V = 0 then .error .unmapNotMapped
      else if PTE_FLAGS pte = PTE_V then .error .unmapNotLeaf
      else
        let s ← unmapFree r.1 doFree pte
        uvmunmapLoop pagetable doFree n (s.set t (PX 0 a) 0) (a + PGSIZE)

def uvmunmap (s : State) (pagetable va npages : Nat) (doFree : Bool) : Except Panic State :=
  if va % PGSIZE ≠ 0 then .error .unmapNotAligned
  else uvmunmapLoop pagetable doFree (((va + npages * PGSIZE) % 2^64 - va) / PGSIZE) s va

def uvmclear (s : State) (pagetable va : Nat) : Except Panic State := do
  let r ← walk s pagetable va false
  match r.2 with
  | none => .error .uvmclear
  | some t => .ok (r.1.set t (PX 0 va) (andNot (pteAt r.1 t va) PTE_U))

/-- uvmcreate, when kalloc returns the page `root`. -/
def uvmcreate (s : State) (root : Nat) : State := s.clear root

end Code

section Calls

/-- A call on a page table, with the answers of kalloc in it. -/
inductive Call where
  | mappages (va size pa : Nat) (perm : Fin 1024) (answers : List Nat)
  | uvmunmap (va npages : Nat) (doFree : Bool)
  | uvmclear (va : Nat)

/-- A call and what it returns; uvmunmap and uvmclear return nothing. -/
def call (root : Nat) (s : State) : Call → Except Panic (State × Int)
  | .mappages va size pa perm answers =>
    mappages { s with answers := answers } root va size pa perm
  | .uvmunmap va npages doFree => (uvmunmap s root va npages doFree).map (fun s => (s, 0))
  | .uvmclear va => (uvmclear s root va).map (fun s => (s, 0))

def callStep (root : Nat) (s : State) (c : Call) : Option (State × Int) := (call root s c).toOption

end Calls

end Xv6Labs.Pgtbl
