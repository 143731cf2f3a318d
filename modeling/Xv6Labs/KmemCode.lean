import Xv6Labs.Runs
import Mathlib.Logic.Function.Basic
import Mathlib.Data.Fintype.Basic

/-! kalloc.c of the `locks` lab: one free list for each CPU, stealing from the others when
its own is empty. A CPU runs one call at a time, with interrupts off; a step is a lock
operation or one memory access. Addresses are numbers, the null pointer is 0. -/
namespace Xv6Labs.Kmem

/-- Where a CPU is in kalloc or kfree: the access it makes next, with its variables. -/
inductive PC (N : Nat) where
  | idle
  /-- kalloc: acquire the own lock, `r = freelist`, `freelist = r->next`, release -/
  | allocAcquire
  | allocRead
  | allocNext (r : Nat)
  | allocPop (r t : Nat)
  | allocRelease (r : Nat)
  | allocReacquire (r : Nat)
  /-- the loop over the other CPUs, at CPU `i` -/
  | scan (i : Nat)
  | scanAcquire (i : Fin N) (r1 : Nat)
  | scanMiss (i : Fin N)
  /-- the two pointers: `r2 = r1->next`, the loop's `r2 = r2->next`, `r1 = r1->next` and
  second `r2 = r2->next` -/
  | walkInit (i : Fin N) (r : Nat)
  | walkTest (i : Fin N) (r r1 r2 : Nat)
  | walkSlow (i : Fin N) (r r1 r2 : Nat)
  | walkFast (i : Fin N) (r r1 r2 : Nat)
  /-- `kmem[i].freelist = r1->next; r1->next = 0; release(&kmem[i].lock)` -/
  | splitRead (i : Fin N) (r r1 : Nat)
  | splitHead (i : Fin N) (r r1 t : Nat)
  | splitCut (i : Fin N) (r r1 : Nat)
  | splitRelease (i : Fin N) (r : Nat)
  /-- `kmem[cpu].freelist = r->next` -/
  | takeRead (r : Nat)
  | takeHead (r t : Nat)
  | allocFinish (r : Nat)
  | allocReturn (r : Nat)
  /-- kfree: acquire, `r->next = freelist`, `freelist = r`, release -/
  | freeAcquire (pa : Nat)
  | freeRead (pa : Nat)
  | freeStore (pa t : Nat)
  | freePush (pa : Nat)
  | freeRelease
  deriving DecidableEq

/-- `mem p` is the first word of page `p`, its `next` field while it is free. `owned` lists
the pages that callers of kalloc hold. -/
structure State (N : Nat) where
  mem : Nat → Nat
  freelist : Fin N → Nat
  lock : Fin N → Option (Fin N)
  pc : Fin N → PC N
  owned : List Nat

variable {N : Nat}

def State.goto (s : State N) (c : Fin N) (q : PC N) : State N :=
  { s with pc := Function.update s.pc c q }

def State.store (s : State N) (p v : Nat) : State N :=
  { s with mem := Function.update s.mem p v }

def State.setHead (s : State N) (i : Fin N) (v : Nat) : State N :=
  { s with freelist := Function.update s.freelist i v }

/-- acquire spins until the lock is free. -/
def State.acquire (s : State N) (c i : Fin N) : Option (State N) :=
  if s.lock i = none then some { s with lock := Function.update s.lock i (some c) } else none

def State.release (s : State N) (i : Fin N) : State N :=
  { s with lock := Function.update s.lock i none }

/-- The first words of a page filled with 1s by kfree and with 5s by kalloc. -/
def freeJunk : Nat := 0x0101010101010101
def allocJunk : Nat := 0x0505050505050505

/-- The next step of the call that runs on CPU `c`. -/
def advance (s : State N) (c : Fin N) : Option (State N) :=
  match s.pc c with
  | .idle => none
  | .allocAcquire => (s.acquire c c).map (fun s => s.goto c .allocRead)
  | .allocRead =>
    let r := s.freelist c
    some (s.goto c (if r ≠ 0 then .allocNext r else .allocRelease r))
  | .allocNext r => some (s.goto c (.allocPop r (s.mem r)))
  | .allocPop r t => some ((s.setHead c t).goto c (.allocRelease r))
  | .allocRelease r => some ((s.release c).goto c (.allocReacquire r))
  | .allocReacquire r =>
    (s.acquire c c).map (fun s => s.goto c (if r = 0 then .scan 0 else .allocFinish r))
  | .scan i =>
    if h : i < N then
      if i = c then some (s.goto c (.scan (i+1)))
      -- the free list is read before its lock is taken
      else some (s.goto c (.scanAcquire ⟨i, h⟩ (s.freelist ⟨i, h⟩)))
    else some (s.goto c (.allocFinish 0))
  | .scanAcquire i r1 =>
    (s.acquire c i).map (fun s => s.goto c (if r1 ≠ 0 then .walkInit i r1 else .scanMiss i))
  | .scanMiss i => some ((s.release i).goto c (.scan (i+1)))
  | .walkInit i r => some (s.goto c (.walkTest i r r (s.mem r)))
  -- r2 goes two pages a round and r1 one, which ends in the middle
  | .walkTest i r r1 r2 =>
    if r2 ≠ 0 then some (s.goto c (.walkSlow i r r1 (s.mem r2)))
    else some (s.goto c (.splitRead i r r1))
  | .walkSlow i r r1 r2 =>
    if r2 ≠ 0 then some (s.goto c (.walkFast i r (s.mem r1) r2))
    else some (s.goto c (.splitRead i r r1))
  | .walkFast i r r1 r2 => some (s.goto c (.walkTest i r r1 (s.mem r2)))
  | .splitRead i r r1 => some (s.goto c (.splitHead i r r1 (s.mem r1)))
  -- CPU i keeps what comes after r1
  | .splitHead i r r1 t => some ((s.setHead i t).goto c (.splitCut i r r1))
  | .splitCut i r r1 => some ((s.store r1 0).goto c (.splitRelease i r))
  | .splitRelease i r => some ((s.release i).goto c (.takeRead r))
  | .takeRead r => some (s.goto c (.takeHead r (s.mem r)))
  -- the first stolen page is the answer, the others are a new free list
  | .takeHead r t => some ((s.setHead c t).goto c (.allocFinish r))
  | .allocFinish r => some ((s.release c).goto c (.allocReturn r))
  | .allocReturn r =>
    if r ≠ 0 then some { (s.store r allocJunk).goto c .idle with owned := r :: s.owned }
    else some (s.goto c .idle)
  | .freeAcquire pa => (s.acquire c c).map (fun s => s.goto c (.freeRead pa))
  | .freeRead pa => some (s.goto c (.freeStore pa (s.freelist c)))
  | .freeStore pa t => some ((s.store pa t).goto c (.freePush pa))
  | .freePush pa => some ((s.setHead c pa).goto c .freeRelease)
  | .freeRelease => some ((s.release c).goto c .idle)

inductive Event (N : Nat) where
  | kalloc (c : Fin N)
  | kfree (c : Fin N) (pa : Nat)
  | advance (c : Fin N)
  /-- the owner of a page writes its first word -/
  | write (pa v : Nat)

def step (s : State N) : Event N → Option (State N)
  | .kalloc c => if s.pc c = .idle then some (s.goto c .allocAcquire) else none
  | .kfree c pa =>
    if s.pc c = .idle ∧ pa ∈ s.owned then
      some { (s.store pa freeJunk).goto c (.freeAcquire pa) with owned := s.owned.erase pa }
    else none
  | .advance c => Kmem.advance s c
  | .write pa v => if pa ∈ s.owned then some (s.store pa v) else none

/-- The effect of one kfree of kinit's freerange, on the booting CPU. -/
def bootFree (boot : Fin N) (s : State N) (pa : Nat) : State N :=
  (s.store pa (s.freelist boot)).setHead boot pa

/-- The state after kinit has freed all pages. -/
def kinit (boot : Fin N) (pages : List Nat) : State N :=
  pages.foldl (bootFree boot) ⟨fun _ => 0, fun _ => 0, fun _ => none, fun _ => .idle, []⟩

end Xv6Labs.Kmem
