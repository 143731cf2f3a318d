import Xv6Labs.ByteLoads
import Xv6Labs.Runs

/-! malloc and free of the user library: blocks with a header of 16 bytes, the free ones in a
circular list. `fuel` bounds the rounds of a loop; without it there is no result. -/
namespace Xv6Labs.Umalloc

section Code

/-- `sizeof(Header)` -/
def HEADER : Nat := 16

/-- The memory, `freep` (0 is null), and what sbrk has given: where its memory ends, how many
bytes it is, and the extents. -/
structure Heap where
  mem : Bytes
  freep : Nat
  brk : Nat
  got : Nat
  grants : List (Nat × Nat)

/-- `p->s.ptr` -/
def ptr (m : Bytes) (p : Nat) : Nat := load 8 m p

/-- `p->s.size` -/
def size (m : Bytes) (p : Nat) : Nat := load 4 m (p + 8)

def setPtr (m : Bytes) (p v : Nat) : Bytes := store 8 m p v

def setSize (m : Bytes) (p v : Nat) : Bytes := store 4 m (p + 8) v

/-- The first loop of free: the block after which `bp` goes. -/
def place : Nat → Bytes → Nat → Nat → Option Nat
  | 0, _, _, _ => none
  | fuel + 1, m, bp, p =>
    if p < bp ∧ bp < ptr m p then some p
    else if ptr m p ≤ p ∧ (p < bp ∨ bp < ptr m p) then some p
    else place fuel m bp (ptr m p)

/-- `if(bp + bp->s.size == p->s.ptr)` -/
def joinUp (m : Bytes) (bp p : Nat) : Bytes :=
  if bp + HEADER * size m bp = ptr m p then
    let m := setSize m bp (size m bp + size m (ptr m p))
    setPtr m bp (ptr m (ptr m p))
  else setPtr m bp (ptr m p)

/-- `if(p + p->s.size == bp)` -/
def joinDown (m : Bytes) (bp p : Nat) : Bytes :=
  if p + HEADER * size m p = bp then
    let m := setSize m p (size m p + size m bp)
    setPtr m p (ptr m bp)
  else setPtr m p bp

def free (fuel : Nat) (s : Heap) (ap : Nat) : Option Heap := do
  let bp := ap - HEADER
  let p ← place fuel s.mem bp s.freep
  some { s with mem := joinDown (joinUp s.mem bp p) bp p, freep := p }

/-- `sbrk(n)` when it answers `p`. Its argument is an int: `n` from 2^31 on is negative, and
memory goes back, unless the size of the process would be negative as well. -/
def sbrk (s : Heap) (n p : Nat) : Heap :=
  if n < 2^31 then { s with brk := p + n, got := s.got + n, grants := (p, n) :: s.grants }
  else if 2^32 ≤ p + n then
    let brk := p + n - 2^32
    { s with
      brk := brk
      got := s.got - (2^32 - n)
      grants := s.grants.map (fun g => (g.1, min g.2 (brk - g.1))) }
  else s

/-- morecore, when sbrk answers `p`, or -1. The answer 0 is the null pointer. -/
def morecore (fuel : Nat) (s : Heap) (nu : Nat) (answer : Option Nat) : Option (Heap × Nat) :=
  let nu := if nu < 4096 then 4096 else nu
  match answer with
  | none => some (s, 0)
  | some p => do
    let s := sbrk s (nu * HEADER % 2^32) p
    let s := { s with mem := setSize s.mem p nu }
    let s ← free fuel s (p + HEADER)
    some (s, s.freep)

/-- A block `p` that is large enough, after `prevp` in the list: all of it or its tail. -/
def carve (s : Heap) (nunits prevp p : Nat) : Heap × Nat :=
  if size s.mem p = nunits then
    -- the block fits and leaves the list
    ({ s with mem := setPtr s.mem prevp (ptr s.mem p), freep := prevp }, p + HEADER)
  else
    -- the tail is handed out, and the list stays as it is
    let m := setSize s.mem p (size s.mem p - nunits)
    let p := p + HEADER * size m p
    ({ s with mem := setSize m p nunits, freep := prevp }, p + HEADER)

/-- The loop of malloc, with the answers of sbrk. -/
def scan : Nat → Heap → Nat → Nat → Nat → List (Option Nat) → Option (Heap × Nat)
  | 0, _, _, _, _, _ => none
  | fuel + 1, s, nunits, prevp, p, answers =>
    if nunits ≤ size s.mem p then some (carve s nunits prevp p)
    else if p = s.freep then
      -- once around the list without a block that is large enough
      match morecore fuel s nunits answers.head?.join with
      | none => none
      | some (s, p) =>
        if p = 0 then some (s, 0)
        else scan fuel s nunits p (ptr s.mem p) answers.tail
    else scan fuel s nunits p (ptr s.mem p) answers

def unitsOf (nbytes : Nat) : Nat := ((nbytes + HEADER - 1) / HEADER + 1) % 2^32

/-- The first call of malloc makes a list of `base` alone. -/
def start (base : Nat) (s : Heap) : Heap :=
  if s.freep = 0 then
    { s with mem := setSize (setPtr s.mem base base) base 0, freep := base }
  else s

/-- malloc; the answer 0 is the null pointer. -/
def malloc (fuel base : Nat) (s : Heap) (nbytes : Nat) (answers : List (Option Nat)) :
    Option (Heap × Nat) :=
  let s := start base s
  scan fuel s (unitsOf nbytes) s.freep (ptr s.mem s.freep) answers

end Code

section Calls

/-- The heap, and the blocks in use: their addresses and the bytes asked for. -/
structure System where
  heap : Heap
  used : List (Nat × Nat)

inductive Call where
  | malloc (nbytes : Nat) (answers : List (Option Nat))
  | free (ap : Nat)
  | write (a : Nat) (b : UInt8)
  deriving DecidableEq

/-- A call of the program, or its write to memory. -/
def step (fuel base : Nat) (s : System) : Call → Option System
  | .malloc nbytes answers =>
    (malloc fuel base s.heap nbytes answers).map (fun r =>
      ⟨r.1, if r.2 = 0 then s.used else (r.2, nbytes) :: s.used⟩)
  | .free ap =>
    (free fuel s.heap ap).map (fun h => ⟨h, s.used.filter (fun u => u.1 ≠ ap)⟩)
  | .write a b => some { s with heap := { s.heap with mem := Function.update s.heap.mem a b } }

/-- sbrk answers with memory beyond all it gave before, below 2^36. -/
def Granted (brk n : Nat) : List (Option Nat) → Prop
  | [] => True
  | none :: _ => True
  | some p :: rest => brk ≤ p ∧ p + n ≤ 2^36 ∧ Granted (p + n) n rest

instance instDecidableGranted (brk n : Nat) : ∀ answers, Decidable (Granted brk n answers)
  | [] => isTrue trivial
  | none :: _ => isTrue trivial
  | some p :: rest =>
    have := instDecidableGranted (p + n) n rest
    inferInstanceAs (Decidable (_ ∧ _ ∧ _))

/-- The bytes that malloc asks of sbrk. -/
def asked (nbytes : Nat) : Nat := HEADER * max 4096 (unitsOf nbytes)

/-- What a program may do: requests below 2^27, free of blocks in use, and writes to the bytes
it asked for. -/
def Proper (s : System) : Call → Prop
  | .malloc nbytes answers => nbytes < 2^27 ∧ Granted s.heap.brk (asked nbytes) answers
  | .free ap => ∃ u ∈ s.used, u.1 = ap
  | .write a _ => ∃ u ∈ s.used, u.1 ≤ a ∧ a < u.1 + u.2

instance instDecidableProper (s : System) : ∀ e, Decidable (Proper s e)
  | .malloc _ _ => inferInstanceAs (Decidable (_ ∧ _))
  | .free _ => inferInstanceAs (Decidable (∃ u ∈ s.used, _))
  | .write _ _ => inferInstanceAs (Decidable (∃ u ∈ s.used, _))

/-- Before the first call. The memory of sbrk is above `base`. -/
def boot (mem : Bytes) (brk : Nat) : System := ⟨⟨mem, 0, brk, 0, []⟩, []⟩

end Calls

end Xv6Labs.Umalloc
