import Xv6Labs.Runs
import Mathlib.Logic.Function.Basic
import Mathlib.Algebra.Group.Int.Defs

/-! console.c of the `file system` kernel: the input buffer, consoleintr and consoleread. A step
is what the code does between taking `cons.lock` and letting go of it. -/
namespace Xv6Labs.Console

def INPUT_BUF : Nat := 128

/-- `C('P')` and the other characters that consoleintr and consoleread look at. -/
def ctrlP : UInt8 := 16
def ctrlU : UInt8 := 21
def ctrlH : UInt8 := 8
def ctrlD : UInt8 := 4
def delete : UInt8 := 127
def newline : UInt8 := 10
def carriageReturn : UInt8 := 13

structure Cons where
  buf : Nat → UInt8
  r : UInt32
  w : UInt32
  e : UInt32

/-- The loop of `C('U')`; `fuel` is how far `e` can go. -/
def killLine : Nat → Cons → Cons
  | 0, cons => cons
  | fuel+1, cons =>
    if cons.e ≠ cons.w ∧ cons.buf ((cons.e - 1).toNat % INPUT_BUF) ≠ newline then
      killLine fuel { cons with e := cons.e - 1 }
    else cons

/-- `cons.buf[cons.e++ % INPUT_BUF] = c` -/
def Cons.put (cons : Cons) (c : UInt8) : Cons :=
  { cons with
    buf := Function.update cons.buf (cons.e.toNat % INPUT_BUF) c
    e := cons.e + 1 }

def consoleintr (cons : Cons) (c : UInt8) : Cons :=
  if c = ctrlP then cons
  else if c = ctrlU then killLine (cons.e - cons.w).toNat cons
  else if c = ctrlH ∨ c = delete then
    if cons.e ≠ cons.w then { cons with e := cons.e - 1 } else cons
  else if c ≠ 0 ∧ (cons.e - cons.r).toNat < INPUT_BUF then
    let c := if c = carriageReturn then newline else c
    let cons := cons.put c
    if c = newline ∨ c = ctrlD ∨ cons.e = cons.r + INPUT_BUF.toUInt32 then
      { cons with w := cons.e }
    else cons
  else cons

/-- How a step of consoleread ends: it returns, or it sleeps with `n` bytes still to go. -/
inductive Ends
  | ret (answer : Int)
  | sleep (n : Nat)
  deriving DecidableEq

/-- The loop of consoleread up to its return or its next sleep, and the bytes that it copies
out. -/
def readLoop (killed : Bool) (target : Nat) : Nat → Cons → Cons × List UInt8 × Ends
  | 0, cons => (cons, [], .ret target)
  | n+1, cons =>
    if cons.r = cons.w then (cons, [], if killed then .ret (-1) else .sleep (n+1))
    else
      let c := cons.buf (cons.r.toNat % INPUT_BUF)
      let cons := { cons with r := cons.r + 1 }
      if c = ctrlD then
        -- `n < target`: the reader has bytes already
        if n + 1 < target then ({ cons with r := cons.r - 1 }, [], .ret (target - (n+1 : Nat)))
        else (cons, [], .ret (target - (n+1 : Nat)))
      else if c = newline then (cons, [c], .ret (target - n))
      else
        let q := readLoop killed target n cons
        (q.1, c :: q.2.1, q.2.2)

/-- A call of consoleread that sleeps. -/
structure Call where
  target : Nat
  n : Nat
  deriving DecidableEq

variable {T : Type}

structure State (T : Type) where
  cons : Cons
  call : T → Option Call

inductive Op (T : Type)
  | consoleintr (c : UInt8)
  | consoleread (t : T) (n : Int) (killed : Bool)
  | wake (t : T) (killed : Bool)

/-- What a step shows: the bytes that it copies out and the answer of consoleread. -/
abbrev Out := List UInt8 × Option Int

variable [DecidableEq T]

/-- A step of consoleread by thread `t`, from how it has ended. -/
def finish (call : T → Option Call) (t : T) (target : Nat) : Ends → (T → Option Call) × Option Int
  | .ret answer => (Function.update call t none, some answer)
  | .sleep n => (Function.update call t (some ⟨target, n⟩), none)

def readStep (s : State T) (t : T) (target n : Nat) (killed : Bool) : State T × Out :=
  let q := readLoop killed target n s.cons
  let f := finish s.call t target q.2.2
  (⟨q.1, f.1⟩, (q.2.1, f.2))

/-- A call with `n < 0` returns 0, as one with `n = 0` does. -/
def step (s : State T) : Op T → Option (State T × Out)
  | .consoleintr c => some ({ s with cons := consoleintr s.cons c }, ([], none))
  | .consoleread t n killed =>
    if s.call t = none then some (readStep s t n.toNat n.toNat killed) else none
  | .wake t killed =>
    match s.call t with
    | none => none
    | some k => some (readStep s t k.target k.n killed)

/-- The buffer before the first character. -/
def start (buf : Nat → UInt8) : State T := ⟨⟨buf, 0, 0, 0⟩, fun _ => none⟩

end Xv6Labs.Console
