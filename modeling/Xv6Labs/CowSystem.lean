import Xv6Labs.CowProcs

/-! The processes of a kernel with a given uvmcopy, and the machine that says what their
memory is for: every process has pages of its own. -/
namespace Xv6Labs.Cow

variable {n : Nat}

/-- What an operation answers. -/
inductive Obs where
  | done
  | killed
  | byte (b : UInt8)
  | bytes (r : Option (List UInt8))
  | result (ok : Bool)
  deriving DecidableEq

/-- `create` is the first process or exec's new table, `guard` is exec's uvmclear, `exit`
covers exit and wait's freeproc. -/
inductive Op (n : Nat) where
  | create (t : Fin n)
  | fork (p q : Fin n)
  | load (t : Fin n) (va : Nat)
  | store (t : Fin n) (va : Nat) (b : UInt8)
  | copyout (t : Fin n) (dstva : Nat) (src : List UInt8)
  | copyin (t : Fin n) (srcva len : Nat)
  | grow (t : Fin n) (newsz : Nat)
  | shrink (t : Fin n) (newsz : Nat)
  | guard (t : Fin n) (va : Nat)
  | exit (t : Fin n)

section Kernel

/-- fork: a new table, the copy, and freeproc when the copy fails. -/
def fork (copy : State n → Fin n → Fin n → Nat → Option (State n × Bool)) (s : State n)
    (p q : Fin n) : Option (State n × Bool) :=
  let r := uvmcreate s q
  if r.2 then
    match copyTo copy r.1 p q with
    | none => none
    | some (s, true) => some (s, true)
    | some (s, false) => (freeTable s q).map (fun s => (s, false))
  else some (r.1, false)

/-- An operation of a process in a kernel with the uvmcopy `copy`; only a process that is
not killed runs. -/
def step (copy : State n → Fin n → Fin n → Nat → Option (State n × Bool)) (s : State n)
    (op : Op n) : Option (State n × Obs) :=
  let running (t : Fin n) (r : Option (State n × Obs)) :=
    if s.live t && !s.killed t then r else none
  match op with
  | .create t =>
    if s.live t then none
    else
      let r := uvmcreate s t
      some (r.1, .result r.2)
  | .fork p q =>
    running p (if s.live q then none else (fork copy s p q).map (fun r => (r.1, .result r.2)))
  | .load t va =>
    running t ((userAccess t va PTE.r 2 s).map (fun r =>
      match r.2 with
      | some pa => (r.1, .byte (r.1.mem pa (va % PGSIZE)))
      | none => (r.1, .killed)))
  | .store t va b =>
    running t ((userAccess t va PTE.w 2 s).map (fun r =>
      match r.2 with
      | some pa =>
        (r.1.fill pa (Function.update (r.1.mem pa) (va % PGSIZE) b), .done)
      | none => (r.1, .killed)))
  | .copyout t dstva src =>
    running t ((copyout s t dstva src).map (fun r => (r.1, .result r.2)))
  | .copyin t srcva len => running t (some (s, .bytes (copyin s t srcva len)))
  | .grow t newsz => running t ((growTo s t newsz).map (fun s => (s, .done)))
  | .shrink t newsz => running t ((shrinkTo s t newsz).map (fun s => (s, .done)))
  | .guard t va =>
    running t (if va < s.sz t then (uvmclear s t va).map (fun s => (s, .done)) else none)
  | .exit t =>
    if s.live t then (freeTable s t).map (fun s => (s.setKilled t false, .done)) else none

end Kernel

section Spaces

/-- Every process has an address space of its own. -/
structure Spaces (n : Nat) where
  live : Fin n → Bool
  page : View n
  sz : Fin n → Nat
  killed : Fin n → Bool

/-- The bytes of the page of `va`, when the process may access it. -/
def userPage (V : View n) (t : Fin n) (va : Nat) : Option (Nat → UInt8) :=
  if MAXVA ≤ va then none
  else
    match V (t, slotOf va) with
    | some (page, true) => some page
    | _ => none

def View.write (V : View n) (t : Fin n) (va : Nat) (page : Nat → UInt8) : View n :=
  Function.update V (t, slotOf va) (some (page, true))

def Spaces.kill (a : Spaces n) (t : Fin n) : Spaces n :=
  { a with killed := Function.update a.killed t true }

def viewOut (t : Fin n) : Nat → View n → Nat → List UInt8 → View n × Bool
  | 0, V, _, _ => (V, true)
  | fuel+1, V, dstva, src =>
    if src.length = 0 then (V, true)
    else
      match userPage V t (PGROUNDDOWN dstva) with
      | none => (V, false)
      | some page =>
        let m := chunk dstva src.length
        viewOut t fuel
          (V.write t dstva (writeBytes page (dstva - PGROUNDDOWN dstva) (src.take m)))
          (PGROUNDDOWN dstva + PGSIZE) (src.drop m)

def viewIn (V : View n) (t : Fin n) : Nat → Nat → Nat → Option (List UInt8)
  | 0, _, _ => some []
  | fuel+1, srcva, len =>
    if len = 0 then some []
    else
      match userPage V t (PGROUNDDOWN srcva) with
      | none => none
      | some page =>
        let m := chunk srcva len
        (viewIn V t fuel (PGROUNDDOWN srcva + PGSIZE) (len - m)).map (fun rest =>
          (List.range m).map (fun i => page (srcva - PGROUNDDOWN srcva + i)) ++ rest)

/-- The operations on private address spaces; a size beyond MAXVA is a panic. -/
def Spaces.step (a : Spaces n) (op : Op n) : Option (Spaces n × Obs) :=
  let running (t : Fin n) (r : Option (Spaces n × Obs)) :=
    if a.live t && !a.killed t then r else none
  match op with
  | .create t =>
    if a.live t then none
    else some ({ a with live := Function.update a.live t true }, .result true)
  | .fork p q =>
    running p (if a.live q then none else some (
      { a with
        live := Function.update a.live q true
        page := copied a.page p q (npages (a.sz p))
        sz := Function.update a.sz q (a.sz p) }, .result true))
  | .load t va =>
    running t (match userPage a.page t va with
      | some page => some (a, .byte (page (va % PGSIZE)))
      | none => some (a.kill t, .killed))
  | .store t va b =>
    running t (match userPage a.page t va with
      | some page =>
        some ({ a with page := a.page.write t va (Function.update page (va % PGSIZE) b) }, .done)
      | none => some (a.kill t, .killed))
  | .copyout t dstva src =>
    running t (
      let r := viewOut t src.length a.page dstva src
      some ({ a with page := r.1 }, .result r.2))
  | .copyin t srcva len => running t (some (a, .bytes (viewIn a.page t len srcva len)))
  | .grow t newsz =>
    running t (if npages newsz ≤ 67108864 then some (
      { a with
        page := setRange a.page t (npages (a.sz t)) (npages newsz - npages (a.sz t))
          (fun _ => some zeroPage)
        sz := Function.update a.sz t (max (a.sz t) newsz) }, .done) else none)
  | .shrink t newsz =>
    running t (some (
      { a with
        page := setRange a.page t (npages newsz) (npages (a.sz t) - npages newsz)
          (fun _ => none)
        sz := Function.update a.sz t (min (a.sz t) newsz) }, .done))
  | .guard t va =>
    running t (if va < a.sz t then some (
      { a with
        page := Function.update a.page (t, slotOf va)
          ((a.page (t, slotOf va)).map (fun p => (p.1, false))) }, .done) else none)
  | .exit t =>
    if a.live t then some (
      { live := Function.update a.live t false
        page := setRange a.page t 0 (npages (a.sz t)) (fun _ => none)
        sz := Function.update a.sz t 0
        killed := Function.update a.killed t false }, .done) else none

/-- The address spaces of a state. -/
def spaces (s : State n) : Spaces n := ⟨s.live, view s, s.sz, s.killed⟩

end Spaces

end Xv6Labs.Cow
