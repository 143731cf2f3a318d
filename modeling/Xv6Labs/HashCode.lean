import Xv6Labs.Runs
import Mathlib.Logic.Function.Basic

/-! ph.c: the hash table and the calls of put and get by any threads. A step is one operation on
a bucket's lock, one access to the table or to an entry, or one malloc. Keys are non-negative,
the null pointer is 0. -/
namespace Xv6Labs.Hash

def NBUCKET : Nat := 5

/-- struct entry -/
structure Entry where
  key : Nat
  value : Int
  next : Nat
  deriving DecidableEq

/-- Where a thread is in put or get. `e` is the pointer of the scan or the new entry, `n` the
old head that insert is given. -/
inductive PC
  | idle
  | putLock (key : Nat) (value : Int)
  /-- `e = table[i]`; `e != 0` and `e->key == key`; `e->value = value` -/
  | putHead (key : Nat) (value : Int)
  | putScan (key : Nat) (value : Int) (e : Nat)
  | putUpdate (key : Nat) (value : Int) (e : Nat)
  /-- `insert(key, value, &table[i], table[i])`: malloc, the three fields, `*p = e` -/
  | insert (key : Nat) (value : Int)
  | malloc (key : Nat) (value : Int) (n : Nat)
  | setKey (key : Nat) (value : Int) (n e : Nat)
  | setValue (key : Nat) (value : Int) (n e : Nat)
  | setNext (key : Nat) (value : Int) (n e : Nat)
  | link (key : Nat) (value : Int) (e : Nat)
  | putUnlock (key : Nat)
  | getLock (key : Nat)
  | getHead (key : Nat)
  | getScan (key : Nat) (e : Nat)
  /-- `pthread_mutex_unlock(&lock[i]); return e` -/
  | getUnlock (key : Nat) (e : Nat)
  deriving DecidableEq

/-- The table, the heap and the threads. `used` lists the addresses that malloc has given,
`log` the puts in the order in which they took their lock. -/
structure State (T : Type) where
  table : Nat → Nat
  heap : Nat → Entry
  lock : Nat → Option T
  pc : T → PC
  used : List Nat
  log : List (Nat × Int)

variable {T : Type} [DecidableEq T]

def State.goto (s : State T) (x : T) (q : PC) : State T :=
  { s with pc := Function.update s.pc x q }

/-- pthread_mutex_lock waits until the lock is free. -/
def State.acquire (s : State T) (x : T) (i : Nat) : Option (State T) :=
  if s.lock i = none then some { s with lock := Function.update s.lock i (some x) } else none

def State.release (s : State T) (i : Nat) : State T :=
  { s with lock := Function.update s.lock i none }

def State.write (s : State T) (e : Nat) (v : Entry) : State T :=
  { s with heap := Function.update s.heap e v }

/-- The next step of thread `x`, where `addr` is what malloc answers. -/
def advance (s : State T) (x : T) (addr : Nat) : Option (State T) :=
  match s.pc x with
  | .idle => none
  | .putLock k v => (s.acquire x (k % NBUCKET)).map
      -- with the lock held this is the last put of the key
      (fun s => State.goto { s with log := s.log ++ [(k, v)] } x (.putHead k v))
  | .putHead k v => some (s.goto x (.putScan k v (s.table (k % NBUCKET))))
  | .putScan k v e =>
    if e = 0 then some (s.goto x (.insert k v))
    else if (s.heap e).key = k then some (s.goto x (.putUpdate k v e))
    else some (s.goto x (.putScan k v (s.heap e).next))
  | .putUpdate k v e =>
    some ((s.write e { s.heap e with value := v }).goto x (.putUnlock k))
  | .insert k v => some (s.goto x (.malloc k v (s.table (k % NBUCKET))))
  | .malloc k v n =>
    if addr ≠ 0 ∧ addr ∉ s.used then
      some (State.goto { s with used := addr :: s.used } x (.setKey k v n addr))
    else none
  | .setKey k v n e => some ((s.write e { s.heap e with key := k }).goto x (.setValue k v n e))
  | .setValue k v n e =>
    some ((s.write e { s.heap e with value := v }).goto x (.setNext k v n e))
  | .setNext k v n e => some ((s.write e { s.heap e with next := n }).goto x (.link k v e))
  | .link k _ e =>
    some (State.goto { s with table := Function.update s.table (k % NBUCKET) e } x (.putUnlock k))
  | .putUnlock k => some ((s.release (k % NBUCKET)).goto x .idle)
  | .getLock k => (s.acquire x (k % NBUCKET)).map (fun s => s.goto x (.getHead k))
  | .getHead k => some (s.goto x (.getScan k (s.table (k % NBUCKET))))
  | .getScan k e =>
    if e = 0 ∨ (s.heap e).key = k then some (s.goto x (.getUnlock k e))
    else some (s.goto x (.getScan k (s.heap e).next))
  | .getUnlock k _ => some ((s.release (k % NBUCKET)).goto x .idle)

inductive Event (T : Type)
  | put (x : T) (key : Nat) (value : Int)
  | get (x : T) (key : Nat)
  | advance (x : T) (addr : Nat)

def step (s : State T) : Event T → Option (State T)
  | .put x k v => if s.pc x = .idle then some (s.goto x (.putLock k v)) else none
  | .get x k => if s.pc x = .idle then some (s.goto x (.getLock k)) else none
  | .advance x addr => Hash.advance s x addr

/-- The empty table, before the threads start. -/
def init (heap : Nat → Entry) : State T where
  table := fun _ => 0
  heap := heap
  lock := fun _ => none
  pc := fun _ => .idle
  used := []
  log := []

/-- The value of the last put of the key. -/
def lastPut (log : List (Nat × Int)) (k : Nat) : Option Int :=
  (log.reverse.find? (fun p => p.1 = k)).map Prod.snd

/-- The value of the first entry with the key among the entries `l`. -/
def look (heap : Nat → Entry) (l : List Nat) (k : Nat) : Option Int :=
  (l.find? (fun p => (heap p).key = k)).map (fun p => (heap p).value)

end Xv6Labs.Hash
