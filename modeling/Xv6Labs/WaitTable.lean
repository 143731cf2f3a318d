import Xv6Labs.WaitCode

/-! What the threads do to the process table, without the locks: a machine whose state is the
table and the task of each process. The kernel refines it in `WaitThreads`. -/
namespace Xv6Labs.Wait

/-- What a thread is at, as far as parents and children are concerned. -/
inductive Task (N : Nat)
  | idle
  /-- fork has made `np`, and has not set its parent; has not started it -/
  | link (np : Fin N)
  | start (np : Fin N)
  /-- exit: before `wait_lock`; the slots below `n` are no children any more; a wakeup at slot
  `i`; all have been woken up; over -/
  | exit
  | leave (n : Nat)
  | waking (chan : Option (Chan N)) (i : Nat) (k : Task N)
  | die
  | dead
  /-- wait: the slots below `i` have been looked at; a child is found at `i` -/
  | scan (i : Nat) (havekids : Bool)
  | check (i : Fin N)
  | reaped (pid : Nat)
  | giveUp
  /-- going to sleep with `wait_lock`; with `p->lock` only -/
  | rest
  | doze
  deriving DecidableEq

/-- In the part of exit that has `wait_lock`, between the wakeups. -/
def Task.leaving : Task N → Bool
  | .leave _ | .die => true
  | _ => false

def PC.task : PC N → Task N
  | .user | .forkScan _ | .wait _ | .kill _ _ | .waitReturn .badAddr => .idle
  | .forkLink np => .link np
  | .forkStart np => .start np
  | .exit _ => .exit
  | .reparent pp _ => .leave pp
  | .exitLock _ => .die
  | .dead => .dead
  | .waitScan _ np havekids => .scan np havekids
  | .waitLock _ np => .check np
  | .waitReturn (.pid n) => .reaped n
  | .waitReturn .giveUp => .giveUp
  | .sleep (.proc _) _ _ => .rest
  | .sleepMark (.proc _) _ => .doze
  | .sleep (.other _) _ k | .sleepMark (.other _) k => k.task
  | .sleepTidy k | .yield k | .sched k | .parked k | .release _ k => k.task
  | .wakeup chan i k => if k.task.leaving then .waking chan i k.task else k.task

/-- The tasks that need `wait_lock`. -/
def Task.waits : Task N → Bool
  | .leave _ | .waking _ _ _ | .die | .scan _ _ | .check _ | .reaped _ | .giveUp | .rest => true
  | _ => false

/-- The child that a fork is making. -/
def Task.making : Task N → Option (Fin N)
  | .link np | .start np => some np
  | _ => none

/-- The slots that an exiting process has given away. -/
def Task.left : Task N → Option Nat
  | .leave n => some n
  | .waking _ _ k => k.left
  | .die => some N
  | _ => none

/-- In exit. -/
def Task.exiting : Task N → Bool
  | .exit | .leave _ | .waking _ _ _ | .die | .dead => true
  | _ => false

structure Table (N : Nat) where
  procs : Fin N → Proc N
  task : Fin N → Task N
  nextpid : Nat
  trace : List (Note N)

variable {N M : Nat}

def State.table (s : State N M) : Table N :=
  { procs := s.procs, task := fun p => (s.pc p).task, nextpid := s.nextpid, trace := s.trace }

def Table.at (x : Table N) (p : Fin N) (k : Task N) : Table N :=
  { x with task := Function.update x.task p k }

def Table.set (x : Table N) (i : Fin N) (q : Proc N) : Table N :=
  { x with procs := Function.update x.procs i q }

def Table.note (x : Table N) (n : Note N) : Table N := { x with trace := n :: x.trace }

/-- No task has `wait_lock`. -/
def Table.WaitFree (x : Table N) : Prop := ∀ q, (x.task q).waits = false

/-- What the thread of a running process does to the table. -/
inductive Act [NeZero N] (x : Table N) (p : Fin N) : Table N → Prop
  | alloc (np : Fin N) (h : x.task p = .idle) (hu : (x.procs np).state = .unused) :
      Act x p (({ x with nextpid := x.nextpid + 1 }.set np
        { x.procs np with pid := x.nextpid, state := .used }).at np .idle |>.at p (.link np))
  | drop (np : Fin N) (h : x.task p = .idle) (hu : (x.procs np).state = .unused) :
      Act x p (({ x with nextpid := x.nextpid + 1 }.set np freeproc).note (.dropped x.nextpid))
  | link (np : Fin N) (h : x.task p = .link np) (hw : x.WaitFree) :
      Act x p (((x.set np { x.procs np with parent := some p }).note
        (.forked (x.procs np).pid (x.procs p).pid)).at p (.start np))
  | start (np : Fin N) (h : x.task p = .start np) :
      Act x p ((x.set np { x.procs np with state := .runnable }).at p .idle)
  | exit (h : x.task p = .idle) (hp : p ≠ 0) : Act x p (x.at p .exit)
  | enter (h : x.task p = .exit) (hw : x.WaitFree) : Act x p (x.at p (.leave 0))
  | hand (i : Fin N) (h : x.task p = .leave i) (hi : (x.procs i).parent = some p) :
      Act x p ((x.set i { x.procs i with parent := some 0 }).at p
        (.waking (some (.proc 0)) 0 (.leave (i + 1))))
  | skip (i : Fin N) (h : x.task p = .leave i) (hi : (x.procs i).parent ≠ some p) :
      Act x p (x.at p (.leave (i + 1)))
  | tell (n : Nat) (h : x.task p = .leave n) (hn : N ≤ n) :
      Act x p (x.at p (.waking ((x.procs p).parent.map .proc) 0 .die))
  | wake (i : Fin N) (ch : Option (Chan N)) (k : Task N) (h : x.task p = .waking ch i k)
      (hi : i ≠ p) (hd : x.task i ≠ .doze) :
      Act x p ((x.set i ((x.procs i).wake ch)).at p (.waking ch (i + 1) k))
  | pass (ch : Option (Chan N)) (k : Task N) (h : x.task p = .waking ch p k) :
      Act x p (x.at p (.waking ch (p + 1) k))
  | woken (ch : Option (Chan N)) (i : Nat) (k : Task N) (h : x.task p = .waking ch i k)
      (hi : N ≤ i) : Act x p (x.at p k)
  | die (st : Int) (h : x.task p = .die) :
      Act x p (((x.set p { x.procs p with xstate := st, state := .zombie }).note
        (.exited (x.procs p).pid st)).at p .dead)
  | begin (h : x.task p = .idle) (hw : x.WaitFree) : Act x p (x.at p (.scan 0 false))
  | miss (i : Fin N) (kids : Bool) (h : x.task p = .scan i kids)
      (hi : (x.procs i).parent ≠ some p) : Act x p (x.at p (.scan (i + 1) kids))
  | find (i : Fin N) (kids : Bool) (h : x.task p = .scan i kids)
      (hi : (x.procs i).parent = some p) : Act x p (x.at p (.check i))
  | alive (i : Fin N) (h : x.task p = .check i) (hi : (x.procs i).state ≠ .zombie) :
      Act x p (x.at p (.scan (i + 1) true))
  | bad (i : Fin N) (h : x.task p = .check i) : Act x p (x.at p .idle)
  | reap (i : Fin N) (addr : Nat) (h : x.task p = .check i) (hi : (x.procs i).state = .zombie) :
      Act x p (((x.set i freeproc).note (.reaped (x.procs i).pid p (x.procs p).pid addr
        (if addr = 0 then none else some (x.procs i).xstate))).at p (.reaped (x.procs i).pid))
  | giveUp (i : Nat) (kids : Bool) (h : x.task p = .scan i kids) (hi : N ≤ i)
      (hk : kids = false ∨ (x.procs p).killed = true) : Act x p (x.at p .giveUp)
  | rest (i : Nat) (h : x.task p = .scan i true) (hi : N ≤ i) : Act x p (x.at p .rest)
  | doze (h : x.task p = .rest) : Act x p (x.at p .doze)
  | mark (h : x.task p = .doze) :
      Act x p ((x.set p { x.procs p with chan := some (.proc p), state := .sleeping }).at p .idle)
  | nap (n : Nat) (h : x.task p = .idle) :
      Act x p (x.set p { x.procs p with chan := some (.other n), state := .sleeping })
  | tidy (h : x.task p = .idle) : Act x p (x.set p { x.procs p with chan := none })
  | yield (h : x.task p ≠ .dead) : Act x p (x.set p { x.procs p with state := .runnable })
  | rouse (i : Fin N) (ch : Option (Chan N)) (hd : x.task i ≠ .doze) :
      Act x p (x.set i ((x.procs i).wake ch))
  | kill (i : Fin N) (hd : x.task i ≠ .doze) : Act x p (x.set i (x.procs i).kill)
  | returned (r : WaitEnd) (h : x.task p = (PC.waitReturn r).task) :
      Act x p ((x.note (.returned p r.value)).at p .idle)

/-- One step of the machine: a thread, scheduler, or a device. -/
inductive Move [NeZero N] (x : Table N) : Table N → Prop
  | act (p : Fin N) (y : Table N) (hp : (x.procs p).state = .running) (h : Act x p y) : Move x y
  | dispatch (i : Fin N) (h : (x.procs i).state = .runnable) :
      Move x (x.set i { x.procs i with state := .running })
  | device (i : Fin N) (n : Nat) : Move x (x.set i ((x.procs i).wake (some (.other n))))

/-- The table never has a process whose parent has gone. -/
structure TableInv [NeZero N] (x : Table N) : Prop where
  ends : ∀ p, x.task p = .dead ↔ (x.procs p).state = .zombie ∨ (x.procs p).state = .unused
  link : ∀ p np, x.task p = .link np → (x.procs np).state = .used ∧ (x.procs np).parent = none
  start : ∀ p np, x.task p = .start np →
    (x.procs np).state = .used ∧ (x.procs np).parent = some p
  sole : ∀ p q np, (x.task p).making = some np → (x.task q).making = some np → p = q
  root : (x.procs 0).state ≠ .unused ∧ (x.procs 0).state ≠ .used ∧ (x.procs 0).state ≠ .zombie ∧
    (x.procs 0).parent = none ∧ (x.task 0).exiting = false
  orphan : ∀ p, (x.procs p).state = .unused → (x.procs p).parent = none
  childless : ∀ p, (x.procs p).state = .unused ∨ (x.procs p).state = .used ∨
    (x.procs p).state = .zombie → ∀ c, (x.procs c).parent ≠ some p
  left : ∀ p n, (x.task p).left = some n → ∀ c : Fin N, c.val < n → (x.procs c).parent ≠ some p
  heir : ∀ p ch i k, x.task p = .waking ch i k →
    (∃ n, k = .leave n ∧ ch = some (.proc 0)) ∨ (k = .die ∧ ch = (x.procs p).parent.map .proc)
  self : ∀ c, (x.procs c).parent ≠ some c
  mutex : ∀ p q, (x.task p).waits = true → (x.task q).waits = true → p = q

section Fields

variable (x : Table N) (p i : Fin N) (k : Task N) (q : Proc N) (n : Note N)

@[simp, grind =] theorem Table.at_procs : (x.at p k).procs = x.procs := rfl
@[simp, grind =] theorem Table.at_task : (x.at p k).task = Function.update x.task p k := rfl
@[simp, grind =] theorem Table.at_nextpid : (x.at p k).nextpid = x.nextpid := rfl
@[simp, grind =] theorem Table.at_trace : (x.at p k).trace = x.trace := rfl
@[simp, grind =] theorem Table.set_procs :
    (x.set i q).procs = Function.update x.procs i q := rfl
@[simp, grind =] theorem Table.set_task : (x.set i q).task = x.task := rfl
@[simp, grind =] theorem Table.set_nextpid : (x.set i q).nextpid = x.nextpid := rfl
@[simp, grind =] theorem Table.set_trace : (x.set i q).trace = x.trace := rfl
@[simp, grind =] theorem Table.note_procs : (x.note n).procs = x.procs := rfl
@[simp, grind =] theorem Table.note_task : (x.note n).task = x.task := rfl
@[simp, grind =] theorem Table.note_nextpid : (x.note n).nextpid = x.nextpid := rfl
@[simp, grind =] theorem Table.note_trace : (x.note n).trace = n :: x.trace := rfl

end Fields

attribute [grind] Proc.wake Proc.kill freeproc PC.task Task.making Task.exiting Task.waits

@[grind →]
theorem Task.left_exiting (k : Task N) (n : Nat) (h : k.left = some n) : k.exiting = true := by
  cases k with
  | leave n | waking ch i k | die => rfl
  | _ => cases h

theorem Proc.wake_killed (q : Proc N) (ch : Option (Chan N)) : (q.wake ch).killed = q.killed := by
  unfold Proc.wake
  split_ifs <;> rfl

theorem Proc.wake_parent (q : Proc N) (ch : Option (Chan N)) : (q.wake ch).parent = q.parent := by
  unfold Proc.wake
  split_ifs <;> rfl

section Steps

variable [NeZero N] {x y : Table N} {p : Fin N}

theorem Act.ends (h : TableInv x) (hp : (x.procs p).state = .running) (ha : Act x p y) (r : Fin N) :
    y.task r = .dead ↔ (y.procs r).state = .zombie ∨ (y.procs r).state = .unused := by
  have hends := h.ends
  have hstart := h.start
  have hheir := h.heir
  cases ha <;> simp only [Table.at_procs, Table.at_task, Table.set_procs, Table.set_task,
    Table.note_procs, Table.note_task, Function.update_apply] <;> grind -linarith -order

theorem Act.link_used (h : TableInv x) (hp : (x.procs p).state = .running) (ha : Act x p y)
    (r np : Fin N) (hr : y.task r = .link np) :
    (y.procs np).state = .used ∧ (y.procs np).parent = none := by
  have hends := h.ends
  have hlink := h.link
  have hsole := h.sole
  have horphan := h.orphan
  have hheir := h.heir
  cases ha with
  | start i hs =>
    simp only [Table.at_task, Table.set_task, Table.at_procs, Table.set_procs,
      Function.update_apply] at hr ⊢
    split_ifs at hr with hrp
    -- two forks never make the same child
    have hne : np ≠ i := by
      rintro rfl
      exact hrp (hsole r p np (by rw [hr]; rfl) (by rw [hs]; rfl))
    rw [if_neg hne]
    exact hlink r np hr
  | _ =>
    simp only [Table.at_procs, Table.at_task, Table.set_procs, Table.set_task,
      Table.note_procs, Table.note_task, Function.update_apply] at hr ⊢
    grind -linarith -order

theorem Act.start_used (h : TableInv x) (hp : (x.procs p).state = .running) (ha : Act x p y)
    (r np : Fin N) (hr : y.task r = .start np) :
    (y.procs np).state = .used ∧ (y.procs np).parent = some r := by
  have hends := h.ends
  have hlink := h.link
  have hstart := h.start
  have hheir := h.heir
  cases ha <;> simp only [Table.at_procs, Table.at_task, Table.set_procs, Table.set_task,
    Table.note_procs, Table.note_task, Function.update_apply] at hr ⊢ <;> grind -linarith -order

theorem TableInv.making_used (h : TableInv x) {r np : Fin N}
    (hr : (x.task r).making = some np) : (x.procs np).state = .used := by
  cases hk : x.task r with
  | link j =>
    rw [hk] at hr
    cases hr
    exact (h.link r np hk).1
  | start j =>
    rw [hk] at hr
    cases hr
    exact (h.start r np hk).1
  | _ =>
    rw [hk] at hr
    cases hr

theorem Act.sole (h : TableInv x) (ha : Act x p y)
    (r q np : Fin N) (hr : (y.task r).making = some np) (hq : (y.task q).making = some np) :
    r = q := by
  have hsole := h.sole
  have hheir := h.heir
  have hused := fun r np => @TableInv.making_used N _ x h r np
  cases ha <;> simp only [Table.at_task, Table.set_task, Table.note_task,
    Function.update_apply] at hr hq <;> grind -linarith -order

theorem Act.root (h : TableInv x) (hp : (x.procs p).state = .running) (ha : Act x p y) :
    (y.procs 0).state ≠ .unused ∧ (y.procs 0).state ≠ .used ∧ (y.procs 0).state ≠ .zombie ∧
      (y.procs 0).parent = none ∧ (y.task 0).exiting = false := by
  have hends := h.ends
  have hlink := h.link
  have hroot := h.root
  cases ha <;> simp only [Table.at_procs, Table.at_task, Table.set_procs, Table.set_task,
    Table.note_procs, Table.note_task, Function.update_apply] <;> grind -linarith -order

theorem Act.orphan (h : TableInv x) (hp : (x.procs p).state = .running) (ha : Act x p y)
    (r : Fin N) (hr : (y.procs r).state = .unused) : (y.procs r).parent = none := by
  have hlink := h.link
  have horphan := h.orphan
  cases ha <;> simp only [Table.at_procs, Table.set_procs,
    Table.note_procs, Function.update_apply] at hr ⊢ <;> grind -linarith -order

theorem Act.childless (h : TableInv x) (hp : (x.procs p).state = .running) (ha : Act x p y)
    (r : Fin N) (hr : (y.procs r).state = .unused ∨ (y.procs r).state = .used ∨
      (y.procs r).state = .zombie) (c : Fin N) : (y.procs c).parent ≠ some r := by
  have hends := h.ends
  have hchild := h.childless
  have hroot := h.root
  cases ha with
  | die st hd =>
    have hall := h.left p N (by rw [hd]; rfl)
    simp only [Table.at_procs, Table.set_procs, Table.note_procs, Function.update_apply] at hr ⊢
    grind -linarith -order
  | _ =>
    simp only [Table.at_procs, Table.set_procs, Table.note_procs, Function.update_apply] at hr ⊢
    grind -linarith -order

theorem Act.left (h : TableInv x) (ha : Act x p y)
    (r : Fin N) (n : Nat) (hr : (y.task r).left = some n) (c : Fin N) (hc : c.val < n) :
    (y.procs c).parent ≠ some r := by
  have hends := h.ends
  have hleft := h.left
  have hroot := h.root
  cases ha with
  | hand i hl hi =>
    simp only [Table.at_task, Table.set_task, Table.at_procs, Table.set_procs,
      Function.update_apply] at hr ⊢
    have hr0 : r ≠ 0 := by
      rintro rfl
      by_cases hp0 : 0 = p
      · have := hroot.2.2.2.2
        rw [hp0, hl] at this
        cases this
      · rw [if_neg hp0] at hr
        have := Task.left_exiting _ _ hr
        rw [hroot.2.2.2.2] at this
        cases this
    by_cases hci : c = i
    · -- the slot that has just been handed over
      rw [if_pos hci]
      exact fun heq => hr0 (Option.some.inj heq).symm
    · rw [if_neg hci]
      by_cases hrp : r = p
      · rw [if_pos hrp] at hr
        have hn : i.val + 1 = n := Option.some.inj hr
        rw [hrp]
        exact hleft p i (by rw [hl]; rfl) c (by have := Fin.val_ne_of_ne hci; omega)
      · rw [if_neg hrp] at hr
        exact hleft r n hr c hc
  | skip i hl hi =>
    simp only [Table.at_task, Table.at_procs, Function.update_apply] at hr ⊢
    by_cases hrp : r = p
    · rw [if_pos hrp] at hr
      have hn : i.val + 1 = n := Option.some.inj hr
      rw [hrp]
      by_cases hci : c = i
      · rw [hci]
        exact hi
      · exact hleft p i (by rw [hl]; rfl) c (by have := Fin.val_ne_of_ne hci; omega)
    · rw [if_neg hrp] at hr
      exact hleft r n hr c hc
  | tell m hl hm =>
    simp only [Table.at_task, Table.at_procs, Function.update_apply] at hr ⊢
    by_cases hrp : r = p
    · rw [hrp]
      exact hleft p m (by rw [hl]; rfl) c (by omega)
    · rw [if_neg hrp] at hr
      exact hleft r n hr c hc
  | _ =>
    simp only [Table.at_procs, Table.at_task, Table.set_procs, Table.set_task,
      Table.note_procs, Table.note_task, Function.update_apply] at hr ⊢
    grind -linarith -order [Task.left]

theorem Act.heir (h : TableInv x) (ha : Act x p y)
    (r : Fin N) (ch : Option (Chan N)) (i : Nat) (k : Task N) (hr : y.task r = .waking ch i k) :
    (∃ n, k = .leave n ∧ ch = some (.proc 0)) ∨
      (k = .die ∧ ch = (y.procs r).parent.map .proc) := by
  have hmutex := h.mutex
  have hends := h.ends
  have hheir := h.heir
  have hlink := h.link
  cases ha <;> simp only [Table.at_procs, Table.at_task, Table.set_procs, Table.set_task,
    Table.note_procs, Table.note_task, Function.update_apply] at hr ⊢ <;>
    grind -linarith -order [Table.WaitFree]

theorem Act.self (h : TableInv x) (hp : (x.procs p).state = .running) (ha : Act x p y)
    (c : Fin N) : (y.procs c).parent ≠ some c := by
  have hlink := h.link
  have hroot := h.root
  have hself := h.self
  cases ha <;> simp only [Table.at_procs, Table.set_procs, Table.note_procs,
    Function.update_apply] <;> grind -linarith -order

theorem Act.mutex (h : TableInv x) (ha : Act x p y) (r q : Fin N)
    (hr : (y.task r).waits = true) (hq : (y.task q).waits = true) : r = q := by
  have hmutex := h.mutex
  have hheir := h.heir
  cases ha <;> simp only [Table.at_task, Table.set_task, Table.note_task,
    Function.update_apply] at hr hq <;> grind -linarith -order [Table.WaitFree]

/-- A change of a process between sleeping, runnable and running. -/
theorem TableInv.set_awake (h : TableInv x) (i : Fin N) (q : Proc N)
    (hq : q.parent = (x.procs i).parent) (hs : q.state = (x.procs i).state ∨
      ((q.state = .runnable ∨ q.state = .running) ∧
        ((x.procs i).state = .sleeping ∨ (x.procs i).state = .runnable))) :
    TableInv (x.set i q) := by
  have hparent : ∀ c, ((x.set i q).procs c).parent = (x.procs c).parent := by
    intro c
    by_cases hc : c = i
    · simp only [Table.set_procs, hc, Function.update_self, hq]
    · simp only [Table.set_procs, Function.update_of_ne hc]
  have hstate : ∀ c k, k = .unused ∨ k = .used ∨ k = .zombie →
      (((x.set i q).procs c).state = k ↔ (x.procs c).state = k) := by
    intro c k hk
    by_cases hc : c = i
    · simp only [Table.set_procs, hc, Function.update_self]
      grind -linarith -order
    · simp only [Table.set_procs, Function.update_of_ne hc]
  have hunused := fun c => hstate c .unused (Or.inl rfl)
  have hused := fun c => hstate c .used (Or.inr (Or.inl rfl))
  have hzombie := fun c => hstate c .zombie (Or.inr (Or.inr rfl))
  constructor <;> simp only [hparent, hunused, hused, hzombie, Table.set_task, ne_eq]
  · exact h.ends
  · exact h.link
  · exact h.start
  · exact h.sole
  · exact h.root
  · exact h.orphan
  · exact h.childless
  · exact h.left
  · exact h.heir
  · exact h.self
  · exact h.mutex

/-- Every step of the machine keeps the invariant. -/
theorem TableInv.move (h : TableInv x) (hm : Move x y) : TableInv y := by
  cases hm with
  | act p y hp ha =>
    exact {
      ends := ha.ends h hp
      link := ha.link_used h hp
      start := ha.start_used h hp
      sole := ha.sole h
      root := ha.root h hp
      orphan := ha.orphan h hp
      childless := ha.childless h hp
      left := ha.left h
      heir := ha.heir h
      self := ha.self h hp
      mutex := ha.mutex h }
  | dispatch i hi => exact h.set_awake i _ rfl (Or.inr ⟨Or.inr rfl, Or.inr hi⟩)
  | device i n =>
    refine h.set_awake i _ (Proc.wake_parent _ _) ?_
    unfold Proc.wake
    split_ifs with hw
    · exact Or.inr ⟨Or.inl rfl, Or.inl hw.1⟩
    · exact Or.inl rfl

end Steps

end Xv6Labs.Wait
