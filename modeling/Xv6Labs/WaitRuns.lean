import Xv6Labs.WaitKids
import Xv6Labs.WaitRefine

/-! What is told of each process in a run from boot, and of each call of wait. -/
namespace Xv6Labs.Wait

variable {N M : Nat}

/-- A note about the life of process `pid`. -/
def Note.about (pid : Nat) : Note N → Bool
  | .forked n _ | .dropped n | .exited n _ | .reaped n _ _ _ _ => n == pid
  | .returned _ _ => false

/-- The life of a process, the latest first: it is forked, exits, and is freed by a wait of the
process that forked it or of init, whose pid is 1. A fork that fails frees what it has made. -/
inductive Life (pid : Nat) : List (Note N) → Prop
  | unborn : Life pid []
  | dropped : Life pid [.dropped pid]
  | forked (q : Nat) : Life pid [.forked pid q]
  | exited (q : Nat) (st : Int) : Life pid [.exited pid st, .forked pid q]
  | reaped (q : Nat) (st : Int) (p : Fin N) (r addr : Nat) (hr : r = q ∨ r = 1) :
      Life pid [.reaped pid p r addr (if addr = 0 then none else some st), .exited pid st,
        .forked pid q]

/-- A note about a call of wait by slot `p`. -/
def Note.waitOf (p : Fin N) : Note N → Bool
  | .reaped _ q _ _ _ | .returned q _ => q == p
  | _ => false

/-- The calls of wait by slot `p`, the latest first. The first argument is the pid that the call
going on has to return. -/
inductive Calls (p : Fin N) : Option Nat → List (Note N) → Prop
  | start : Calls p none []
  | other (o : Option Nat) (n : Note N) (l : List (Note N)) (hn : n.waitOf p = false)
      (h : Calls p o l) : Calls p o (n :: l)
  | reaped (pid r addr : Nat) (out : Option Int) (l : List (Note N)) (h : Calls p none l) :
      Calls p (some pid) (.reaped pid p r addr out :: l)
  | returned (pid : Nat) (l : List (Note N)) (h : Calls p (some pid) l) :
      Calls p none (.returned p pid :: l)
  | failed (l : List (Note N)) (h : Calls p none l) : Calls p none (.returned p (-1) :: l)

/-- What is told of process `pid`. -/
def Table.life (x : Table N) (pid : Nat) : List (Note N) := x.trace.filter (Note.about pid)

/-- The pid that a call of wait has to return. -/
def Task.owes : Task N → Option Nat
  | .reaped pid => some pid
  | _ => none

/-- What has been told of a process that lives. -/
def Table.Recorded [NeZero N] (x : Table N) (p : Fin N) : Prop :=
  ((x.procs p).parent = none ∧ ((x.procs p).state ≠ .used → p = 0) ∧
    x.life (x.procs p).pid = []) ∨
  ∃ r q, (x.procs p).parent = some r ∧ (r = 0 ∨ (x.procs r).pid = q) ∧
    x.life (x.procs p).pid = if (x.procs p).state = .zombie then
      [.exited (x.procs p).pid (x.procs p).xstate, .forked (x.procs p).pid q]
    else [.forked (x.procs p).pid q]

structure TraceInv [NeZero N] (x : Table N) : Prop where
  rootPid : (x.procs 0).pid = 1
  fresh : ∀ n, x.nextpid ≤ n → x.life n = []
  live : ∀ p, (x.procs p).state ≠ .unused → (x.procs p).pid < x.nextpid
  inj : ∀ p q, (x.procs p).state ≠ .unused → (x.procs q).state ≠ .unused →
    (x.procs p).pid = (x.procs q).pid → p = q
  recorded : ∀ p, (x.procs p).state ≠ .unused → x.Recorded p
  life : ∀ n, Life n (x.life n)
  calls : ∀ p, Calls p (x.task p).owes x.trace

theorem life_cons (n : Note N) (l : List (Note N)) (pid : Nat) :
    (n :: l).filter (Note.about pid) =
      if n.about pid then n :: l.filter (Note.about pid) else l.filter (Note.about pid) := by
  rw [List.filter_cons]

theorem Table.life_note (x : Table N) (n : Note N) (pid : Nat) :
    (x.note n).life pid = if n.about pid then n :: x.life pid else x.life pid := by
  rw [Table.life, Table.note_trace, life_cons]
  rfl

theorem Table.life_note_ne (x : Table N) (n : Note N) (pid : Nat) (h : n.about pid = false) :
    (x.note n).life pid = x.life pid := by
  rw [Table.life_note, h]
  rfl

/-- A step that leaves a process, its parent's pid and the notes about it. -/
theorem Table.Recorded.keep [NeZero N] {x y : Table N} {r : Fin N} (h : x.Recorded r)
    (hparent : (y.procs r).parent = (x.procs r).parent) (hpid : (y.procs r).pid = (x.procs r).pid)
    (hx : (y.procs r).xstate = (x.procs r).xstate)
    (hz : (y.procs r).state = .zombie ↔ (x.procs r).state = .zombie)
    (hu : (y.procs r).state = .used ↔ (x.procs r).state = .used)
    (hpids : ∀ i, (x.procs r).parent = some i → (y.procs i).pid = (x.procs i).pid)
    (hlife : y.life (x.procs r).pid = x.life (x.procs r).pid) : y.Recorded r := by
  unfold Table.Recorded at h ⊢
  rw [hparent, hpid, hx, hlife]
  simp only [hz, hu, ne_eq]
  rcases h with h | ⟨i, q, hi, hq, hl⟩
  · exact Or.inl h
  · exact Or.inr ⟨i, q, hi, by rw [hpids i hi]; exact hq, hl⟩

section Steps

variable [NeZero N] {x y : Table N} {p : Fin N}

attribute [grind] Task.owes Note.waitOf Note.about

theorem Act.calls (h : TableInv x) (ht : TraceInv x) (ha : Act x p y) (r : Fin N) :
    Calls r (y.task r).owes y.trace := by
  have hcalls := ht.calls r
  have hheir := h.heir
  have hends := h.ends
  cases ha with
  | drop np hi hu | link np hi hu | die st hi =>
    simp only [Table.at_task, Table.set_task, Table.at_trace, Table.set_trace,
      Table.note_trace, Table.note_task, Function.update_apply]
    refine Calls.other _ _ _ rfl ?_
    grind -linarith -order
  | reap i addr hi hz =>
    simp only [Table.at_task, Table.set_task, Table.at_trace, Table.set_trace,
      Table.note_trace, Table.note_task, Function.update_apply]
    by_cases hr : r = p
    · rw [if_pos hr, hr]
      rw [hr, hi] at hcalls
      exact Calls.reaped _ _ _ _ _ hcalls
    · rw [if_neg hr]
      exact Calls.other _ _ _ (by simpa [Note.waitOf] using Ne.symm hr) hcalls
  | returned e hi =>
    simp only [Table.at_task, Table.at_trace, Table.note_trace, Table.note_task,
      Function.update_apply]
    by_cases hr : r = p
    · rw [if_pos hr, hr]
      rw [hr, hi] at hcalls
      cases e with
      | pid n => exact Calls.returned n _ hcalls
      | badAddr | giveUp => exact Calls.failed _ hcalls
    · rw [if_neg hr]
      exact Calls.other _ _ _ (by simpa [Note.waitOf] using Ne.symm hr) hcalls
  | _ =>
    simp only [Table.at_task, Table.set_task, Table.at_trace, Table.set_trace,
      Function.update_apply]
    grind -linarith -order

theorem Act.rootPid (h : TableInv x) (ht : TraceInv x) (ha : Act x p y) : (y.procs 0).pid = 1 := by
  have hroot := h.root
  have hpid := ht.rootPid
  have hends := h.ends
  cases ha <;> simp only [Table.at_procs, Table.set_procs, Table.note_procs,
    Function.update_apply] <;> grind -linarith -order

theorem Act.live (h : TableInv x) (ht : TraceInv x) (hp : (x.procs p).state = .running)
    (ha : Act x p y) (r : Fin N) (hr : (y.procs r).state ≠ .unused) :
    (y.procs r).pid < y.nextpid := by
  have hstart := h.start
  have hlive := ht.live
  cases ha <;> simp only [Table.at_procs, Table.set_procs, Table.note_procs, Table.at_nextpid,
    Table.set_nextpid, Table.note_nextpid, Function.update_apply] at hr ⊢ <;> grind -linarith -order

theorem Act.inj (h : TableInv x) (ht : TraceInv x) (hp : (x.procs p).state = .running)
    (ha : Act x p y) (r q : Fin N) (hr : (y.procs r).state ≠ .unused)
    (hq : (y.procs q).state ≠ .unused) (hpid : (y.procs r).pid = (y.procs q).pid) : r = q := by
  have hstart := h.start
  have hlive := ht.live
  have hinj := ht.inj
  cases ha <;> simp only [Table.at_procs, Table.set_procs, Table.note_procs,
    Function.update_apply] at hr hq hpid <;> grind -linarith -order

theorem Act.fresh (h : TableInv x) (ht : TraceInv x) (hp : (x.procs p).state = .running)
    (ha : Act x p y) (n : Nat) (hn : y.nextpid ≤ n) : y.life n = [] := by
  have hlink := h.link
  have hfresh := ht.fresh
  have hlive := ht.live
  simp only [Table.life] at hfresh ⊢
  cases ha <;> simp only [Table.at_trace, Table.set_trace, Table.note_trace, Table.at_nextpid,
    Table.set_nextpid, Table.note_nextpid, life_cons] at hn ⊢ <;> grind -linarith -order

theorem Act.recorded (h : TableInv x) (ht : TraceInv x) (hp : (x.procs p).state = .running)
    (ha : Act x p y) (r : Fin N) (hr : (y.procs r).state ≠ .unused) : y.Recorded r := by
  have hrec := ht.recorded
  cases ha with
  | alloc np hi hu =>
    by_cases hrn : r = np
    · -- the new process has no parent yet, and its pid is new
      refine Or.inl ⟨?_, ?_, ?_⟩
      · simp only [Table.at_procs, Table.set_procs, hrn, Function.update_self]
        exact h.orphan np hu
      · simp only [Table.at_procs, Table.set_procs, hrn, Function.update_self]
        exact fun hne => absurd rfl hne
      · simp only [Table.at_procs, Table.set_procs, hrn, Function.update_self]
        exact ht.fresh x.nextpid (Nat.le_refl _)
    · simp only [Table.at_procs, Table.set_procs, Function.update_of_ne hrn] at hr
      -- a free slot is nobody's parent
      have hne : ∀ i, (x.procs r).parent = some i → i ≠ np := by
        rintro i hi rfl
        exact h.childless i (Or.inl hu) r hi
      refine (hrec r hr).keep ?_ ?_ ?_ ?_ ?_ (fun i hi => ?_) rfl <;>
        simp only [Table.at_procs, Table.set_procs, Function.update_of_ne hrn]
      rw [Function.update_of_ne (hne i hi)]
  | drop np hi hu =>
    by_cases hrn : r = np
    · simp only [Table.set_procs, Table.note_procs, hrn, Function.update_self] at hr
      exact absurd rfl hr
    · simp only [Table.set_procs, Table.note_procs, Function.update_of_ne hrn] at hr
      have hne : ∀ i, (x.procs r).parent = some i → i ≠ np := by
        rintro i hi rfl
        exact h.childless i (Or.inl hu) r hi
      -- the pid that is given back is above those of all processes
      have hother : (Note.dropped x.nextpid : Note N).about (x.procs r).pid = false := by
        have := ht.live r hr
        simp only [Note.about, beq_eq_false_iff_ne]
        omega
      refine (hrec r hr).keep ?_ ?_ ?_ ?_ ?_ (fun i hi => ?_) (Table.life_note_ne _ _ _ hother) <;>
        simp only [Table.note_procs, Table.set_procs, Function.update_of_ne hrn]
      rw [Function.update_of_ne (hne i hi)]
  | link np hi hw =>
    obtain ⟨hused, hnone⟩ := h.link p np hi
    have hpn : p ≠ np := by
      rintro rfl
      rw [hp] at hused
      cases hused
    by_cases hrn : r = np
    · subst hrn
      -- nothing has been noted of the child before
      have hlife : x.life (x.procs r).pid = [] := by
        rcases hrec r (by rw [hused]; simp) with ⟨-, -, hl⟩ | ⟨i, q, hi, -, -⟩
        · exact hl
        · rw [hnone] at hi
          cases hi
      refine Or.inr ⟨p, (x.procs p).pid, ?_, Or.inr ?_, ?_⟩
      · simp only [Table.at_procs, Table.note_procs, Table.set_procs, Function.update_self]
      · simp only [Table.at_procs, Table.note_procs, Table.set_procs, Function.update_of_ne hpn]
      · simp only [Table.at_procs, Table.note_procs, Table.set_procs, Function.update_self, hused]
        change (Table.note _ _).life _ = _
        rw [Table.life_note, if_pos (by simp [Note.about])]
        change _ :: x.life (x.procs r).pid = _
        rw [hlife, if_neg (by simp)]
    · simp only [Table.at_procs, Table.note_procs, Table.set_procs, Function.update_of_ne hrn] at hr
      have hother : (Note.forked (x.procs np).pid (x.procs p).pid : Note N).about
          (x.procs r).pid = false := by
        simp only [Note.about, beq_eq_false_iff_ne]
        exact fun heq => hrn (ht.inj np r (by rw [hused]; simp) hr heq).symm
      refine (hrec r hr).keep ?_ ?_ ?_ ?_ ?_ (fun i hi => ?_) (Table.life_note_ne _ _ _ hother) <;>
        simp only [Table.at_procs, Table.note_procs, Table.set_procs, Function.update_of_ne hrn]
      rw [Function.update_apply]
      split_ifs with hin
      · rw [hin]
      · rfl
  | hand i hl hi =>
    -- only the parent changes, so the slot was in use before
    have hstate : (x.procs r).state ≠ .unused := by
      simp only [Table.at_procs, Table.set_procs, Function.update_apply] at hr
      grind -linarith -order
    by_cases hri : r = i
    · rcases hrec r hstate with ⟨hnone, -⟩ | ⟨j, q, hj, hq, hlife⟩
      · rw [hri, hi] at hnone
        cases hnone
      · refine Or.inr ⟨0, q, ?_, Or.inl rfl, ?_⟩
        · simp only [Table.at_procs, Table.set_procs, hri, Function.update_self]
        · simp only [Table.at_procs, Table.set_procs, hri, Function.update_self]
          rw [hri] at hlife
          exact hlife
    · refine (hrec r hstate).keep ?_ ?_ ?_ ?_ ?_ (fun j hj => ?_) rfl <;>
        simp only [Table.at_procs, Table.set_procs, Function.update_of_ne hri]
      rw [Function.update_apply]
      split_ifs with hji
      · rw [hji]
      · rfl
  | die st hd =>
    have hstate : (x.procs r).state ≠ .unused := by
      simp only [Table.at_procs, Table.note_procs, Table.set_procs, Function.update_apply] at hr
      grind -linarith -order
    by_cases hrp : r = p
    · subst hrp
      rcases hrec r hstate with ⟨-, hzero, -⟩ | ⟨j, q, hj, hq, hlife⟩
      · -- init does not exit
        have hr0 := hzero (by rw [hp]; simp)
        have := h.root.2.2.2.2
        rw [← hr0, hd] at this
        cases this
      · have hjr : j ≠ r := by
          rintro rfl
          exact h.self j hj
        refine Or.inr ⟨j, q, ?_, ?_, ?_⟩
        · simp only [Table.at_procs, Table.note_procs, Table.set_procs, Function.update_self]
          exact hj
        · simp only [Table.at_procs, Table.note_procs, Table.set_procs, Function.update_of_ne hjr]
          exact hq
        · simp only [Table.at_procs, Table.note_procs, Table.set_procs, Function.update_self]
          change (Table.note _ _).life _ = _
          rw [Table.life_note, if_pos (by simp [Note.about])]
          change _ :: x.life (x.procs r).pid = _
          rw [hlife, hp, if_neg (by simp), if_pos trivial]
    · have hother : (Note.exited (x.procs p).pid st : Note N).about (x.procs r).pid = false := by
        simp only [Note.about, beq_eq_false_iff_ne]
        exact fun heq => hrp (ht.inj p r (by rw [hp]; simp) hstate heq).symm
      refine (hrec r hstate).keep ?_ ?_ ?_ ?_ ?_ (fun j hj => ?_)
        (Table.life_note_ne _ _ _ hother) <;>
        simp only [Table.at_procs, Table.note_procs, Table.set_procs, Function.update_of_ne hrp]
      rw [Function.update_apply]
      split_ifs with hjp
      · rw [hjp]
      · rfl
  | reap i addr hi hz =>
    by_cases hri : r = i
    · simp only [Table.at_procs, Table.set_procs, Table.note_procs, hri, Function.update_self] at hr
      exact absurd rfl hr
    · simp only [Table.at_procs, Table.set_procs, Table.note_procs, Function.update_of_ne hri] at hr
      -- a zombie is nobody's parent: exit has given its children to init
      have hne : ∀ j, (x.procs r).parent = some j → j ≠ i := by
        rintro j hj rfl
        exact h.childless j (Or.inr (Or.inr hz)) r hj
      have hother : (Note.reaped (x.procs i).pid p (x.procs p).pid addr
          (if addr = 0 then none else some (x.procs i).xstate)).about (x.procs r).pid = false := by
        simp only [Note.about, beq_eq_false_iff_ne]
        exact fun heq => hri (ht.inj i r (by rw [hz]; simp) hr heq).symm
      refine (hrec r hr).keep ?_ ?_ ?_ ?_ ?_ (fun j hj => ?_) (Table.life_note_ne _ _ _ hother) <;>
        simp only [Table.at_procs, Table.note_procs, Table.set_procs, Function.update_of_ne hri]
      rw [Function.update_of_ne (hne j hj)]
  | start np hs =>
    obtain ⟨hused, hparent⟩ := h.start p np hs
    by_cases hrn : r = np
    · subst hrn
      rcases hrec r (by rw [hused]; simp) with ⟨hnone, -⟩ | ⟨j, q, hj, hq, hlife⟩
      · rw [hparent] at hnone
        cases hnone
      · have hjr : j ≠ r := by
          rintro rfl
          exact h.self j hj
        refine Or.inr ⟨j, q, ?_, ?_, ?_⟩
        · simp only [Table.at_procs, Table.set_procs, Function.update_self]
          exact hj
        · simp only [Table.at_procs, Table.set_procs, Function.update_of_ne hjr]
          exact hq
        · simp only [Table.at_procs, Table.set_procs, Function.update_self]
          rw [hused, if_neg (by simp)] at hlife
          rw [if_neg (by simp)]
          exact hlife
    · simp only [Table.at_procs, Table.set_procs, Function.update_of_ne hrn] at hr
      refine (hrec r hr).keep ?_ ?_ ?_ ?_ ?_ (fun j hj => ?_) rfl <;>
        simp only [Table.at_procs, Table.set_procs, Function.update_of_ne hrn]
      rw [Function.update_apply]
      split_ifs with hjn
      · rw [hjn]
      · rfl
  | returned e he =>
    exact (hrec r hr).keep rfl rfl rfl Iff.rfl Iff.rfl (fun _ _ => rfl)
      (Table.life_note_ne _ _ _ rfl)
  | _ =>
    have hstate : (x.procs r).state ≠ .unused := by
      simp only [Table.at_procs, Table.set_procs, Function.update_apply] at hr
      grind -linarith -order
    refine (hrec r hstate).keep ?_ ?_ ?_ ?_ ?_ (fun j hj => ?_) rfl <;>
      simp only [Table.at_procs, Table.set_procs, Function.update_apply] <;> grind -linarith -order

theorem Act.life_ok (h : TableInv x) (hw : WaitInv x) (ht : TraceInv x)
    (hp : (x.procs p).state = .running) (ha : Act x p y) (n : Nat) : Life n (y.life n) := by
  have hlife := ht.life n
  have hrec := ht.recorded
  cases ha with
  | drop np hi hu =>
    rw [Table.life_note]
    split_ifs with hn
    · have hpid : x.nextpid = n := by simpa [Note.about] using hn
      change Life n (_ :: x.life n)
      rw [ht.fresh n (by omega), hpid]
      exact Life.dropped
    · exact hlife
  | link np hi hwait =>
    obtain ⟨hused, hnone⟩ := h.link p np hi
    change Life n ((Table.note _ _).life n)
    rw [Table.life_note]
    split_ifs with hn
    · have hpid : (x.procs np).pid = n := by simpa [Note.about] using hn
      have hnil : x.life n = [] := by
        rcases hrec np (by rw [hused]; simp) with ⟨-, -, hl⟩ | ⟨i, q, hi, -, -⟩
        · rw [← hpid]
          exact hl
        · rw [hnone] at hi
          cases hi
      change Life n (_ :: x.life n)
      rw [hnil, hpid]
      exact Life.forked _
    · exact hlife
  | die st hd =>
    change Life n ((Table.note _ _).life n)
    rw [Table.life_note]
    split_ifs with hn
    · have hpid : (x.procs p).pid = n := by simpa [Note.about] using hn
      rcases hrec p (by rw [hp]; simp) with ⟨-, hzero, -⟩ | ⟨j, q, hj, hq, hl⟩
      · have hp0 := hzero (by rw [hp]; simp)
        have := h.root.2.2.2.2
        rw [← hp0, hd] at this
        cases this
      · rw [hp, if_neg (by simp), hpid] at hl
        change Life n (_ :: x.life n)
        rw [hl, hpid]
        exact Life.exited q st
    · exact hlife
  | reap i addr hi hz =>
    change Life n ((Table.note _ _).life n)
    by_cases hpid : (x.procs i).pid = n
    · have hparent := (hw.check p i hi).1
      rw [Table.life_note, if_pos (by simpa only [Note.about, beq_iff_eq] using hpid)]
      rcases hrec i (by rw [hz]; simp) with ⟨hnone, -⟩ | ⟨j, q, hj, hq, hl⟩
      · rw [hparent] at hnone
        cases hnone
      · rw [hparent] at hj
        cases hj
        rw [if_pos hz, hpid] at hl
        change Life n (_ :: x.life n)
        rw [hl, hpid]
        refine Life.reaped q _ p _ addr ?_
        rcases hq with rfl | hq
        · exact Or.inr ht.rootPid
        · exact Or.inl hq
    · rw [Table.life_note_ne _ _ _ (by simpa only [Note.about, beq_eq_false_iff_ne] using hpid)]
      exact hlife
  | returned e he =>
    change Life n ((Table.note _ _).life n)
    rw [Table.life_note_ne _ _ _ rfl]
    exact hlife
  | _ => exact hlife

theorem TraceInv.set_awake (ht : TraceInv x) (i : Fin N) (q : Proc N)
    (hq : q = { x.procs i with state := q.state }) (hs : q.state = (x.procs i).state ∨
      ((q.state = .runnable ∨ q.state = .running) ∧
        ((x.procs i).state = .sleeping ∨ (x.procs i).state = .runnable))) :
    TraceInv (x.set i q) := by
  have hpid : ∀ c, ((x.set i q).procs c).pid = (x.procs c).pid := by
    intro c
    simp only [Table.set_procs, Function.update_apply]
    grind -linarith -order
  have hlive : ∀ c, ((x.set i q).procs c).state = .unused ↔ (x.procs c).state = .unused := by
    intro c
    simp only [Table.set_procs, Function.update_apply]
    grind -linarith -order
  exact {
    rootPid := (hpid 0).trans ht.rootPid
    fresh := ht.fresh
    live := by
      intro c hc
      rw [hpid]
      exact ht.live c (by rwa [ne_eq, ← hlive])
    inj := by
      intro c d hc hd hcd
      rw [hpid, hpid] at hcd
      exact ht.inj c d (by rwa [ne_eq, ← hlive]) (by rwa [ne_eq, ← hlive]) hcd
    recorded := by
      intro c hc
      have hstate : (x.procs c).state ≠ .unused := by rwa [ne_eq, ← hlive]
      refine (ht.recorded c hstate).keep ?_ (hpid c) ?_ ?_ ?_ (fun j _ => hpid j) rfl <;>
        simp only [Table.set_procs, Function.update_apply] <;> grind -linarith -order
    life := ht.life
    calls := ht.calls }

/-- Every step of the machine keeps what is told. -/
theorem TraceInv.move (ht : TraceInv x) (h : TableInv x) (hw : WaitInv x) (hm : Move x y) :
    TraceInv y := by
  cases hm with
  | act p y hp ha =>
    exact {
      rootPid := ha.rootPid h ht
      fresh := ha.fresh h ht hp
      live := ha.live h ht hp
      inj := ha.inj h ht hp
      recorded := ha.recorded h ht hp
      life := ha.life_ok h hw ht hp
      calls := ha.calls h ht }
  | dispatch i hi => exact ht.set_awake i _ rfl (Or.inr ⟨Or.inr rfl, Or.inr hi⟩)
  | device i n =>
    unfold Proc.wake
    split_ifs with hs
    · exact ht.set_awake i _ rfl (Or.inr ⟨Or.inl rfl, Or.inl hs.1⟩)
    · exact ht.set_awake i _ rfl (Or.inl rfl)

/-- A zombie goes only when its parent frees it. -/
theorem Move.freed (h : TableInv x) (hw : WaitInv x) (hm : Move x y) (c : Fin N)
    (hx : (x.procs c).state = .zombie) (hy : (y.procs c).state ≠ .zombie) :
    ∃ p addr, (x.procs c).parent = some p ∧ y.procs c = freeproc ∧
      y.trace = .reaped (x.procs c).pid p (x.procs p).pid addr
        (if addr = 0 then none else some (x.procs c).xstate) :: x.trace := by
  cases hm with
  | act p y hp ha =>
    cases ha with
    | reap i addr hi hz =>
      have hci : c = i := by
        by_contra hne
        simp only [Table.at_procs, Table.note_procs, Table.set_procs,
          Function.update_of_ne hne] at hy
        exact hy hx
      rw [hci]
      refine ⟨p, addr, (hw.check p i hi).1, ?_, rfl⟩
      simp only [Table.at_procs, Table.note_procs, Table.set_procs, Function.update_self]
    | start np hs =>
      have hused := (h.start p np hs).1
      simp only [Table.at_procs, Table.set_procs, Function.update_apply] at hy
      grind -linarith -order
    | _ =>
      simp only [Table.at_procs, Table.note_procs, Table.set_procs, Function.update_apply] at hy
      grind -linarith -order
  | dispatch i hi =>
    simp only [Table.set_procs, Function.update_apply] at hy
    grind -linarith -order
  | device i n =>
    simp only [Table.set_procs, Function.update_apply] at hy
    grind -linarith -order

end Steps

section Runs

variable [NeZero N]

/-- What holds in every state that the kernel reaches. -/
structure KernelInv (s : State N M) : Prop where
  threads : Threads s
  table : TableInv s.table
  wait : WaitInv s.table
  trace : TraceInv s.table

theorem KernelInv.step {s t : State N M} (h : KernelInv s) {e : Fin M × Choice}
    (ht : step s e = some t) : KernelInv t := by
  have hthreads := step_threads h.threads h.table ht
  rcases step_table h.threads ht with heq | hm
  · exact ⟨hthreads, heq ▸ h.table, heq ▸ h.wait, heq ▸ h.trace⟩
  · exact ⟨hthreads, h.table.move hm, h.wait.move h.table hm, h.trace.move h.table h.wait hm⟩

theorem boot_threads : Threads (boot : State N M) where
  one := by
    intro c d p hc
    cases hc
  on := by
    intro c p hc
    cases hc
  off := by
    intro p _
    by_cases hp : p = 0
    · exact ⟨forkret p, by simp only [boot, if_pos hp], context_forkret p⟩
    · exact ⟨.dead, by simp only [boot, if_neg hp], rfl, rfl, trivial⟩
  agree := by
    intro l c
    simp [boot, State.held]

theorem boot_procs (p : Fin N) : (boot : State N M).table.procs p =
    if p = 0 then { freeproc with state := .runnable, pid := 1 } else freeproc := rfl

theorem boot_task (p : Fin N) :
    (boot : State N M).table.task p = if p = 0 then .idle else .dead := by
  by_cases hp : p = 0 <;> simp [State.table, boot, hp, PC.task, forkret]

theorem boot_table : TableInv (boot : State N M).table := by
  constructor
  case root => simp [boot_procs, boot_task, freeproc, Task.exiting]
  all_goals
    simp only [boot_procs, boot_task]
    grind -linarith -order [Task.left]

theorem boot_inv : KernelInv (boot : State N M) where
  threads := boot_threads
  table := boot_table
  wait := by
    constructor <;> simp only [Table.Drowsy, boot_procs, boot_task] <;> intros <;>
      grind -linarith -order
  trace := {
    rootPid := by simp only [boot_procs, if_true]
    fresh := fun _ _ => rfl
    live := by
      intro p hp
      simp only [boot_procs] at hp ⊢
      split_ifs at hp ⊢ with hp0
      · exact Nat.one_lt_two
      · exact absurd rfl hp
    inj := by
      intro p q hp hq _
      simp only [boot_procs] at hp hq
      split_ifs at hp hq with hp0 hq0
      · exact hp0.trans hq0.symm
      all_goals simp [freeproc] at hp hq
    recorded := by
      intro p hp
      simp only [boot_procs] at hp
      split_ifs at hp with hp0
      · refine Or.inl ⟨?_, fun _ => hp0, rfl⟩
        simp only [boot_procs, if_pos hp0]
        rfl
      · exact absurd rfl hp
    life := fun _ => Life.unborn
    calls := by
      intro p
      rw [boot_task]
      split_ifs <;> exact Calls.start }

/-- Process `p` sleeps in wait. -/
def State.AsleepInWait (s : State N M) (p : Fin N) : Prop :=
  (s.procs p).state = .sleeping ∧ (s.procs p).chan = some (.proc p)

instance (s : State N M) (p : Fin N) : Decidable (s.AsleepInWait p) :=
  inferInstanceAs (Decidable (_ ∧ _))

/-- A process in reparent has `wait_lock`, has given a child to init, and its `wakeup(initproc)`
has yet to look at init. -/
def State.HandsOver (s : State N M) : Prop :=
  ∃ c q n, s.cpu c = .running q ∧ s.lock .wait = some c ∧
    (s.pc q).task = .waking (some (.proc 0)) 0 (.leave n)

theorem KernelInv.handsOver {s : State N M} (h : KernelInv s) (hx : s.table.Handing) :
    s.HandsOver := by
  obtain ⟨q, ch, n, hq⟩ := hx
  have hch : ch = some (.proc 0) := by
    rcases h.table.heir q ch 0 _ hq with ⟨-, -, hch⟩ | ⟨hk, -⟩
    · exact hch
    · cases hk
  subst hch
  have hpc : (s.pc q).task = .waking (some (.proc 0)) 0 (.leave n) := hq
  by_cases hrun : ∃ c, s.cpu c = .running q
  · obtain ⟨c, hc⟩ := hrun
    refine ⟨c, q, n, hc, ?_, hpc⟩
    refine (h.threads.agree .wait c).mpr ?_
    simp only [State.held, hc]
    exact (h.threads.on c q hc).1.waits (by rw [hpc]; rfl)
  · obtain ⟨k, hk, hctx⟩ := h.threads.off q (by simpa using hrun)
    have hw := hctx.task.1
    rw [hk] at hpc
    change k.task = _ at hpc
    rw [hpc] at hw
    cases hw

/-- No exit of a child is lost. Init alone may be asleep with a zombie child, while the process
that has handed it over is about to wake it up. Each process is freed once, after its exit, by a
wait of the process that forked it or of init, which is its parent then and returns its pid with
its exit status; and wait returns -1 only to a process that is killed, has given a bad address or
has no children. -/
theorem no_child_exit_lost (es : List (Fin M × Choice)) (s : State N M)
    (hr : run step boot es = some s) :
    (∀ p c, s.AsleepInWait p → (s.procs c).parent = some p → (s.procs c).state = .zombie →
      p = 0 ∧ s.HandsOver) ∧
    (∀ pid, Life pid (s.trace.filter (Note.about pid))) ∧
    (∀ e t, step s e = some t → ∀ c, (s.procs c).state = .zombie → (t.procs c).state ≠ .zombie →
      ∃ p addr, (s.procs c).parent = some p ∧ t.procs c = freeproc ∧
        t.trace = .reaped (s.procs c).pid p (s.procs p).pid addr
          (if addr = 0 then none else some (s.procs c).xstate) :: s.trace) ∧
    (∀ p, ∃ o, Calls p o s.trace) ∧
    ∀ p r, s.pc p = .waitReturn r → r.value = -1 →
      r = .badAddr ∨ (s.procs p).killed = true ∨ ∀ c, (s.procs c).parent ≠ some p := by
  have h : KernelInv s :=
    run_invariant step KernelInv (fun _ _ _ h ht => h.step ht) boot s es boot_inv hr
  refine ⟨?_, h.trace.life, ?_, fun p => ⟨_, h.trace.calls p⟩, ?_⟩
  · intro p c hsleep hparent hz
    obtain ⟨hp, hx⟩ := h.wait.zombie p (Or.inr (Or.inr hsleep)) c hparent hz
    exact ⟨hp, h.handsOver hx⟩
  · intro e t ht c hx hy
    rcases step_table h.threads ht with heq | hm
    · exact absurd ((congrArg (fun x => (Table.procs x c).state) heq).trans hx) hy
    · exact hm.freed h.table h.wait c hx hy
  · intro p r hpc hv
    cases r with
    | pid n =>
      simp only [WaitEnd.value] at hv
      omega
    | badAddr => exact Or.inl rfl
    | giveUp =>
      refine Or.inr (h.wait.giveUp p ?_)
      simp only [State.table, hpc]
      rfl

/-- Init forks a process that forks another; the grandchild exits, then the child. -/
def orphanRun : List (Fin 1 × Choice) :=
  let go := fun n => List.replicate n ((0 : Fin 1), Choice.go)
  go 2 ++ [(0, .fork)] ++ go 8 ++ [(0, .wait 0)] ++ go 14 ++ [(0, .fork)] ++ go 10 ++
    [(0, .timer)] ++ go 5 ++ [(0, .exit 7)] ++ go 19 ++ [(0, .exit 0)] ++ go 4

theorem orphanRun_zombie : (run step (boot : State 3 1) orphanRun).map (fun s =>
    decide (s.AsleepInWait 0 ∧ (s.procs 2).parent = some 0 ∧ (s.procs 2).state = .zombie)) =
      some true := by
  decide +kernel

/-- Init sleeps in wait while one of its children is a zombie. -/
theorem init_sleeps_with_zombie : ∃ (es : List (Fin 1 × Choice)) (s : State 3 1),
    run step boot es = some s ∧ s.AsleepInWait 0 ∧ (s.procs 2).parent = some 0 ∧
      (s.procs 2).state = .zombie := by
  obtain ⟨s, hs, hd⟩ := Option.map_eq_some_iff.mp orphanRun_zombie
  exact ⟨orphanRun, s, hs, of_decide_eq_true hd⟩

theorem no_child_exit_lost_orphanRun : ∃ s : State 3 1, run step boot orphanRun = some s ∧
    s.HandsOver := by
  obtain ⟨s, hs, hd⟩ := Option.map_eq_some_iff.mp orphanRun_zombie
  obtain ⟨hsleep, hparent, hz⟩ := of_decide_eq_true hd
  exact ⟨s, hs, ((no_child_exit_lost orphanRun s hs).1 0 2 hsleep hparent hz).2⟩

end Runs

end Xv6Labs.Wait
