import Xv6Labs.PrimesCode
import Xv6Labs.Sieve
import Mathlib.Algebra.BigOperators.Group.Finset.Basic
import Mathlib.Algebra.Order.BigOperators.Group.Finset

/-! What a process has still to write follows from what it has still to read, so the stream of
every pipe is known in every state, and with it the numbers still to be printed. -/
namespace Xv6Labs.Primes

section Roles

def Pc.isMain : Pc → Prop
  | .start | .forkFirst | .closeFirst | .feed _ | .closeFeed | .waitFirst | .exiting | .exited =>
    True
  | _ => False

def Pc.isStage : Pc → Prop
  | .childClose | .closeIn | .first | .print _ | .mkPipe _ | .forkNext _ | .closeNext _ | .loop _
  | .pass _ _ | .closeOut | .waitNext | .closeLast | .exiting | .exited => True
  | _ => False

/-- The process has no child yet, or will never have one. -/
def Pc.before : Pc → Prop
  | .start | .forkFirst | .childClose | .closeIn | .first | .print _ | .mkPipe _ | .forkNext _ =>
    True
  | _ => False

/-- The process has forked. -/
def Pc.after : Pc → Prop
  | .closeFirst | .feed _ | .closeFeed | .waitFirst | .closeNext _ | .loop _ | .pass _ _
  | .closeOut | .waitNext | .closeLast => True
  | _ => False

/-- The ends of its own pipe that the process has open. -/
def Pc.ownRead : Pc → Prop
  | .forkFirst | .closeFirst | .forkNext _ | .closeNext _ => True
  | _ => False

def Pc.ownWrite : Pc → Prop
  | .forkFirst | .closeFirst | .feed _ | .closeFeed | .forkNext _ | .closeNext _ | .loop _
  | .pass _ _ | .closeOut => True
  | _ => False

def Pc.forking : Pc → Bool
  | .forkFirst | .forkNext _ => true
  | _ => false

/-- The last process has not printed. -/
def Pc.printing : Pc → Bool
  | .start | .forkFirst | .mkPipe _ | .forkNext _ => false
  | _ => true

/-- A stage that has seen the end of its input. -/
def Pc.isDone : Pc → Prop
  | .closeOut | .waitNext | .closeLast | .exiting | .exited => True
  | _ => False

def Pc.running : Pc → Prop
  | .exiting | .exited => False
  | _ => True

def May (k : Nat) (pc : Pc) : Fd → Prop
  | (q, .reading) => q < k ∨ q = k ∧ pc.ownRead
  | (q, .writing) => q + 1 = k ∧ pc = .childClose ∨ q = k ∧ pc.ownWrite

def Must (k : Nat) (pc : Pc) : Fd → Prop
  | (q, .reading) => q + 1 = k ∧ pc.running ∨ q = k ∧ pc.ownRead
  | (q, .writing) => q + 1 = k ∧ pc = .childClose ∨ q = k ∧ pc.ownWrite

/-- The most descriptors a process has open. -/
def room (k : Nat) : Pc → Nat
  | .start | .exited => 0
  | .childClose | .feed _ | .closeFeed | .loop _ | .pass _ _ | .closeOut => k + 1
  | .forkFirst | .closeFirst | .forkNext _ | .closeNext _ => k + 2
  | _ => k

/-- What a process has still to write, from what it has still to read. -/
def emits (N : Nat) : Pc → List Nat → List Nat
  | .start, _ | .forkFirst, _ | .closeFirst, _ => List.range' 2 (N - 1)
  | .feed i, _ => List.range' i (N + 1 - i)
  | .childClose, p :: u | .closeIn, p :: u | .first, p :: u => strike p u
  | .print p, u | .mkPipe p, u | .forkNext p, u | .closeNext p, u | .loop p, u => strike p u
  | .pass p num, u => num :: strike p u
  | _, _ => []

/-- What the last process and those it will fork have still to print. -/
def future (N : Nat) : Pc → List Nat → List Nat
  | .start, _ | .forkFirst, _ => sieve (List.range' 2 (N - 1))
  | .childClose, u | .closeIn, u | .first, u => sieve u
  | .print p, u => p :: sieve (strike p u)
  | .mkPipe p, u | .forkNext p, u => sieve (strike p u)
  | _, _ => []

/-- The steps of a stage at its first read, and of all the stages behind it. -/
def stageCost : List Nat → Nat
  | [] => 2
  | p :: u => stageCost (strike p u) + 2 * u.length + 12
  termination_by u => u.length
  decreasing_by exact Nat.lt_succ_of_le (length_strike_le p u)

/-- The steps of a process, and of the processes it will fork. -/
def cost (N : Nat) : Pc → List Nat → Nat
  | .start, _ => stageCost (List.range' 2 (N - 1)) + N + 9
  | .forkFirst, _ => stageCost (List.range' 2 (N - 1)) + N + 8
  | .closeFirst, _ => N + 5
  | .feed i, _ => (N + 1 - i) + 4
  | .closeFeed, _ => 3
  | .waitFirst, _ => 2
  | .childClose, u => stageCost u + 2
  | .closeIn, u => stageCost u + 1
  | .first, u => stageCost u
  | .print p, u => stageCost (strike p u) + 2 * u.length + 11
  | .mkPipe p, u => stageCost (strike p u) + 2 * u.length + 10
  | .forkNext p, u => stageCost (strike p u) + 2 * u.length + 9
  | .closeNext _, u => 2 * u.length + 6
  | .loop _, u => 2 * u.length + 5
  | .pass _ _, u => 2 * u.length + 6
  | .closeOut, _ => 4
  | .waitNext, _ => 3
  | .closeLast, _ => 2
  | .exiting, _ => 1
  | _, _ => 0

/-- What process `k` has still to read. -/
def unread (N : Nat) (s : State) : Nat → List Nat
  | 0 => []
  | k + 1 => s.queue k ++ emits N (s.proc k).pc (unread N s k)

def effort (N : Nat) (s : State) : Nat :=
  ∑ j ∈ Finset.range s.procs, cost N (s.proc j).pc (unread N s j)

end Roles

section Invariant

/-- Process `k` of `n`, which has still to read `u`. -/
structure Placed (n k : Nat) (P : Proc) (u : List Nat) : Prop where
  kind : if k = 0 then P.pc.isMain else P.pc.isStage
  parent : P.parent = if k = 0 then none else some (k - 1)
  pi : 0 < k → P.pi + 1 = k
  pNext : P.pc.ownWrite → P.pNext = k
  before : P.pc.before → k + 1 = n
  after : P.pc.after → k + 1 < n
  may : ∀ f ∈ P.fds, May k P.pc f
  must : ∀ f, Must k P.pc f → f ∈ P.fds
  room : P.fds.length ≤ room k P.pc
  done : P.pc.isDone → u = []

/-- The last process. -/
structure AtEnd (N k pipes : Nat) (out : List Output) (pc : Pc) (u : List Nat) : Prop where
  pipes : pipes = if pc.forking then k + 1 else k
  printed : k ≤ out.length + if pc.printing then 1 else 0
  data : out ++ (future N pc u).map Output.prime =
    (sieve (List.range' 2 (N - 1))).map Output.prime

structure Good (N : Nat) (s : State) : Prop where
  pos : 0 < s.procs
  rest : ∀ k, s.procs ≤ k → (s.proc k).pc = .unused
  each : ∀ k < s.procs, Placed s.procs k (s.proc k) (unread N s k)
  empty : ∀ q, s.procs ≤ q + 1 → s.queue q = []
  last : ∀ k, k + 1 = s.procs → AtEnd N k s.pipes s.out (s.proc k).pc (unread N s k)

/-- A step keeps the invariant, and there is less to do. -/
structure Advances (N : Nat) (s t : State) : Prop where
  good : Good N t
  less : effort N t < effort N s

theorem good_boot (N : Nat) : Good N boot := by
  have hpc : (boot.proc 0) = noProc.at .start := rfl
  constructor
  · exact Nat.one_pos
  · intro k hk
    have hk0 : k ≠ 0 := by
      intro h
      subst h
      exact absurd hk (by decide)
    unfold boot
    dsimp only
    rw [Function.update_of_ne hk0]
    rfl
  · intro k hk
    have hk0 : k = 0 := Nat.lt_one_iff.mp hk
    subst hk0
    rw [hpc]
    constructor
    · rw [if_pos rfl]
      trivial
    · rfl
    · intro h
      omega
    · exact False.elim
    · intro _
      rfl
    · exact False.elim
    · exact nofun
    · rintro ⟨q, e⟩ h
      cases e with
      | reading =>
        rcases h with ⟨h, -⟩ | ⟨-, h⟩
        · omega
        · exact h.elim
      | writing =>
        rcases h with ⟨h, -⟩ | ⟨-, h⟩
        · omega
        · exact h.elim
    · exact Nat.le_refl 0
    · exact False.elim
  · intro q _
    rfl
  · intro k hk
    have hk0 : k = 0 := Nat.succ.inj hk
    subst hk0
    rw [hpc]
    exact ⟨rfl, Nat.zero_le _, rfl⟩

/-- A step of process `k` changes what it has still to read, and nothing behind it. -/
theorem unread_step (N : Nat) (s s' : State) (k : Nat) (u' : List Nat)
    (hother : ∀ j, j ≠ k → (s'.proc j).pc = (s.proc j).pc)
    (hqueue : ∀ j, j ≠ k → j + 1 ≠ k → s'.queue j = s.queue j)
    (hzero : k = 0 → u' = [])
    (hin : ∀ i, i + 1 = k → s'.queue i ++ emits N (s.proc i).pc (unread N s i) = u')
    (hown : s'.queue k ++ emits N (s'.proc k).pc u' =
      s.queue k ++ emits N (s.proc k).pc (unread N s k)) (j : Nat) :
    unread N s' j = if j = k then u' else unread N s j := by
  induction j with
  | zero =>
    by_cases hk : 0 = k
    · rw [if_pos hk, hzero hk.symm]
      rfl
    · rw [if_neg hk]
      rfl
  | succ j ih =>
    unfold unread
    rw [ih]
    by_cases hjk : j = k
    · subst hjk
      rw [if_pos rfl, hown, if_neg (by omega)]
    · rw [if_neg hjk, hother j hjk]
      by_cases hjk' : j + 1 = k
      · rw [if_pos hjk', hin j hjk']
      · rw [if_neg hjk', hqueue j hjk hjk']

/-- A step of process `k` that creates no process. -/
theorem Good.step_one {N : Nat} {s s' : State} (h : Good N s) {k : Nat} (hk : k < s.procs)
    (P' : Proc) (u' : List Nat) (hprocs : s'.procs = s.procs)
    (hproc : s'.proc = Function.update s.proc k P')
    (hpipes : k + 1 < s.procs → s'.pipes = s.pipes ∧ s'.out = s.out)
    (hunread : ∀ j, unread N s' j = if j = k then u' else unread N s j)
    (hqueue : ∀ q, s.procs ≤ q + 1 → s'.queue q = [])
    (hplaced : Placed s.procs k P' u')
    (hcost : cost N P'.pc u' < cost N (s.proc k).pc (unread N s k))
    (hend : k + 1 = s.procs → AtEnd N k s'.pipes s'.out P'.pc u') : Advances N s s' := by
  have hown : s'.proc k = P' := by
    rw [hproc, Function.update_self]
  have hother : ∀ j, j ≠ k → s'.proc j = s.proc j := by
    intro j hj
    rw [hproc, Function.update_of_ne hj]
  refine ⟨?_, ?_⟩
  · constructor
    · rw [hprocs]
      exact h.pos
    · intro j hj
      rw [hprocs] at hj
      rw [hother j (by omega)]
      exact h.rest j hj
    · intro j hj
      rw [hprocs] at hj
      rw [hprocs, hunread j]
      by_cases hjk : j = k
      · subst hjk
        rw [if_pos rfl, hown]
        exact hplaced
      · rw [if_neg hjk, hother j hjk]
        exact h.each j hj
    · rw [hprocs]
      exact hqueue
    · intro j hj
      rw [hprocs] at hj
      rw [hunread j]
      by_cases hjk : j = k
      · subst hjk
        rw [if_pos rfl, hown]
        exact hend hj
      · rw [if_neg hjk, hother j hjk]
        obtain ⟨hp, ho⟩ := hpipes (by omega)
        rw [hp, ho]
        exact h.last j hj
  · -- the other terms of the sum stay
    unfold effort
    rw [hprocs]
    refine Finset.sum_lt_sum ?_ ⟨k, Finset.mem_range.mpr hk, ?_⟩
    · intro j hj
      rw [hunread j]
      by_cases hjk : j = k
      · subst hjk
        rw [if_pos rfl, hown]
        exact Nat.le_of_lt hcost
      · rw [if_neg hjk, hother j hjk]
    · rw [hunread k, if_pos rfl, hown]
      exact hcost

end Invariant

section Moves

variable {N n k : Nat} {P : Proc} {u : List Nat}

/-- Where a process with a known program counter stands. -/
theorem Placed.main (h : Placed n k P u) {a : Pc} (hpc : P.pc = a) (hstage : ¬a.isStage) :
    k = 0 := by
  subst hpc
  by_contra hk
  have hkind := h.kind
  rw [if_neg hk] at hkind
  exact hstage hkind

theorem Placed.stage (h : Placed n k P u) {a : Pc} (hpc : P.pc = a) (hmain : ¬a.isMain) :
    0 < k := by
  subst hpc
  refine Nat.pos_of_ne_zero ?_
  intro hk
  have hkind := h.kind
  rw [if_pos hk] at hkind
  exact hmain hkind

theorem Placed.ownReading (h : Placed n k P u) (hown : P.pc.ownRead) :
    (k, End.reading) ∈ P.fds := by
  refine h.must (k, .reading) ?_
  exact Or.inr ⟨rfl, hown⟩

theorem Placed.ownWriting (h : Placed n k P u) (hown : P.pc.ownWrite) :
    (k, End.writing) ∈ P.fds := by
  refine h.must (k, .writing) ?_
  exact Or.inr ⟨rfl, hown⟩

theorem Placed.input (h : Placed n k P u) {a : Pc} (hpc : P.pc = a) (hmain : ¬a.isMain)
    (hrun : a.running) : (P.pi, End.reading) ∈ P.fds := by
  have hpos := h.stage hpc hmain
  subst hpc
  refine h.must (P.pi, .reading) ?_
  exact Or.inl ⟨h.pi hpos, hrun⟩

theorem Placed.shrink (h : Placed n k P u) (pc : Pc) (fds : List Fd) (v : List Nat)
    (hkind : if k = 0 then pc.isMain else pc.isStage) (hown : pc.ownWrite → P.pc.ownWrite)
    (hbefore : pc.before → P.pc.before) (hafter : pc.after → P.pc.after)
    (hmay : ∀ f ∈ fds, May k pc f) (hmust : ∀ f, Must k pc f → f ∈ fds)
    (hroom : fds.length ≤ Primes.room k pc) (hdone : pc.isDone → v = []) :
    Placed n k { P with pc := pc, fds := fds } v :=
  { kind := hkind
    parent := h.parent
    pi := h.pi
    pNext := fun hw => h.pNext (hown hw)
    before := fun hb => h.before (hbefore hb)
    after := fun ha => h.after (hafter ha)
    may := hmay
    must := hmust
    room := hroom
    done := hdone }

/-- A step that closes nothing. -/
theorem Placed.goes (h : Placed n k P u) {a : Pc} (hpc : P.pc = a) (pc : Pc) (v : List Nat)
    (hkind : if k = 0 then pc.isMain else pc.isStage) (hread : pc.ownRead ↔ a.ownRead)
    (hwrite : pc.ownWrite ↔ a.ownWrite) (hchild : pc ≠ .childClose ∧ a ≠ .childClose)
    (hrun : pc.running → a.running) (hbefore : pc.before → a.before)
    (hafter : pc.after → a.after) (hroom : Primes.room k a ≤ Primes.room k pc)
    (hdone : pc.isDone → v = []) : Placed n k (P.at pc) v := by
  subst hpc
  refine h.shrink pc P.fds v hkind hwrite.mp hbefore hafter ?_ ?_ (h.room.trans hroom) hdone
  · rintro ⟨q, e⟩ hf
    have hmay := h.may _ hf
    cases e with
    | reading => exact hmay.imp id (fun hq => ⟨hq.1, hread.mpr hq.2⟩)
    | writing =>
      exact hmay.imp (fun hq => absurd hq.2 hchild.2) (fun hq => ⟨hq.1, hwrite.mpr hq.2⟩)
  · rintro ⟨q, e⟩ hf
    refine h.must _ ?_
    cases e with
    | reading => exact hf.imp (fun hq => ⟨hq.1, hrun hq.2⟩) (fun hq => ⟨hq.1, hread.mp hq.2⟩)
    | writing => exact hf.imp (fun hq => absurd hq.2 hchild.1) (fun hq => ⟨hq.1, hwrite.mp hq.2⟩)

theorem mem_close (P : Proc) (f g : Fd) : g ∈ (P.close f).fds ↔ g ∈ P.fds ∧ g ≠ f := by
  unfold Proc.close
  simp only [List.mem_filter, decide_eq_true_eq]

theorem length_close (P : Proc) (f : Fd) (hf : f ∈ P.fds) :
    (P.close f).fds.length + 1 ≤ P.fds.length := by
  refine List.length_filter_lt_length_iff_exists.mpr ⟨f, hf, ?_⟩
  simp

theorem length_close_le (P : Proc) (f : Fd) : (P.close f).fds.length ≤ P.fds.length :=
  List.length_filter_le _ _

/-- A step that closes one end. -/
theorem Placed.closes (h : Placed n k P u) (f : Fd) (pc : Pc) (v : List Nat)
    (hkind : if k = 0 then pc.isMain else pc.isStage) (hown : pc.ownWrite → P.pc.ownWrite)
    (hbefore : pc.before → P.pc.before) (hafter : pc.after → P.pc.after)
    (hmay : ∀ g, g ≠ f → May k P.pc g → May k pc g)
    (hmust : ∀ g, Must k pc g → Must k P.pc g ∧ g ≠ f)
    (hroom : (P.close f).fds.length ≤ Primes.room k pc)
    (hdone : pc.isDone → v = []) : Placed n k ((P.close f).at pc) v := by
  refine h.shrink pc (P.close f).fds v hkind hown hbefore hafter ?_ ?_ hroom hdone
  · intro g hg
    obtain ⟨hg, hne⟩ := (mem_close P f g).mp hg
    exact hmay g hne (h.may g hg)
  · intro g hg
    obtain ⟨hg, hne⟩ := hmust g hg
    exact (mem_close P f g).mpr ⟨h.must g hg, hne⟩

theorem Placed.room_close (h : Placed n k P u) (f : Fd) (hf : f ∈ P.fds) (pc : Pc)
    (hroom : Primes.room k P.pc ≤ Primes.room k pc + 1) :
    (P.close f).fds.length ≤ Primes.room k pc := by
  have hlen := length_close P f hf
  have hle := h.room
  omega

/-- The parent closes the read end of the pipe it has made. -/
theorem Placed.closesRead (h : Placed n k P u) {a : Pc} (hpc : P.pc = a) (pc : Pc) (v : List Nat)
    (hkind : if k = 0 then pc.isMain else pc.isStage) (hold : a.ownRead ∧ a.ownWrite)
    (hnew : ¬pc.ownRead ∧ pc.ownWrite) (hchild : pc ≠ .childClose ∧ a ≠ .childClose)
    (hrun : pc.running → a.running) (hbefore : ¬pc.before) (hafter : a.after)
    (hroom : Primes.room k a ≤ Primes.room k pc + 1) (hdone : ¬pc.isDone) :
    Placed n k ((P.close (P.pNext, .reading)).at pc) v := by
  subst hpc
  have hnext := h.pNext hold.2
  rw [hnext]
  refine h.closes _ _ _ hkind (fun _ => hold.2) (fun hb => absurd hb hbefore) (fun _ => hafter)
    ?_ ?_ (h.room_close _ (h.ownReading hold.1) pc hroom) (fun hd => absurd hd hdone)
  · rintro ⟨q, e⟩ hne hmay
    cases e with
    | reading =>
      rcases hmay with hq | ⟨hq, -⟩
      · exact Or.inl hq
      · rw [hq] at hne
        exact absurd rfl hne
    | writing => exact hmay.imp (fun hq => absurd hq.2 hchild.2) (fun hq => ⟨hq.1, hnew.2⟩)
  · rintro ⟨q, e⟩ hmust
    cases e with
    | reading =>
      rcases hmust with ⟨hq, hrunning⟩ | ⟨-, hread⟩
      · refine ⟨Or.inl ⟨hq, hrun hrunning⟩, ?_⟩
        intro heq
        have hqk : q = k := congrArg Prod.fst heq
        omega
      · exact absurd hread hnew.1
    | writing =>
      refine ⟨hmust.imp (fun hq => absurd hq.2 hchild.1) (fun hq => ⟨hq.1, hold.2⟩), ?_⟩
      intro heq
      cases congrArg Prod.snd heq

/-- A process closes the write end of the pipe it has made. -/
theorem Placed.closesWrite (h : Placed n k P u) {a : Pc} (hpc : P.pc = a) (pc : Pc) (v : List Nat)
    (hkind : if k = 0 then pc.isMain else pc.isStage) (hold : ¬a.ownRead ∧ a.ownWrite)
    (hnew : ¬pc.ownRead ∧ ¬pc.ownWrite) (hchild : pc ≠ .childClose ∧ a ≠ .childClose)
    (hrun : pc.running → a.running) (hbefore : ¬pc.before) (hafter : a.after)
    (hroom : Primes.room k a ≤ Primes.room k pc + 1) (hdone : pc.isDone → v = []) :
    Placed n k ((P.close (P.pNext, .writing)).at pc) v := by
  subst hpc
  have hnext := h.pNext hold.2
  rw [hnext]
  refine h.closes _ _ _ hkind (fun hw => absurd hw hnew.2) (fun hb => absurd hb hbefore)
    (fun _ => hafter) ?_ ?_ (h.room_close _ (h.ownWriting hold.2) pc hroom) hdone
  · rintro ⟨q, e⟩ hne hmay
    cases e with
    | reading => exact hmay.imp id (fun hq => absurd hq.2 hold.1)
    | writing =>
      rcases hmay with hq | ⟨hq, -⟩
      · exact absurd hq.2 hchild.2
      · rw [hq] at hne
        exact absurd rfl hne
  · rintro ⟨q, e⟩ hmust
    cases e with
    | reading =>
      refine ⟨hmust.imp (fun hq => ⟨hq.1, hrun hq.2⟩) (fun hq => absurd hq.2 hnew.1), ?_⟩
      intro heq
      cases congrArg Prod.snd heq
    | writing => exact (hmust.elim (fun hq => absurd hq.2 hchild.1) (fun hq => absurd hq.2 hnew.2))

/-- A stage closes the write end of its input, for the first or the second time. -/
theorem Placed.closesInput (h : Placed n k P u) (pc : Pc) (v : List Nat)
    (hold : P.pc = .childClose ∧ pc = .closeIn ∨ P.pc = .closeIn ∧ pc = .first) :
    Placed n k ((P.close (P.pi, .writing)).at pc) v := by
  have hpos : 0 < k := by
    rcases hold with ⟨hpc, -⟩ | ⟨hpc, -⟩
    · exact h.stage hpc id
    · exact h.stage hpc id
  have hpi := h.pi hpos
  have hroom : (P.close (P.pi, .writing)).fds.length ≤ Primes.room k pc := by
    rcases hold with ⟨hpc, rfl⟩ | ⟨hpc, rfl⟩
    · have hmem : (P.pi, End.writing) ∈ P.fds := by
        refine h.must (P.pi, .writing) ?_
        exact Or.inl ⟨hpi, hpc⟩
      refine h.room_close _ hmem _ ?_
      rw [hpc]
      exact Nat.le_refl _
    · have hle := h.room
      rw [hpc] at hle
      exact (length_close_le P _).trans hle
  have hpcs : pc.isStage ∧ ¬pc.ownRead ∧ ¬pc.ownWrite ∧ pc ≠ .childClose ∧ P.pc.before ∧
      ¬pc.after ∧ ¬pc.isDone ∧ ¬P.pc.ownRead ∧ ¬P.pc.ownWrite ∧ P.pc.running := by
    rcases hold with ⟨hpc, rfl⟩ | ⟨hpc, rfl⟩
    all_goals
      rw [hpc]
      exact ⟨trivial, id, id, nofun, trivial, id, id, id, id, trivial⟩
  obtain ⟨hstage, hread, hwrite, hchild, hbefore, hafter, hdone, hread', hwrite', hrun⟩ := hpcs
  refine h.closes _ _ _ ?_ (fun hw => absurd hw hwrite) (fun _ => hbefore)
    (fun ha => absurd ha hafter) ?_ ?_ hroom (fun hd => absurd hd hdone)
  · rw [if_neg (by omega)]
    exact hstage
  · rintro ⟨q, e⟩ hne hmay
    cases e with
    | reading => exact hmay.imp id (fun hq => absurd hq.2 hread')
    | writing =>
      rcases hmay with ⟨hq, -⟩ | ⟨-, hq⟩
      · have hqpi : q = P.pi := by omega
        rw [hqpi] at hne
        exact absurd rfl hne
      · exact absurd hq hwrite'
  · rintro ⟨q, e⟩ hmust
    cases e with
    | reading =>
      refine ⟨hmust.imp (fun hq => ⟨hq.1, hrun⟩) (fun hq => absurd hq.2 hread), ?_⟩
      intro heq
      cases congrArg Prod.snd heq
    | writing => exact (hmust.elim (fun hq => absurd hq.2 hchild) (fun hq => absurd hq.2 hwrite))

/-- A step that leaves the pipes alone. -/
theorem Good.quiet {s : State} (h : Good N s) (hk : k < s.procs) (P' : Proc)
    (hplaced : Placed s.procs k P' (unread N s k))
    (hemits : emits N P'.pc (unread N s k) = emits N (s.proc k).pc (unread N s k))
    (hcost : cost N P'.pc (unread N s k) < cost N (s.proc k).pc (unread N s k))
    (hend : k + 1 = s.procs → AtEnd N k s.pipes s.out P'.pc (unread N s k)) :
    Advances N s (s.set k P') := by
  have hself : (s.set k P').proc k = P' := Function.update_self (β := fun _ => Proc) k P' s.proc
  refine h.step_one hk P' (unread N s k) rfl rfl (fun _ => ⟨rfl, rfl⟩) ?_ h.empty hplaced hcost hend
  refine unread_step N s _ k _ ?_ (fun j _ _ => rfl) ?_ ?_ ?_
  · intro j hj
    exact congrArg Proc.pc (Function.update_of_ne (β := fun _ => Proc) hj P' s.proc)
  · rintro rfl
    rfl
  · rintro i rfl
    rfl
  · rw [hself, hemits]
    rfl

/-- The last process takes a step towards its fork. -/
theorem AtEnd.goes {pipes : Nat} {out : List Output} {a : Pc} (h : AtEnd N k pipes out a u)
    (pc : Pc) (hfork : a.forking = pc.forking) (hprint : a.printing = pc.printing)
    (hfuture : future N pc u = future N a u) : AtEnd N k pipes out pc u := by
  constructor
  · rw [← hfork]
    exact h.pipes
  · rw [← hprint]
    exact h.printed
  · rw [hfuture]
    exact h.data

end Moves

section Steps

variable {N k : Nat} {s : State}

/-- A step behind the fork. -/
theorem Good.quiet_after (h : Good N s) (hk : k < s.procs) {a : Pc} (hpc : (s.proc k).pc = a)
    (ha : a.after) (P' : Proc) (hplaced : Placed s.procs k P' (unread N s k))
    (hemits : emits N P'.pc (unread N s k) = emits N a (unread N s k))
    (hcost : cost N P'.pc (unread N s k) < cost N a (unread N s k)) :
    Advances N s (s.set k P') := by
  subst hpc
  have hafter := (h.each k hk).after ha
  exact h.quiet hk P' hplaced hemits hcost (fun hend => by omega)

theorem Good.kind_main {a : Pc} (h : Good N s) (hk : k < s.procs) (hpc : (s.proc k).pc = a)
    (hstage : ¬a.isStage) (pc : Pc) (hmain : pc.isMain) :
    if k = 0 then pc.isMain else pc.isStage := by
  rw [if_pos ((h.each k hk).main hpc hstage)]
  exact hmain

theorem Good.kind_stage {a : Pc} (h : Good N s) (hk : k < s.procs) (hpc : (s.proc k).pc = a)
    (hmain : ¬a.isMain) (pc : Pc) (hstage : pc.isStage) :
    if k = 0 then pc.isMain else pc.isStage := by
  have hpos := (h.each k hk).stage hpc hmain
  rw [if_neg (by omega)]
  exact hstage

theorem good_closeFirst (h : Good N s) (hk : k < s.procs) (hpc : (s.proc k).pc = .closeFirst) :
    Advances N s (s.set k (((s.proc k).close ((s.proc k).pNext, .reading)).at (.feed 2))) := by
  refine h.quiet_after hk hpc trivial _ ?_ rfl ?_
  · exact (h.each k hk).closesRead hpc _ _ (h.kind_main hk hpc id _ trivial) ⟨trivial, trivial⟩
      ⟨id, trivial⟩ ⟨nofun, nofun⟩ id id trivial (Nat.le_refl _) id
  · change (N + 1 - 2) + 4 < N + 5
    omega

theorem good_closeNext (h : Good N s) (hk : k < s.procs) (p : Nat)
    (hpc : (s.proc k).pc = .closeNext p) :
    Advances N s (s.set k (((s.proc k).close ((s.proc k).pNext, .reading)).at (.loop p))) := by
  refine h.quiet_after hk hpc trivial _ ?_ rfl (Nat.lt_succ_self _)
  exact (h.each k hk).closesRead hpc _ _ (h.kind_stage hk hpc id _ trivial) ⟨trivial, trivial⟩
    ⟨id, trivial⟩ ⟨nofun, nofun⟩ id id trivial (Nat.le_refl _) id

theorem good_closeFeed (h : Good N s) (hk : k < s.procs) (hpc : (s.proc k).pc = .closeFeed) :
    Advances N s (s.set k (((s.proc k).close ((s.proc k).pNext, .writing)).at .waitFirst)) := by
  refine h.quiet_after hk hpc trivial _ ?_ rfl (Nat.lt_succ_self _)
  exact (h.each k hk).closesWrite hpc _ _ (h.kind_main hk hpc id _ trivial) ⟨id, trivial⟩
    ⟨id, id⟩ ⟨nofun, nofun⟩ id id trivial (Nat.le_refl _) nofun

theorem good_closeOut (h : Good N s) (hk : k < s.procs) (hpc : (s.proc k).pc = .closeOut) :
    Advances N s (s.set k (((s.proc k).close ((s.proc k).pNext, .writing)).at .waitNext)) := by
  have hdone := (h.each k hk).done (by rw [hpc]; trivial)
  refine h.quiet_after hk hpc trivial _ ?_ rfl (Nat.lt_succ_self _)
  exact (h.each k hk).closesWrite hpc _ _ (h.kind_stage hk hpc id _ trivial) ⟨id, trivial⟩
    ⟨id, id⟩ ⟨nofun, nofun⟩ id id trivial (Nat.le_refl _) (fun _ => hdone)

theorem good_closeInput (h : Good N s) (hk : k < s.procs) (pc : Pc)
    (hold : (s.proc k).pc = .childClose ∧ pc = .closeIn ∨
      (s.proc k).pc = .closeIn ∧ pc = .first) :
    Advances N s (s.set k (((s.proc k).close ((s.proc k).pi, .writing)).at pc)) := by
  refine h.quiet hk _ ((h.each k hk).closesInput pc _ hold) ?_ ?_ ?_
  · rcases hold with ⟨hpc, rfl⟩ | ⟨hpc, rfl⟩
    · rw [hpc]
      cases unread N s k <;> rfl
    · rw [hpc]
      cases unread N s k <;> rfl
  · rcases hold with ⟨hpc, rfl⟩ | ⟨hpc, rfl⟩
    · rw [hpc]
      exact Nat.lt_succ_self _
    · rw [hpc]
      exact Nat.lt_succ_self _
  · intro hlast
    have hend := h.last k hlast
    rcases hold with ⟨hpc, rfl⟩ | ⟨hpc, rfl⟩
    · rw [hpc] at hend
      exact hend.goes _ rfl rfl rfl
    · rw [hpc] at hend
      exact hend.goes _ rfl rfl rfl

theorem good_feedEnd (h : Good N s) (hk : k < s.procs) (i : Nat) (hi : ¬i ≤ N)
    (hpc : (s.proc k).pc = .feed i) : Advances N s (s.set k ((s.proc k).at .closeFeed)) := by
  refine h.quiet_after hk hpc trivial _ ?_ ?_ ?_
  · exact (h.each k hk).goes hpc _ _ (h.kind_main hk hpc id _ trivial) Iff.rfl Iff.rfl
      ⟨nofun, nofun⟩ id id id (Nat.le_refl _) nofun
  · have hlen : N + 1 - i = 0 := by omega
    change [] = List.range' i (N + 1 - i)
    rw [hlen]
    rfl
  · change 3 < (N + 1 - i) + 4
    omega

theorem good_waitFirst (h : Good N s) (hk : k < s.procs) (hpc : (s.proc k).pc = .waitFirst) :
    Advances N s (s.set k ((s.proc k).at .exiting)) := by
  have hk0 := (h.each k hk).main hpc id
  subst hk0
  refine h.quiet_after hk hpc trivial _ ?_ rfl (Nat.lt_succ_self _)
  exact (h.each 0 hk).goes hpc _ _ trivial Iff.rfl Iff.rfl ⟨nofun, nofun⟩ nofun id nofun
    (Nat.le_refl _) (fun _ => rfl)

theorem good_waitNext (h : Good N s) (hk : k < s.procs) (hpc : (s.proc k).pc = .waitNext) :
    Advances N s (s.set k ((s.proc k).at .closeLast)) := by
  have hdone := (h.each k hk).done (by rw [hpc]; trivial)
  refine h.quiet_after hk hpc trivial _ ?_ rfl (Nat.lt_succ_self _)
  exact (h.each k hk).goes hpc _ _ (h.kind_stage hk hpc id _ trivial) Iff.rfl Iff.rfl
    ⟨nofun, nofun⟩ id id id (Nat.le_refl _) (fun _ => hdone)

theorem good_closeLast (h : Good N s) (hk : k < s.procs) (hpc : (s.proc k).pc = .closeLast) :
    Advances N s (s.set k (((s.proc k).close ((s.proc k).pi, .reading)).at .exiting)) := by
  have hp := h.each k hk
  have hdone := hp.done (by rw [hpc]; trivial)
  have hroom := hp.room
  rw [hpc] at hroom
  refine h.quiet_after hk hpc trivial _ ?_ rfl (Nat.lt_succ_self _)
  refine hp.closes _ _ _ (h.kind_stage hk hpc id _ trivial) nofun nofun nofun ?_ ?_
    ((length_close_le _ _).trans hroom) (fun _ => hdone)
  · rintro ⟨q, e⟩ - hmay
    rw [hpc] at hmay
    cases e with
    | reading => exact hmay
    | writing => exact hmay.imp (fun hq => nomatch hq.2) id
  · rintro ⟨q, e⟩ hmust
    cases e with
    | reading => exact hmust.elim (fun hq => hq.2.elim) (fun hq => hq.2.elim)
    | writing => exact hmust.elim (fun hq => nomatch hq.2) (fun hq => hq.2.elim)

theorem good_exiting (h : Good N s) (hk : k < s.procs) (hpc : (s.proc k).pc = .exiting) :
    Advances N s (s.set k { s.proc k with pc := .exited, fds := [] }) := by
  have hp := h.each k hk
  have hdone := hp.done (by rw [hpc]; trivial)
  refine h.quiet hk _ ?_ ?_ ?_ ?_
  · refine hp.shrink _ _ _ ?_ nofun nofun nofun nofun ?_ (Nat.le_refl 0) (fun _ => hdone)
    · have hkind := hp.kind
      rw [hpc] at hkind
      by_cases hk0 : k = 0
      · rw [if_pos hk0]
        trivial
      · rw [if_neg hk0]
        trivial
    · rintro ⟨q, e⟩ hmust
      cases e with
      | reading => exact hmust.elim (fun hq => hq.2.elim) (fun hq => hq.2.elim)
      | writing => exact hmust.elim (fun hq => nomatch hq.2) (fun hq => hq.2.elim)
  · rw [hpc]
    rfl
  · rw [hpc]
    exact Nat.lt_succ_self 0
  · intro hlast
    have hend := h.last k hlast
    rw [hpc] at hend
    exact hend.goes _ rfl rfl rfl

theorem good_print (h : Good N s) (hk : k < s.procs) (p : Nat) (hpc : (s.proc k).pc = .print p) :
    Advances N s { s.set k ((s.proc k).at (.mkPipe p)) with out := s.out ++ [.prime p] } := by
  have hp := h.each k hk
  have hlast := hp.before (by rw [hpc]; trivial)
  have hend := h.last k hlast
  rw [hpc] at hend
  have hplaced : Placed s.procs k ((s.proc k).at (.mkPipe p)) (unread N s k) :=
    hp.goes hpc _ _ (h.kind_stage hk hpc id _ trivial) Iff.rfl Iff.rfl
      ⟨nofun, nofun⟩ id id id (Nat.le_refl _) nofun
  refine h.step_one hk _ (unread N s k) rfl rfl (fun _ => by omega) ?_ h.empty hplaced ?_ ?_
  · refine unread_step N s _ k _ ?_ (fun j _ _ => rfl) ?_ ?_ ?_
    · intro j hj
      exact congrArg Proc.pc (Function.update_of_ne (β := fun _ => Proc) hj _ s.proc)
    · rintro rfl
      rfl
    · rintro i rfl
      rfl
    · have hself : (s.set k ((s.proc k).at (.mkPipe p))).proc k = (s.proc k).at (.mkPipe p) :=
        Function.update_self (β := fun _ => Proc) k _ s.proc
      change s.queue k ++ emits N ((s.set k ((s.proc k).at (.mkPipe p))).proc k).pc _ = _
      rw [hself, hpc]
      rfl
  · rw [hpc]
    exact Nat.lt_succ_self _
  · intro _
    constructor
    · exact hend.pipes
    · have hprinted := hend.printed
      have hlen : (s.out ++ [Output.prime p]).length = s.out.length + 1 := by simp
      change k ≤ (s.out ++ [Output.prime p]).length + 0
      rw [hlen]
      exact hprinted
    · have hdata := hend.data
      change (s.out ++ [Output.prime p]) ++ (sieve (strike p (unread N s k))).map _ = _
      rw [← hdata, List.append_assoc]
      rfl

end Steps

section Streams

variable {N k : Nat} {s : State}

theorem held_iff (s : State) (f : Fd) :
    s.held f = true ↔ ∃ j < s.procs, f ∈ (s.proc j).fds := by
  unfold State.held
  simp only [List.any_eq_true, List.mem_range, decide_eq_true_eq]

theorem read_spec (s : State) (k q : Nat) (hmem : (q, End.reading) ∈ (s.proc k).fds) :
    (read s k q = .sleeps ∧ s.queue q = [] ∧ s.held (q, .writing) = true) ∨
    (read s k q = .eof ∧ s.queue q = [] ∧ s.held (q, .writing) = false) ∨
    (∃ num rest, read s k q = .got num rest ∧ s.queue q = num :: rest) := by
  unfold read
  rw [if_pos hmem]
  cases hqueue : s.queue q with
  | nil =>
    dsimp only
    cases hheld : s.held (q, .writing) with
    | false => exact Or.inr (Or.inl ⟨rfl, rfl, rfl⟩)
    | true => exact Or.inl ⟨rfl, rfl, rfl⟩
  | cons num rest => exact Or.inr (Or.inr ⟨num, rest, rfl, rfl⟩)

/-- A process that has forked, or exited, and has closed its pipe has nothing more to write. -/
theorem emits_closed (N : Nat) (a : Pc) (u : List Nat) (hbefore : ¬a.before)
    (hwrite : ¬a.ownWrite) : emits N a u = [] := by
  cases a
  case start | forkFirst | childClose | closeIn | first | print | mkPipe | forkNext =>
    exact absurd trivial hbefore
  case closeFirst | feed | closeNext | loop | pass => exact absurd trivial hwrite
  all_goals rfl

/-- At the end of the file nothing is left to read. -/
theorem Good.eof (h : Good N s) (hk : k < s.procs) (hpos : 0 < k)
    (hqueue : s.queue (s.proc k).pi = []) (hheld : s.held ((s.proc k).pi, .writing) = false) :
    unread N s k = [] := by
  have hpi := (h.each k hk).pi hpos
  obtain ⟨i, rfl⟩ : ∃ i, k = i + 1 := ⟨k - 1, by omega⟩
  have hpi' : (s.proc (i + 1)).pi = i := by omega
  rw [hpi'] at hqueue hheld
  have hfeeder := h.each i (by omega)
  unfold unread
  rw [hqueue, List.nil_append]
  refine emits_closed N _ _ ?_ ?_
  · intro hbefore
    have hlast := hfeeder.before hbefore
    omega
  · intro hwrite
    have hopen := (held_iff s (i, .writing)).mpr ⟨i, by omega, hfeeder.ownWriting hwrite⟩
    rw [hheld] at hopen
    cases hopen

/-- While a process has something to write, its child reads. -/
theorem Good.reader (h : Good N s) (hk : k + 1 < s.procs)
    (hsome : emits N (s.proc k).pc (unread N s k) ≠ []) :
    s.held (k, .reading) = true ∧ ¬(s.proc (k + 1)).pc.isDone := by
  have hchild := h.each (k + 1) hk
  have hunread : unread N s (k + 1) ≠ [] := by
    intro hnil
    exact hsome (List.append_eq_nil_iff.mp hnil).2
  have hdone : ¬(s.proc (k + 1)).pc.isDone := fun hdone => hunread (hchild.done hdone)
  refine ⟨(held_iff s _).mpr ⟨k + 1, hk, ?_⟩, hdone⟩
  refine hchild.must (k, .reading) ?_
  refine Or.inl ⟨rfl, ?_⟩
  cases hpc : (s.proc (k + 1)).pc
  case exiting | exited =>
    rw [hpc] at hdone
    exact absurd trivial hdone
  all_goals trivial

theorem write_spec (h : Good N s) (hk : k + 1 < s.procs) (hown : (s.proc k).pc.ownWrite)
    (hsome : emits N (s.proc k).pc (unread N s k) ≠ []) :
    (write s k (s.proc k).pNext = .sleeps ∧ PIPEINTS ≤ (s.queue k).length) ∨
    (write s k (s.proc k).pNext = .put ∧ (s.queue k).length < PIPEINTS) := by
  have hp := h.each k (by omega)
  have hheld := (h.reader hk hsome).1
  unfold write
  rw [hp.pNext hown, if_pos ⟨hp.ownWriting hown, hheld⟩]
  by_cases hroom : (s.queue k).length < PIPEINTS
  · rw [if_pos hroom]
    exact Or.inr ⟨rfl, hroom⟩
  · rw [if_neg hroom]
    exact Or.inl ⟨rfl, by omega⟩

/-- A step that reads a number. -/
theorem Good.reads (h : Good N s) (hk : k < s.procs) (hpos : 0 < k) (num : Nat) (rest : List Nat)
    (hqueue : s.queue (s.proc k).pi = num :: rest) (pc : Pc)
    (hplaced : ∀ v, unread N s k = num :: v → Placed s.procs k ((s.proc k).at pc) v)
    (hemits : ∀ v, emits N pc v = emits N (s.proc k).pc (num :: v))
    (hcost : ∀ v, cost N pc v < cost N (s.proc k).pc (num :: v))
    (hend : ∀ v, k + 1 = s.procs → unread N s k = num :: v → AtEnd N k s.pipes s.out pc v) :
    Advances N s ((s.set k ((s.proc k).at pc)).setQueue (s.proc k).pi rest) := by
  have hpi := (h.each k hk).pi hpos
  obtain ⟨i, rfl⟩ : ∃ i, k = i + 1 := ⟨k - 1, by omega⟩
  have hpi' : (s.proc (i + 1)).pi = i := by omega
  rw [hpi'] at hqueue ⊢
  let v := rest ++ emits N (s.proc i).pc (unread N s i)
  have hunread : unread N s (i + 1) = num :: v := by
    unfold unread
    rw [hqueue]
    rfl
  let s' := (s.set (i + 1) ((s.proc (i + 1)).at pc)).setQueue i rest
  have hself : s'.proc (i + 1) = (s.proc (i + 1)).at pc :=
    Function.update_self (β := fun _ => Proc) (i + 1) _ s.proc
  refine h.step_one hk ((s.proc (i + 1)).at pc) v rfl rfl (fun _ => ⟨rfl, rfl⟩) ?_ ?_
    (hplaced v hunread) ?_ (fun hlast => hend v hlast hunread)
  · refine unread_step N s s' (i + 1) v ?_ ?_ (fun h0 => by omega) ?_ ?_
    · intro j hj
      exact congrArg Proc.pc (Function.update_of_ne (β := fun _ => Proc) hj _ s.proc)
    · intro j _ hj
      exact Function.update_of_ne (β := fun _ => List Nat) (by omega) rest s.queue
    · intro j hj
      have hji : j = i := by omega
      subst hji
      have hrest : s'.queue j = rest :=
        Function.update_self (β := fun _ => List Nat) j rest s.queue
      rw [hrest]
    · have hsame : s'.queue (i + 1) = s.queue (i + 1) :=
        Function.update_of_ne (β := fun _ => List Nat) (by omega) rest s.queue
      rw [hself, hsame, hunread, ← hemits v]
      rfl
  · intro q hq
    have hqi : q ≠ i := by omega
    have hsame : s'.queue q = s.queue q :=
      Function.update_of_ne (β := fun _ => List Nat) hqi rest s.queue
    exact hsame.trans (h.empty q hq)
  · rw [hunread]
    exact hcost v

/-- A step that writes a number. -/
theorem Good.writes (h : Good N s) (hk : k + 1 < s.procs) (num : Nat)
    (hown : (s.proc k).pc.ownWrite) (pc : Pc)
    (hplaced : Placed s.procs k ((s.proc k).at pc) (unread N s k))
    (hemits : emits N (s.proc k).pc (unread N s k) = num :: emits N pc (unread N s k))
    (hcost : cost N pc (unread N s k) < cost N (s.proc k).pc (unread N s k)) :
    Advances N s ((s.set k ((s.proc k).at pc)).setQueue (s.proc k).pNext
      (s.queue (s.proc k).pNext ++ [num])) := by
  rw [(h.each k (by omega)).pNext hown]
  let s' := (s.set k ((s.proc k).at pc)).setQueue k (s.queue k ++ [num])
  have hself : s'.proc k = (s.proc k).at pc :=
    Function.update_self (β := fun _ => Proc) k _ s.proc
  have hother : ∀ j, j ≠ k → s'.queue j = s.queue j := by
    intro j hj
    exact Function.update_of_ne (β := fun _ => List Nat) hj _ s.queue
  change Advances N s s'
  refine h.step_one (by omega) ((s.proc k).at pc) (unread N s k) rfl rfl
    (fun _ => ⟨rfl, rfl⟩) ?_ ?_ hplaced hcost (fun hlast => by omega)
  · refine unread_step N s s' k (unread N s k) ?_ (fun j hj _ => hother j hj) ?_ ?_ ?_
    · intro j hj
      exact congrArg Proc.pc (Function.update_of_ne (β := fun _ => Proc) hj _ s.proc)
    · rintro rfl
      rfl
    · rintro i rfl
      rw [hother i (by omega)]
      rfl
    · have hqueue : s'.queue k = s.queue k ++ [num] :=
        Function.update_self (β := fun _ => List Nat) k _ s.queue
      rw [hself, hqueue, hemits, List.append_assoc]
      rfl
  · intro q hq
    rw [hother q (by omega)]
    exact h.empty q hq

theorem unread_below (N : Nat) (s t : State) (b : Nat)
    (hsame : ∀ j < b, (t.proc j).pc = (s.proc j).pc ∧ t.queue j = s.queue j) (j : Nat)
    (hj : j ≤ b) : unread N t j = unread N s j := by
  induction j with
  | zero => rfl
  | succ j ih =>
    obtain ⟨hpc, hqueue⟩ := hsame j hj
    unfold unread
    rw [ih (by omega), hpc, hqueue]

/-- A program counter at a call of `pipe`. -/
structure Pipes (a : Pc) : Prop where
  before : a.before
  forking : a.forking = false
  ownRead : ¬a.ownRead
  ownWrite : ¬a.ownWrite
  grown : a ≠ .childClose
  printing : a.printing = false
  running : a.running

/-- A program counter at a fork. -/
structure Forks (a : Pc) : Prop where
  before : a.before
  forking : a.forking = true
  ownRead : a.ownRead
  ownWrite : a.ownWrite
  grown : a ≠ .childClose
  printing : a.printing = false
  running : a.running
  busy : ¬a.isDone
  early : ¬a.after
  room : ∀ k, Primes.room k a = k + 2

/-- A program counter of the parent behind a fork. -/
structure Forked (pc : Pc) : Prop where
  after : pc.after
  ownRead : pc.ownRead
  ownWrite : pc.ownWrite
  grown : pc ≠ .childClose
  busy : ¬pc.isDone
  past : ¬pc.before
  room : ∀ k, Primes.room k pc = k + 2

/-- `pipe` by a process that is about to fork. -/
theorem Good.pipes (h : Good N s) (hk : k < s.procs) (ha : Pipes (s.proc k).pc) {pc : Pc}
    (hnew : Forks pc) (hkind : if k = 0 then pc.isMain else pc.isStage)
    (hroom : Primes.room k (s.proc k).pc ≤ k)
    (hemits : emits N pc (unread N s k) = emits N (s.proc k).pc (unread N s k))
    (hfuture : future N pc (unread N s k) = future N (s.proc k).pc (unread N s k))
    (hcost : cost N pc (unread N s k) < cost N (s.proc k).pc (unread N s k)) :
    Advances N s (pipe s k pc) := by
  have hp := h.each k hk
  have hlast := hp.before ha.before
  have hend := h.last k hlast
  have hpipes : s.pipes = k := by
    have heq := hend.pipes
    rw [ha.forking] at heq
    exact heq
  let P' : Proc := { s.proc k with
    pc := pc
    pNext := s.pipes
    fds := (s.pipes, .reading) :: (s.pipes, .writing) :: (s.proc k).fds }
  have hself : (pipe s k pc).proc k = P' :=
    Function.update_self (β := fun _ => Proc) k _ s.proc
  refine h.step_one hk P' (unread N s k) rfl rfl (fun _ => by omega) ?_ h.empty ?_ hcost ?_
  · refine unread_step N s _ k _ ?_ (fun j _ _ => rfl) ?_ ?_ ?_
    · intro j hj
      exact congrArg Proc.pc (Function.update_of_ne (β := fun _ => Proc) hj _ s.proc)
    · rintro rfl
      rfl
    · rintro i rfl
      rfl
    · rw [hself]
      change s.queue k ++ emits N pc _ = _
      rw [hemits]
  · constructor
    · exact hkind
    · exact hp.parent
    · exact hp.pi
    · intro _
      exact hpipes
    · intro _
      exact hlast
    · intro hafter
      exact absurd hafter hnew.early
    · intro f hf
      rcases List.mem_cons.mp hf with rfl | hf
      · exact Or.inr ⟨hpipes, hnew.ownRead⟩
      · rcases List.mem_cons.mp hf with rfl | hf
        · exact Or.inr ⟨hpipes, hnew.ownWrite⟩
        · have hmay := hp.may f hf
          obtain ⟨q, e⟩ := f
          cases e with
          | reading => exact hmay.imp id (fun hq => absurd hq.2 ha.ownRead)
          | writing =>
            exact (hmay.elim (fun hq => absurd hq.2 ha.grown)
              (fun hq => absurd hq.2 ha.ownWrite))
    · rintro ⟨q, e⟩ hmust
      cases e with
      | reading =>
        rcases hmust with ⟨hq, -⟩ | ⟨hq, -⟩
        · have hmem : (q, End.reading) ∈ (s.proc k).fds := by
            refine hp.must (q, .reading) ?_
            exact Or.inl ⟨hq, ha.running⟩
          exact List.mem_cons_of_mem _ (List.mem_cons_of_mem _ hmem)
        · rw [hq, ← hpipes]
          exact List.mem_cons_self
      | writing =>
        rcases hmust with ⟨-, hq⟩ | ⟨hq, -⟩
        · exact absurd hq hnew.grown
        · rw [hq, ← hpipes]
          exact List.mem_cons_of_mem _ List.mem_cons_self
    · have hlen := hp.room
      change (s.proc k).fds.length + 1 + 1 ≤ Primes.room k pc
      rw [hnew.room k]
      omega
    · intro hdone
      exact absurd hdone hnew.busy
  · intro _
    constructor
    · change s.pipes + 1 = if pc.forking then k + 1 else k
      rw [hnew.forking, hpipes]
      rfl
    · have hprinted := hend.printed
      rw [ha.printing] at hprinted
      change k ≤ s.out.length + if pc.printing then 1 else 0
      rw [hnew.printing]
      exact hprinted
    · change s.out ++ (future N pc (unread N s k)).map _ = _
      rw [hfuture]
      exact hend.data

/-- The new process has what its parent had, and is one further down. -/
theorem placed_child (hp : Placed s.procs k (s.proc k) (unread N s k)) (ha : Forks (s.proc k).pc)
    (v : List Nat) : Placed (s.procs + 1) s.procs (child s k) v := by
  have hlast := hp.before ha.before
  have hpNext := hp.pNext ha.ownWrite
  constructor
  · rw [if_neg (by omega)]
    trivial
  · have hkn : s.procs - 1 = k := by omega
    rw [if_neg (by omega), hkn]
    rfl
  · intro _
    change (s.proc k).pNext + 1 = s.procs
    omega
  · exact False.elim
  · intro _
    rfl
  · exact False.elim
  · rintro ⟨q, e⟩ hf
    have hmay := hp.may (q, e) hf
    cases e with
    | reading =>
      refine Or.inl ?_
      rcases hmay with hq | ⟨hq, -⟩
      · omega
      · omega
    | writing =>
      rcases hmay with ⟨-, hq⟩ | ⟨hq, -⟩
      · exact absurd hq ha.grown
      · exact Or.inl ⟨by omega, rfl⟩
  · rintro ⟨q, e⟩ hmust
    cases e with
    | reading =>
      rcases hmust with ⟨hq, -⟩ | ⟨-, hq⟩
      · have hqk : q = k := by omega
        rw [hqk]
        exact hp.ownReading ha.ownRead
      · exact hq.elim
    | writing =>
      rcases hmust with ⟨hq, -⟩ | ⟨-, hq⟩
      · have hqk : q = k := by omega
        rw [hqk]
        exact hp.ownWriting ha.ownWrite
      · exact hq.elim
  · have hlen := hp.room
    rw [ha.room k] at hlen
    change (s.proc k).fds.length ≤ s.procs + 1
    omega
  · exact False.elim

theorem placed_parent (hp : Placed s.procs k (s.proc k) (unread N s k))
    (ha : Forks (s.proc k).pc) {pc : Pc} (hnew : Forked pc)
    (hkind : if k = 0 then pc.isMain else pc.isStage) (v : List Nat) :
    Placed (s.procs + 1) k ((s.proc k).at pc) v := by
  have hlast := hp.before ha.before
  constructor
  · exact hkind
  · exact hp.parent
  · exact hp.pi
  · intro _
    exact hp.pNext ha.ownWrite
  · intro hbefore
    exact absurd hbefore hnew.past
  · intro _
    omega
  · rintro ⟨q, e⟩ hf
    have hmay := hp.may (q, e) hf
    cases e with
    | reading => exact hmay.imp id (fun hq => ⟨hq.1, hnew.ownRead⟩)
    | writing => exact hmay.imp (fun hq => absurd hq.2 ha.grown) (fun hq => ⟨hq.1, hnew.ownWrite⟩)
  · rintro ⟨q, e⟩ hmust
    refine hp.must (q, e) ?_
    cases e with
    | reading => exact hmust.imp (fun hq => ⟨hq.1, ha.running⟩) (fun hq => ⟨hq.1, ha.ownRead⟩)
    | writing => exact hmust.imp (fun hq => absurd hq.2 hnew.grown) (fun hq => ⟨hq.1, ha.ownWrite⟩)
  · have hlen := hp.room
    rw [ha.room k] at hlen
    change (s.proc k).fds.length ≤ Primes.room k pc
    rw [hnew.room k]
    exact hlen
  · intro hdone
    exact absurd hdone hnew.busy

theorem fork_proc (s : State) (k : Nat) (pc : Pc) (hk : k < s.procs) :
    (fork s k pc).proc s.procs = child s k ∧ (fork s k pc).proc k = (s.proc k).at pc ∧
    ∀ j, j ≠ s.procs → j ≠ k → (fork s k pc).proc j = s.proc j := by
  have hold : ∀ j, j ≠ s.procs → (fork s k pc).proc j = (s.set k ((s.proc k).at pc)).proc j := by
    intro j hj
    exact Function.update_of_ne (β := fun _ => Proc) hj _ _
  refine ⟨Function.update_self (β := fun _ => Proc) s.procs _ _, ?_, ?_⟩
  · rw [hold k (by omega)]
    exact Function.update_self (β := fun _ => Proc) k _ s.proc
  · intro j hj hjk
    rw [hold j hj]
    exact Function.update_of_ne (β := fun _ => Proc) hjk _ s.proc

/-- The parent writes what it would have written, and the new process reads it. -/
theorem fork_unread (h : Good N s) (hlast : k + 1 = s.procs) (pc : Pc)
    (hemits : emits N pc (unread N s k) = emits N (s.proc k).pc (unread N s k)) :
    (∀ j, j ≤ k → unread N (fork s k pc) j = unread N s j) ∧
    unread N (fork s k pc) s.procs = emits N (s.proc k).pc (unread N s k) := by
  obtain ⟨-, hself, hother⟩ := fork_proc s k pc (by omega)
  have hunread : ∀ j, j ≤ k → unread N (fork s k pc) j = unread N s j := by
    refine unread_below N s _ k ?_
    intro j hj
    rw [hother j (by omega) (by omega)]
    exact ⟨rfl, rfl⟩
  refine ⟨hunread, ?_⟩
  rw [← hlast]
  change (fork s k pc).queue k ++ emits N ((fork s k pc).proc k).pc (unread N (fork s k pc) k) = _
  have hqueue : (fork s k pc).queue k = [] := h.empty k (by omega)
  rw [hunread k (Nat.le_refl k), hself, hqueue, List.nil_append]
  exact hemits

/-- `fork` by the last process. -/
theorem Good.forks (h : Good N s) (hk : k < s.procs) (ha : Forks (s.proc k).pc) {pc : Pc}
    (hnew : Forked pc) (hkind : if k = 0 then pc.isMain else pc.isStage)
    (hemits : emits N pc (unread N s k) = emits N (s.proc k).pc (unread N s k))
    (hfuture : sieve (emits N (s.proc k).pc (unread N s k)) =
      future N (s.proc k).pc (unread N s k))
    (hcost : cost N pc (unread N s k) +
      cost N .childClose (emits N (s.proc k).pc (unread N s k)) <
        cost N (s.proc k).pc (unread N s k)) : Advances N s (fork s k pc) := by
  have hp := h.each k hk
  have hlast := hp.before ha.before
  have hend := h.last k hlast
  have hprocs : (fork s k pc).procs = s.procs + 1 := rfl
  obtain ⟨hchild, hself, hother⟩ := fork_proc s k pc hk
  obtain ⟨hunread, hstream⟩ := fork_unread h hlast pc hemits
  refine ⟨?_, ?_⟩
  · constructor
    · rw [hprocs]
      omega
    · intro j hj
      rw [hprocs] at hj
      rw [hother j (by omega) (by omega)]
      exact h.rest j (by omega)
    · intro j hj
      rw [hprocs] at hj ⊢
      by_cases hjn : j = s.procs
      · subst hjn
        rw [hchild]
        exact placed_child hp ha _
      · by_cases hjk : j = k
        · subst hjk
          rw [hself]
          exact placed_parent hp ha hnew hkind _
        · have hpj := h.each j (by omega)
          rw [hother j hjn hjk, hunread j (by omega)]
          refine { hpj with before := ?_, after := ?_ }
          · intro hbefore
            have heq := hpj.before hbefore
            omega
          · intro _
            omega
    · intro q hq
      rw [hprocs] at hq
      exact h.empty q (by omega)
    · intro j hj
      rw [hprocs] at hj
      have hjn : j = s.procs := by omega
      subst hjn
      rw [hchild, hstream]
      constructor
      · have hpipes := hend.pipes
        rw [ha.forking] at hpipes
        change s.pipes = s.procs
        rw [hpipes, ← hlast]
        rfl
      · have hprinted := hend.printed
        rw [ha.printing] at hprinted
        change s.procs ≤ s.out.length + 1
        change k ≤ s.out.length at hprinted
        omega
      · change s.out ++ (sieve (emits N (s.proc k).pc (unread N s k))).map _ = _
        rw [hfuture]
        exact hend.data
  · unfold effort
    rw [hprocs, Finset.sum_range_succ, hchild, hstream, ← hlast, Finset.sum_range_succ,
      Finset.sum_range_succ, hself, hunread k (Nat.le_refl k)]
    have hrest : ∑ j ∈ Finset.range k, cost N ((fork s k pc).proc j).pc
          (unread N (fork s k pc) j) =
        ∑ j ∈ Finset.range k, cost N (s.proc j).pc (unread N s j) := by
      refine Finset.sum_congr rfl ?_
      intro j hj
      have hjk := Finset.mem_range.mp hj
      rw [hother j (by omega) (by omega), hunread j (by omega)]
    rw [hrest]
    change _ + cost N pc (unread N s k) + cost N .childClose _ < _
    omega

end Streams

section Stages

variable {N k : Nat} {s t : State}

theorem forks_first : Forks .forkFirst :=
  ⟨trivial, rfl, trivial, trivial, nofun, rfl, trivial, id, id, fun _ => rfl⟩

theorem forks_next (p : Nat) : Forks (.forkNext p) :=
  ⟨trivial, rfl, trivial, trivial, nofun, rfl, trivial, id, id, fun _ => rfl⟩

theorem good_start (h : Good N s) (hk : k < s.procs) (hpc : (s.proc k).pc = .start) :
    Advances N s (pipe s k .forkFirst) := by
  refine h.pipes hk ?_ forks_first (h.kind_main hk hpc id _ trivial) ?_ ?_ ?_ ?_
  · rw [hpc]
    exact ⟨trivial, rfl, id, id, nofun, rfl, trivial⟩
  · rw [hpc]
    exact Nat.zero_le k
  · rw [hpc]
    rfl
  · rw [hpc]
    rfl
  · rw [hpc]
    exact Nat.lt_succ_self _

theorem good_mkPipe (h : Good N s) (hk : k < s.procs) (p : Nat)
    (hpc : (s.proc k).pc = .mkPipe p) : Advances N s (pipe s k (.forkNext p)) := by
  refine h.pipes hk ?_ (forks_next p) (h.kind_stage hk hpc id _ trivial) ?_ ?_ ?_ ?_
  · rw [hpc]
    exact ⟨trivial, rfl, id, id, nofun, rfl, trivial⟩
  · rw [hpc]
    exact Nat.le_refl k
  · rw [hpc]
    rfl
  · rw [hpc]
    rfl
  · rw [hpc]
    exact Nat.lt_succ_self _

theorem good_forkFirst (h : Good N s) (hk : k < s.procs) (hpc : (s.proc k).pc = .forkFirst) :
    Advances N s (fork s k .closeFirst) := by
  refine h.forks hk ?_ ⟨trivial, trivial, trivial, nofun, id, id, fun _ => rfl⟩
    (h.kind_main hk hpc id _ trivial) ?_ ?_ ?_
  · rw [hpc]
    exact forks_first
  · rw [hpc]
    rfl
  · rw [hpc]
    rfl
  · rw [hpc]
    change (N + 5) + (stageCost (List.range' 2 (N - 1)) + 2) < _ + N + 8
    omega

theorem good_forkNext (h : Good N s) (hk : k < s.procs) (p : Nat)
    (hpc : (s.proc k).pc = .forkNext p) : Advances N s (fork s k (.closeNext p)) := by
  refine h.forks hk ?_ ⟨trivial, trivial, trivial, nofun, id, id, fun _ => rfl⟩
    (h.kind_stage hk hpc id _ trivial) ?_ ?_ ?_
  · rw [hpc]
    exact forks_next p
  · rw [hpc]
    rfl
  · rw [hpc]
    rfl
  · rw [hpc]
    change (2 * (unread N s k).length + 6) + (stageCost (strike p (unread N s k)) + 2) <
      stageCost (strike p (unread N s k)) + 2 * (unread N s k).length + 9
    omega

theorem emits_feed (N i : Nat) (hi : i ≤ N) (u : List Nat) :
    emits N (.feed i) u = i :: emits N (.feed (i + 1)) u := by
  change List.range' i (N + 1 - i) = i :: List.range' (i + 1) (N + 1 - (i + 1))
  have hlen : N + 1 - i = (N + 1 - (i + 1)) + 1 := by omega
  rw [hlen, List.range'_succ]

theorem good_feed (h : Good N s) (hk : k < s.procs) (i : Nat) (hi : i ≤ N)
    (hpc : (s.proc k).pc = .feed i) :
    Advances N s ((s.set k ((s.proc k).at (.feed (i + 1)))).setQueue (s.proc k).pNext
      (s.queue (s.proc k).pNext ++ [i])) := by
  have hnext := (h.each k hk).after (by rw [hpc]; trivial)
  refine h.writes hnext i (by rw [hpc]; trivial) _ ?_ ?_ ?_
  · exact (h.each k hk).goes hpc _ _ (h.kind_main hk hpc id _ trivial) Iff.rfl Iff.rfl
      ⟨nofun, nofun⟩ id id id (Nat.le_refl _) nofun
  · rw [hpc]
    exact emits_feed N i hi _
  · rw [hpc]
    change (N + 1 - (i + 1)) + 4 < (N + 1 - i) + 4
    omega

theorem good_pass (h : Good N s) (hk : k < s.procs) (p num : Nat)
    (hpc : (s.proc k).pc = .pass p num) :
    Advances N s ((s.set k ((s.proc k).at (.loop p))).setQueue (s.proc k).pNext
      (s.queue (s.proc k).pNext ++ [num])) := by
  have hnext := (h.each k hk).after (by rw [hpc]; trivial)
  refine h.writes hnext num (by rw [hpc]; trivial) _ ?_ ?_ ?_
  · exact (h.each k hk).goes hpc _ _ (h.kind_stage hk hpc id _ trivial) Iff.rfl Iff.rfl
      ⟨nofun, nofun⟩ id id id (Nat.le_refl _) nofun
  · rw [hpc]
    rfl
  · rw [hpc]
    exact Nat.lt_succ_self _

theorem good_first_got (h : Good N s) (hk : k < s.procs) (hpc : (s.proc k).pc = .first)
    (p : Nat) (rest : List Nat) (hqueue : s.queue (s.proc k).pi = p :: rest) :
    Advances N s ((s.set k ((s.proc k).at (.print p))).setQueue (s.proc k).pi rest) := by
  refine h.reads hk ((h.each k hk).stage hpc id) p rest hqueue _ ?_ ?_ ?_ ?_
  · intro v _
    exact (h.each k hk).goes hpc _ _ (h.kind_stage hk hpc id _ trivial) Iff.rfl Iff.rfl
      ⟨nofun, nofun⟩ id id id (Nat.le_refl _) nofun
  · intro v
    rw [hpc]
    rfl
  · intro v
    rw [hpc]
    change _ < stageCost (p :: v)
    rw [stageCost]
    exact Nat.lt_succ_self _
  · intro v hlast hunread
    have hend := h.last k hlast
    rw [hpc, hunread] at hend
    refine ⟨hend.pipes, hend.printed, ?_⟩
    have hdata := hend.data
    change s.out ++ (sieve (p :: v)).map _ = _ at hdata
    rw [sieve_cons] at hdata
    exact hdata

theorem good_first_eof (h : Good N s) (hk : k < s.procs) (hpc : (s.proc k).pc = .first)
    (hqueue : s.queue (s.proc k).pi = []) (hheld : s.held ((s.proc k).pi, .writing) = false) :
    Advances N s (s.set k ((s.proc k).at .exiting)) := by
  have hnil := h.eof hk ((h.each k hk).stage hpc id) hqueue hheld
  refine h.quiet hk _ ?_ ?_ ?_ ?_
  · exact (h.each k hk).goes hpc _ _ (h.kind_stage hk hpc id _ trivial) Iff.rfl Iff.rfl
      ⟨nofun, nofun⟩ nofun nofun nofun (Nat.le_refl _) (fun _ => hnil)
  · rw [hpc, hnil]
    rfl
  · rw [hpc, hnil]
    change 1 < stageCost []
    rw [stageCost]
    exact Nat.lt_succ_self 1
  · intro hlast
    have hend := h.last k hlast
    rw [hpc] at hend
    refine hend.goes _ rfl rfl ?_
    rw [hnil]
    change [] = sieve []
    rw [sieve_nil]

theorem good_loop_got (h : Good N s) (hk : k < s.procs) (p : Nat)
    (hpc : (s.proc k).pc = .loop p) (num : Nat) (rest : List Nat)
    (hqueue : s.queue (s.proc k).pi = num :: rest) :
    Advances N s ((s.set k ((s.proc k).at (if num % p ≠ 0 then .pass p num else .loop p))).setQueue
      (s.proc k).pi rest) := by
  have hnext := (h.each k hk).after (by rw [hpc]; trivial)
  refine h.reads hk ((h.each k hk).stage hpc id) num rest hqueue _ ?_ ?_ ?_ ?_
  · intro v _
    by_cases hmod : num % p ≠ 0
    · rw [if_pos hmod]
      exact (h.each k hk).goes hpc _ _ (h.kind_stage hk hpc id _ trivial) Iff.rfl Iff.rfl
        ⟨nofun, nofun⟩ id id id (Nat.le_refl _) nofun
    · rw [if_neg hmod]
      exact (h.each k hk).goes hpc _ _ (h.kind_stage hk hpc id _ trivial) Iff.rfl Iff.rfl
        ⟨nofun, nofun⟩ id id id (Nat.le_refl _) nofun
  · intro v
    rw [hpc]
    change _ = strike p (num :: v)
    rw [strike_cons]
    by_cases hmod : num % p ≠ 0
    · rw [if_pos hmod, if_pos hmod]
      rfl
    · rw [if_neg hmod, if_neg hmod]
      rfl
  · intro v
    rw [hpc]
    change _ < 2 * (v.length + 1) + 5
    by_cases hmod : num % p ≠ 0
    · rw [if_pos hmod]
      change 2 * v.length + 6 < _
      omega
    · rw [if_neg hmod]
      change 2 * v.length + 5 < _
      omega
  · intro v hlast
    omega

theorem good_loop_eof (h : Good N s) (hk : k < s.procs) (p : Nat)
    (hpc : (s.proc k).pc = .loop p) (hqueue : s.queue (s.proc k).pi = [])
    (hheld : s.held ((s.proc k).pi, .writing) = false) :
    Advances N s (s.set k ((s.proc k).at .closeOut)) := by
  have hnil := h.eof hk ((h.each k hk).stage hpc id) hqueue hheld
  refine h.quiet_after hk hpc trivial _ ?_ ?_ ?_
  · exact (h.each k hk).goes hpc _ _ (h.kind_stage hk hpc id _ trivial) Iff.rfl Iff.rfl
      ⟨nofun, nofun⟩ id id id (Nat.le_refl _) (fun _ => hnil)
  · rw [hnil]
    rfl
  · change 4 < 2 * (unread N s k).length + 5
    omega

theorem step_procs (h : Good N s) (hstep : step N s k = some t) : k < s.procs := by
  by_contra hk
  have hpc := h.rest k (by omega)
  unfold step at hstep
  dsimp only at hstep
  rw [hpc] at hstep
  cases hstep

/-- Every step of every process keeps the invariant and brings the end nearer. -/
theorem good_step (h : Good N s) (hstep : step N s k = some t) : Advances N s t := by
  have hk := step_procs h hstep
  have hp := h.each k hk
  unfold step at hstep
  dsimp only at hstep
  cases hpc : (s.proc k).pc with
  | unused | exited | lost =>
    rw [hpc] at hstep
    cases hstep
  | start =>
    rw [hpc] at hstep
    cases hstep
    exact good_start h hk hpc
  | forkFirst =>
    rw [hpc] at hstep
    cases hstep
    exact good_forkFirst h hk hpc
  | closeFirst =>
    rw [hpc] at hstep
    cases hstep
    exact good_closeFirst h hk hpc
  | feed i =>
    rw [hpc] at hstep
    dsimp only at hstep
    by_cases hi : i ≤ N
    · rw [if_pos hi] at hstep
      have hnext := hp.after (by rw [hpc]; trivial)
      have hsome : emits N (s.proc k).pc (unread N s k) ≠ [] := by
        rw [hpc, emits_feed N i hi]
        exact List.cons_ne_nil _ _
      rcases write_spec h hnext (by rw [hpc]; trivial) hsome with ⟨hw, -⟩ | ⟨hw, -⟩
      · rw [hw] at hstep
        cases hstep
      · rw [hw] at hstep
        cases hstep
        exact good_feed h hk i hi hpc
    · rw [if_neg hi] at hstep
      cases hstep
      exact good_feedEnd h hk i hi hpc
  | closeFeed =>
    rw [hpc] at hstep
    cases hstep
    exact good_closeFeed h hk hpc
  | waitFirst =>
    rw [hpc] at hstep
    dsimp only at hstep
    split at hstep
    · cases hstep
    · cases hstep
      exact good_waitFirst h hk hpc
  | childClose =>
    rw [hpc] at hstep
    cases hstep
    exact good_closeInput h hk _ (Or.inl ⟨hpc, rfl⟩)
  | closeIn =>
    rw [hpc] at hstep
    cases hstep
    exact good_closeInput h hk _ (Or.inr ⟨hpc, rfl⟩)
  | first =>
    rw [hpc] at hstep
    dsimp only at hstep
    rcases read_spec s k _ (hp.input hpc id trivial) with
      ⟨hr, -, -⟩ | ⟨hr, hqueue, hheld⟩ | ⟨p, rest, hr, hqueue⟩
    · rw [hr] at hstep
      cases hstep
    · rw [hr] at hstep
      cases hstep
      exact good_first_eof h hk hpc hqueue hheld
    · rw [hr] at hstep
      cases hstep
      exact good_first_got h hk hpc p rest hqueue
  | print p =>
    rw [hpc] at hstep
    cases hstep
    exact good_print h hk p hpc
  | mkPipe p =>
    rw [hpc] at hstep
    cases hstep
    exact good_mkPipe h hk p hpc
  | forkNext p =>
    rw [hpc] at hstep
    cases hstep
    exact good_forkNext h hk p hpc
  | closeNext p =>
    rw [hpc] at hstep
    cases hstep
    exact good_closeNext h hk p hpc
  | loop p =>
    rw [hpc] at hstep
    dsimp only at hstep
    rcases read_spec s k _ (hp.input hpc id trivial) with
      ⟨hr, -, -⟩ | ⟨hr, hqueue, hheld⟩ | ⟨num, rest, hr, hqueue⟩
    · rw [hr] at hstep
      cases hstep
    · rw [hr] at hstep
      cases hstep
      exact good_loop_eof h hk p hpc hqueue hheld
    · rw [hr] at hstep
      cases hstep
      exact good_loop_got h hk p hpc num rest hqueue
  | pass p num =>
    rw [hpc] at hstep
    dsimp only at hstep
    have hnext := hp.after (by rw [hpc]; trivial)
    have hsome : emits N (s.proc k).pc (unread N s k) ≠ [] := by
      rw [hpc]
      exact List.cons_ne_nil _ _
    rcases write_spec h hnext (by rw [hpc]; trivial) hsome with ⟨hw, -⟩ | ⟨hw, -⟩
    · rw [hw] at hstep
      cases hstep
    · rw [hw] at hstep
      cases hstep
      exact good_pass h hk p num hpc
  | closeOut =>
    rw [hpc] at hstep
    cases hstep
    exact good_closeOut h hk hpc
  | waitNext =>
    rw [hpc] at hstep
    dsimp only at hstep
    split at hstep
    · cases hstep
    · cases hstep
      exact good_waitNext h hk hpc
  | closeLast =>
    rw [hpc] at hstep
    cases hstep
    exact good_closeLast h hk hpc
  | exiting =>
    rw [hpc] at hstep
    cases hstep
    exact good_exiting h hk hpc

theorem good_run (N : Nat) (sched : List Nat) (s : State)
    (hrun : run (step N) boot sched = some s) : Good N s :=
  run_invariant (step N) (Good N) (fun _ _ _ h hstep => (good_step h hstep).good) boot s sched
    (good_boot N) hrun

end Stages

section Quiescent

variable {N k : Nat} {s : State}

/-- A read sleeps only for a feeder that writes, and only on an empty pipe. -/
theorem sleeps_reading (h : Good N s) (hk : k < s.procs)
    (hpc : (s.proc k).pc = .first ∨ ∃ p, (s.proc k).pc = .loop p) (hstuck : step N s k = none) :
    ∃ i, i + 1 = k ∧ s.queue i = [] ∧ (s.proc i).pc.ownWrite := by
  have hp := h.each k hk
  have hinput : (s.proc k).pc.isStage ∧ ¬(s.proc k).pc.isMain ∧ (s.proc k).pc.running ∧
      (s.proc k).pc ≠ .childClose := by
    rcases hpc with hpc | ⟨p, hpc⟩
    · rw [hpc]
      exact ⟨trivial, id, trivial, nofun⟩
    · rw [hpc]
      exact ⟨trivial, id, trivial, nofun⟩
  obtain ⟨-, hmain, hrun, hgrown⟩ := hinput
  have hpos := hp.stage rfl hmain
  have hpi := hp.pi hpos
  have hsleep : s.queue (s.proc k).pi = [] ∧ s.held ((s.proc k).pi, .writing) = true := by
    unfold step at hstuck
    dsimp only at hstuck
    rcases read_spec s k _ (hp.input rfl hmain hrun) with
      ⟨-, hqueue, hheld⟩ | ⟨hr, -, -⟩ | ⟨num, rest, hr, -⟩
    · exact ⟨hqueue, hheld⟩
    · rcases hpc with hpc | ⟨p, hpc⟩
      · rw [hpc, hr] at hstuck
        cases hstuck
      · rw [hpc, hr] at hstuck
        cases hstuck
    · rcases hpc with hpc | ⟨p, hpc⟩
      · rw [hpc, hr] at hstuck
        cases hstuck
      · rw [hpc, hr] at hstuck
        cases hstuck
  obtain ⟨hqueue, hheld⟩ := hsleep
  obtain ⟨j, hj, hopen⟩ := (held_iff s _).mp hheld
  refine ⟨(s.proc k).pi, hpi, hqueue, ?_⟩
  rcases (h.each j hj).may _ hopen with ⟨hjk, hchild⟩ | ⟨hjk, hwrite⟩
  · have hjk' : j = k := by omega
    rw [hjk'] at hchild
    exact absurd hchild hgrown
  · rw [hjk]
    exact hwrite

/-- A write sleeps only on a full pipe, in front of a child that is not done. -/
theorem sleeps_writing (h : Good N s) (hk : k < s.procs)
    (hpc : (∃ i, (s.proc k).pc = .feed i) ∨ ∃ p num, (s.proc k).pc = .pass p num)
    (hstuck : step N s k = none) :
    k + 1 < s.procs ∧ s.queue k ≠ [] ∧ ¬(s.proc (k + 1)).pc.isDone := by
  have hp := h.each k hk
  have hroles : (s.proc k).pc.after ∧ (s.proc k).pc.ownWrite := by
    rcases hpc with ⟨i, hpc⟩ | ⟨p, num, hpc⟩
    · rw [hpc]
      exact ⟨trivial, trivial⟩
    · rw [hpc]
      exact ⟨trivial, trivial⟩
  have hnext := hp.after hroles.1
  have hsome : emits N (s.proc k).pc (unread N s k) ≠ [] := by
    rcases hpc with ⟨i, hpc⟩ | ⟨p, num, hpc⟩
    · by_cases hi : i ≤ N
      · rw [hpc, emits_feed N i hi]
        exact List.cons_ne_nil _ _
      · unfold step at hstuck
        dsimp only at hstuck
        rw [hpc] at hstuck
        dsimp only at hstuck
        rw [if_neg hi] at hstuck
        cases hstuck
    · rw [hpc]
      exact List.cons_ne_nil _ _
  refine ⟨hnext, ?_, (h.reader hnext hsome).2⟩
  rcases write_spec h hnext hroles.2 hsome with ⟨-, hfull⟩ | ⟨hw, -⟩
  · intro hnil
    rw [hnil] at hfull
    exact absurd hfull (by decide)
  · unfold step at hstuck
    dsimp only at hstuck
    rcases hpc with ⟨i, hpc⟩ | ⟨p, num, hpc⟩
    · rw [hpc] at hstuck
      dsimp only at hstuck
      split at hstuck
      · rw [hw] at hstuck
        cases hstuck
      · cases hstuck
    · rw [hpc, hw] at hstuck
      cases hstuck

/-- `wait` sleeps only for the one child. -/
theorem sleeps_waiting (h : Good N s) (hk : k < s.procs)
    (hpc : (s.proc k).pc = .waitFirst ∨ (s.proc k).pc = .waitNext) (hstuck : step N s k = none) :
    k + 1 < s.procs ∧ (s.proc (k + 1)).pc ≠ .exited := by
  have hafter : (s.proc k).pc.after := by
    rcases hpc with hpc | hpc
    · rw [hpc]
      trivial
    · rw [hpc]
      trivial
  have hnext := (h.each k hk).after hafter
  have hwaits : waits s k = true := by
    by_contra hno
    unfold step at hstuck
    dsimp only at hstuck
    rcases hpc with hpc | hpc
    · rw [hpc] at hstuck
      dsimp only at hstuck
      rw [if_neg hno] at hstuck
      cases hstuck
    · rw [hpc] at hstuck
      dsimp only at hstuck
      rw [if_neg hno] at hstuck
      cases hstuck
  refine ⟨hnext, ?_⟩
  have hparent := (h.each (k + 1) hnext).parent
  rw [if_neg (by omega)] at hparent
  have hmem : k + 1 ∈ (List.range s.procs).filter
      (fun j => decide ((s.proc j).parent = some k)) := by
    refine List.mem_filter.mpr ⟨List.mem_range.mpr hnext, decide_eq_true ?_⟩
    rw [hparent]
    rfl
  unfold waits at hwaits
  dsimp only at hwaits
  have hall := (Bool.and_eq_true_iff.mp hwaits).2
  exact of_decide_eq_true (List.all_eq_true.mp hall (k + 1) hmem)

/-- Where a process can sleep. -/
theorem stuck_cases (h : Good N s) (hk : k < s.procs) (hstuck : step N s k = none) :
    ((s.proc k).pc = .first ∨ ∃ p, (s.proc k).pc = .loop p) ∨
    ((∃ i, (s.proc k).pc = .feed i) ∨ ∃ p num, (s.proc k).pc = .pass p num) ∨
    ((s.proc k).pc = .waitFirst ∨ (s.proc k).pc = .waitNext) ∨ (s.proc k).pc = .exited := by
  have hkind := (h.each k hk).kind
  have hstep := hstuck
  unfold step at hstep
  dsimp only at hstep
  cases hpc : (s.proc k).pc with
  | unused | lost =>
    rw [hpc] at hkind
    split at hkind
    · exact hkind.elim
    · exact hkind.elim
  | first => exact Or.inl (Or.inl rfl)
  | loop p => exact Or.inl (Or.inr ⟨p, rfl⟩)
  | feed i => exact Or.inr (Or.inl (Or.inl ⟨i, rfl⟩))
  | pass p num => exact Or.inr (Or.inl (Or.inr ⟨p, num, rfl⟩))
  | waitFirst => exact Or.inr (Or.inr (Or.inl (Or.inl rfl)))
  | waitNext => exact Or.inr (Or.inr (Or.inl (Or.inr rfl)))
  | exited => exact Or.inr (Or.inr (Or.inr rfl))
  | start | forkFirst | closeFirst | closeFeed | childClose | closeIn | print | mkPipe | forkNext
    | closeNext | closeOut | closeLast | exiting =>
    rw [hpc] at hstep
    cases hstep

/-- In a state without a step no write sleeps: the sleeping reader would be further down. -/
theorem no_writer (h : Good N s) (hstuck : ∀ k, step N s k = none) (d : Nat) :
    ∀ k, k + d = s.procs → ¬((∃ i, (s.proc k).pc = .feed i) ∨
      ∃ p num, (s.proc k).pc = .pass p num) := by
  induction d with
  | zero =>
    intro k hk hpc
    have hunused := h.rest k (by omega)
    rcases hpc with ⟨i, hpc⟩ | ⟨p, num, hpc⟩
    · rw [hunused] at hpc
      cases hpc
    · rw [hunused] at hpc
      cases hpc
  | succ d ih =>
    intro k hk hpc
    obtain ⟨hnext, hqueue, hbusy⟩ := sleeps_writing h (by omega) hpc (hstuck k)
    rcases stuck_cases h hnext (hstuck (k + 1)) with hread | hwrite | hwait | hexit
    · obtain ⟨i, hi, hnil, -⟩ := sleeps_reading h hnext hread (hstuck (k + 1))
      have hik : i = k := by omega
      rw [hik] at hnil
      exact hqueue hnil
    · exact ih (k + 1) (by omega) hwrite
    · rcases hwait with hwait | hwait
      · have hmain := (h.each (k + 1) hnext).main hwait id
        omega
      · rw [hwait] at hbusy
        exact hbusy trivial
    · rw [hexit] at hbusy
      exact hbusy trivial

/-- Nor does a read: its feeder would not sleep, or sleep in a read itself. -/
theorem no_reader (h : Good N s) (hstuck : ∀ k, step N s k = none) (k : Nat) (hk : k < s.procs) :
    ¬((s.proc k).pc = .first ∨ ∃ p, (s.proc k).pc = .loop p) := by
  induction k with
  | zero =>
    intro hpc
    obtain ⟨i, hi, -, -⟩ := sleeps_reading h hk hpc (hstuck 0)
    omega
  | succ k ih =>
    intro hpc
    obtain ⟨i, hi, -, hwrite⟩ := sleeps_reading h hk hpc (hstuck (k + 1))
    have hik : i = k := by omega
    rw [hik] at hwrite
    rcases stuck_cases h (by omega) (hstuck k) with hread | hwriting | hwait | hexit
    · exact ih (by omega) hread
    · exact no_writer h hstuck (s.procs - k) k (by omega) hwriting
    · rcases hwait with hwait | hwait
      · rw [hwait] at hwrite
        exact hwrite
      · rw [hwait] at hwrite
        exact hwrite
    · rw [hexit] at hwrite
      exact hwrite

/-- Without a step, every process has exited. -/
theorem all_exited (h : Good N s) (hstuck : ∀ k, step N s k = none) (d : Nat) :
    ∀ k, k + d + 1 = s.procs → (s.proc k).pc = .exited := by
  have hwaiting : ∀ k, k < s.procs → (s.proc k).pc ≠ .exited →
      k + 1 < s.procs ∧ (s.proc (k + 1)).pc ≠ .exited := by
    intro k hk hne
    rcases stuck_cases h hk (hstuck k) with hread | hwrite | hwait | hexit
    · exact absurd hread (no_reader h hstuck k hk)
    · exact absurd hwrite (no_writer h hstuck (s.procs - k) k (by omega))
    · exact sleeps_waiting h hk hwait (hstuck k)
    · exact absurd hexit hne
  induction d with
  | zero =>
    intro k hk
    by_contra hne
    have hnext := (hwaiting k (by omega) hne).1
    omega
  | succ d ih =>
    intro k hk
    by_contra hne
    exact (hwaiting k (by omega) hne).2 (ih (k + 1) (by omega))

end Quiescent

section Results

variable {N : Nat} {s : State}

/-- What main's stages are to print. -/
def primesOutput (N : Nat) : List Output := (primesUpTo N).map Output.prime

theorem Good.output (h : Good N s) :
    ∃ k, k + 1 = s.procs ∧ s.out ++ (future N (s.proc k).pc (unread N s k)).map Output.prime =
      primesOutput N := by
  refine ⟨s.procs - 1, ?_, ?_⟩
  · have hpos := h.pos
    omega
  · have hpos := h.pos
    have hdata := (h.last (s.procs - 1) (by omega)).data
    rw [sieve_primes] at hdata
    exact hdata

/-- The process at the end of the chain is the one behind the last prime printed. -/
theorem Good.chain (h : Good N s) (k : Nat) (hk : k < s.procs) :
    (s.proc k).fds.length ≤ (primesUpTo N).length + 2 := by
  have hpos := h.pos
  have hend := h.last (s.procs - 1) (by omega)
  have hprinted := hend.printed
  obtain ⟨l, -, hout⟩ := h.output
  have hlen : s.out.length ≤ (primesUpTo N).length := by
    have heq := congrArg List.length hout
    unfold primesOutput at heq
    rw [List.length_append, List.length_map, List.length_map] at heq
    omega
  have hp := h.each k hk
  have hroom := hp.room
  have hbound : Primes.room k (s.proc k).pc ≤ k + 1 ∨ (s.proc k).pc = .forkFirst ∨
      (s.proc k).pc = .closeFirst ∨ (∃ p, (s.proc k).pc = .forkNext p) ∨
      (∃ p, (s.proc k).pc = .closeNext p) := by
    cases hpc : (s.proc k).pc
    case forkFirst => exact Or.inr (Or.inl rfl)
    case closeFirst => exact Or.inr (Or.inr (Or.inl rfl))
    case forkNext p => exact Or.inr (Or.inr (Or.inr (Or.inl ⟨p, rfl⟩)))
    case closeNext p => exact Or.inr (Or.inr (Or.inr (Or.inr ⟨p, rfl⟩)))
    case start | exited => exact Or.inl (Nat.zero_le _)
    case childClose | feed | closeFeed | loop | pass | closeOut => exact Or.inl (Nat.le_refl _)
    all_goals exact Or.inl (Nat.le_succ k)
  have hlast : s.procs - 1 ≤ s.out.length + 1 := by
    refine hprinted.trans (Nat.add_le_add_left ?_ _)
    split
    · exact Nat.le_refl 1
    · exact Nat.zero_le 1
  rcases hbound with hle | hpc | hpc | ⟨p, hpc⟩ | ⟨p, hpc⟩
  · omega
  · have hk0 := hp.main hpc id
    rw [hpc] at hroom
    change _ ≤ k + 2 at hroom
    omega
  · have hk0 := hp.main hpc id
    rw [hpc] at hroom
    change _ ≤ k + 2 at hroom
    omega
  · have hkn := hp.before (by rw [hpc]; trivial)
    have hkn' : s.procs - 1 = k := by omega
    rw [hkn', hpc] at hprinted
    rw [hpc] at hroom
    change k ≤ s.out.length at hprinted
    change _ ≤ k + 2 at hroom
    omega
  · have hkn := hp.after (by rw [hpc]; trivial)
    rw [hpc] at hroom
    change _ ≤ k + 2 at hroom
    omega

/-- The stage has made its first read, or is about to. -/
def Pc.reads : Pc → Prop
  | .first | .print _ | .mkPipe _ | .forkNext _ | .closeNext _ | .loop _ | .pass _ _ | .closeOut
  | .waitNext | .closeLast | .exiting | .exited => True
  | _ => False

theorem effort_run (N : Nat) (sched : List Nat) (s t : State) (h : Good N s)
    (hrun : run (step N) s sched = some t) : effort N t + sched.length ≤ effort N s := by
  induction sched generalizing s with
  | nil =>
    cases hrun
    exact Nat.le_refl _
  | cons k sched ih =>
    obtain ⟨u, hstep, hrest⟩ := (run_cons (step N) s t k sched).mp hrun
    have hadv := good_step h hstep
    have hle := ih u hadv.good hrest
    have hless := hadv.less
    rw [List.length_cons]
    omega

/-- Whatever the order of the steps: what has been printed is always a beginning of the primes up
to `N`; a state that no process can leave has them all, and every process has exited; and it is
reached after a bounded number of steps. Once a stage reads, only its feeder has the write end of
its input, and no process of main's has more descriptors than there are. -/
theorem primes_sieve (N : Nat) :
    (∀ sched s, run (step N) boot sched = some s →
      s.out <+: primesOutput N ∧
      ((∀ k, step N s k = none) →
        s.out = primesOutput N ∧ ∀ k < s.procs, (s.proc k).pc = .exited) ∧
      (∀ k < s.procs, 0 < k → (s.proc k).pc.reads → ∀ j < s.procs,
        ((s.proc k).pi, End.writing) ∈ (s.proc j).fds → (s.proc k).parent = some j) ∧
      (N = 35 → ∀ k < s.procs, (s.proc k).fds.length + 3 ≤ NOFILE)) ∧
    ∃ bound, ∀ sched s, run (step N) boot sched = some s → sched.length ≤ bound := by
  refine ⟨?_, effort N boot, ?_⟩
  · intro sched s hrun
    have h := good_run N sched s hrun
    obtain ⟨l, hl, hout⟩ := h.output
    refine ⟨⟨_, hout⟩, ?_, ?_, ?_⟩
    · intro hstuck
      have hexited : ∀ k < s.procs, (s.proc k).pc = .exited := by
        intro k hk
        exact all_exited h hstuck (s.procs - 1 - k) k (by omega)
      refine ⟨?_, hexited⟩
      rw [hexited l (by omega)] at hout
      rw [← hout]
      exact (List.append_nil _).symm
    · intro k hk hpos hreads j hj hopen
      have hp := h.each k hk
      have hpi := hp.pi hpos
      have hparent := hp.parent
      rw [if_neg (by omega)] at hparent
      rw [hparent]
      rcases (h.each j hj).may _ hopen with ⟨hjk, hchild⟩ | ⟨hjk, -⟩
      · have hjk' : j = k := by omega
        rw [hjk'] at hchild
        rw [hchild] at hreads
        exact hreads.elim
      · have hjk' : k - 1 = j := by omega
        rw [hjk']
    · rintro rfl k hk
      have hlen := h.chain k hk
      have hcount : (primesUpTo 35).length = 11 := by
        rw [primesUpTo_trial]
        decide
      rw [hcount] at hlen
      change _ ≤ 16
      omega
  · intro sched s hrun
    have hle := effort_run N sched boot s (good_boot N) hrun
    omega

end Results

end Xv6Labs.Primes
