import Xv6Labs.WaitTable
import Xv6Labs.LockTable

/-! Which thread is on which CPU and has which locks, and that every step of the kernel is a step
of the machine on the process table, or leaves the table alone. -/
namespace Xv6Labs.Wait

variable {N M : Nat}

/-- Where swtch may go on: each of these releases the process's own lock. -/
def PC.resumes : PC N → Bool
  | .dead | .sleepTidy _ | .release _ _ => true
  | _ => false

/-- A thread that is not switched away, with the frames that the code makes. -/
def PC.Runs (p : Fin N) : PC N → Prop
  | .sleep ch lk k => (∃ addr, ch = .proc p ∧ lk = true ∧ k = .wait addr) ∨
      ∃ n, ch = .other n ∧ lk = false ∧ k = .user
  | .sleepMark ch k => (∃ addr, ch = .proc p ∧ k = .wait addr) ∨ ∃ n, ch = .other n ∧ k = .user
  | .sleepTidy k => k = .user ∨ ∃ addr, k = .wait addr
  | .yield k => k.locks p = [] ∧ k.Runs p
  | .sched k => k.locks p = [.proc p] ∧ k.resumes = true ∧ k.Runs p
  | .parked _ => False
  | .wakeup _ _ k => k.Runs p
  | .release l k => l ∉ k.locks p ∧ k.Runs p
  | _ => True

theorem PC.Runs.waits {p : Fin N} {k : PC N} (h : k.Runs p) (hw : k.task.waits = true) :
    Lk.wait ∈ k.locks p := by
  induction k with
  | reparent | exitLock | waitScan | waitLock | waitReturn => simp [PC.locks]
  | sleep ch lk k ih =>
    rcases h with ⟨addr, rfl, rfl, rfl⟩ | ⟨n, rfl, rfl, rfl⟩
    · simp [PC.locks]
    · cases hw
  | sleepMark ch k ih =>
    rcases h with ⟨addr, rfl, rfl⟩ | ⟨n, rfl, rfl⟩ <;> cases hw
  | sleepTidy k ih => rcases h with rfl | ⟨addr, rfl⟩ <;> cases hw
  | yield k ih =>
    have := ih h.2 hw
    rw [h.1] at this
    cases this
  | sched k ih =>
    have := ih h.2.2 hw
    rw [h.1] at this
    simp at this
  | parked k ih => cases h
  | wakeup ch i k ih =>
    apply ih h
    simp only [PC.task] at hw
    split_ifs at hw with hl
    · cases hk : k.task <;> simp_all [Task.leaving, Task.waits]
    · exact hw
  | release l k ih => exact List.mem_cons_of_mem _ (ih h.2 hw)
  | _ => cases hw

theorem PC.task_wakeup_eq {ch : Option (Chan N)} {i : Nat} {k : PC N} {a : Task N}
    (h : (PC.wakeup ch i k).task = a) (ha : a.waits = false) : k.task = a := by
  simp only [PC.task] at h
  split_ifs at h with hl
  · subst h
    cases ha
  · exact h

theorem PC.Runs.doze {p : Fin N} {k : PC N} (h : k.Runs p) (hd : k.task = .doze) :
    Lk.proc p ∈ k.locks p := by
  induction k with
  | sleepMark ch k ih | sched k ih => simp [PC.locks]
  | sleep ch lk k ih =>
    rcases h with ⟨addr, rfl, rfl, rfl⟩ | ⟨n, rfl, rfl, rfl⟩ <;> cases hd
  | sleepTidy k ih => rcases h with rfl | ⟨addr, rfl⟩ <;> cases hd
  | yield k ih =>
    have := ih h.2 hd
    rw [h.1] at this
    cases this
  | parked k ih => cases h
  | wakeup ch i k ih => exact ih h (PC.task_wakeup_eq hd rfl)
  | release l k ih => exact List.mem_cons_of_mem _ (ih h.2 hd)
  | waitReturn r => cases r <;> cases hd
  | _ => cases hd

theorem PC.Runs.dead {p : Fin N} {k : PC N} (h : k.Runs p) (hd : k.task = .dead) :
    k.locks p ≠ [] := by
  induction k with
  | dead | sched k ih | release l k ih => simp [PC.locks]
  | sleepMark ch k ih => simp [PC.locks]
  | sleep ch lk k ih =>
    rcases h with ⟨addr, rfl, rfl, rfl⟩ | ⟨n, rfl, rfl, rfl⟩ <;> cases hd
  | sleepTidy k ih => rcases h with rfl | ⟨addr, rfl⟩ <;> cases hd
  | yield k ih => exact absurd h.1 (ih h.2 hd)
  | parked k ih => cases h
  | wakeup ch i k ih => exact ih h (PC.task_wakeup_eq hd rfl)
  | waitReturn r => cases r <;> cases hd
  | _ => cases hd

/-- A context of a thread that is switched away. -/
def PC.Context (p : Fin N) (k : PC N) : Prop :=
  k.locks p = [.proc p] ∧ k.resumes = true ∧ k.Runs p

theorem PC.Context.task {p : Fin N} {k : PC N} (h : k.Context p) :
    k.task.waits = false ∧ k.task ≠ .doze := by
  obtain ⟨hl, hr, hruns⟩ := h
  refine ⟨?_, ?_⟩
  · by_contra hw
    have := hruns.waits (by simpa using hw)
    rw [hl] at this
    simp at this
  · intro hd
    cases k with
    | release l k =>
      have := PC.Runs.doze hruns.2 hd
      simp only [PC.locks, List.cons.injEq] at hl
      rw [hl.2] at this
      cases this
    | sleepTidy k => rcases hruns with rfl | ⟨addr, rfl⟩ <;> cases hd
    | dead => cases hd
    | _ => cases hr

/-- The locks of a CPU. -/
def State.held (s : State N M) (c : Fin M) : List (Lk N) :=
  match s.cpu c with
  | .running p => (s.pc p).locks p
  | .release i | .wakeupRelease _ i _ => [.proc i]
  | .scan _ | .wakeup _ _ _ => []

/-- The state of a process that is on a CPU. -/
def State.Busy (s : State N M) (p : Fin N) : Prop :=
  (s.procs p).state = .running ∨
    (((s.procs p).state = .sleeping ∨ (s.procs p).state = .runnable) ∧ ∃ k, s.pc p = .sched k) ∨
    ((s.procs p).state = .zombie ∧
      (s.pc p = .sched .dead ∨ s.pc p = .release .wait (.sched .dead)))

structure Threads (s : State N M) : Prop where
  one : ∀ c d p, s.cpu c = .running p → s.cpu d = .running p → c = d
  on : ∀ c p, s.cpu c = .running p → (s.pc p).Runs p ∧ s.Busy p
  off : ∀ p, (∀ c, s.cpu c ≠ .running p) → ∃ k, s.pc p = .parked k ∧ k.Context p
  agree : Agree s.lock s.held

section Threads

variable {s t : State N M} {c : Fin M} {p : Fin N}

/-- While nobody has `wait_lock`, no task needs it. -/
theorem Threads.waitFree (h : Threads s) (hl : s.lock .wait = none) : s.table.WaitFree := by
  intro q
  by_cases hq : ∃ d, s.cpu d = .running q
  · obtain ⟨d, hd⟩ := hq
    by_contra hw
    have hmem : Lk.wait ∈ s.held d := by
      simp only [State.held, hd]
      exact (h.on d q hd).1.waits (Bool.eq_true_of_not_eq_false hw)
    rw [(h.agree .wait d).mpr hmem] at hl
    cases hl
  · obtain ⟨k, hk, hctx⟩ := h.off q (by simpa using hq)
    change (s.pc q).task.waits = false
    rw [hk]
    exact hctx.task.1

theorem Threads.not_doze (h : Threads s) (i : Fin N) (hl : s.lock (.proc i) = none) :
    s.table.task i ≠ .doze := by
  change (s.pc i).task ≠ .doze
  by_cases hq : ∃ d, s.cpu d = .running i
  · obtain ⟨d, hd⟩ := hq
    intro hw
    have hmem : Lk.proc i ∈ s.held d := by
      simp only [State.held, hd]
      exact (h.on d i hd).1.doze hw
    rw [(h.agree (.proc i) d).mpr hmem] at hl
    cases hl
  · obtain ⟨k, hk, hctx⟩ := h.off i (by simpa using hq)
    rw [hk]
    exact hctx.task.2

/-- A process on a CPU whose lock is free is running. -/
theorem Threads.running_of_free (h : Threads s) (hc : s.cpu c = .running p)
    (hl : s.lock (.proc p) = none) : (s.procs p).state = .running := by
  have hno : Lk.proc p ∉ (s.pc p).locks p := by
    intro hmem
    have hheld : Lk.proc p ∈ s.held c := by
      simp only [State.held, hc]
      exact hmem
    rw [(h.agree (.proc p) c).mpr hheld] at hl
    cases hl
  rcases (h.on c p hc).2 with hs | ⟨-, k, hk⟩ | ⟨-, hk | hk⟩
  · exact hs
  all_goals
    rw [hk] at hno
    simp [PC.locks] at hno

theorem Threads.live (h : Threads s) (hc : s.cpu c = .running p) :
    (s.procs p).state ≠ .unused ∧ (s.procs p).state ≠ .used := by
  rcases (h.on c p hc).2 with hs | ⟨hs | hs, -⟩ | ⟨hs, -⟩ <;> rw [hs] <;> simp

end Threads

theorem kill_state (q : Proc N) (hq : q.state = .running) : q.kill.state = .running := by
  unfold Proc.kill
  rw [hq]
  rfl

theorem update_state (procs : Fin N → Proc N) (i : Fin N) (q : Proc N)
    (hq : q.state = (procs i).state) (r : Fin N) :
    (Function.update procs i q r).state = (procs r).state := by
  by_cases hr : r = i
  · rw [hr, Function.update_self, hq]
  · rw [Function.update_of_ne hr]

section Steps

variable {s t : State N M} {c : Fin M} {p : Fin N}

/-- What a step of `p` leaves as it was of the other threads. -/
structure Others (s t : State N M) (p : Fin N) : Prop where
  pc : ∀ r, r ≠ p → t.pc r = s.pc r ∨
    ((s.procs r).state = .unused ∧ t.pc r = .parked (forkret r))
  state : ∀ r d, r ≠ p → s.cpu d = .running r → (t.procs r).state = (s.procs r).state

/-- What a step of process `p` on CPU `c` does with the locks. -/
inductive ThreadMove (s : State N M) (c : Fin M) (p : Fin N) (t : State N M) : Prop
  | keep (hcpu : t.cpu = s.cpu) (hlock : t.lock = s.lock)
      (hlocks : (t.pc p).locks p = (s.pc p).locks p) (hruns : (t.pc p).Runs p) (hbusy : t.Busy p)
      (hothers : Others s t p)
  | acquire (l : Lk N) (hcpu : t.cpu = s.cpu) (hfree : s.lock l = none)
      (hlock : t.lock = Function.update s.lock l (some c))
      (hlocks : ∀ j, j ∈ (t.pc p).locks p ↔ j = l ∨ j ∈ (s.pc p).locks p)
      (hruns : (t.pc p).Runs p) (hbusy : t.Busy p) (hothers : Others s t p)
  | release (l : Lk N) (hcpu : t.cpu = s.cpu) (hlock : t.lock = Function.update s.lock l none)
      (hlocks : ∀ j, j ∈ (s.pc p).locks p ↔ j = l ∨ j ∈ (t.pc p).locks p)
      (hl : l ∉ (t.pc p).locks p) (hruns : (t.pc p).Runs p) (hbusy : t.Busy p)
      (hothers : Others s t p)
  | leave (k : PC N) (hpc : s.pc p = .sched k)
    (ht : t = (s.onCpu c (.release p)).goto p (.parked k))

theorem Others.cpu_pc (ho : Others s t p) (h : Threads s) (hc : s.cpu c = .running p)
    (d : Fin M) (r : Fin N) (hr : s.cpu d = .running r) (hd : d ≠ c) :
    r ≠ p ∧ t.pc r = s.pc r ∧ (t.procs r).state = (s.procs r).state := by
  have hrp : r ≠ p := by
    rintro rfl
    exact hd (h.one d c r hr hc)
  refine ⟨hrp, ?_, ho.state r d hrp hr⟩
  rcases ho.pc r hrp with heq | ⟨hu, -⟩
  · exact heq
  · exact absurd hu (h.live hr).1

theorem Others.held (ho : Others s t p) (h : Threads s) (hc : s.cpu c = .running p)
    (hcpu : t.cpu = s.cpu) :
    t.held = Function.update s.held c ((t.pc p).locks p) := by
  funext d
  by_cases hd : d = c
  · rw [hd, Function.update_self]
    simp only [State.held, hcpu, hc]
  · rw [Function.update_of_ne hd]
    simp only [State.held, hcpu]
    cases hr : s.cpu d with
    | running r =>
      simp only
      rw [(ho.cpu_pc h hc d r hr hd).2.1]
    | _ => rfl

theorem context_forkret (r : Fin N) : (forkret r).Context r := by
  refine ⟨rfl, rfl, ?_⟩
  simp [forkret, PC.Runs, PC.locks]

theorem Others.threads (ho : Others s t p) (h : Threads s) (hc : s.cpu c = .running p)
    (hcpu : t.cpu = s.cpu) (hruns : (t.pc p).Runs p) (hbusy : t.Busy p)
    (hagree : Agree t.lock t.held) : Threads t where
  one := by
    rw [hcpu]
    exact h.one
  on := by
    intro d r hr
    rw [hcpu] at hr
    by_cases hd : d = c
    · rw [hd, hc] at hr
      cases hr
      exact ⟨hruns, hbusy⟩
    · obtain ⟨-, hpc, hst⟩ := ho.cpu_pc h hc d r hr hd
      obtain ⟨hr1, hr2⟩ := h.on d r hr
      rw [State.Busy] at hr2 ⊢
      rw [hpc, hst]
      exact ⟨hr1, hr2⟩
  off := by
    intro r hr
    rw [hcpu] at hr
    have hrp : r ≠ p := by
      rintro rfl
      exact hr c hc
    rcases ho.pc r hrp with heq | ⟨-, heq⟩
    · rw [heq]
      exact h.off r hr
    · exact ⟨_, heq, context_forkret r⟩
  agree := hagree

theorem ThreadMove.threads (h : Threads s) (hc : s.cpu c = .running p)
    (hm : ThreadMove s c p t) : Threads t := by
  have hheld : s.held c = (s.pc p).locks p := by simp only [State.held, hc]
  cases hm with
  | keep hcpu hlock hlocks hruns hbusy ho =>
    refine ho.threads h hc hcpu hruns hbusy ?_
    rw [hlock, ho.held h hc hcpu]
    exact h.agree.keep c _ (fun j => by rw [hheld, hlocks])
  | acquire l hcpu hfree hlock hlocks hruns hbusy ho =>
    refine ho.threads h hc hcpu hruns hbusy ?_
    rw [hlock, ho.held h hc hcpu]
    exact h.agree.acquire c l _ hfree (fun j => by rw [hheld, hlocks])
  | release l hcpu hlock hlocks hl hruns hbusy ho =>
    refine ho.threads h hc hcpu hruns hbusy ?_
    rw [hlock, ho.held h hc hcpu]
    exact h.agree.release c l _ (fun j => by rw [hheld, hlocks]) hl
  | leave k hpc ht =>
    subst ht
    have hruns := (h.on c p hc).1
    rw [hpc] at hruns
    have hne : ∀ d r, d ≠ c → s.cpu d = .running r → r ≠ p := by
      intro d r hd hr hrp
      exact hd (h.one d c p (hrp ▸ hr) hc)
    refine ⟨?_, ?_, ?_, ?_⟩
    · intro d e r hd he
      simp only [State.goto, State.onCpu, Function.update_apply] at hd he
      split_ifs at hd he
      exact h.one d e r hd he
    · intro d r hr
      simp only [State.goto, State.onCpu, Function.update_apply] at hr
      split_ifs at hr with hd
      have hrp := hne d r hd hr
      have hon := h.on d r hr
      simp only [State.Busy, State.goto, State.onCpu, Function.update_of_ne hrp] at hon ⊢
      exact hon
    · intro r hr
      simp only [State.goto, State.onCpu, Function.update_apply] at hr ⊢
      by_cases hrp : r = p
      · rw [if_pos hrp, hrp]
        exact ⟨k, rfl, hruns⟩
      · rw [if_neg hrp]
        refine h.off r ?_
        intro d hd
        have hdr := hr d
        by_cases hdc : d = c
        · rw [hdc, hc] at hd
          cases hd
          exact hrp rfl
        · rw [if_neg hdc] at hdr
          exact hdr hd
    · have hnew : ((s.onCpu c (.release p)).goto p (.parked k)).held =
          Function.update s.held c [.proc p] := by
        funext d
        by_cases hd : d = c
        · rw [hd, Function.update_self]
          simp only [State.held, State.goto, State.onCpu, Function.update_self]
        · rw [Function.update_of_ne hd]
          simp only [State.held, State.goto, State.onCpu, Function.update_of_ne hd]
          cases hr : s.cpu d with
          | running r => simp only [Function.update_of_ne (hne d r hd hr)]
          | _ => rfl
      rw [hnew]
      exact h.agree.keep c [.proc p] (fun j => by rw [hheld, hpc]; rfl)

theorem others_of (i : Fin N) (hpc : ∀ r, r ≠ p → t.pc r = s.pc r)
    (hprocs : ∀ r, r ≠ i → t.procs r = s.procs r)
    (hi : i = p ∨ (∀ d, s.cpu d ≠ .running i) ∨ (t.procs i).state = (s.procs i).state) :
    Others s t p := by
  refine ⟨fun r hr => Or.inl (hpc r hr), ?_⟩
  intro r d hr hd
  by_cases hri : r = i
  · rw [hri]
    rcases hi with hip | hi | hi
    · exact absurd (hri.trans hip) hr
    · exact absurd (hri ▸ hd) (hi d)
    · exact hi
  · rw [hprocs r hri]

theorem Threads.running_at (h : Threads s) (hc : s.cpu c = .running p)
    (hs : ∀ k, s.pc p ≠ .sched k) (hr : ∀ l k, s.pc p ≠ .release l k) :
    (s.procs p).state = .running := by
  rcases (h.on c p hc).2 with hrun | ⟨-, k, hk⟩ | ⟨-, hk | hk⟩
  · exact hrun
  · exact absurd hk (hs k)
  · exact absurd hk (hs _)
  · exact absurd hk (hr _ _)

section Moves

variable {l : Lk N} {k : PC N} {i : Fin N}

theorem ThreadMove.of_keep (hcpu : t.cpu = s.cpu) (hlock : t.lock = s.lock)
    (hpc : t.pc = Function.update s.pc p k) (hprocs : ∀ r, r ≠ p → t.procs r = s.procs r ∨
      (t.procs r).state = (s.procs r).state)
    (hlocks : k.locks p = (s.pc p).locks p) (hruns : k.Runs p) (hbusy : t.Busy p) :
    ThreadMove s c p t := by
  have hk : t.pc p = k := by rw [hpc, Function.update_self]
  refine .keep hcpu hlock (by rw [hk, hlocks]) (by rw [hk]; exact hruns) hbusy ⟨?_, ?_⟩
  · intro r hr
    rw [hpc, Function.update_of_ne hr]
    exact Or.inl rfl
  · intro r d hr hd
    rcases hprocs r hr with heq | heq
    · rw [heq]
    · exact heq

theorem ThreadMove.of_acquire (i : Fin N) (hcpu : t.cpu = s.cpu) (hfree : s.lock l = none)
    (hlock : t.lock = Function.update s.lock l (some c)) (hpc : t.pc = Function.update s.pc p k)
    (hprocs : ∀ r, r ≠ i → t.procs r = s.procs r)
    (hi : i = p ∨ (∀ d, s.cpu d ≠ .running i) ∨ (t.procs i).state = (s.procs i).state)
    (hlocks : ∀ j, j ∈ k.locks p ↔ j = l ∨ j ∈ (s.pc p).locks p) (hruns : k.Runs p)
    (hbusy : t.Busy p) : ThreadMove s c p t := by
  have hk : t.pc p = k := by rw [hpc, Function.update_self]
  refine .acquire l hcpu hfree hlock (by rw [hk]; exact hlocks) (by rw [hk]; exact hruns) hbusy ?_
  refine others_of i ?_ hprocs hi
  intro r hr
  rw [hpc, Function.update_of_ne hr]

end Moves

/-- The state of a process that somebody else's lock operation leaves on its CPU. -/
theorem Threads.off_of_state (h : Threads s) (i : Fin N)
    (hi : (s.procs i).state = .unused ∨ (s.procs i).state = .used) (d : Fin M) :
    s.cpu d ≠ .running i := by
  intro hd
  rcases hi with hi | hi
  · exact (h.live hd).1 hi
  · exact (h.live hd).2 hi

theorem Threads.off_of_zombie (h : Threads s) (i : Fin N) (hi : (s.procs i).state = .zombie)
    (hl : s.lock (.proc i) = none) (d : Fin M) : s.cpu d ≠ .running i := by
  intro hd
  rw [h.running_of_free hd hl] at hi
  cases hi

theorem Threads.wake_state (h : Threads s) (i : Fin N) (ch : Option (Chan N))
    (hl : s.lock (.proc i) = none) :
    (∀ d, s.cpu d ≠ .running i) ∨ ((s.procs i).wake ch).state = (s.procs i).state := by
  by_cases hd : ∃ d, s.cpu d = .running i
  · obtain ⟨d, hd⟩ := hd
    have hrun := h.running_of_free hd hl
    refine Or.inr ?_
    unfold Proc.wake
    rw [if_neg (by rw [hrun]; simp)]
  · exact Or.inl (by simpa using hd)

theorem alloc_move (h : Threads s) (hrun : (s.procs p).state = .running) (i : Fin N) (fail : Bool)
    (hpc : s.pc p = .forkScan i) (hl : s.lock (.proc i) = none) :
    ThreadMove s c p
      ({ s with lock := Function.update s.lock (.proc i) (some c) }.alloc p i fail) := by
  have hlocks : (s.pc p).locks p = [] := by rw [hpc]; rfl
  unfold State.alloc
  split_ifs with hu hf
  · have hne : p ≠ i := by
      rintro rfl
      change (s.procs p).state = .unused at hu
      rw [hrun] at hu
      cases hu
    refine .of_acquire i rfl hl rfl rfl (fun r hr => Function.update_of_ne hr _ _)
      (Or.inr (Or.inl (h.off_of_state i (Or.inl hu)))) ?_ ?_ (Or.inl ?_)
    · simp [PC.locks, hlocks]
    · simp [PC.Runs, PC.locks]
    · exact (congrArg Proc.state (Function.update_of_ne hne _ _)).trans hrun
  · have hne : p ≠ i := by
      rintro rfl
      change (s.procs p).state = .unused at hu
      rw [hrun] at hu
      cases hu
    refine .acquire (.proc i) rfl hl rfl ?_ ?_ (Or.inl ?_) ⟨?_, ?_⟩
    · simp [State.goto, PC.locks, hlocks]
    · simp [State.goto, PC.locks, PC.Runs]
    · exact (congrArg Proc.state (Function.update_of_ne hne _ _)).trans hrun
    · intro r hr
      simp only [State.goto, Function.update_of_ne hr]
      by_cases hri : r = i
      · rw [hri, Function.update_self]
        exact Or.inr ⟨hu, rfl⟩
      · rw [Function.update_of_ne hri]
        exact Or.inl rfl
    · intro r d hr hd
      have hri : r ≠ i := by
        rintro rfl
        exact h.off_of_state r (Or.inl hu) d hd
      exact congrArg Proc.state (Function.update_of_ne hri _ _)
  · refine .of_acquire p rfl hl rfl rfl (fun _ _ => rfl) (Or.inl rfl) ?_ ?_ (Or.inl hrun)
    · simp [PC.locks, hlocks]
    · simp [PC.Runs, PC.locks]

theorem check_move (h : Threads s) (hrun : (s.procs p).state = .running) (i : Fin N) (addr : Nat)
    (fail : Bool) (hpc : s.pc p = .waitLock addr i) (hl : s.lock (.proc i) = none) :
    ThreadMove s c p
      ({ s with lock := Function.update s.lock (.proc i) (some c) }.check p i addr fail) := by
  have hlocks : (s.pc p).locks p = [.wait] := by rw [hpc]; rfl
  simp only [State.check]
  by_cases hz : (s.procs i).state = .zombie
  · rw [if_pos hz]
    by_cases hf : addr ≠ 0 ∧ fail = true
    · rw [if_pos hf]
      refine .of_acquire p rfl hl rfl rfl (fun _ _ => rfl) (Or.inl rfl) ?_ ?_ (Or.inl hrun)
      · simp [PC.locks, hlocks]
      · simp [PC.Runs, PC.locks]
    · rw [if_neg hf]
      have hne : p ≠ i := by
        rintro rfl
        rw [hrun] at hz
        cases hz
      refine .of_acquire i rfl hl rfl rfl (fun r hr => Function.update_of_ne hr _ _)
        (Or.inr (Or.inl (h.off_of_zombie i hz hl))) ?_ ?_ (Or.inl ?_)
      · simp [PC.locks, hlocks]
      · simp [PC.Runs, PC.locks]
      · exact (congrArg Proc.state (Function.update_of_ne hne _ _)).trans hrun
  · rw [if_neg hz]
    refine .of_acquire p rfl hl rfl rfl (fun _ _ => rfl) (Or.inl rfl) ?_ ?_ (Or.inl hrun)
    · simp [PC.locks, hlocks]
    · simp [PC.Runs, PC.locks]

variable [NeZero N]

theorem call_move (hrun : (s.procs p).state = .running) {a : Choice} (hpc : s.pc p = .user)
    (ht : s.call p a = some t) : ThreadMove s c p t := by
  have hgoto : ∀ k : PC N, k.locks p = [] → k.Runs p → ThreadMove s c p (s.goto p k) := by
    intro k hlocks hruns
    exact .of_keep rfl rfl rfl (fun _ _ => Or.inl rfl) (by rw [hlocks, hpc]; rfl) hruns
      (Or.inl hrun)
  cases a with
  | fork | wait addr | kill pid =>
    cases ht
    exact hgoto _ rfl trivial
  | exit st =>
    simp only [State.call] at ht
    split_ifs at ht
    cases ht
    exact hgoto _ rfl trivial
  | sleep n =>
    cases ht
    exact hgoto _ rfl (Or.inr ⟨n, rfl, rfl, rfl⟩)
  | wakeup n =>
    cases ht
    exact hgoto _ rfl trivial
  | _ => cases ht

/-- Every step of a thread takes or gives at most one lock. -/
theorem thread_move (h : Threads s) (hx : TableInv s.table) (hc : s.cpu c = .running p)
    {a : Choice} (ht : s.thread c p a = some t) : ThreadMove s c p t := by
  have hruns := (h.on c p hc).1
  have hbusy := (h.on c p hc).2
  have hrun := h.running_at hc
  unfold State.thread at ht
  cases hpc : s.pc p with
  | user =>
    rw [hpc] at ht hrun
    exact call_move (hrun nofun nofun) hpc ht
  | forkScan i =>
    rw [hpc] at ht hrun
    simp only at ht
    split_ifs at ht with hi
    · obtain ⟨hl, rfl⟩ := acquire_map ht
      exact alloc_move h (hrun nofun nofun) ⟨i, hi⟩ _ hpc hl
    · cases ht
      exact .of_keep rfl rfl rfl (fun _ _ => Or.inl rfl) (by rw [hpc]; rfl) trivial
        (Or.inl (hrun nofun nofun))
  | forkLink np =>
    rw [hpc] at ht hrun
    obtain ⟨hl, rfl⟩ := acquire_map ht
    -- a USED process is on no CPU, so nobody runs with the entry that is locked here
    have hused := (hx.link p np (by simp only [State.table, hpc]; rfl)).1
    have hrunp := hrun nofun nofun
    refine .of_acquire np rfl hl rfl rfl (fun r hr => Function.update_of_ne hr _ _)
      (Or.inr (Or.inl (h.off_of_state np (Or.inr hused)))) ?_ ?_ (Or.inl ?_)
    · simp [PC.locks, hpc]
    · simp [PC.Runs, PC.locks]
    · have hne : p ≠ np := by
        rintro rfl
        exact ProcState.noConfusion (hrunp.symm.trans hused)
      exact (congrArg Proc.state (Function.update_of_ne hne _ _)).trans hrunp
  | forkStart np =>
    rw [hpc] at ht hrun
    obtain ⟨hl, rfl⟩ := acquire_map ht
    have hused := (hx.start p np (by simp only [State.table, hpc]; rfl)).1
    have hrunp := hrun nofun nofun
    refine .of_acquire np rfl hl rfl rfl (fun r hr => Function.update_of_ne hr _ _)
      (Or.inr (Or.inl (h.off_of_state np (Or.inr hused)))) ?_ ?_ (Or.inl ?_)
    · simp [PC.locks, hpc]
    · simp [PC.Runs, PC.locks]
    · have hne : p ≠ np := by
        rintro rfl
        exact ProcState.noConfusion (hrunp.symm.trans hused)
      exact (congrArg Proc.state (Function.update_of_ne hne _ _)).trans hrunp
  | exit st =>
    rw [hpc] at ht hrun
    obtain ⟨hl, rfl⟩ := acquire_map ht
    exact .of_acquire p rfl hl rfl rfl (fun _ _ => rfl) (Or.inl rfl) (by simp [PC.locks, hpc])
      trivial (Or.inl (hrun nofun nofun))
  | reparent pp st =>
    rw [hpc] at ht hrun
    have hrunp := hrun nofun nofun
    simp only at ht
    split_ifs at ht with hi hparent
    · cases ht
      -- only a parent changes; the states are what the CPUs go by
      have hstate := update_state s.procs ⟨pp, hi⟩ { s.procs ⟨pp, hi⟩ with parent := some 0 } rfl
      exact .of_keep rfl rfl rfl (fun r _ => Or.inr (hstate r)) (by rw [hpc]; rfl) trivial
        (Or.inl ((hstate p).trans hrunp))
    · cases ht
      exact .of_keep rfl rfl rfl (fun _ _ => Or.inl rfl) (by rw [hpc]; rfl) trivial (Or.inl hrunp)
    · cases ht
      exact .of_keep rfl rfl rfl (fun _ _ => Or.inl rfl) (by rw [hpc]; rfl) trivial (Or.inl hrunp)
  | exitLock st =>
    rw [hpc] at ht
    obtain ⟨hl, rfl⟩ := acquire_map ht
    refine .of_acquire p rfl hl rfl rfl (fun r hr => Function.update_of_ne hr _ _) (Or.inl rfl)
      ?_ ?_ (Or.inr (Or.inr ⟨?_, Or.inr ?_⟩))
    · simp [PC.locks, hpc, or_comm]
    · simp [PC.Runs, PC.locks, PC.resumes]
    · -- the process is a ZOMBIE now, but this CPU runs it until sched
      simp only [State.goto, State.note, State.setProc, Function.update_self]
    · exact Function.update_self ..
  | dead =>
    rw [hpc] at ht
    cases ht
  | wait addr =>
    rw [hpc] at ht hrun
    obtain ⟨hl, rfl⟩ := acquire_map ht
    exact .of_acquire p rfl hl rfl rfl (fun _ _ => rfl) (Or.inl rfl) (by simp [PC.locks, hpc])
      trivial (Or.inl (hrun nofun nofun))
  | waitScan addr np kids =>
    rw [hpc] at ht hrun
    have hrunp := hrun nofun nofun
    simp only at ht
    split_ifs at ht with hi hparent hstop
    · cases ht
      exact .of_keep rfl rfl rfl (fun _ _ => Or.inl rfl) (by rw [hpc]; rfl) trivial (Or.inl hrunp)
    · cases ht
      exact .of_keep rfl rfl rfl (fun _ _ => Or.inl rfl) (by rw [hpc]; rfl) trivial (Or.inl hrunp)
    · cases ht
      exact .of_keep rfl rfl rfl (fun _ _ => Or.inl rfl) (by rw [hpc]; rfl) trivial (Or.inl hrunp)
    · cases ht
      exact .of_keep rfl rfl rfl (fun _ _ => Or.inl rfl) (by rw [hpc]; rfl)
        (Or.inl ⟨addr, rfl, rfl, rfl⟩) (Or.inl hrunp)
  | waitLock addr np =>
    rw [hpc] at ht hrun
    obtain ⟨hl, rfl⟩ := acquire_map ht
    exact check_move h (hrun nofun nofun) np addr _ hpc hl
  | waitReturn r =>
    rw [hpc] at ht hrun
    cases ht
    have hk : (((s.release .wait).note (.returned p r.value)).goto p .user).pc p = .user :=
      Function.update_self ..
    refine .release .wait rfl rfl (by rw [hk, hpc]; simp [PC.locks]) (by rw [hk]; simp [PC.locks])
      (by rw [hk]; trivial) (Or.inl (hrun nofun nofun)) ?_
    exact others_of p (fun r hr => Function.update_of_ne hr _ _) (fun _ _ => rfl) (Or.inl rfl)
  | sleep ch lk k =>
    rw [hpc] at ht hrun hruns
    obtain ⟨hl, rfl⟩ := acquire_map ht
    refine .of_acquire p rfl hl rfl rfl (fun _ _ => rfl) (Or.inl rfl) ?_ ?_
      (Or.inl (hrun nofun nofun))
    · intro j
      rw [hpc]
      cases lk <;> simp [PC.locks, or_comm]
    · rcases hruns with ⟨addr, rfl, rfl, rfl⟩ | ⟨n, rfl, rfl, rfl⟩ <;> simp [PC.Runs, PC.locks]
  | sleepMark ch k =>
    rw [hpc] at ht hruns
    cases ht
    refine .of_keep rfl rfl rfl (fun r hr => Or.inl (Function.update_of_ne hr _ _))
      (by rw [hpc]; rfl) ?_ (Or.inr (Or.inl ⟨Or.inl ?_, .sleepTidy k, ?_⟩))
    · refine ⟨rfl, rfl, ?_⟩
      rcases hruns with ⟨addr, -, rfl⟩ | ⟨n, -, rfl⟩
      · exact Or.inr ⟨addr, rfl⟩
      · exact Or.inl rfl
    · simp only [State.goto, State.setProc, Function.update_self]
    · exact Function.update_self ..
  | sleepTidy k =>
    rw [hpc] at ht hrun hruns
    cases ht
    -- what sleep returns to holds no lock
    have hk : k.locks p = [] ∧ k.Runs p := by
      rcases hruns with rfl | ⟨addr, rfl⟩ <;> exact ⟨rfl, trivial⟩
    refine .of_keep rfl rfl rfl (fun r hr => Or.inl (Function.update_of_ne hr _ _)) ?_ ?_
      (Or.inl ?_)
    · rw [hpc]
      simp [PC.locks, hk.1]
    · refine ⟨?_, hk.2⟩
      rw [hk.1]
      simp
    · simp only [State.goto, State.setProc, Function.update_self]
      exact hrun nofun nofun
  | yield k =>
    rw [hpc] at ht hruns
    obtain ⟨hl, rfl⟩ := acquire_map ht
    refine .of_acquire p rfl hl rfl rfl (fun r hr => Function.update_of_ne hr _ _) (Or.inl rfl)
      ?_ ?_ (Or.inr (Or.inl ⟨Or.inr ?_, .release (.proc p) k, ?_⟩))
    · simp [PC.locks, hpc]
    · refine ⟨?_, rfl, ?_, hruns.2⟩
      · simp [PC.locks, hruns.1]
      · rw [hruns.1]
        simp
    · simp only [State.goto, State.setProc, Function.update_self]
    · exact Function.update_self ..
  | sched k =>
    rw [hpc] at ht
    cases ht
    exact .leave k hpc rfl
  | parked k =>
    rw [hpc] at ht
    cases ht
  | wakeup ch i k =>
    rw [hpc] at ht hrun hruns
    have hrunp := hrun nofun nofun
    simp only at ht
    split_ifs at ht with hi hip
    · cases ht
      exact .of_keep rfl rfl rfl (fun _ _ => Or.inl rfl) (by rw [hpc]; rfl) hruns (Or.inl hrunp)
    · obtain ⟨hl, rfl⟩ := acquire_map ht
      -- the lock is not one that this process holds, since it is free
      have hnot : Lk.proc ⟨i, hi⟩ ∉ k.locks p := by
        intro hmem
        have := (h.agree (.proc ⟨i, hi⟩) c).mpr (by simp only [State.held, hc, hpc]; exact hmem)
        rw [this] at hl
        cases hl
      have hne : p ≠ ⟨i, hi⟩ := fun heq => hip (congrArg Fin.val heq).symm
      refine .of_acquire ⟨i, hi⟩ rfl hl rfl rfl (fun r hr => Function.update_of_ne hr _ _) ?_ ?_
        ⟨hnot, hruns⟩ (Or.inl ?_)
      · refine Or.inr ((h.wake_state ⟨i, hi⟩ ch hl).imp id ?_)
        intro hs
        simp only [State.goto, State.setProc, Function.update_self]
        exact hs
      · simp [PC.locks, hpc]
      · exact (congrArg Proc.state (Function.update_of_ne hne _ _)).trans hrunp
    · cases ht
      exact .of_keep rfl rfl rfl (fun _ _ => Or.inl rfl) (by rw [hpc]; rfl) hruns (Or.inl hrunp)
  | kill pid i =>
    rw [hpc] at ht hrun
    have hrunp := hrun nofun nofun
    simp only at ht
    split_ifs at ht with hi
    · obtain ⟨hl, rfl⟩ := acquire_map ht
      -- kill changes the state only of a process that sleeps, and none that runs does
      have hstate : ∀ d r, s.cpu d = .running r →
          ((Function.update s.procs ⟨i, hi⟩ (s.procs ⟨i, hi⟩).kill) r).state =
            (s.procs r).state := by
        intro d r hd
        by_cases hr : r = ⟨i, hi⟩
        · rw [hr, Function.update_self, h.running_of_free (hr ▸ hd) hl]
          exact kill_state _ (h.running_of_free (hr ▸ hd) hl)
        · rw [Function.update_of_ne hr]
      split_ifs with hpid
      · refine .of_acquire ⟨i, hi⟩ rfl hl rfl rfl
          (fun r hr => Function.update_of_ne hr _ _) ?_ ?_ ?_
          (Or.inl ((hstate c p hc).trans hrunp))
        · by_cases hd : ∃ d, s.cpu d = .running ⟨i, hi⟩
          · obtain ⟨d, hd⟩ := hd
            exact Or.inr (Or.inr (hstate d _ hd))
          · exact Or.inr (Or.inl (by simpa using hd))
        · simp [PC.locks, hpc]
        · simp [PC.Runs, PC.locks]
      · refine .of_acquire p rfl hl rfl rfl (fun _ _ => rfl) (Or.inl rfl) ?_ ?_ (Or.inl hrunp)
        · simp [PC.locks, hpc]
        · simp [PC.Runs, PC.locks]
    · cases ht
      exact .of_keep rfl rfl rfl (fun _ _ => Or.inl rfl) (by rw [hpc]; rfl) trivial (Or.inl hrunp)
  | release l k =>
    rw [hpc] at ht hruns
    cases ht
    have hk : ((s.release l).goto p k).pc p = k := Function.update_self ..
    refine .release l rfl rfl ?_ ?_ ?_ ?_ ?_
    · rw [hk, hpc]
      simp [PC.locks]
    · rw [hk]
      exact hruns.1
    · rw [hk]
      exact hruns.2
    · rcases hbusy with hs | ⟨-, j, hj⟩ | ⟨hs, hj | hj⟩
      · exact Or.inl hs
      · rw [hpc] at hj
        cases hj
      · rw [hpc] at hj
        cases hj
      · rw [hpc] at hj
        cases hj
        exact Or.inr (Or.inr ⟨hs, Or.inl hk⟩)
    · exact others_of p (fun r hr => Function.update_of_ne hr _ _) (fun _ _ => rfl) (Or.inl rfl)

end Steps

end Xv6Labs.Wait
