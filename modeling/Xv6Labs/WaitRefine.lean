import Xv6Labs.WaitThreads

/-! Every step of the kernel is a step of the machine on the process table, or leaves the table
alone. -/
namespace Xv6Labs.Wait

variable {N M : Nat} {s t : State N M} {c : Fin M} {p : Fin N}

theorem table_goto (s : State N M) (p : Fin N) (k : PC N) :
    (s.goto p k).table = s.table.at p k.task := by
  simp only [State.table, State.goto, Table.at, Table.mk.injEq, true_and, and_true]
  funext r
  by_cases hr : r = p
  · rw [hr, Function.update_self, Function.update_self]
  · rw [Function.update_of_ne hr, Function.update_of_ne hr]

theorem table_at_same (x : Table N) (k : Task N) (hk : k = x.task p) : x.at p k = x := by
  rw [hk, Table.at, Function.update_eq_self]

theorem table_goto_same (s : State N M) (k : PC N) (hk : k.task = (s.pc p).task) :
    (s.goto p k).table = s.table := by
  rw [table_goto]
  exact table_at_same _ _ hk

/-- The tasks of a wakeup in exit are those of the machine; other wakeups leave the task alone. -/
theorem task_wakeup (ch : Option (Chan N)) (i : Nat) (k : PC N) :
    (k.task.leaving = true ∧ (PC.wakeup ch i k).task = .waking ch i k.task) ∨
      (k.task.leaving = false ∧ ∀ i, (PC.wakeup ch i k).task = k.task) := by
  by_cases hl : k.task.leaving = true
  · refine Or.inl ⟨hl, ?_⟩
    simp only [PC.task, hl, if_true]
  · refine Or.inr ⟨by simpa using hl, ?_⟩
    intro i
    simp only [PC.task, hl]
    rfl

/-- The table is left alone, or changed by an act of `p`. -/
def Acts [NeZero N] (s : State N M) (p : Fin N) (t : State N M) : Prop :=
  t.table = s.table ∨ Act s.table p t.table

variable [NeZero N]

theorem act_goto {x : Table N} (u : State N M) (k : PC N) (hk : k.task = (u.pc p).task)
    (h : Act x p u.table) : Act x p (u.goto p k).table := by
  rw [table_goto_same u k hk]
  exact h

theorem alloc_act (s : State N M) (i : Fin N) (fail : Bool) (hpc : s.pc p = .forkScan i) :
    Acts s p (s.alloc p i fail) := by
  have hidle : s.table.task p = .idle := by simp only [State.table, hpc]; rfl
  unfold State.alloc
  split_ifs with hu hf
  · exact Or.inr (act_goto _ _ hidle.symm (Act.drop i hidle hu))
  · refine Or.inr ?_
    rw [table_goto, table_goto]
    exact Act.alloc i hidle hu
  · exact Or.inl (table_goto_same s _ (by rw [hpc]; rfl))

theorem check_act (s : State N M) (i : Fin N) (addr : Nat) (fail : Bool)
    (hpc : s.pc p = .waitLock addr i) : Acts s p (s.check p i addr fail) := by
  have hcheck : s.table.task p = .check i := by simp only [State.table, hpc]; rfl
  simp only [State.check]
  by_cases hz : (s.procs i).state = .zombie
  · rw [if_pos hz]
    by_cases hf : addr ≠ 0 ∧ fail = true
    · rw [if_pos hf]
      refine Or.inr ?_
      rw [table_goto]
      exact Act.bad i hcheck
    · rw [if_neg hf]
      refine Or.inr ?_
      rw [table_goto]
      exact Act.reap i addr hcheck hz
  · rw [if_neg hz]
    refine Or.inr ?_
    rw [table_goto]
    exact Act.alive i hcheck hz

theorem call_act (s : State N M) {a : Choice} (hpc : s.pc p = .user) (ht : s.call p a = some t) :
    Acts s p t := by
  have hidle : s.table.task p = .idle := by simp only [State.table, hpc]; rfl
  cases a with
  | exit st =>
    simp only [State.call] at ht
    split_ifs at ht with hp
    cases ht
    refine Or.inr ?_
    rw [table_goto]
    exact Act.exit hidle hp
  | fork | wait addr | kill pid | sleep n | wakeup n =>
    cases ht
    exact Or.inl (table_goto_same s _ (by rw [hpc]; rfl))
  | _ => cases ht

theorem thread_act (h : Threads s) (hc : s.cpu c = .running p) {a : Choice}
    (ht : s.thread c p a = some t) : Acts s p t := by
  have hruns := (h.on c p hc).1
  unfold State.thread at ht
  have htask : s.table.task p = (s.pc p).task := rfl
  cases hpc : s.pc p with
  | user =>
    rw [hpc] at ht
    exact call_act s hpc ht
  | forkScan i =>
    rw [hpc] at ht
    simp only at ht
    split_ifs at ht with hi
    · obtain ⟨hl, rfl⟩ := acquire_map ht
      exact alloc_act _ ⟨i, hi⟩ _ hpc
    · cases ht
      exact Or.inl (table_goto_same s _ (by rw [hpc]; rfl))
  | forkLink np =>
    rw [hpc] at ht htask
    obtain ⟨hl, rfl⟩ := acquire_map ht
    refine Or.inr ?_
    rw [table_goto]
    exact Act.link np htask (h.waitFree hl)
  | forkStart np =>
    rw [hpc] at ht htask
    obtain ⟨hl, rfl⟩ := acquire_map ht
    refine Or.inr ?_
    rw [table_goto]
    exact Act.start np htask
  | exit st =>
    rw [hpc] at ht htask
    obtain ⟨hl, rfl⟩ := acquire_map ht
    refine Or.inr ?_
    rw [table_goto]
    exact Act.enter htask (h.waitFree hl)
  | reparent pp st =>
    rw [hpc] at ht htask
    simp only at ht
    split_ifs at ht with hi hparent
    · cases ht
      refine Or.inr ?_
      rw [table_goto]
      exact Act.hand ⟨pp, hi⟩ htask hparent
    · cases ht
      refine Or.inr ?_
      rw [table_goto]
      exact Act.skip ⟨pp, hi⟩ htask hparent
    · cases ht
      refine Or.inr ?_
      rw [table_goto]
      exact Act.tell pp htask (Nat.le_of_not_lt hi)
  | exitLock st =>
    rw [hpc] at ht htask
    obtain ⟨hl, rfl⟩ := acquire_map ht
    refine Or.inr ?_
    rw [table_goto]
    exact Act.die st htask
  | wait addr =>
    rw [hpc] at ht htask
    obtain ⟨hl, rfl⟩ := acquire_map ht
    refine Or.inr ?_
    rw [table_goto]
    exact Act.begin htask (h.waitFree hl)
  | waitScan addr np kids =>
    rw [hpc] at ht htask
    simp only at ht
    split_ifs at ht with hi hparent hstop
    · cases ht
      refine Or.inr ?_
      rw [table_goto]
      exact Act.find ⟨np, hi⟩ kids htask hparent
    · cases ht
      refine Or.inr ?_
      rw [table_goto]
      exact Act.miss ⟨np, hi⟩ kids htask hparent
    · cases ht
      refine Or.inr ?_
      rw [table_goto]
      -- wait gives up for want of children or because its caller is killed
      have hwhy : kids = false ∨ (s.procs p).killed = true := by simpa using hstop
      exact Act.giveUp np kids htask (Nat.le_of_not_lt hi) hwhy
    · cases ht
      refine Or.inr ?_
      rw [table_goto]
      cases kids with
      | false => exact absurd rfl hstop
      | true => exact Act.rest np htask (Nat.le_of_not_lt hi)
  | waitLock addr np =>
    rw [hpc] at ht
    obtain ⟨hl, rfl⟩ := acquire_map ht
    exact check_act _ np addr _ hpc
  | waitReturn r =>
    rw [hpc] at ht htask
    cases ht
    refine Or.inr ?_
    rw [table_goto]
    exact Act.returned r htask
  | sleep ch lk k =>
    rw [hpc] at ht htask hruns
    obtain ⟨hl, rfl⟩ := acquire_map ht
    -- wait's sleep gives up wait_lock, which shows in the table; sys_sleep's does not
    rcases hruns with ⟨addr, rfl, rfl, rfl⟩ | ⟨n, rfl, rfl, rfl⟩
    · refine Or.inr ?_
      rw [table_goto]
      exact Act.doze htask
    · refine Or.inl ?_
      rw [table_goto]
      exact table_at_same _ _ htask.symm
  | sleepMark ch k =>
    rw [hpc] at ht htask hruns
    cases ht
    rcases hruns with ⟨addr, rfl, rfl⟩ | ⟨n, rfl, rfl⟩
    · refine Or.inr ?_
      rw [table_goto]
      exact Act.mark htask
    · exact Or.inr (act_goto _ _ htask.symm (Act.nap n htask))
  | sleepTidy k =>
    rw [hpc] at ht htask hruns
    cases ht
    have hidle : s.table.task p = .idle := by
      rw [htask]
      rcases hruns with rfl | ⟨addr, rfl⟩ <;> rfl
    exact Or.inr (act_goto _ _ htask.symm (Act.tidy hidle))
  | yield k =>
    rw [hpc] at ht htask hruns
    obtain ⟨hl, rfl⟩ := acquire_map ht
    have hlive : s.table.task p ≠ .dead := by
      rw [htask]
      exact fun hd => hruns.2.dead hd hruns.1
    exact Or.inr (act_goto _ _ htask.symm (Act.yield hlive))
  | sched k =>
    rw [hpc] at ht htask
    cases ht
    exact Or.inl (table_goto_same (s.onCpu c (.release p)) (.parked k) htask.symm)
  | wakeup ch i k =>
    rw [hpc] at ht htask
    simp only at ht
    -- the wakeups of exit show in the table; any other only rouses sleepers
    rcases task_wakeup ch i k with ⟨hl, hk⟩ | ⟨hl, hk⟩
    · have hkn : (PC.wakeup ch (i + 1) k).task = .waking ch (i + 1) k.task := by
        simp only [PC.task, hl, if_true]
      rw [hk] at htask
      split_ifs at ht with hi hip
      · cases ht
        refine Or.inr ?_
        rw [table_goto, hkn]
        rw [hip] at htask ⊢
        exact Act.pass ch _ htask
      · obtain ⟨hfree, rfl⟩ := acquire_map ht
        refine Or.inr ?_
        rw [table_goto]
        change Act _ _ (Table.at _ p (PC.wakeup ch (i + 1) k).task)
        rw [hkn]
        exact Act.wake ⟨i, hi⟩ ch _ htask (fun heq => hip (congrArg Fin.val heq))
          (h.not_doze ⟨i, hi⟩ hfree)
      · cases ht
        refine Or.inr ?_
        rw [table_goto]
        exact Act.woken ch i _ htask (Nat.le_of_not_lt hi)
    · rw [hk] at htask
      split_ifs at ht with hi hip
      · cases ht
        exact Or.inl (table_goto_same s _ (by rw [hk, hpc, hk]))
      · obtain ⟨hfree, rfl⟩ := acquire_map ht
        exact Or.inr (act_goto _ _ ((hk (i + 1)).trans htask.symm)
          (Act.rouse ⟨i, hi⟩ ch (h.not_doze ⟨i, hi⟩ hfree)))
      · cases ht
        exact Or.inl (table_goto_same s _ (by rw [hpc, hk]))
  | kill pid i =>
    rw [hpc] at ht htask
    simp only at ht
    split_ifs at ht with hi
    · obtain ⟨hl, rfl⟩ := acquire_map ht
      split_ifs with hpid
      · exact Or.inr (act_goto _ _ htask.symm (Act.kill ⟨i, hi⟩ (h.not_doze ⟨i, hi⟩ hl)))
      · refine Or.inl ?_
        rw [table_goto]
        exact table_at_same _ _ htask.symm
    · cases ht
      exact Or.inl (table_goto_same s _ htask.symm)
  | release l k =>
    rw [hpc] at ht htask
    cases ht
    refine Or.inl ?_
    rw [table_goto]
    exact table_at_same _ _ htask.symm
  | dead | parked k =>
    rw [hpc] at ht
    cases ht

/-- The state at which a thread acts on the table. -/
theorem thread_running (h : Threads s) (hc : s.cpu c = .running p) {a : Choice}
    (ht : s.thread c p a = some t) :
    t.table = s.table ∨ ((s.procs p).state = .running ∧ Act s.table p t.table) := by
  rcases thread_act h hc ht with heq | hact
  · exact Or.inl heq
  unfold State.thread at ht
  rcases (h.on c p hc).2 with hrun | ⟨-, k, hk⟩ | ⟨-, hk | hk⟩
  · exact Or.inr ⟨hrun, hact⟩
  -- sched and release leave the table alone
  · have htask := congrArg PC.task hk
    rw [hk] at ht
    cases ht
    exact Or.inl (table_goto_same (s.onCpu c (.release p)) (.parked k) htask.symm)
  · have htask := congrArg PC.task hk
    rw [hk] at ht
    cases ht
    exact Or.inl (table_goto_same (s.onCpu c (.release p)) (.parked .dead) htask.symm)
  · have htask := congrArg PC.task hk
    rw [hk] at ht
    cases ht
    exact Or.inl (table_goto_same (s.release .wait) (.sched .dead) htask.symm)

omit [NeZero N] in
/-- An interrupt keeps the thread's task and locks. -/
theorem interrupt_move (h : Threads s) (hc : s.cpu c = .running p) (k : PC N)
    (hl : (s.pc p).locks p = []) (hlocks : k.locks p = []) (hruns : k.Runs p) :
    ThreadMove s c p (s.goto p k) := by
  have hrun : (s.procs p).state = .running := by
    refine h.running_at hc ?_ ?_
    · intro j hj
      rw [hj] at hl
      cases hl
    · intro l j hj
      rw [hj] at hl
      cases hl
  exact .of_keep rfl rfl rfl (fun _ _ => Or.inl rfl) (by rw [hlocks, hl]) hruns (Or.inl hrun)

omit [NeZero N] in
/-- What a thread that has no lock does in a handler is not part of exit. -/
theorem task_interrupt (h : Threads s) (hc : s.cpu c = .running p) (ch : Option (Chan N)) (i : Nat)
    (hl : (s.pc p).locks p = []) : (PC.wakeup ch i (s.pc p)).task = (s.pc p).task := by
  rcases task_wakeup ch i (s.pc p) with ⟨hk, -⟩ | ⟨-, hk⟩
  · have hw : (s.pc p).task.waits = true := by
      cases htask : (s.pc p).task <;> simp_all [Task.leaving, Task.waits]
    have := (h.on c p hc).1.waits hw
    rw [hl] at this
    cases this
  · exact hk i

omit [NeZero N] in
/-- A step of a CPU that runs no process, before and after. -/
theorem Threads.idle (h : Threads s) (q : Cpu N) (hc : ∀ r, s.cpu c ≠ .running r)
    (hq : ∀ r, q ≠ .running r) (hcpu : t.cpu = Function.update s.cpu c q) (hpc : t.pc = s.pc)
    (hstate : ∀ d r, s.cpu d = .running r → (t.procs r).state = (s.procs r).state)
    (hagree : Agree t.lock (Function.update s.held c (t.held c))) : Threads t where
  one := by
    intro d e r hd he
    rw [hcpu, Function.update_apply] at hd he
    split_ifs at hd he with h1 h2 h3
    · exact h1.trans h2.symm
    · exact absurd hd (hq r)
    · exact absurd he (hq r)
    · exact h.one d e r hd he
  on := by
    intro d r hd
    rw [hcpu, Function.update_apply] at hd
    split_ifs at hd with h1
    · exact absurd hd (hq r)
    · have hon := h.on d r hd
      rw [State.Busy] at hon ⊢
      rw [hpc, hstate d r hd]
      exact hon
  off := by
    intro r hr
    rw [hpc]
    refine h.off r ?_
    intro d hd
    have hdc : d ≠ c := by
      rintro rfl
      exact hc r hd
    refine hr d ?_
    rw [hcpu, Function.update_of_ne hdc]
    exact hd
  agree := by
    have hheld : t.held = Function.update s.held c (t.held c) := by
      funext d
      by_cases hd : d = c
      · rw [hd, Function.update_self]
      · rw [Function.update_of_ne hd]
        simp only [State.held, hcpu, Function.update_of_ne hd, hpc]
    rw [hheld]
    exact hagree

omit [NeZero N] in
/-- scheduler switches to process `i`. -/
theorem Threads.dispatch (h : Threads s) (i : Fin N) (hc : s.cpu c = .scan i)
    (hl : s.lock (.proc i) = none) (hi : (s.procs i).state = .runnable) :
    Threads ((({ s with lock := Function.update s.lock (.proc i) (some c) }.setProc i
      { s.procs i with state := .running }).onCpu c (.running i)).goto i (s.pc i).resume) := by
  have hoff : ∀ d, s.cpu d ≠ .running i := by
    intro d hd
    rw [h.running_of_free hd hl] at hi
    cases hi
  obtain ⟨k, hk, hctx⟩ := h.off i hoff
  have hresume : (s.pc i).resume = k := by
    rw [hk]
    rfl
  refine ⟨?_, ?_, ?_, ?_⟩
  · intro d e r hd he
    simp only [State.goto, State.onCpu, Function.update_apply] at hd he
    split_ifs at hd he with h1 h2 h3
    · exact h1.trans h2.symm
    · cases hd
      exact absurd he (hoff e)
    · cases he
      exact absurd hd (hoff d)
    · exact h.one d e r hd he
  · intro d r hd
    simp only [State.goto, State.onCpu, Function.update_apply] at hd
    split_ifs at hd with h1
    · cases hd
      refine ⟨?_, Or.inl ?_⟩
      · simp only [State.goto, Function.update_self, hresume]
        exact hctx.2.2
      · simp only [State.goto, State.onCpu, State.setProc, Function.update_self]
    · have hri : r ≠ i := by
        rintro rfl
        exact hoff d hd
      have hon := h.on d r hd
      simp only [State.Busy, State.goto, State.onCpu, State.setProc, Function.update_of_ne hri]
        at hon ⊢
      exact hon
  · intro r hr
    have hri : r ≠ i := by
      rintro rfl
      exact hr c (by simp only [State.goto, State.onCpu, Function.update_self])
    simp only [State.goto, Function.update_of_ne hri]
    refine h.off r ?_
    intro d hd
    have hdc : d ≠ c := by
      rintro rfl
      rw [hc] at hd
      cases hd
    refine hr d ?_
    simp only [State.goto, State.onCpu, Function.update_of_ne hdc]
    exact hd
  · have hheld : ((({ s with lock := Function.update s.lock (.proc i) (some c) }.setProc i
        { s.procs i with state := .running }).onCpu c (.running i)).goto i (s.pc i).resume).held =
          Function.update s.held c [.proc i] := by
      funext d
      by_cases hd : d = c
      · rw [hd, Function.update_self]
        simp only [State.held, State.goto, State.onCpu, Function.update_self, hresume]
        exact hctx.1
      · rw [Function.update_of_ne hd]
        simp only [State.held, State.goto, State.onCpu, State.setProc, Function.update_of_ne hd]
        cases hr : s.cpu d with
        | running r =>
          have hri : r ≠ i := by
            rintro rfl
            exact hoff d hr
          simp only [Function.update_of_ne hri]
        | _ => rfl
    rw [hheld]
    refine h.agree.acquire c (.proc i) _ hl ?_
    intro j
    simp [State.held, hc]

/-- Every step of the kernel keeps the threads in order. -/
theorem step_threads (h : Threads s) (hx : TableInv s.table) {e : Fin M × Choice}
    (ht : step s e = some t) : Threads t := by
  obtain ⟨c, a⟩ := e
  simp only [step] at ht
  cases hc : s.cpu c with
  | scan i =>
    rw [hc] at ht
    have hscan : ∀ t, ((s.acquire c (.proc i)).map (fun s =>
        if (s.procs i).state = .runnable then
          ((s.setProc i { s.procs i with state := .running }).onCpu c (.running i)).goto i
            (s.pc i).resume
        else s.onCpu c (.release i))) = some t → Threads t := by
      intro t ht
      obtain ⟨hl, rfl⟩ := acquire_map ht
      split_ifs with hi
      · exact h.dispatch i hc hl hi
      · refine h.idle (.release i) (by rw [hc]; simp) (by simp) rfl rfl (fun _ _ _ => rfl) ?_
        refine h.agree.acquire c (.proc i) _ hl ?_
        intro j
        simp [State.held, State.onCpu, hc]
    cases a with
    | intr n =>
      cases ht
      refine h.idle (.wakeup n 0 i) (by rw [hc]; simp) (by simp) rfl rfl (fun _ _ _ => rfl) ?_
      refine h.agree.keep c _ ?_
      intro j
      simp [State.held, State.onCpu, hc]
    | _ => exact hscan t ht
  | release i =>
    rw [hc] at ht
    cases ht
    refine h.idle (.scan (nextSlot i)) (by rw [hc]; simp) (by simp) rfl rfl (fun _ _ _ => rfl) ?_
    refine h.agree.release c (.proc i) _ ?_ ?_
    · intro j
      simp [State.held, State.onCpu, hc]
    · simp [State.held, State.onCpu]
  | wakeup n i back =>
    rw [hc] at ht
    simp only at ht
    split_ifs at ht with hi
    · obtain ⟨hl, rfl⟩ := acquire_map ht
      refine h.idle (.wakeupRelease n ⟨i, hi⟩ back) (by rw [hc]; simp) (by simp) rfl rfl ?_ ?_
      · intro d r hd
        by_cases hr : r = ⟨i, hi⟩
        · simp only [State.onCpu, State.setProc, hr, Function.update_self]
          rcases h.wake_state ⟨i, hi⟩ (some (.other n)) hl with hoff | hs
          · exact absurd (hr ▸ hd) (hoff d)
          · exact hs
        · simp only [State.onCpu, State.setProc, Function.update_of_ne hr]
      · refine h.agree.acquire c (.proc ⟨i, hi⟩) _ hl ?_
        intro j
        simp [State.held, State.onCpu, hc]
    · cases ht
      refine h.idle (.scan back) (by rw [hc]; simp) (by simp) rfl rfl (fun _ _ _ => rfl) ?_
      refine h.agree.keep c _ ?_
      intro j
      simp [State.held, State.onCpu, hc]
  | wakeupRelease n i back =>
    rw [hc] at ht
    cases ht
    refine h.idle (.wakeup n (i + 1) back) (by rw [hc]; simp) (by simp) rfl rfl (fun _ _ _ => rfl)
      ?_
    refine h.agree.release c (.proc i) _ ?_ ?_
    · intro j
      simp [State.held, State.onCpu, hc]
    · simp [State.held, State.onCpu]
  | running p =>
    rw [hc] at ht
    have hruns := (h.on c p hc).1
    cases a with
    | timer =>
      simp only at ht
      split_ifs at ht with hl
      cases ht
      exact (interrupt_move h hc (.yield (s.pc p)) hl rfl ⟨hl, hruns⟩).threads h hc
    | intr n =>
      simp only at ht
      split_ifs at ht with hl
      cases ht
      exact (interrupt_move h hc (.wakeup (some (.other n)) 0 (s.pc p)) hl hl hruns).threads h hc
    | _ => exact (thread_move h hx hc ht).threads h hc

/-- The kernel refines the machine on the process table. -/
theorem step_table (h : Threads s) {e : Fin M × Choice} (ht : step s e = some t) :
    t.table = s.table ∨ Move s.table t.table := by
  obtain ⟨c, a⟩ := e
  simp only [step] at ht
  cases hc : s.cpu c with
  | scan i =>
    rw [hc] at ht
    have hscan : ∀ t, ((s.acquire c (.proc i)).map (fun s =>
        if (s.procs i).state = .runnable then
          ((s.setProc i { s.procs i with state := .running }).onCpu c (.running i)).goto i
            (s.pc i).resume
        else s.onCpu c (.release i))) = some t → t.table = s.table ∨ Move s.table t.table := by
      intro t ht
      obtain ⟨hl, rfl⟩ := acquire_map ht
      split_ifs with hi
      · refine Or.inr ?_
        rw [table_goto, table_at_same]
        · exact Move.dispatch i hi
        · change (s.pc i).resume.task = (s.pc i).task
          cases s.pc i <;> rfl
      · exact Or.inl rfl
    cases a with
    | intr n =>
      cases ht
      exact Or.inl rfl
    | _ => exact hscan t ht
  | release i | wakeupRelease n i back =>
    rw [hc] at ht
    cases ht
    exact Or.inl rfl
  | wakeup n i back =>
    rw [hc] at ht
    simp only at ht
    split_ifs at ht with hi
    · obtain ⟨hl, rfl⟩ := acquire_map ht
      exact Or.inr (Move.device ⟨i, hi⟩ n)
    · cases ht
      exact Or.inl rfl
  | running p =>
    rw [hc] at ht
    cases a with
    | timer =>
      simp only at ht
      split_ifs at ht with hl
      cases ht
      exact Or.inl (table_goto_same s _ rfl)
    | intr n =>
      simp only at ht
      split_ifs at ht with hl
      cases ht
      exact Or.inl (table_goto_same s _ (task_interrupt h hc _ _ hl))
    | _ =>
      rcases thread_running h hc ht with heq | ⟨hrun, hact⟩
      · exact Or.inl heq
      · exact Or.inr (Move.act p _ hrun hact)

end Xv6Labs.Wait
