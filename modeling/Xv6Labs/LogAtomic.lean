import Xv6Labs.LogRecovery

/-! Operations are atomic across crashes: each operation's writes are in one commit group,
recovery installs exactly the committed groups, and running it again changes nothing. -/
namespace Xv6Labs.Log

/-- The writes of one operation in a list. -/
def ofOp (o : Nat) (ws : List Write) : List Write := ws.filter (fun w => decide (w.op = o))

theorem ofOp_append (o : Nat) (ws vs : List Write) :
    ofOp o (ws ++ vs) = ofOp o ws ++ ofOp o vs := List.filter_append _ _

theorem ofOp_eq_nil (o : Nat) (ws : List Write) (h : ∀ w ∈ ws, w.op ≠ o) : ofOp o ws = [] := by
  apply List.filter_eq_nil_iff.mpr
  intro w hw
  simp [h w hw]

/-- The writes of operation `o` are all in the open group, all committed or all lost. -/
def Whole (s : State) (o : Nat) : Prop :=
  (ofOp o s.groups.flatten = [] ∧ ofOp o s.pending = ofOp o s.history) ∨
  (ofOp o s.groups.flatten = ofOp o s.history ∧ ofOp o s.pending = [] ∧ o ∉ s.active) ∨
  (ofOp o s.groups.flatten = [] ∧ ofOp o s.pending = [] ∧ o ∉ s.active)

/-- The groups that have returned, and the group being installed. -/
def ReturnedOf (s : State) : Prop :=
  match s.phase with
  | .install _ => ∃ g, ∃ init, s.groups = init ++ [g] ∧ s.returned.Sublist init
  | _ => s.returned.Sublist s.groups

structure OpsInv (s : State) : Prop where
  fresh : ∀ w, w ∈ s.history ∨ w ∈ s.pending ∨ w ∈ s.groups.flatten → w.op < s.nextOp
  known : ∀ o ∈ s.active, o < s.nextOp
  whole : ∀ o, Whole s o
  returned : ReturnedOf s

section Ops

variable {disk0 : Nat → Bytes} {s t : State}

theorem ReturnedOf.sublist (h : ReturnedOf s) : s.returned.Sublist s.groups := by
  unfold ReturnedOf at h
  split at h
  · obtain ⟨g, init, hg, hr⟩ := h
    rw [hg]
    exact hr.trans (List.sublist_append_left init [g])
  · exact h

/-- A step that touches none of the records. -/
theorem OpsInv.congr (h : OpsInv s) (hh : t.history = s.history) (hp : t.pending = s.pending)
    (hg : t.groups = s.groups) (ha : ∀ o, o ∈ t.active → o ∈ s.active)
    (hn : t.nextOp = s.nextOp) (hr : ReturnedOf t) : OpsInv t := by
  refine ⟨?_, ?_, ?_, hr⟩
  · intro w
    rw [hh, hp, hg, hn]
    exact h.fresh w
  · intro o ho
    rw [hn]
    exact h.known o (ha o ho)
  · intro o
    have hw := h.whole o
    unfold Whole at hw ⊢
    rw [hh, hp, hg]
    rcases hw with hw | ⟨h1, h2, h3⟩ | ⟨h1, h2, h3⟩
    · exact Or.inl hw
    · exact Or.inr (Or.inl ⟨h1, h2, fun ho => h3 (ha o ho)⟩)
    · exact Or.inr (Or.inr ⟨h1, h2, fun ho => h3 (ha o ho)⟩)

theorem beginOp_ops (h : OpsInv s) (ht : beginOp s = some t) : OpsInv t := by
  have hret := h.returned
  unfold beginOp at ht
  split_ifs at ht with h1 h2
  cases ht
  have hfresh (ws : List Write) (hws : ∀ w ∈ ws, w.op < s.nextOp) : ofOp s.nextOp ws = [] :=
    ofOp_eq_nil _ _ (fun w hw => Nat.ne_of_lt (hws w hw))
  refine ⟨fun w hw => Nat.lt_succ_of_lt (h.fresh w hw), ?_, ?_, hret⟩
  · intro o ho
    rcases List.mem_cons.mp ho with rfl | ho
    · exact Nat.lt_succ_self _
    · exact Nat.lt_succ_of_lt (h.known o ho)
  · intro o
    by_cases ho : o = s.nextOp
    · -- the new operation has written nothing
      subst ho
      refine Or.inl ⟨hfresh _ (fun w hw => h.fresh w (Or.inr (Or.inr hw))), ?_⟩
      simp only
      rw [hfresh _ (fun w hw => h.fresh w (Or.inr (Or.inl hw))),
        hfresh _ (fun w hw => h.fresh w (Or.inl hw))]
    · rcases h.whole o with hw | ⟨h1, h2, h3⟩ | ⟨h1, h2, h3⟩
      · exact Or.inl hw
      · exact Or.inr (Or.inl ⟨h1, h2, by simp [ho, h3]⟩)
      · exact Or.inr (Or.inr ⟨h1, h2, by simp [ho, h3]⟩)

theorem append_ops (h : OpsInv s) (op : Nat) (c : Call) (hop : op ∈ s.active) :
    OpsInv (append s op c) := by
  obtain ⟨b, data, stage⟩ := c
  have hret := h.returned
  unfold append
  have hnew : (⟨op, b, data⟩ : Write).op < s.nextOp := h.known op hop
  refine ⟨?_, h.known, ?_, hret⟩
  · intro w hw
    simp only [List.mem_append, List.mem_singleton] at hw
    rcases hw with (hw | rfl) | (hw | rfl) | hw
    · exact h.fresh w (Or.inl hw)
    · exact hnew
    · exact h.fresh w (Or.inr (Or.inl hw))
    · exact hnew
    · exact h.fresh w (Or.inr (Or.inr hw))
  · intro o
    unfold Whole
    simp only [ofOp_append]
    by_cases ho : o = op
    · -- the writer is active, so all its writes are in the open group
      subst ho
      rcases h.whole o with hw | ⟨-, -, h3⟩ | ⟨-, -, h3⟩
      · exact Or.inl ⟨hw.1, by rw [hw.2]⟩
      · exact absurd hop h3
      · exact absurd hop h3
    · have hnil : ofOp o [(⟨op, b, data⟩ : Write)] = [] := by
        apply ofOp_eq_nil
        intro w hw
        rw [List.mem_singleton.mp hw]
        exact fun he => ho he.symm
      rw [hnil, List.append_nil, List.append_nil]
      exact h.whole o

theorem endOp_ops (hi : Inv disk0 s) (h : OpsInv s) (op : Nat) (hop : op ∈ s.active)
    (ht : endOp s op = some t) : OpsInv t := by
  have hrun := hi.running_of_active op hop
  have hret := h.returned
  simp only [ReturnedOf, hrun] at hret
  unfold endOp at ht
  split_ifs at ht with h1 h2 h3
  · cases ht
    exact h.congr rfl rfl rfl (fun o ho => List.mem_of_mem_erase ho) rfl hret
  · cases ht
    exact h.congr rfl rfl rfl (fun o ho => List.mem_of_mem_erase ho) rfl hret
  · cases ht
    refine h.congr rfl rfl rfl (fun o ho => List.mem_of_mem_erase ho) rfl ?_
    simp only [ReturnedOf, hrun]
    exact hret

/-- The commit point makes the open group a committed one. -/
theorem writeHead_ops (hi : Inv disk0 s) (h : OpsInv s) (tail : Nat)
    (hs : s.phase = .writeLog tail) :
    OpsInv { s.writeHead with
      phase := .install 0
      groups := s.groups ++ [s.pending]
      pending := [] } := by
  have hret := h.returned
  simp only [ReturnedOf, hs] at hret
  have hquiet := hi.quiet (by rw [hs]; simp)
  have hflat : (s.groups ++ [s.pending]).flatten = s.groups.flatten ++ s.pending := by
    simp only [List.flatten_append, List.flatten_cons, List.flatten_nil, List.append_nil]
  refine ⟨?_, h.known, ?_, ⟨s.pending, s.groups, rfl, hret⟩⟩
  · intro w hw
    simp only [hflat, List.mem_append] at hw
    apply h.fresh w
    rcases hw with hw | hw | hw | hw
    · exact Or.inl hw
    · cases hw
    · exact Or.inr (Or.inr hw)
    · exact Or.inr (Or.inl hw)
  · intro o
    have ho : o ∉ s.active := by
      rw [hquiet]
      exact List.not_mem_nil
    unfold Whole
    simp only [hflat, ofOp_append]
    rcases h.whole o with ⟨h1, h2⟩ | ⟨h1, h2, h3⟩ | ⟨h1, h2, h3⟩
    · exact Or.inr (Or.inl ⟨by rw [h1, h2]; rfl, rfl, ho⟩)
    · exact Or.inr (Or.inl ⟨by rw [h1, h2, List.append_nil]; rfl, rfl, ho⟩)
    · exact Or.inr (Or.inr ⟨by rw [h1, h2]; rfl, rfl, ho⟩)

theorem next_ops (hi : Inv disk0 s) (h : OpsInv s) (ht : next s = some t) : OpsInv t := by
  have hret := h.returned
  unfold next at ht
  cases hs : s.phase with
  | running => simp [hs] at ht
  | writeLog tail =>
    simp only [hs] at ht
    simp only [ReturnedOf, hs] at hret
    cases hb : s.lh[tail]? with
    | some b =>
      simp only [hb, Option.some.injEq] at ht
      subst ht
      exact h.congr rfl rfl rfl (fun _ => id) rfl hret
    | none =>
      simp only [hb, Option.some.injEq] at ht
      exact ht ▸ writeHead_ops hi h tail hs
  | install tail =>
    simp only [hs] at ht
    simp only [ReturnedOf, hs] at hret
    cases hb : s.lh[tail]? with
    | some b =>
      simp only [hb, Option.some.injEq] at ht
      subst ht
      exact h.congr rfl rfl rfl (fun _ => id) rfl hret
    | none =>
      simp only [hb, Option.some.injEq] at ht
      subst ht
      refine h.congr rfl rfl rfl (fun _ => id) rfl ?_
      obtain ⟨g, init, hg, hr⟩ := hret
      simp only [ReturnedOf, State.writeHead, State.bwrite, hg]
      rw [List.getLastD_concat]
      exact hr.append (List.Sublist.refl _)
  | finish =>
    simp only [hs, Option.some.injEq] at ht
    simp only [ReturnedOf, hs] at hret
    subst ht
    exact h.congr rfl rfl rfl (fun _ => id) rfl hret
  | boot =>
    simp only [hs, Option.some.injEq] at ht
    simp only [ReturnedOf, hs] at hret
    subst ht
    exact h.congr rfl rfl rfl (fun _ => id) rfl hret
  | recover tail =>
    simp only [hs] at ht
    simp only [ReturnedOf, hs] at hret
    cases hb : s.lh[tail]? with
    | some b =>
      simp only [hb, Option.some.injEq] at ht
      subst ht
      exact h.congr rfl rfl rfl (fun _ => id) rfl hret
    | none =>
      simp only [hb, Option.some.injEq] at ht
      subst ht
      exact h.congr rfl rfl rfl (fun _ => id) rfl hret

/-- A crash loses the open group and nothing else. -/
theorem crash_ops (h : OpsInv s) : OpsInv (crash s) := by
  refine ⟨?_, fun o ho => (by cases ho), ?_, h.returned.sublist⟩
  · intro w hw
    apply h.fresh w
    rcases hw with hw | hw | hw
    · exact Or.inl hw
    · cases hw
    · exact Or.inr (Or.inr hw)
  · intro o
    have hna : o ∉ (crash s).active := List.not_mem_nil
    rcases h.whole o with ⟨h1, h2⟩ | ⟨h1, h2, -⟩ | ⟨h1, h2, -⟩
    · exact Or.inr (Or.inr ⟨h1, rfl, hna⟩)
    · exact Or.inr (Or.inl ⟨h1, rfl, hna⟩)
    · exact Or.inr (Or.inr ⟨h1, rfl, hna⟩)

theorem step_ops (hi : Inv disk0 s) (hcalls : Calling s) (h : OpsInv s) (e : Event)
    (ht : step s e = some t) : OpsInv t := by
  cases e with
  | beginOp => exact beginOp_ops h ht
  | logWrite op b data =>
    simp only [step] at ht
    unfold logWrite at ht
    split_ifs at ht
    cases ht
    exact h.congr rfl rfl rfl (fun _ => id) rfl h.returned
  | logNext op =>
    obtain ⟨c, hc, ht⟩ := Option.bind_eq_some_iff.mp ht
    rcases advance_cases ht with ⟨stage, rfl⟩ | ⟨-, rfl⟩
    · exact h.congr rfl rfl rfl (fun _ => id) rfl h.returned
    · exact append_ops h op c (hcalls op c hc).1
  | endOp op =>
    simp only [step] at ht
    split_ifs at ht with hop
    exact endOp_ops hi h op hop.1 ht
  | next => exact next_ops hi h ht
  | evict b =>
    simp only [step] at ht
    split_ifs at ht with hb
    cases ht
    exact h.congr rfl rfl rfl (fun _ => id) rfl h.returned
  | crash =>
    simp only [step, Option.some.injEq] at ht
    exact ht ▸ crash_ops h

end Ops

section Completion

variable {disk0 : Nat → Bytes} {s : State}

/-- Recovery from log block `tail` on ends after the remaining blocks and the header. -/
theorem recover_completes (h : Inv disk0 s) (tail : Nat) (hs : s.phase = .recover tail) :
    ∃ m t, run step s (List.replicate m .next) = some t ∧ t.phase = .running ∧
      t.groups = s.groups ∧ Inv disk0 t := by
  induction hk : s.lh.length - tail generalizing s tail with
  | zero =>
    have hb : s.lh[tail]? = none := List.getElem?_eq_none_iff.mpr (by omega)
    refine ⟨1, { State.writeHead { s with lh := [] } with phase := .running }, ?_, rfl, rfl,
      recover_clear_inv h tail hs hb⟩
    simp only [List.replicate_one, run, step, next, hs, hb, Option.bind_some]
  | succ k ih =>
    have htail : tail < s.lh.length := by omega
    have hb : s.lh[tail]? = some s.lh[tail] := List.getElem?_eq_getElem htail
    have hinv := recover_block_inv h tail _ hs hb
    obtain ⟨m, t, hrun, hph, hg, hi⟩ := ih hinv (tail+1) rfl (by
      simp only [State.installBlock, bwrite_lh]
      omega)
    refine ⟨m+1, t, ?_, hph, hg, hi⟩
    rw [List.replicate_succ, run_cons]
    refine ⟨_, ?_, hrun⟩
    simp only [step, next, hs, hb]

/-- After a crash in any state, recovery runs to its end. -/
theorem crash_recovers (h : Inv disk0 s) :
    ∃ m t, run step s (.crash :: List.replicate m .next) = some t ∧ t.phase = .running ∧
      t.groups = s.groups ∧ Inv disk0 t := by
  have hc := crash_inv h
  have hread : step (crash s) .next = some
      { crash s with lh := readHead ((crash s).cache s.start), phase := .recover 0 } := rfl
  have hinv := next_inv hc hread
  obtain ⟨m, t, hrun, hph, hg, hi⟩ := recover_completes hinv 0 rfl
  refine ⟨m+1, t, ?_, hph, hg, hi⟩
  rw [run_cons]
  refine ⟨crash s, rfl, ?_⟩
  rw [List.replicate_succ, run_cons]
  exact ⟨_, hread, hrun⟩

/-- Recovery of a disk whose log is empty writes back what is there. -/
theorem recover_again (h : Inv disk0 s) (hs : s.phase = .running) :
    ∃ t, run step s [.crash, .next, .next] = some t ∧ t.phase = .running ∧ t.disk = s.disk := by
  have hph := h.phase
  simp only [PhaseInv, hs] at hph
  have hn : getUint (s.disk s.start) 0 = 0 := by
    have hlen := congrArg List.length hph.head
    simpa only [readHead, List.length_map, List.length_range, List.length_nil] using hlen
  refine ⟨{ State.writeHead { crash s with lh := [] } with phase := .running }, ?_, rfl, ?_⟩
  · simp only [run, step, crash, next, hph.head, Option.bind_some, List.getElem?_nil]
    rfl
  · change Function.update s.disk s.start (headBlock (s.disk s.start) []) = s.disk
    rw [headBlock_nil]
    have hsame : setUint (s.disk s.start) 0 0 = s.disk s.start := by
      have := setUint_getUint (s.disk s.start) 0
      rwa [hn] at this
    rw [hsame, Function.update_eq_self]

end Completion

/-- Crash atomicity. In every state that a run reaches in which every block that is new to the
header has a log block: when recovery has completed (or no commit is going on) the home blocks
are those after the groups whose first write_head reached the disk; a crash now is recovered to
that state; recovering again leaves the whole disk alone; the writes of each operation are all in
those groups or none is; no group whose commit returned is lost. -/
theorem crash_atomicity (start size : Nat) (disk0 : Nat → Bytes) (hsize : 0 < size)
    (hlog : readHead (disk0 start) = []) (es : List Event) (s : State)
    (hg : Guarded step (fun s e => GroupFits s e ∧ LogFits s e) (boot start size disk0) es)
    (hr : run step (boot start size disk0) es = some s) :
    (s.phase = .running → ∀ b, s.Home b → s.disk b = afterGroups disk0 s.groups b) ∧
    (∃ m t, run step s (.crash :: List.replicate m .next) = some t ∧ t.phase = .running ∧
      t.groups = s.groups ∧ ∀ b, t.Home b → t.disk b = afterGroups disk0 s.groups b) ∧
    (s.phase = .running → ∃ t, run step s [.crash, .next, .next] = some t ∧
      t.phase = .running ∧ t.disk = s.disk) ∧
    (∀ o, ofOp o s.groups.flatten = ofOp o s.history ∨ ofOp o s.groups.flatten = []) ∧
    s.returned.Sublist s.groups := by
  have hboot : OpsInv (boot start size disk0) := by
    refine ⟨?_, fun o ho => (by cases ho), fun o => Or.inl ⟨rfl, rfl⟩, List.Sublist.refl _⟩
    rintro w (hw | hw | hw) <;> cases hw
  have hcalls : Calling (boot start size disk0) := by
    intro op c hc
    cases hc
  have hinv : Inv disk0 s ∧ Calling s ∧ OpsInv s := by
    refine guarded_run_invariant step _ (fun s => Inv disk0 s ∧ Calling s ∧ OpsInv s) ?_ _ s es
      ⟨boot_inv start size hsize hlog, hcalls, hboot⟩ hg hr
    rintro s e t ⟨h1, h2, h3⟩ ⟨hgroup, hfits⟩ ht
    exact ⟨step_inv h1 h2 e hgroup hfits ht, step_calling h2 e ht, step_ops h1 h2 h3 e ht⟩
  obtain ⟨hi, -, ho⟩ := hinv
  have hrunning (u : State) (hu : Inv disk0 u) (hp : u.phase = .running) (b : Nat)
      (hb : u.Home b) : u.disk b = afterGroups disk0 u.groups b := by
    have hph := hu.phase
    simp only [PhaseInv, hp] at hph
    exact hph.disk b hb
  refine ⟨hrunning s hi, ?_, recover_again hi, ?_, ho.returned.sublist⟩
  · obtain ⟨m, t, hrun, hp, hg, ht⟩ := crash_recovers hi
    refine ⟨m, t, hrun, hp, hg, ?_⟩
    intro b hb
    rw [← hg]
    exact hrunning t ht hp b hb
  · intro o
    rcases ho.whole o with ⟨h1, -⟩ | ⟨h1, -⟩ | ⟨h1, -⟩
    · exact Or.inr h1
    · exact Or.inl h1
    · exact Or.inr h1

/-- One block is logged, and the machine crashes right after the first write_head. -/
def oneBlock : List Event :=
  [.next, .next, .beginOp] ++ logged 0 100 (fun _ => 7) ++ [.endOp 0, .next, .next, .crash]

theorem crash_atomicity_oneBlock :
    ∃ s, run step (boot 2 30 (fun _ => zeroBytes)) oneBlock = some s ∧ s.groups.length = 1 ∧
      s.phase = .boot ∧
      ∃ m t, run step s (.crash :: List.replicate m .next) = some t ∧ t.phase = .running ∧
        t.groups = s.groups ∧
        ∀ b, t.Home b → t.disk b = afterGroups (fun _ => zeroBytes) s.groups b := by
  refine ⟨_, rfl, rfl, rfl, ?_⟩
  exact (crash_atomicity 2 30 (fun _ => zeroBytes) (by decide) rfl oneBlock _
    (by decide +kernel) rfl).2.1

/-- Three operations log ten blocks each with nlog = 30. The last two log_writes both make their
tests before either appends, so the thirtieth block goes to the block behind the log. The machine
crashes before write_head. -/
def overfull : List Event :=
  [.next, .next, .beginOp, .beginOp, .beginOp] ++
    (List.range 10).flatMap (fun i => logged 0 (100 + i) (fun _ => 7)) ++
    (List.range 9).flatMap (fun i => logged 1 (110 + i) (fun _ => 7)) ++
    (List.range 9).flatMap (fun i => logged 2 (120 + i) (fun _ => 7)) ++
    [.logWrite 1 119 (fun _ => 7), .logWrite 2 129 (fun _ => 7), .logNext 1, .logNext 1, .logNext 1,
      .logNext 2, .logNext 2, .logNext 2, .logNext 1, .logNext 2, .endOp 0, .endOp 1, .endOp 2] ++
    List.replicate 30 .next ++ [.crash, .next, .next]

/-- No group is committed, and after recovery a block outside the log has changed. -/
theorem overfull_log_spills :
    Guarded step GroupFits (boot 2 30 (fun _ => zeroBytes)) overfull ∧
    ∃ s, run step (boot 2 30 (fun _ => zeroBytes)) overfull = some s ∧ s.phase = .running ∧
      s.groups = [] ∧ s.Home 32 ∧
      s.disk 32 ≠ afterGroups (fun _ => zeroBytes) s.groups 32 := by
  have hrun : (run step (boot 2 30 (fun _ => zeroBytes)) overfull).map
      (fun s => (s.phase, s.groups.length, s.start, s.size, s.disk 32 0)) =
      some (.running, 0, 2, 30, 7) := by decide +kernel
  obtain ⟨s, hs, hend⟩ := Option.map_eq_some_iff.mp hrun
  simp only [Prod.mk.injEq] at hend
  obtain ⟨hphase, hgroups, hstart, hsize, hdisk⟩ := hend
  have hnil : s.groups = [] := List.length_eq_zero_iff.mp hgroups
  refine ⟨by decide +kernel, s, hs, hphase, hnil, ?_, ?_⟩
  · unfold State.Home
    omega
  · intro he
    have h0 := congrFun he 0
    rw [hdisk, hnil] at h0
    exact absurd h0 (by decide)

end Xv6Labs.Log
