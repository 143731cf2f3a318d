import Xv6Labs.LogRecovery
import Mathlib.Data.List.Dedup
import Mathlib.Data.List.Perm.Subperm

/-! The reservations of log.c: what begin_op sets aside for every operation is enough for
the blocks it adds, commits run alone, and every block of the header is pinned once. -/
namespace Xv6Labs.Log

variable {disk0 : Nat → Bytes} {s t : State}

/-- The operation that added block `b` to the header. -/
def firstOp (s : State) (b : Nat) : Option Nat :=
  (s.pending.find? (fun w => decide (w.block = b))).map Write.op

/-- How many blocks of the header operation `op` has added. -/
def added (s : State) (op : Nat) : Nat :=
  s.lh.countP (fun b => decide (firstOp s b = some op))

/-- The room that the outstanding operations have reserved and not used. -/
def unused (s : State) : Nat := (s.active.map (fun op => MAXOPBLOCKS - added s op)).sum

/-- A log_write adds no more than MAXOPBLOCKS blocks for its operation; the machine does not
crash. -/
def AddsFew (s : State) : Event → Prop
  | .logNext op => adds s (.logNext op) = true → added s op < MAXOPBLOCKS
  | .crash => False
  | _ => True

instance (s : State) (e : Event) : Decidable (AddsFew s e) := by
  cases e <;> unfold AddsFew <;> infer_instance

/-- The pins and the writes of the open group, as commit goes on. -/
def CommitInv (s : State) : Prop :=
  match s.phase with
  | .install tail => s.pinned = s.lh.drop tail ∧ s.pending = []
  | .finish => s.pinned = [] ∧ s.lh = [] ∧ s.pending = []
  | _ => s.pinned = s.lh

structure Reserved (s : State) : Prop where
  counted : s.outstanding = s.active.length
  committing : s.committing = s.phase.inCommit
  quiet : s.phase ≠ .running → s.active = []
  up : s.phase.recovering = false
  nodup : s.lh.Nodup
  ops : s.active.Nodup ∧ ∀ op ∈ s.active, op < s.nextOp
  earlier : ∀ w ∈ s.pending, w.op < s.nextOp
  logged : s.phase = .running → ∀ w ∈ s.pending, w.block ∈ s.lh
  written : s.phase = .running → ∀ b ∈ s.lh, ∃ w ∈ s.pending, w.block = b
  room : s.lh.length + unused s ≤ LOGSIZE
  commit : CommitInv s

section Sums

/-- One summand of a list without repetitions goes down by one. -/
theorem sum_map_drop {l : List Nat} {f g : Nat → Nat} {a : Nat} (hl : l.Nodup) (ha : a ∈ l)
    (hga : g a + 1 = f a) (hgf : ∀ b, b ≠ a → g b = f b) :
    (l.map g).sum + 1 = (l.map f).sum := by
  induction l with
  | nil => cases ha
  | cons x l ih =>
    obtain ⟨hx, hl⟩ := List.nodup_cons.mp hl
    simp only [List.map_cons, List.sum_cons]
    by_cases hxa : x = a
    · subst hxa
      have hrest : l.map g = l.map f := by
        apply List.map_congr_left
        intro b hb
        apply hgf
        rintro rfl
        exact hx hb
      rw [hrest]
      omega
    · rcases List.mem_cons.mp ha with h | h
      · exact absurd h.symm hxa
      · have := ih hl h
        rw [hgf x hxa]
        omega

theorem sum_map_erase_le (l : List Nat) (f : Nat → Nat) (a : Nat) :
    ((l.erase a).map f).sum ≤ (l.map f).sum := by
  induction l with
  | nil => simp
  | cons x l ih =>
    rw [List.erase_cons]
    split
    · simp
    · simp only [List.map_cons, List.sum_cons]
      omega

end Sums

section Added

/-- A block that is in the header keeps the operation that added it. -/
theorem find_append_old {ws : List Write} {w : Write} {b : Nat} (h : ∃ v ∈ ws, v.block = b) :
    (ws ++ [w]).find? (fun v => decide (v.block = b)) =
      ws.find? (fun v => decide (v.block = b)) := by
  obtain ⟨v, hv, hb⟩ := h
  rw [List.find?_append]
  cases hf : ws.find? (fun v => decide (v.block = b)) with
  | none =>
    have := List.find?_eq_none.mp hf v hv
    simp [hb] at this
  | some u => rfl

theorem find_append_new {ws : List Write} {w : Write} (h : ∀ v ∈ ws, v.block ≠ w.block) :
    (ws ++ [w]).find? (fun v => decide (v.block = w.block)) = some w := by
  rw [List.find?_append]
  have hnone : ws.find? (fun v => decide (v.block = w.block)) = none := by
    apply List.find?_eq_none.mpr
    intro v hv
    simpa using h v hv
  rw [hnone]
  simp

/-- A log_write of a block in the header changes no operation's share. -/
theorem added_absorb (hw : ∀ c ∈ s.lh, ∃ v ∈ s.pending, v.block = c) (w : Write)
    (ht : t.lh = s.lh) (hp : t.pending = s.pending ++ [w]) (op : Nat) :
    added t op = added s op := by
  unfold added
  rw [ht]
  apply List.countP_congr
  intro c hc
  unfold firstOp
  rw [hp, find_append_old (hw c hc)]

/-- A log_write of a new block adds to the share of its operation. -/
theorem added_new (hw : ∀ c ∈ s.lh, ∃ v ∈ s.pending, v.block = c)
    (hl : ∀ v ∈ s.pending, v.block ∈ s.lh) (w : Write) (hnew : w.block ∉ s.lh)
    (ht : t.lh = s.lh ++ [w.block]) (hp : t.pending = s.pending ++ [w]) (op : Nat) :
    added t op = added s op + if w.op = op then 1 else 0 := by
  have hold : s.lh.countP (fun b => decide (firstOp t b = some op)) = added s op := by
    apply List.countP_congr
    intro c hc
    unfold firstOp
    rw [hp, find_append_old (hw c hc)]
  have hfirst : firstOp t w.block = some w.op := by
    unfold firstOp
    rw [hp, find_append_new]
    · rfl
    · rintro v hv heq
      exact hnew (heq ▸ hl v hv)
  have hsplit : added t op = (s.lh ++ [w.block]).countP
      (fun b => decide (firstOp t b = some op)) := by
    rw [← ht]
    rfl
  rw [hsplit, List.countP_append, hold, List.countP_singleton, hfirst]
  simp

theorem unused_le (s : State) : unused s ≤ s.active.length * MAXOPBLOCKS := by
  unfold unused
  induction s.active with
  | nil => simp
  | cons op l ih =>
    simp only [List.map_cons, List.sum_cons, List.length_cons]
    have : (l.length + 1) * MAXOPBLOCKS = l.length * MAXOPBLOCKS + MAXOPBLOCKS := Nat.succ_mul _ _
    omega

end Added

section Steps

theorem Reserved.running (h : Reserved s) {op : Nat} (hop : op ∈ s.active) :
    s.phase = .running := by
  by_contra hne
  rw [h.quiet hne] at hop
  cases hop

theorem Reserved.pinned (h : Reserved s) (hrun : s.phase = .running) : s.pinned = s.lh := by
  have := h.commit
  unfold CommitInv at this
  rwa [hrun] at this

theorem beginOp_reserved (h : Reserved s) (ht : beginOp s = some t) : Reserved t := by
  unfold beginOp at ht
  split at ht
  · cases ht
  · split at ht
    · cases ht
    · rename_i hroom
      push Not at hroom
      obtain ⟨hcommit, hroom⟩ := hroom
      have hrun : s.phase = .running := by
        have hc := h.committing
        have hu := h.up
        cases hs : s.phase <;> simp_all [Phase.inCommit, Phase.recovering]
      have hunused : unused t = (MAXOPBLOCKS - added s s.nextOp) + unused s := by
        cases ht
        rfl
      have hle := unused_le s
      have hmul : (s.active.length + 1) * MAXOPBLOCKS =
          s.active.length * MAXOPBLOCKS + MAXOPBLOCKS := Nat.succ_mul _ _
      rw [h.counted] at hroom
      have hlen : t.lh.length = s.lh.length := by
        cases ht
        rfl
      cases ht
      refine ⟨congrArg (· + 1) h.counted, h.committing, fun hne => absurd hrun hne, h.up, h.nodup,
        ⟨?_, ?_⟩, ?_, h.logged, h.written, by omega, h.commit⟩
      · refine List.nodup_cons.mpr ⟨?_, h.ops.1⟩
        intro hmem
        exact absurd (h.ops.2 _ hmem) (Nat.lt_irrefl _)
      · intro op hop
        rcases List.mem_cons.mp hop with rfl | hop
        · exact Nat.lt_succ_self _
        · exact Nat.lt_succ_of_lt (h.ops.2 op hop)
      · intro w hw
        exact Nat.lt_succ_of_lt (h.earlier w hw)

theorem append_reserved (h : Reserved s) (op : Nat) (c : Call) (hop : op ∈ s.active)
    (hfew : c.block ∉ s.lh → added s op < MAXOPBLOCKS) : Reserved (append s op c) := by
  obtain ⟨b, data, stage⟩ := c
  have hrun := h.running hop
  have hw := h.written hrun
  have hl := h.logged hrun
  have hpins := h.pinned hrun
  have hearlier : ∀ w ∈ s.pending ++ [⟨op, b, data⟩], w.op < s.nextOp := by
    intro w hwm
    rcases List.mem_append.mp hwm with hwm | hwm
    · exact h.earlier w hwm
    · rw [List.mem_singleton.mp hwm]
      exact h.ops.2 op hop
  generalize ht : append s op ⟨b, data, stage⟩ = t
  unfold append at ht
  by_cases hb : b ∈ s.lh
  · simp only [if_pos hb] at ht
    have hadd (o : Nat) : added t o = added s o :=
      added_absorb hw ⟨op, b, data⟩ (by rw [← ht]) (by rw [← ht]) o
    have hactive : t.active = s.active := by rw [← ht]
    have hunused : unused t = unused s := by
      unfold unused
      simp only [hadd, hactive]
    subst ht
    refine ⟨h.counted, h.committing, h.quiet, h.up, h.nodup, h.ops, hearlier, ?_, ?_, ?_, ?_⟩
    · intro _ w hwm
      rcases List.mem_append.mp hwm with hwm | hwm
      · exact hl w hwm
      · rw [List.mem_singleton.mp hwm]
        exact hb
    · intro _ c hc
      obtain ⟨w, hwm, hwc⟩ := hw c hc
      exact ⟨w, List.mem_append_left _ hwm, hwc⟩
    · rw [hunused]
      exact h.room
    · unfold CommitInv
      simp only [hrun, hpins]
  · simp only [if_neg hb] at ht
    have hadd (o : Nat) : added t o = added s o + if op = o then 1 else 0 :=
      added_new hw hl ⟨op, b, data⟩ hb (by rw [← ht]) (by rw [← ht]) o
    have hunused : unused t + 1 = unused s := by
      have hactive : t.active = s.active := by rw [← ht]
      have hfew := hfew hb
      unfold unused
      rw [hactive]
      apply sum_map_drop h.ops.1 hop
      · rw [hadd, if_pos rfl]
        omega
      · intro o ho
        rw [hadd, if_neg (Ne.symm ho), Nat.add_zero]
    have hroom := h.room
    have hlen : t.lh.length = s.lh.length + 1 := by
      rw [← ht]
      simp
    subst ht
    refine ⟨h.counted, h.committing, h.quiet, h.up, ?_, h.ops, hearlier, ?_, ?_, by omega, ?_⟩
    · apply h.nodup.append (List.nodup_singleton b)
      simpa using hb
    · intro _ w hwm
      rcases List.mem_append.mp hwm with hwm | hwm
      · exact List.mem_append_left _ (hl w hwm)
      · rw [List.mem_singleton.mp hwm]
        exact List.mem_append_right _ (by simp)
    · intro _ c hc
      rcases List.mem_append.mp hc with hc | hc
      · obtain ⟨w, hwm, hwc⟩ := hw c hc
        exact ⟨w, List.mem_append_left _ hwm, hwc⟩
      · rw [List.mem_singleton.mp hc]
        exact ⟨⟨op, b, data⟩, List.mem_append_right _ (by simp), rfl⟩
    · unfold CommitInv
      simp only [hrun, hpins]

theorem endOp_reserved (h : Reserved s) (op : Nat) (hop : op ∈ s.active)
    (ht : endOp s op = some t) : Reserved t := by
  have hrun := h.running hop
  have hpins := h.pinned hrun
  have hnd : (s.active.erase op).Nodup := h.ops.1.erase op
  have hlt : ∀ o ∈ s.active.erase op, o < s.nextOp :=
    fun o ho => h.ops.2 o (List.mem_of_mem_erase ho)
  have hlen : s.outstanding - 1 = (s.active.erase op).length := by
    rw [List.length_erase_of_mem hop, h.counted]
  have hroom : s.lh.length + ((s.active.erase op).map (fun o => MAXOPBLOCKS - added s o)).sum ≤
      LOGSIZE := by
    have h1 := h.room
    have h2 := sum_map_erase_le s.active (fun o => MAXOPBLOCKS - added s o) op
    unfold unused at h1
    omega
  unfold endOp at ht
  split at ht
  · cases ht
  · split at ht
    · rename_i hzero
      cases ht
      -- the last operation has ended: the header is written, unless it is empty
      by_cases hn : 0 < s.lh.length
      · simp only [if_pos hn]
        exact ⟨hlen, rfl, fun _ => List.length_eq_zero_iff.mp (hlen ▸ hzero), rfl, h.nodup,
          ⟨hnd, hlt⟩, h.earlier, (by simp), (by simp), hroom, hpins⟩
      · simp only [if_neg hn]
        have hnil : s.lh = [] := List.length_eq_zero_iff.mp (by omega)
        have hpend : s.pending = [] := by
          apply List.eq_nil_iff_forall_not_mem.mpr
          intro w hw
          have := h.logged hrun w hw
          rw [hnil] at this
          cases this
        exact ⟨hlen, rfl, fun _ => List.length_eq_zero_iff.mp (hlen ▸ hzero), rfl, h.nodup,
          ⟨hnd, hlt⟩, h.earlier, (by simp), (by simp), hroom, ⟨hpins.trans hnil, hnil, hpend⟩⟩
    · cases ht
      exact ⟨hlen, h.committing, fun hne => absurd hrun hne, h.up, h.nodup, ⟨hnd, hlt⟩,
        h.earlier, h.logged, h.written, hroom, h.commit⟩

/-- Commit runs without operations, so only the header and the pins matter. -/
theorem reserved_quiet (h : Reserved s) (hne : s.phase ≠ .running) (t : State)
    (ho : t.outstanding = s.outstanding) (ha : t.active = s.active) (hn : t.nextOp = s.nextOp)
    (hc : t.committing = t.phase.inCommit) (hu : t.phase.recovering = false)
    (hlh : t.lh = s.lh ∨ t.lh = []) (hp : t.pending = s.pending ∨ t.pending = [])
    (hw : t.phase = .running → t.lh = [] ∧ t.pending = []) (hcommit : CommitInv t) :
    Reserved t := by
  have hactive : t.active = [] := ha.trans (h.quiet hne)
  have hunused : unused t = 0 := by
    unfold unused
    rw [hactive]
    rfl
  have hle : s.lh.length ≤ LOGSIZE := le_trans (Nat.le_add_right _ _) h.room
  refine ⟨?_, hc, fun _ => hactive, hu, ?_, ?_, ?_, ?_, ?_, ?_, hcommit⟩
  · rw [ho, ha]
    exact h.counted
  · rcases hlh with hlh | hlh <;> rw [hlh]
    · exact h.nodup
    · exact List.nodup_nil
  · rw [ha, hn]
    exact h.ops
  · rcases hp with hp | hp <;> rw [hp, hn]
    · exact h.earlier
    · intro w hw
      cases hw
  · intro hphase w hwm
    rw [(hw hphase).2] at hwm
    cases hwm
  · intro hphase b hb
    rw [(hw hphase).1] at hb
    cases hb
  · rw [hunused]
    rcases hlh with hlh | hlh <;> rw [hlh]
    · exact hle
    · exact Nat.zero_le _

theorem next_reserved (h : Reserved s) (ht : next s = some t) : Reserved t := by
  have hc := h.commit
  have hcommitting := h.committing
  have hup := h.up
  unfold CommitInv at hc
  unfold next at ht
  cases hs : s.phase with
  | running =>
    rw [hs] at ht
    cases ht
  | writeLog tail =>
    simp only [hs] at hc hcommitting ht
    split at ht
    · cases ht
      exact reserved_quiet h (by simp [hs]) _ rfl rfl rfl hcommitting rfl (Or.inl rfl)
        (Or.inl rfl) (by simp) hc
    · cases ht
      exact reserved_quiet h (by simp [hs]) _ rfl rfl rfl hcommitting rfl (Or.inl rfl)
        (Or.inr rfl) (by simp) ⟨hc, rfl⟩
  | install tail =>
    simp only [hs] at hc hcommitting ht
    obtain ⟨hpins, hpend⟩ := hc
    split at ht
    · rename_i b hb
      cases ht
      refine reserved_quiet h (by simp [hs]) _ rfl rfl rfl hcommitting rfl (Or.inl rfl)
        (Or.inl rfl) (by simp) ⟨?_, hpend⟩
      obtain ⟨hlt, hget⟩ := List.getElem?_eq_some_iff.mp hb
      change s.pinned.erase b = s.lh.drop (tail+1)
      rw [hpins, List.drop_eq_getElem_cons hlt, hget, List.erase_cons_head]
    · rename_i hb
      cases ht
      refine reserved_quiet h (by simp [hs]) _ rfl rfl rfl hcommitting rfl (Or.inr rfl)
        (Or.inl rfl) (by simp) ⟨?_, rfl, hpend⟩
      change s.pinned = []
      rw [hpins, List.drop_eq_nil_iff]
      exact List.getElem?_eq_none_iff.mp hb
  | finish =>
    simp only [hs] at hc ht
    cases ht
    exact reserved_quiet h (by simp [hs]) _ rfl rfl rfl rfl rfl (Or.inl rfl) (Or.inl rfl)
      (fun _ => hc.2) (hc.1.trans hc.2.1.symm)
  | boot =>
    rw [hs] at hup
    cases hup
  | recover tail =>
    rw [hs] at hup
    cases hup

/-- A step that only moves a log_write on. -/
theorem calls_reserved (h : Reserved s) (calls : Nat → Option Call) :
    Reserved { s with calls := calls } :=
  ⟨h.counted, h.committing, h.quiet, h.up, h.nodup, h.ops, h.earlier, h.logged, h.written, h.room,
    h.commit⟩

theorem step_reserved (h : Reserved s) (hcalls : Calling s) (e : Event) (hfew : AddsFew s e)
    (ht : step s e = some t) : Reserved t := by
  cases e with
  | beginOp => exact beginOp_reserved h ht
  | logWrite op b data =>
    simp only [step] at ht
    split_ifs at ht
    unfold logWrite at ht
    split_ifs at ht
    cases ht
    exact calls_reserved h _
  | logNext op =>
    obtain ⟨c, hc, ht⟩ := Option.bind_eq_some_iff.mp ht
    rcases advance_cases ht with ⟨stage, rfl⟩ | ⟨hstage, rfl⟩
    · exact calls_reserved h _
    · exact append_reserved h op c (hcalls op c hc).1
        (fun hnew => hfew ((adds_iff hc).mpr ⟨hstage, hnew⟩))
  | endOp op =>
    simp only [step] at ht
    split at ht
    · rename_i hop
      exact endOp_reserved h op hop.1 ht
    · cases ht
  | next => exact next_reserved h ht
  | evict b =>
    simp only [step] at ht
    split at ht
    · cases ht
    · cases ht
      exact ⟨h.counted, h.committing, h.quiet, h.up, h.nodup, h.ops, h.earlier, h.logged,
        h.written, h.room, h.commit⟩
  | crash => exact absurd hfew (by simp [AddsFew])

/-- The log when recover_from_log has returned. -/
def ready (start size : Nat) (disk : Nat → Bytes) : State :=
  { boot start size disk with phase := .running }

theorem ready_reserved (start size : Nat) : Reserved (ready start size disk0) :=
  ⟨rfl, rfl, fun _ => rfl, rfl, List.nodup_nil, ⟨List.nodup_nil, by simp [ready, boot]⟩,
    by simp [ready, boot], by simp [ready, boot], by simp [ready, boot],
    by simp [ready, boot, unused], rfl⟩

theorem ready_calling (start size : Nat) : Calling (ready start size disk0) := by
  intro op c hc
  cases hc

end Steps

/-- In every interleaving in which no operation adds more than MAXOPBLOCKS blocks: while a
commit is going on no operation is, and none starts; end_op does not panic; the blocks of the
header are different; the header and what is reserved fit in the log; and outside of a commit
the pins are the blocks of the header, once each. -/
theorem log_invariant (start size : Nat) (disk0 : Nat → Bytes) (es : List Event) (s : State)
    (hg : Guarded step AddsFew (ready start size disk0) es)
    (hr : run step (ready start size disk0) es = some s) :
    (s.committing = true → s.outstanding = 0 ∧ s.active = [] ∧ beginOp s = none) ∧
      (∀ op ∈ s.active, endOp s op ≠ none) ∧ s.lh.Nodup ∧ s.lh.length + unused s ≤ LOGSIZE ∧
      (s.committing = false → ∀ b, s.pinned.count b = if b ∈ s.lh then 1 else 0) := by
  have h : Reserved s := (guarded_run_invariant step AddsFew (fun s => Reserved s ∧ Calling s)
    (fun s e t hs hfew ht => ⟨step_reserved hs.1 hs.2 e hfew ht, step_calling hs.2 e ht⟩) _ _ es
    ⟨ready_reserved start size, ready_calling start size⟩ hg hr).1
  refine ⟨?_, ?_, h.nodup, h.room, ?_⟩
  · intro hc
    have hne : s.phase ≠ .running := by
      intro hrun
      rw [h.committing, hrun] at hc
      cases hc
    have hactive := h.quiet hne
    refine ⟨by rw [h.counted, hactive]; rfl, hactive, ?_⟩
    unfold beginOp
    rw [if_neg (by rw [h.up]; simp), if_pos (Or.inl hc)]
  · intro op hop
    have hc : s.committing = false := by
      rw [h.committing, h.running hop]
      rfl
    unfold endOp
    rw [hc]
    split
    · simp_all
    · split <;> simp
  · intro hc b
    have hrun : s.phase = .running := by
      have hcm := h.committing
      have hu := h.up
      cases hs : s.phase <;> simp_all [Phase.inCommit, Phase.recovering]
    rw [h.pinned hrun]
    exact List.Nodup.count h.nodup

section Panics

/-- The blocks that operation `op` has passed to log_write. -/
def opBlocks (s : State) (op : Nat) : List Nat :=
  (s.pending.filter (fun w => decide (w.op = op))).map Write.block

/-- No operation passes more than MAXOPBLOCKS different blocks to log_write; the machine does
not crash. -/
def FewBlocks (s : State) : Event → Prop
  | .logWrite op b _ => (opBlocks s op ++ [b]).dedup.length ≤ MAXOPBLOCKS
  | .crash => False
  | _ => True

instance (s : State) (e : Event) : Decidable (FewBlocks s e) := by
  cases e <;> unfold FewBlocks <;> infer_instance

/-- The calls of log_write that are going on keep to this too. -/
def CallsFew (s : State) : Prop :=
  ∀ op c, s.calls op = some c → (opBlocks s op ++ [c.block]).dedup.length ≤ MAXOPBLOCKS

/-- How many different blocks the operations have added since the last commit. -/
def groupBlocks (s : State) : Nat := (s.pending.map Write.block).dedup.length

/-- How many blocks a test of log_write lets through. -/
def limit (s : State) : Stage → Option Nat
  | .logsize => some LOGSIZE
  | .size => some (s.size - 1)
  | .outstanding | .append => none

/-- The first test of a log_write finds less than LOGSIZE blocks added, and the second less than
the log has room for. -/
def HasRoom (s : State) : Event → Prop
  | .logNext op =>
    (s.calls op).all (fun c => (limit s c.stage).all (fun n => groupBlocks s < n)) = true
  | _ => True

/-- A log_write that goes on does not panic. -/
def NoPanic (s : State) : Event → Prop
  | .logNext op => (s.calls op).all (fun c => (advance s op c).isSome) = true
  | _ => True

instance (s : State) (e : Event) : Decidable (HasRoom s e) := by
  cases e <;> unfold HasRoom <;> infer_instance

instance (s : State) (e : Event) : Decidable (NoPanic s e) := by
  cases e <;> unfold NoPanic <;> infer_instance

theorem added_lt_of_few (h : Reserved s) {op b : Nat} (hb : b ∉ s.lh)
    (hfew : (opBlocks s op ++ [b]).dedup.length ≤ MAXOPBLOCKS) : added s op < MAXOPBLOCKS := by
  have hnodup : (s.lh.filter (fun c => decide (firstOp s c = some op)) ++ [b]).Nodup := by
    apply (h.nodup.filter _).append (List.nodup_singleton b)
    simp [hb]
  have hsub : s.lh.filter (fun c => decide (firstOp s c = some op)) ++ [b] ⊆
      (opBlocks s op ++ [b]).dedup := by
    intro c hc
    rw [List.mem_dedup]
    rcases List.mem_append.mp hc with hc | hc
    · apply List.mem_append_left
      obtain ⟨-, hfirst⟩ := List.mem_filter.mp hc
      rw [decide_eq_true_eq] at hfirst
      unfold firstOp at hfirst
      obtain ⟨w, hw, hwo⟩ := Option.map_eq_some_iff.mp hfirst
      have hwb : w.block = c := by simpa using List.find?_some hw
      unfold opBlocks
      rw [List.mem_map]
      exact ⟨w, List.mem_filter.mpr ⟨List.mem_of_find?_eq_some hw, by simp [hwo]⟩, hwb⟩
    · exact List.mem_append_right _ hc
  have hle := (List.subperm_of_subset hnodup hsub).length_le
  rw [List.length_append, List.length_singleton] at hle
  unfold added
  rw [List.countP_eq_length_filter]
  omega

theorem CallsFew.addsFew (h : Reserved s) (hcalls : CallsFew s) (e : Event)
    (hfew : FewBlocks s e) : AddsFew s e := by
  cases e with
  | logNext op =>
    intro hadds
    cases hc : s.calls op with
    | none => simp [adds, hc] at hadds
    | some c => exact added_lt_of_few h ((adds_iff hc).mp hadds).2 (hcalls op c hc)
  | crash => exact hfew
  | _ => trivial

/-- Operations append blocks of their own only, and commits run without calls. -/
theorem step_callsFew (h : Reserved s) (hcalls : Calling s) (hf : CallsFew s) (e : Event)
    (hfew : FewBlocks s e) (ht : step s e = some t) : CallsFew t := by
  cases e with
  | beginOp =>
    simp only [step] at ht
    unfold beginOp at ht
    split_ifs at ht
    cases ht
    exact hf
  | logWrite op b data =>
    simp only [step] at ht
    split_ifs at ht
    unfold logWrite at ht
    split_ifs at ht
    cases ht
    -- the call is new and its block is one of the few
    intro o c ho
    by_cases hop : o = op
    · rw [hop] at ho ⊢
      simp only [Function.update_self, Option.some.injEq] at ho
      rw [← ho]
      exact hfew
    · simp only [Function.update_of_ne hop] at ho
      exact hf o c ho
  | logNext op =>
    obtain ⟨c, hc, ht⟩ := Option.bind_eq_some_iff.mp ht
    rcases advance_cases ht with ⟨stage, rfl⟩ | ⟨-, rfl⟩
    · intro o d ho
      by_cases hop : o = op
      · rw [hop] at ho ⊢
        simp only [State.atStage, Function.update_self, Option.some.injEq] at ho
        rw [← ho]
        exact hf op c hc
      · simp only [State.atStage, Function.update_of_ne hop] at ho
        exact hf o d ho
    · intro o d ho
      by_cases hop : o = op
      · -- the call returns
        rw [hop] at ho
        simp only [append, Function.update_self] at ho
        cases ho
      · simp only [append, Function.update_of_ne hop] at ho
        have hsame : opBlocks (append s op c) o = opBlocks s o := by
          unfold opBlocks append
          simp only [List.filter_append, List.filter_cons, List.filter_nil]
          rw [if_neg (by simpa using Ne.symm hop), List.append_nil]
        rw [hsame]
        exact hf o d ho
  | endOp op =>
    simp only [step] at ht
    split_ifs at ht
    unfold endOp at ht
    split_ifs at ht <;> cases ht <;> exact hf
  | next =>
    -- commit runs only when no operation does, so no call is going on
    have hne : s.phase ≠ .running := by
      intro hrun
      simp only [step, next, hrun] at ht
      cases ht
    intro o c ho
    have hsame : t.calls = s.calls := by
      simp only [step] at ht
      unfold next at ht
      split at ht
      · cases ht
      all_goals
        first
        | split at ht <;> cases ht <;> rfl
        | cases ht; rfl
    rw [hsame] at ho
    have hact := (hcalls o c ho).1
    rw [h.quiet hne] at hact
    cases hact
  | evict b =>
    simp only [step] at ht
    split_ifs at ht
    cases ht
    exact hf
  | crash => exact absurd hfew (by simp [FewBlocks])

/-- The header lists the blocks of the group. -/
theorem groupBlocks_eq (h : Reserved s) (hrun : s.phase = .running) :
    groupBlocks s = s.lh.length := by
  apply List.Perm.length_eq
  apply (List.perm_ext_iff_of_nodup (List.nodup_dedup _) h.nodup).mpr
  intro b
  rw [List.mem_dedup, List.mem_map]
  constructor
  · rintro ⟨w, hw, rfl⟩
    exact h.logged hrun w hw
  · exact h.written hrun b

/-- A test lets a call go on when the header is below its limit. -/
theorem advance_isSome (hpos : ¬s.outstanding < 1) (op : Nat) (c : Call) :
    (advance s op c).isSome = (limit s c.stage).all (fun n => s.lh.length < n) := by
  unfold advance limit
  cases c.stage with
  | logsize | size =>
    simp only [Option.all_some]
    split_ifs with hfull
    · exact (decide_eq_false (Nat.not_lt_of_le hfull)).symm
    · exact (decide_eq_true (Nat.lt_of_not_le hfull)).symm
  | outstanding =>
    simp only [if_neg hpos]
    rfl
  | append => rfl

theorem noPanic_iff (h : Reserved s) (hcalls : Calling s) (e : Event) :
    NoPanic s e ↔ HasRoom s e := by
  cases e with
  | logNext op =>
    simp only [NoPanic, HasRoom]
    cases hc : s.calls op with
    | none => exact Iff.rfl
    | some c =>
      have hop := (hcalls op c hc).1
      have hpos : ¬s.outstanding < 1 := by
        rw [h.counted]
        have := List.length_pos_of_mem hop
        omega
      rw [Option.all_some, Option.all_some, advance_isSome hpos, groupBlocks_eq h (h.running hop)]
  | _ => exact Iff.rfl

end Panics

/-- In every interleaving of operations that log at most MAXOPBLOCKS different blocks each,
log_write panics nowhere exactly when its first test finds less than LOGSIZE different blocks
added since the last commit, and its second test less than nlog - 1, in each call. -/
theorem log_write_panic_free_iff (start size : Nat) (disk0 : Nat → Bytes) (es : List Event)
    (hg : Guarded step FewBlocks (ready start size disk0) es) :
    Guarded step NoPanic (ready start size disk0) es ↔
      Guarded step HasRoom (ready start size disk0) es := by
  have hstep (s : State) (e : Event) (t : State) (h : Reserved s ∧ Calling s ∧ CallsFew s)
      (hfew : FewBlocks s e) (ht : step s e = some t) : Reserved t ∧ Calling t ∧ CallsFew t :=
    ⟨step_reserved h.1 h.2.1 e (h.2.2.addsFew h.1 e hfew) ht, step_calling h.2.1 e ht,
      step_callsFew h.1 h.2.1 h.2.2 e hfew ht⟩
  have hready : Reserved (ready start size disk0) ∧ Calling (ready start size disk0) ∧
      CallsFew (ready start size disk0) :=
    ⟨ready_reserved start size, ready_calling start size, fun op c hc => by cases hc⟩
  constructor
  · exact guarded_imp step FewBlocks NoPanic HasRoom _ hstep
      (fun s e h _ => (noPanic_iff h.1 h.2.1 e).mp) _ es hready hg
  · exact guarded_imp step FewBlocks HasRoom NoPanic _ hstep
      (fun s e h _ => (noPanic_iff h.1 h.2.1 e).mpr) _ es hready hg

/-- Two operations log the same blocks and commit together. -/
def sharedBlocks : List Event :=
  [.beginOp, .beginOp] ++ logged 0 100 (fun _ => 1) ++ logged 1 100 (fun _ => 2) ++
    logged 1 101 (fun _ => 3) ++ [.endOp 0, .endOp 1]

theorem log_invariant_sharedBlocks :
    ∃ s, run step (ready 2 30 (fun _ _ => 0)) sharedBlocks = some s ∧ s.committing = true ∧
      s.outstanding = 0 ∧ beginOp s = none ∧ s.lh.length + unused s ≤ LOGSIZE := by
  have hrun : (run step (ready 2 30 (fun _ _ => 0)) sharedBlocks).map State.committing =
      some true := by
    decide +kernel
  obtain ⟨s, hs, hc⟩ := Option.map_eq_some_iff.mp hrun
  obtain ⟨hcommit, -, -, hroom, -⟩ := log_invariant 2 30 (fun _ _ => 0) sharedBlocks s
    (by decide +kernel) hs
  exact ⟨s, hs, hc, (hcommit hc).1, (hcommit hc).2.2, hroom⟩

theorem log_write_panic_free_iff_sharedBlocks :
    Guarded step NoPanic (ready 2 30 (fun _ _ => 0)) sharedBlocks :=
  (log_write_panic_free_iff 2 30 (fun _ _ => 0) sharedBlocks (by decide +kernel)).mpr
    (by decide +kernel)

/-- Three operations log ten blocks each. -/
def thirtyBlocks : List Event :=
  [.beginOp, .beginOp, .beginOp] ++
    (List.range 30).flatMap (fun i => logged (i / 10) (100 + i) (fun _ => 0))

/-- With nlog = LOGSIZE the thirtieth block panics; with a larger log, logging one of the
thirty blocks again does. -/
theorem full_log_panics :
    (Guarded step FewBlocks (ready 2 30 (fun _ _ => 0)) thirtyBlocks ∧
      ¬Guarded step NoPanic (ready 2 30 (fun _ _ => 0)) thirtyBlocks) ∧
    (Guarded step FewBlocks (ready 2 31 (fun _ _ => 0))
        (thirtyBlocks ++ logged 0 100 (fun _ => 1)) ∧
      ¬Guarded step NoPanic (ready 2 31 (fun _ _ => 0))
        (thirtyBlocks ++ logged 0 100 (fun _ => 1))) := by
  decide +kernel

end Xv6Labs.Log
