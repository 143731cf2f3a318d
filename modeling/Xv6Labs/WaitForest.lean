import Xv6Labs.WaitRuns

/-! The processes are a tree: a parent always has a smaller pid than its children, is neither
being made nor gone, and init is at the root. -/
namespace Xv6Labs.Wait

variable {N M : Nat}

/-- The `int` of proc.c that counts as the pid does. -/
def Proc.intPid (q : Proc N) : Int := Int.bmod q.pid (2 ^ 32)

theorem Proc.intPid_eq {q : Proc N} (h : q.pid < 2 ^ 31) : q.intPid = q.pid := by
  unfold Proc.intPid
  rw [Int.bmod_eq_of_le] <;> omega

/-- Parents are older than their children, and init is older than all. -/
structure Forest [NeZero N] (x : Table N) : Prop where
  older : ∀ c p, (x.procs c).parent = some p → (x.procs p).pid < (x.procs c).pid
  young : ∀ p np, x.task p = .link np → (x.procs p).pid < (x.procs np).pid
  later : ∀ p, (x.procs p).state ≠ .unused → p ≠ 0 → 1 < (x.procs p).pid

section Steps

variable [NeZero N] {x y : Table N} {p : Fin N}

theorem TraceInv.nextpid_pos (h : TableInv x) (ht : TraceInv x) : 1 < x.nextpid := by
  have hlive := ht.live 0 h.root.1
  rw [ht.rootPid] at hlive
  exact hlive

theorem Act.older (h : TableInv x) (ht : TraceInv x) (hf : Forest x) (ha : Act x p y)
    (c r : Fin N) (hparent : (y.procs c).parent = some r) :
    (y.procs r).pid < (y.procs c).pid := by
  have hroot := ht.rootPid
  have hnone := h.root.2.2.2.1
  have horphan := h.orphan
  have hchild := h.childless
  have hlink := h.link
  have holder := hf.older
  have hyoung := hf.young
  have hlater := hf.later
  cases ha <;> simp only [Table.at_procs, Table.set_procs, Table.note_procs,
    Function.update_apply] at hparent ⊢ <;> grind -linarith -order

theorem Act.young (h : TableInv x) (ht : TraceInv x) (hf : Forest x)
    (hp : (x.procs p).state = .running) (ha : Act x p y) (r np : Fin N)
    (hr : y.task r = .link np) : (y.procs r).pid < (y.procs np).pid := by
  have hends := h.ends
  have hheir := h.heir
  have hlink := h.link
  have hlive := ht.live
  have hyoung := hf.young
  cases ha <;> simp only [Table.at_procs, Table.at_task, Table.set_procs, Table.set_task,
    Table.note_procs, Table.note_task, Function.update_apply] at hr ⊢ <;>
    grind -linarith -order

theorem Act.later (h : TableInv x) (ht : TraceInv x) (hf : Forest x)
    (hp : (x.procs p).state = .running) (ha : Act x p y) (r : Fin N)
    (hr : (y.procs r).state ≠ .unused) (h0 : r ≠ 0) : 1 < (y.procs r).pid := by
  have hnext := ht.nextpid_pos h
  have hlink := h.link
  have hstart := h.start
  have hlater := hf.later
  cases ha <;> simp only [Table.at_procs, Table.set_procs, Table.note_procs,
    Function.update_apply] at hr ⊢ <;> grind -linarith -order

theorem Forest.set_awake (hf : Forest x) (i : Fin N) (q : Proc N)
    (hparent : q.parent = (x.procs i).parent) (hpid : q.pid = (x.procs i).pid)
    (hq : q.state = .unused ↔ (x.procs i).state = .unused) : Forest (x.set i q) := by
  have hparents : ∀ c, ((x.set i q).procs c).parent = (x.procs c).parent := by
    intro c
    rw [Table.set_procs]
    by_cases hc : c = i
    · rw [hc, Function.update_self, hparent]
    · rw [Function.update_of_ne hc]
  have hpids : ∀ c, ((x.set i q).procs c).pid = (x.procs c).pid := by
    intro c
    rw [Table.set_procs]
    by_cases hc : c = i
    · rw [hc, Function.update_self, hpid]
    · rw [Function.update_of_ne hc]
  have hlive : ∀ c, ((x.set i q).procs c).state = .unused ↔ (x.procs c).state = .unused := by
    intro c
    rw [Table.set_procs]
    by_cases hc : c = i
    · rw [hc, Function.update_self, hq]
    · rw [Function.update_of_ne hc]
  refine ⟨?_, ?_, ?_⟩
  · intro c r hc
    rw [hparents] at hc
    rw [hpids, hpids]
    exact hf.older c r hc
  · intro r np hr
    rw [hpids, hpids]
    exact hf.young r np hr
  · intro r hr h0
    rw [hpids]
    exact hf.later r (fun he => hr ((hlive r).mpr he)) h0

theorem Forest.move (hf : Forest x) (h : TableInv x) (ht : TraceInv x) (hm : Move x y) :
    Forest y := by
  cases hm with
  | act p y hp ha => exact ⟨ha.older h ht hf, ha.young h ht hf hp, ha.later h ht hf hp⟩
  | dispatch i hi =>
    refine hf.set_awake i _ rfl rfl ?_
    rw [hi]
    simp
  | device i n =>
    refine hf.set_awake i _ (Proc.wake_parent _ _) ?_ ?_ <;> unfold Proc.wake <;> split_ifs with hs
    · rfl
    · rfl
    · rw [hs.1]
      simp
    · exact Iff.rfl

end Steps

section Tree

variable [NeZero N]

/-- Process `c` comes from init: it is init, or its parent comes from init and may have
children, as it has been started and has not exited. -/
inductive State.Descends (s : State N M) : Fin N → Prop
  | init : s.Descends 0
  | child (c p : Fin N) (hp : (s.procs c).parent = some p) (hstate : (s.procs p).state = .sleeping ∨
      (s.procs p).state = .runnable ∨ (s.procs p).state = .running) (h : s.Descends p) :
      s.Descends c

omit [NeZero N] in
theorem started_cases (q : Proc N) (hu : q.state ≠ .unused) (hm : q.state ≠ .used)
    (hz : q.state ≠ .zombie) :
    q.state = .sleeping ∨ q.state = .runnable ∨ q.state = .running := by
  cases hs : q.state with
  | unused => exact absurd hs hu
  | used => exact absurd hs hm
  | zombie => exact absurd hs hz
  | sleeping => exact Or.inl rfl
  | runnable => exact Or.inr (Or.inl rfl)
  | running => exact Or.inr (Or.inr rfl)

theorem Forest.descends {s : State N M} (hf : Forest s.table) (h : TableInv s.table)
    (ht : TraceInv s.table) (c : Fin N) (hu : (s.procs c).state ≠ .unused)
    (hm : (s.procs c).state ≠ .used) : s.Descends c := by
  -- by induction on the pid, as parents are older
  induction hk : (s.procs c).pid using Nat.strong_induction_on generalizing c with
  | _ k ih =>
    rcases ht.recorded c hu with ⟨-, h0, -⟩ | ⟨r, q, hparent, -⟩
    · rw [h0 hm]
      exact .init
    · have hlt : (s.procs r).pid < (s.procs c).pid := hf.older c r hparent
      have hno := fun hr => h.childless r hr c hparent
      have hr := started_cases (s.procs r) (fun he => hno (Or.inl he))
        (fun he => hno (Or.inr (Or.inl he))) (fun he => hno (Or.inr (Or.inr he)))
      refine .child c r hparent hr (ih (s.procs r).pid (hk ▸ hlt) r ?_ ?_ rfl)
      · rintro he
        rw [he] at hr
        simp at hr
      · rintro he
        rw [he] at hr
        simp at hr

/-- Before `nextpid` overflows, every pid fits into an `int`. -/
theorem pid_fits {s : State N M} (h : TraceInv s.table) (hcount : s.nextpid < 2 ^ 31) (p : Fin N)
    (hu : (s.procs p).state ≠ .unused) : (s.procs p).pid < 2 ^ 31 :=
  (h.live p hu).trans hcount

/-- In every state that the kernel reaches before `nextpid` overflows, processes in use have
different pids, a process runs on one CPU at most, a parent is older than its children, and every
process that has been started comes from init through parents that have not exited. -/
theorem processes_tree (es : List (Fin M × Choice)) (s : State N M)
    (hr : run step boot es = some s) (hcount : s.nextpid < 2 ^ 31) :
    (∀ p q, (s.procs p).state ≠ .unused → (s.procs q).state ≠ .unused →
      (s.procs p).intPid = (s.procs q).intPid → p = q) ∧
    (∀ c d p, s.cpu c = .running p → s.cpu d = .running p → c = d) ∧
    (∀ c p, (s.procs c).parent = some p → (s.procs p).intPid < (s.procs c).intPid) ∧
    ∀ c, (s.procs c).state ≠ .unused → (s.procs c).state ≠ .used → s.Descends c := by
  have h : KernelInv s ∧ Forest s.table := by
    refine run_invariant step (fun s => KernelInv s ∧ Forest s.table) ?_ boot s es ?_ hr
    · rintro s e t ⟨h, hf⟩ ht
      refine ⟨h.step ht, ?_⟩
      rcases step_table h.threads ht with heq | hm
      · exact heq ▸ hf
      · exact hf.move h.table h.trace hm
    · refine ⟨boot_inv, ?_, ?_, ?_⟩
      · intro c p hc
        rw [boot_procs] at hc
        split_ifs at hc <;> cases hc
      · intro p np hp
        rw [boot_task] at hp
        split_ifs at hp
      · intro p hp h0
        rw [boot_procs, if_neg h0] at hp
        exact absurd rfl hp
  refine ⟨?_, h.1.threads.one, ?_, h.2.descends h.1.table h.1.trace⟩
  · intro p q hp hq hpid
    rw [Proc.intPid_eq (pid_fits h.1.trace hcount p hp),
      Proc.intPid_eq (pid_fits h.1.trace hcount q hq)] at hpid
    exact h.1.trace.inj p q hp hq (Int.ofNat.inj hpid)
  · intro c p hparent
    have hc : (s.procs c).state ≠ .unused := by
      intro hunused
      have hnone : (s.procs c).parent = none := h.1.table.orphan c hunused
      rw [hnone] at hparent
      cases hparent
    have hfits := pid_fits h.1.trace hcount c hc
    have holder : (s.procs p).pid < (s.procs c).pid := h.2.older c p hparent
    rw [Proc.intPid_eq hfits, Proc.intPid_eq (holder.trans hfits)]
    exact Int.ofNat_lt.mpr holder

theorem orphanRun_nextpid :
    (run step (boot : State 3 1) orphanRun).map State.nextpid = some 4 := by
  decide +kernel

theorem processes_tree_orphanRun : ∃ s : State 3 1, run step boot orphanRun = some s ∧
    (s.procs 2).parent = some 0 ∧ s.Descends 2 := by
  obtain ⟨s, hs, hd⟩ := Option.map_eq_some_iff.mp orphanRun_zombie
  obtain ⟨-, hparent, hz⟩ := of_decide_eq_true hd
  have hpids := orphanRun_nextpid
  rw [hs] at hpids
  have hcount : s.nextpid < 2 ^ 31 := by
    rw [Option.some.inj hpids]
    omega
  refine ⟨s, hs, hparent, (processes_tree orphanRun s hs hcount).2.2.2 2 ?_ ?_⟩ <;>
    rw [hz] <;> simp

end Tree

end Xv6Labs.Wait
