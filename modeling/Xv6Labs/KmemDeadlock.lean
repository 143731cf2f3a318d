import Xv6Labs.KmemOwnership
import Mathlib.Data.Fintype.EquivFin

/-! Who waits for whose lock in the per-CPU allocator. A CPU that steals keeps its own lock while
it goes for another; two CPUs that steal from each other wait forever. -/
namespace Xv6Labs.Kmem

variable {N : Nat} {s t : State N} {c d : Fin N}

section Locks

/-- The lock that a CPU spins for. -/
def PC.spins (c : Fin N) : PC N → Option (Fin N)
  | .allocAcquire | .allocReacquire _ | .freeAcquire _ => some c
  | .scanAcquire i _ => some i
  | _ => none

/-- The CPU that a CPU steals from. -/
def PC.victim : PC N → Option (Fin N)
  | .scanAcquire i _ | .scanMiss i | .walkInit i _ | .walkTest i _ _ _ | .walkSlow i _ _ _
  | .walkFast i _ _ _ | .splitRead i _ _ | .splitHead i _ _ _ | .splitCut i _ _
  | .splitRelease i _ => some i
  | _ => none

/-- The loop of kalloc may still go for the lock of CPU `j`. -/
def PC.comes : PC N → Nat → Bool
  | .scan i, j => decide (i ≤ j)
  | .scanAcquire i _, j => decide (i ≤ j)
  | .scanMiss i, j => decide (i < j)
  | _, _ => false

/-- The loop of kalloc has not come to an end. -/
def PC.scanning : PC N → Bool
  | .scan _ | .scanAcquire .. | .scanMiss _ => true
  | _ => false

/-- The loop does not begin between `p` and `q`. -/
structure Narrows (p q : PC N) : Prop where
  comes : ∀ j, q.comes j = true → p.comes j = true
  scanning : q.scanning = true → p.scanning = true

/-- The locks are with the CPUs that have taken them, and no CPU steals from itself. -/
structure LockInv (s : State N) : Prop where
  agree : Agree s.lock (fun c => (s.pc c).locks c)
  other : ∀ c, (s.pc c).victim ≠ some c

/-- What a step of CPU `c` does with the locks. -/
inductive Move (s : State N) (c : Fin N) (t : State N) : Prop where
  /-- no lock is taken or given, and no victim chosen -/
  | keep (q : PC N) (hpc : t.pc = Function.update s.pc c q) (hlock : t.lock = s.lock)
      (hlocks : q.locks c = (s.pc c).locks c)
      (hvictim : q.victim = none ∨ q.victim = (s.pc c).victim) (hnarrows : Narrows (s.pc c) q)
  /-- the loop of kalloc goes for the lock of CPU `i` -/
  | aim (i r : Nat) (hi : i < N) (hpc : s.pc c = .scan i) (hne : i ≠ c)
      (ht : t = s.goto c (.scanAcquire ⟨i, hi⟩ r))
  | acquire (i : Fin N) (q : PC N) (hpc : t.pc = Function.update s.pc c q)
      (hfree : s.lock i = none) (hlock : t.lock = Function.update s.lock i (some c))
      (hlocks : ∀ j, j ∈ q.locks c ↔ j = i ∨ j ∈ (s.pc c).locks c)
      (hvictim : q.victim = none ∨ q.victim = (s.pc c).victim)
      (hnarrows : s.pc c ≠ .allocReacquire 0 → Narrows (s.pc c) q)
  | release (i : Fin N) (q : PC N) (hpc : t.pc = Function.update s.pc c q)
      (hlock : t.lock = Function.update s.lock i none)
      (hlocks : ∀ j, j ∈ (s.pc c).locks c ↔ j = i ∨ j ∈ q.locks c) (hi : i ∉ q.locks c)
      (hvictim : q.victim = none) (hnarrows : Narrows (s.pc c) q)

/-- A step to a place outside the loop. -/
theorem narrows_out {p q : PC N} (hcomes : ∀ j, q.comes j = false) (hscan : q.scanning = false) :
    Narrows p q := by
  constructor
  · intro j hj
    rw [hcomes] at hj
    cases hj
  · intro hq
    rw [hscan] at hq
    cases hq

/-- A step of the loop goes up the CPUs. -/
theorem narrows_scan (i : Nat) : Narrows (.scan i : PC N) (.scan (i + 1)) := by
  refine ⟨fun j hj => ?_, fun _ => rfl⟩
  simp only [PC.comes, decide_eq_true_eq] at hj ⊢
  omega

theorem narrows_miss (i : Fin N) (r : Nat) : Narrows (.scanAcquire i r) (.scanMiss i) := by
  refine ⟨fun j hj => ?_, fun _ => rfl⟩
  simp only [PC.comes, decide_eq_true_eq] at hj ⊢
  omega

theorem narrows_next (i : Fin N) : Narrows (.scanMiss i) (.scan (i + 1)) := by
  refine ⟨fun j hj => ?_, fun _ => rfl⟩
  simp only [PC.comes, decide_eq_true_eq] at hj ⊢
  omega

theorem advance_move (h : LockInv s) (ht : advance s c = some t) : Move s c t := by
  have hother := h.other c
  unfold advance at ht
  cases hpc : s.pc c with
  | idle =>
    rw [hpc] at ht
    cases ht
  | allocAcquire =>
    simp only [hpc] at ht
    obtain ⟨hl, rfl⟩ := acquire_map ht
    exact .acquire c _ rfl hl rfl (by simp [PC.locks, hpc]) (Or.inl rfl)
      (fun _ => narrows_out (fun _ => rfl) rfl)
  | allocReacquire r =>
    simp only [hpc] at ht
    obtain ⟨hl, rfl⟩ := acquire_map ht
    refine .acquire c _ rfl hl rfl ?_ ?_ ?_
    · split_ifs <;> simp [PC.locks, hpc]
    · split_ifs <;> exact Or.inl rfl
    · intro hne
      split_ifs with hr
      · exact absurd (hr ▸ hpc) hne
      · exact narrows_out (fun _ => rfl) rfl
  | scan i =>
    simp only [hpc] at ht
    split_ifs at ht with hi hic
    · cases ht
      exact .keep _ rfl rfl (by simp [PC.locks, hpc]) (Or.inl rfl) (hpc ▸ narrows_scan i)
    · cases ht
      exact .aim i _ hi hpc hic rfl
    · cases ht
      exact .keep _ rfl rfl (by simp [PC.locks, hpc]) (Or.inl rfl)
        (narrows_out (fun _ => rfl) rfl)
  | scanAcquire i r1 =>
    simp only [hpc] at ht
    obtain ⟨hl, rfl⟩ := acquire_map ht
    refine .acquire i _ rfl hl rfl ?_ ?_ ?_
    · intro j
      split_ifs <;> simp [PC.locks, hpc, or_comm]
    · rw [hpc]
      split_ifs <;> exact Or.inr rfl
    · intro _
      rw [hpc]
      split_ifs
      · exact narrows_out (fun _ => rfl) rfl
      · exact narrows_miss i r1
  | scanMiss i =>
    simp only [hpc] at ht
    cases ht
    rw [hpc] at hother
    have hne : i ≠ c := fun heq => hother (congrArg some heq)
    exact .release i _ rfl rfl (by simp [PC.locks, hpc, or_comm]) (by simpa [PC.locks] using hne)
      rfl (hpc ▸ narrows_next i)
  | splitRelease i r =>
    simp only [hpc] at ht
    cases ht
    rw [hpc] at hother
    have hne : i ≠ c := fun heq => hother (congrArg some heq)
    exact .release i _ rfl rfl (by simp [PC.locks, hpc, or_comm]) (by simpa [PC.locks] using hne)
      rfl (narrows_out (fun _ => rfl) rfl)
  | allocRelease r | allocFinish r | freeRelease =>
    simp only [hpc] at ht
    cases ht
    exact .release c _ rfl rfl (by simp [PC.locks, hpc]) (by simp [PC.locks]) rfl
      (narrows_out (fun _ => rfl) rfl)
  | freeAcquire pa =>
    simp only [hpc] at ht
    obtain ⟨hl, rfl⟩ := acquire_map ht
    exact .acquire c _ rfl hl rfl (by simp [PC.locks, hpc]) (Or.inl rfl)
      (fun _ => narrows_out (fun _ => rfl) rfl)
  | allocRead =>
    simp only [hpc] at ht
    cases ht
    refine .keep _ rfl rfl ?_ ?_ ?_
    · split_ifs <;> simp [PC.locks, hpc]
    · split_ifs <;> exact Or.inl rfl
    · split_ifs <;> exact narrows_out (fun _ => rfl) rfl
  | walkTest i r r1 r2 =>
    simp only [hpc] at ht
    split_ifs at ht <;>
    · cases ht
      exact .keep _ rfl rfl (by simp [PC.locks, hpc]) (Or.inr (by rw [hpc]; rfl))
        (narrows_out (fun _ => rfl) rfl)
  | walkSlow i r r1 r2 =>
    simp only [hpc] at ht
    split_ifs at ht <;>
    · cases ht
      exact .keep _ rfl rfl (by simp [PC.locks, hpc]) (Or.inr (by rw [hpc]; rfl))
        (narrows_out (fun _ => rfl) rfl)
  | allocReturn r =>
    simp only [hpc] at ht
    split_ifs at ht <;>
    · cases ht
      exact .keep _ rfl rfl (by simp [PC.locks, hpc]) (Or.inl rfl)
        (narrows_out (fun _ => rfl) rfl)
  | walkInit i r | walkFast i r r1 r2 | splitRead i r r1 | splitHead i r r1 v | splitCut i r r1 =>
    simp only [hpc] at ht
    cases ht
    exact .keep _ rfl rfl (by simp [PC.locks, hpc]) (Or.inr (by rw [hpc]; rfl))
      (narrows_out (fun _ => rfl) rfl)
  | allocNext r | allocPop r v | takeRead r | takeHead r v | freeRead pa | freeStore pa v
  | freePush pa =>
    simp only [hpc] at ht
    cases ht
    exact .keep _ rfl rfl (by simp [PC.locks, hpc]) (Or.inl rfl) (narrows_out (fun _ => rfl) rfl)

/-- A step of the system is a step of one CPU, or a page's owner writes to it. -/
theorem step_move (h : LockInv s) {e : Event N} (ht : step s e = some t) :
    (∃ c, Move s c t) ∨ (t.pc = s.pc ∧ t.lock = s.lock) := by
  cases e with
  | kalloc c =>
    simp only [step] at ht
    split_ifs at ht with hpc
    cases ht
    exact Or.inl ⟨c, .keep _ rfl rfl (by simp [PC.locks, hpc]) (Or.inl rfl)
      (narrows_out (fun _ => rfl) rfl)⟩
  | kfree c pa =>
    simp only [step] at ht
    split_ifs at ht with hpc
    cases ht
    exact Or.inl ⟨c, .keep _ rfl rfl (by simp [PC.locks, hpc.1]) (Or.inl rfl)
      (narrows_out (fun _ => rfl) rfl)⟩
  | advance c => exact Or.inl ⟨c, advance_move h ht⟩
  | write pa v =>
    simp only [step] at ht
    split_ifs at ht with hp
    cases ht
    exact Or.inr ⟨rfl, rfl⟩

theorem victim_update (h : LockInv s) (q : PC N) (hq : q.victim ≠ some c) (d : Fin N) :
    (Function.update s.pc c q d).victim ≠ some d := by
  by_cases hd : d = c
  · subst hd
    rw [Function.update_self]
    exact hq
  · rw [Function.update_of_ne hd]
    exact h.other d

theorem Move.inv (h : LockInv s) (hm : Move s c t) : LockInv t := by
  have hkept {q : PC N} (hq : q.victim = none ∨ q.victim = (s.pc c).victim) :
      q.victim ≠ some c := by
    rcases hq with hq | hq
    · rw [hq]
      nofun
    · rw [hq]
      exact h.other c
  cases hm with
  | keep q hpc hlock hlocks hvictim =>
    refine ⟨?_, ?_⟩
    · rw [hpc, locks_update, hlock]
      exact h.agree.keep c _ (fun j => by rw [hlocks])
    · rw [hpc]
      exact victim_update h q (hkept hvictim)
  | aim i r hi hpc hne ht =>
    subst ht
    refine ⟨?_, victim_update h _ ?_⟩
    · have hsame : (PC.scanAcquire (⟨i, hi⟩ : Fin N) r).locks c = (s.pc c).locks c := by
        rw [hpc]
        rfl
      unfold State.goto
      rw [locks_update]
      exact h.agree.keep c _ (fun j => by rw [hsame])
    · intro heq
      exact hne (congrArg Fin.val (Option.some.inj heq))
  | acquire i q hpc hfree hlock hlocks hvictim =>
    refine ⟨?_, ?_⟩
    · rw [hpc, locks_update, hlock]
      exact h.agree.acquire c i _ hfree hlocks
    · rw [hpc]
      exact victim_update h q (hkept hvictim)
  | release i q hpc hlock hlocks hi hvictim =>
    refine ⟨?_, ?_⟩
    · rw [hpc, locks_update, hlock]
      exact h.agree.release c i _ hlocks hi
    · rw [hpc]
      exact victim_update h q (hkept (Or.inl hvictim))

theorem step_lockInv (h : LockInv s) {e : Event N} (ht : step s e = some t) : LockInv t := by
  rcases step_move h ht with ⟨c, hm⟩ | ⟨hpc, hlock⟩
  · exact hm.inv h
  · refine ⟨?_, ?_⟩
    · rw [hpc, hlock]
      exact h.agree
    · rw [hpc]
      exact h.other

theorem kinit_idle (boot : Fin N) (pages : List Nat) :
    (kinit boot pages).pc = (fun _ => .idle) ∧ (kinit boot pages).lock = fun _ => none := by
  have hkeep : ∀ (l : List Nat) (s : State N), (l.foldl (bootFree boot) s).pc = s.pc ∧
      (l.foldl (bootFree boot) s).lock = s.lock := by
    intro l
    induction l with
    | nil => exact fun s => ⟨rfl, rfl⟩
    | cons p l ih =>
      intro s
      obtain ⟨hpc, hlock⟩ := ih (bootFree boot s p)
      exact ⟨hpc, hlock⟩
  exact hkeep pages ⟨fun _ => 0, fun _ => 0, fun _ => none, fun _ => .idle, []⟩

theorem kinit_lockInv (boot : Fin N) (pages : List Nat) : LockInv (kinit boot pages) := by
  obtain ⟨hpc, hlock⟩ := kinit_idle boot pages
  refine ⟨?_, ?_⟩
  · rw [hpc, hlock]
    intro i c
    simp [PC.locks]
  · rw [hpc]
    intro c hc
    cases hc

end Locks

section Deadlock

/-- A set of CPUs each of which holds a lock and spins for one that another of them holds. -/
def Deadlocked (s : State N) (S : Set (Fin N)) : Prop :=
  S.Nonempty ∧ ∀ c ∈ S, (∃ l, s.lock l = some c) ∧
    ∃ l d, (s.pc c).spins c = some l ∧ s.lock l = some d ∧ d ∈ S ∧ d ≠ c

/-- The loop of CPU `a` may still have to wait for the one of CPU `b`. -/
def MayWait (s : State N) (a b : Fin N) : Prop :=
  a ≠ b ∧ (s.pc a).comes b = true ∧ (s.pc b).scanning = true

/-- A CPU that holds a lock and spins is in the loop of kalloc, with its own lock only. -/
theorem holds_and_spins {q : PC N} {l : Fin N} (hhold : q.locks c ≠ [])
    (hspin : q.spins c = some l) : (∃ r, q = .scanAcquire l r) ∧ q.locks c = [c] := by
  cases q with
  | scanAcquire i r =>
    cases hspin
    exact ⟨⟨r, rfl⟩, rfl⟩
  | allocAcquire | allocReacquire r | freeAcquire pa => exact absurd rfl hhold
  | _ => cases hspin

/-- As long as the loops that may wait for one another form no cycle there is no deadlock. -/
theorem not_deadlocked (h : LockInv s) (hac : Acyclic (MayWait s)) (S : Set (Fin N)) :
    ¬Deadlocked s S := by
  rintro ⟨hne, hS⟩
  have hwait {c : Fin N} (hc : c ∈ S) : ∃ l r, s.pc c = .scanAcquire l r ∧ l ∈ S ∧ l ≠ c := by
    obtain ⟨⟨k, hk⟩, l, d, hspin, hd, hdS, hdc⟩ := hS c hc
    have hhold : (s.pc c).locks c ≠ [] := List.ne_nil_of_mem ((h.agree k c).mp hk)
    obtain ⟨⟨r, hpc⟩, -⟩ := holds_and_spins hhold hspin
    -- the lock that it spins for is the holder's own
    obtain ⟨⟨k', hk'⟩, l', d', hspin', -⟩ := hS d hdS
    have hhold' : (s.pc d).locks d ≠ [] := List.ne_nil_of_mem ((h.agree k' d).mp hk')
    have hld : l ∈ (s.pc d).locks d := (h.agree l d).mp hd
    rw [(holds_and_spins hhold' hspin').2, List.mem_singleton] at hld
    subst hld
    exact ⟨l, r, hpc, hdS, hdc⟩
  obtain ⟨c, hc, hsink⟩ := hac.exists_sink hne
  obtain ⟨l, r, hpc, hl, hlc⟩ := hwait hc
  obtain ⟨l', r', hpc', -⟩ := hwait hl
  refine hsink l hl ⟨hlc.symm, ?_, ?_⟩
  · rw [hpc]
    exact decide_eq_true le_rfl
  · rw [hpc']
    rfl

/-- No step of the run ends in a deadlock. -/
def DeadlockFree (s : State N) (e : Event N) : Prop :=
  ∀ t, step s e = some t → ∀ S, ¬Deadlocked t S

/-- A CPU whose list was empty comes to the loop only when every other CPU that is in it has gone
past this CPU or has found a page. -/
def Orderly (s : State N) : Event N → Prop
  | .advance c => s.pc c = .allocReacquire 0 → ∀ d, d ≠ c → (s.pc d).comes c = false
  | _ => True

instance (s : State N) : (e : Event N) → Decidable (Orderly s e)
  | .advance c =>
    have : Decidable (∀ d, d ≠ c → (s.pc d).comes c = false) := Nat.decidableForallFin _
    inferInstanceAs (Decidable (s.pc c = .allocReacquire 0 →
      ∀ d, d ≠ c → (s.pc d).comes c = false))
  | .kalloc _ | .kfree _ _ | .write _ _ => inferInstanceAs (Decidable True)

/-- A step inside or outside the loop makes nobody wait. -/
theorem mayWait_narrows {q : PC N} (hpc : t.pc = Function.update s.pc c q)
    (hq : Narrows (s.pc c) q) (a b : Fin N) (h : MayWait t a b) : MayWait s a b := by
  obtain ⟨hne, hcomes, hscan⟩ := h
  rw [hpc] at hcomes hscan
  refine ⟨hne, ?_, ?_⟩
  · by_cases ha : a = c
    · subst ha
      rw [Function.update_self] at hcomes
      exact hq.comes _ hcomes
    · rwa [Function.update_of_ne ha] at hcomes
  · by_cases hb : b = c
    · subst hb
      rw [Function.update_self] at hscan
      exact hq.scanning hscan
    · rwa [Function.update_of_ne hb] at hscan

/-- The CPU that comes to the loop waits for others, but nobody in the loop comes to it. -/
theorem enter_acyclic {q : PC N} (hac : Acyclic (MayWait s))
    (hpc : t.pc = Function.update s.pc c q) (hpast : ∀ d, d ≠ c → (s.pc d).comes c = false)
    (hout : (s.pc c).scanning = false) : Acyclic (MayWait t) := by
  apply hac.source (a := c)
  · intro a b hab
    by_cases ha : a = c
    · exact Or.inr ha
    · left
      obtain ⟨hne, hcomes, hscan⟩ := hab
      rw [hpc, Function.update_of_ne ha] at hcomes
      have hb : b ≠ c := by
        rintro rfl
        rw [hpast a ha] at hcomes
        cases hcomes
      rw [hpc, Function.update_of_ne hb] at hscan
      exact ⟨hne, hcomes, hscan⟩
  · rintro a ⟨hne, hcomes, -⟩
    rw [hpc, Function.update_of_ne hne, hpast a hne] at hcomes
    cases hcomes

theorem step_acyclic (h : LockInv s) (hac : Acyclic (MayWait s)) {e : Event N}
    (ho : Orderly s e) (ht : step s e = some t) : Acyclic (MayWait t) := by
  have hnarrow {c : Fin N} {q : PC N} (hpc : t.pc = Function.update s.pc c q)
      (hq : Narrows (s.pc c) q) : Acyclic (MayWait t) := hac.mono (mayWait_narrows hpc hq)
  cases e with
  | advance c =>
    cases advance_move h ht with
    | keep q hpc _ _ _ hq => exact hnarrow hpc hq
    | aim i r hi hpc hne ht =>
      subst ht
      refine hnarrow rfl ?_
      rw [hpc]
      exact ⟨fun j hj => hj, fun _ => rfl⟩
    | acquire i q hpc _ _ _ _ hq =>
      by_cases hloop : s.pc c = .allocReacquire 0
      · exact enter_acyclic hac hpc (ho hloop) (by rw [hloop]; rfl)
      · exact hnarrow hpc (hq hloop)
    | release i q hpc _ _ _ _ hq => exact hnarrow hpc hq
  | kalloc c =>
    simp only [step] at ht
    split_ifs at ht with hpc
    cases ht
    exact hnarrow rfl (narrows_out (fun _ => rfl) rfl)
  | kfree c pa =>
    simp only [step] at ht
    split_ifs at ht with hpc
    cases ht
    exact hnarrow rfl (narrows_out (fun _ => rfl) rfl)
  | write pa v =>
    simp only [step] at ht
    split_ifs at ht with hp
    cases ht
    exact hac

/-- A run of kalloc and kfree calls in which CPUs come to the loop of kalloc in an orderly way has
no deadlock; and in every run a CPU that is in no call holds no lock. -/
theorem orderly_deadlock_free (boot : Fin N) (pages : List Nat) (es : List (Event N)) :
    (Guarded step Orderly (kinit boot pages) es →
      Guarded step DeadlockFree (kinit boot pages) es) ∧
    ∀ t, run step (kinit boot pages) es = some t → ∀ c, t.pc c = .idle →
      ∀ l, t.lock l ≠ some c := by
  have hboot := kinit_lockInv boot pages
  constructor
  · have hstart : Acyclic (MayWait (kinit boot pages)) := by
      intro x hx
      obtain ⟨y, ⟨-, hcomes, -⟩, -⟩ := Relation.TransGen.head'_iff.mp hx
      rw [(kinit_idle boot pages).1] at hcomes
      cases hcomes
    intro ho
    refine guarded_imp step Orderly Orderly DeadlockFree
      (fun s => LockInv s ∧ Acyclic (MayWait s)) ?_ ?_ _ es ⟨hboot, hstart⟩ ho ho
    · intro s e t hs he ht
      exact ⟨step_lockInv hs.1 ht, step_acyclic hs.1 hs.2 he ht⟩
    · intro s e hs _ he t ht S
      exact not_deadlocked (step_lockInv hs.1 ht) (step_acyclic hs.1 hs.2 he ht) S
  · intro t ht c hpc l hl
    have hinv : LockInv t := run_invariant step LockInv
      (fun s e t hs ht => step_lockInv hs ht) _ t es hboot ht
    have hmem : l ∈ (t.pc c).locks c := (hinv.agree l c).mp hl
    rw [hpc] at hmem
    cases hmem

/-- CPU 0 steals and has gone past CPU 1, whose list is empty too, when CPU 1 comes to the loop.
There CPU 1 spins for the lock of CPU 0, until CPU 0 has taken pages from CPU 2; then it takes one
of these. -/
def twoThieves : List (Event 4) :=
  .kalloc 0 :: .kalloc 1 :: List.replicate 8 (.advance 0) ++ List.replicate 5 (.advance 1) ++
    List.replicate 15 (.advance 0) ++ List.replicate 15 (.advance 1)

theorem orderly_deadlock_free_twoThieves :
    Guarded step DeadlockFree (kinit (2 : Fin 4) [4096, 8192, 12288]) twoThieves ∧
    (∃ s, run step (kinit (2 : Fin 4) [4096, 8192, 12288]) (twoThieves.take 15) = some s ∧
      (s.pc 1).spins 1 = some 0 ∧ s.lock 0 = some 0 ∧ s.lock 1 = some 1) ∧
    ∃ s, run step (kinit (2 : Fin 4) [4096, 8192, 12288]) twoThieves = some s ∧
      s.owned.length = 2 ∧ ∀ c, s.pc c = .idle := by
  refine ⟨(orderly_deadlock_free 2 [4096, 8192, 12288] twoThieves).1 (by decide +kernel),
    ⟨_, rfl, rfl, rfl, rfl⟩, ?_⟩
  have hrun : (run step (kinit (2 : Fin 4) [4096, 8192, 12288]) twoThieves).map
      (fun s => (s.owned.length, decide (∀ c, s.pc c = .idle))) = some (2, true) := by
    decide +kernel
  obtain ⟨s, hs, hend⟩ := Option.map_eq_some_iff.mp hrun
  obtain ⟨hlen, hidle⟩ := Prod.mk.inj hend
  exact ⟨s, hs, hlen, of_decide_eq_true hidle⟩

/-- CPUs 0 and 1 find their lists empty at the same time and go for each other's lock. -/
def mutualSteal : List (Event 8) :=
  .kalloc 0 :: .kalloc 1 :: List.replicate 5 (.advance 0) ++ List.replicate 5 (.advance 1) ++
    [.advance 0]

theorem mutual_steal_deadlock :
    ∃ s : State 8, run step (kinit 2 [4096]) mutualSteal = some s ∧ Deadlocked s {0, 1} := by
  have hrun : (run step (kinit (2 : Fin 8) [4096]) mutualSteal).map
      (fun s => (s.pc 0, s.pc 1, s.lock 0, s.lock 1)) =
      some (.scanAcquire 1 0, .scanAcquire 0 0, some 0, some 1) := rfl
  obtain ⟨s, hs, hend⟩ := Option.map_eq_some_iff.mp hrun
  simp only [Prod.mk.injEq] at hend
  obtain ⟨hpc0, hpc1, hl0, hl1⟩ := hend
  refine ⟨s, hs, ⟨0, Or.inl rfl⟩, ?_⟩
  intro c hc
  rcases hc with rfl | rfl
  · exact ⟨⟨0, hl0⟩, 1, 1, by rw [hpc0]; rfl, hl1, Or.inr rfl, by decide⟩
  · exact ⟨⟨1, hl1⟩, 0, 0, by rw [hpc1]; rfl, hl0, Or.inl rfl, by decide⟩

end Deadlock

end Xv6Labs.Kmem
