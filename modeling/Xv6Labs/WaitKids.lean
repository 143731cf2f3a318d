import Xv6Labs.WaitTable

/-! A parent that sleeps in wait has no zombie child, but for init while it is being handed one. -/
namespace Xv6Labs.Wait

variable {N : Nat}

/-- The exiting process has woken up slot `p` for the last time. -/
def Task.Told (p : Fin N) : Task N → Prop
  | .die => True
  | .waking _ i .die => p.val < i
  | _ => False

/-- Process `p` is sleeping in wait, or has decided to. -/
def Table.Drowsy (x : Table N) (p : Fin N) : Prop :=
  x.task p = .rest ∨ x.task p = .doze ∨
    ((x.procs p).state = .sleeping ∧ (x.procs p).chan = some (.proc p))

/-- An exiting process is about to wake up init, for a child that it has handed over. -/
def Table.Handing (x : Table N) : Prop := ∃ q ch n, x.task q = .waking ch 0 (.leave n)

/-- What a process that is in wait knows of its children. -/
structure WaitInv [NeZero N] (x : Table N) : Prop where
  scan : ∀ p i kids, x.task p = .scan i kids → ∀ c : Fin N, c.val < i →
    (x.procs c).parent = some p → kids = true ∧ (x.procs c).state ≠ .zombie
  check : ∀ p i, x.task p = .check i → (x.procs i).parent = some p ∧
    ∀ c : Fin N, c.val < i.val → (x.procs c).parent = some p → (x.procs c).state ≠ .zombie
  giveUp : ∀ p, x.task p = .giveUp →
    (x.procs p).killed = true ∨ ∀ c, (x.procs c).parent ≠ some p
  told : ∀ p, x.Drowsy p → ∀ c, (x.procs c).parent = some p → ¬(x.task c).Told p
  zombie : ∀ p, x.Drowsy p → ∀ c, (x.procs c).parent = some p → (x.procs c).state = .zombie →
    p = 0 ∧ x.Handing

theorem Task.Told.waits (k : Task N) (r : Fin N) (h : k.Told r) : k.waits = true := by
  cases k with
  | die | waking ch i k => rfl
  | _ => cases h

theorem Proc.wake_sleeping {q : Proc N} {i : Fin N} {ch : Option (Chan N)}
    (hs : (q.wake ch).state = .sleeping) (hc : (q.wake ch).chan = some (.proc i)) :
    q.state = .sleeping ∧ q.chan = some (.proc i) := by
  unfold Proc.wake at hs hc
  split_ifs at hs hc
  exact ⟨hs, hc⟩

/-- A wakeup makes no zombie. -/
theorem Proc.wake_zombie {x : Table N} {i c r : Fin N} {ch : Option (Chan N)}
    (hparent : ((x.set i ((x.procs i).wake ch)).procs c).parent = some r)
    (hz : ((x.set i ((x.procs i).wake ch)).procs c).state = .zombie) :
    (x.procs c).parent = some r ∧ (x.procs c).state = .zombie := by
  by_cases hc : c = i
  · rw [hc, Table.set_procs, Function.update_self, Proc.wake_parent] at hparent
    rw [hc, Table.set_procs, Function.update_self] at hz
    unfold Proc.wake at hz
    split_ifs at hz
    rw [hc]
    exact ⟨hparent, hz⟩
  · rw [Table.set_procs, Function.update_of_ne hc] at hparent hz
    exact ⟨hparent, hz⟩

theorem Table.Drowsy.of_at {x : Table N} {p r : Fin N} {k : Task N} (hk : k ≠ .rest ∧ k ≠ .doze)
    (hr : (x.at p k).Drowsy r) : x.Drowsy r := by
  simp only [Table.Drowsy, Table.at_procs, Table.at_task, Function.update_apply] at hr ⊢
  grind -linarith -order

theorem Table.Drowsy.of_set {x : Table N} {i r : Fin N} {q : Proc N}
    (hr : (x.set i q).Drowsy r)
    (hq : q.state = .sleeping → q.chan = some (.proc i) → x.Drowsy i) : x.Drowsy r := by
  rcases hr with hr | hr | ⟨hs, hc⟩
  · exact Or.inl hr
  · exact Or.inr (Or.inl hr)
  · by_cases hri : r = i
    · rw [hri, Table.set_procs, Function.update_self] at hs hc
      rw [hri]
      exact hq hs hc
    · rw [Table.set_procs, Function.update_of_ne hri] at hs hc
      exact Or.inr (Or.inr ⟨hs, hc⟩)

/-- After its wakeup a process sleeps no more, unless it is about to. -/
theorem Table.Drowsy.of_wake {x : Table N} {p i r : Fin N} {ch : Option (Chan N)} {k : Task N}
    (hk : k ≠ .rest ∧ k ≠ .doze) (hr : ((x.set i ((x.procs i).wake ch)).at p k).Drowsy r)
    (hri : r = i) (hch : ch = some (.proc i)) : x.task i = .rest ∨ x.task i = .doze := by
  rw [hri] at hr
  rcases hr.of_at hk with hrest | hdoze | ⟨hs, hc⟩
  · exact Or.inl hrest
  · exact Or.inr hdoze
  · exfalso
    rw [Table.set_procs, Function.update_self] at hs hc
    obtain ⟨hsleep, hchan⟩ := Proc.wake_sleeping hs hc
    unfold Proc.wake at hs
    rw [if_pos ⟨hsleep, by rw [hchan, hch]⟩] at hs
    cases hs

theorem Table.Handing.at {x : Table N} (hx : x.Handing) {p : Fin N} {k : Task N}
    (hp : ∀ ch n, x.task p ≠ .waking ch 0 (.leave n)) : (x.at p k).Handing := by
  obtain ⟨q, ch, n, hq⟩ := hx
  have hqp : q ≠ p := fun he => hp ch n (he ▸ hq)
  refine ⟨q, ch, n, ?_⟩
  rw [Table.at_task, Function.update_of_ne hqp]
  exact hq

section Steps

variable [NeZero N] {x y : Table N} {p : Fin N}

/-- A task with `wait_lock` that is not its own step sees the same children. -/
theorem Act.waiter (h : TableInv x) (ha : Act x p y) {r : Fin N} (heq : y.task r = x.task r)
    (hr : (x.task r).waits = true) :
    (∀ c, (y.procs c).parent = (x.procs c).parent) ∧
    (∀ c, (y.procs c).state = .zombie → (x.procs c).state = .zombie) ∧
    ((x.procs r).killed = true → (y.procs r).killed = true) := by
  have hmine : (x.task p).waits = true → r = p := h.mutex r p hr
  have hstate : (x.procs r).state ≠ .unused := by
    intro hu
    rw [(h.ends r).mpr (Or.inr hu)] at hr
    cases hr
  cases ha with
  | link np hl hw =>
    rw [hw r] at hr
    cases hr
  | hand i hl hi =>
    rw [hmine (by rw [hl]; rfl), hl, Table.at_task, Function.update_self] at heq
    cases heq
  | die st hl =>
    rw [hmine (by rw [hl]; rfl), hl, Table.at_task, Function.update_self] at heq
    cases heq
  | reap i addr hl hi =>
    rw [hmine (by rw [hl]; rfl), hl, Table.at_task, Function.update_self] at heq
    cases heq
  | drop np hi hu =>
    simp only [Table.note_procs, Table.set_procs]
    refine ⟨?_, ?_, ?_⟩
    · intro c
      by_cases hc : c = np
      · rw [hc, Function.update_self, h.orphan np hu]
        rfl
      · rw [Function.update_of_ne hc]
    · intro c
      by_cases hc : c = np
      · rw [hc, Function.update_self]
        intro hz
        cases hz
      · rw [Function.update_of_ne hc]
        exact id
    · have hne : r ≠ np := by
        rintro rfl
        exact hstate hu
      rw [Function.update_of_ne hne]
      exact id
  | rouse i ch hd | wake i ch k hk hi hd =>
    simp only [Table.at_procs, Table.set_procs, Function.update_apply, Proc.wake]
    refine ⟨fun c => ?_, fun c => ?_, ?_⟩ <;> split_ifs <;> simp_all
  | kill i hd =>
    simp only [Table.set_procs, Function.update_apply, Proc.kill]
    refine ⟨fun c => ?_, fun c => ?_, ?_⟩ <;> split_ifs <;> simp_all
  | alloc np hi hu | start np hs | mark hd | nap n hi | tidy hi | yield hd =>
    simp only [Table.at_procs, Table.set_procs, Function.update_apply]
    refine ⟨fun c => ?_, fun c => ?_, ?_⟩ <;> split_ifs <;> simp_all
  | _ => exact ⟨fun c => rfl, fun c => id, id⟩

/-- The task of another process changes only when its slot is taken. -/
theorem Act.task_changed (ha : Act x p y) {r : Fin N} (hne : y.task r ≠ x.task r)
    (hidle : y.task r ≠ .idle) : r = p := by
  by_contra hrp
  cases ha with
  | alloc np hi hu =>
    by_cases hnp : r = np
    · apply hidle
      rw [Table.at_task, Function.update_of_ne hrp, Table.at_task, hnp, Function.update_self]
    · apply hne
      rw [Table.at_task, Function.update_of_ne hrp, Table.at_task, Function.update_of_ne hnp,
        Table.set_task]
  | drop np hi hu => exact hne rfl
  | nap n hi => exact hne rfl
  | tidy hi => exact hne rfl
  | yield hd => exact hne rfl
  | rouse i ch hd => exact hne rfl
  | kill i hd => exact hne rfl
  | _ =>
    apply hne
    exact Function.update_of_ne hrp _ _

/-- The task after a wakeup is one of exit. -/
theorem TableInv.heir_task (h : TableInv x) {ch : Option (Chan N)} {i : Nat} {k : Task N}
    (hk : x.task p = .waking ch i k) : k.leaving = true := by
  rcases h.heir p ch i k hk with ⟨n, rfl, -⟩ | ⟨rfl, -⟩ <;> rfl

theorem Act.scan_seen (h : TableInv x) (hw : WaitInv x)
    (ha : Act x p y) (r : Fin N) (i : Nat) (kids : Bool) (hr : y.task r = .scan i kids) (c : Fin N)
    (hc : c.val < i) (hparent : (y.procs c).parent = some r) :
    kids = true ∧ (y.procs c).state ≠ .zombie := by
  by_cases heq : y.task r = x.task r
  · have hx : x.task r = .scan i kids := heq ▸ hr
    obtain ⟨hpar, hzom, -⟩ := ha.waiter h heq (by rw [hx]; rfl)
    rw [hpar] at hparent
    obtain ⟨hk, hz⟩ := hw.scan r i kids hx c hc hparent
    exact ⟨hk, fun hy => hz (hzom c hy)⟩
  · have hrp := ha.task_changed heq (by rw [hr]; simp)
    subst hrp
    cases ha with
    | begin hi hfree =>
      rw [Table.at_task, Function.update_self] at hr
      cases hr
      exact absurd hc (Nat.not_lt_zero _)
    | miss j b hs hj =>
      rw [Table.at_task, Function.update_self] at hr
      cases hr
      have hcj : c ≠ j := fun he => hj (he ▸ hparent)
      exact hw.scan r j kids hs c (by have := Fin.val_ne_of_ne hcj; omega) hparent
    | alive j hs hj =>
      rw [Table.at_task, Function.update_self] at hr
      cases hr
      refine ⟨rfl, ?_⟩
      by_cases hcj : c = j
      · rw [hcj]
        exact hj
      · exact (hw.check r j hs).2 c (by have := Fin.val_ne_of_ne hcj; omega) hparent
    | woken ch j k hk hj =>
      have hleave := h.heir_task hk
      rw [Table.at_task, Function.update_self] at hr
      rw [hr] at hleave
      cases hleave
    | drop np hi hu => exact absurd rfl heq
    | nap n hi => exact absurd rfl heq
    | tidy hi => exact absurd rfl heq
    | yield hd => exact absurd rfl heq
    | rouse j ch hd => exact absurd rfl heq
    | kill j hd => exact absurd rfl heq
    | _ =>
      rw [Table.at_task, Function.update_self] at hr
      cases hr

theorem Act.check_seen (h : TableInv x) (hw : WaitInv x)
    (ha : Act x p y) (r i : Fin N) (hr : y.task r = .check i) :
    (y.procs i).parent = some r ∧
      ∀ c : Fin N, c.val < i.val → (y.procs c).parent = some r → (y.procs c).state ≠ .zombie := by
  by_cases heq : y.task r = x.task r
  · have hx : x.task r = .check i := heq ▸ hr
    obtain ⟨hpar, hzom, -⟩ := ha.waiter h heq (by rw [hx]; rfl)
    obtain ⟨hi, hbelow⟩ := hw.check r i hx
    refine ⟨by rw [hpar]; exact hi, ?_⟩
    intro c hc hparent hy
    rw [hpar] at hparent
    exact hbelow c hc hparent (hzom c hy)
  · have hrp := ha.task_changed heq (by rw [hr]; simp)
    subst hrp
    cases ha with
    | find j b hs hj =>
      rw [Table.at_task, Function.update_self] at hr
      cases hr
      exact ⟨hj, fun c hc hparent => (hw.scan r i b hs c hc hparent).2⟩
    | woken ch j k hk hj =>
      have hleave := h.heir_task hk
      rw [Table.at_task, Function.update_self] at hr
      rw [hr] at hleave
      cases hleave
    | drop np hi hu => exact absurd rfl heq
    | nap n hi => exact absurd rfl heq
    | tidy hi => exact absurd rfl heq
    | yield hd => exact absurd rfl heq
    | rouse j ch hd => exact absurd rfl heq
    | kill j hd => exact absurd rfl heq
    | _ =>
      rw [Table.at_task, Function.update_self] at hr
      cases hr

theorem Act.giveUp_kidless (h : TableInv x) (hw : WaitInv x) (ha : Act x p y) (r : Fin N)
    (hr : y.task r = .giveUp) :
    (y.procs r).killed = true ∨ ∀ c, (y.procs c).parent ≠ some r := by
  by_cases heq : y.task r = x.task r
  · have hx : x.task r = .giveUp := heq ▸ hr
    obtain ⟨hpar, -, hkill⟩ := ha.waiter h heq (by rw [hx]; rfl)
    rcases hw.giveUp r hx with hk | hkids
    · exact Or.inl (hkill hk)
    · refine Or.inr ?_
      intro c
      rw [hpar]
      exact hkids c
  · have hrp := ha.task_changed heq (by rw [hr]; simp)
    subst hrp
    cases ha with
    | giveUp i kids hs hi hk =>
      rcases hk with hk | hk
      · -- the scan has met no child
        refine Or.inr ?_
        intro c hc
        have := (hw.scan r i kids hs c (by omega) hc).1
        rw [hk] at this
        cases this
      · exact Or.inl hk
    | woken ch j k hk hj =>
      have hleave := h.heir_task hk
      rw [Table.at_task, Function.update_self] at hr
      rw [hr] at hleave
      cases hleave
    | drop np hi hu => exact absurd rfl heq
    | nap n hi => exact absurd rfl heq
    | tidy hi => exact absurd rfl heq
    | yield hd => exact absurd rfl heq
    | rouse j ch hd => exact absurd rfl heq
    | kill j hd => exact absurd rfl heq
    | _ =>
      rw [Table.at_task, Function.update_self] at hr
      cases hr

/-- Only one exiting process has `wait_lock`. -/
theorem TableInv.handing_waits (h : TableInv x) (hx : x.Handing) (hp : (x.task p).waits = true) :
    ∃ ch n, x.task p = .waking ch 0 (.leave n) := by
  obtain ⟨q, ch, n, hq⟩ := hx
  have hqp : q = p := h.mutex q p (by rw [hq]; rfl) hp
  exact ⟨ch, n, hqp ▸ hq⟩

/-- A process that goes to sleep in wait comes from a whole scan of the table. -/
theorem Act.drowsy_before (h : TableInv x) (ha : Act x p y) {r : Fin N} (hr : y.Drowsy r) :
    x.Drowsy r ∨ (r = p ∧ y.procs = x.procs ∧ ∃ i, x.task p = .scan i true ∧ N ≤ i) := by
  cases ha with
  | rest i hs hi =>
    by_cases hrp : r = p
    · exact Or.inr ⟨hrp, rfl, i, hs, hi⟩
    · simp only [Table.Drowsy, Table.at_procs, Table.at_task, Function.update_of_ne hrp] at hr
      exact Or.inl hr
  | doze hi =>
    refine Or.inl ?_
    by_cases hrp : r = p
    · exact Or.inl (hrp ▸ hi)
    · simp only [Table.Drowsy, Table.at_procs, Table.at_task, Function.update_of_ne hrp] at hr
      exact hr
  | mark hi => exact Or.inl ((hr.of_at (by simp)).of_set (fun _ _ => Or.inr (Or.inl hi)))
  | wake i ch k hk hi hd =>
    have hset := hr.of_at (by simp)
    exact Or.inl (hset.of_set (fun hs hc => Or.inr (Or.inr (Proc.wake_sleeping hs hc))))
  | rouse i ch hd =>
    exact Or.inl (hr.of_set (fun hs hc => Or.inr (Or.inr (Proc.wake_sleeping hs hc))))
  | kill i hd =>
    refine Or.inl (hr.of_set ?_)
    intro hs
    unfold Proc.kill at hs ⊢
    split_ifs at hs ⊢
    exact fun hc => Or.inr (Or.inr ⟨hs, hc⟩)
  | woken ch i k hk hi =>
    have hleave := h.heir_task hk
    refine Or.inl (hr.of_at ?_)
    constructor
    · rintro rfl
      cases hleave
    · rintro rfl
      cases hleave
  | hand i hl hi =>
    have hset := hr.of_at (by simp)
    exact Or.inl (hset.of_set (fun hs hc => Or.inr (Or.inr ⟨hs, hc⟩)))
  | link np hi hfree =>
    have hset : (x.set np { x.procs np with parent := some p }).Drowsy r :=
      Table.Drowsy.of_at (by simp) hr
    exact Or.inl (hset.of_set (fun hs hc => Or.inr (Or.inr ⟨hs, hc⟩)))
  | alloc np hi hu =>
    have hset := Table.Drowsy.of_at (by simp) (Table.Drowsy.of_at (by simp) hr)
    exact Or.inl (Table.Drowsy.of_set (x := x) hset (by simp))
  | drop np hi hu =>
    refine Or.inl (Table.Drowsy.of_set (x := x) (q := freeproc) (i := np) hr ?_)
    intro hs
    cases hs
  | start np hi => exact Or.inl ((hr.of_at (by simp)).of_set (by simp))
  | die st hi =>
    have hset : (x.set p { x.procs p with xstate := st, state := .zombie }).Drowsy r :=
      hr.of_at (by simp)
    exact Or.inl (hset.of_set (by simp))
  | reap i addr hi hz =>
    have hset : (x.set i freeproc).Drowsy r := Table.Drowsy.of_at (by simp) hr
    refine Or.inl (hset.of_set ?_)
    intro hs
    cases hs
  | nap n hi | tidy hi | yield hi => exact Or.inl (hr.of_set (by simp))
  | returned e he => exact Or.inl (Table.Drowsy.of_at (x := x) (by simp) hr)
  | _ => exact Or.inl (hr.of_at (by simp))

theorem Act.told_awake (h : TableInv x) (hw : WaitInv x) (hp : (x.procs p).state = .running)
    (ha : Act x p y) (r : Fin N) (hr : y.Drowsy r) (c : Fin N)
    (hparent : (y.procs c).parent = some r) : ¬(y.task c).Told r := by
  intro ht
  have hwaits := Task.Told.waits _ _ ht
  by_cases heq : y.task c = x.task c
  · rw [(ha.waiter h heq (heq ▸ hwaits)).1] at hparent
    rw [heq] at ht
    rcases ha.drowsy_before h hr with hold | ⟨rfl, -, i, hs, -⟩
    · exact hw.told r hold c hparent ht
    · have hcr : c = r := h.mutex c r (heq ▸ hwaits) (by rw [hs]; rfl)
      exact h.self c (hcr ▸ hparent)
  · have hcp := ha.task_changed heq (by rintro hidle; rw [hidle] at ht; exact ht)
    subst hcp
    rcases ha.drowsy_before h hr with hold | ⟨rfl, hprocs, -⟩
    swap
    · rw [hprocs] at hparent
      exact h.self _ hparent
    cases ha with
    | wake i ch k hk hi hd =>
      rw [Table.at_task, Function.update_self] at ht
      rw [Table.at_procs, Table.set_procs, Function.update_of_ne (Ne.symm hi)] at hparent
      have hno := hw.told r hold c hparent
      rcases h.heir c ch i k hk with ⟨n, rfl, -⟩ | ⟨rfl, hch⟩
      · exact ht
      · rw [hk] at hno
        have hri : r = i := Fin.ext
          (by have : ¬r.val < i.val := hno; have : r.val < i + 1 := ht; omega)
        rw [hparent, hri] at hch
        -- the parent cannot be between its scan and its sleep
        rcases Table.Drowsy.of_wake (by simp) hr hri hch with hrest | hdoze
        · exact hi (h.mutex i c (by rw [hrest]; rfl) (by rw [hk]; rfl))
        · exact hd hdoze
    | pass ch k hk =>
      rw [Table.at_task, Function.update_self] at ht
      have hno := hw.told r hold c hparent
      rcases h.heir c ch c k hk with ⟨n, rfl, -⟩ | ⟨rfl, hch⟩
      · exact ht
      · rw [hk] at hno
        have hrc : r = c := Fin.ext
          (by have : ¬r.val < c.val := hno; have : r.val < c + 1 := ht; omega)
        exact h.self c (hrc ▸ hparent)
    | woken ch i k hk hi =>
      rw [Table.at_task, Function.update_self] at ht
      have hno := hw.told r hold c hparent
      rw [hk] at hno
      rcases h.heir c ch i k hk with ⟨n, rfl, -⟩ | ⟨rfl, hch⟩
      · exact ht
      · have hlast : ¬r.val < i := hno
        omega
    | tell n hl hn =>
      rw [Table.at_task, Function.update_self] at ht
      exact Nat.not_lt_zero _ ht
    | drop np hi hu => exact heq rfl
    | nap n hi => exact heq rfl
    | tidy hi => exact heq rfl
    | yield hd => exact heq rfl
    | rouse j ch hd => exact heq rfl
    | kill j hd => exact heq rfl
    | _ =>
      rw [Table.at_task, Function.update_self] at ht
      exact ht

theorem Act.zombie_awake (h : TableInv x) (hw : WaitInv x) (hp : (x.procs p).state = .running)
    (ha : Act x p y) (r : Fin N) (hr : y.Drowsy r) (c : Fin N)
    (hparent : (y.procs c).parent = some r) (hz : (y.procs c).state = .zombie) :
    r = 0 ∧ y.Handing := by
  have hmutex := h.mutex
  have hheir := h.heir
  have hzombie := hw.zombie
  rcases ha.drowsy_before h hr with hold | ⟨rfl, hprocs, i, hs, hi⟩
  swap
  · exfalso
    rw [hprocs] at hparent hz
    exact (hw.scan r i true hs c (by omega) hparent).2 hz
  cases ha with
  | hand i hl hi =>
    refine ⟨?_, p, some (.proc 0), i + 1, by simp⟩
    by_cases hci : c = i
    · simp only [Table.at_procs, Table.set_procs, hci, Function.update_self] at hparent
      exact (Option.some.inj hparent).symm
    · simp only [Table.at_procs, Table.set_procs, Function.update_of_ne hci] at hparent hz
      exact (hzombie r hold c hparent hz).1
  | wake i ch k hk hi hd =>
    exfalso
    have hawake := Table.Drowsy.of_wake (by simp) hr
    have hx := Proc.wake_zombie hparent hz
    obtain ⟨hr0, hhand⟩ := hzombie r hold c hx.1 hx.2
    -- the wakeup is init's own
    obtain ⟨ch', n, hk'⟩ := h.handing_waits hhand (p := p) (by rw [hk]; rfl)
    rw [hk] at hk'
    injection hk' with h1 h2 h3
    have hi0 : i = 0 := Fin.ext h2
    rcases hheir p ch i k hk with ⟨m, -, hch⟩ | ⟨hkd, -⟩
    · rcases hawake (hr0.trans hi0.symm) (by rw [hch, hi0]) with hrest | hdoze
      · exact hi (hmutex i p (by rw [hrest]; rfl) (by rw [hk]; rfl))
      · exact hd hdoze
    · rw [h3] at hkd
      cases hkd
  | pass ch k hk =>
    exfalso
    obtain ⟨-, hhand⟩ := hzombie r hold c hparent hz
    obtain ⟨ch', n, hk'⟩ := h.handing_waits hhand (p := p) (by rw [hk]; rfl)
    rw [hk] at hk'
    injection hk' with h1 h2 h3
    have hp0 : p = 0 := Fin.ext h2
    have hroot := h.root.2.2.2.2
    rw [← hp0, hk] at hroot
    cases hroot
  | woken ch i k hk hi =>
    exfalso
    obtain ⟨-, hhand⟩ := hzombie r hold c hparent hz
    obtain ⟨ch', n, hk'⟩ := h.handing_waits hhand (p := p) (by rw [hk]; rfl)
    rw [hk] at hk'
    injection hk' with h1 h2 h3
    have := p.isLt
    omega
  | die st hd =>
    exfalso
    have hx : (x.procs c).parent = some r := by
      simp only [Table.at_procs, Table.set_procs, Table.note_procs,
        Function.update_apply] at hparent
      split_ifs at hparent with hc
      · rw [hc]
        exact hparent
      · exact hparent
    by_cases hc : c = p
    · -- the parent has been woken up before
      have := hw.told r hold c hx
      rw [hc, hd] at this
      exact this trivial
    · simp only [Table.at_procs, Table.set_procs, Table.note_procs, Function.update_of_ne hc] at hz
      obtain ⟨-, hhand⟩ := hzombie r hold c hx hz
      obtain ⟨ch, n, hk⟩ := h.handing_waits hhand (p := p) (by rw [hd]; rfl)
      rw [hd] at hk
      cases hk
  | returned e he =>
    obtain ⟨hr0, hhand⟩ := hzombie r hold c hparent hz
    refine ⟨hr0, Table.Handing.at (x := x) hhand ?_⟩
    rw [he]
    cases e <;> simp [PC.task]
  | rouse i ch hd =>
    obtain ⟨hcp, hcz⟩ := Proc.wake_zombie hparent hz
    exact hzombie r hold c hcp hcz
  | kill i hd =>
    have hx : (x.procs c).parent = some r ∧ (x.procs c).state = .zombie := by
      by_cases hc : c = i
      · rw [hc, Table.set_procs, Function.update_self] at hparent hz
        unfold Proc.kill at hparent hz
        split_ifs at hparent hz
        rw [hc]
        exact ⟨hparent, hz⟩
      · rw [Table.set_procs, Function.update_of_ne hc] at hparent hz
        exact ⟨hparent, hz⟩
    exact hzombie r hold c hx.1 hx.2
  | tidy hi | yield hi | nap n hi =>
    have hne : c ≠ p := by
      rintro rfl
      rw [Table.set_procs, Function.update_self] at hz
      simp [hp] at hz
    rw [Table.set_procs, Function.update_of_ne hne] at hparent hz
    exact hzombie r hold c hparent hz
  | drop np hi hu =>
    have hne : c ≠ np := by
      rintro rfl
      rw [Table.note_procs, Table.set_procs, Function.update_self] at hz
      cases hz
    rw [Table.note_procs, Table.set_procs, Function.update_of_ne hne] at hparent hz
    exact hzombie r hold c hparent hz
  | mark hi =>
    have hne : c ≠ p := by
      rintro rfl
      rw [Table.at_procs, Table.set_procs, Function.update_self] at hz
      cases hz
    rw [Table.at_procs, Table.set_procs, Function.update_of_ne hne] at hparent hz
    obtain ⟨hr0, hhand⟩ := hzombie r hold c hparent hz
    exact ⟨hr0, Table.Handing.at hhand (by simp [hi])⟩
  | alloc np hi hu =>
    have hne : c ≠ np := by
      rintro rfl
      rw [Table.at_procs, Table.at_procs, Table.set_procs, Function.update_self] at hz
      cases hz
    rw [Table.at_procs, Table.at_procs, Table.set_procs, Function.update_of_ne hne] at hparent hz
    obtain ⟨hr0, q, ch, n, hq⟩ := hzombie r hold c hparent hz
    have hqn : q ≠ np := by
      rintro rfl
      rw [(h.ends q).mpr (Or.inr hu)] at hq
      cases hq
    refine ⟨hr0, Table.Handing.at ⟨q, ch, n, ?_⟩ ?_⟩
    · rw [Table.at_task, Function.update_of_ne hqn]
      exact hq
    · intro ch n
      by_cases hpn : p = np
      · rw [hpn, Table.at_task, Function.update_self]
        simp
      · rw [Table.at_task, Function.update_of_ne hpn, Table.set_task, hi]
        simp
  | link np hi hfree =>
    have hne : c ≠ np := by
      rintro rfl
      rw [Table.at_procs, Table.note_procs, Table.set_procs, Function.update_self] at hz
      have hused : (x.procs c).state = .zombie := hz
      rw [(h.link p c hi).1] at hused
      cases hused
    rw [Table.at_procs, Table.note_procs, Table.set_procs, Function.update_of_ne hne] at hparent hz
    obtain ⟨hr0, hhand⟩ := hzombie r hold c hparent hz
    exact ⟨hr0, Table.Handing.at (x := x) hhand (by simp [hi])⟩
  | start np hi =>
    have hne : c ≠ np := by
      rintro rfl
      rw [Table.at_procs, Table.set_procs, Function.update_self] at hz
      cases hz
    rw [Table.at_procs, Table.set_procs, Function.update_of_ne hne] at hparent hz
    obtain ⟨hr0, hhand⟩ := hzombie r hold c hparent hz
    exact ⟨hr0, Table.Handing.at (x := x) hhand (by simp [hi])⟩
  | reap i addr hi hzi =>
    have hne : c ≠ i := by
      rintro rfl
      rw [Table.at_procs, Table.note_procs, Table.set_procs, Function.update_self] at hz
      cases hz
    rw [Table.at_procs, Table.note_procs, Table.set_procs, Function.update_of_ne hne] at hparent hz
    obtain ⟨hr0, hhand⟩ := hzombie r hold c hparent hz
    exact ⟨hr0, Table.Handing.at (x := x) hhand (by simp [hi])⟩
  | exit hi | enter hi | skip i hi | tell i hi | begin hi | miss i b hi | find i b hi
  | alive i hi | bad i hi | giveUp i b hi | rest i hi | doze hi =>
    obtain ⟨hr0, hhand⟩ := hzombie r hold c hparent hz
    exact ⟨hr0, hhand.at (by simp [hi])⟩

theorem WaitInv.set_awake (hw : WaitInv x) (i : Fin N) (q : Proc N)
    (hparent : q.parent = (x.procs i).parent) (hkilled : q.killed = (x.procs i).killed)
    (hq : q = x.procs i ∨ ((q.state = .runnable ∨ q.state = .running) ∧
      (x.procs i).state ≠ .zombie)) : WaitInv (x.set i q) := by
  have hp : ∀ c, ((x.set i q).procs c).parent = (x.procs c).parent := by
    intro c
    simp only [Table.set_procs, Function.update_apply]
    grind -linarith -order
  have hk : ∀ c, ((x.set i q).procs c).killed = (x.procs c).killed := by
    intro c
    simp only [Table.set_procs, Function.update_apply]
    grind -linarith -order
  have hz : ∀ c, ((x.set i q).procs c).state = .zombie ↔ (x.procs c).state = .zombie := by
    intro c
    simp only [Table.set_procs, Function.update_apply]
    grind -linarith -order
  have hd : ∀ c, (x.set i q).Drowsy c → x.Drowsy c := by
    intro c hc
    simp only [Table.Drowsy, Table.set_procs, Table.set_task, Function.update_apply] at hc ⊢
    grind -linarith -order
  constructor <;> simp only [hp, hk, hz, Table.set_task, ne_eq]
  · exact hw.scan
  · exact hw.check
  · exact hw.giveUp
  · exact fun r hr => hw.told r (hd r hr)
  · exact fun r hr => hw.zombie r (hd r hr)

/-- Every step of the machine keeps what the waiting processes know. -/
theorem WaitInv.move (hw : WaitInv x) (h : TableInv x) (hm : Move x y) : WaitInv y := by
  cases hm with
  | act p y hp ha =>
    exact {
      scan := ha.scan_seen h hw
      check := ha.check_seen h hw
      giveUp := ha.giveUp_kidless h hw
      told := ha.told_awake h hw hp
      zombie := ha.zombie_awake h hw hp }
  | dispatch i hi =>
    refine hw.set_awake i _ rfl rfl (Or.inr ⟨Or.inr rfl, ?_⟩)
    rw [hi]
    simp
  | device i n =>
    refine hw.set_awake i _ (Proc.wake_parent _ _) (Proc.wake_killed _ _) ?_
    unfold Proc.wake
    split_ifs with hs
    · refine Or.inr ⟨Or.inl rfl, ?_⟩
      rw [hs.1]
      simp
    · exact Or.inl rfl

end Steps

end Xv6Labs.Wait
