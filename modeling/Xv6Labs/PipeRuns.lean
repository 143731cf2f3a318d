import Xv6Labs.LockTable
import Xv6Labs.PipeCode
import Xv6Labs.RingSlots

/-! A pipe is a queue of at most `PIPESIZE` bytes, whatever the order of the calls and however
often the counters wrap. -/
namespace Xv6Labs.Pipe

variable {P : Type}

/-- The counters and the ring hold the bytes that are accepted and not yet delivered. -/
structure Bytes (s : State P) : Prop where
  write : s.nwrite.toNat = s.accepted.length % 2^32
  read : s.nread.toNat = s.delivered.length % 2^32
  short : s.accepted.length ≤ s.delivered.length + PIPESIZE
  fifo : s.delivered <+: s.accepted
  ring : Window PIPESIZE s.data s.accepted s.delivered.length

/-- What a process knows: a reader's buffer has room, and a reader that has the lock and has
copied nothing found bytes or the write end closed. -/
def Knows (s : State P) : PC → Prop
  | .readAcquire n room | .readTest n room | .readAsleep n room => n ≤ room
  | .readCopy n room i => n ≤ room ∧ (i = 0 → s.nread ≠ s.nwrite ∨ s.writeopen = false)
  | .readDone n i => i = 0 → 0 < n → s.nread = s.nwrite ∧ s.writeopen = false
  | _ => True

structure Inv (s : State P) : Prop where
  bytes : Bytes s
  lock : ∀ p, (s.pc p).locked = true → s.lock = some p
  knows : ∀ p, Knows s (s.pc p)

/-- The copies to user memory succeed: a reader's buffer has room for `n` bytes. -/
def CopiesOut (_ : State P) : Event P → Prop
  | .piperead _ n room => n ≤ room
  | _ => True

section Counters

variable {s : State P}

theorem Bytes.length_le (h : Bytes s) : s.delivered.length ≤ s.accepted.length :=
  h.fifo.length_le

/-- The difference of the wrapped counters is the number of bytes in the pipe. -/
theorem Bytes.unread (h : Bytes s) :
    (s.nwrite - s.nread).toNat = s.accepted.length - s.delivered.length := by
  have hle := h.length_le
  have hlt := h.short
  rw [UInt32.toNat_sub, h.write, h.read]
  apply wrap_sub hle
  simp only [PIPESIZE] at hlt
  omega

theorem Bytes.empty_iff (h : Bytes s) :
    s.nread = s.nwrite ↔ s.delivered.length = s.accepted.length := by
  have hu := h.unread
  have hle := h.length_le
  constructor
  · intro he
    rw [he, UInt32.sub_self] at hu
    have : (0 : UInt32).toNat = 0 := rfl
    omega
  · intro he
    apply UInt32.toNat_inj.mp
    rw [h.read, h.write, he]

theorem Bytes.full_iff (h : Bytes s) : s.nwrite = s.nread + PIPESIZE.toUInt32 ↔
    s.accepted.length = s.delivered.length + PIPESIZE := by
  have hu := h.unread
  have hle := h.length_le
  have hsize : PIPESIZE.toUInt32.toNat = PIPESIZE := rfl
  constructor
  · intro he
    rw [he, UInt32.add_comm, UInt32.add_sub_cancel] at hu
    omega
  · intro he
    apply UInt32.toNat_inj.mp
    rw [UInt32.toNat_add, h.read, h.write, he, hsize, Nat.mod_add_mod]

/-- The slot that a wrapped counter selects is that of the unwrapped one. -/
theorem slot_of_counter (a : Nat) : a % 2^32 % PIPESIZE = a % PIPESIZE :=
  Nat.mod_mod_of_dvd a (by decide)

theorem next_counter {c : UInt32} {a : Nat} (h : c.toNat = a % 2^32) :
    (c + 1).toNat = (a + 1) % 2^32 := by
  have hone : (1 : UInt32).toNat = 1 := rfl
  rw [UInt32.toNat_add, h, hone, Nat.mod_add_mod]

/-- A byte goes into the ring when it is not full. -/
theorem Bytes.put (h : Bytes s) (ch : UInt8)
    (hfull : s.nwrite ≠ s.nread + PIPESIZE.toUInt32) : Bytes (s.put ch) := by
  have hlt : s.accepted.length < s.delivered.length + PIPESIZE := by
    have := h.short
    have hne : s.accepted.length ≠ s.delivered.length + PIPESIZE :=
      fun he => hfull (h.full_iff.mpr he)
    omega
  refine ⟨?_, h.read, ?_, h.fifo.trans (List.prefix_append _ _), ?_⟩
  · simp only [State.put, List.length_append, List.length_singleton]
    exact next_counter h.write
  · simp only [State.put, List.length_append, List.length_singleton]
    omega
  · simp only [State.put]
    rw [h.write, slot_of_counter]
    exact h.ring.push hlt ch

/-- The next byte to come out is the first one not yet delivered. -/
theorem Bytes.front (h : Bytes s) (hne : s.nread ≠ s.nwrite) :
    s.accepted[s.delivered.length]? = some (s.data (s.nread.toNat % PIPESIZE)) := by
  have hlt : s.delivered.length < s.accepted.length := by
    have := h.length_le
    have : s.delivered.length ≠ s.accepted.length := fun he => hne (h.empty_iff.mpr he)
    omega
  have hr := h.ring s.delivered.length _ (Nat.le_refl _) (List.getElem?_eq_getElem hlt)
  rw [h.read, slot_of_counter, hr]
  exact List.getElem?_eq_getElem hlt

theorem Bytes.get (h : Bytes s) (hne : s.nread ≠ s.nwrite) : Bytes (s.get true) := by
  have hfront := h.front hne
  obtain ⟨rest, hrest⟩ := h.fifo
  obtain ⟨l, hl⟩ : ∃ l, rest = s.data (s.nread.toNat % PIPESIZE) :: l := by
    rw [← hrest, List.getElem?_append_right (Nat.le_refl _), Nat.sub_self] at hfront
    cases rest with
    | nil => cases hfront
    | cons a l => exact ⟨l, by cases hfront; rfl⟩
  have hlen : (s.get true).delivered.length = s.delivered.length + 1 := by simp [State.get]
  refine ⟨h.write, ?_, ?_, ⟨l, ?_⟩, ?_⟩
  · rw [hlen]
    exact next_counter h.read
  · rw [hlen]
    have := h.short
    simp only [State.get]
    omega
  · simp only [State.get, if_true]
    rw [← hrest, hl, List.append_assoc, List.singleton_append]
  · rw [hlen]
    exact h.ring.mono (Nat.le_succ _)

end Counters

section Steps

variable {s t : State P}

/-- Process `x` is where it was or has been woken, and the pipe has not changed if it has
the lock. -/
def Kept (s t : State P) (x : P) : Prop :=
  (t.pc x = s.pc x ∨ ∃ chan, t.pc x = (s.pc x).wake chan) ∧
    ((s.pc x).locked = true → t.lock = s.lock ∧ t.nread = s.nread ∧ t.nwrite = s.nwrite ∧
      t.writeopen = s.writeopen)

/-- Sleepers do not have the lock, before and after they wake up. -/
theorem wake_locked (chan : Chan) (q : PC) : (q.wake chan).locked = q.locked := by
  cases q <;> simp only [PC.wake] <;> split_ifs <;> rfl

theorem knows_wake (chan : Chan) {q : PC} (h : Knows s q) : Knows s (q.wake chan) := by
  cases q <;> simp only [PC.wake] <;> first | exact h | (split_ifs <;> exact h)

theorem knows_unlocked {q : PC} (hq : q.locked = false) (h : Knows s q) : Knows t q := by
  cases q with
  | readCopy n room i => cases hq
  | readDone n i => cases hq
  | _ => exact h

theorem knows_congr {q : PC} (h : Knows s q) (hr : t.nread = s.nread) (hw : t.nwrite = s.nwrite)
    (ho : t.writeopen = s.writeopen) : Knows t q := by
  cases q with
  | readCopy n room i => exact ⟨h.1, by rw [hr, hw, ho]; exact h.2⟩
  | readDone n i =>
    have h' := h
    simp only [Knows] at h' ⊢
    rw [hr, hw, ho]
    exact h'
  | _ => exact h

theorem Inv.move (h : Inv s) (hb : Bytes t)
    (hx : ∀ x, Kept s t x ∨ (((t.pc x).locked = true → t.lock = some x) ∧ Knows t (t.pc x))) :
    Inv t := by
  refine ⟨hb, ?_, ?_⟩
  · intro x hl
    rcases hx x with ⟨hpc, hsame⟩ | ⟨hlock, -⟩
    · have hlx : (s.pc x).locked = true := by
        rcases hpc with hpc | ⟨chan, hpc⟩
        · rwa [hpc] at hl
        · rwa [hpc, wake_locked] at hl
      rw [(hsame hlx).1, h.lock x hlx]
    · exact hlock hl
  · intro x
    rcases hx x with ⟨hpc, hsame⟩ | ⟨-, hk⟩
    · have hk : Knows t (s.pc x) := by
        cases hl : (s.pc x).locked with
        | true =>
          obtain ⟨-, hr, hw, ho⟩ := hsame hl
          exact knows_congr (h.knows x) hr hw ho
        | false => exact knows_unlocked hl (h.knows x)
      rcases hpc with hpc | ⟨chan, hpc⟩
      · rw [hpc]
        exact hk
      · rw [hpc]
        exact knows_wake chan hk
    · exact hk

variable [DecidableEq P]

/-- A step of process `p` to `q` that takes no byte in or out: `p` has the lock, or the lock
and the write end stay as they are, or nobody has the lock. -/
theorem Inv.goto (h : Inv s) (p : P) (q : PC) (t : State P) (hb : Bytes t)
    (hpc : ∀ x, x ≠ p → t.pc x = s.pc x ∨ ∃ chan, t.pc x = (s.pc x).wake chan)
    (hfree : s.lock = some p ∨ s.lock = none ∨ (t.lock = s.lock ∧ t.nread = s.nread ∧
      t.nwrite = s.nwrite ∧ t.writeopen = s.writeopen)) (hp : t.pc p = q)
    (hlock : q.locked = true → t.lock = some p) (hq : Knows t q) : Inv t := by
  apply h.move hb
  intro x
  by_cases hxp : x = p
  · subst hxp
    rw [hp]
    exact Or.inr ⟨hlock, hq⟩
  · refine Or.inl ⟨hpc x hxp, ?_⟩
    intro hl
    have hlx := h.lock x hl
    rcases hfree with hmine | hnone | hsame
    · rw [hmine] at hlx
      exact absurd (Option.some.inj hlx).symm hxp
    · rw [hnone] at hlx
      cases hlx
    · exact hsame

/-- acquire by process `p`. -/
theorem Inv.acquire (h : Inv s) (p : P) (q : PC) (hs : s.lock = none) (hq : Knows s q) :
    Inv (State.goto { s with lock := some p } p q) :=
  h.goto p q _ ⟨h.bytes.write, h.bytes.read, h.bytes.short, h.bytes.fifo, h.bytes.ring⟩
    (fun _ hx => Or.inl (Function.update_of_ne hx _ _)) (Or.inr (Or.inl hs))
    (Function.update_self _ _ _) (fun _ => rfl) (knows_congr hq rfl rfl rfl)

/-- A step of process `p` inside its critical section. -/
theorem Inv.keep (h : Inv s) (p : P) (q : PC) (hs : s.lock = some p) (hq : Knows s q) :
    Inv (s.goto p q) :=
  h.goto p q _ ⟨h.bytes.write, h.bytes.read, h.bytes.short, h.bytes.fifo, h.bytes.ring⟩
    (fun _ hx => Or.inl (Function.update_of_ne hx _ _)) (Or.inl hs)
    (Function.update_self _ _ _) (fun _ => hs) (knows_congr hq rfl rfl rfl)

/-- Release, after a wakeup or without one. -/
theorem Inv.release (h : Inv s) (p : P) (q : PC) (pcs : P → PC) (hs : s.lock = some p)
    (hpcs : ∀ x, pcs x = s.pc x ∨ ∃ chan, pcs x = (s.pc x).wake chan) (hl : q.locked = false)
    (hq : Knows s q) : Inv (State.goto { s with lock := none, pc := pcs } p q) := by
  refine h.goto p q _ ⟨h.bytes.write, h.bytes.read, h.bytes.short, h.bytes.fifo, h.bytes.ring⟩
    ?_ (Or.inl hs) (Function.update_self _ _ _) ?_ (knows_congr hq rfl rfl rfl)
  · intro x hx
    simp only [State.goto, Function.update_of_ne hx]
    exact hpcs x
  · intro hq'
    rw [hl] at hq'
    cases hq'

/-- The steps of pipewrite. -/
theorem advance_write (h : Inv s) (p : P) (ht : advance s p = some t)
    (hpc : (∃ src n i, s.pc p = .writeAcquire src n i) ∨ (∃ src n i, s.pc p = .writeLoop src n i) ∨
      ∃ i, s.pc p = .writeDone i) : Inv t := by
  unfold advance at ht
  rcases hpc with ⟨src, n, i, hpc⟩ | ⟨src, n, i, hpc⟩ | ⟨i, hpc⟩ <;> simp only [hpc] at ht
  · obtain ⟨hs, rfl⟩ := acquire_map ht
    exact h.acquire p _ hs trivial
  · have hs : s.lock = some p := h.lock p (by rw [hpc]; rfl)
    split_ifs at ht with hin hbad hfull
    · cases ht
      exact h.keep p _ hs trivial
    · cases ht
      exact h.release p _ _ hs (fun x => Or.inr ⟨.nread, rfl⟩) rfl trivial
    · cases hch : src[i]? with
      | none =>
        rw [hch] at ht
        cases ht
        exact h.keep p _ hs trivial
      | some ch =>
        rw [hch] at ht
        cases ht
        have hb := h.bytes.put ch hfull
        exact h.goto p _ _ ⟨hb.write, hb.read, hb.short, hb.fifo, hb.ring⟩
          (fun _ hx => Or.inl (Function.update_of_ne hx _ _)) (Or.inl hs)
          (Function.update_self _ _ _) (fun _ => hs) trivial
    · cases ht
      exact h.keep p _ hs trivial
  · have hs : s.lock = some p := h.lock p (by rw [hpc]; rfl)
    cases ht
    exact h.release p _ _ hs (fun x => Or.inr ⟨.nread, rfl⟩) rfl trivial

/-- The steps of piperead. -/
theorem advance_read (h : Inv s) (p : P) (ht : advance s p = some t)
    (hpc : (∃ n room, s.pc p = .readAcquire n room) ∨ (∃ n room, s.pc p = .readTest n room) ∨
      (∃ n room i, s.pc p = .readCopy n room i) ∨ ∃ n i, s.pc p = .readDone n i) : Inv t := by
  have hk := h.knows p
  unfold advance at ht
  rcases hpc with ⟨n, room, hpc⟩ | ⟨n, room, hpc⟩ | ⟨n, room, i, hpc⟩ | ⟨n, i, hpc⟩ <;>
    rw [hpc] at hk <;> simp only [hpc] at ht
  · obtain ⟨hs, rfl⟩ := acquire_map ht
    exact h.acquire p _ hs hk
  · have hs : s.lock = some p := h.lock p (by rw [hpc]; rfl)
    split_ifs at ht with hempty hkilled
    · cases ht
      exact h.keep p _ hs trivial
    · cases ht
      exact h.release p _ _ hs (fun x => Or.inl rfl) rfl hk
    · cases ht
      refine h.keep p _ hs ⟨hk, fun _ => ?_⟩
      by_cases he : s.nread = s.nwrite
      · exact Or.inr (by simpa [he] using hempty)
      · exact Or.inl he
  · have hs : s.lock = some p := h.lock p (by rw [hpc]; rfl)
    obtain ⟨hroom, hzero⟩ := hk
    split_ifs at ht with hin hempty hfits
    · cases ht
      refine h.keep p _ hs ?_
      intro hi _
      exact ⟨hempty, (hzero hi).resolve_left (fun hne => hne hempty)⟩
    · cases ht
      have hb := h.bytes.get hempty
      exact h.goto p _ _ ⟨hb.write, hb.read, hb.short, hb.fifo, hb.ring⟩
        (fun _ hx => Or.inl (Function.update_of_ne hx _ _)) (Or.inl hs)
        (Function.update_self _ _ _) (fun _ => hs) ⟨hroom, fun hi => by omega⟩
    · omega
    · cases ht
      refine h.keep p _ hs ?_
      intro hi hn
      omega
  · have hs : s.lock = some p := h.lock p (by rw [hpc]; rfl)
    cases ht
    exact h.release p _ _ hs (fun x => Or.inr ⟨.nwrite, rfl⟩) rfl trivial

theorem advance_inv (h : Inv s) (p : P) (ht : advance s p = some t) : Inv t := by
  cases hpc : s.pc p with
  | idle => simp only [advance, hpc] at ht; cases ht
  | writeAsleep src n i => simp only [advance, hpc] at ht; cases ht
  | readAsleep n room => simp only [advance, hpc] at ht; cases ht
  | writeAcquire src n i => exact advance_write h p ht (Or.inl ⟨src, n, i, hpc⟩)
  | writeLoop src n i => exact advance_write h p ht (Or.inr (Or.inl ⟨src, n, i, hpc⟩))
  | writeDone i => exact advance_write h p ht (Or.inr (Or.inr ⟨i, hpc⟩))
  | readAcquire n room => exact advance_read h p ht (Or.inl ⟨n, room, hpc⟩)
  | readTest n room => exact advance_read h p ht (Or.inr (Or.inl ⟨n, room, hpc⟩))
  | readCopy n room i => exact advance_read h p ht (Or.inr (Or.inr (Or.inl ⟨n, room, i, hpc⟩)))
  | readDone n i => exact advance_read h p ht (Or.inr (Or.inr (Or.inr ⟨n, i, hpc⟩)))
  | fail =>
    have hs : s.lock = some p := h.lock p (by rw [hpc]; rfl)
    simp only [advance, hpc] at ht
    cases ht
    exact h.release p _ _ hs (fun x => Or.inl rfl) rfl trivial

/-- A process that makes no call starts one. -/
theorem Inv.call (h : Inv s) (p : P) (q : PC) (hl : q.locked = false) (hq : Knows s q) :
    Inv (s.goto p q) :=
  h.goto p q _ ⟨h.bytes.write, h.bytes.read, h.bytes.short, h.bytes.fifo, h.bytes.ring⟩
    (fun _ hx => Or.inl (Function.update_of_ne hx _ _)) (Or.inr (Or.inr ⟨rfl, rfl, rfl, rfl⟩))
    (Function.update_self _ _ _) (fun hq' => by rw [hl] at hq'; cases hq')
    (knows_congr hq rfl rfl rfl)

omit [DecidableEq P] in
/-- Closing one end, when nobody has the lock. -/
theorem pipeclose_inv (h : Inv s) (writable : Bool) (ht : pipeclose s writable = some t) :
    Inv t := by
  unfold pipeclose at ht
  have hkept (t : State P) (chan : Chan) (hs : s.lock = none)
      (hpc : t.pc = fun x => (s.pc x).wake chan) (x : P) : Kept s t x := by
    refine ⟨Or.inr ⟨chan, by rw [hpc]⟩, ?_⟩
    intro hl
    have hlx := h.lock x hl
    rw [hs] at hlx
    cases hlx
  have hb := h.bytes
  split_ifs at ht with hs hw <;> cases ht
  · exact h.move ⟨hb.write, hb.read, hb.short, hb.fifo, hb.ring⟩
      (fun x => Or.inl (hkept _ .nread hs rfl x))
  · exact h.move ⟨hb.write, hb.read, hb.short, hb.fifo, hb.ring⟩
      (fun x => Or.inl (hkept _ .nwrite hs rfl x))

theorem step_inv (s : State P) (e : Event P) (t : State P) (h : Inv s) (hc : CopiesOut s e)
    (ht : step s e = some t) : Inv t := by
  unfold step at ht
  split_ifs at ht with hgone
  cases e with
  | pipewrite p src n =>
    simp only at ht
    split_ifs at ht
    cases ht
    exact h.call p _ rfl trivial
  | piperead p n room =>
    simp only at ht
    split_ifs at ht
    cases ht
    exact h.call p _ rfl hc
  | pipeclose writable => exact pipeclose_inv h writable ht
  | advance p => exact advance_inv h p ht
  | kill p =>
    cases ht
    have hb := h.bytes
    have hpc : ((s.pc p).wake .nread).wake .nwrite = (s.pc p).wake .nread ∨
        ((s.pc p).wake .nread).wake .nwrite = (s.pc p).wake .nwrite := by
      cases s.pc p <;> simp [PC.wake]
    refine h.move ⟨hb.write, hb.read, hb.short, hb.fifo, hb.ring⟩ (fun x => Or.inl ⟨?_, ?_⟩)
    · by_cases hxp : x = p
      · subst hxp
        simp only [State.goto, Function.update_self]
        rcases hpc with hpc | hpc
        · exact Or.inr ⟨.nread, hpc⟩
        · exact Or.inr ⟨.nwrite, hpc⟩
      · exact Or.inl (Function.update_of_ne hxp _ _)
    · exact fun _ => ⟨rfl, rfl, rfl, rfl⟩

omit [DecidableEq P] in
theorem pipealloc_inv (junk : Nat → UInt8) (killed : P → Bool) :
    Inv (pipealloc junk killed) := by
  refine ⟨⟨rfl, rfl, Nat.zero_le _, List.prefix_rfl, ?_⟩, ?_, fun p => trivial⟩
  · intro j x _ hx
    cases hx
  · intro p hp
    cases hp

end Steps

section Count

variable [DecidableEq P] {s t : State P} {p : P} {out : List UInt8}

/-- How many bytes the read in progress has copied. -/
def PC.copied : PC → Option Nat
  | .readCopy _ _ i | .readDone _ i => some i
  | _ => none

/-- Process `p` is copying or about to return, and since `out` had been delivered it has delivered
as many bytes as it has counted. -/
def Copying (s : State P) (p : P) (out : List UInt8) : Prop :=
  ∃ l, s.delivered = out ++ l ∧ (s.pc p).copied = some l.length

/-- The step is the return of the read of `p`. -/
def Returns (s : State P) (p : P) : Event P → Prop
  | .advance q => q = p ∧ ∃ n i, s.pc p = .readDone n i
  | _ => False

omit [DecidableEq P] in
theorem Copying.locked (h : Copying s p out) : (s.pc p).locked = true := by
  obtain ⟨l, -, hl⟩ := h
  cases hpc : s.pc p with
  | readCopy n room i => rfl
  | readDone n i => rfl
  | _ =>
    rw [hpc] at hl
    cases hl

omit [DecidableEq P] in
theorem copied_wake (chan : Chan) (q : PC) : (q.wake chan).copied = q.copied := by
  cases q <;> simp only [PC.wake] <;> split <;> rfl

omit [DecidableEq P] in
theorem Copying.congr (h : Copying s p out) (hd : t.delivered = s.delivered)
    (hpc : (t.pc p).copied = (s.pc p).copied) : Copying t p out := by
  unfold Copying
  rw [hd, hpc]
  exact h

/-- The lock keeps the other processes out. -/
theorem advance_other (h : Inv s) (hp : (s.pc p).locked = true) {q : P} (hqp : q ≠ p)
    (ht : advance s q = some t) :
    t.delivered = s.delivered ∧ (t.pc p).copied = (s.pc p).copied := by
  have hlock := h.lock p hp
  have hno : (s.pc q).locked ≠ true := by
    intro hq
    rw [h.lock q hq] at hlock
    exact hqp (Option.some.inj hlock)
  unfold advance at ht
  cases hpc : s.pc q with
  | idle => rw [hpc] at ht; cases ht
  | writeAsleep src n i => rw [hpc] at ht; cases ht
  | readAsleep n room => rw [hpc] at ht; cases ht
  | writeAcquire src n i =>
    simp only [hpc] at ht
    obtain ⟨hs, -⟩ := acquire_map ht
    rw [hlock] at hs
    cases hs
  | readAcquire n room =>
    simp only [hpc] at ht
    obtain ⟨hs, -⟩ := acquire_map ht
    rw [hlock] at hs
    cases hs
  | _ =>
    rw [hpc] at hno
    exact absurd rfl hno

/-- A step of the read itself. -/
theorem advance_copying (h : Inv s) (hc : Copying s p out) (hret : ¬∃ n i, s.pc p = .readDone n i)
    (ht : advance s p = some t) : Copying t p out := by
  obtain ⟨l, hd, hl⟩ := hc
  have hk := h.knows p
  unfold advance at ht
  cases hpc : s.pc p with
  | readDone n i => exact absurd ⟨n, i, hpc⟩ hret
  | readCopy n room i =>
    rw [hpc] at hk hl
    cases hl
    simp only [hpc] at ht
    have hsame (u : State P) (hu : s.goto p (.readDone n l.length) = u) : Copying u p out := by
      subst hu
      refine ⟨l, hd, ?_⟩
      simp only [State.goto, Function.update_self, PC.copied]
    split_ifs at ht with hin hempty hfits <;> cases ht
    · exact hsame _ rfl
    · refine ⟨l ++ [s.data (s.nread.toNat % PIPESIZE)], ?_, ?_⟩
      · simp only [State.goto, State.get, if_true, hd, List.append_assoc]
      · simp only [State.goto, Function.update_self, PC.copied, List.length_append,
          List.length_singleton]
    · have hroom : n ≤ room := hk.1
      omega
    · exact hsame _ rfl
  | _ =>
    rw [hpc] at hl
    cases hl

theorem step_copying (h : Inv s) (hc : Copying s p out) (e : Event P) (hret : ¬Returns s p e)
    (ht : step s e = some t) : Copying t p out := by
  have hp := hc.locked
  have hbusy : s.pc p ≠ .idle := by
    intro hidle
    rw [hidle] at hp
    cases hp
  unfold step at ht
  split_ifs at ht with hgone
  cases e with
  | pipewrite q src n =>
    simp only at ht
    split_ifs at ht with hidle
    cases ht
    have hpq : p ≠ q := by
      rintro rfl
      exact hbusy hidle
    refine hc.congr rfl ?_
    simp only [State.goto, Function.update_of_ne hpq]
  | piperead q n room =>
    simp only at ht
    split_ifs at ht with hidle
    cases ht
    have hpq : p ≠ q := by
      rintro rfl
      exact hbusy hidle
    refine hc.congr rfl ?_
    simp only [State.goto, Function.update_of_ne hpq]
  | pipeclose writable =>
    have hlock := h.lock p hp
    simp only [pipeclose, hlock] at ht
    cases ht
  | advance q =>
    by_cases hqp : q = p
    · subst hqp
      exact advance_copying h hc (fun hdone => hret ⟨rfl, hdone⟩) ht
    · obtain ⟨hd, hpc⟩ := advance_other h hp hqp ht
      exact hc.congr hd hpc
  | kill q =>
    cases ht
    refine hc.congr rfl ?_
    by_cases hqp : p = q
    · subst hqp
      simp only [State.goto, Function.update_self, copied_wake]
    · simp only [State.goto, Function.update_of_ne hqp]

/-- The count that piperead returns is the number of bytes that it has delivered, whatever the
others do meanwhile. -/
theorem piperead_count {n n' : Int} {room i : Nat} {es : List (Event P)} (h : Inv s)
    (hpc : s.pc p = .readCopy n room 0)
    (hg : Guarded step (fun s e => CopiesOut s e ∧ ¬Returns s p e) s es)
    (hr : run step s es = some t) (hdone : t.pc p = .readDone n' i) :
    ∃ l, t.delivered = s.delivered ++ l ∧ l.length = i := by
  have hstart : Inv s ∧ Copying s p s.delivered := by
    refine ⟨h, [], (List.append_nil _).symm, ?_⟩
    rw [hpc]
    rfl
  obtain ⟨-, l, hd, hl⟩ := guarded_run_invariant step
    (fun s e => CopiesOut s e ∧ ¬Returns s p e) (fun t => Inv t ∧ Copying t p s.delivered)
    (fun s e t hi he ht => ⟨step_inv s e t hi.1 he.1 ht, step_copying hi.1 hi.2 e he.2 ht⟩)
    s t es hstart hg hr
  rw [hdone] at hl
  exact ⟨l, hd, (Option.some.inj hl).symm⟩

end Count

/-- The pipe is a queue: what comes out is what went in, in order, and the rest is in the
ring. A read of 0 bytes means that the pipe is empty and its write end closed. -/
structure Fifo (s : State P) : Prop where
  bound : (s.nwrite - s.nread).toNat ≤ PIPESIZE
  prefixed : s.delivered <+: s.accepted
  unread : s.accepted.length = s.delivered.length + (s.nwrite - s.nread).toNat
  stored : ∀ k, k < (s.nwrite - s.nread).toNat → s.accepted[s.delivered.length + k]? =
    some (s.data ((s.nread + k.toUInt32).toNat % PIPESIZE))
  eof : ∀ p n, s.pc p = .readDone n 0 → 0 < n →
    s.delivered = s.accepted ∧ s.writeopen = false

theorem Inv.toFifo {s : State P} (h : Inv s) : Fifo s := by
  have hu := h.bytes.unread
  have hle := h.bytes.length_le
  have hshort := h.bytes.short
  refine ⟨by omega, h.bytes.fifo, by omega, ?_, ?_⟩
  · intro k hk
    have hlt : s.delivered.length + k < s.accepted.length := by omega
    have hr := h.bytes.ring _ _ (Nat.le_add_right _ k) (List.getElem?_eq_getElem hlt)
    have hslot : (s.nread + k.toUInt32).toNat % PIPESIZE =
        (s.delivered.length + k) % PIPESIZE := by
      have hk' : k.toUInt32.toNat = k := by
        apply UInt32.toNat_ofNat_of_lt'
        have : PIPESIZE < UInt32.size := by decide
        omega
      rw [UInt32.toNat_add, h.bytes.read, hk', Nat.mod_add_mod, slot_of_counter]
    rw [hslot, hr]
    exact List.getElem?_eq_getElem hlt
  · intro p n hp hn
    have hk := h.knows p
    rw [hp] at hk
    obtain ⟨he, ho⟩ := hk rfl hn
    exact ⟨h.bytes.fifo.eq_of_length (h.bytes.empty_iff.mp he), ho⟩

variable [DecidableEq P]

/-- Every run of calls on a new pipe keeps it a queue. -/
theorem pipe_fifo (junk : Nat → UInt8) (killed : P → Bool) (es : List (Event P)) (s : State P)
    (hc : Guarded step CopiesOut (pipealloc junk killed) es)
    (hr : run step (pipealloc junk killed) es = some s) : Fifo s :=
  (guarded_run_invariant step CopiesOut Inv step_inv _ s es (pipealloc_inv junk killed)
    hc hr).toFifo

instance (s : State P) (e : Event P) : Decidable (CopiesOut s e) := by
  cases e <;> unfold CopiesOut <;> infer_instance

/-- Process 0 writes two bytes, process 1 reads one of them. -/
def writeThenRead : List (Event (Fin 2)) :=
  [.piperead 1 1 1, .advance 1, .advance 1, .pipewrite 0 [7, 8] 2, .advance 0, .advance 0,
    .advance 0, .advance 0, .advance 0, .advance 1, .advance 1, .advance 1, .advance 1]

theorem pipe_fifo_writeThenRead : ∃ s, run step (pipealloc (fun _ => 5) (fun _ => false))
    writeThenRead = some s ∧ Fifo s ∧ s.accepted = [7, 8] ∧ s.delivered = [7] ∧
      s.pc 1 = .readDone 1 1 := by
  have hr : (run step (pipealloc (fun _ => 5) (fun _ => false)) writeThenRead).map
      (fun s => (s.accepted, s.delivered, s.pc 1)) = some ([7, 8], [7], .readDone 1 1) := by decide
  obtain ⟨s, hs, heq⟩ := Option.map_eq_some_iff.mp hr
  obtain ⟨haccepted, heq⟩ := Prod.mk.inj heq
  obtain ⟨hdelivered, hpc⟩ := Prod.mk.inj heq
  exact ⟨s, hs, pipe_fifo (fun _ => 5) (fun _ => false) writeThenRead s (by decide) hs,
    haccepted, hdelivered, hpc⟩

end Xv6Labs.Pipe
