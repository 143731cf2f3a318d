import Xv6Labs.VirtioCode
import Xv6Labs.RingSlots
import Mathlib.Data.List.Nodup
import Mathlib.Data.List.Perm.Subperm

/-! Descriptor accounting of the disk driver: chains of calls are apart, entries of both rings
last until they are read, and each completion ends the call that made the request. -/
namespace Xv6Labs.Virtio

section Threads

variable {B : Type}

/-- The thread is between acquire and release of `disk.vdisk_lock`. -/
def PC.locked : PC B → Bool
  | .alloc .. | .format .. | .ring .. | .bump .. | .wait .. | .intrLoop => true
  | _ => false

/-- The buffer of the call. -/
def PC.buf : PC B → Option B
  | .acquire b _ | .alloc b _ | .asleepFree b _ | .format b _ _ | .ring b _ _ | .bump b _ _
  | .wait b _ _ _ | .asleepBuf b _ _ _ | .reacquire b _ _ _ => some b
  | _ => none

/-- The descriptors of the call. -/
def PC.chain : PC B → List Nat
  | .format _ _ idx | .ring _ _ idx | .bump _ _ idx | .wait _ _ idx _ | .asleepBuf _ _ idx _
  | .reacquire _ _ idx _ => [idx.d0, idx.d1, idx.d2]
  | _ => []

/-- The request of a call that has filled in its descriptors. -/
def PC.asked : PC B → Option (B × Bool × Idx)
  | .ring b w idx | .bump b w idx | .wait b w idx _ | .asleepBuf b w idx _
  | .reacquire b w idx _ => some (b, w, idx)
  | _ => none

/-- The head that the call has put into the avail ring, before the index moves. -/
def PC.bumping : PC B → Option Nat
  | .bump _ _ idx => some idx.d0
  | _ => none

/-- The number of the call's entry. -/
def PC.sent : PC B → Option Nat
  | .wait _ _ _ k | .asleepBuf _ _ _ k | .reacquire _ _ _ k => some k
  | _ => none

/-- `q'` differs from `q` at most in whether it is asleep. -/
structure Same (q q' : PC B) : Prop where
  locked : q'.locked = q.locked
  buf : q'.buf = q.buf
  chain : q'.chain = q.chain
  asked : q'.asked = q.asked
  bumping : q'.bumping = q.bumping
  sent : q'.sent = q.sent

theorem Same.refl (q : PC B) : Same q q := ⟨rfl, rfl, rfl, rfl, rfl, rfl⟩

theorem Same.trans {a b c : PC B} (h : Same a b) (h' : Same b c) : Same a c :=
  ⟨h'.locked.trans h.locked, h'.buf.trans h.buf, h'.chain.trans h.chain, h'.asked.trans h.asked,
    h'.bumping.trans h.bumping, h'.sent.trans h.sent⟩

theorem wake_same [DecidableEq B] (chan : Chan B) (q : PC B) : Same q (q.wake chan) := by
  cases q <;> try exact Same.refl _
  · cases chan <;> exact ⟨rfl, rfl, rfl, rfl, rfl, rfl⟩
  · cases chan
    · exact Same.refl _
    · simp only [PC.wake]
      split_ifs <;> exact ⟨rfl, rfl, rfl, rfl, rfl, rfl⟩

theorem kill_same (q : PC B) : Same q q.kill := by
  cases q <;> exact ⟨rfl, rfl, rfl, rfl, rfl, rfl⟩

theorem asked_chain {q : PC B} {b : B} {w : Bool} {idx : Idx} (h : q.asked = some (b, w, idx)) :
    q.chain = [idx.d0, idx.d1, idx.d2] ∧ q.buf = some b := by
  cases q <;> cases h <;> exact ⟨rfl, rfl⟩

end Threads

section Invariant

variable {P B : Type}

/-- The head of the `k`-th chain. -/
def State.head (s : State P B) (k : Nat) : Nat := ((s.requests[k]?).map (fun r => r.2.2.d0)).getD 0

/-- The entries of the used ring that virtio_disk_intr has seen. -/
def State.acked (s : State P B) : List Nat := s.completed.take s.cleared.length

/-- What virtio_disk_rw leaves in the descriptors. -/
structure Formatted (s : State P B) (b : B) (w : Bool) (idx : Idx) : Prop where
  head : s.desc idx.d0 = ⟨.op idx.d0, 16, VRING_DESC_F_NEXT, idx.d1⟩
  body : s.desc idx.d1 = ⟨.data b, BSIZE.toUInt32,
    (if w then 0 else VRING_DESC_F_WRITE) ||| VRING_DESC_F_NEXT, idx.d2⟩
  tail : s.desc idx.d2 = ⟨.status idx.d0, 1, VRING_DESC_F_WRITE, 0⟩
  op : s.ops idx.d0 =
    ⟨if w then .blkOut else .blkIn, 0, (s.blockno b * 2).toUInt64⟩
  info : s.infoB idx.d0 = some b

/-- What holds of thread `p` at `q`. -/
structure Good (s : State P B) (p : P) (q : PC B) : Prop where
  lock : q.locked = true → s.lock = some p
  owner : ∀ b, q.buf = some b → s.owner b = some p
  taken : ∀ i ∈ q.chain, i < NUM ∧ s.free i = false
  nodup : q.chain.Nodup
  asked : ∀ b w idx, q.asked = some (b, w, idx) → Formatted s b w idx ∧
    (s.disk b = false ↔ ∃ k, q.sent = some k ∧ k ∈ s.acked)
  bumping : ∀ i, q.bumping = some i → s.availRing (s.availIdx.toNat % NUM) = i
  sent : ∀ k, q.sent = some k → k ∉ s.returned ∧ ∃ b w idx, q.asked = some (b, w, idx) ∧
    s.requests[k]? = some (b, w, idx)

/-- The device has read the request as the call has formatted it. -/
def Exact (s : State P B) (r : Taken B) : Prop :=
  ∃ b w idx, s.requests[r.k]? = some (b, w, idx) ∧ r = ⟨r.k, idx.d0,
    some ⟨if w then .blkOut else .blkIn, 0, (s.blockno b * 2).toUInt64⟩, .data b,
    .status idx.d0⟩

/-- The rings, with the entries counted from the first one. -/
structure Rings (s : State P B) : Prop where
  availIdx : s.availIdx.toNat = s.requests.length % 2^16
  lastAvail : s.lastAvail.toNat = s.consumed % 2^16
  usedRingIdx : s.usedRingIdx.toNat = s.completed.length % 2^16
  usedIdx : s.usedIdx.toNat = s.cleared.length % 2^16
  consumed_le : s.consumed ≤ s.requests.length
  cleared_le : s.cleared.length ≤ s.completed.length
  avail : Window NUM s.availRing (s.requests.map (fun r => r.2.2.d0)) s.consumed
  used : Window NUM s.usedRing (s.completed.map s.head) s.cleared.length
  perm : (s.inflight.map Taken.k ++ s.completed).Perm (List.range s.consumed)
  exact : ∀ r ∈ s.inflight, Exact s r
  cleared : s.cleared.map some = s.acked.map (fun k => (s.requests[k]?).map Prod.fst)
  returned : ∀ k ∈ s.returned, k ∈ s.acked

structure Inv (s : State P B) : Prop where
  rings : Rings s
  good : ∀ p, Good s p (s.pc p)
  apart : ∀ p q i, i ∈ (s.pc p).chain → i ∈ (s.pc q).chain → p = q
  owned : ∀ i, i < NUM → s.free i = false → ∃ p, i ∈ (s.pc p).chain
  open_ : ∀ k, k < s.requests.length → k ∉ s.returned → ∃ p, (s.pc p).sent = some k
  status : ∀ k ∈ s.completed, k ∉ s.acked → s.status (s.head k) = 0
  panicked : s.panicked = none

end Invariant

section Facts

variable {P B : Type} {s t : State P B}

theorem Rings.nodup (h : Rings s) : (s.inflight.map Taken.k ++ s.completed).Nodup :=
  h.perm.nodup_iff.mpr List.nodup_range

theorem Rings.completed_lt (h : Rings s) {k : Nat} (hk : k ∈ s.completed) : k < s.consumed :=
  List.mem_range.mp (h.perm.mem_iff.mp (List.mem_append_right _ hk))

theorem acked_subset {k : Nat} (hk : k ∈ s.acked) : k ∈ s.completed :=
  List.mem_of_mem_take hk

theorem head_eq {k : Nat} {b : B} {w : Bool} {idx : Idx}
    (h : s.requests[k]? = some (b, w, idx)) : s.head k = idx.d0 := by
  unfold State.head
  rw [h]
  rfl

theorem next_index {c : UInt16} {a : Nat} (h : c.toNat = a % 2^16) :
    (c + 1).toNat = (a + 1) % 2^16 := by
  have hone : (1 : UInt16).toNat = 1 := rfl
  rw [UInt16.toNat_add, h, hone, Nat.mod_add_mod]

theorem slot_of_index (a : Nat) : a % 2^16 % NUM = a % NUM := Nat.mod_mod_of_dvd a (by decide)

/-- The head of an open chain is a descriptor of the call that waits for it. -/
theorem Inv.head_mem (h : Inv s) {p : P} {k : Nat} (hp : (s.pc p).sent = some k) :
    s.head k ∈ (s.pc p).chain := by
  obtain ⟨-, b, w, idx, ha, hr⟩ := (h.good p).sent k hp
  rw [head_eq hr, (asked_chain ha).1]
  exact List.mem_cons_self

/-- Open chains have different heads. -/
theorem Inv.heads_nodup (h : Inv s) {l : List Nat} (hl : l.Nodup)
    (ho : ∀ k ∈ l, k < s.requests.length ∧ k ∉ s.returned) : (l.map s.head).Nodup := by
  apply List.Nodup.map_on _ hl
  intro j hj k hk he
  obtain ⟨p, hp⟩ := h.open_ j (ho j hj).1 (ho j hj).2
  obtain ⟨q, hq⟩ := h.open_ k (ho k hk).1 (ho k hk).2
  have hpq := h.apart p q _ (h.head_mem hp) (he ▸ h.head_mem hq)
  subst hpq
  rw [hp] at hq
  exact Option.some.inj hq

theorem Inv.heads_lt (h : Inv s) {l : List Nat}
    (ho : ∀ k ∈ l, k < s.requests.length ∧ k ∉ s.returned) : ∀ i ∈ l.map s.head, i < NUM := by
  intro i hi
  obtain ⟨k, hk, rfl⟩ := List.mem_map.mp hi
  obtain ⟨p, hp⟩ := h.open_ k (ho k hk).1 (ho k hk).2
  exact ((h.good p).taken _ (h.head_mem hp)).1

/-- Different numbers below `NUM` are at most `NUM` many. -/
theorem length_le_num {l : List Nat} (hl : l.Nodup) (hlt : ∀ i ∈ l, i < NUM) : l.length ≤ NUM := by
  have hsub : l ⊆ List.range NUM := fun i hi => List.mem_range.mpr (hlt i hi)
  have hle := (List.subperm_of_subset hl hsub).length_le
  rwa [List.length_range] at hle

/-- There is room for the entry of a call that has none yet. -/
theorem Inv.avail_room (h : Inv s) {p : P} {i : Nat} (hi : i ∈ (s.pc p).chain)
    (hp : (s.pc p).sent = none) : s.requests.length < s.consumed + NUM := by
  let l := List.range' s.consumed (s.requests.length - s.consumed)
  have ho : ∀ k ∈ l, k < s.requests.length ∧ k ∉ s.returned := by
    intro k hk
    obtain ⟨hge, hlt⟩ := List.mem_range'_1.mp hk
    have hle := h.rings.consumed_le
    refine ⟨by omega, ?_⟩
    intro hret
    have := h.rings.completed_lt (acked_subset (h.rings.returned k hret))
    omega
  have hnd : (i :: l.map s.head).Nodup := by
    refine List.nodup_cons.mpr ⟨?_, h.heads_nodup List.nodup_range' ho⟩
    intro hmem
    obtain ⟨k, hk, hki⟩ := List.mem_map.mp hmem
    obtain ⟨q, hq⟩ := h.open_ k (ho k hk).1 (ho k hk).2
    have hpq := h.apart p q i hi (hki ▸ h.head_mem hq)
    rw [hpq, hq] at hp
    cases hp
  have hle := length_le_num hnd (by
    intro j hj
    rcases List.mem_cons.mp hj with rfl | hj
    · exact ((h.good p).taken _ hi).1
    · exact h.heads_lt ho j hj)
  rw [List.length_cons, List.length_map, List.length_range'] at hle
  omega

/-- There is room in the used ring for a request that the device works on. -/
theorem Inv.used_room (h : Inv s) {r : Taken B} (hr : r ∈ s.inflight) :
    s.completed.length < s.cleared.length + NUM := by
  have hnd := h.rings.nodup
  have hsplit : s.acked ++ s.completed.drop s.cleared.length = s.completed :=
    List.take_append_drop _ _
  have hmem : r.k ∈ s.inflight.map Taken.k := List.mem_map_of_mem hr
  have hndc : s.completed.Nodup := (List.nodup_append.mp hnd).2.1
  have ho : ∀ k ∈ r.k :: s.completed.drop s.cleared.length,
      k < s.requests.length ∧ k ∉ s.returned := by
    intro k hk
    have hc : k < s.consumed := by
      rcases List.mem_cons.mp hk with rfl | hk
      · exact List.mem_range.mp (h.rings.perm.mem_iff.mp (List.mem_append_left _ hmem))
      · exact h.rings.completed_lt (List.mem_of_mem_drop hk)
    refine ⟨Nat.lt_of_lt_of_le hc h.rings.consumed_le, ?_⟩
    intro hret
    have hack := h.rings.returned k hret
    rcases List.mem_cons.mp hk with rfl | hk
    · exact (List.nodup_append.mp hnd).2.2 _ hmem _ (acked_subset hack) rfl
    · rw [← hsplit] at hndc
      exact (List.nodup_append.mp hndc).2.2 _ hack _ hk rfl
  have hnodup : (r.k :: s.completed.drop s.cleared.length).Nodup := by
    refine List.nodup_cons.mpr ⟨?_, hndc.sublist (List.drop_sublist _ _)⟩
    intro hk
    exact (List.nodup_append.mp hnd).2.2 _ hmem _ (List.mem_of_mem_drop hk) rfl
  have hle := length_le_num (h.heads_nodup hnodup ho) (h.heads_lt ho)
  rw [List.length_map, List.length_cons, List.length_drop] at hle
  have := h.rings.cleared_le
  omega

end Facts

section Frames

variable {P B : Type} {s t : State P B} {p : P} {q q' : PC B}

/-- A thread that a step is not about. -/
theorem Good.keep (h : Good s p q) (hs : Same q q') (hlock : q.locked = true → t.lock = s.lock)
    (howner : ∀ b, q.buf = some b → t.owner b = s.owner b)
    (hfree : ∀ i ∈ q.chain, t.free i = s.free i)
    (hform : ∀ b w idx, q.asked = some (b, w, idx) → Formatted s b w idx → Formatted t b w idx)
    (hdisk : ∀ b w idx, q.asked = some (b, w, idx) → t.disk b = s.disk b)
    (hack : ∀ k, q.sent = some k → (k ∈ t.acked ↔ k ∈ s.acked))
    (hslot : q.locked = true → t.availRing = s.availRing ∧ t.availIdx = s.availIdx)
    (hsent : ∀ k r, q.sent = some k → k ∉ s.returned → s.requests[k]? = some r →
      k ∉ t.returned ∧ t.requests[k]? = some r) : Good t p q' := by
  refine ⟨?_, ?_, ?_, ?_, ?_, ?_, ?_⟩
  · intro hl
    rw [hs.locked] at hl
    rw [hlock hl]
    exact h.lock hl
  · intro b hb
    rw [hs.buf] at hb
    rw [howner b hb]
    exact h.owner b hb
  · intro i hi
    rw [hs.chain] at hi
    rw [hfree i hi]
    exact h.taken i hi
  · rw [hs.chain]
    exact h.nodup
  · intro b w idx ha
    rw [hs.asked] at ha
    obtain ⟨hf, hd⟩ := h.asked b w idx ha
    refine ⟨hform b w idx ha hf, ?_⟩
    rw [hdisk b w idx ha, hd, hs.sent]
    constructor
    · rintro ⟨k, hk, hka⟩
      exact ⟨k, hk, (hack k hk).mpr hka⟩
    · rintro ⟨k, hk, hka⟩
      exact ⟨k, hk, (hack k hk).mp hka⟩
  · intro i hi
    rw [hs.bumping] at hi
    have hl : q.locked = true := by
      cases q <;> cases hi
      rfl
    rw [(hslot hl).1, (hslot hl).2]
    exact h.bumping i hi
  · intro k hk
    rw [hs.sent] at hk
    obtain ⟨hr, b, w, idx, ha, hreq⟩ := h.sent k hk
    obtain ⟨hr', hreq'⟩ := hsent k _ hk hr hreq
    exact ⟨hr', b, w, idx, hs.asked ▸ ha, hreq'⟩

theorem Formatted.keep {b : B} {w : Bool} {idx : Idx} (h : Formatted s b w idx)
    (hdesc : ∀ i ∈ [idx.d0, idx.d1, idx.d2], t.desc i = s.desc i)
    (hops : t.ops idx.d0 = s.ops idx.d0) (hinfo : t.infoB idx.d0 = s.infoB idx.d0)
    (hno : t.blockno = s.blockno) : Formatted t b w idx := by
  refine ⟨?_, ?_, ?_, ?_, ?_⟩
  · rw [hdesc _ (by simp)]
    exact h.head
  · rw [hdesc _ (by simp)]
    exact h.body
  · rw [hdesc _ (by simp)]
    exact h.tail
  · rw [hops, hno]
    exact h.op
  · rw [hinfo]
    exact h.info

/-- A step that only moves threads, locks and unused descriptors. -/
theorem Inv.threads (h : Inv s) (pc : P → PC B) (lock : Option P) (owner : B → Option P)
    (desc : Nat → Desc B) (hdesc : ∀ i, s.free i = false → desc i = s.desc i)
    (hchain : ∀ x, (pc x).chain = (s.pc x).chain) (hasked : ∀ x, (pc x).asked = (s.pc x).asked)
    (hsent : ∀ x, (pc x).sent = (s.pc x).sent)
    (hbump : ∀ x i, (pc x).bumping = some i → (s.pc x).bumping = some i)
    (hlock : ∀ x, (pc x).locked = true → lock = some x)
    (howner : ∀ x b, (pc x).buf = some b → owner b = some x) :
    Inv { s with pc := pc, lock := lock, owner := owner, desc := desc } := by
  refine ⟨⟨h.rings.1, h.rings.2, h.rings.3, h.rings.4, h.rings.5, h.rings.6, h.rings.7, h.rings.8,
    h.rings.9, h.rings.10, h.rings.11, h.rings.12⟩, ?_, ?_, ?_, ?_, h.status, h.panicked⟩
  · intro x
    have hx := h.good x
    refine ⟨hlock x, howner x, ?_, ?_, ?_, fun i hi => hx.bumping i (hbump x i hi), ?_⟩
    · rw [hchain]
      exact hx.taken
    · rw [hchain]
      exact hx.nodup
    · intro b w idx ha
      rw [hasked] at ha
      obtain ⟨hf, hd⟩ := hx.asked b w idx ha
      refine ⟨hf.keep ?_ rfl rfl rfl, ?_⟩
      · intro i hi
        rw [← (asked_chain ha).1] at hi
        exact hdesc i (hx.taken i hi).2
      · rw [hsent]
        exact hd
    · intro k hk
      rw [hsent] at hk
      rw [hasked]
      exact hx.sent k hk
  · intro x y i hx hy
    rw [hchain] at hx hy
    exact h.apart x y i hx hy
  · intro i hi hf
    obtain ⟨x, hx⟩ := h.owned i hi hf
    exact ⟨x, by rw [hchain]; exact hx⟩
  · intro k hk hr
    obtain ⟨x, hx⟩ := h.open_ k hk hr
    exact ⟨x, by rw [hsent]; exact hx⟩

variable [DecidableEq P]

/-- Thread `p` goes on, and takes or gives the lock or has it before and after. -/
theorem Inv.goto (h : Inv s) (q : PC B) (lock : Option P) (pc : P → PC B) (desc : Nat → Desc B)
    (hdesc : ∀ i, s.free i = false → desc i = s.desc i)
    (hother : ∀ x, x ≠ p → Same (s.pc x) (pc x)) (hpc : pc p = q)
    (hchain : q.chain = (s.pc p).chain) (hasked : q.asked = (s.pc p).asked)
    (hsent : q.sent = (s.pc p).sent) (hbump : ∀ i, q.bumping = some i → (s.pc p).bumping = some i)
    (hlock : q.locked = true → lock = some p)
    (hkeep : s.lock = none ∨ s.lock = some p ∨ lock = s.lock)
    (hbuf : ∀ b, q.buf = some b → s.owner b = some p) :
    Inv { s with pc := pc, lock := lock, desc := desc } := by
  have hx (x : P) : x = p ∧ pc x = q ∨ x ≠ p ∧ Same (s.pc x) (pc x) := by
    by_cases hxp : x = p
    · subst hxp
      exact Or.inl ⟨rfl, hpc⟩
    · exact Or.inr ⟨hxp, hother x hxp⟩
  refine h.threads pc lock s.owner desc hdesc ?_ ?_ ?_ ?_ ?_ ?_
  · intro x
    rcases hx x with ⟨rfl, he⟩ | ⟨-, hs⟩
    · rw [he, hchain]
    · exact hs.chain
  · intro x
    rcases hx x with ⟨rfl, he⟩ | ⟨-, hs⟩
    · rw [he, hasked]
    · exact hs.asked
  · intro x
    rcases hx x with ⟨rfl, he⟩ | ⟨-, hs⟩
    · rw [he, hsent]
    · exact hs.sent
  · intro x i hi
    rcases hx x with ⟨rfl, he⟩ | ⟨-, hs⟩
    · rw [he] at hi
      exact hbump i hi
    · rw [hs.bumping] at hi
      exact hi
  · intro x hl
    rcases hx x with ⟨rfl, he⟩ | ⟨hne, hs⟩
    · rw [he] at hl
      exact hlock hl
    · rw [hs.locked] at hl
      have hxl := (h.good x).lock hl
      rcases hkeep with hn | hn | hn
      · rw [hn] at hxl
        cases hxl
      · rw [hn] at hxl
        exact absurd (Option.some.inj hxl).symm hne
      · rw [hn]
        exact hxl
  · intro x b hb
    rcases hx x with ⟨rfl, he⟩ | ⟨-, hs⟩
    · rw [he] at hb
      exact hbuf b hb
    · rw [hs.buf] at hb
      exact (h.good x).owner b hb

end Frames

section Descriptors

variable {P B : Type} [DecidableEq B]

omit [DecidableEq B] in
theorem allocDesc_spec (s : State P B) :
    (∃ i, allocDesc s = (some i, { s with free := Function.update s.free i false }) ∧ i < NUM ∧
      s.free i = true) ∨ allocDesc s = (none, s) := by
  unfold allocDesc
  cases hf : (List.range NUM).find? s.free with
  | none => exact Or.inr rfl
  | some i =>
    refine Or.inl ⟨i, rfl, ?_, List.find?_some hf⟩
    exact List.mem_range.mp (List.mem_of_find?_eq_some hf)

theorem freeDesc_eq (s : State P B) {i : Nat} (hi : i < NUM) (hf : s.free i = false) :
    freeDesc s i = { s with
      desc := Function.update s.desc i ⟨.null, 0, 0, 0⟩
      free := Function.update s.free i true
      pc := fun q => (s.pc q).wake .free } := by
  unfold freeDesc
  rw [if_neg (Nat.not_le.mpr hi), hf, if_neg Bool.false_ne_true]
  rfl

/-- The three descriptors, or everything as before but for wake-ups and unused descriptors. -/
theorem alloc3Desc_spec (s : State P B) :
    (∃ idx : Idx, ∃ f, alloc3Desc s = (some idx, { s with free := f }) ∧
      [idx.d0, idx.d1, idx.d2].Nodup ∧
      (∀ i ∈ [idx.d0, idx.d1, idx.d2], i < NUM ∧ s.free i = true ∧ f i = false) ∧
      ∀ i, i ∉ [idx.d0, idx.d1, idx.d2] → f i = s.free i) ∨
    ∃ desc pc, alloc3Desc s = (none, { s with desc := desc, pc := pc }) ∧
      (∀ i, s.free i = false → desc i = s.desc i) ∧ ∀ q, Same (s.pc q) (pc q) := by
  have hwake (q : P) : Same (s.pc q) ((s.pc q).wake .free) := wake_same _ _
  have hunused {d i : Nat} {desc : Nat → Desc B} {x : Desc B} (hd : s.free d = true)
      (hi : s.free i = false) : Function.update desc d x i = desc i := by
    apply Function.update_of_ne
    rintro rfl
    rw [hd] at hi
    cases hi
  unfold alloc3Desc
  rcases allocDesc_spec s with ⟨d0, h0, hlt0, hf0⟩ | h0
  · rw [h0]
    rcases allocDesc_spec { s with free := Function.update s.free d0 false } with
      ⟨d1, h1, hlt1, hf1⟩ | h1
    · have hne1 : d1 ≠ d0 := by
        rintro rfl
        simp only [Function.update_self] at hf1
        cases hf1
      simp only [Function.update_of_ne hne1] at hf1
      simp only [h1]
      rcases allocDesc_spec { s with
        free := Function.update (Function.update s.free d0 false) d1 false } with
        ⟨d2, h2, hlt2, hf2⟩ | h2
      · have hne2 : d2 ≠ d1 := by
          rintro rfl
          simp only [Function.update_self] at hf2
          cases hf2
        have hne3 : d2 ≠ d0 := by
          rintro rfl
          simp only [Function.update_of_ne hne2, Function.update_self] at hf2
          cases hf2
        simp only [Function.update_of_ne hne2, Function.update_of_ne hne3] at hf2
        simp only [h2]
        refine Or.inl ⟨⟨d0, d1, d2⟩, _, rfl, ?_, ?_, ?_⟩
        · simp [hne1.symm, hne2.symm, hne3.symm]
        · intro i hi
          simp only [List.mem_cons, List.not_mem_nil, or_false] at hi
          rcases hi with rfl | rfl | rfl
          · simp [hlt0, hf0, Function.update_of_ne hne1.symm, Function.update_of_ne hne3.symm]
          · simp [hlt1, hf1, Function.update_of_ne hne2.symm]
          · simp [hlt2, hf2]
        · intro i hi
          simp only [List.mem_cons, List.not_mem_nil, or_false, not_or] at hi
          rw [Function.update_of_ne hi.2.2, Function.update_of_ne hi.2.1,
            Function.update_of_ne hi.1]
      · -- the third is missing: the first two are given back
        simp only [h2]
        rw [freeDesc_eq _ hlt0 (by simp [Function.update_of_ne hne1.symm]),
          freeDesc_eq _ hlt1 (by simp [Function.update_of_ne hne1])]
        have hfree : Function.update (Function.update (Function.update (Function.update s.free
            d0 false) d1 false) d0 true) d1 true = s.free := by
          funext i
          by_cases hi1 : i = d1
          · rw [hi1, Function.update_self, hf1]
          · rw [Function.update_of_ne hi1]
            by_cases hi0 : i = d0
            · rw [hi0, Function.update_self, hf0]
            · rw [Function.update_of_ne hi0, Function.update_of_ne hi1, Function.update_of_ne hi0]
        simp only [hfree]
        refine Or.inr ⟨_, _, rfl, ?_, ?_⟩
        · intro i hi
          rw [hunused hf1 hi, hunused hf0 hi]
        · intro q
          exact (hwake q).trans (wake_same _ _)
    · simp only [h1]
      rw [freeDesc_eq _ hlt0 (by simp)]
      have hfree : Function.update (Function.update s.free d0 false) d0 true = s.free := by
        rw [Function.update_idem, ← hf0, Function.update_eq_self]
      simp only [hfree]
      exact Or.inr ⟨_, _, rfl, fun i hi => hunused hf0 hi, hwake⟩
  · rw [h0]
    exact Or.inr ⟨s.desc, s.pc, rfl, fun _ _ => rfl, fun q => Same.refl _⟩

/-- free_chain gives back the three descriptors of a formatted chain. -/
theorem freeChain_formatted {s : State P B} {b : B} {w : Bool} {idx : Idx}
    (hhead : s.desc idx.d0 = ⟨.op idx.d0, 16, VRING_DESC_F_NEXT, idx.d1⟩)
    (hbody : s.desc idx.d1 = ⟨.data b, BSIZE.toUInt32,
      (if w then 0 else VRING_DESC_F_WRITE) ||| VRING_DESC_F_NEXT, idx.d2⟩)
    (htail : s.desc idx.d2 = ⟨.status idx.d0, 1, VRING_DESC_F_WRITE, 0⟩)
    (hnd : [idx.d0, idx.d1, idx.d2].Nodup)
    (hin : ∀ i ∈ [idx.d0, idx.d1, idx.d2], i < NUM ∧ s.free i = false)
    (hp : s.panicked = none) :
    ∃ f desc pc, freeChain (NUM + 1) s idx.d0 = { s with free := f, desc := desc, pc := pc } ∧
      (∀ i ∈ [idx.d0, idx.d1, idx.d2], f i = true) ∧
      (∀ i, i ∉ [idx.d0, idx.d1, idx.d2] → f i = s.free i ∧ desc i = s.desc i) ∧
      ∀ q, Same (s.pc q) (pc q) := by
  obtain ⟨hlt0, hf0⟩ := hin idx.d0 (by simp)
  obtain ⟨hlt1, hf1⟩ := hin idx.d1 (by simp)
  obtain ⟨hlt2, hf2⟩ := hin idx.d2 (by simp)
  simp only [List.nodup_cons, List.mem_cons, List.not_mem_nil, or_false, not_or, not_false_iff,
    List.nodup_nil, and_true] at hnd
  obtain ⟨⟨hne1, hne2⟩, hne3⟩ := hnd
  have hnext : VRING_DESC_F_NEXT &&& VRING_DESC_F_NEXT ≠ 0 := by decide
  have hbodyNext : ((if w then 0 else VRING_DESC_F_WRITE) ||| VRING_DESC_F_NEXT) &&&
      VRING_DESC_F_NEXT ≠ 0 := by cases w <;> decide
  have hlast : VRING_DESC_F_WRITE &&& VRING_DESC_F_NEXT = 0 := by decide
  have hnum : NUM + 1 = 6 + 1 + 1 + 1 := rfl
  rw [hnum]
  unfold freeChain
  simp only [hhead, freeDesc_eq s hlt0 hf0, hp, ne_eq, not_true_eq_false, if_false, hnext,
    not_false_eq_true, if_true]
  unfold freeChain
  simp only [Function.update_of_ne (Ne.symm hne1), hbody]
  rw [freeDesc_eq _ hlt1 (by simp [Function.update_of_ne (Ne.symm hne1), hf1])]
  simp only [ne_eq, not_true_eq_false, if_false, hbodyNext, not_false_eq_true, if_true]
  unfold freeChain
  simp only [Function.update_of_ne (Ne.symm hne2), Function.update_of_ne (Ne.symm hne3), htail]
  rw [freeDesc_eq _ hlt2
    (by simp [Function.update_of_ne (Ne.symm hne2), Function.update_of_ne (Ne.symm hne3), hf2])]
  simp only [ne_eq, not_true_eq_false, if_false, hlast]
  refine ⟨_, _, _, rfl, ?_, ?_, ?_⟩
  · intro i hi
    simp only [List.mem_cons, List.not_mem_nil, or_false] at hi
    rcases hi with rfl | rfl | rfl
    · rw [Function.update_of_ne hne2, Function.update_of_ne hne1, Function.update_self]
    · rw [Function.update_of_ne hne3, Function.update_self]
    · rw [Function.update_self]
  · intro i hi
    simp only [List.mem_cons, List.not_mem_nil, or_false, not_or] at hi
    rw [Function.update_of_ne hi.2.2, Function.update_of_ne hi.2.1, Function.update_of_ne hi.1,
      Function.update_of_ne hi.2.2, Function.update_of_ne hi.2.1, Function.update_of_ne hi.1]
    exact ⟨rfl, rfl⟩
  · intro q
    exact ((wake_same _ _).trans (wake_same _ _)).trans (wake_same _ _)

end Descriptors

section Steps

variable {P B : Type} [DecidableEq P] [DecidableEq B] {s t : State P B} {p : P} {b : B}
  {w : Bool} {idx : Idx} {k : Nat}

omit [DecidableEq B] in
/-- The call gets three free descriptors. -/
theorem Inv.alloc (h : Inv s) (hpc : s.pc p = .alloc b w) (f : Nat → Bool)
    (hnd : [idx.d0, idx.d1, idx.d2].Nodup)
    (hin : ∀ i ∈ [idx.d0, idx.d1, idx.d2], i < NUM ∧ s.free i = true ∧ f i = false)
    (hout : ∀ i, i ∉ [idx.d0, idx.d1, idx.d2] → f i = s.free i) :
    Inv { s with free := f, pc := Function.update s.pc p (.format b w idx) } := by
  have hp := h.good p
  rw [hpc] at hp
  -- the descriptors of the other calls are not among the three
  have hold (x : P) (i : Nat) (hi : i ∈ (s.pc x).chain) : i ∉ [idx.d0, idx.d1, idx.d2] := by
    intro hmem
    have htaken := ((h.good x).taken i hi).2
    rw [(hin i hmem).2.1] at htaken
    cases htaken
  refine ⟨⟨h.rings.1, h.rings.2, h.rings.3, h.rings.4, h.rings.5, h.rings.6, h.rings.7, h.rings.8,
    h.rings.9, h.rings.10, h.rings.11, h.rings.12⟩, ?_, ?_, ?_, ?_, h.status, h.panicked⟩
  · intro x
    by_cases hxp : x = p
    · subst hxp
      simp only [Function.update_self]
      exact ⟨fun _ => hp.lock rfl, hp.owner, fun i hi => ⟨(hin i hi).1, (hin i hi).2.2⟩, hnd,
        fun _ _ _ ha => (by cases ha), fun _ hi => (by cases hi), fun _ hk => (by cases hk)⟩
    · simp only [Function.update_of_ne hxp]
      exact (h.good x).keep (Same.refl _) (fun _ => rfl) (fun _ _ => rfl)
        (fun i hi => hout i (hold x i hi)) (fun _ _ _ _ hf => ⟨hf.1, hf.2, hf.3, hf.4, hf.5⟩)
        (fun _ _ _ _ => rfl) (fun _ _ => Iff.rfl) (fun _ => ⟨rfl, rfl⟩)
        (fun _ _ _ hr hq => ⟨hr, hq⟩)
  · intro x y i hx hy
    by_cases hxp : x = p
    · by_cases hyp : y = p
      · rw [hxp, hyp]
      · subst hxp
        simp only [Function.update_self, Function.update_of_ne hyp] at hx hy
        exact absurd hx (hold y i hy)
    · by_cases hyp : y = p
      · subst hyp
        simp only [Function.update_self, Function.update_of_ne hxp] at hx hy
        exact absurd hy (hold x i hx)
      · simp only [Function.update_of_ne hxp, Function.update_of_ne hyp] at hx hy
        exact h.apart x y i hx hy
  · intro i hi hf
    by_cases hmem : i ∈ [idx.d0, idx.d1, idx.d2]
    · exact ⟨p, by simp only [Function.update_self]; exact hmem⟩
    · obtain ⟨x, hx⟩ := h.owned i hi (by rw [← hout i hmem]; exact hf)
      have hxp : x ≠ p := by
        rintro rfl
        rw [hpc] at hx
        cases hx
      exact ⟨x, by simp only [Function.update_of_ne hxp]; exact hx⟩
  · intro j hj hr
    obtain ⟨x, hx⟩ := h.open_ j hj hr
    have hxp : x ≠ p := by
      rintro rfl
      rw [hpc] at hx
      cases hx
    exact ⟨x, by simp only [Function.update_of_ne hxp]; exact hx⟩

omit [DecidableEq B] in
/-- A step of `p` that leaves the chains, the entries and what is over as they are. -/
theorem Inv.local_ (h : Inv s) (hpc : ∀ x, x ≠ p → t.pc x = s.pc x)
    (hchain : (t.pc p).chain = (s.pc p).chain) (hsent : (t.pc p).sent = (s.pc p).sent)
    (hrings : Rings t) (hp : Good t p (t.pc p)) (hothers : ∀ x, x ≠ p → Good t x (s.pc x))
    (hfree : t.free = s.free) (hreq : t.requests = s.requests) (hret : t.returned = s.returned)
    (hstatus : ∀ j ∈ t.completed, j ∉ t.acked → t.status (t.head j) = 0)
    (hpanic : t.panicked = s.panicked) : Inv t := by
  have hchains (x : P) : (t.pc x).chain = (s.pc x).chain := by
    by_cases hxp : x = p
    · rw [hxp, hchain]
    · rw [hpc x hxp]
  have hsents (x : P) : (t.pc x).sent = (s.pc x).sent := by
    by_cases hxp : x = p
    · rw [hxp, hsent]
    · rw [hpc x hxp]
  refine ⟨hrings, ?_, ?_, ?_, ?_, hstatus, hpanic.trans h.panicked⟩
  · intro x
    by_cases hxp : x = p
    · rw [hxp]
      exact hp
    · rw [hpc x hxp]
      exact hothers x hxp
  · intro x y i hx hy
    rw [hchains] at hx hy
    exact h.apart x y i hx hy
  · intro i hi hf
    rw [hfree] at hf
    obtain ⟨x, hx⟩ := h.owned i hi hf
    exact ⟨x, (hchains x).symm ▸ hx⟩
  · intro j hj hr
    rw [hreq] at hj
    rw [hret] at hr
    obtain ⟨x, hx⟩ := h.open_ j hj hr
    exact ⟨x, (hsents x).symm ▸ hx⟩

omit [DecidableEq P] [DecidableEq B] in
/-- A thread that has the lock excludes the others. -/
theorem Inv.alone (h : Inv s) (hp : (s.pc p).locked = true) {x : P} (hx : x ≠ p) :
    (s.pc x).locked = false := by
  cases hl : (s.pc x).locked with
  | false => rfl
  | true =>
    have h1 := (h.good x).lock hl
    rw [(h.good p).lock hp] at h1
    exact absurd (Option.some.inj h1).symm hx

theorem Inv.format (h : Inv s) (hpc : s.pc p = .format b w idx) :
    Inv ((s.formatDescs b w idx).goto p (.ring b w idx)) := by
  have hp := h.good p
  rw [hpc] at hp
  have hnd := hp.nodup
  simp only [PC.chain, List.nodup_cons, List.mem_cons, List.not_mem_nil, or_false, not_or,
    not_false_iff, List.nodup_nil, and_true] at hnd
  obtain ⟨⟨hne1, hne2⟩, hne3⟩ := hnd
  -- the other calls have other descriptors and other buffers
  have hchain (x : P) (hx : x ≠ p) (i : Nat) (hi : i ∈ (s.pc x).chain) :
      i ≠ idx.d0 ∧ i ≠ idx.d1 ∧ i ≠ idx.d2 := by
    have hnot (j : Nat) (hj : j ∈ [idx.d0, idx.d1, idx.d2]) : i ≠ j := by
      rintro rfl
      exact hx (h.apart x p i hi (by rw [hpc]; exact hj))
    exact ⟨hnot _ (by simp), hnot _ (by simp), hnot _ (by simp)⟩
  have hbuf (x : P) (hx : x ≠ p) (c : B) (hc : (s.pc x).buf = some c) : c ≠ b := by
    rintro rfl
    have hown := (h.good x).owner c hc
    rw [hp.owner c rfl] at hown
    exact hx (Option.some.inj hown).symm
  refine h.local_ (t := (s.formatDescs b w idx).goto p (.ring b w idx)) (p := p) ?_ ?_ ?_ ?_ ?_ ?_
    rfl rfl rfl ?_ rfl
  · intro x hx
    exact Function.update_of_ne hx _ _
  · simp only [State.goto, Function.update_self, hpc]
    rfl
  · simp only [State.goto, Function.update_self, hpc]
    rfl
  · exact ⟨h.rings.1, h.rings.2, h.rings.3, h.rings.4, h.rings.5, h.rings.6, h.rings.7, h.rings.8,
      h.rings.9, h.rings.10, h.rings.11, h.rings.12⟩
  · simp only [State.goto, Function.update_self]
    refine ⟨fun _ => hp.lock rfl, hp.owner, hp.taken, hp.nodup, ?_, fun _ hi => (by cases hi),
      fun _ hk => (by cases hk)⟩
    intro c w' idx' ha
    cases ha
    refine ⟨⟨?_, ?_, ?_, ?_, ?_⟩, ?_⟩
    · simp only [State.formatDescs]
      rw [Function.update_of_ne hne2, Function.update_of_ne hne1, Function.update_self]
    · simp only [State.formatDescs]
      rw [Function.update_of_ne hne3, Function.update_self]
    · simp only [State.formatDescs, Function.update_self]
    · simp only [State.formatDescs, Function.update_self]
    · simp only [State.formatDescs, Function.update_self]
    · simp [State.formatDescs, PC.sent]
  · intro x hx
    refine (h.good x).keep (Same.refl _) (fun _ => rfl) (fun _ _ => rfl) (fun _ _ => rfl) ?_ ?_
      (fun _ _ => Iff.rfl) (fun _ => ⟨rfl, rfl⟩) (fun _ _ _ hr hq => ⟨hr, hq⟩)
    · intro c w' idx' ha hf
      have hmem (i : Nat) (hi : i ∈ [idx'.d0, idx'.d1, idx'.d2]) :=
        hchain x hx i ((asked_chain ha).1.symm ▸ hi)
      refine hf.keep ?_ ?_ ?_ rfl
      · intro i hi
        obtain ⟨h0, h1, h2⟩ := hmem i hi
        simp only [State.goto, State.formatDescs]
        rw [Function.update_of_ne h2, Function.update_of_ne h1, Function.update_of_ne h0]
      · exact Function.update_of_ne (hmem _ (by simp)).1 _ _
      · exact Function.update_of_ne (hmem _ (by simp)).1 _ _
    · intro c w' idx' ha
      exact Function.update_of_ne (hbuf x hx c (asked_chain ha).2) _ _
  · intro j hj hja
    have hjr : j ∉ s.returned := fun hr => hja (h.rings.returned j hr)
    have hlt := Nat.lt_of_lt_of_le (h.rings.completed_lt hj) h.rings.consumed_le
    obtain ⟨x, hx⟩ := h.open_ j hlt hjr
    have hxp : x ≠ p := by
      rintro rfl
      rw [hpc] at hx
      cases hx
    have hne := (hchain x hxp _ (h.head_mem hx)).1
    exact (Function.update_of_ne hne _ _).trans (h.status j hj hja)

omit [DecidableEq B] in
theorem Inv.ring (h : Inv s) (hpc : s.pc p = .ring b w idx) :
    Inv (State.goto { s with
      availRing := Function.update s.availRing (s.availIdx.toNat % NUM) idx.d0 } p
      (.bump b w idx)) := by
  have hp := h.good p
  rw [hpc] at hp
  have hroom := h.avail_room (p := p) (i := idx.d0) (by rw [hpc]; simp [PC.chain])
    (by rw [hpc]; rfl)
  have halone {x : P} (hx : x ≠ p) := h.alone (p := p) (by rw [hpc]; rfl) hx
  refine h.local_ (p := p) ?_ ?_ ?_ ?_ ?_ ?_ rfl rfl rfl h.status rfl
  · intro x hx
    exact Function.update_of_ne hx _ _
  · simp only [State.goto, Function.update_self, hpc]
    rfl
  · simp only [State.goto, Function.update_self, hpc]
    rfl
  · refine ⟨h.rings.1, h.rings.2, h.rings.3, h.rings.4, h.rings.5, h.rings.6, ?_, h.rings.8,
      h.rings.9, h.rings.10, h.rings.11, h.rings.12⟩
    -- the slot is none of those that the device has still to read
    apply h.rings.avail.update
    intro j hj hlt
    rw [List.length_map] at hlt
    rw [h.rings.availIdx, slot_of_index]
    intro he
    have := slot_inj (show _ < _ + NUM by omega) (Nat.le_of_lt hlt) he.symm
    omega
  · simp only [State.goto, Function.update_self]
    refine ⟨fun _ => hp.lock rfl, hp.owner, hp.taken, hp.nodup, ?_, ?_, fun _ hk => (by cases hk)⟩
    · intro c w' idx' ha
      obtain ⟨hf, hd⟩ := hp.asked c w' idx' ha
      exact ⟨⟨hf.1, hf.2, hf.3, hf.4, hf.5⟩, hd⟩
    · intro i hi
      cases hi
      exact Function.update_self _ _ _
  · intro x hx
    exact (h.good x).keep (Same.refl _) (fun _ => rfl) (fun _ _ => rfl) (fun _ _ => rfl)
      (fun _ _ _ _ hf => ⟨hf.1, hf.2, hf.3, hf.4, hf.5⟩) (fun _ _ _ _ => rfl)
      (fun _ _ => Iff.rfl) (fun hl => by rw [halone hx] at hl; cases hl)
      (fun _ _ _ hr hq => ⟨hr, hq⟩)

omit [DecidableEq P] [DecidableEq B] in
/-- The entries there are stay when there is one more. -/
theorem requests_append {r : B × Bool × Idx} (x : B × Bool × Idx)
    (h : s.requests[k]? = some r) : (s.requests ++ [x])[k]? = some r := by
  rw [List.getElem?_append_left (List.getElem?_eq_some_iff.mp h).1]
  exact h

omit [DecidableEq B] in
/-- The avail index moves, and the device can see the entry. -/
theorem Inv.bump (h : Inv s) (hpc : s.pc p = .bump b w idx) :
    Inv (State.goto { s with
      availIdx := s.availIdx + 1, requests := s.requests ++ [(b, w, idx)] }
      p (.wait b w idx s.requests.length)) := by
  have hp := h.good p
  rw [hpc] at hp
  -- the available ring has room, and no other process is inside the disk lock
  have hroom := h.avail_room (p := p) (i := idx.d0) (by rw [hpc]; simp [PC.chain])
    (by rw [hpc]; rfl)
  have halone {x : P} (hx : x ≠ p) := h.alone (p := p) (by rw [hpc]; rfl) hx
  generalize ht : State.goto { s with
    availIdx := s.availIdx + 1, requests := s.requests ++ [(b, w, idx)] }
    p (.wait b w idx s.requests.length) = t
  have hreq : t.requests = s.requests ++ [(b, w, idx)] := by rw [← ht]; rfl
  have hother (x : P) (hx : x ≠ p) : t.pc x = s.pc x := by
    rw [← ht]
    exact Function.update_of_ne hx _ _
  have hself : t.pc p = .wait b w idx s.requests.length := by
    rw [← ht]
    exact Function.update_self _ _ _
  have hacked : t.acked = s.acked := by rw [← ht]; rfl
  have hret : t.returned = s.returned := by rw [← ht]; rfl
  have hmem {j : Nat} (hj : j ∈ s.completed) : j < s.requests.length :=
    Nat.lt_of_lt_of_le (h.rings.completed_lt hj) h.rings.consumed_le
  have hat {j : Nat} (hj : j < s.requests.length) : t.requests[j]? = s.requests[j]? := by
    rw [hreq, List.getElem?_append_left hj]
  have hhead {j : Nat} (hj : j < s.requests.length) : t.head j = s.head j := by
    unfold State.head
    rw [hat hj]
  have hrings : Rings t := by
    have hslot : s.availRing (s.requests.length % NUM) = idx.d0 := by
      rw [← slot_of_index, ← h.rings.availIdx]
      exact hp.bumping _ rfl
    have hpush := h.rings.avail.push (by rw [List.length_map]; exact hroom) idx.d0
    rw [List.length_map, ← hslot, Function.update_eq_self, hslot] at hpush
    have hused : s.completed.map t.head = s.completed.map s.head :=
      List.map_congr_left (fun j hj => hhead (hmem hj))
    rw [← ht] at hused hacked hreq hat ⊢
    refine ⟨?_, h.rings.2, h.rings.3, h.rings.4, ?_, h.rings.6, ?_, ?_, h.rings.9, ?_, ?_,
      h.rings.12⟩
    · rw [hreq, List.length_append]
      exact next_index h.rings.availIdx
    · rw [hreq, List.length_append]
      exact Nat.le_succ_of_le h.rings.consumed_le
    · rw [hreq, List.map_append]
      exact hpush
    · change Window NUM s.usedRing (s.completed.map _) s.cleared.length
      rw [hused]
      exact h.rings.used
    · intro r hr
      obtain ⟨c, w', idx', hk, he⟩ := h.rings.exact r hr
      exact ⟨c, w', idx', requests_append _ hk, he⟩
    · rw [hacked]
      refine h.rings.cleared.trans (List.map_congr_left (fun j hj => ?_))
      rw [hat (hmem (acked_subset hj))]
  -- the request is new, so it is neither completed nor acknowledged
  have hnotacked : s.requests.length ∉ s.acked := fun hm => absurd (hmem (acked_subset hm))
    (Nat.lt_irrefl _)
  refine ⟨hrings, ?_, ?_, ?_, ?_, ?_, ?_⟩
  · intro x
    by_cases hxp : x = p
    · subst hxp
      rw [hself]
      obtain ⟨hf, hd⟩ := hp.asked b w idx rfl
      refine ⟨fun _ => ?_, ?_, ?_, hp.nodup, ?_, fun _ hi => (by cases hi), ?_⟩
      · rw [← ht]
        exact hp.lock rfl
      · rw [← ht]
        exact hp.owner
      · rw [← ht]
        exact hp.taken
      · intro c w' idx' ha
        cases ha
        have hfalse : ¬∃ j, (PC.bump b w idx).sent = some j ∧ j ∈ s.acked := by
          rintro ⟨j, hj, -⟩
          cases hj
        refine ⟨by rw [← ht]; exact ⟨hf.1, hf.2, hf.3, hf.4, hf.5⟩, ?_⟩
        rw [hacked]
        constructor
        · intro hdisk
          rw [← ht] at hdisk
          exact absurd (hd.mp hdisk) hfalse
        · rintro ⟨j, hj, hja⟩
          cases hj
          exact absurd hja hnotacked
      · intro j hj
        cases hj
        refine ⟨?_, b, w, idx, rfl, ?_⟩
        · rw [hret]
          exact fun hm => hnotacked (h.rings.returned _ hm)
        · rw [hreq]
          simp
    · rw [hother x hxp]
      rw [← ht]
      exact (h.good x).keep (Same.refl _) (fun _ => rfl) (fun _ _ => rfl) (fun _ _ => rfl)
        (fun _ _ _ _ hf => ⟨hf.1, hf.2, hf.3, hf.4, hf.5⟩) (fun _ _ _ _ => rfl)
        (fun _ _ => Iff.rfl) (fun hl => by rw [halone hxp] at hl; cases hl)
        (fun _ _ _ hr hq => ⟨hr, requests_append _ hq⟩)
  · have hchains (x : P) : (t.pc x).chain = (s.pc x).chain := by
      by_cases hxp : x = p
      · rw [hxp, hself, hpc]
        rfl
      · rw [hother x hxp]
    intro x y i hx hy
    rw [hchains] at hx hy
    exact h.apart x y i hx hy
  · intro i hi hf
    rw [← ht] at hf
    obtain ⟨x, hx⟩ := h.owned i hi hf
    by_cases hxp : x = p
    · refine ⟨p, ?_⟩
      rw [hxp, hpc] at hx
      rw [hself]
      exact hx
    · exact ⟨x, by rw [hother x hxp]; exact hx⟩
  · intro j hj hr
    rw [hreq, List.length_append, List.length_singleton] at hj
    by_cases hje : j = s.requests.length
    · exact ⟨p, by rw [hself, hje]; rfl⟩
    · rw [hret] at hr
      obtain ⟨x, hx⟩ := h.open_ j (by omega) hr
      have hxp : x ≠ p := by
        rintro rfl
        rw [hpc] at hx
        cases hx
      exact ⟨x, by rw [hother x hxp]; exact hx⟩
  · intro j hj hja
    rw [hacked] at hja
    have hjc : j ∈ s.completed := by rw [← ht] at hj; exact hj
    rw [hhead (hmem hjc), ← ht]
    exact h.status j hjc hja
  · rw [← ht]
    exact h.panicked

omit [DecidableEq B] in
/-- The call gives its descriptors back and returns. -/
theorem Inv.finish (h : Inv s) (hpc : s.pc p = .wait b w idx k) (hdisk : s.disk b = false)
    (f : Nat → Bool) (desc : Nat → Desc B) (pc : P → PC B)
    (hin : ∀ i ∈ [idx.d0, idx.d1, idx.d2], f i = true)
    (hout : ∀ i, i ∉ [idx.d0, idx.d1, idx.d2] → f i = s.free i ∧ desc i = s.desc i)
    (hsame : ∀ q, Same (s.pc q) (pc q)) :
    Inv { s with
      infoB := Function.update s.infoB idx.d0 none, free := f, desc := desc, lock := none
      pc := Function.update pc p .idle, returned := s.returned ++ [k] } := by
  have hp := h.good p
  rw [hpc] at hp
  have halone {x : P} (hx : x ≠ p) := h.alone (p := p) (by rw [hpc]; rfl) hx
  have hk : k ∈ s.acked := by
    obtain ⟨j, hj, hja⟩ := (hp.asked b w idx rfl).2.mp hdisk
    cases hj
    exact hja
  have hapart (x : P) (hx : x ≠ p) (i : Nat) (hi : i ∈ (s.pc x).chain) :
      i ∉ [idx.d0, idx.d1, idx.d2] := by
    intro hmem
    exact hx (h.apart x p i hi (by rw [hpc]; exact hmem))
  have hnumber (x : P) (hx : x ≠ p) (j : Nat) (hj : (s.pc x).sent = some j) : j ≠ k := by
    rintro rfl
    exact hx (h.apart x p _ (h.head_mem hj) (h.head_mem (by rw [hpc]; rfl)))
  refine ⟨⟨h.rings.1, h.rings.2, h.rings.3, h.rings.4, h.rings.5, h.rings.6, h.rings.7, h.rings.8,
    h.rings.9, h.rings.10, h.rings.11, ?_⟩, ?_, ?_, ?_, ?_, h.status, h.panicked⟩
  · intro j hj
    rcases List.mem_append.mp hj with hj | hj
    · exact h.rings.returned j hj
    · rw [List.mem_singleton.mp hj]
      exact hk
  · intro x
    by_cases hxp : x = p
    · subst hxp
      simp only [Function.update_self]
      exact ⟨fun hl => (by cases hl), fun _ hb => (by cases hb), fun _ hi => (by cases hi),
        List.nodup_nil, fun _ _ _ ha => (by cases ha), fun _ hi => (by cases hi),
        fun _ hk => (by cases hk)⟩
    · simp only [Function.update_of_ne hxp]
      refine (h.good x).keep (hsame x) (fun hl => by rw [halone hxp] at hl; cases hl)
        (fun _ _ => rfl) (fun i hi => (hout i (hapart x hxp i hi)).1) ?_ (fun _ _ _ _ => rfl)
        (fun _ _ => Iff.rfl) (fun hl => by rw [halone hxp] at hl; cases hl) ?_
      · intro c w' idx' ha hf
        have hmem (i : Nat) (hi : i ∈ [idx'.d0, idx'.d1, idx'.d2]) :=
          hapart x hxp i ((asked_chain ha).1.symm ▸ hi)
        refine hf.keep (fun i hi => (hout i (hmem i hi)).2) rfl ?_ rfl
        apply Function.update_of_ne
        intro he
        exact hmem idx'.d0 (by simp) (by rw [he]; simp)
      · intro j r hj hr hq
        refine ⟨?_, hq⟩
        rw [List.mem_append, List.mem_singleton]
        rintro (hm | hm)
        · exact hr hm
        · exact hnumber x hxp j hj hm
  · intro x y i hx hy
    have hne {x : P} (hx : i ∈ (Function.update pc p .idle x).chain) :
        i ∈ (s.pc x).chain := by
      by_cases hxp : x = p
      · rw [hxp, Function.update_self] at hx
        cases hx
      · rw [Function.update_of_ne hxp, (hsame x).chain] at hx
        exact hx
    exact h.apart x y i (hne hx) (hne hy)
  · intro i hi hf
    have hmem : i ∉ [idx.d0, idx.d1, idx.d2] := by
      intro hm
      simp only [hin i hm, Bool.true_eq_false] at hf
    obtain ⟨x, hx⟩ := h.owned i hi ((hout i hmem).1 ▸ hf)
    have hxp : x ≠ p := by
      rintro rfl
      rw [hpc] at hx
      exact hmem hx
    refine ⟨x, ?_⟩
    simp only [Function.update_of_ne hxp, (hsame x).chain]
    exact hx
  · intro j hj hr
    simp only [List.mem_append, List.mem_singleton, not_or] at hr
    obtain ⟨x, hx⟩ := h.open_ j hj hr.1
    have hxp : x ≠ p := by
      rintro rfl
      rw [hpc] at hx
      cases hx
      exact hr.2 rfl
    refine ⟨x, ?_⟩
    simp only [Function.update_of_ne hxp, (hsame x).sent]
    exact hx

omit [DecidableEq P] in
/-- virtio_disk_intr finds the buffer of the request that is next in the used ring. -/
theorem Inv.ack (h : Inv s) (hne : s.usedIdx ≠ s.usedRingIdx) :
    s.status (s.usedRing (s.usedIdx.toNat % NUM)) = 0 ∧
    ∃ b, s.infoB (s.usedRing (s.usedIdx.toNat % NUM)) = some b ∧
      Inv (State.wakeup { s with disk := Function.update s.disk b false, usedIdx := s.usedIdx + 1,
                                 cleared := s.cleared ++ [b] } (.buf b)) := by
  -- the used ring is ahead of used_idx: this request is completed and not acknowledged
  have hlt : s.cleared.length < s.completed.length := by
    apply Nat.lt_of_le_of_ne h.rings.cleared_le
    intro he
    apply hne
    apply UInt16.toNat_inj.mp
    rw [h.rings.usedIdx, h.rings.usedRingIdx, he]
  obtain ⟨k, hk⟩ : ∃ k, s.completed[s.cleared.length]? = some k :=
    ⟨_, List.getElem?_eq_getElem hlt⟩
  have hkc : k ∈ s.completed := List.mem_of_getElem? hk
  have hndc : s.completed.Nodup := (List.nodup_append.mp h.rings.nodup).2.1
  have hka : k ∉ s.acked := by
    intro hm
    obtain ⟨i, hi, he⟩ := List.mem_iff_getElem.mp hm
    simp only [State.acked, List.length_take] at hi
    simp only [State.acked, List.getElem_take] at he
    have hkn : s.completed[s.cleared.length] = k :=
      Option.some.inj ((List.getElem?_eq_getElem hlt).symm.trans hk)
    have := (hndc.getElem_inj_iff).mp (he.trans hkn.symm)
    omega
  have hid : s.usedRing (s.usedIdx.toNat % NUM) = s.head k := by
    rw [h.rings.usedIdx, slot_of_index]
    exact h.rings.used _ _ (Nat.le_refl _) (by rw [List.getElem?_map, hk]; rfl)
  have hkr : k ∉ s.returned := fun hm => hka (h.rings.returned k hm)
  -- a chain that is not returned is still that of a process, which waits for it
  obtain ⟨p, hp⟩ := h.open_ k
    (Nat.lt_of_lt_of_le (h.rings.completed_lt hkc) h.rings.consumed_le) hkr
  obtain ⟨-, b, w, idx, ha, hreq⟩ := (h.good p).sent k hp
  have hform := ((h.good p).asked b w idx ha).1
  rw [hid, head_eq hreq]
  refine ⟨by rw [← head_eq hreq]; exact h.status k hkc hka, b, hform.info, ?_⟩
  generalize ht : State.wakeup { s with
    disk := Function.update s.disk b false, usedIdx := s.usedIdx + 1,
    cleared := s.cleared ++ [b] } (.buf b) = t
  have hacked : t.acked = s.acked ++ [k] := by
    rw [← ht]
    simp only [State.acked, State.wakeup, List.length_append, List.length_singleton]
    rw [List.take_add_one, hk]
    rfl
  have hsame (x : P) : Same (s.pc x) (t.pc x) := by
    rw [← ht]
    exact wake_same (.buf b) (s.pc x)
  refine ⟨?_, ?_, ?_, ?_, ?_, ?_, ?_⟩
  · rw [← ht] at hacked ⊢
    refine ⟨h.rings.1, h.rings.2, h.rings.3, ?_, h.rings.5, ?_, h.rings.7, ?_, h.rings.9,
      h.rings.10, ?_, ?_⟩
    · simp only [State.wakeup, List.length_append, List.length_singleton]
      exact next_index h.rings.usedIdx
    · simp only [State.wakeup, List.length_append, List.length_singleton]
      exact hlt
    · simp only [State.wakeup, List.length_append, List.length_singleton]
      exact h.rings.used.mono (Nat.le_succ _)
    · rw [hacked]
      simp only [State.wakeup, List.map_append, List.map_cons, List.map_nil]
      rw [h.rings.cleared, hreq]
      rfl
    · intro j hj
      rw [hacked]
      exact List.mem_append_left _ (h.rings.returned j hj)
  · intro x
    by_cases hxp : x = p
    · subst hxp
      -- the process of the request: the disk has let go of its buffer
      have hx := h.good x
      have hs := hsame x
      have hkeep : Good t x (t.pc x) := by
        refine ⟨?_, ?_, ?_, ?_, ?_, ?_, ?_⟩
        · rw [hs.locked, ← ht]
          exact hx.lock
        · rw [hs.buf, ← ht]
          exact hx.owner
        · rw [hs.chain, ← ht]
          exact hx.taken
        · rw [hs.chain]
          exact hx.nodup
        · intro c w' idx' ha'
          rw [hs.asked, ha] at ha'
          cases ha'
          refine ⟨by rw [← ht]; exact ⟨hform.1, hform.2, hform.3, hform.4, hform.5⟩, ?_⟩
          rw [hs.sent, hacked]
          constructor
          · exact fun _ => ⟨k, hp, by simp⟩
          · intro _
            rw [← ht]
            simp only [State.wakeup, Function.update_self]
        · rw [hs.bumping, ← ht]
          exact hx.bumping
        · rw [hs.sent, hs.asked, ← ht]
          exact hx.sent
      exact hkeep
    · -- the other processes have other buffers and other requests
      have hdisk : ∀ c w' idx', (s.pc x).asked = some (c, w', idx') → t.disk c = s.disk c := by
        intro c w' idx' ha'
        rw [← ht]
        apply Function.update_of_ne
        rintro rfl
        have h1 := (h.good x).owner c (asked_chain ha').2
        rw [(h.good p).owner c (asked_chain ha).2] at h1
        exact hxp (Option.some.inj h1).symm
      have hack : ∀ j, (s.pc x).sent = some j → (j ∈ t.acked ↔ j ∈ s.acked) := by
        intro j hj
        rw [hacked, List.mem_append, List.mem_singleton]
        constructor
        · rintro (hm | rfl)
          · exact hm
          · exact absurd (h.apart x p _ (h.head_mem hj) (h.head_mem hp)) hxp
        · exact Or.inl
      refine (h.good x).keep (hsame x) (fun _ => ?_) (fun _ _ => ?_) (fun _ _ => ?_) ?_ hdisk hack
        (fun _ => ?_) ?_
      · rw [← ht]; rfl
      · rw [← ht]; rfl
      · rw [← ht]; rfl
      · intro c w' idx' _ hf
        rw [← ht]
        exact ⟨hf.1, hf.2, hf.3, hf.4, hf.5⟩
      · rw [← ht]; exact ⟨rfl, rfl⟩
      · intro j r _ hr hq
        rw [← ht]
        exact ⟨hr, hq⟩
  · intro x y i hx hy
    rw [(hsame _).chain] at hx hy
    exact h.apart x y i hx hy
  · intro i hi hf
    rw [← ht] at hf
    obtain ⟨x, hx⟩ := h.owned i hi hf
    exact ⟨x, (hsame x).chain.symm ▸ hx⟩
  · intro j hj hr
    rw [← ht] at hj hr
    obtain ⟨x, hx⟩ := h.open_ j hj hr
    exact ⟨x, (hsame x).sent.symm ▸ hx⟩
  · intro j hj hja
    rw [hacked, List.mem_append, not_or] at hja
    rw [← ht] at hj ⊢
    exact h.status j hj hja.1
  · rw [← ht]
    exact h.panicked

end Steps

section DeviceSteps

variable {P B : Type} {s t : State P B}

/-- The device reads the chain of the next entry as the call has formatted it. -/
theorem Inv.consume (h : Inv s) (ht : consume s = some t) : Inv t := by
  unfold Virtio.consume at ht
  split at ht
  · cases ht
  · rename_i hne
    cases ht
    have hlt : s.consumed < s.requests.length := by
      apply Nat.lt_of_le_of_ne h.rings.consumed_le
      intro he
      apply hne
      apply UInt16.toNat_inj.mp
      rw [h.rings.lastAvail, h.rings.availIdx, he]
    have hopen : s.consumed ∉ s.returned := by
      intro hm
      have := h.rings.completed_lt (acked_subset (h.rings.returned _ hm))
      omega
    obtain ⟨p, hp⟩ := h.open_ _ hlt hopen
    obtain ⟨-, b, w, idx, ha, hreq⟩ := (h.good p).sent _ hp
    have hform := ((h.good p).asked b w idx ha).1
    have hhead : s.availRing (s.lastAvail.toNat % NUM) = idx.d0 := by
      rw [h.rings.lastAvail, slot_of_index]
      exact h.rings.avail _ _ (Nat.le_refl _) (by rw [List.getElem?_map, hreq]; rfl)
    have hread : readChain s idx.d0 = ⟨s.consumed, idx.d0,
        some ⟨if w then .blkOut else .blkIn, 0, (s.blockno b * 2).toUInt64⟩, .data b,
        .status idx.d0⟩ := by
      unfold readChain
      simp only [hform.head, hform.body, hform.tail, hform.op]
    rw [hhead, hread]
    refine ⟨⟨h.rings.1, ?_, h.rings.3, h.rings.4, hlt, h.rings.6, ?_, h.rings.8, ?_, ?_,
      h.rings.11, h.rings.12⟩, ?_, h.apart, h.owned, h.open_, h.status, h.panicked⟩
    · exact next_index h.rings.lastAvail
    · exact h.rings.avail.mono (Nat.le_succ _)
    · simp only [List.map_append, List.map_cons, List.map_nil]
      have hswap : (s.inflight.map Taken.k ++ [s.consumed] ++ s.completed).Perm
          (s.inflight.map Taken.k ++ s.completed ++ [s.consumed]) := by
        rw [List.append_assoc, List.append_assoc]
        exact List.perm_append_comm.append_left _
      rw [List.range_succ]
      exact hswap.trans (h.rings.perm.append_right _)
    · intro r hr
      rcases List.mem_append.mp hr with hr | hr
      · exact h.rings.exact r hr
      · rw [List.mem_singleton.mp hr]
        exact ⟨b, w, idx, hreq, rfl⟩
    · intro x
      have hx := h.good x
      exact ⟨hx.1, hx.2, hx.3, hx.4, fun c w' idx' ha' =>
        ⟨⟨(hx.5 c w' idx' ha').1.1, (hx.5 c w' idx' ha').1.2, (hx.5 c w' idx' ha').1.3,
          (hx.5 c w' idx' ha').1.4, (hx.5 c w' idx' ha').1.5⟩, (hx.5 c w' idx' ha').2⟩, hx.6, hx.7⟩

variable [DecidableEq B]

theorem Inv.complete (h : Inv s) {r : Taken B} (ht : complete s r = some t) : Inv t := by
  unfold Virtio.complete at ht
  split at ht
  · rename_i hr
    obtain ⟨b, w, idx, hreq, he⟩ := h.rings.exact r hr
    have hroom := h.used_room hr
    have hrhead : r.head = idx.d0 := by rw [he]
    have hrstatus : r.status = .status idx.d0 := by rw [he]
    rw [hrstatus] at ht
    simp only [hrhead] at ht
    cases ht
    have hacked : (s.completed ++ [r.k]).take s.cleared.length = s.acked :=
      List.take_append_of_le_length h.rings.cleared_le
    refine ⟨⟨h.rings.1, h.rings.2, ?_, h.rings.4, h.rings.5, ?_, h.rings.7, ?_, ?_, ?_, ?_, ?_⟩,
      ?_, h.apart, h.owned, h.open_, ?_, h.panicked⟩
    · simp only [List.length_append, List.length_singleton]
      exact next_index h.rings.usedRingIdx
    · simp only [List.length_append, List.length_singleton]
      exact Nat.le_succ_of_le h.rings.cleared_le
    · have hpush := h.rings.used.push (by rw [List.length_map]; exact hroom) idx.d0
      rw [List.length_map, ← slot_of_index, ← h.rings.usedRingIdx] at hpush
      simp only [List.map_append, List.map_cons, List.map_nil]
      have hhead : s.head r.k = idx.d0 := head_eq hreq
      change Window NUM _ (s.completed.map s.head ++ [s.head r.k]) _
      rw [hhead]
      exact hpush
    · have hperm : (s.inflight.map Taken.k).Perm (r.k :: (s.inflight.erase r).map Taken.k) :=
        (List.perm_cons_erase hr).map Taken.k
      have hmove : ((s.inflight.erase r).map Taken.k ++ (s.completed ++ [r.k])).Perm
          (r.k :: (s.inflight.erase r).map Taken.k ++ s.completed) := by
        rw [← List.append_assoc]
        exact List.perm_append_singleton _ _
      exact hmove.trans ((hperm.symm.append_right _).trans h.rings.perm)
    · intro r' hr'
      exact h.rings.exact r' (List.mem_of_mem_erase hr')
    · simp only [State.acked]
      rw [hacked]
      exact h.rings.cleared
    · intro j hj
      simp only [State.acked]
      rw [hacked]
      exact h.rings.returned j hj
    · intro x
      refine (h.good x).keep (Same.refl _) (fun _ => rfl) (fun _ _ => rfl) (fun _ _ => rfl)
        (fun _ _ _ _ hf => ⟨hf.1, hf.2, hf.3, hf.4, hf.5⟩) (fun _ _ _ _ => rfl) ?_
        (fun _ => ⟨rfl, rfl⟩) (fun _ _ _ hr hq => ⟨hr, hq⟩)
      intro j _
      simp only [State.acked]
      rw [hacked]
      exact Iff.rfl
    · intro j hj hja
      simp only [State.acked] at hja
      rw [hacked] at hja
      change Function.update s.status idx.d0 0 (s.head j) = 0
      by_cases hjd : s.head j = idx.d0
      · rw [hjd, Function.update_self]
      · rw [Function.update_of_ne hjd]
        rcases List.mem_append.mp hj with hj | hj
        · exact h.status j hj hja
        · rw [List.mem_singleton.mp hj] at hjd
          exact absurd (head_eq hreq) hjd
  · cases ht

end DeviceSteps

section Accounting

variable {P B : Type} [DecidableEq P] [DecidableEq B] {s t : State P B} {p : P}

omit [DecidableEq B] in
/-- A thread that waits for the lock takes it. -/
theorem Inv.acquire (h : Inv s) (q : PC B) (ht : (s.acquire p).map (fun s => s.goto p q) = some t)
    (hchain : q.chain = (s.pc p).chain) (hasked : q.asked = (s.pc p).asked)
    (hsent : q.sent = (s.pc p).sent) (hbump : q.bumping = none)
    (hbuf : q.buf = (s.pc p).buf) : Inv t := by
  unfold State.acquire at ht
  split at ht
  · rename_i hnone
    cases ht
    exact h.goto q (some p) _ s.desc (fun _ _ => rfl)
      (fun x hx => (Function.update_of_ne hx q s.pc).symm ▸ Same.refl _)
      (Function.update_self _ _ _) hchain hasked hsent
      (fun i hi => by rw [hbump] at hi; cases hi) (fun _ => rfl) (Or.inl hnone)
      (fun b hb => (h.good p).owner b (hbuf ▸ hb))
  · cases ht

theorem Inv.advance (h : Inv s) (ht : advance s p = some t) : Inv t := by
  have hp := h.good p
  unfold Virtio.advance at ht
  split at ht
  · cases ht
  · cases ht
  · cases ht
  · rename_i b w hpc
    exact h.acquire _ ht (by rw [hpc]; rfl) (by rw [hpc]; rfl) (by rw [hpc]; rfl) rfl
      (by rw [hpc]; rfl)
  · rename_i b w hpc
    rw [hpc] at hp
    rcases alloc3Desc_spec s with ⟨idx, f, ha, hnd, hin, hout⟩ | ⟨desc, pc, ha, hdesc, hsame⟩
    · simp only [ha, Option.some.injEq] at ht
      subst ht
      exact h.alloc hpc f hnd hin hout
    · simp only [ha, Option.some.injEq] at ht
      subst ht
      exact h.goto (p := p) (.asleepFree b w) none (Function.update pc p (.asleepFree b w)) desc
        hdesc (fun x hx => (Function.update_of_ne hx (.asleepFree b w) pc).symm ▸ hsame x)
        (Function.update_self _ _ _) (by rw [hpc]; rfl) (by rw [hpc]; rfl) (by rw [hpc]; rfl)
        (fun i hi => (by cases hi)) (fun hl => (by cases hl)) (Or.inr (Or.inl (hp.lock rfl)))
        (fun c hc => hp.owner c hc)
  · rename_i b w idx hpc
    cases ht
    exact h.format hpc
  · rename_i b w idx hpc
    cases ht
    exact h.ring hpc
  · rename_i b w idx hpc
    cases ht
    exact h.bump hpc
  · rename_i b w idx k hpc
    rw [hpc] at hp
    split at ht
    · cases ht
      exact h.goto (p := p) (.asleepBuf b w idx k) none _ s.desc (fun _ _ => rfl)
        (fun x hx => (Function.update_of_ne hx (.asleepBuf b w idx k) s.pc).symm ▸ Same.refl _)
        (Function.update_self _ _ _) (by rw [hpc]; rfl) (by rw [hpc]; rfl) (by rw [hpc]; rfl)
        (fun i hi => (by cases hi)) (fun hl => (by cases hl)) (Or.inr (Or.inl (hp.lock rfl)))
        (fun c hc => hp.owner c hc)
    · rename_i hdisk
      have hform := (hp.asked b w idx rfl).1
      obtain ⟨f, desc, pc, hf, hin, hout, hsame⟩ := freeChain_formatted
        (s := { s with infoB := Function.update s.infoB idx.d0 none }) hform.head hform.body
        hform.tail hp.nodup hp.taken h.panicked
      rw [hf, if_neg (fun hne => hne h.panicked)] at ht
      cases ht
      exact h.finish hpc (Bool.eq_false_iff.mpr hdisk) f desc pc hin hout hsame
  · rename_i b w idx k hpc
    exact h.acquire _ ht (by rw [hpc]; rfl) (by rw [hpc]; rfl) (by rw [hpc]; rfl) rfl
      (by rw [hpc]; rfl)
  · rename_i hpc
    exact h.acquire _ ht (by rw [hpc]; rfl) (by rw [hpc]; rfl) (by rw [hpc]; rfl) rfl
      (by rw [hpc]; rfl)
  · rename_i hpc
    rw [hpc] at hp
    cases ht
    unfold intrLoop
    split
    · exact h.goto (p := p) .idle none _ s.desc (fun _ _ => rfl)
        (fun x hx => (Function.update_of_ne hx .idle s.pc).symm ▸ Same.refl _)
        (Function.update_self _ _ _) (by rw [hpc]; rfl) (by rw [hpc]; rfl) (by rw [hpc]; rfl)
        (fun i hi => (by cases hi)) (fun hl => (by cases hl)) (Or.inr (Or.inl (hp.lock rfl)))
        (fun c hc => (by cases hc))
    · rename_i hne
      obtain ⟨hstatus, b, hb, hinv⟩ := h.ack hne
      simp only [hstatus, ne_eq, not_true_eq_false, if_false, hb]
      exact hinv

theorem step_inv (s : State P B) (e : Event P B) (t : State P B) (h : Inv s)
    (ht : step s e = some t) : Inv t := by
  unfold step at ht
  rw [if_neg (fun hne => hne h.panicked)] at ht
  have hkeepPc : ∀ x, (s.pc x).locked = true → s.lock = some x := fun x => (h.good x).lock
  cases e with
  | acquiresleep p b =>
    simp only at ht
    split at ht
    · rename_i hfree
      cases ht
      refine h.threads s.pc s.lock _ s.desc (fun _ _ => rfl) (fun _ => rfl) (fun _ => rfl)
        (fun _ => rfl) (fun _ _ hi => hi) hkeepPc ?_
      intro x c hc
      have hown := (h.good x).owner c hc
      rw [Function.update_of_ne]
      · exact hown
      · rintro rfl
        rw [hfree.2] at hown
        cases hown
    · cases ht
  | releasesleep p b =>
    simp only at ht
    split at ht
    · rename_i hheld
      cases ht
      refine h.threads s.pc s.lock _ s.desc (fun _ _ => rfl) (fun _ => rfl) (fun _ => rfl)
        (fun _ => rfl) (fun _ _ hi => hi) hkeepPc ?_
      intro x c hc
      have hown := (h.good x).owner c hc
      rw [Function.update_of_ne]
      · exact hown
      · rintro rfl
        rw [hheld.2] at hown
        cases hown
        rw [hheld.1] at hc
        cases hc
    · cases ht
  | virtioDiskRw p b write =>
    simp only at ht
    split at ht
    · rename_i hheld
      cases ht
      refine h.goto (p := p) (.acquire b write) s.lock _ s.desc (fun _ _ => rfl)
        (fun x hx => (Function.update_of_ne hx (.acquire b write) s.pc).symm ▸ Same.refl _)
        (Function.update_self _ _ _) (by rw [hheld.1]; rfl) (by rw [hheld.1]; rfl)
        (by rw [hheld.1]; rfl) (fun i hi => (by cases hi)) (fun hl => (by cases hl))
        (Or.inr (Or.inr rfl)) ?_
      intro c hc
      cases hc
      exact hheld.2
    · cases ht
  | virtioDiskIntr p =>
    simp only at ht
    split at ht
    · rename_i hidle
      cases ht
      exact h.goto (p := p) .intrAcquire s.lock _ s.desc (fun _ _ => rfl)
        (fun x hx => (Function.update_of_ne hx .intrAcquire s.pc).symm ▸ Same.refl _)
        (Function.update_self _ _ _) (by rw [hidle]; rfl) (by rw [hidle]; rfl)
        (by rw [hidle]; rfl) (fun i hi => (by cases hi)) (fun hl => (by cases hl))
        (Or.inr (Or.inr rfl)) (fun c hc => (by cases hc))
    · cases ht
  | advance p => exact h.advance ht
  | kill p =>
    cases ht
    have hs := kill_same (s.pc p)
    refine h.goto (p := p) (s.pc p).kill s.lock _ s.desc (fun _ _ => rfl)
      (fun x hx => (Function.update_of_ne hx (s.pc p).kill s.pc).symm ▸ Same.refl _)
      (Function.update_self _ _ _) hs.chain hs.asked hs.sent
      (fun i hi => by rw [hs.bumping] at hi; exact hi)
      (fun hl => (h.good p).lock (by rw [hs.locked] at hl; exact hl)) (Or.inr (Or.inr rfl))
      (fun c hc => (h.good p).owner c (by rw [hs.buf] at hc; exact hc))
  | consume => exact h.consume ht
  | complete r => exact h.complete ht

omit [DecidableEq P] [DecidableEq B] in
theorem virtioDiskInit_inv (blockno : B → UInt32) : Inv (virtioDiskInit P blockno) := by
  refine ⟨⟨rfl, rfl, rfl, rfl, Nat.le_refl _, Nat.le_refl _, ?_, ?_, List.Perm.nil, ?_, rfl, ?_⟩,
    ?_, ?_, ?_, ?_, ?_, rfl⟩
  · intro j x _ hx
    cases hx
  · intro j x _ hx
    cases hx
  · intro r hr
    cases hr
  · intro k hk
    cases hk
  · intro p
    exact ⟨fun hl => (by cases hl), fun _ hb => (by cases hb), fun _ hi => (by cases hi),
      List.nodup_nil, fun _ _ _ ha => (by cases ha), fun _ hi => (by cases hi),
      fun _ hk => (by cases hk)⟩
  · intro p q i hi
    cases hi
  · intro i _ hf
    cases hf
  · intro k hk
    cases hk
  · intro k hk
    cases hk

/-- Each descriptor is free or in the chain of one call. Entries of the avail ring that the device
has not read are what the calls wrote, and the device works on what the calls asked for. A call is
over only after the device has completed its request, and a completion clears the flag of the
buffer of its own request, so that a waiting call sees its flag cleared just when its own request
has been found in the used ring. -/
structure Accounted (s : State P B) : Prop where
  descs : ∀ i, i < NUM → (s.free i = true ∧ ∀ p, i ∉ (s.pc p).chain) ∨
    (s.free i = false ∧ ∃! p, i ∈ (s.pc p).chain)
  chains : ∀ p, (s.pc p).chain = [] ∨
    (s.pc p).chain.length = 3 ∧ (s.pc p).chain.Nodup ∧ ∀ i ∈ (s.pc p).chain, i < NUM
  avail : ∀ j b w idx, s.consumed ≤ j → s.requests[j]? = some (b, w, idx) →
    s.availRing (j % NUM) = idx.d0
  taken : ∀ r ∈ s.inflight, Exact s r
  once : (s.inflight.map Taken.k ++ s.completed).Nodup
  returned : ∀ k ∈ s.returned, k ∈ s.completed
  cleared : s.cleared.map some = s.acked.map (fun k => (s.requests[k]?).map Prod.fst)
  waiting : ∀ p b w idx k, (s.pc p).asked = some (b, w, idx) → (s.pc p).sent = some k →
    s.requests[k]? = some (b, w, idx) ∧ (s.disk b = false ↔ k ∈ s.acked)
  panics : s.panicked = none

omit [DecidableEq P] [DecidableEq B] in
theorem Inv.accounted (h : Inv s) : Accounted s := by
  refine ⟨?_, ?_, ?_, h.rings.exact, h.rings.nodup, ?_, h.rings.cleared, ?_, h.panicked⟩
  · intro i hi
    cases hf : s.free i with
    | true =>
      refine Or.inl ⟨rfl, ?_⟩
      intro p hp
      rw [((h.good p).taken i hp).2] at hf
      cases hf
    | false =>
      obtain ⟨p, hp⟩ := h.owned i hi hf
      exact Or.inr ⟨rfl, p, hp, fun q hq => h.apart q p i hq hp⟩
  · intro p
    have hnd := (h.good p).nodup
    have hlt := fun i hi => ((h.good p).taken i hi).1
    cases hq : s.pc p <;> rw [hq] at hnd hlt <;>
      first | exact Or.inl rfl | exact Or.inr ⟨rfl, hnd, hlt⟩
  · intro j b w idx hj hr
    exact h.rings.avail j _ hj (by rw [List.getElem?_map, hr]; rfl)
  · intro k hk
    exact acked_subset (h.rings.returned k hk)
  · intro p b w idx k ha hk
    obtain ⟨-, b', w', idx', ha', hr⟩ := (h.good p).sent k hk
    rw [ha] at ha'
    cases ha'
    refine ⟨hr, ?_⟩
    rw [((h.good p).asked b w idx ha).2, hk]
    constructor
    · rintro ⟨j, hj, hja⟩
      cases hj
      exact hja
    · exact fun hka => ⟨k, rfl, hka⟩

/-- Every run of calls, completions and interrupts keeps account of the descriptors. -/
theorem descriptors_accounted (blockno : B → UInt32) (es : List (Event P B)) (s : State P B)
    (hr : run step (virtioDiskInit P blockno) es = some s) : Accounted s :=
  (run_invariant step Inv step_inv _ s es (virtioDiskInit_inv blockno) hr).accounted

/-- Two writes, completed in the other order. -/
def twoWrites : List (Event (Fin 3) Bool) :=
  [.acquiresleep 0 false, .virtioDiskRw 0 false true, .advance 0, .advance 0, .advance 0,
    .advance 0, .advance 0, .advance 0, .acquiresleep 1 true, .virtioDiskRw 1 true true,
    .advance 1, .advance 1, .advance 1, .advance 1, .advance 1, .consume, .consume,
    .complete ⟨1, 3, some ⟨.blkOut, 0, 14⟩, .data true, .status 3⟩,
    .complete ⟨0, 0, some ⟨.blkOut, 0, 10⟩, .data false, .status 0⟩,
    .advance 1, .virtioDiskIntr 2, .advance 2, .advance 2, .advance 2, .advance 2,
    .advance 1, .advance 1]

theorem descriptors_accounted_twoWrites : ∃ s, run step
    (virtioDiskInit (Fin 3) (fun b => if b then 7 else 5)) twoWrites = some s ∧ Accounted s := by
  have hr : (run step (virtioDiskInit (Fin 3) (fun b => if b then 7 else 5))
    twoWrites).isSome := by decide
  obtain ⟨s, hs⟩ := Option.isSome_iff_exists.mp hr
  exact ⟨s, hs, descriptors_accounted _ twoWrites s hs⟩

example : (run step (virtioDiskInit (Fin 3) (fun b => if b then 7 else 5)) twoWrites).map
    (fun s => (s.returned, s.completed, s.cleared)) = some ([1], [1, 0], [true, false]) := by
  decide

end Accounting

end Xv6Labs.Virtio
