import Xv6Labs.Runs
import Xv6Labs.RingSlots
import Xv6Labs.NicCode

/-! The rings of the e1000 driver over whole runs of driver and device. Values are numbered in
the order in which they go into a ring. -/
namespace Xv6Labs.Nic

section Transmit

variable {s t : Tx} {m : Mbuf}

/-- What the device is told about a packet. -/
def Mbuf.described (m : Mbuf) : Nat × Nat := (m.head, m.len % 2^16)

def TxDesc.described (d : TxDesc) : Nat × Nat := (d.addr, d.length)

/-- The packets that are accepted and not sent. -/
def Tx.pending (s : Tx) : List Mbuf := s.accepted.drop s.sent.length

/-- The ring is full: the device owns all descriptors that it can own. -/
def Tx.Full (s : Tx) : Prop := (s.tdt + 1) % TX_RING_SIZE = s.tdh

instance (s : Tx) : Decidable s.Full := inferInstanceAs (Decidable (_ = _))

/-- The invariant of runs in which nothing is transmitted on a full ring. -/
structure TxInv (s : Tx) : Prop where
  sent : s.sent = (s.accepted.take s.sent.length).map Mbuf.described
  lag : s.sent.length ≤ s.accepted.length
  lead : s.accepted.length < s.sent.length + TX_RING_SIZE
  head : s.tdh = s.sent.length % TX_RING_SIZE
  tail : s.tdt = s.accepted.length % TX_RING_SIZE
  done : ∀ i, (s.ring i).dd = true
  descs : Window TX_RING_SIZE (fun i => (s.ring i).described) (s.accepted.map Mbuf.described)
    (s.accepted.length - TX_RING_SIZE)
  mbufs : Window TX_RING_SIZE s.mbufs (s.accepted.map some) (s.accepted.length - TX_RING_SIZE)
  unused : ∀ i, s.accepted.length ≤ i → s.mbufs i = none
  freed : s.freed = s.accepted.take (s.accepted.length - TX_RING_SIZE)

theorem txInit_inv : TxInv txInit where
  sent := rfl
  lag := Nat.le_refl _
  lead := by decide
  head := rfl
  tail := rfl
  done := fun _ => rfl
  descs := by
    intro j x _ hx
    cases hx
  mbufs := by
    intro j x _ hx
    cases hx
  unused := fun _ _ => rfl
  freed := rfl

theorem TxInv.not_full (h : TxInv s) (hfull : ¬s.Full) :
    s.accepted.length + 1 < s.sent.length + TX_RING_SIZE := by
  have hlag := h.lag
  have hlead := h.lead
  by_contra hge
  apply hfull
  unfold Tx.Full
  rw [h.head, h.tail]
  have heq : s.accepted.length + 1 = s.sent.length + TX_RING_SIZE := by omega
  rw [Nat.mod_add_mod, heq, Nat.add_mod_right]

theorem transmit_inv (h : TxInv s) (hfull : ¬s.Full) : TxInv (e1000Transmit s m).1 := by
  have hroom := h.not_full hfull
  have hlag := h.lag
  have hsize : TX_RING_SIZE = 16 := rfl
  -- the buffer in the slot is the one accepted a lap ago, if there was a lap
  have hold : (s.mbufs s.tdt).toList =
      (s.accepted.take (s.accepted.length + 1 - TX_RING_SIZE)).drop
        (s.accepted.length - TX_RING_SIZE) := by
    rw [h.tail]
    by_cases hlap : TX_RING_SIZE ≤ s.accepted.length
    · have hlt : s.accepted.length - TX_RING_SIZE < s.accepted.length := by omega
      have hslot : (s.accepted.length - TX_RING_SIZE) % TX_RING_SIZE =
          s.accepted.length % TX_RING_SIZE := (Nat.mod_eq_sub_mod hlap).symm
      have hval := h.mbufs (s.accepted.length - TX_RING_SIZE)
        (some s.accepted[s.accepted.length - TX_RING_SIZE]) (Nat.le_refl _)
        (by rw [List.getElem?_map, List.getElem?_eq_getElem hlt]; rfl)
      have hsucc : s.accepted.length + 1 - TX_RING_SIZE =
          s.accepted.length - TX_RING_SIZE + 1 := by omega
      rw [hslot] at hval
      rw [hval, hsucc, List.take_add_one, List.getElem?_eq_getElem hlt,
        List.drop_append_of_le_length (by rw [List.length_take]; omega),
        List.drop_eq_nil_of_le (by rw [List.length_take]; omega)]
      rfl
    · have hmod : s.accepted.length % TX_RING_SIZE = s.accepted.length :=
        Nat.mod_eq_of_lt (by omega)
      have hzero : s.accepted.length + 1 - TX_RING_SIZE = 0 := by omega
      rw [hmod, h.unused _ (Nat.le_refl _), hzero, List.take_zero, List.drop_nil]
      rfl
  have hlen : (s.accepted ++ [m]).length = s.accepted.length + 1 := by
    rw [List.length_append, List.length_singleton]
  unfold e1000Transmit
  simp only [h.done, Bool.true_eq_false, if_false]
  refine ⟨?_, ?_, ?_, h.head, ?_, ?_, ?_, ?_, ?_, ?_⟩
  · simp only [List.take_append_of_le_length hlag]
    exact h.sent
  · simp only [hlen]
    omega
  · simp only [hlen]
    omega
  · simp only [hlen, h.tail, Nat.mod_add_mod]
  · intro i
    by_cases hi : i = s.tdt
    · subst hi
      simp only [Function.update_self]
    · simp only [Function.update_of_ne hi]
      exact h.done _
  · simp only [List.map_append, hlen]
    have hpush := (h.descs.mono (show _ ≤ s.accepted.length + 1 - TX_RING_SIZE by omega)).push
      (by rw [List.length_map]; omega) m.described
    rw [List.length_map, ← h.tail] at hpush
    have hfun : (fun i => (Function.update s.ring s.tdt
          ⟨m.head, m.len % 2^16, true, true, true⟩ i).described) =
        Function.update (fun i => (s.ring i).described) s.tdt m.described := by
      funext i
      by_cases hi : i = s.tdt
      · subst hi
        simp only [Function.update_self]
        rfl
      · simp only [Function.update_of_ne hi]
    rw [hfun]
    exact hpush
  · simp only [List.map_append, hlen]
    have hpush := (h.mbufs.mono (show _ ≤ s.accepted.length + 1 - TX_RING_SIZE by omega)).push
      (by rw [List.length_map]; omega) (some m)
    rw [List.length_map, ← h.tail] at hpush
    exact hpush
  · intro i hi
    simp only [hlen] at hi
    have hle : s.tdt ≤ s.accepted.length := by
      rw [h.tail]
      exact Nat.mod_le _ _
    simp only [Function.update_of_ne (show i ≠ s.tdt by omega)]
    exact h.unused i (by omega)
  · simp only [hlen]
    rw [h.freed, hold, List.take_append_of_le_length (by omega)]
    have htake : s.accepted.take (s.accepted.length - TX_RING_SIZE) =
        (s.accepted.take (s.accepted.length + 1 - TX_RING_SIZE)).take
          (s.accepted.length - TX_RING_SIZE) := by
      rw [List.take_take, Nat.min_eq_left (by omega)]
    rw [htake, List.take_append_drop]

theorem device_inv (h : TxInv s) : TxInv (deviceSend s) := by
  have hlag := h.lag
  have hlead := h.lead
  unfold deviceSend
  split
  · exact h
  · rename_i hne
    have hlt : s.sent.length < s.accepted.length := by
      by_contra hge
      apply hne
      rw [h.head, h.tail, Nat.le_antisymm hlag (Nat.not_lt.mp hge)]
    have hdesc : (s.ring s.tdh).described = (s.accepted[s.sent.length]).described := by
      rw [h.head]
      exact h.descs s.sent.length _ (by omega)
        (by rw [List.getElem?_map, List.getElem?_eq_getElem hlt]; rfl)
    have hring : (fun i => (Function.update s.ring s.tdh { s.ring s.tdh with dd := true }
        i).described) = fun i => (s.ring i).described := by
      funext i
      by_cases hi : i = s.tdh
      · subst hi
        simp only [Function.update_self]
        rfl
      · simp only [Function.update_of_ne hi]
    refine ⟨?_, ?_, ?_, ?_, h.tail, ?_, ?_, h.mbufs, h.unused, h.freed⟩
    · simp only [List.length_append, List.length_singleton]
      rw [List.take_add_one, List.getElem?_eq_getElem hlt, List.map_append, ← h.sent]
      exact congrArg (fun x => s.sent ++ [x]) hdesc
    · simp only [List.length_append, List.length_singleton]
      omega
    · simp only [List.length_append, List.length_singleton]
      omega
    · simp only [List.length_append, List.length_singleton, h.head, Nat.mod_add_mod]
    · intro i
      by_cases hi : i = s.tdh
      · subst hi
        simp only [Function.update_self]
      · simp only [Function.update_of_ne hi]
        exact h.done i
    · simp only [hring]
      exact h.descs

theorem TxInv.pending_descs (h : TxInv s) {i : Nat} (hi : i < s.pending.length) :
    (s.ring ((s.tdh + i) % TX_RING_SIZE)).described = (s.pending[i]).described ∧
    s.mbufs ((s.tdh + i) % TX_RING_SIZE) = some s.pending[i] := by
  have hlead := h.lead
  unfold Tx.pending at hi ⊢
  rw [List.length_drop] at hi
  have hlt : s.sent.length + i < s.accepted.length := by omega
  rw [h.head, Nat.mod_add_mod, List.getElem_drop]
  refine ⟨?_, ?_⟩
  · exact h.descs _ _ (by omega) (by rw [List.getElem?_map, List.getElem?_eq_getElem hlt]; rfl)
  · exact h.mbufs _ _ (by omega) (by rw [List.getElem?_map, List.getElem?_eq_getElem hlt]; rfl)

theorem TxInv.owned (h : TxInv s) :
    s.pending.length = (s.tdt + TX_RING_SIZE - s.tdh) % TX_RING_SIZE := by
  have hlag := h.lag
  have hlead := h.lead
  have hsize : TX_RING_SIZE = 16 := rfl
  unfold Tx.pending
  rw [List.length_drop, h.tail, h.head]
  rw [hsize] at hlead ⊢
  omega

/-- The transmit protocol: the device has sent the first packets that were accepted, in order and
each once; the others are what it owns, as it will find them; and the packets that are freed are
among the sent ones, each freed once. -/
structure TxExact (s : Tx) : Prop where
  order : s.accepted.map Mbuf.described = s.sent ++ s.pending.map Mbuf.described
  owned : s.pending.length = (s.tdt + TX_RING_SIZE - s.tdh) % TX_RING_SIZE
  intact : ∀ i (hi : i < s.pending.length),
    (s.ring ((s.tdh + i) % TX_RING_SIZE)).described = (s.pending[i]).described ∧
    s.mbufs ((s.tdh + i) % TX_RING_SIZE) = some s.pending[i]
  freed : ∃ k, k ≤ s.sent.length ∧ s.freed = s.accepted.take k

theorem TxInv.exact (h : TxInv s) : TxExact s := by
  refine ⟨?_, h.owned, fun i hi => h.pending_descs hi, ?_⟩
  · have hsplit : s.accepted.map Mbuf.described =
        (s.accepted.take s.sent.length).map Mbuf.described ++ s.pending.map Mbuf.described := by
      unfold Tx.pending
      rw [← List.map_append, List.take_append_drop]
    rw [← h.sent] at hsplit
    exact hsplit
  · have hlead := h.lead
    exact ⟨s.accepted.length - TX_RING_SIZE, by omega, h.freed⟩

/-- A call of e1000_transmit is made when the ring is not full. -/
def Room (s : Tx) : TxEvent → Prop
  | .transmit _ => ¬s.Full
  | .device => True

instance (s : Tx) (e : TxEvent) : Decidable (Room s e) := by
  cases e <;> (unfold Room; infer_instance)

/-- In every run of driver and device in which nothing is transmitted on a full ring, the
transmit protocol holds, and a call on a ring with room is accepted. -/
theorem transmit_exact_room (es : List TxEvent) (t : Tx) (hroom : Guarded txStep Room txInit es)
    (hrun : run txStep txInit es = some t) :
    TxExact t ∧ (t.tdh = t.tdt → t.sent = t.accepted.map Mbuf.described) ∧
    ∀ m, (e1000Transmit t m).2 = 0 := by
  have hinv : TxInv t := by
    refine guarded_run_invariant txStep Room TxInv ?_ txInit t es txInit_inv hroom hrun
    intro s e t hs hr ht
    cases e with
    | transmit m =>
      cases ht
      exact transmit_inv hs hr
    | device =>
      cases ht
      exact device_inv hs
  have hexact := hinv.exact
  refine ⟨hexact, ?_, ?_⟩
  · intro hempty
    have howned := hexact.owned
    rw [hempty, Nat.add_sub_cancel_left, Nat.mod_self] at howned
    rw [hexact.order, List.eq_nil_of_length_eq_zero howned]
    simp
  · intro m
    unfold e1000Transmit
    simp only [hinv.done, Bool.true_eq_false, if_false]

/-- The first `n` packets of 60 bytes. -/
def sends (n : Nat) : List TxEvent := (List.range n).map (fun i => .transmit ⟨i + 1, 60⟩)

/-- Fifteen packets, five of them sent, and five more. -/
theorem transmit_exact_room_lap : ∃ t : Tx,
    run txStep txInit (sends 15 ++ List.replicate 5 .device ++ sends 5) = some t ∧
    t.freed = [⟨1, 60⟩, ⟨2, 60⟩, ⟨3, 60⟩, ⟨4, 60⟩] ∧ TxExact t := by
  refine ⟨_, rfl, by decide, ?_⟩
  exact (transmit_exact_room (sends 15 ++ List.replicate 5 .device ++ sends 5) _ (by decide) rfl).1

/-- On a full ring a call is accepted; the device then owns nothing, and the next call frees a
packet that has not been sent. -/
theorem transmit_full_ring :
    (∃ t : Tx, run txStep txInit (sends 15) = some t ∧ t.Full ∧
      (e1000Transmit t ⟨16, 60⟩).2 = 0) ∧
    ∃ t : Tx, run txStep txInit (sends 17) = some t ∧ t.sent = [] ∧ t.freed = [⟨1, 60⟩] ∧
      t.accepted.length = 17 ∧ ¬TxExact t := by
  refine ⟨⟨_, rfl, by decide, by decide⟩, _, rfl, by decide, by decide, by decide, ?_⟩
  intro hexact
  exact absurd hexact.owned (by decide)

end Transmit

section Receive

variable {s t : Rx}

/-- How many descriptors the device has filled and the driver has not seen. -/
def Rx.filled (s : Rx) : Nat := (s.rdh + RX_RING_SIZE - (s.rdt + 1)) % RX_RING_SIZE

/-- The place of descriptor `i` after the tail. -/
def Rx.place (s : Rx) (i : Nat) : Nat := (i + RX_RING_SIZE - (s.rdt + 1)) % RX_RING_SIZE

/-- How many iterations of the loop of e1000_recv have come to their end with a packet. -/
def Rx.taken (s : Rx) : Nat := s.delivered.length - if s.busy then 1 else 0

/-- What net_rx is to be given for a packet. -/
def received (packet : List UInt8) : List UInt8 × Nat := (packet, packet.length)

structure RxInv (s : Rx) : Prop where
  delivered : s.delivered = (s.accepted.take s.delivered.length).map received
  busy : s.busy = true → 0 < s.delivered.length
  lag : s.delivered.length ≤ s.accepted.length
  lead : s.accepted.length < s.taken + RX_RING_SIZE
  head : s.rdh = s.accepted.length % RX_RING_SIZE
  tail : s.rdt = (s.taken + (RX_RING_SIZE - 1)) % RX_RING_SIZE
  done : ∀ i, i < RX_RING_SIZE → ((s.ring i).dd = true ↔
    ∃ j, s.taken ≤ j ∧ j < s.accepted.length ∧ j % RX_RING_SIZE = i)
  packets : Window RX_RING_SIZE (fun i => (s.mem (s.mbufs i).head, (s.ring i).length))
    (s.accepted.map received) s.delivered.length
  addrs : ∀ i, i < RX_RING_SIZE → (s.ring i).addr = (s.mbufs i).head
  distinct : ∀ i j, i < RX_RING_SIZE → j < RX_RING_SIZE →
    (s.mbufs i).head = (s.mbufs j).head → i = j
  apart : ∀ i, i < RX_RING_SIZE → (s.busy = true → i ≠ (s.rdt + 1) % RX_RING_SIZE) →
    (s.mbufs i).head ∉ s.handed

theorem Rx.taken_le (s : Rx) : s.taken ≤ s.delivered.length := Nat.sub_le _ _

theorem RxInv.taken_busy (h : RxInv s) (hb : s.busy = true) :
    s.taken + 1 = s.delivered.length := by
  have := h.busy hb
  unfold Rx.taken
  rw [if_pos hb]
  omega

theorem Rx.taken_idle (hb : s.busy = false) : s.taken = s.delivered.length := by
  unfold Rx.taken
  rw [hb]
  rfl

/-- The slot that e1000_recv looks at. -/
theorem RxInv.slot (h : RxInv s) : (s.rdt + 1) % RX_RING_SIZE = s.taken % RX_RING_SIZE := by
  rw [h.tail]
  simp only [RX_RING_SIZE]
  omega

theorem rxInit_inv {heads : Nat → Nat}
    (hheads : ∀ i j, i < RX_RING_SIZE → j < RX_RING_SIZE → heads i = heads j → i = j) :
    RxInv (rxInit heads) where
  delivered := rfl
  busy := fun hb => by cases hb
  lag := Nat.le_refl _
  lead := by
    change 0 < 0 + 16
    decide
  head := rfl
  tail := rfl
  done := by
    intro i _
    constructor
    · intro hdd
      cases hdd
    · rintro ⟨j, -, hj, -⟩
      exact absurd hj (Nat.not_lt_zero j)
  packets := by
    intro j x _ hx
    cases hx
  addrs := fun _ _ => rfl
  distinct := hheads
  apart := fun _ _ _ => List.not_mem_nil

theorem RxInv.head_lt (h : RxInv s) : s.rdh < RX_RING_SIZE := by
  rw [h.head]
  exact Nat.mod_lt _ (by decide)

theorem deviceReceive_inv (h : RxInv s) (packet : List UInt8) : RxInv (deviceReceive s packet) := by
  have hlag := h.lag
  have hlead := h.lead
  have hle := s.taken_le
  have hhead := h.head_lt
  have hsize : RX_RING_SIZE = 16 := rfl
  unfold deviceReceive
  split
  · exact h
  · rename_i hne
    have hroom : s.accepted.length + 1 < s.taken + RX_RING_SIZE := by
      by_contra hge
      apply hne
      rw [h.head, h.tail]
      congr 1
      omega
    have hlen : (s.accepted ++ [packet]).length = s.accepted.length + 1 := by
      rw [List.length_append, List.length_singleton]
    refine ⟨?_, h.busy, ?_, ?_, ?_, h.tail, ?_, ?_, ?_, h.distinct, h.apart⟩
    · simp only [List.take_append_of_le_length hlag]
      exact h.delivered
    · simp only [hlen]
      omega
    · simp only [hlen]
      exact hroom
    · simp only [hlen, h.head, Nat.mod_add_mod]
    · intro i hi
      simp only [hlen]
      change (Function.update s.ring s.rdh _ i).dd = true ↔
        ∃ j, s.taken ≤ j ∧ j < s.accepted.length + 1 ∧ j % RX_RING_SIZE = i
      rw [slots_push (Nat.le_trans hle hlag), ← h.head]
      by_cases hir : i = s.rdh
      · subst hir
        rw [Function.update_self]
        exact ⟨fun _ => Or.inl rfl, fun _ => rfl⟩
      · rw [Function.update_of_ne hir, h.done i hi]
        exact ⟨Or.inr, fun hor => hor.resolve_left hir⟩
    · have hpush := h.packets.push (by rw [List.length_map]; omega) (received packet)
      rw [List.length_map, ← h.head] at hpush
      simp only [List.map_append]
      refine hpush.congr (by decide) ?_
      intro i hi
      -- the packet goes to the buffer of its own descriptor only
      by_cases hir : i = s.rdh
      · subst hir
        simp only [Function.update_self, h.addrs _ hi]
        rfl
      · have hbuf : (s.mbufs i).head ≠ (s.ring s.rdh).addr := by
          rw [h.addrs _ hhead]
          exact fun heq => hir (h.distinct i s.rdh hi hhead heq)
        simp only [Function.update_of_ne hir, Function.update_of_ne hbuf]
    · intro i hi
      by_cases hir : i = s.rdh
      · subst hir
        simp only [Function.update_self]
        exact h.addrs _ hi
      · simp only [Function.update_of_ne hir]
        exact h.addrs i hi

/-- mbufalloc returns a buffer that nobody has. The one that net_rx has just been given may have
been freed since. -/
def Unowned (s : Rx) (b : Nat) : Prop :=
  b ∉ s.handed ∧ ∀ i, i < RX_RING_SIZE → i ≠ (s.rdt + 1) % RX_RING_SIZE → (s.mbufs i).head ≠ b

instance (s : Rx) (b : Nat) : Decidable (Unowned s b) := inferInstanceAs (Decidable (_ ∧ _))

/-- The oldest packet that is not delivered goes to net_rx. -/
theorem recvDeliver_inv (h : RxInv s) (hidle : s.busy = false) : RxInv (recvDeliver s) := by
  have hlag := h.lag
  have hlead := h.lead
  have hsize : RX_RING_SIZE = 16 := rfl
  have htaken := Rx.taken_idle hidle
  have hslot := h.slot
  rw [htaken] at hlead hslot
  have htlt : s.delivered.length % RX_RING_SIZE < RX_RING_SIZE := Nat.mod_lt _ (by decide)
  unfold recvDeliver
  dsimp only
  split
  · exact h
  · rename_i hdd
    rw [Bool.not_eq_false, hslot, h.done _ htlt, htaken] at hdd
    obtain ⟨j, hj, hja, hjs⟩ := hdd
    obtain rfl : j = s.delivered.length := slot_inj (by omega) hj hjs
    have hval := h.packets s.delivered.length _ (Nat.le_refl _)
      (by rw [List.getElem?_map, List.getElem?_eq_getElem hja]; rfl)
    simp only [hslot]
    have hlen (x : List UInt8 × Nat) :
        (s.delivered ++ [x]).length = s.delivered.length + 1 := by
      rw [List.length_append, List.length_singleton]
    -- the buffers are the same ones
    have hheads (i : Nat) : (Function.update s.mbufs (s.delivered.length % RX_RING_SIZE)
        { s.mbufs (s.delivered.length % RX_RING_SIZE) with
          len := (s.ring (s.delivered.length % RX_RING_SIZE)).length } i).head =
        (s.mbufs i).head := by
      by_cases hi : i = s.delivered.length % RX_RING_SIZE
      · rw [hi, Function.update_self]
      · rw [Function.update_of_ne hi]
    have hsame (x : List UInt8 × Nat) : (s.delivered ++ [x]).length - 1 = s.taken := by
      rw [hlen, htaken]
      rfl
    refine ⟨?_, ?_, ?_, ?_, h.head, ?_, ?_, ?_, ?_, ?_, ?_⟩
    · simp only [hlen]
      rw [List.take_add_one, List.getElem?_eq_getElem hja, List.map_append, ← h.delivered]
      exact congrArg (fun x => s.delivered ++ [x]) hval
    · intro _
      simp only [hlen]
      omega
    · simp only [hlen]
      omega
    · simp only [Rx.taken, if_true, hsame]
      exact h.lead
    · simp only [Rx.taken, if_true, hsame]
      exact h.tail
    · simp only [Rx.taken, if_true, hsame]
      exact h.done
    · simp only [hlen, hheads]
      exact h.packets.mono (Nat.le_succ _)
    · intro i hi
      rw [hheads]
      exact h.addrs i hi
    · intro i k hi hk
      rw [hheads, hheads]
      exact h.distinct i k hi hk
    · intro i hi hne
      simp only [hheads, List.mem_cons, not_or]
      have hne := hne rfl
      rw [hslot] at hne
      exact ⟨fun heq => hne (h.distinct i _ hi htlt heq),
        h.apart i hi (fun hb => by rw [hidle] at hb; cases hb)⟩

/-- The descriptor goes back to the device with a new buffer. -/
theorem recvRefill_inv (h : RxInv s) (hbusy : s.busy = true) {b : Nat} (hb : Unowned s b) :
    RxInv (recvRefill s b) := by
  have hlag := h.lag
  have hlead := h.lead
  have hsize : RX_RING_SIZE = 16 := rfl
  have htaken := h.taken_busy hbusy
  have hslot := h.slot
  have htlt : s.taken % RX_RING_SIZE < RX_RING_SIZE := Nat.mod_lt _ (by decide)
  obtain ⟨hfree, hother⟩ := hb
  rw [hslot] at hother
  have hapart := h.apart
  rw [hslot] at hapart
  have hcount : (recvRefill s b).taken = s.taken + 1 := by
    rw [Rx.taken_idle (s := recvRefill s b) rfl]
    exact htaken.symm
  have htail : (recvRefill s b).rdt = s.taken % RX_RING_SIZE := hslot
  refine ⟨h.delivered, fun hb => (by cases hb), h.lag, ?_, h.head, ?_, ?_, ?_, ?_, ?_, ?_⟩
  · rw [hcount]
    change s.accepted.length < _
    omega
  · rw [hcount, htail, hsize]
    omega
  · intro i hi
    rw [hcount]
    rw [slots_take (by change s.accepted.length ≤ _; omega)]
    unfold recvRefill
    simp only [hslot]
    by_cases hir : i = s.taken % RX_RING_SIZE
    · subst hir
      rw [Function.update_self]
      exact ⟨fun hdd => (by cases hdd), fun hne => absurd rfl hne.1⟩
    · rw [Function.update_of_ne hir, h.done i hi]
      exact ⟨fun hin => ⟨hir, hin⟩, fun hin => hin.2⟩
  · intro j x hj hx
    change s.delivered.length ≤ j at hj
    have hjlt : j < s.accepted.length := by
      have hlt := (List.getElem?_eq_some_iff.mp hx).1
      rwa [List.length_map] at hlt
    have hne : j % RX_RING_SIZE ≠ s.taken % RX_RING_SIZE := by
      intro heq
      have hjd := slot_inj (by omega) (by omega) heq
      omega
    unfold recvRefill
    simp only [hslot, Function.update_of_ne hne]
    exact h.packets j x hj hx
  · intro i hi
    unfold recvRefill
    simp only [hslot]
    by_cases hir : i = s.taken % RX_RING_SIZE
    · subst hir
      simp only [Function.update_self]
    · simp only [Function.update_of_ne hir]
      exact h.addrs i hi
  · intro i k hi hk
    unfold recvRefill
    simp only [hslot]
    by_cases hir : i = s.taken % RX_RING_SIZE
    · by_cases hkr : k = s.taken % RX_RING_SIZE
      · exact fun _ => hir.trans hkr.symm
      · simp only [hir, Function.update_self, Function.update_of_ne hkr]
        exact fun heq => absurd heq.symm (hother k hk hkr)
    · by_cases hkr : k = s.taken % RX_RING_SIZE
      · simp only [hkr, Function.update_self, Function.update_of_ne hir]
        exact fun heq => absurd heq (hother i hi hir)
      · simp only [Function.update_of_ne hir, Function.update_of_ne hkr]
        exact h.distinct i k hi hk
  · intro i hi _
    unfold recvRefill
    simp only [hslot]
    by_cases hir : i = s.taken % RX_RING_SIZE
    · simp only [hir, Function.update_self]
      exact hfree
    · simp only [Function.update_of_ne hir]
      exact hapart i hi (fun _ => hir)

/-- The receive protocol: net_rx has been given the first packets that the device accepted, in
order, each once and with its length; the others stand in the descriptors with the status bit,
which are those from the tail on up to the head; and the network stack has no buffer of the ring
but, until the descriptor is refilled, the one that it was given last. -/
structure RxExact (s : Rx) : Prop where
  order : s.delivered ++ (s.accepted.drop s.delivered.length).map received =
    s.accepted.map received
  waiting : (s.accepted.drop s.taken).length = s.filled
  status : ∀ i, i < RX_RING_SIZE → ((s.ring i).dd = true ↔ s.place i < s.filled)
  stored : ∀ i (hi : i < (s.accepted.drop s.delivered.length).length),
    let d := s.ring ((s.rdt + 1 + (if s.busy then 1 else 0) + i) % RX_RING_SIZE)
    (s.mem d.addr, d.length) = received ((s.accepted.drop s.delivered.length)[i])
  apart : ∀ i, i < RX_RING_SIZE → (s.busy = true → i ≠ (s.rdt + 1) % RX_RING_SIZE) →
    (s.ring i).addr ∉ s.handed

/-- The device writes into no buffer that the network stack has. -/
def KeepsOff (s : Rx) : Prop := s.rdh ≠ s.rdt → (s.ring s.rdh).addr ∉ s.handed

theorem RxInv.filled (h : RxInv s) : s.filled = s.accepted.length - s.taken := by
  have hlag := h.lag
  have hlead := h.lead
  have hle := s.taken_le
  unfold Rx.filled
  rw [h.head, h.tail]
  simp only [RX_RING_SIZE] at hlead ⊢
  omega

theorem RxInv.exact (h : RxInv s) : RxExact s := by
  have hlag := h.lag
  have hlead := h.lead
  have hle := s.taken_le
  have hfilled := h.filled
  have htail := h.tail
  simp only [RX_RING_SIZE] at hlead htail
  refine ⟨?_, ?_, ?_, ?_, ?_⟩
  · conv_lhs => rw [h.delivered]
    rw [List.length_map, List.length_take, Nat.min_eq_left hlag, ← List.map_append,
      List.take_append_drop]
  · rw [List.length_drop]
    exact hfilled.symm
  · intro i hi
    rw [h.done i hi, hfilled]
    unfold Rx.place
    simp only [RX_RING_SIZE] at hi ⊢
    constructor
    · rintro ⟨j, hj, hlt, hji⟩
      omega
    · intro hplace
      exact ⟨s.taken + (i + 16 - (s.rdt + 1)) % 16, by omega, by omega, by omega⟩
  · intro i hi
    rw [List.length_drop] at hi
    have hlt : s.delivered.length + i < s.accepted.length := by omega
    have hcount : s.taken + (if s.busy then 1 else 0) = s.delivered.length := by
      cases hb : s.busy with
      | true => exact h.taken_busy hb
      | false => exact Rx.taken_idle hb
    have hslot : (s.rdt + 1 + (if s.busy then 1 else 0) + i) % RX_RING_SIZE =
        (s.delivered.length + i) % RX_RING_SIZE := by
      rw [← hcount]
      simp only [RX_RING_SIZE]
      omega
    have hval := h.packets (s.delivered.length + i) _ (Nat.le_add_right _ _)
      (by rw [List.getElem?_map, List.getElem?_eq_getElem hlt]; rfl)
    simp only [hslot, h.addrs _ (Nat.mod_lt _ (show 0 < RX_RING_SIZE by decide)),
      List.getElem_drop]
    exact hval
  · intro i hi hne
    rw [h.addrs i hi]
    exact h.apart i hi hne

/-- The slot that the stack may still have a buffer of is behind the head. -/
theorem RxInv.keepsOff (h : RxInv s) : KeepsOff s := by
  intro hne
  have hlag := h.lag
  have hlead := h.lead
  rw [h.addrs _ h.head_lt]
  apply h.apart _ h.head_lt
  intro hb heq
  have htaken := h.taken_busy hb
  rw [h.slot, h.head] at heq
  have := slot_inj hlead (by omega) heq
  omega

/-- What mbufalloc promises. -/
def Allocates (s : Rx) : RxEvent → Prop
  | .refill b => Unowned s b
  | _ => True

instance (s : Rx) (e : RxEvent) : Decidable (Allocates s e) := by
  cases e <;> (unfold Allocates; infer_instance)

/-- In every run of arrivals and loop iterations the receive protocol holds, the device writes
into no buffer that net_rx has been given and the stack has not freed, and once the driver finds
no status bit every accepted packet has been given to net_rx. -/
theorem receive_exact (heads : Nat → Nat)
    (hheads : ∀ i j, i < RX_RING_SIZE → j < RX_RING_SIZE → heads i = heads j → i = j)
    (es : List RxEvent) (t : Rx) (halloc : Guarded rxStep Allocates (rxInit heads) es)
    (hrun : run rxStep (rxInit heads) es = some t) :
    RxExact t ∧ KeepsOff t ∧ ((t.ring ((t.rdt + 1) % RX_RING_SIZE)).dd = false →
      t.delivered = t.accepted.map received) := by
  have hinv : RxInv t := by
    refine guarded_run_invariant rxStep Allocates RxInv ?_ _ t es (rxInit_inv hheads) halloc hrun
    intro s e t hs ha ht
    cases e with
    | arrive packet =>
      cases ht
      exact deviceReceive_inv hs packet
    | deliver =>
      simp only [rxStep] at ht
      split_ifs at ht with hb
      cases ht
      exact recvDeliver_inv hs (by simpa using hb)
    | refill b =>
      simp only [rxStep] at ht
      split_ifs at ht with hb
      cases ht
      exact recvRefill_inv hs hb ha
    | free b =>
      simp only [rxStep] at ht
      split_ifs at ht
      cases ht
      refine ⟨hs.delivered, hs.busy, hs.lag, hs.lead, hs.head, hs.tail, hs.done, hs.packets,
        hs.addrs, hs.distinct, ?_⟩
      intro i hi hne hmem
      exact hs.apart i hi hne (List.mem_of_mem_erase hmem)
  have hexact := hinv.exact
  refine ⟨hexact, hinv.keepsOff, ?_⟩
  intro hdd
  have hlag := hinv.lag
  have hlt : (t.rdt + 1) % RX_RING_SIZE < RX_RING_SIZE := Nat.mod_lt _ (by decide)
  have hall : ¬t.taken < t.accepted.length := by
    intro hmore
    have hset := (hinv.done _ hlt).mpr ⟨t.taken, Nat.le_refl _, hmore, hinv.slot.symm⟩
    rw [hdd] at hset
    cases hset
  have horder := hexact.order
  have hle := t.taken_le
  rw [List.drop_eq_nil_of_le (by omega), List.map_nil, List.append_nil] at horder
  exact horder

/-- Eighteen packets arrive, of which the ring takes fifteen. The driver takes two: the stack keeps
the first buffer, and frees the second at once, which mbufalloc returns again in the same
iteration. Another packet arrives inside that iteration, and one after it. -/
theorem receive_exact_burst : ∃ t : Rx,
    run rxStep (rxInit id) (List.replicate 18 (.arrive [7, 8]) ++
      [.deliver, .refill 20, .deliver, .arrive [9], .free 1, .refill 1, .arrive [10]]) = some t ∧
    t.delivered.length = 2 ∧ t.accepted.length = 17 ∧ t.handed = [0] ∧ RxExact t ∧ KeepsOff t := by
  refine ⟨_, rfl, by decide, by decide, by decide, ?_⟩
  obtain ⟨hexact, hoff, -⟩ := receive_exact id (fun i j _ _ h => h)
    (List.replicate 18 (.arrive [7, 8]) ++
      [.deliver, .refill 20, .deliver, .arrive [9], .free 1, .refill 1, .arrive [10]]) _
    (by decide) rfl
  exact ⟨hexact, hoff⟩

end Receive

end Xv6Labs.Nic
