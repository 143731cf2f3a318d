import Mathlib.Data.List.Basic
import Mathlib.Logic.Function.Basic
import Mathlib.Algebra.GroupWithZero.Nat

/-! The descriptor rings of the e1000 driver, and the device as the driver relies on it: what it
does with the descriptors from the head register up to the tail register. -/
namespace Xv6Labs.Nic

/-- A packet buffer; `head` is where its data starts, and tells buffers apart. -/
structure Mbuf where
  head : Nat
  len : Nat
  deriving DecidableEq, Repr

section Transmit

def TX_RING_SIZE : Nat := 16

structure TxDesc where
  addr : Nat
  length : Nat
  /-- Report status and end of packet, in `cmd`. -/
  rs : Bool
  eop : Bool
  /-- The status bit `E1000_TXD_STAT_DD`. -/
  dd : Bool
  deriving DecidableEq, Repr

/-- The transmit side. `accepted`, `sent` and `freed` record what e1000_transmit has taken, what
the device has sent and what has been given to mbuffree. -/
structure Tx where
  ring : Nat → TxDesc
  mbufs : Nat → Option Mbuf
  tdh : Nat
  tdt : Nat
  accepted : List Mbuf
  sent : List (Nat × Nat)
  freed : List Mbuf

/-- The transmit part of e1000_init. -/
def txInit : Tx where
  ring := fun _ => ⟨0, 0, false, false, true⟩
  mbufs := fun _ => none
  tdh := 0
  tdt := 0
  accepted := []
  sent := []
  freed := []

def e1000Transmit (s : Tx) (m : Mbuf) : Tx × Int :=
  let tail := s.tdt
  if (s.ring tail).dd = false then (s, -1)
  else
    ({ s with
      freed := s.freed ++ (s.mbufs tail).toList
      mbufs := Function.update s.mbufs tail (some m)
      -- the status bit is not cleared
      ring := Function.update s.ring tail
        { s.ring tail with addr := m.head, length := m.len % 2^16, rs := true, eop := true }
      tdt := (tail + 1) % TX_RING_SIZE
      accepted := s.accepted ++ [m] }, 0)

/-- The device sends the packet of the descriptor at the head, if it owns one. -/
def deviceSend (s : Tx) : Tx :=
  if s.tdh = s.tdt then s
  else
    { s with
      sent := s.sent ++ [((s.ring s.tdh).addr, (s.ring s.tdh).length)]
      ring := Function.update s.ring s.tdh { s.ring s.tdh with dd := true }
      tdh := (s.tdh + 1) % TX_RING_SIZE }

inductive TxEvent where
  | transmit (m : Mbuf)
  | device
  deriving DecidableEq

def txStep (s : Tx) : TxEvent → Option Tx
  | .transmit m => some (e1000Transmit s m).1
  | .device => some (deviceSend s)

end Transmit

section Receive

def RX_RING_SIZE : Nat := 16

structure RxDesc where
  addr : Nat
  length : Nat
  /-- The status bit, for which the source uses the name `E1000_TXD_STAT_DD`. -/
  dd : Bool
  deriving DecidableEq, Repr

/-- The receive side. `mem` is the content of the buffers. `accepted` records the packets that the
device has taken, `delivered` what net_rx has been given, with the length, and `handed` the
buffers that the network stack has and has not freed. `busy` is set while e1000_recv is between
net_rx and mbufalloc. -/
structure Rx where
  ring : Nat → RxDesc
  mbufs : Nat → Mbuf
  rdh : Nat
  rdt : Nat
  busy : Bool
  mem : Nat → List UInt8
  accepted : List (List UInt8)
  delivered : List (List UInt8 × Nat)
  handed : List Nat

/-- The receive part of e1000_init, with the buffers that mbufalloc returns. -/
def rxInit (heads : Nat → Nat) : Rx where
  ring := fun i => ⟨heads i, 0, false⟩
  mbufs := fun i => ⟨heads i, 0⟩
  rdh := 0
  rdt := RX_RING_SIZE - 1
  busy := false
  mem := fun _ => []
  accepted := []
  delivered := []
  handed := []

/-- A packet arrives at the device, which drops it when it owns no descriptor. -/
def deviceReceive (s : Rx) (packet : List UInt8) : Rx :=
  if s.rdh = s.rdt then s
  else
    { s with
      mem := Function.update s.mem (s.ring s.rdh).addr packet
      ring := Function.update s.ring s.rdh { s.ring s.rdh with length := packet.length, dd := true }
      rdh := (s.rdh + 1) % RX_RING_SIZE
      accepted := s.accepted ++ [packet] }

/-- An iteration of the loop of e1000_recv up to the return of net_rx. -/
def recvDeliver (s : Rx) : Rx :=
  let tail := (s.rdt + 1) % RX_RING_SIZE
  if (s.ring tail).dd = false then s
  else
    let m : Mbuf := { s.mbufs tail with len := (s.ring tail).length }
    { s with
      mbufs := Function.update s.mbufs tail m
      delivered := s.delivered ++ [(s.mem m.head, m.len)]
      handed := m.head :: s.handed
      busy := true }

/-- The rest of the iteration, in which mbufalloc returns `new`. -/
def recvRefill (s : Rx) (new : Nat) : Rx :=
  let tail := (s.rdt + 1) % RX_RING_SIZE
  { s with
    mbufs := Function.update s.mbufs tail ⟨new, 0⟩
    ring := Function.update s.ring tail { s.ring tail with addr := new, dd := false }
    rdt := tail
    busy := false }

inductive RxEvent where
  | arrive (packet : List UInt8)
  | deliver
  | refill (new : Nat)
  /-- The network stack frees a buffer that it has. -/
  | free (b : Nat)
  deriving DecidableEq

/-- Packets arrive and buffers are freed at any time, also inside an iteration. -/
def rxStep (s : Rx) : RxEvent → Option Rx
  | .arrive packet => some (deviceReceive s packet)
  | .deliver => if s.busy then none else some (recvDeliver s)
  | .refill new => if s.busy then some (recvRefill s new) else none
  | .free b => if b ∈ s.handed then some { s with handed := s.handed.erase b } else none

end Receive

end Xv6Labs.Nic
