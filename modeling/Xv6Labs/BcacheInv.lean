import Xv6Labs.BcacheCode
import Xv6Labs.PointerChain
import Xv6Labs.Tally
import Xv6Labs.LockTable
import Mathlib.Data.List.FinRange

/-! The invariant of the buffer cache: which buffers are chained in which bucket, which
locks and references each process has, and what the loops over a chain return. -/
namespace Xv6Labs.Bcache

variable {B P : Nat}

section Holdings

/-- The bucket locks that a process has. -/
def PC.buckets : PC B → List Bucket
  | .getHit key _ | .recheckRelease key _ | .assignRelease key _ | .bucketRelease key => [key]
  | .getMiss dev blockno => [BUFMAP_HASH dev blockno]
  | .scanAcquire _ _ holding _ _ => holding.toList
  | .scanRelease _ j _ holding _ _ => j :: holding.toList
  | .moveRelease h _ _ _ => [h]
  | _ => []

/-- Whether it has the eviction lock. -/
def PC.evicting : PC B → List Unit
  | .recheckAcquire .. | .recheckRelease .. | .recheckDone .. | .scanAcquire ..
  | .scanRelease .. | .moveRelease .. | .moveAcquire .. | .assignRelease .. | .assignDone .. => [()]
  | _ => []

/-- The reference that it has counted and not yet given up. -/
def PC.refs : PC B → List (Ptr B)
  | .getHit _ b | .recheckRelease _ b | .recheckDone b | .assignRelease _ b | .assignDone b
  | .sleepAcquire b | .brelseAcquire _ b | .bunpinAcquire _ b => [b]
  | _ => []

def Ptr.bufs : Ptr B → List (Fin B)
  | .buf x => [x]
  | _ => []

/-- The buffer that it has taken out of one chain and not yet put into another. -/
def PC.detached : PC B → List (Fin B)
  | .moveRelease _ b _ _ | .moveAcquire b _ _ => b.bufs
  | _ => []

theorem family_update {α : Type*} (f : PC B → α) (pc : Fin P → PC B) (p : Fin P) (q : PC B) :
    (fun r => f (Function.update pc p q r)) = Function.update (fun r => f (pc r)) p (f q) := by
  funext r
  exact Function.apply_update (fun _ => f) pc p q r

end Holdings

/-- The cells of bucket `i` when the buffers `L i` are chained there. -/
def cells (L : Bucket → List (Fin B)) (i : Bucket) : List (Ptr B) :=
  .head i :: (L i).map .buf

/-- The chains hold the buffers `L`, each at most once. -/
structure Chained (next : Ptr B → Ptr B) (L : Bucket → List (Fin B)) : Prop where
  chains : ∀ i, Chain next .null (.head i) (cells L i)
  atMost : ∀ x, tally L x ≤ 1

section Chained

variable {next : Ptr B → Ptr B} {L : Bucket → List (Fin B)}

theorem Chained.nodup (h : Chained next L) (i : Bucket) : (L i).Nodup := by
  refine List.nodup_iff_count_le_one.mpr (fun x => ?_)
  have h1 := count_le_tally L i x
  have h2 := h.atMost x
  omega

theorem Chained.length_le (h : Chained next L) (i : Bucket) : (L i).length ≤ B := by
  have hsub : (L i).Subperm (List.finRange B) :=
    (h.nodup i).subperm (fun x _ => List.mem_finRange x)
  have hle := hsub.length_le
  rwa [List.length_finRange] at hle

/-- A buffer is in one chain only. -/
theorem Chained.bucket_unique (h : Chained next L) (i j : Bucket) (x : Fin B) (hi : x ∈ L i)
    (hj : x ∈ L j) : i = j := by
  by_contra hij
  have h1 := count_add_count_le_tally L i j hij x
  have h2 := h.atMost x
  have h3 := List.count_pos_iff.mpr hi
  have h4 := List.count_pos_iff.mpr hj
  omega

theorem cells_disjoint (h : Chained next L) (i j : Bucket) (hij : i ≠ j) (y : Ptr B)
    (hi : y ∈ cells L i) : y ∉ cells L j := by
  intro hj
  simp only [cells, List.mem_cons, List.mem_map] at hi hj
  rcases hi with rfl | ⟨x, hx, rfl⟩
  · rcases hj with hj | ⟨x, -, hx⟩
    · cases hj
      exact hij rfl
    · cases hx
  · rcases hj with hj | ⟨z, hz, hzx⟩
    · cases hj
    · cases hzx
      exact hij (h.bucket_unique i j x hx hz)

theorem cells_nodup (h : Chained next L) (i : Bucket) : (cells L i).Nodup := by
  refine List.nodup_cons.mpr ⟨?_, ?_⟩
  · simp
  · apply (h.nodup i).map
    intro x y hxy
    cases hxy
    rfl

/-- What `Candidate` says of the chain that has the buffer. -/
theorem cells_of_candidate {i : Bucket} {c : Ptr B} {k r : List (Fin B)} {x : Fin B}
    {a : List (Ptr B)} (hL : L i = k ++ x :: r) (ha : Ptr.head i :: k.map .buf = a ++ [c]) :
    cells L i = a ++ c :: .buf x :: r.map .buf := by
  have hc : cells L i = (Ptr.head i :: k.map .buf) ++ .buf x :: r.map .buf := by
    simp [cells, hL]
  rw [hc, ha]
  simp

theorem Chained.next_eq (h : Chained next L) {i : Bucket} {c : Ptr B} {k r : List (Fin B)}
    {x : Fin B} {a : List (Ptr B)} (hL : L i = k ++ x :: r)
    (ha : Ptr.head i :: k.map .buf = a ++ [c]) : next c = .buf x := by
  have hchain := h.chains i
  rw [cells_of_candidate hL ha] at hchain
  exact hchain.next_of_append

/-- Taking a buffer out of the chain of bucket `i`; `c` is the cell before it. -/
theorem Chained.unlink (h : Chained next L) {i : Bucket} {c : Ptr B} {k r : List (Fin B)}
    {x : Fin B} {a : List (Ptr B)} (hL : L i = k ++ x :: r)
    (ha : Ptr.head i :: k.map .buf = a ++ [c]) :
    Chained (Function.update next c (next (.buf x))) (Function.update L i (k ++ r)) := by
  have hcells := cells_of_candidate hL ha
  refine ⟨fun j => ?_, fun y => ?_⟩
  · by_cases hj : j = i
    · subst hj
      have hchain := h.chains j
      have hnd := cells_nodup h j
      rw [hcells] at hchain hnd
      have hnew : cells (Function.update L j (k ++ r)) j = a ++ c :: r.map .buf := by
        have hsplit : a ++ c :: r.map Ptr.buf = (a ++ [c]) ++ r.map Ptr.buf := by simp
        rw [hsplit, ← ha]
        simp [cells]
      rw [hnew]
      exact hchain.unlink hnd
    · have hsame : cells (Function.update L i (k ++ r)) j = cells L j := by
        simp only [cells, Function.update_of_ne hj]
      rw [hsame]
      apply (h.chains j).congr
      intro y hy
      apply Function.update_of_ne
      rintro rfl
      exact cells_disjoint h i j (Ne.symm hj) y (by simp [hcells]) hy
  · have ht := tally_update L i (k ++ r) y
    have hle := h.atMost y
    rw [hL] at ht
    simp only [List.count_append, List.count_cons] at ht
    omega

/-- Putting a buffer that is in no chain at the head of bucket `i`. -/
theorem Chained.insert (h : Chained next L) (i : Bucket) (x : Fin B) (hx : ∀ j, x ∉ L j) :
    Chained (Function.update (Function.update next (.buf x) (next (.head i))) (.head i) (.buf x))
      (Function.update L i (x :: L i)) := by
  have hcell (j : Bucket) : Ptr.buf x ∉ cells L j := by simp [cells, hx j]
  refine ⟨fun j => ?_, fun y => ?_⟩
  · by_cases hj : j = i
    · subst hj
      have hnew : cells (Function.update L j (x :: L j)) j =
          .head j :: .buf x :: (L j).map .buf := by
        simp [cells]
      rw [hnew]
      exact (h.chains j).insert (by simp) (hcell j) (by simp)
    · have hsame : cells (Function.update L i (x :: L i)) j = cells L j := by
        simp only [cells, Function.update_of_ne hj]
      rw [hsame]
      apply (h.chains j).congr
      intro z hz
      rw [Function.update_of_ne, Function.update_of_ne]
      · rintro rfl
        exact hcell j hz
      · rintro rfl
        exact cells_disjoint h _ j (Ne.symm hj) _ (by simp [cells]) hz
  · have ht := tally_update L i (x :: L i) y
    have hle := h.atMost y
    rw [List.count_cons] at ht
    by_cases hy : x = y
    · subst hy
      have hzero : tally L x = 0 := Finset.sum_eq_zero (fun j _ => List.count_eq_zero.mpr (hx j))
      simp at ht
      omega
    · simp [hy] at ht
      omega

end Chained

/-- The buffer that a search of the chain for a block finds. -/
def cached (s : State B P) (L : Bucket → List (Fin B)) (dev blockno : UInt32) :
    Option (Fin B) :=
  (L (BUFMAP_HASH dev blockno)).find? (fun x => s.Matches dev blockno (.buf x))

/-- `least` is the cell before an unused buffer of the bucket `holding`, which is before
bucket `i`. -/
def Candidate (s : State B P) (L : Bucket → List (Fin B)) (i : Nat) :
    Option (Ptr B) → Option Bucket → Prop
  | none, none => True
  | some c, some h => h.val < i ∧ ∃ k x r a, L h = k ++ x :: r ∧
      Ptr.head h :: k.map .buf = a ++ [c] ∧ (s.buf (.buf x)).refcnt = 0
  | _, _ => False

/-- `b` is an unused buffer. -/
def Unused (s : State B P) (b : Ptr B) : Prop := ∃ x, b = .buf x ∧ (s.buf b).refcnt = 0

def PcInv (s : State B P) (L : Bucket → List (Fin B)) (p : Fin P) : PC B → Prop
  | .recheckAcquire b dev blockno => ∃ x, b = .buf x ∧ cached s L dev blockno = some x
  | .scanAcquire i least holding dev blockno =>
    cached s L dev blockno = none ∧ Candidate s L i least holding
  | .scanRelease i j least holding dev blockno =>
    cached s L dev blockno = none ∧ Candidate s L i least holding ∧ j ∉ holding
  | .moveRelease _ b dev blockno | .moveAcquire b dev blockno =>
    cached s L dev blockno = none ∧ Unused s b
  | .bpinAcquire _ b => s.sleep b = some p
  | _ => True

/-- `L i` are the buffers of bucket `i`. A used buffer is the one that a search for its
block finds. -/
structure InvAt (s : State B P) (L : Bucket → List (Fin B)) : Prop where
  chains : ∀ i, Chain s.next .null (.head i) (cells L i)
  once : ∀ x, tally L x + tally (fun p => (s.pc p).detached) x = 1
  hashed : ∀ i x, x ∈ L i → s.keyOf (.buf x) = i
  used : ∀ x, 0 < (s.buf (.buf x)).refcnt →
    cached s L (s.buf (.buf x)).dev (s.buf (.buf x)).blockno = some x
  refs : ∀ b, (s.buf b).refcnt =
    s.pins b + (s.sleep b).toList.length + tally (fun p => (s.pc p).refs) b
  buckets : Agree s.bucketLock (fun p => (s.pc p).buckets)
  evict : Agree (fun _ : Unit => s.evictionLock) (fun p => (s.pc p).evicting)
  pcs : ∀ p, PcInv s L p (s.pc p)

section Chains

variable {s : State B P} {L : Bucket → List (Fin B)}

theorem InvAt.chained (h : InvAt s L) : Chained s.next L := by
  refine ⟨h.chains, fun x => ?_⟩
  have hx := h.once x
  omega

/-- A buffer that a process has taken out is in no chain. -/
theorem InvAt.not_mem_of_detached (h : InvAt s L) (p : Fin P) (i : Bucket) (x : Fin B)
    (hx : x ∈ (s.pc p).detached) : x ∉ L i := by
  intro hi
  have h1 := count_le_tally L i x
  have h2 := count_le_tally (fun p => (s.pc p).detached) p x
  have h3 := h.once x
  have h4 := List.count_pos_iff.mpr hi
  have h5 := List.count_pos_iff.mpr hx
  omega

/-- A search along a chain, with enough fuel for its length, finds the first match. -/
theorem lookup_eq (dev blockno : UInt32) (fuel : Nat) (b : Ptr B) (l : List (Fin B))
    (hl : Chain s.next .null b (l.map .buf)) (hf : l.length < fuel) :
    lookup s dev blockno fuel b =
      (l.find? (fun x => s.Matches dev blockno (.buf x))).map .buf := by
  induction l generalizing b fuel with
  | nil =>
    cases hl
    cases fuel with
    | zero => rfl
    | succ n => simp [lookup]
  | cons x l ih =>
    obtain ⟨rfl, -, hl⟩ := hl
    cases fuel with
    | zero => simp at hf
    | succ n =>
      rw [lookup, if_neg (by simp), List.find?_cons]
      by_cases hm : s.Matches dev blockno (.buf x)
      · simp [hm]
      · rw [if_neg hm, ih n _ hl (by simpa using hf)]
        simp [hm]

theorem bucketLookup_eq (h : Chained s.next L) (t : State B P) (dev blockno : UInt32)
    (hnext : t.next = s.next) (hbuf : t.buf = s.buf) :
    bucketLookup t dev blockno = (cached s L dev blockno).map .buf := by
  obtain ⟨-, -, hc⟩ := h.chains (BUFMAP_HASH dev blockno)
  rw [← hnext] at hc
  unfold bucketLookup
  rw [lookup_eq dev blockno _ _ _ hc]
  · unfold cached State.Matches
    rw [hbuf]
  · have := h.length_le (BUFMAP_HASH dev blockno)
    omega

theorem cached_some {dev blockno : UInt32} {x : Fin B} (h : cached s L dev blockno = some x) :
    (s.buf (.buf x)).dev = dev ∧ (s.buf (.buf x)).blockno = blockno ∧
      x ∈ L (BUFMAP_HASH dev blockno) := by
  have hm := List.find?_some h
  simp only [State.Matches, Bool.and_eq_true, beq_iff_eq] at hm
  exact ⟨hm.1, hm.2, List.mem_of_find?_eq_some h⟩

theorem cached_none {dev blockno : UInt32} {x : Fin B} (h : cached s L dev blockno = none)
    (hx : x ∈ L (BUFMAP_HASH dev blockno)) : s.Matches dev blockno (.buf x) = false := by
  have hm := List.find?_eq_none.mp h x hx
  simpa using hm

/-- The search of one bucket leaves `least` as it was, or finds an unused buffer there. -/
theorem scanBucket_spec (i : Bucket) (fuel : Nat) (b : Ptr B) (k l : List (Fin B))
    (a : List (Ptr B)) (least : Option (Ptr B)) (found : Bool) (hL : L i = k ++ l)
    (ha : Ptr.head i :: k.map .buf = a ++ [b]) (hl : Chain s.next .null (s.next b) (l.map .buf)) :
    scanBucket s fuel b least found = (least, found) ∨
      ∃ c k x r a, scanBucket s fuel b least found = (some c, true) ∧ L i = k ++ x :: r ∧
        Ptr.head i :: k.map .buf = a ++ [c] ∧ (s.buf (.buf x)).refcnt = 0 := by
  induction fuel generalizing b k l a least found with
  | zero => exact Or.inl rfl
  | succ n ih =>
    rw [scanBucket]
    cases l with
    | nil =>
      have hb : s.next b = .null := hl
      rw [if_pos hb]
      exact Or.inl rfl
    | cons x l =>
      obtain ⟨hb, -, hl⟩ := hl
      have ha' : Ptr.head i :: (k ++ [x]).map .buf = (a ++ [b]) ++ [Ptr.buf x] := by
        simp [← ha]
      rw [hb, if_neg (by simp)]
      split
      · rename_i hc
        -- `b` is before an unused buffer: it stands, unless the rest has a better one
        rcases ih (.buf x) (k ++ [x]) l (a ++ [b]) (some b) true (by simp [hL]) ha' hl with h | h
        · exact Or.inr ⟨b, k, x, l, a, h, hL, ha, hc.1⟩
        · exact Or.inr h
      · exact ih (.buf x) (k ++ [x]) l (a ++ [b]) least found (by simp [hL]) ha' hl

end Chains

section Searches

variable {α : Type*}

/-- A narrower test that the first match still passes. -/
theorem find?_of_imp {l : List α} {f g : α → Bool} {z : α} (hz : l.find? f = some z)
    (hg : g z = true) (himp : ∀ y ∈ l, g y = true → f y = true) : l.find? g = some z := by
  obtain ⟨-, a, r, rfl, ha⟩ := List.find?_eq_some_iff_append.mp hz
  refine List.find?_eq_some_iff_append.mpr ⟨hg, a, r, rfl, ?_⟩
  intro y hy
  have h1 := ha y hy
  have h2 := himp y (by simp [hy])
  cases hgy : g y
  · rfl
  · simp [h2 hgy] at h1

/-- Removing an element that is not the first match. -/
theorem find?_remove {k r : List α} {f : α → Bool} {x z : α}
    (hz : (k ++ x :: r).find? f = some z) (hx : x ≠ z) : (k ++ r).find? f = some z := by
  rw [List.find?_append] at hz ⊢
  cases hk : k.find? f with
  | some y =>
    rw [hk] at hz
    exact hz
  | none =>
    rw [hk, Option.none_or, List.find?_cons] at hz
    rw [Option.none_or]
    split at hz
    · exact absurd (Option.some.inj hz) hx
    · exact hz

end Searches

end Xv6Labs.Bcache
