import Xv6Labs.LockTable
import Xv6Labs.HashCode
import Xv6Labs.PointerChain

/-! Every put of ph.c is in the table when its bucket is unlocked again, whatever the order of
the threads' steps. -/
namespace Xv6Labs.Hash

section Lists

variable {heap heap' : Nat → Entry} {head b k : Nat} {l : List Nat}

/-- The entries `l` of bucket `b`, from the head on. -/
structure Holds (heap : Nat → Entry) (head b : Nat) (l : List Nat) : Prop where
  chain : Chain (fun p => (heap p).next) 0 head l
  keys : (l.map (fun p => (heap p).key)).Nodup
  bucket : ∀ p ∈ l, (heap p).key % NBUCKET = b

/-- The scan for `k` is at `e` and has not found the key so far. -/
def OnScan (heap : Nat → Entry) (l : List Nat) (k e : Nat) : Prop :=
  ∃ a c, l = a ++ c ∧ Chain (fun p => (heap p).next) 0 e c ∧ ∀ p ∈ a, (heap p).key ≠ k

theorem Holds.congr (h : Holds heap head b l) (heq : ∀ p ∈ l, heap' p = heap p) :
    Holds heap' head b l := by
  refine ⟨Seg.congr h.chain (fun p hp => by rw [heq p hp]), ?_, fun p hp => ?_⟩
  · rw [List.map_congr_left (fun p hp => by rw [heq p hp])]
    exact h.keys
  · rw [heq p hp]
    exact h.bucket p hp

theorem OnScan.congr {e : Nat} (h : OnScan heap l k e) (heq : ∀ p ∈ l, heap' p = heap p) :
    OnScan heap' l k e := by
  obtain ⟨a, c, rfl, hc, ha⟩ := h
  refine ⟨a, c, rfl, Seg.congr hc (fun p hp => by rw [heq p (by simp [hp])]), ?_⟩
  intro p hp
  rw [heq p (by simp [hp])]
  exact ha p hp

theorem look_congr (heq : ∀ p ∈ l, heap' p = heap p) (k : Nat) :
    look heap' l k = look heap l k := by
  induction l with
  | nil => rfl
  | cons p l ih =>
    have ih' := ih (fun q hq => heq q (by simp [hq]))
    unfold look at ih' ⊢
    rw [List.find?_cons, List.find?_cons, heq p (by simp)]
    split
    · simp [heq p (by simp)]
    · exact ih'

/-- A change to values of other keys. -/
theorem look_values (hk : ∀ p, (heap' p).key = (heap p).key)
    (hv : ∀ p, (heap p).key = k → (heap' p).value = (heap p).value) :
    look heap' l k = look heap l k := by
  induction l with
  | nil => rfl
  | cons p l ih =>
    unfold look at ih ⊢
    rw [List.find?_cons, List.find?_cons, hk p]
    by_cases hp : (heap p).key = k
    · simp [hp, hv p hp]
    · simp only [hp, decide_false]
      exact ih

theorem look_none (h : ∀ p ∈ l, (heap p).key ≠ k) : look heap l k = none := by
  have hf : l.find? (fun p => (heap p).key = k) = none := by
    apply List.find?_eq_none.mpr
    intro p hp
    simpa using h p hp
  rw [look, hf]
  rfl

/-- The keys of a chain are different, so that an entry with the key is the one found. -/
theorem look_mem {e : Nat} (hk : (l.map (fun p => (heap p).key)).Nodup) (he : e ∈ l) :
    look heap l (heap e).key = some (heap e).value := by
  induction l with
  | nil => cases he
  | cons p l ih =>
    obtain ⟨hp, hl⟩ := List.nodup_cons.mp hk
    unfold look at ih ⊢
    rw [List.find?_cons]
    rcases List.mem_cons.mp he with rfl | he
    · simp
    · have hne : (heap p).key ≠ (heap e).key := by
        intro heq
        exact hp (List.mem_map.mpr ⟨e, he, heq.symm⟩)
      simp only [hne, decide_false]
      exact ih hl he

theorem look_cons_ne {p : Nat} (h : (heap p).key ≠ k) : look heap (p :: l) k = look heap l k := by
  unfold look
  rw [List.find?_cons]
  simp [h]

/-- A scan that has come to the end has not found the key. -/
theorem OnScan.missing (h : OnScan heap l k 0) (p : Nat) (hp : p ∈ l) : (heap p).key ≠ k := by
  obtain ⟨a, c, rfl, hc, ha⟩ := h
  rw [hc.nil_of_null, List.append_nil] at hp
  exact ha p hp

theorem OnScan.mem {e : Nat} (h : OnScan heap l k e) (he : e ≠ 0) : e ∈ l := by
  obtain ⟨a, c, rfl, hc, -⟩ := h
  obtain ⟨c', rfl, -⟩ := hc.cons_of_ne he
  simp

theorem OnScan.next {e : Nat} (h : OnScan heap l k e) (he : e ≠ 0) (hk : (heap e).key ≠ k) :
    OnScan heap l k (heap e).next := by
  obtain ⟨a, c, rfl, hc, ha⟩ := h
  obtain ⟨c', rfl, hc'⟩ := hc.cons_of_ne he
  refine ⟨a ++ [e], c', by simp, hc', ?_⟩
  intro p hp
  rcases List.mem_append.mp hp with hp | hp
  · exact ha p hp
  · rw [List.mem_singleton.mp hp]
    exact hk

theorem OnScan.start (h : Chain (fun p => (heap p).next) 0 head l) : OnScan heap l k head :=
  ⟨[], l, rfl, h, fun p hp => by cases hp⟩

theorem lastPut_append (log : List (Nat × Int)) (k k' : Nat) (v : Int) :
    lastPut (log ++ [(k, v)]) k' = if k = k' then some v else lastPut log k' := by
  unfold lastPut
  rw [List.reverse_append, List.reverse_singleton, List.singleton_append, List.find?_cons]
  by_cases h : k = k' <;> simp [h]

end Lists

/-- The bucket whose lock a thread has. -/
def PC.lockOf : PC → Option Nat
  | .idle | .putLock _ _ | .getLock _ => none
  | .putHead k _ | .putScan k _ _ | .putUpdate k _ _ | .insert k _ | .malloc k _ _
  | .setKey k _ _ _ | .setValue k _ _ _ | .setNext k _ _ _ | .link k _ _ | .putUnlock k
  | .getHead k | .getScan k _ | .getUnlock k _ => some (k % NBUCKET)

/-- The new entry of an insert. -/
def PC.pending : PC → Option Nat
  | .setKey _ _ _ e | .setValue _ _ _ e | .setNext _ _ _ e | .link _ _ e => some e
  | _ => none

/-- The put that a thread with the lock has still to bring into the chain. -/
def PC.putting : PC → Option (Nat × Int)
  | .putHead k v | .putScan k v _ | .putUpdate k v _ | .insert k v | .malloc k v _
  | .setKey k v _ _ | .setValue k v _ _ | .setNext k v _ _ | .link k v _ => some (k, v)
  | _ => none

/-- What a thread knows of the bucket that it has locked. -/
def Knows (heap : Nat → Entry) (table : Nat → Nat) (C : Nat → List Nat) : PC → Prop
  | .idle | .putLock _ _ | .getLock _ | .putHead _ _ | .putUnlock _ | .getHead _ => True
  | .putScan k _ e | .getScan k e => OnScan heap (C (k % NBUCKET)) k e
  | .putUpdate k _ e => e ∈ C (k % NBUCKET) ∧ (heap e).key = k
  | .insert k _ => ∀ p ∈ C (k % NBUCKET), (heap p).key ≠ k
  | .malloc k _ n | .setKey k _ n _ =>
    (∀ p ∈ C (k % NBUCKET), (heap p).key ≠ k) ∧ n = table (k % NBUCKET)
  | .setValue k _ n e => (∀ p ∈ C (k % NBUCKET), (heap p).key ≠ k) ∧ n = table (k % NBUCKET) ∧
    (heap e).key = k
  | .setNext k v n e => (∀ p ∈ C (k % NBUCKET), (heap p).key ≠ k) ∧ n = table (k % NBUCKET) ∧
    (heap e).key = k ∧ (heap e).value = v
  | .link k v e => (∀ p ∈ C (k % NBUCKET), (heap p).key ≠ k) ∧
    heap e = ⟨k, v, table (k % NBUCKET)⟩
  | .getUnlock k e => (e = 0 ∧ ∀ p ∈ C (k % NBUCKET), (heap p).key ≠ k) ∨
    (e ∈ C (k % NBUCKET) ∧ (heap e).key = k)

/-- The buckets hold the entries `C`, and they agree with the puts so far but for those that
are under way. -/
structure InvAt {T : Type} (s : State T) (C : Nat → List Nat) : Prop where
  holds : ∀ b, Holds s.heap (s.table b) b (C b)
  used : ∀ b, ∀ p ∈ C b, p ∈ s.used
  lock : ∀ x b, (s.pc x).lockOf = some b → s.lock b = some x
  knows : ∀ x, Knows s.heap s.table C (s.pc x)
  fresh : ∀ x e, (s.pc x).pending = some e → e ≠ 0 ∧ e ∈ s.used ∧ (∀ b, e ∉ C b) ∧
    ∀ y, (s.pc y).pending = some e → y = x
  puts : ∀ x k v, (s.pc x).putting = some (k, v) → lastPut s.log k = some v
  maps : ∀ k, (∃ x v, (s.pc x).putting = some (k, v)) ∨
    look s.heap (C (k % NBUCKET)) k = lastPut s.log k

section Frame

variable {heap heap' : Nat → Entry} {table table' : Nat → Nat} {C C' : Nat → List Nat} {q : PC}

/-- What a thread knows depends on the bucket that it has locked and on its new entry. -/
theorem Knows.frame (h : Knows heap table C q)
    (hC : ∀ b, q.lockOf = some b → C' b = C b ∧ table' b = table b ∧ ∀ p ∈ C b, heap' p = heap p)
    (hnew : ∀ e, q.pending = some e → heap' e = heap e) : Knows heap' table' C' q := by
  have habs (k : Nat) (hq : q.lockOf = some (k % NBUCKET))
      (ha : ∀ p ∈ C (k % NBUCKET), (heap p).key ≠ k) (p : Nat) (hp : p ∈ C' (k % NBUCKET)) :
      (heap' p).key ≠ k := by
    rw [(hC _ hq).1] at hp
    rw [(hC _ hq).2.2 p hp]
    exact ha p hp
  cases q with
  | idle | putLock | getLock | putHead | putUnlock | getHead => trivial
  | putScan k v e | getScan k e =>
    obtain ⟨h1, -, h3⟩ := hC _ rfl
    simp only [Knows] at h ⊢
    rw [h1]
    exact h.congr h3
  | putUpdate k v e =>
    obtain ⟨h1, -, h3⟩ := hC _ rfl
    simp only [Knows] at h ⊢
    rw [h1, h3 e h.1]
    exact h
  | insert k v => exact habs k rfl h
  | malloc k v n | setKey k v n e => exact ⟨habs k rfl h.1, by rw [(hC _ rfl).2.1]; exact h.2⟩
  | setValue k v n e =>
    exact ⟨habs k rfl h.1, by rw [(hC _ rfl).2.1]; exact h.2.1, by rw [hnew e rfl]; exact h.2.2⟩
  | setNext k v n e =>
    exact ⟨habs k rfl h.1, by rw [(hC _ rfl).2.1]; exact h.2.1, by rw [hnew e rfl]; exact h.2.2⟩
  | link k v e =>
    exact ⟨habs k rfl h.1, by rw [hnew e rfl, (hC _ rfl).2.1]; exact h.2⟩
  | getUnlock k e =>
    rcases h with ⟨h0, ha⟩ | ⟨he, hk⟩
    · exact Or.inl ⟨h0, habs k rfl ha⟩
    · obtain ⟨h1, -, h3⟩ := hC _ rfl
      exact Or.inr ⟨by rw [h1]; exact he, by rw [h3 e he]; exact hk⟩

theorem putting_lockOf {k : Nat} {v : Int} (h : q.putting = some (k, v)) :
    q.lockOf = some (k % NBUCKET) := by
  cases q <;> simp only [PC.putting, reduceCtorEq, Option.some.injEq, Prod.mk.injEq] at h <;>
    rw [← h.1] <;> rfl

end Frame

section Moves

variable {T : Type} {s t : State T} {C C' : Nat → List Nat} {x : T} {b : Nat} {q : PC}

/-- The entries of another bucket are not written. -/
theorem InvAt.heap_of_ne (h : InvAt s C)
    (hheap : ∀ p, t.heap p ≠ s.heap p → p ∈ C b ∨ (s.pc x).pending = some p) (b' : Nat)
    (hb : b' ≠ b) (p : Nat) (hp : p ∈ C b') : t.heap p = s.heap p := by
  by_contra hne
  rcases hheap p hne with hpb | hpx
  · exact hb (((h.holds b').bucket p hp).symm.trans ((h.holds b).bucket p hpb))
  · exact (h.fresh x p hpx).2.2.1 b' hp

theorem InvAt.alone (h : InvAt s C) (hb : (s.pc x).lockOf = some b) (y : T) (hy : y ≠ x) :
    (s.pc y).lockOf ≠ some b := by
  intro hyb
  have hxl := h.lock x b hb
  rw [h.lock y b hyb] at hxl
  exact hy (Option.some.inj hxl)

theorem InvAt.putting_bucket (hb : (s.pc x).lockOf = some b) (k : Nat) (v : Int)
    (hk : (s.pc x).putting = some (k, v)) : k % NBUCKET = b := by
  rw [putting_lockOf hk] at hb
  exact Option.some.inj hb

/-- The table of a locked bucket, but for the key that its holder is putting. -/
theorem InvAt.maps_locked (h : InvAt s C) (hb : (s.pc x).lockOf = some b) (k : Nat)
    (hk : k % NBUCKET = b) : (∃ v, (s.pc x).putting = some (k, v)) ∨
      look s.heap (C b) k = lastPut s.log k := by
  rcases h.maps k with ⟨y, v, hv⟩ | hlook
  · by_cases hyx : y = x
    · subst hyx
      exact Or.inl ⟨v, hv⟩
    · exact absurd (by rw [putting_lockOf hv, hk]) (h.alone hb y hyx)
  · rw [hk] at hlook
    exact Or.inr hlook

variable [DecidableEq T]

/-- A step of thread `x`, which has bucket `b` for itself: it may change this bucket's head,
its entries and the thread's new entry. -/
theorem InvAt.move (h : InvAt s C) (x : T) (b : Nat) (q : PC)
    (hpc : t.pc = Function.update s.pc x q)
    (halone : ∀ y, y ≠ x → (s.pc y).lockOf ≠ some b)
    (hlock : ∀ y b', b' ≠ b → s.lock b' = some y → t.lock b' = some y)
    (hqlock : ∀ b', q.lockOf = some b' → t.lock b' = some x)
    (hframe : ∀ b', b' ≠ b → t.table b' = s.table b' ∧ C' b' = C b')
    (hheap : ∀ p, t.heap p ≠ s.heap p → p ∈ C b ∨ (s.pc x).pending = some p)
    (hlog : ∀ k, k % NBUCKET ≠ b → lastPut t.log k = lastPut s.log k)
    (hused : ∀ p ∈ s.used, p ∈ t.used) (hholds : Holds t.heap (t.table b) b (C' b))
    (hC : ∀ p ∈ C' b, p ∈ C b ∨ (s.pc x).pending = some p)
    (hq : Knows t.heap t.table C' q)
    (hpend : ∀ e, q.pending = some e → e ≠ 0 ∧ e ∈ t.used ∧ (∀ b', e ∉ C' b') ∧
      ((s.pc x).pending = some e ∨ e ∉ s.used))
    (hputs : ∀ k v, q.putting = some (k, v) → lastPut t.log k = some v)
    (hxb : ∀ k v, (s.pc x).putting = some (k, v) → k % NBUCKET = b)
    (hmaps : ∀ k, k % NBUCKET = b → (∃ v, q.putting = some (k, v)) ∨
      look t.heap (C' b) k = lastPut t.log k) : InvAt t C' := by
  have hself : t.pc x = q := by rw [hpc, Function.update_self]
  have hother (y : T) (hy : y ≠ x) : t.pc y = s.pc y := by rw [hpc, Function.update_of_ne hy]
  have hsame := h.heap_of_ne hheap
  refine ⟨?_, ?_, ?_, ?_, ?_, ?_, ?_⟩
  · intro b'
    by_cases hb : b' = b
    · subst hb
      exact hholds
    · rw [(hframe b' hb).1, (hframe b' hb).2]
      exact (h.holds b').congr (hsame b' hb)
  · intro b' p hp
    apply hused
    by_cases hb : b' = b
    · subst hb
      rcases hC p hp with hp | hp
      · exact h.used b' p hp
      · exact (h.fresh x p hp).2.1
    · rw [(hframe b' hb).2] at hp
      exact h.used b' p hp
  · -- no other thread holds the lock of the bucket
    intro y b' hy
    by_cases hyx : y = x
    · subst hyx
      rw [hself] at hy
      exact hqlock b' hy
    · rw [hother y hyx] at hy
      apply hlock y b' _ (h.lock y b' hy)
      rintro rfl
      exact halone y hyx hy
  · -- what another thread knows is of its own bucket, which this step leaves alone
    intro y
    by_cases hyx : y = x
    · subst hyx
      rw [hself]
      exact hq
    · rw [hother y hyx]
      apply (h.knows y).frame
      · intro b' hb'
        have hne : b' ≠ b := by
          rintro rfl
          exact halone y hyx hb'
        exact ⟨(hframe b' hne).2, (hframe b' hne).1, hsame b' hne⟩
      · -- an entry that is not yet in a chain is its thread's alone
        intro e he
        by_contra hne
        rcases hheap e hne with heb | hex
        · exact (h.fresh y e he).2.2.1 b heb
        · exact hyx ((h.fresh x e hex).2.2.2 y he)
  · intro y e he
    by_cases hyx : y = x
    · subst hyx
      rw [hself] at he
      obtain ⟨h0, h1, h2, h3⟩ := hpend e he
      refine ⟨h0, h1, h2, ?_⟩
      intro z hz
      by_contra hzy
      rw [hother z hzy] at hz
      rcases h3 with h3 | h3
      · exact hzy ((h.fresh y e h3).2.2.2 z hz)
      · exact h3 (h.fresh z e hz).2.1
    · rw [hother y hyx] at he
      obtain ⟨h0, h1, h2, h3⟩ := h.fresh y e he
      refine ⟨h0, hused e h1, ?_, ?_⟩
      · intro b' hb'
        by_cases hb : b' = b
        · subst hb
          rcases hC e hb' with hb' | hb'
          · exact h2 b' hb'
          · exact hyx (h3 x hb').symm
        · rw [(hframe b' hb).2] at hb'
          exact h2 b' hb'
      · intro z hz
        by_cases hzx : z = x
        · subst hzx
          rw [hself] at hz
          rcases (hpend e hz).2.2.2 with h4 | h4
          · exact h3 z h4
          · exact absurd h1 h4
        · rw [hother z hzx] at hz
          exact h3 z hz
  · intro y k v hy
    by_cases hyx : y = x
    · subst hyx
      rw [hself] at hy
      exact hputs k v hy
    · rw [hother y hyx] at hy
      rw [hlog k (fun hk => halone y hyx (by rw [putting_lockOf hy, hk]))]
      exact h.puts y k v hy
  · -- keys of the other buckets look up as before
    intro k
    by_cases hk : k % NBUCKET = b
    · rcases hmaps k hk with ⟨v, hv⟩ | hlook
      · exact Or.inl ⟨x, v, by rw [hself]; exact hv⟩
      · rw [← hk] at hlook
        exact Or.inr hlook
    · rcases h.maps k with ⟨y, v, hv⟩ | hlook
      · have hyx : y ≠ x := by
          rintro rfl
          exact hk (hxb k v hv)
        exact Or.inl ⟨y, v, by rw [hother y hyx]; exact hv⟩
      · right
        rw [(hframe _ hk).2, look_congr (hsame _ hk), hlog k hk]
        exact hlook

/-- A step that only reads. -/
theorem InvAt.goto (h : InvAt s C) (hb : (s.pc x).lockOf = some b) (q : PC)
    (hl : q.lockOf = some b) (hpend : q.pending = none)
    (hput : q.putting = (s.pc x).putting) (hq : Knows s.heap s.table C q) :
    InvAt (s.goto x q) C := by
  refine h.move x b q rfl (h.alone hb) (fun _ _ _ hy => hy) ?_ (fun _ _ => ⟨rfl, rfl⟩)
    (fun p hp => absurd rfl hp) (fun _ _ => rfl) (fun _ hp => hp) (h.holds b)
    (fun p hp => Or.inl hp) hq ?_ ?_ (InvAt.putting_bucket hb) ?_
  · intro b' hb'
    rw [hl] at hb'
    cases hb'
    exact h.lock x b hb
  · intro e he
    rw [hpend] at he
    cases he
  · intro k v hk
    rw [hput] at hk
    exact h.puts x k v hk
  · intro k hk
    rw [hput]
    exact h.maps_locked hb k hk

/-- A write to the thread's new entry. -/
theorem InvAt.fill (h : InvAt s C) (hb : (s.pc x).lockOf = some b) (e : Nat) (v : Entry)
    (he : (s.pc x).pending = some e) (q : PC) (hl : q.lockOf = some b)
    (hpend : q.pending = some e) (hput : q.putting = (s.pc x).putting)
    (hq : Knows (Function.update s.heap e v) s.table C q) :
    InvAt ((s.write e v).goto x q) C := by
  obtain ⟨h0, h1, h2, -⟩ := h.fresh x e he
  have hkeep (b' p : Nat) (hp : p ∈ C b') : Function.update s.heap e v p = s.heap p := by
    apply Function.update_of_ne
    rintro rfl
    exact h2 b' hp
  refine h.move x b q rfl (h.alone hb) (fun _ _ _ hy => hy) ?_ (fun _ _ => ⟨rfl, rfl⟩) ?_
    (fun _ _ => rfl) (fun _ hp => hp) ((h.holds b).congr (hkeep b)) (fun p hp => Or.inl hp) hq
    ?_ ?_ (InvAt.putting_bucket hb) ?_
  · intro b' hb'
    rw [hl] at hb'
    cases hb'
    exact h.lock x b hb
  · intro p hp
    right
    by_contra hne
    exact hp (Function.update_of_ne (fun hpe => hne (by rw [hpe]; exact he)) _ _)
  · intro e' he'
    rw [hpend] at he'
    cases he'
    exact ⟨h0, h1, h2, Or.inl he⟩
  · intro k w hk
    rw [hput] at hk
    exact h.puts x k w hk
  · intro k hk
    rw [hput]
    rcases h.maps_locked hb k hk with hp | hlook
    · exact Or.inl hp
    · right
      exact (look_congr (hkeep b) k).trans hlook

end Moves

section Steps

variable {T : Type} [DecidableEq T] {s t : State T} {C : Nat → List Nat} {x : T}

/-- Taking the lock of bucket `b`; a put is then noted in the log. -/
theorem InvAt.acquire (h : InvAt s C) (b : Nat) (q : PC) (log : List (Nat × Int))
    (hs : s.lock b = none) (hx : (s.pc x).lockOf = none) (hl : q.lockOf = some b)
    (hpend : q.pending = none) (hq : Knows s.heap s.table C q)
    (hlog : ∀ k, (∃ v, q.putting = some (k, v)) ∨ lastPut log k = lastPut s.log k)
    (hput : ∀ k v, q.putting = some (k, v) → lastPut log k = some v) :
    InvAt (State.goto { s with lock := Function.update s.lock b (some x), log := log } x q) C := by
  have hnone (y : T) : (s.pc y).lockOf ≠ some b := by
    intro hy
    rw [h.lock y b hy] at hs
    cases hs
  have hnoput (k : Nat) (v : Int) (hk : (s.pc x).putting = some (k, v)) : False := by
    rw [putting_lockOf hk] at hx
    cases hx
  refine h.move x b q rfl (fun y _ => hnone y) ?_ ?_ (fun _ _ => ⟨rfl, rfl⟩)
    (fun p hp => absurd rfl hp) ?_ (fun _ hp => hp) (h.holds b) (fun p hp => Or.inl hp) hq ?_
    hput (fun k v hk => (hnoput k v hk).elim) ?_
  · intro y b' hb hy
    simp only [State.goto, Function.update_of_ne hb]
    exact hy
  · intro b' hb'
    rw [hl] at hb'
    cases hb'
    exact Function.update_self _ _ _
  · intro k hk
    rcases hlog k with ⟨v, hv⟩ | hsame
    · rw [putting_lockOf hv] at hl
      exact absurd (Option.some.inj hl) hk
    · exact hsame
  · intro e he
    rw [hpend] at he
    cases he
  · intro k hk
    rcases hlog k with hv | hsame
    · exact Or.inl hv
    · right
      rcases h.maps k with ⟨y, v, hv⟩ | hlook
      · exact absurd (by rw [putting_lockOf hv, hk]) (hnone y)
      · rw [hk] at hlook
        exact hlook.trans hsame.symm

/-- Giving the lock of bucket `b` back. -/
theorem InvAt.release (h : InvAt s C) (b : Nat) (hb : (s.pc x).lockOf = some b)
    (hput : (s.pc x).putting = none) : InvAt ((s.release b).goto x .idle) C := by
  refine h.move x b .idle rfl (h.alone hb) ?_ (fun b' hb' => by cases hb')
    (fun _ _ => ⟨rfl, rfl⟩) (fun p hp => absurd rfl hp) (fun _ _ => rfl) (fun _ hp => hp)
    (h.holds b) (fun p hp => Or.inl hp) trivial (fun e he => by cases he)
    (fun k v hk => by cases hk) (InvAt.putting_bucket hb) ?_
  · intro y b' hb' hy
    simp only [State.goto, State.release, Function.update_of_ne hb']
    exact hy
  · intro k hk
    rcases h.maps_locked hb k hk with ⟨v, hv⟩ | hlook
    · rw [hput] at hv
      cases hv
    · exact Or.inr hlook

/-- `e->value = value` for the entry that has the key. -/
theorem InvAt.update (h : InvAt s C) (k : Nat) (v : Int) (e : Nat)
    (hpc : s.pc x = .putUpdate k v e) :
    InvAt ((s.write e { s.heap e with value := v }).goto x (.putUnlock k)) C := by
  have hb : (s.pc x).lockOf = some (k % NBUCKET) := by rw [hpc]; rfl
  have hput := h.puts x k v (by rw [hpc]; rfl)
  obtain ⟨he, hkey⟩ : e ∈ C (k % NBUCKET) ∧ (s.heap e).key = k := by
    have hk := h.knows x
    rw [hpc] at hk
    exact hk
  have hhold := h.holds (k % NBUCKET)
  have hfields (p : Nat) :
      (Function.update s.heap e { s.heap e with value := v } p).next = (s.heap p).next ∧
      (Function.update s.heap e { s.heap e with value := v } p).key = (s.heap p).key := by
    by_cases hp : p = e
    · subst hp
      rw [Function.update_self]
      exact ⟨rfl, rfl⟩
    · rw [Function.update_of_ne hp]
      exact ⟨rfl, rfl⟩
  have hhold' : Holds (Function.update s.heap e { s.heap e with value := v })
      (s.table (k % NBUCKET)) (k % NBUCKET) (C (k % NBUCKET)) := by
    refine ⟨Seg.congr hhold.chain (fun p _ => (hfields p).1), ?_, ?_⟩
    · rw [List.map_congr_left (fun p _ => (hfields p).2)]
      exact hhold.keys
    · intro p hp
      rw [(hfields p).2]
      exact hhold.bucket p hp
  refine h.move x (k % NBUCKET) (.putUnlock k) rfl (h.alone hb) (fun _ _ _ hy => hy) ?_
    (fun _ _ => ⟨rfl, rfl⟩) ?_ (fun _ _ => rfl) (fun _ hp => hp) hhold'
    (fun p hp => Or.inl hp) trivial (fun e he => by cases he) (fun k v hk => by cases hk)
    (InvAt.putting_bucket hb) ?_
  · intro b' hb'
    cases hb'
    exact h.lock x _ hb
  · intro p hp
    left
    by_contra hne
    apply hp
    apply Function.update_of_ne
    rintro rfl
    exact hne he
  · intro k' hk'
    right
    by_cases hkk : k' = k
    · subst hkk
      have hl := look_mem hhold'.keys he
      have hv : (Function.update s.heap e { s.heap e with value := v } e).value = v := by
        rw [Function.update_self]
      rw [(hfields e).2, hkey, hv] at hl
      exact hl.trans hput.symm
    · -- the other keys keep their entries
      rcases h.maps_locked hb k' hk' with ⟨w, hw⟩ | hlook
      · rw [hpc] at hw
        cases hw
        exact absurd rfl hkk
      · refine (look_values (fun p => (hfields p).2) ?_).trans hlook
        intro p hp
        have hpe : p ≠ e := by
          rintro rfl
          exact hkk (hp.symm.trans hkey)
        rw [Function.update_of_ne hpe]

/-- `*p = e`: the new entry becomes the head of its bucket. -/
theorem InvAt.link (h : InvAt s C) (k : Nat) (v : Int) (e : Nat) (hpc : s.pc x = .link k v e) :
    InvAt (State.goto { s with table := Function.update s.table (k % NBUCKET) e } x
      (.putUnlock k)) (Function.update C (k % NBUCKET) (e :: C (k % NBUCKET))) := by
  have hb : (s.pc x).lockOf = some (k % NBUCKET) := by rw [hpc]; rfl
  have hput := h.puts x k v (by rw [hpc]; rfl)
  have hpend : (s.pc x).pending = some e := by rw [hpc]; rfl
  obtain ⟨h0, -, -, -⟩ := h.fresh x e hpend
  obtain ⟨habs, hent⟩ : (∀ p ∈ C (k % NBUCKET), (s.heap p).key ≠ k) ∧
      s.heap e = ⟨k, v, s.table (k % NBUCKET)⟩ := by
    have hk := h.knows x
    rw [hpc] at hk
    exact hk
  have hhold := h.holds (k % NBUCKET)
  refine h.move x (k % NBUCKET) (.putUnlock k) rfl (h.alone hb) (fun _ _ _ hy => hy) ?_ ?_
    (fun p hp => absurd rfl hp) (fun _ _ => rfl) (fun _ hp => hp) ?_ ?_ trivial
    (fun e he => by cases he) (fun k v hk => by cases hk) (InvAt.putting_bucket hb) ?_
  · intro b' hb'
    cases hb'
    exact h.lock x _ hb
  · intro b' hb'
    exact ⟨Function.update_of_ne hb' _ _, Function.update_of_ne hb' _ _⟩
  · simp only [State.goto, Function.update_self]
    refine ⟨⟨rfl, h0, ?_⟩, ?_, ?_⟩
    · simp only [hent]
      exact hhold.chain
    · rw [List.map_cons, List.nodup_cons]
      refine ⟨?_, hhold.keys⟩
      intro hm
      obtain ⟨p, hp, hpk⟩ := List.mem_map.mp hm
      rw [hent] at hpk
      exact habs p hp hpk
    · intro p hp
      rcases List.mem_cons.mp hp with rfl | hp
      · rw [hent]
      · exact hhold.bucket p hp
  · intro p hp
    rw [Function.update_self] at hp
    rcases List.mem_cons.mp hp with rfl | hp
    · exact Or.inr hpend
    · exact Or.inl hp
  · intro k' hk'
    right
    rw [Function.update_self]
    by_cases hkk : k' = k
    · subst hkk
      rw [look, List.find?_cons]
      simp only [State.goto, hent, decide_true, Option.map_some]
      exact hput.symm
    · rw [look_cons_ne (by simp only [State.goto, hent]; exact fun he => hkk he.symm)]
      rcases h.maps_locked hb k' hk' with ⟨w, hw⟩ | hlook
      · rw [hpc] at hw
        cases hw
        exact absurd rfl hkk
      · exact hlook

/-- malloc gives an address that is in no chain and in no other insert. -/
theorem InvAt.malloc (h : InvAt s C) (k : Nat) (v : Int) (n e : Nat)
    (hpc : s.pc x = .malloc k v n) (h0 : e ≠ 0) (hnew : e ∉ s.used) :
    InvAt (State.goto { s with used := e :: s.used } x (.setKey k v n e)) C := by
  have hb : (s.pc x).lockOf = some (k % NBUCKET) := by rw [hpc]; rfl
  have hq := h.knows x
  rw [hpc] at hq
  refine h.move x (k % NBUCKET) (.setKey k v n e) rfl (h.alone hb) (fun _ _ _ hy => hy) ?_
    (fun _ _ => ⟨rfl, rfl⟩) (fun p hp => absurd rfl hp) (fun _ _ => rfl)
    (fun _ hp => List.mem_cons_of_mem _ hp) (h.holds _) (fun p hp => Or.inl hp) hq ?_ ?_
    (InvAt.putting_bucket hb) ?_
  · intro b' hb'
    cases hb'
    exact h.lock x _ hb
  · intro e' he'
    cases he'
    exact ⟨h0, List.mem_cons_self, fun b' hb' => hnew (h.used b' e hb'), Or.inr hnew⟩
  · intro k' v' hk'
    cases hk'
    exact h.puts x k v (by rw [hpc]; rfl)
  · intro k' hk'
    rcases h.maps_locked hb k' hk' with ⟨w, hw⟩ | hlook
    · rw [hpc] at hw
      exact Or.inl ⟨w, hw⟩
    · exact Or.inr hlook

/-- The scans of put and get. -/
theorem advance_scan (h : InvAt s C) (x : T) (addr : Nat) (ht : advance s x addr = some t)
    (hpc : (∃ k v, s.pc x = .putHead k v) ∨ (∃ k v e, s.pc x = .putScan k v e) ∨
      (∃ k, s.pc x = .getHead k) ∨ ∃ k e, s.pc x = .getScan k e) : InvAt t C := by
  have hk := h.knows x
  unfold advance at ht
  rcases hpc with ⟨k, v, hpc⟩ | ⟨k, v, e, hpc⟩ | ⟨k, hpc⟩ | ⟨k, e, hpc⟩ <;>
    have hb : (s.pc x).lockOf = some (k % NBUCKET) := (by rw [hpc]; rfl) <;>
    rw [hpc] at hk <;> simp only [hpc] at ht
  · cases ht
    exact h.goto hb _ rfl rfl (by rw [hpc]; rfl) (OnScan.start (h.holds _).chain)
  · split_ifs at ht with he hkey
    · subst he
      cases ht
      exact h.goto hb _ rfl rfl (by rw [hpc]; rfl) (OnScan.missing hk)
    · cases ht
      exact h.goto hb _ rfl rfl (by rw [hpc]; rfl) ⟨OnScan.mem hk he, hkey⟩
    · cases ht
      exact h.goto hb _ rfl rfl (by rw [hpc]; rfl) (OnScan.next hk he hkey)
  · cases ht
    exact h.goto hb _ rfl rfl (by rw [hpc]; rfl) (OnScan.start (h.holds _).chain)
  · split_ifs at ht with hend
    · cases ht
      refine h.goto hb _ rfl rfl (by rw [hpc]; rfl) ?_
      by_cases he : e = 0
      · subst he
        exact Or.inl ⟨rfl, OnScan.missing hk⟩
      · exact Or.inr ⟨OnScan.mem hk he, hend.resolve_left he⟩
    · cases ht
      obtain ⟨he, hkey⟩ := not_or.mp hend
      exact h.goto hb _ rfl rfl (by rw [hpc]; rfl) (OnScan.next hk he hkey)

/-- The steps of insert that fill the new entry. -/
theorem advance_fill (h : InvAt s C) (x : T) (addr : Nat) (ht : advance s x addr = some t)
    (hpc : (∃ k v n e, s.pc x = .setKey k v n e) ∨ (∃ k v n e, s.pc x = .setValue k v n e) ∨
      ∃ k v n e, s.pc x = .setNext k v n e) : InvAt t C := by
  have hk := h.knows x
  unfold advance at ht
  rcases hpc with ⟨k, v, n, e, hpc⟩ | ⟨k, v, n, e, hpc⟩ | ⟨k, v, n, e, hpc⟩ <;>
    have hb : (s.pc x).lockOf = some (k % NBUCKET) := (by rw [hpc]; rfl) <;>
    have he : (s.pc x).pending = some e := (by rw [hpc]; rfl) <;>
    rw [hpc] at hk <;> simp only [hpc] at ht <;> cases ht
  all_goals
    have hoff := (h.fresh x e he).2.2.1
    have habs (w : Entry) (p : Nat) (hp : p ∈ C (k % NBUCKET)) :
        (Function.update s.heap e w p).key ≠ k := by
      rw [Function.update_of_ne (fun hpe => hoff _ (hpe ▸ hp))]
      exact hk.1 p hp
  · refine h.fill hb e _ he _ rfl rfl (by rw [hpc]; rfl) ⟨habs _, hk.2, ?_⟩
    rw [Function.update_self]
  · refine h.fill hb e _ he _ rfl rfl (by rw [hpc]; rfl) ⟨habs _, hk.2.1, ?_, ?_⟩
    · rw [Function.update_self]
      exact hk.2.2
    · rw [Function.update_self]
  · refine h.fill hb e _ he _ rfl rfl (by rw [hpc]; rfl) ⟨habs _, ?_⟩
    obtain ⟨-, hn, hkey, hval⟩ := hk
    rw [Function.update_self, hkey, hval, hn]

theorem advance_inv (h : InvAt s C) (x : T) (addr : Nat) (ht : advance s x addr = some t) :
    ∃ C', InvAt t C' := by
  cases hpc : s.pc x with
  | idle => simp only [advance, hpc] at ht; cases ht
  | putHead k v => exact ⟨C, advance_scan h x addr ht (Or.inl ⟨k, v, hpc⟩)⟩
  | putScan k v e => exact ⟨C, advance_scan h x addr ht (Or.inr (Or.inl ⟨k, v, e, hpc⟩))⟩
  | getHead k => exact ⟨C, advance_scan h x addr ht (Or.inr (Or.inr (Or.inl ⟨k, hpc⟩)))⟩
  | getScan k e => exact ⟨C, advance_scan h x addr ht (Or.inr (Or.inr (Or.inr ⟨k, e, hpc⟩)))⟩
  | setKey k v n e => exact ⟨C, advance_fill h x addr ht (Or.inl ⟨k, v, n, e, hpc⟩)⟩
  | setValue k v n e => exact ⟨C, advance_fill h x addr ht (Or.inr (Or.inl ⟨k, v, n, e, hpc⟩))⟩
  | setNext k v n e => exact ⟨C, advance_fill h x addr ht (Or.inr (Or.inr ⟨k, v, n, e, hpc⟩))⟩
  | putLock k v =>
    simp only [advance, hpc] at ht
    obtain ⟨hs, rfl⟩ := acquire_map ht
    refine ⟨C, h.acquire _ _ _ hs (by rw [hpc]; rfl) rfl rfl trivial ?_ ?_⟩
    · intro k'
      rw [lastPut_append]
      by_cases hk : k = k'
      · subst hk
        exact Or.inl ⟨v, rfl⟩
      · rw [if_neg hk]
        exact Or.inr rfl
    · intro k' v' hk
      cases hk
      rw [lastPut_append, if_pos rfl]
  | getLock k =>
    simp only [advance, hpc] at ht
    obtain ⟨hs, rfl⟩ := acquire_map ht
    exact ⟨C, h.acquire _ _ s.log hs (by rw [hpc]; rfl) rfl rfl trivial (fun _ => Or.inr rfl)
      (fun k' v' hk => by cases hk)⟩
  | putUpdate k v e =>
    simp only [advance, hpc] at ht
    cases ht
    exact ⟨C, h.update k v e hpc⟩
  | insert k v =>
    have hk := h.knows x
    rw [hpc] at hk
    simp only [advance, hpc] at ht
    cases ht
    exact ⟨C, h.goto (by rw [hpc]; rfl) _ rfl rfl (by rw [hpc]; rfl) ⟨hk, rfl⟩⟩
  | malloc k v n =>
    simp only [advance, hpc] at ht
    split_ifs at ht with hnew
    cases ht
    exact ⟨C, h.malloc k v n addr hpc hnew.1 hnew.2⟩
  | link k v e =>
    simp only [advance, hpc] at ht
    cases ht
    exact ⟨_, h.link k v e hpc⟩
  | putUnlock k =>
    simp only [advance, hpc] at ht
    cases ht
    exact ⟨C, h.release _ (by rw [hpc]; rfl) (by rw [hpc]; rfl)⟩
  | getUnlock k e =>
    simp only [advance, hpc] at ht
    cases ht
    exact ⟨C, h.release _ (by rw [hpc]; rfl) (by rw [hpc]; rfl)⟩

/-- A thread starts a call. No bucket has the number `NBUCKET`. -/
theorem InvAt.call (h : InvAt s C) (x : T) (q : PC) (hx : s.pc x = .idle)
    (hl : q.lockOf = none) (hp : q.pending = none) (hput : q.putting = none)
    (hq : Knows s.heap s.table C q) : InvAt (s.goto x q) C := by
  have hlt (k : Nat) : k % NBUCKET ≠ NBUCKET := by
    have := Nat.mod_lt k (show 0 < NBUCKET by decide)
    omega
  refine h.move x NBUCKET q rfl ?_ (fun _ _ _ hy => hy) ?_ (fun _ _ => ⟨rfl, rfl⟩)
    (fun p hp => absurd rfl hp) (fun _ _ => rfl) (fun _ hp => hp) (h.holds _)
    (fun p hp => Or.inl hp) hq ?_ ?_ ?_ (fun k hk => absurd hk (hlt k))
  · intro y _ hy
    cases hpc : s.pc y <;> rw [hpc] at hy <;> simp only [PC.lockOf, Option.some.injEq,
      reduceCtorEq] at hy <;> exact hlt _ hy
  · intro b' hb'
    rw [hl] at hb'
    cases hb'
  · intro e he
    rw [hp] at he
    cases he
  · intro k v hk
    rw [hput] at hk
    cases hk
  · intro k v hk
    rw [hx] at hk
    cases hk

theorem step_inv (s : State T) (e : Event T) (t : State T) (h : ∃ C, InvAt s C)
    (ht : step s e = some t) : ∃ C, InvAt t C := by
  obtain ⟨C, h⟩ := h
  cases e with
  | put x k v =>
    simp only [step] at ht
    split_ifs at ht with hx
    cases ht
    exact ⟨C, h.call x _ hx rfl rfl rfl trivial⟩
  | get x k =>
    simp only [step] at ht
    split_ifs at ht with hx
    cases ht
    exact ⟨C, h.call x _ hx rfl rfl rfl trivial⟩
  | advance x addr => exact advance_inv h x addr ht

omit [DecidableEq T] in
theorem init_inv (heap : Nat → Entry) : InvAt (init heap : State T) (fun _ => []) := by
  refine ⟨?_, ?_, ?_, fun x => trivial, ?_, ?_, fun k => Or.inr rfl⟩
  · intro b
    exact ⟨rfl, List.nodup_nil, fun p hp => by cases hp⟩
  · intro b p hp
    cases hp
  · intro x b hb
    cases hb
  · intro x e he
    cases he
  · intro x k v hk
    cases hk

end Steps

end Xv6Labs.Hash
