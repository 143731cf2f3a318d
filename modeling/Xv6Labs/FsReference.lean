import Xv6Labs.FsFiles

/-! Files as independent byte lists. The reference keeps one list for each inode; the
kernel's answers agree with it as long as at most one file uses the doubly-indirect range,
because all files share the tree below block 0. -/
namespace Xv6Labs.Fs

/-- A fresh disk: every inode is empty, block 0 holds zeros and exactly the blocks below
the data area are marked. Cached inodes are copies of allocated disk inodes. -/
structure Empty (s : State) : Prop where
  wf : s.sb.WellFormed
  boot : s.block 0 = zeroBytes
  inodes : ∀ i, (s.dinode i).size = 0 ∧ ∀ k, (s.dinode i).addrs k = 0
  cached : ∀ i, (s.icache i).valid = true →
    (s.icache i).copy = s.dinode i ∧ (s.dinode i).type ≠ 0
  bitmap : ∀ b, b < s.sb.size → (s.bit b = true ↔ b < s.sb.datastart)

section Fresh

variable {s : State}

theorem Empty.node (hs : Empty s) (i : Nat) : s.node i = s.dinode i := by
  unfold State.node
  split
  · rename_i hv
    exact (hs.cached i hv).1
  · rfl

theorem Empty.addr (hs : Empty s) (i k : Nat) : s.addr i k = 0 := by
  rw [State.addr, hs.node]
  exact (hs.inodes i).2 k

theorem Empty.val (hs : Empty s) (sl : Slot) : s.val sl = 0 := by
  cases sl <;> simp [State.val, hs.addr, hs.boot, word_zero]

theorem Empty.inv (hs : Empty s) : Inv s := by
  refine ⟨⟨hs.wf, ?_, fun i k _ => hs.addr i k, ?_, ?_, ?_⟩, ?_, ?_, ?_, ?_, ?_⟩
  · intro b hd hlt
    exact (hs.bitmap b hlt).mpr hd
  · intro sl _ hn
    exact absurd (hs.val sl) hn
  · intro sl sl' _ _ hn
    exact absurd (hs.val sl) hn
  · intro b hd hlt hb
    have := (hs.bitmap b hlt).mp hb
    omega
  · intro i p hp
    rw [hs.node, (hs.inodes i).1] at hp
    omega
  · intro i
    rw [hs.node, (hs.inodes i).1]
    exact Nat.zero_le _
  · intro i hv
    exact (hs.cached i hv).1
  · intro i hv
    rw [(hs.cached i hv).1]
    exact (hs.cached i hv).2
  · intro i _
    exact hs.inodes i

theorem Empty.clearFrom (hs : Empty s) : ClearFrom s s.sb.datastart := by
  intro b hb hlt
  by_contra hn
  have := (hs.bitmap b hlt).mp (by simpa using hn)
  omega

end Fresh

/-- The calls on one inode. -/
inductive FileOp where
  | writei (i : Nat) (src : Nat → Option UInt8) (off n : UInt32)
  | readi (i : Nat) (ok : Nat → Nat → Bool) (off n : UInt32)
  | itrunc (i : Nat)

inductive Answer where
  | wrote (r : Option Nat)
  | data (r : Option (List UInt8))
  | done
  deriving DecidableEq

def FileOp.inum : FileOp → Nat
  | .writei i _ _ _ | .readi i _ _ _ | .itrunc i => i

/-- A call the way system calls make it, with the inode locked first. -/
def FileOp.exec (s : State) : FileOp → Except Panic (Answer × State)
  | .writei i src off n => do
    let s ← ilock s i
    let (r, s) ← Fs.writei s i src off n
    .ok (.wrote r, s)
  | .readi i ok off n => do
    let s ← ilock s i
    let (r, s) ← Fs.readi s i ok off n
    .ok (.data r, s)
  | .itrunc i => do
    let s ← ilock s i
    let s ← Fs.itrunc s i
    .ok (.done, s)

/-- The answers of a list of calls. -/
def runFiles : State → List FileOp → Except Panic (List Answer × State)
  | s, [] => .ok ([], s)
  | s, op :: ops => do
    let (a, s) ← op.exec s
    let (as, s) ← runFiles s ops
    .ok (a :: as, s)

/-- All bytes of the call can be copied from and to user space. -/
def FileOp.CopiesOk : FileOp → Prop
  | .writei _ src _ n => ∀ k, k < n.toNat → (src k).isSome
  | .readi _ ok _ _ => ∀ tot m, ok tot m = true
  | .itrunc _ => True

/-- The reference: a list of bytes for each inode. -/
abbrev Files := Nat → List UInt8

def FileOp.refStep (f : Files) : FileOp → Answer × Files
  | .writei i src off n =>
    if Accepts (f i).length off.toNat n.toNat then
      (.wrote (some n.toNat), Function.update f i
        ((f i).take off.toNat ++ (List.range n.toNat).map (fun k => (src k).getD 0) ++
          (f i).drop (off.toNat + n.toNat)))
    else (.wrote none, f)
  | .readi i _ off n =>
    (.data (some (((f i).drop off.toNat).take (readLen (f i).length off.toNat n.toNat))), f)
  | .itrunc i => (.done, Function.update f i [])

def refRun : Files → List FileOp → List Answer
  | _, [] => []
  | f, op :: ops => (op.refStep f).1 :: refRun (op.refStep f).2 ops

/-- A write that reaches the doubly-indirect range finds no other file there. -/
def Apart (f : Files) : FileOp → Prop
  | .writei i _ off n => Accepts (f i).length off.toNat n.toNat → 0 < n.toNat →
    singleLimit < off.toNat + n.toNat → ∀ j, j ≠ i → (f j).length ≤ singleLimit
  | _ => True

def State.contents (s : State) (i : Nat) : List UInt8 :=
  (List.range (s.node i).size).map (s.byteAt i)

theorem contents_length (s : State) (i : Nat) : (s.contents i).length = (s.node i).size := by
  simp [State.contents]

/-- Lists of bytes of a file agree when the sizes and the bytes do. -/
theorem contents_congr (s t : State) (i : Nat) (hn : (t.node i).size = (s.node i).size)
    (hb : ∀ p, p < (s.node i).size → t.byteAt i p = s.byteAt i p) :
    t.contents i = s.contents i := by
  unfold State.contents
  rw [hn]
  apply List.map_congr_left
  intro p hp
  exact hb p (List.mem_range.mp hp)

/-- The inodes in use are referenced and valid. -/
def Open (s : State) (i : Nat) : Prop :=
  0 < (s.icache i).ref ∧ (s.icache i).valid = true

theorem ilock_open (s : State) (i : Nat) (h : Open s i) : ilock s i = .ok s := by
  unfold ilock
  rw [if_neg (by have := h.1; omega), if_pos h.2]

/-- The kernel's files are those of the reference. -/
structure Sim (used : Nat → Prop) (s : State) (f : Files) : Prop where
  inv : Inv s
  opened : ∀ i, used i → Open s i
  files : ∀ i, s.contents i = f i

section Simulation

variable {used : Nat → Prop} {s : State} {f : Files}

theorem Sim.length (h : Sim used s f) (i : Nat) : (f i).length = (s.node i).size := by
  rw [← h.files i, contents_length]

/-- The list after an accepted write. -/
theorem Written.contents {t : State} {i off n : Nat} {src : Nat → Option UInt8}
    (h : Written s t i src off n n) (hoff : off ≤ (s.node i).size) :
    t.contents i = (s.contents i).take off ++ (List.range n).map (fun k => (src k).getD 0) ++
      (s.contents i).drop (off + n) := by
  have hsize := h.size i
  rw [if_pos rfl] at hsize
  have hlen := contents_length s i
  apply List.ext_getElem
  · simp only [contents_length, hsize, List.length_append, List.length_take, List.length_drop,
      List.length_map, List.length_range]
    omega
  · intro p h1 h2
    rw [contents_length, hsize] at h1
    have hget : (t.contents i)[p] = t.byteAt i p := by simp [State.contents]
    rw [hget]
    by_cases hp1 : p < off
    · rw [List.getElem_append_left (by
          simp only [List.length_append, List.length_take, List.length_map, List.length_range]
          omega),
        List.getElem_append_left (by rw [List.length_take]; omega), List.getElem_take]
      simp only [State.contents, List.getElem_map, List.getElem_range]
      exact h.kept i p (by omega) (by omega)
    by_cases hp2 : p < off + n
    · rw [List.getElem_append_left (by
          simp only [List.length_append, List.length_take, List.length_map, List.length_range]
          omega),
        List.getElem_append_right (by rw [List.length_take]; omega)]
      simp only [List.length_take, List.getElem_map, List.getElem_range]
      rw [show p - min off (s.contents i).length = p - off by omega,
        h.written p (by omega) hp2, Option.getD_some]
    · rw [List.getElem_append_right (by
          simp only [List.length_append, List.length_take, List.length_map, List.length_range]
          omega)]
      simp only [List.length_append, List.length_take, List.length_map, List.length_range,
        List.getElem_drop, State.contents, List.getElem_map, List.getElem_range]
      rw [show off + n + (p - (min off (s.node i).size + n)) = p by omega]
      exact h.kept i p (by omega) (by omega)

/-- One call: the same answer as the reference, or no block left. -/
theorem FileOp.exec_refines (h : Sim used s f) (op : FileOp) (hu : used op.inum)
    (hok : op.CopiesOk) (ha : Apart f op) :
    (∀ a t, op.exec s = .ok (a, t) → a = (op.refStep f).1 ∧ Sim used t (op.refStep f).2) ∧
    (∀ p, op.exec s = .error p → p = .ballocOutOfBlocks) := by
  cases op with
  | writei i src off n =>
    have hopen := h.opened i hu
    simp only [FileOp.exec, ilock_open s i hopen, ok_bind, FileOp.refStep, h.length]
    by_cases hacc : Accepts (s.node i).size off.toNat n.toNat
    · obtain ⟨hw, herr⟩ := writei_written src h.inv hopen.2 hacc
      rw [if_pos hacc]
      refine ⟨?_, ?_⟩
      · intro a t hres
        obtain ⟨⟨r, u⟩, hwr, hres⟩ := (bind_ok_iff _ _ _).mp hres
        simp only [Except.ok.injEq, Prod.mk.injEq] at hres
        obtain ⟨rfl, rfl⟩ := hres
        obtain ⟨tot, rfl, hw⟩ := hw r u hwr
        obtain rfl : tot = n.toNat := hw.total hok
        refine ⟨rfl, hw.inv, ?_, ?_⟩
        · intro j hj
          obtain ⟨h1, h2⟩ := h.opened j hj
          rw [Open, (hw.cache j).1, (hw.cache j).2]
          exact ⟨h1, h2⟩
        · intro j
          simp only
          by_cases hj : j = i
          · subst hj
            rw [Function.update_self, hw.contents hacc.1, h.files]
          · rw [Function.update_of_ne hj, ← h.files j]
            have hsz := hw.size j
            rw [if_neg hj] at hsz
            apply contents_congr s u j hsz
            intro p hp
            apply hw.kept j p hp
            -- a shared slot would be one of the doubly-indirect range
            rintro ⟨hsl, hp1, hp2⟩
            obtain ⟨-, hji | hhigh⟩ := leaf_inj j i _ _ hsl
            · exact hj hji
            · have hlim : singleLimit ≤ p := (Nat.le_div_iff_mul_le (by decide)).mp hhigh
              have := ha (by rw [h.length]; exact hacc) (by omega) (by omega) j hj
              rw [h.length] at this
              omega
      · intro p hp
        rcases (bind_error_iff _ _ _).mp hp with hp | ⟨a, -, hp⟩
        · exact herr p hp
        · cases hp
    · rw [if_neg hacc, writei_rejected src hacc]
      refine ⟨?_, fun p hp => by cases hp⟩
      intro a t hres
      cases hres
      exact ⟨rfl, h⟩
  | readi i ok off n =>
    have hall : ok = fun _ _ => true := by
      funext tot m
      exact hok tot m
    have hopen := h.opened i hu
    simp only [FileOp.exec, ilock_open s i hopen, ok_bind, FileOp.refStep, hall,
      readi_bytes off n h.inv hopen.2]
    refine ⟨?_, fun p hp => by cases hp⟩
    intro a t hres
    simp only [Except.ok.injEq, Prod.mk.injEq] at hres
    obtain ⟨rfl, rfl⟩ := hres
    refine ⟨?_, h⟩
    rw [h.length, ← h.files i]
    congr 2
    by_cases hz : readLen (s.node i).size off.toNat n.toNat = 0
    · rw [hz]
      rfl
    · have hle := readLen_le _ _ _ hz
      apply List.ext_getElem
      · simp only [List.length_map, List.length_range, List.length_take, List.length_drop,
          contents_length]
        omega
      · intro p h1 h2
        simp [State.contents]
  | itrunc i =>
    have hopen := h.opened i hu
    obtain ⟨t, ht, htr⟩ := itrunc_truncated s i h.inv.tree hopen.2
    simp only [FileOp.exec, ilock_open s i hopen, ok_bind, FileOp.refStep, ht]
    refine ⟨?_, fun p hp => by cases hp⟩
    intro a u hres
    simp only [Except.ok.injEq, Prod.mk.injEq] at hres
    obtain ⟨rfl, rfl⟩ := hres
    refine ⟨rfl, htr.inv h.inv hopen.2, ?_, ?_⟩
    · intro j hj
      obtain ⟨h1, h2⟩ := h.opened j hj
      rw [Open, htr.icache]
      by_cases hji : j = i
      · subst hji
        simp [h1, h2]
      · simp [hji, h1, h2]
    · intro j
      have hsz := htr.size hopen.2 j
      by_cases hj : j = i
      · subst hj
        rw [if_pos rfl] at hsz
        rw [Function.update_self, State.contents, hsz]
        rfl
      · rw [if_neg hj] at hsz
        rw [Function.update_of_ne hj, ← h.files j]
        apply contents_congr s t j hsz
        intro p hp
        have := h.inv.small j
        exact (htr.byteAt h.inv.tree hopen.2 j p (by omega) hj (h.inv.mapped j p hp)).2

end Simulation

/-- In every run in which no write reaches the doubly-indirect range of one file while
another file is there, each call answers what the reference answers, and the only panic
is that of balloc. -/
theorem runFiles_matches_reference (s : State) (hs : Empty s) (used : Nat → Prop)
    (hused : ∀ i, used i → Open s i) (ops : List FileOp)
    (hops : ∀ op ∈ ops, used op.inum ∧ op.CopiesOk)
    (hg : Guarded (fun f op => some (FileOp.refStep f op).2) Apart (fun _ => []) ops) :
    (∀ as t, runFiles s ops = .ok (as, t) → as = refRun (fun _ => []) ops) ∧
    (∀ p, runFiles s ops = .error p → p = .ballocOutOfBlocks) := by
  have hsim : Sim used s (fun _ => []) := by
    refine ⟨hs.inv, hused, ?_⟩
    intro i
    rw [State.contents, hs.node, (hs.inodes i).1]
    rfl
  generalize (fun _ => [] : Files) = f at *
  clear hs hused
  induction ops generalizing s f with
  | nil =>
    refine ⟨?_, fun p hp => by cases hp⟩
    intro as t hres
    cases hres
    rfl
  | cons op ops ih =>
    obtain ⟨hu, hcopy⟩ := hops op (by simp)
    obtain ⟨hok, herr⟩ := FileOp.exec_refines hsim op hu hcopy hg.1
    refine ⟨?_, ?_⟩
    · intro as t hres
      obtain ⟨⟨a, u⟩, h1, hres⟩ := (bind_ok_iff _ _ _).mp hres
      obtain ⟨⟨as', v⟩, h2, hres⟩ := (bind_ok_iff _ _ _).mp hres
      simp only [Except.ok.injEq, Prod.mk.injEq] at hres
      obtain ⟨rfl, rfl⟩ := hres
      obtain ⟨ha, hu⟩ := hok a u h1
      have := (ih u (fun op hop => hops op (by simp [hop])) _ (hg.2 _ rfl) hu).1 as' v h2
      rw [refRun, ha, this]
    · intro p hp
      rcases (bind_error_iff _ _ _).mp hp with hp | ⟨⟨a, u⟩, h1, hp⟩
      · exact herr p hp
      · obtain ⟨-, hu⟩ := hok a u h1
        rcases (bind_error_iff _ _ _).mp hp with hp | ⟨b, -, hp⟩
        · exact (ih u (fun op hop => hops op (by simp [hop])) _ (hg.2 _ rfl) hu).2 p hp
        · cases hp

/-- A disk as mkfs leaves it: 200000 blocks, 200 inodes, the bitmap from block 45 on,
the data from block 70 on; inodes 1 and 2 are allocated and in the cache. -/
def freshDisk : State where
  sb := ⟨200000, 200, 32, 45⟩
  block := fun b => if b = 45 then fun k => if k < 8 then 255 else if k = 8 then 63 else 0
    else zeroBytes
  dinode := fun i => if i = 1 ∨ i = 2 then emptyDinode 2 else emptyDinode 0
  icache := fun i => if i = 1 ∨ i = 2 then ⟨1, true, emptyDinode 2⟩
    else ⟨0, false, emptyDinode 0⟩
  logged := []

theorem freshDisk_bit (b : Nat) : freshDisk.bit b = true ↔ b < 70 := by
  have hmod : b%8 < 8 := Nat.mod_lt _ (by decide)
  simp only [State.bit, freshDisk, BBLOCK, BPB_eq, getBit]
  by_cases h0 : b/8192 = 0
  · have hb : b%8192 = b := by omega
    rw [h0, hb, if_pos rfl]
    split_ifs with h1 h2
    · rw [show (255 : UInt8).toNat = 2^8-1 from rfl, Nat.testBit_two_pow_sub_one]
      simp only [decide_eq_true_eq]
      omega
    · rw [show (63 : UInt8).toNat = 2^6-1 from rfl, Nat.testBit_two_pow_sub_one]
      simp only [decide_eq_true_eq]
      omega
    · simp only [UInt8.toNat_zero, Nat.zero_testBit]
      constructor
      · intro h
        cases h
      · intro h
        omega
  · rw [if_neg (by omega)]
    simp only [zeroBytes, UInt8.toNat_zero, Nat.zero_testBit]
    constructor
    · intro h
      cases h
    · intro h
      omega

theorem freshDisk_empty : Empty freshDisk := by
  refine ⟨⟨by decide, by decide⟩, rfl, ?_, ?_, fun b _ => freshDisk_bit b⟩
  · intro i
    simp only [freshDisk]
    split_ifs <;> exact ⟨rfl, fun _ => rfl⟩
  · intro i
    simp only [freshDisk]
    split_ifs with h
    · intro _
      exact ⟨rfl, by decide⟩
    · intro hv
      cases hv

theorem freshDisk_open (i : Nat) (h : i = 1 ∨ i = 2) : Open freshDisk i := by
  simp [Open, freshDisk, h]

/-- One file in the doubly-indirect range, another one below it. -/
def soloOps : List FileOp :=
  [.writei 1 (fun _ => some 1) 0 273409, .writei 2 (fun _ => some 2) 0 1024,
    .readi 1 (fun _ _ => true) 273408 1, .itrunc 1]

theorem runFiles_soloOps :
    (∀ as t, runFiles freshDisk soloOps = .ok (as, t) → as = refRun (fun _ => []) soloOps) ∧
    (∀ p, runFiles freshDisk soloOps = .error p → p = .ballocOutOfBlocks) := by
  refine runFiles_matches_reference freshDisk freshDisk_empty (fun i => i = 1 ∨ i = 2)
    freshDisk_open soloOps ?_ ?_
  · intro op hop
    simp only [soloOps, List.mem_cons, List.not_mem_nil, or_false] at hop
    rcases hop with rfl | rfl | rfl | rfl
    · exact ⟨Or.inl rfl, fun _ _ => rfl⟩
    · exact ⟨Or.inr rfl, fun _ _ => rfl⟩
    · exact ⟨Or.inl rfl, fun _ _ => rfl⟩
    · exact ⟨Or.inl rfl, trivial⟩
  · refine ⟨fun _ _ _ j _ => Nat.zero_le _, fun f hf => ⟨?_, fun g hg => ⟨trivial, ?_⟩⟩⟩
    · intro _ _ hlt
      exact absurd hlt (by decide)
    · intro h hh
      exact ⟨trivial, fun _ _ => trivial⟩

/-- A write of `n` bytes from the start of an open file, with room for it. -/
theorem exec_writei_room {s : State} {i : Nat} (hs : Inv s) (ho : Open s i) (v : UInt8)
    (n : UInt32) (hn : n.toNat ≤ MAXFILE*BSIZE) (N : Nat) (hN : ClearFrom s N)
    (hroom : N + 2*rounds 0 n.toNat ≤ s.sb.size) :
    ∃ t, (FileOp.writei i (fun _ => some v) 0 n).exec s = .ok (.wrote (some n.toNat), t) ∧
      Written s t i (fun _ => some v) 0 n.toNat n.toNat ∧
      ClearFrom t (N + 2*rounds 0 n.toNat) := by
  have hacc : Accepts (s.node i).size (0 : UInt32).toNat n.toNat := by
    refine ⟨Nat.zero_le _, ?_⟩
    simpa using hn
  obtain ⟨r, t, hw, hc⟩ := writei_room (fun _ => some v) hs ho.2 hacc N hN hroom
  obtain ⟨tot, rfl, hwr⟩ := (writei_written _ hs ho.2 hacc).1 r t hw
  obtain rfl : tot = n.toNat := hwr.total (fun _ _ => rfl)
  refine ⟨t, ?_, hwr, hc⟩
  simp only [FileOp.exec, ilock_open s i ho, ok_bind, hw]

/-- Two files that both reach the doubly-indirect range, then a read of the first. -/
def crossOps : List FileOp :=
  [.writei 1 (fun _ => some 1) 0 273409, .writei 2 (fun _ => some 2) 0 273409,
    .readi 1 (fun _ _ => true) 273408 1]

theorem refRun_crossOps : refRun (fun _ => []) crossOps =
    [.wrote (some 273409), .wrote (some 273409), .data (some [1])] := by
  have h1 : (273409 : UInt32).toNat = 273409 := rfl
  have h2 : (273408 : UInt32).toNat = 273408 := rfl
  have hacc : Accepts 0 0 273409 := by decide
  have hread : readLen 273409 273408 1 = 1 := by decide
  simp only [crossOps, refRun, FileOp.refStep, h1, h2, UInt32.toNat_zero, UInt32.toNat_one,
    List.length_nil, hacc, if_true, Function.update_self, List.take_nil, List.nil_append,
    Option.getD_some, List.map_const', List.length_range, List.drop_nil, List.append_nil,
    Function.update_of_ne (show (2 : Nat) ≠ 1 by decide),
    Function.update_of_ne (show (1 : Nat) ≠ 2 by decide), List.length_replicate, hread,
    List.drop_replicate, List.take_replicate]
  rfl

/-- The second file's byte has replaced the first file's. -/
theorem runFiles_crossOps : Empty freshDisk ∧
    (∀ op ∈ crossOps, Open freshDisk op.inum ∧ op.CopiesOk) ∧
    ∃ t, runFiles freshDisk crossOps =
      .ok ([.wrote (some 273409), .wrote (some 273409), .data (some [2])], t) ∧
    [.wrote (some 273409), .wrote (some 273409), .data (some [2])] ≠
      refRun (fun _ => []) crossOps := by
  refine ⟨freshDisk_empty, ?_, ?_⟩
  · intro op hop
    simp only [crossOps, List.mem_cons, List.not_mem_nil, or_false] at hop
    rcases hop with rfl | rfl | rfl
    · exact ⟨freshDisk_open 1 (Or.inl rfl), fun _ _ => rfl⟩
    · exact ⟨freshDisk_open 2 (Or.inr rfl), fun _ _ => rfl⟩
    · exact ⟨freshDisk_open 1 (Or.inl rfl), fun _ _ => rfl⟩
  have hlen : (273409 : UInt32).toNat = 273409 := rfl
  have hrounds : rounds 0 273409 = 268 := by decide
  obtain ⟨t, ht, hwt, hct⟩ := exec_writei_room (i := 1) freshDisk_empty.inv
    (freshDisk_open 1 (Or.inl rfl)) 1 273409 (by decide) 70 freshDisk_empty.clearFrom
    (by rw [hlen, hrounds]; decide)
  rw [hlen] at ht hwt hct
  have hopen (i : Nat) (h : i = 1 ∨ i = 2) : Open t i := by
    rw [Open, (hwt.cache i).1, (hwt.cache i).2]
    exact freshDisk_open i h
  obtain ⟨u, hu, hwu, -⟩ := exec_writei_room (i := 2) hwt.inv (hopen 2 (Or.inr rfl)) 2 273409
    (by decide) _ hct (by rw [hlen, hrounds, hwt.sb]; decide)
  rw [hlen] at hu hwu
  have hv : (u.icache 1).valid = true := by
    rw [(hwu.cache 1).1]
    exact (hopen 1 (Or.inl rfl)).2
  have hopen1 : Open u 1 := by
    rw [Open, (hwu.cache 1).1, (hwu.cache 1).2]
    exact hopen 1 (Or.inl rfl)
  have hsize : (u.node 1).size = 273409 := by
    rw [hwu.size, if_neg (by decide), hwt.size, if_pos rfl]
    rfl
  -- the slot of logical block 267 is the same for both files
  have hbyte : u.byteAt 1 273408 = 2 := by
    have hsl : leaf 1 (273408/BSIZE) = leaf 2 (273408/BSIZE) := by decide
    have h2 := hwu.written 273408 (by omega) (by omega)
    rw [State.byteAt, hsl]
    exact (Option.some.inj h2).symm
  have hread := readi_bytes 273408 1 hwu.inv hv
  have hrl : readLen 273409 (273408 : UInt32).toNat (1 : UInt32).toNat = 1 := by decide
  rw [hsize, hrl] at hread
  refine ⟨u, ?_, by rw [refRun_crossOps]; decide⟩
  simp only [crossOps, runFiles, ht, hu, ok_bind]
  simp only [FileOp.exec, ilock_open u 1 hopen1, ok_bind, hread]
  have h0 : (273408 : UInt32).toNat + 0 = 273408 := rfl
  simp only [List.range_one, List.map_cons, List.map_nil, h0, hbyte]

end Xv6Labs.Fs
