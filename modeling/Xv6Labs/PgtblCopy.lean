import Xv6Labs.PgtblRefine

/-! copyout, copyin and copyinstr of pgtbl/vm.c: a page at a time, and byte by byte. The bytes of
user pages, by physical address, are apart from the words of the page tables and from the
kernel's own buffers. -/
namespace Xv6Labs.Pgtbl

section Code

/-- Bytes by address. -/
abbrev Bytes := Nat → UInt8

def memmove (mem : Bytes) (dst : Nat) (src : Bytes) (n : Nat) : Bytes := fun a =>
  if dst ≤ a ∧ a < dst + n then src (a - dst) else mem a

/-- The loop of copyout; a round copies at least one byte, so `len` rounds are enough. -/
def copyoutLoop (s : State) (pagetable : Nat) (kern : Bytes) :
    Nat → Bytes → Nat → Nat → Nat → Bytes × Int
  | 0, mem, _, _, _ => (mem, 0)
  | rounds+1, mem, dstva, src, len =>
    if len = 0 then (mem, 0)
    else
      let va0 := PGROUNDDOWN dstva
      let pa0 := walkaddr s pagetable va0
      if pa0 = 0 then (mem, -1)
      else
        let n := min (PGSIZE - (dstva - va0)) len
        let mem := memmove mem (pa0 + (dstva - va0)) (fun i => kern (src + i)) n
        copyoutLoop s pagetable kern rounds mem ((va0 + PGSIZE) % 2^64) (src + n) (len - n)

/-- copyout from the kernel address `src`; the user memory and the answer. -/
def copyout (s : State) (pagetable : Nat) (kern mem : Bytes) (dstva src len : Nat) :
    Bytes × Int :=
  copyoutLoop s pagetable kern len mem dstva src len

def copyinLoop (s : State) (pagetable : Nat) (mem : Bytes) :
    Nat → Bytes → Nat → Nat → Nat → Bytes × Int
  | 0, kern, _, _, _ => (kern, 0)
  | rounds+1, kern, dst, srcva, len =>
    if len = 0 then (kern, 0)
    else
      let va0 := PGROUNDDOWN srcva
      let pa0 := walkaddr s pagetable va0
      if pa0 = 0 then (kern, -1)
      else
        let n := min (PGSIZE - (srcva - va0)) len
        let kern := memmove kern dst (fun i => mem (pa0 + (srcva - va0) + i)) n
        copyinLoop s pagetable mem rounds kern (dst + n) ((va0 + PGSIZE) % 2^64) (len - n)

/-- copyin to the kernel address `dst`; the kernel's memory and the answer. -/
def copyin (s : State) (pagetable : Nat) (mem kern : Bytes) (dst srcva len : Nat) : Bytes × Int :=
  copyinLoop s pagetable mem len kern dst srcva len

/-- The inner loop of copyinstr, over `n` bytes from `p` on; the answer is `got_null`. -/
def copyStr (mem : Bytes) : Nat → Bytes → Nat → Nat → Bytes × Bool
  | 0, kern, _, _ => (kern, false)
  | n+1, kern, p, dst =>
    if mem p = 0 then (Function.update kern dst 0, true)
    else copyStr mem n (Function.update kern dst (mem p)) (p + 1) (dst + 1)

def copyinstrLoop (s : State) (pagetable : Nat) (mem : Bytes) :
    Nat → Bytes → Nat → Nat → Nat → Bytes × Int
  | 0, kern, _, _, _ => (kern, -1)
  | rounds+1, kern, dst, srcva, max =>
    if max = 0 then (kern, -1)
    else
      let va0 := PGROUNDDOWN srcva
      let pa0 := walkaddr s pagetable va0
      if pa0 = 0 then (kern, -1)
      else
        let n := min (PGSIZE - (srcva - va0)) max
        let q := copyStr mem n kern (pa0 + (srcva - va0)) dst
        if q.2 then (q.1, 0)
        else copyinstrLoop s pagetable mem rounds q.1 (dst + n) ((va0 + PGSIZE) % 2^64) (max - n)

def copyinstr (s : State) (pagetable : Nat) (mem kern : Bytes) (dst srcva max : Nat) :
    Bytes × Int :=
  copyinstrLoop s pagetable mem max kern dst srcva max

end Code

section Translation

variable {s : State} {root : Nat}

/-- The address is below MAXVA, on a page with a valid PTE_U leaf; walkaddr takes a page at
physical address 0, where there is no memory, for no page. -/
def UserPage (s : State) (root va : Nat) : Prop :=
  va < MAXVA ∧ leaf s root va &&& PTE_V ≠ 0 ∧ leaf s root va &&& PTE_U ≠ 0 ∧
    PTE2PA (leaf s root va) ≠ 0

/-- Where the byte at a user address is. -/
def byteAddr (s : State) (root va : Nat) : Nat := PTE2PA (leaf s root va) + va % PGSIZE

theorem roundDown_page (va : Nat) : PGROUNDDOWN va / PGSIZE = va / PGSIZE :=
  Nat.mul_div_cancel _ (by decide)

theorem leaf_page {a b : Nat} (h : a / PGSIZE = b / PGSIZE) : leaf s root a = leaf s root b := by
  apply leaf_px
  · simp only [path, pathFrom, px_of_page h]
  · exact px_of_page h 0

theorem below_page {a b : Nat} (h : a / PGSIZE = b / PGSIZE) : a < MAXVA ↔ b < MAXVA := by
  unfold PGSIZE at h
  unfold MAXVA
  omega

theorem userPage_page {a b : Nat} (h : a / PGSIZE = b / PGSIZE) :
    UserPage s root a ↔ UserPage s root b := by
  unfold UserPage
  rw [leaf_page h, below_page h]

theorem walkaddr_leaf (va : Nat) : walkaddr s root va =
    if va < MAXVA ∧ leaf s root va &&& PTE_V ≠ 0 ∧ leaf s root va &&& PTE_U ≠ 0 then
      PTE2PA (leaf s root va) else 0 := by
  have hfind : walkLoop va false 2 s root = (s, node s root va) := walkLoop_find s va 2 root
  unfold walkaddr
  rw [hfind]
  by_cases hva : MAXVA ≤ va
  · rw [if_pos hva, if_neg (fun h => absurd h.1 (Nat.not_lt.mpr hva))]
  · rw [if_neg hva]
    unfold leaf
    cases node s root va with
    | none => exact (if_neg (fun h => h.2.1 (Nat.zero_and PTE_V))).symm
    | some t =>
      simp only
      split_ifs <;> first | rfl | (exfalso; omega)

theorem walkaddr_zero (va : Nat) :
    walkaddr s root (PGROUNDDOWN va) = 0 ↔ ¬UserPage s root va := by
  rw [walkaddr_leaf, leaf_page (roundDown_page va)]
  simp only [below_page (roundDown_page va)]
  unfold UserPage
  split_ifs with h
  · constructor
    · exact fun h0 hu => hu.2.2.2 h0
    · intro hu
      by_contra h0
      exact hu ⟨h.1, h.2.1, h.2.2, h0⟩
  · exact ⟨fun _ hu => h ⟨hu.1, hu.2.1, hu.2.2.1⟩, fun _ => rfl⟩

theorem walkaddr_byte {va : Nat} (h : UserPage s root va) :
    walkaddr s root (PGROUNDDOWN va) + (va - PGROUNDDOWN va) = byteAddr s root va := by
  have hoff : va - PGROUNDDOWN va = va % PGSIZE := by
    unfold PGROUNDDOWN PGSIZE
    omega
  rw [walkaddr_leaf, leaf_page (roundDown_page va)]
  simp only [below_page (roundDown_page va)]
  rw [if_pos ⟨h.1, h.2.1, h.2.2.1⟩, hoff, byteAddr]

/-- The bytes of a round: from `va` to the end of its page at most. -/
theorem round_page {va n i : Nat} (hn : n ≤ PGSIZE - (va - PGROUNDDOWN va)) (hi : i < n) :
    (va + i) / PGSIZE = va / PGSIZE := by
  unfold PGROUNDDOWN PGSIZE at *
  omega

theorem byteAddr_round {va n i : Nat} (hn : n ≤ PGSIZE - (va - PGROUNDDOWN va)) (hi : i < n) :
    byteAddr s root (va + i) = byteAddr s root va + i := by
  have hpage := round_page hn hi
  have hoff : (va + i) % PGSIZE = va % PGSIZE + i := by
    unfold PGROUNDDOWN PGSIZE at *
    omega
  rw [byteAddr, byteAddr, leaf_page hpage, hoff, Nat.add_assoc]

/-- A round of a copy, over `n` bytes. -/
structure Round (s : State) (root va len n : Nat) : Prop where
  pos : 0 < n
  le : n ≤ len
  page : n ≤ PGSIZE - (va - PGROUNDDOWN va)
  user : ∀ i, i < n → UserPage s root (va + i)
  /-- the address of the next round does not wrap, or there is none -/
  next : (PGROUNDDOWN va + PGSIZE) % 2^64 = va + n ∨ n = len

theorem UserPage.round {va len : Nat} (h : UserPage s root va) (hlen : len ≠ 0) :
    Round s root va len (min (PGSIZE - (va - PGROUNDDOWN va)) len) := by
  have hpage : min (PGSIZE - (va - PGROUNDDOWN va)) len ≤ PGSIZE - (va - PGROUNDDOWN va) :=
    Nat.min_le_left _ _
  refine ⟨?_, Nat.min_le_right _ _, hpage, ?_, ?_⟩
  · unfold PGROUNDDOWN PGSIZE
    omega
  · intro i hi
    exact (userPage_page (round_page hpage hi)).mpr h
  · have hva := h.1
    unfold PGROUNDDOWN MAXVA PGSIZE at *
    omega

end Translation

section Copies

variable {s : State} {root : Nat} {mem kern : Bytes}

/-- The first `k` of `len` bytes are copied: all of them, or those before the first one that is
not on a user page. -/
structure Stops (ok : Nat → Prop) (len k : Nat) (r : Int) : Prop where
  pages : ∀ i, i < k → ok i
  done : r = 0 ∧ k = len ∨ r = -1 ∧ k < len ∧ ¬ok k

theorem Stops.zero_iff {ok : Nat → Prop} {len k : Nat} {r : Int} (h : Stops ok len k r) :
    r = 0 ↔ ∀ i, i < len → ok i := by
  rcases h.done with ⟨hr, hk⟩ | ⟨hr, hk, hnot⟩
  · subst hk
    exact ⟨fun _ => h.pages, fun _ => hr⟩
  · rw [hr]
    exact ⟨fun h => absurd h (by decide), fun h => absurd (h k hk) hnot⟩

theorem Stops.nil (ok : Nat → Prop) : Stops ok 0 0 0 :=
  ⟨fun _ hi => absurd hi (Nat.not_lt_zero _), Or.inl ⟨rfl, rfl⟩⟩

theorem Stops.none {ok : Nat → Prop} {len : Nat} (hlen : 0 < len) (h : ¬ok 0) :
    Stops ok len 0 (-1) :=
  ⟨fun _ hi => absurd hi (Nat.not_lt_zero _), Or.inr ⟨rfl, hlen, h⟩⟩

/-- A round over `n` bytes, and the rounds after it. -/
theorem Stops.round {ok : Nat → Prop} {len n k : Nat} {r : Int} (hn : n ≤ len)
    (hok : ∀ i, i < n → ok i) (h : Stops (fun i => ok (n + i)) (len - n) k r) :
    Stops ok len (n + k) r := by
  refine ⟨?_, ?_⟩
  · intro i hi
    by_cases hin : i < n
    · exact hok i hin
    · have := h.pages (i - n) (by omega)
      rwa [Nat.add_sub_cancel' (Nat.le_of_not_lt hin)] at this
  · rcases h.done with ⟨hr, hk⟩ | ⟨hr, hk, hnot⟩
    · exact Or.inl ⟨hr, by omega⟩
    · exact Or.inr ⟨hr, by omega, hnot⟩

theorem memmove_zero (mem : Bytes) (dst : Nat) (src : Bytes) : memmove mem dst src 0 = mem := by
  funext a
  unfold memmove
  rw [if_neg (by omega)]

theorem memmove_succ (mem : Bytes) (dst : Nat) (src : Bytes) (n : Nat) :
    memmove mem dst src (n + 1) = Function.update (memmove mem dst src n) (dst + n) (src n) := by
  funext a
  by_cases ha : a = dst + n
  · subst ha
    rw [Function.update_self]
    unfold memmove
    rw [if_pos (by omega), Nat.add_sub_cancel_left]
  · rw [Function.update_of_ne ha]
    unfold memmove
    by_cases hin : dst ≤ a ∧ a < dst + n
    · rw [if_pos hin, if_pos (by omega)]
    · rw [if_neg hin, if_neg (by omega)]

theorem memmove_add (mem : Bytes) (dst : Nat) (src : Bytes) (n k : Nat) :
    memmove (memmove mem dst src n) (dst + n) (fun i => src (n + i)) k =
      memmove mem dst src (n + k) := by
  funext a
  unfold memmove
  by_cases hlo : dst + n ≤ a ∧ a < dst + n + k
  · have hidx : n + (a - (dst + n)) = a - dst := by omega
    rw [if_pos hlo, if_pos (by omega)]
    change src (n + (a - (dst + n))) = _
    rw [hidx]
  · rw [if_neg hlo]
    by_cases hin : dst ≤ a ∧ a < dst + n
    · rw [if_pos hin, if_pos (by omega)]
    · rw [if_neg hin, if_neg (by omega)]

theorem memmove_congr {mem src src' : Bytes} {dst n : Nat} (h : ∀ i, i < n → src i = src' i) :
    memmove mem dst src n = memmove mem dst src' n := by
  funext a
  unfold memmove
  by_cases hin : dst ≤ a ∧ a < dst + n
  · rw [if_pos hin, if_pos hin, h _ (by omega)]
  · rw [if_neg hin, if_neg hin]

/-- `k` bytes are written to user addresses from `va` on, in order. -/
def pokes (s : State) (root va : Nat) (src : Bytes) : Nat → Bytes → Bytes
  | 0, mem => mem
  | k+1, mem => Function.update (pokes s root va src k mem) (byteAddr s root (va + k)) (src k)

theorem pokes_add (va : Nat) (src : Bytes) (n k : Nat) :
    pokes s root (va + n) (fun i => src (n + i)) k (pokes s root va src n mem) =
      pokes s root va src (n + k) mem := by
  induction k with
  | zero => rfl
  | succ k ih => rw [pokes, ih, Nat.add_assoc, ← Nat.add_assoc n k 1, pokes]

theorem memmove_pokes {va n : Nat} (hn : n ≤ PGSIZE - (va - PGROUNDDOWN va)) (src : Bytes) :
    memmove mem (byteAddr s root va) src n = pokes s root va src n mem := by
  induction n with
  | zero => exact memmove_zero _ _ _
  | succ n ih =>
    rw [memmove_succ, ih (Nat.le_of_succ_le hn), pokes, byteAddr_round hn (Nat.lt_succ_self n)]

theorem copyoutLoop_nil (rounds : Nat) (mem : Bytes) (dstva src : Nat) :
    copyoutLoop s root kern rounds mem dstva src 0 = (mem, 0) := by
  cases rounds <;> rfl

/-- copyout writes the bytes of the range in order, up to the first one that is not on a user
page. -/
theorem copyoutLoop_stops (s : State) (root : Nat) (kern : Bytes) (rounds : Nat) (mem : Bytes)
    (dstva src len : Nat) (hrounds : len ≤ rounds) :
    ∃ k, Stops (fun i => UserPage s root (dstva + i)) len k
        (copyoutLoop s root kern rounds mem dstva src len).2 ∧
      (copyoutLoop s root kern rounds mem dstva src len).1 =
        pokes s root dstva (fun i => kern (src + i)) k mem := by
  induction rounds generalizing mem dstva src len with
  | zero =>
    obtain rfl : len = 0 := by omega
    exact ⟨0, Stops.nil _, rfl⟩
  | succ rounds ih =>
    by_cases hlen : len = 0
    · subst hlen
      exact ⟨0, Stops.nil _, rfl⟩
    · unfold copyoutLoop
      rw [if_neg hlen]
      simp only
      by_cases hu : UserPage s root dstva
      · have hpa : walkaddr s root (PGROUNDDOWN dstva) ≠ 0 := fun h0 => (walkaddr_zero _).mp h0 hu
        have hround := hu.round hlen
        rw [if_neg hpa, walkaddr_byte hu, memmove_pokes hround.page]
        generalize min (PGSIZE - (dstva - PGROUNDDOWN dstva)) len = n at *
        have hpos := hround.pos
        rcases hround.next with hnext | rfl
        · rw [hnext]
          obtain ⟨k, hstops, hmem⟩ := ih (pokes s root dstva (fun i => kern (src + i)) n mem)
            (dstva + n) (src + n) (len - n) (by omega)
          simp only [Nat.add_assoc] at hstops hmem
          refine ⟨n + k, hstops.round hround.le hround.user, ?_⟩
          rw [hmem, ← pokes_add]
        · rw [Nat.sub_self, copyoutLoop_nil]
          exact ⟨n, ⟨hround.user, Or.inl ⟨rfl, rfl⟩⟩, rfl⟩
      · rw [if_pos ((walkaddr_zero _).mpr hu)]
        exact ⟨0, Stops.none (Nat.pos_of_ne_zero hlen) hu, rfl⟩

theorem copyinLoop_nil (rounds : Nat) (kern : Bytes) (dst srcva : Nat) :
    copyinLoop s root mem rounds kern dst srcva 0 = (kern, 0) := by
  cases rounds <;> rfl

/-- A round reads the bytes of the range. -/
theorem round_reads {va len n dst : Nat} (h : Round s root va len n) :
    memmove kern dst (fun i => mem (byteAddr s root va + i)) n =
      memmove kern dst (fun i => mem (byteAddr s root (va + i))) n := by
  apply memmove_congr
  intro i hi
  rw [byteAddr_round h.page hi]

theorem copyinLoop_stops (s : State) (root : Nat) (mem : Bytes) (rounds : Nat) (kern : Bytes)
    (dst srcva len : Nat) (hrounds : len ≤ rounds) :
    ∃ k, Stops (fun i => UserPage s root (srcva + i)) len k
        (copyinLoop s root mem rounds kern dst srcva len).2 ∧
      (copyinLoop s root mem rounds kern dst srcva len).1 =
        memmove kern dst (fun i => mem (byteAddr s root (srcva + i))) k := by
  induction rounds generalizing kern dst srcva len with
  | zero =>
    obtain rfl : len = 0 := by omega
    exact ⟨0, Stops.nil _, (memmove_zero _ _ _).symm⟩
  | succ rounds ih =>
    by_cases hlen : len = 0
    · subst hlen
      exact ⟨0, Stops.nil _, (memmove_zero _ _ _).symm⟩
    · unfold copyinLoop
      rw [if_neg hlen]
      simp only
      by_cases hu : UserPage s root srcva
      · have hpa : walkaddr s root (PGROUNDDOWN srcva) ≠ 0 := fun h0 => (walkaddr_zero _).mp h0 hu
        have hround := hu.round hlen
        rw [if_neg hpa, walkaddr_byte hu, round_reads hround]
        generalize min (PGSIZE - (srcva - PGROUNDDOWN srcva)) len = n at *
        have hpos := hround.pos
        rcases hround.next with hnext | rfl
        · rw [hnext]
          obtain ⟨k, hstops, hkern⟩ := ih
            (memmove kern dst (fun i => mem (byteAddr s root (srcva + i))) n)
            (dst + n) (srcva + n) (len - n) (by omega)
          simp only [Nat.add_assoc] at hstops hkern
          refine ⟨n + k, hstops.round hround.le hround.user, ?_⟩
          rw [hkern]
          exact memmove_add kern dst (fun i => mem (byteAddr s root (srcva + i))) n k
        · rw [Nat.sub_self, copyinLoop_nil]
          exact ⟨n, ⟨hround.user, Or.inl ⟨rfl, rfl⟩⟩, rfl⟩
      · rw [if_pos ((walkaddr_zero _).mpr hu)]
        exact ⟨0, Stops.none (Nat.pos_of_ne_zero hlen) hu, (memmove_zero _ _ _).symm⟩

end Copies

section Strings

variable {s : State} {root : Nat} {mem kern : Bytes}

/-- The loop over the bytes of one page. -/
theorem copyStr_spec (mem : Bytes) (n : Nat) (kern : Bytes) (p dst : Nat) :
    (copyStr mem n kern p dst).2 = true ∧ (∃ k, k < n ∧ (∀ i, i < k → mem (p + i) ≠ 0) ∧
        mem (p + k) = 0 ∧
        (copyStr mem n kern p dst).1 = memmove kern dst (fun i => mem (p + i)) (k + 1)) ∨
      (copyStr mem n kern p dst).2 = false ∧ (∀ i, i < n → mem (p + i) ≠ 0) ∧
        (copyStr mem n kern p dst).1 = memmove kern dst (fun i => mem (p + i)) n := by
  induction n generalizing kern p dst with
  | zero => exact Or.inr ⟨rfl, fun i hi => absurd hi (Nat.not_lt_zero i), (memmove_zero _ _ _).symm⟩
  | succ n ih =>
    have hone : memmove kern dst (fun i => mem (p + i)) 1 = Function.update kern dst (mem p) := by
      rw [memmove_succ, memmove_zero]
      rfl
    unfold copyStr
    by_cases h0 : mem p = 0
    · rw [if_pos h0]
      refine Or.inl ⟨rfl, 0, Nat.succ_pos n, fun i hi => absurd hi (Nat.not_lt_zero i), h0, ?_⟩
      rw [hone, h0]
    · rw [if_neg h0]
      have hshift (i : Nat) : p + 1 + i = p + (1 + i) := Nat.add_assoc _ _ _
      have hbefore (k : Nat) (h : ∀ i, i < k → mem (p + 1 + i) ≠ 0) (i : Nat) (hi : i < k + 1) :
          mem (p + i) ≠ 0 := by
        cases i with
        | zero => exact h0
        | succ i =>
          have := h i (Nat.lt_of_succ_lt_succ hi)
          rwa [hshift, Nat.add_comm 1 i] at this
      have hmove (k : Nat) : memmove (Function.update kern dst (mem p)) (dst + 1)
          (fun i => mem (p + 1 + i)) k = memmove kern dst (fun i => mem (p + i)) (k + 1) := by
        simp only [hshift]
        rw [← hone, Nat.add_comm k 1]
        exact memmove_add kern dst (fun i => mem (p + i)) 1 k
      rcases ih (Function.update kern dst (mem p)) (p + 1) (dst + 1) with
        ⟨hq, k, hk, hne, hz, hkern⟩ | ⟨hq, hne, hkern⟩
      · refine Or.inl ⟨hq, k + 1, Nat.succ_lt_succ hk, hbefore k hne, ?_, ?_⟩
        · rw [← hz, hshift, Nat.add_comm 1 k]
        · rw [hkern, hmove]
      · refine Or.inr ⟨hq, hbefore n hne, ?_⟩
        rw [hkern, hmove]

/-- A string is copied up to the byte `k`: its NUL, or the first one that is past `max` or not on
a user page. -/
structure StrStops (ok : Nat → Prop) (byte : Bytes) (max k : Nat) (r : Int) : Prop where
  before : ∀ i, i < k → ok i ∧ byte i ≠ 0
  done : r = 0 ∧ k < max ∧ ok k ∧ byte k = 0 ∨ r = -1 ∧ (k = max ∨ k < max ∧ ¬ok k)

theorem StrStops.zero_iff {ok : Nat → Prop} {byte : Bytes} {max k : Nat} {r : Int}
    (h : StrStops ok byte max k r) :
    r = 0 ↔ ∃ k, k < max ∧ (∀ i, i ≤ k → ok i) ∧ byte k = 0 := by
  rcases h.done with ⟨hr, hk, hok, hz⟩ | ⟨hr, hstop⟩
  · refine ⟨fun _ => ⟨k, hk, ?_, hz⟩, fun _ => hr⟩
    intro i hi
    rcases Nat.lt_or_eq_of_le hi with hlt | rfl
    · exact (h.before i hlt).1
    · exact hok
  · rw [hr]
    refine ⟨fun h => absurd h (by decide), ?_⟩
    rintro ⟨j, hj, hpages, hz⟩
    have hkj : k ≤ j := by
      by_contra hlt
      exact (h.before j (by omega)).2 hz
    rcases hstop with hk | ⟨-, hnot⟩
    · omega
    · exact absurd (hpages k hkj) hnot

theorem StrStops.round {ok : Nat → Prop} {byte : Bytes} {max n k : Nat} {r : Int} (hn : n ≤ max)
    (hbefore : ∀ i, i < n → ok i ∧ byte i ≠ 0)
    (h : StrStops (fun i => ok (n + i)) (fun i => byte (n + i)) (max - n) k r) :
    StrStops ok byte max (n + k) r := by
  refine ⟨?_, ?_⟩
  · intro i hi
    by_cases hin : i < n
    · exact hbefore i hin
    · have := h.before (i - n) (by omega)
      simp only [Nat.add_sub_cancel' (Nat.le_of_not_lt hin)] at this
      exact this
  · rcases h.done with ⟨hr, hk, hok, hz⟩ | ⟨hr, hstop⟩
    · exact Or.inl ⟨hr, by omega, hok, hz⟩
    · refine Or.inr ⟨hr, ?_⟩
      rcases hstop with hk | ⟨hk, hnot⟩
      · exact Or.inl (by omega)
      · exact Or.inr ⟨by omega, hnot⟩

theorem copyinstrLoop_nil (rounds : Nat) (kern : Bytes) (dst srcva : Nat) :
    copyinstrLoop s root mem rounds kern dst srcva 0 = (kern, -1) := by
  cases rounds <;> rfl

theorem copyinstrLoop_stops (s : State) (root : Nat) (mem : Bytes) (rounds : Nat) (kern : Bytes)
    (dst srcva max : Nat) (hrounds : max ≤ rounds) :
    ∃ k, StrStops (fun i => UserPage s root (srcva + i))
        (fun i => mem (byteAddr s root (srcva + i))) max k
        (copyinstrLoop s root mem rounds kern dst srcva max).2 ∧
      (copyinstrLoop s root mem rounds kern dst srcva max).1 =
        memmove kern dst (fun i => mem (byteAddr s root (srcva + i)))
          (if (copyinstrLoop s root mem rounds kern dst srcva max).2 = 0 then k + 1 else k) := by
  induction rounds generalizing kern dst srcva max with
  | zero =>
    obtain rfl : max = 0 := by omega
    exact ⟨0, ⟨fun i hi => absurd hi (Nat.not_lt_zero i), Or.inr ⟨rfl, Or.inl rfl⟩⟩,
      (memmove_zero _ _ _).symm⟩
  | succ rounds ih =>
    by_cases hmax : max = 0
    · subst hmax
      exact ⟨0, ⟨fun i hi => absurd hi (Nat.not_lt_zero i), Or.inr ⟨rfl, Or.inl rfl⟩⟩,
        (memmove_zero _ _ _).symm⟩
    · unfold copyinstrLoop
      rw [if_neg hmax]
      simp only
      by_cases hu : UserPage s root srcva
      · have hpa : walkaddr s root (PGROUNDDOWN srcva) ≠ 0 := fun h0 => (walkaddr_zero _).mp h0 hu
        have hround := hu.round hmax
        rw [if_neg hpa, walkaddr_byte hu]
        generalize min (PGSIZE - (srcva - PGROUNDDOWN srcva)) max = n at *
        have hpos := hround.pos
        have hbyte (i : Nat) (hi : i < n) : mem (byteAddr s root srcva + i) =
            mem (byteAddr s root (srcva + i)) := by rw [byteAddr_round hround.page hi]
        rcases copyStr_spec mem n kern (byteAddr s root srcva) dst with
          ⟨hq, k, hk, hne, hz, hkern⟩ | ⟨hq, hne, hkern⟩
        · -- the NUL lies in this round
          rw [if_pos hq]
          refine ⟨k, ⟨fun i hi => ⟨hround.user i (by omega), ?_⟩, Or.inl ⟨rfl, ?_, ?_, ?_⟩⟩, ?_⟩
          · rw [← hbyte i (by omega)]
            exact hne i hi
          · exact Nat.lt_of_lt_of_le hk hround.le
          · exact hround.user k hk
          · rw [← hbyte k hk]
            exact hz
          · rw [hkern, if_pos rfl]
            exact memmove_congr (fun i hi => hbyte i (by omega))
        · rw [hq, if_neg Bool.false_ne_true, hkern]
          -- no NUL in this round: the string goes on in the next page, or max is used up
          have hbefore (i : Nat) (hi : i < n) : UserPage s root (srcva + i) ∧
              mem (byteAddr s root (srcva + i)) ≠ 0 := by
            refine ⟨hround.user i hi, ?_⟩
            rw [← hbyte i hi]
            exact hne i hi
          rw [memmove_congr hbyte]
          rcases hround.next with hnext | rfl
          · rw [hnext]
            obtain ⟨k, hstops, hrest⟩ := ih
              (memmove kern dst (fun i => mem (byteAddr s root (srcva + i))) n)
              (dst + n) (srcva + n) (max - n) (by omega)
            simp only [Nat.add_assoc] at hstops hrest
            refine ⟨n + k, hstops.round hround.le hbefore, ?_⟩
            rw [hrest]
            have hadd := memmove_add kern dst (fun i => mem (byteAddr s root (srcva + i))) n
            split
            · exact hadd (k + 1)
            · exact hadd k
          · rw [Nat.sub_self, copyinstrLoop_nil]
            exact ⟨n, ⟨hbefore, Or.inr ⟨rfl, Or.inl rfl⟩⟩, rfl⟩
      · -- the page is not the user's: nothing is copied in this round
        rw [if_pos ((walkaddr_zero _).mpr hu)]
        exact ⟨0, ⟨fun i hi => absurd hi (Nat.not_lt_zero i),
          Or.inr ⟨rfl, Or.inr ⟨Nat.pos_of_ne_zero hmax, hu⟩⟩⟩, (memmove_zero _ _ _).symm⟩

end Strings

section Exact

/-- A copy of `len` bytes that answers `r`: it succeeds if and only if all of them can be copied,
and `moved k` tells that the first `k` have been. -/
structure ExactCopy (ok : Nat → Prop) (len : Nat) (r : Int) (moved : Nat → Prop) : Prop where
  success : r = 0 ↔ ∀ i, i < len → ok i
  answer : r = 0 ∨ r = -1
  moved : ∃ k, k ≤ len ∧ (∀ i, i < k → ok i) ∧ (r = 0 → k = len) ∧ moved k

/-- The same for a string of at most `max` bytes. -/
structure ExactStr (ok : Nat → Prop) (byte : Bytes) (max : Nat) (r : Int) (moved : Nat → Prop) :
    Prop where
  success : r = 0 ↔ ∃ k, k < max ∧ (∀ i, i ≤ k → ok i) ∧ byte k = 0
  answer : r = 0 ∨ r = -1
  string : r = 0 → ∃ k, k < max ∧ (∀ i, i ≤ k → ok i) ∧ (∀ i, i < k → byte i ≠ 0) ∧
    byte k = 0 ∧ moved (k + 1)
  failure : r = -1 → ∃ k, k ≤ max ∧ (∀ i, i < k → ok i) ∧ moved k

theorem Stops.exact {ok : Nat → Prop} {len k : Nat} {r : Int} {moved : Nat → Prop}
    (h : Stops ok len k r) (hk : moved k) : ExactCopy ok len r moved := by
  refine ⟨h.zero_iff, ?_, k, ?_, h.pages, ?_, hk⟩
  · rcases h.done with ⟨hr, -⟩ | ⟨hr, -⟩
    · exact Or.inl hr
    · exact Or.inr hr
  · rcases h.done with ⟨-, hk⟩ | ⟨-, hk, -⟩
    · exact Nat.le_of_eq hk
    · exact Nat.le_of_lt hk
  · rintro rfl
    rcases h.done with ⟨-, hk⟩ | ⟨hr, -⟩
    · exact hk
    · cases hr

theorem StrStops.exact {ok : Nat → Prop} {byte : Bytes} {max k : Nat} {r : Int}
    {moved : Nat → Prop} (h : StrStops ok byte max k r)
    (hk : moved (if r = 0 then k + 1 else k)) : ExactStr ok byte max r moved := by
  refine ⟨h.zero_iff, ?_, ?_, ?_⟩
  · rcases h.done with ⟨hr, -⟩ | ⟨hr, -⟩
    · exact Or.inl hr
    · exact Or.inr hr
  · rintro rfl
    rcases h.done with ⟨-, hlt, hok, hz⟩ | ⟨hr, -⟩
    · refine ⟨k, hlt, ?_, fun i hi => (h.before i hi).2, hz, hk⟩
      intro i hi
      rcases Nat.lt_or_eq_of_le hi with hi | rfl
      · exact (h.before i hi).1
      · exact hok
    · cases hr
  · rintro rfl
    rcases h.done with ⟨hr, -⟩ | ⟨-, hstop⟩
    · cases hr
    · refine ⟨k, ?_, fun i hi => (h.before i hi).1, hk⟩
      rcases hstop with hk | ⟨hk, -⟩
      · exact Nat.le_of_eq hk
      · exact Nat.le_of_lt hk

variable {s : State} {root : Nat} {mem kern : Bytes}

theorem pokes_other {va : Nat} {src : Bytes} {k a : Nat}
    (h : ∀ i, i < k → a ≠ byteAddr s root (va + i)) : pokes s root va src k mem a = mem a := by
  induction k with
  | zero => rfl
  | succ k ih =>
    rw [pokes, Function.update_of_ne (h k (Nat.lt_succ_self k))]
    exact ih (fun i hi => h i (Nat.lt_succ_of_lt hi))

/-- The bytes of the user's memory are the same. -/
def SameUser (s : State) (root : Nat) (mem mem' : Bytes) : Prop :=
  ∀ va, UserPage s root va → mem' (byteAddr s root va) = mem (byteAddr s root va)

theorem copyStr_congr {mem' : Bytes} (n : Nat) (kern : Bytes) (p dst : Nat)
    (h : ∀ i, i < n → mem' (p + i) = mem (p + i)) :
    copyStr mem' n kern p dst = copyStr mem n kern p dst := by
  induction n generalizing kern p dst with
  | zero => rfl
  | succ n ih =>
    have h0 : mem' p = mem p := h 0 (Nat.succ_pos n)
    unfold copyStr
    rw [h0]
    split
    · rfl
    · apply ih
      intro i hi
      have := h (i + 1) (Nat.succ_lt_succ hi)
      rwa [Nat.add_right_comm, Nat.add_assoc]

/-- copyin reads the user's memory only. -/
theorem copyinLoop_reads {mem' : Bytes} (hsame : SameUser s root mem mem') (rounds : Nat)
    (kern : Bytes) (dst srcva len : Nat) :
    copyinLoop s root mem' rounds kern dst srcva len =
      copyinLoop s root mem rounds kern dst srcva len := by
  induction rounds generalizing kern dst srcva len with
  | zero => rfl
  | succ rounds ih =>
    unfold copyinLoop
    by_cases hlen : len = 0
    · rw [if_pos hlen, if_pos hlen]
    · rw [if_neg hlen, if_neg hlen]
      simp only
      by_cases hu : UserPage s root srcva
      · have hround := hu.round hlen
        rw [walkaddr_byte hu, round_reads hround, round_reads hround, ih]
        rw [memmove_congr (fun i hi => hsame (srcva + i) (hround.user i hi))]
      · rw [if_pos ((walkaddr_zero _).mpr hu), if_pos ((walkaddr_zero _).mpr hu)]

theorem copyinstrLoop_reads {mem' : Bytes} (hsame : SameUser s root mem mem') (rounds : Nat)
    (kern : Bytes) (dst srcva max : Nat) :
    copyinstrLoop s root mem' rounds kern dst srcva max =
      copyinstrLoop s root mem rounds kern dst srcva max := by
  induction rounds generalizing kern dst srcva max with
  | zero => rfl
  | succ rounds ih =>
    unfold copyinstrLoop
    by_cases hmax : max = 0
    · rw [if_pos hmax, if_pos hmax]
    · rw [if_neg hmax, if_neg hmax]
      simp only
      by_cases hu : UserPage s root srcva
      · have hround := hu.round hmax
        have hbytes (i : Nat) (hi : i < min (PGSIZE - (srcva - PGROUNDDOWN srcva)) max) :
            mem' (byteAddr s root srcva + i) = mem (byteAddr s root srcva + i) := by
          rw [← byteAddr_round hround.page hi]
          exact hsame (srcva + i) (hround.user i hi)
        rw [walkaddr_byte hu, copyStr_congr _ _ _ _ hbytes, ih]
      · rw [if_pos ((walkaddr_zero _).mpr hu), if_pos ((walkaddr_zero _).mpr hu)]

/-- The three copies are byte exact on user pages and touch no other page. -/
theorem user_copies_exact (s : State) (root : Nat) (mem kern : Bytes) (va ptr len : Nat) :
    ExactCopy (fun i => UserPage s root (va + i)) len (copyout s root kern mem va ptr len).2
      (fun k => (copyout s root kern mem va ptr len).1 =
        pokes s root va (fun i => kern (ptr + i)) k mem) ∧
    ExactCopy (fun i => UserPage s root (va + i)) len (copyin s root mem kern ptr va len).2
      (fun k => (copyin s root mem kern ptr va len).1 =
        memmove kern ptr (fun i => mem (byteAddr s root (va + i))) k) ∧
    ExactStr (fun i => UserPage s root (va + i)) (fun i => mem (byteAddr s root (va + i))) len
      (copyinstr s root mem kern ptr va len).2
      (fun k => (copyinstr s root mem kern ptr va len).1 =
        memmove kern ptr (fun i => mem (byteAddr s root (va + i))) k) ∧
    (∀ a, (∀ x, UserPage s root x → a ≠ byteAddr s root x) →
      (copyout s root kern mem va ptr len).1 a = mem a) ∧
    (∀ mem', SameUser s root mem mem' →
      copyin s root mem' kern ptr va len = copyin s root mem kern ptr va len ∧
      copyinstr s root mem' kern ptr va len = copyinstr s root mem kern ptr va len) := by
  obtain ⟨k, hout, hmem⟩ := copyoutLoop_stops s root kern len mem va ptr len (Nat.le_refl _)
  obtain ⟨j, hin, hkern⟩ := copyinLoop_stops s root mem len kern ptr va len (Nat.le_refl _)
  obtain ⟨l, hstr, hstring⟩ := copyinstrLoop_stops s root mem len kern ptr va len (Nat.le_refl _)
  refine ⟨hout.exact hmem, hin.exact hkern, hstr.exact hstring, ?_, ?_⟩
  · intro a ha
    have hsame : (copyout s root kern mem va ptr len).1 = _ := hmem
    rw [hsame]
    exact pokes_other (fun i hi => ha _ (hout.pages i hi))
  · intro mem' hsame
    exact ⟨copyinLoop_reads hsame len kern ptr va len,
      copyinstrLoop_reads hsame len kern ptr va len⟩

/-- A table whose only leaf is a user page at physical address 0. -/
def zeroFrame : State :=
  ⟨fun p i => if i = 0 then
      if p = 0x80001000 then PA2PTE 0x80002000 ||| PTE_V
      else if p = 0x80002000 then PA2PTE 0x80003000 ||| PTE_V
      else if p = 0x80003000 then PTE_V ||| PTE_U else 0
    else 0, [], 0x80000000⟩

/-- walkaddr answers 0 for it, and the copy fails on a valid PTE_U page. -/
theorem zero_frame_fails :
    ¬∀ (s : State) (root : Nat) (kern mem : Bytes) (dstva src len : Nat),
      (copyout s root kern mem dstva src len).2 = 0 ↔
        ∀ i, i < len → dstva + i < MAXVA ∧ leaf s root (dstva + i) &&& PTE_V ≠ 0 ∧
          leaf s root (dstva + i) &&& PTE_U ≠ 0 := by
  intro h
  have hone := (h zeroFrame 0x80001000 (fun _ => 0) (fun _ => 0) 0 0 1).mpr (by
    intro i hi
    obtain rfl : i = 0 := by omega
    decide)
  have hfail : (copyout zeroFrame 0x80001000 (fun _ => 0) (fun _ => 0) 0 0 1).2 = -1 := by decide
  rw [hfail] at hone
  cases hone

end Exact

end Xv6Labs.Pgtbl
