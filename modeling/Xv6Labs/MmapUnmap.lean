import Xv6Labs.MmapVmas

/-! One call of sys_munmap: which pages it takes away, what it leaves of the mapping, and when a
call that reports a failure has changed nothing. -/
namespace Xv6Labs.Mmap

variable {n : Nat}

section Pages

variable {t t' : Table} {va : Nat}

/-- Page `k` can be removed: there is a last-level page for it, and if it is mapped, it is a leaf
with a page of kalloc. -/
def Table.Removable (t : Table) (k : Nat) : Prop :=
  k * PGSIZE < MAXVA ∧ t.mid (k / 2^18) = true ∧ t.low (k / 2^9) = true ∧
    ∀ e, t.leaf k = some e → e.noFlags = false ∧ e.own = true

theorem findPTE_page (t : Table) (k : Nat) : findPTE t (k * PGSIZE) =
    if MAXVA ≤ k * PGSIZE then .error .walk
    else if t.mid (k / 2^18) && t.low (k / 2^9) then .ok (some (t.leaf k)) else .ok none := by
  have hmid : k * PGSIZE / 2^30 = k / 2^18 := by
    unfold PGSIZE
    omega
  have hlow : k * PGSIZE / 2^21 = k / 2^9 := by
    unfold PGSIZE
    omega
  unfold findPTE
  rw [hmid, hlow, page_div]

theorem set_unmapped {k : Nat} (h : t.leaf k = none) : t.set k none = t := by
  unfold Table.set
  rw [← h, Function.update_eq_self]

/-- One round of uvmunmap's loop. -/
theorem uvmunmapLoop_round (m k : Nat) : uvmunmapLoop true (m + 1) t (k * PGSIZE) = .ok t' ↔
    t.Removable k ∧ uvmunmapLoop true m (t.set k none) ((k + 1) * PGSIZE) = .ok t' := by
  have hnext : k * PGSIZE + PGSIZE = (k + 1) * PGSIZE := (Nat.succ_mul k PGSIZE).symm
  unfold Table.Removable
  rw [uvmunmapLoop, findPTE_page, hnext, page_div]
  by_cases hva : MAXVA ≤ k * PGSIZE
  · rw [if_pos hva]
    constructor
    · intro h
      cases h
    · rintro ⟨⟨hlt, -⟩, -⟩
      omega
  · rw [if_neg hva]
    have hlt : k * PGSIZE < MAXVA := by omega
    cases hmid : t.mid (k / 2^18) with
    | false => simp
    | true =>
      cases hlow : t.low (k / 2^9) with
      | false => simp
      | true =>
        simp only [Bool.and_self, if_true, ok_bind, hlt, true_and]
        cases hleaf : t.leaf k with
        | none => simp [set_unmapped hleaf]
        | some e =>
          cases hflags : e.noFlags with
          | true => simp [hflags]
          | false => cases hown : e.own <;> simp [hflags, hown]

/-- The loop of uvmunmap returns when all its pages can be removed, and removes them. -/
theorem uvmunmapLoop_iff (m k : Nat) : uvmunmapLoop true m t (k * PGSIZE) = .ok t' ↔
    (∀ j, k ≤ j → j < k + m → t.Removable j) ∧ t' = t.clear k m := by
  induction m generalizing t k with
  | zero =>
    rw [clear_zero]
    constructor
    · intro h
      cases h
      exact ⟨fun j hlo hhi => by omega, rfl⟩
    · rintro ⟨-, rfl⟩
      rfl
  | succ m ih =>
    have hrest : (∀ j, k + 1 ≤ j → j < k + 1 + m → (t.set k none).Removable j) ↔
        ∀ j, k + 1 ≤ j → j < k + 1 + m → t.Removable j := by
      apply forall_congr'
      intro j
      apply forall_congr'
      intro hlo
      have hne : j ≠ k := by omega
      unfold Table.Removable Table.set
      simp only [Function.update_of_ne hne]
    have hsplit : (∀ j, k ≤ j → j < k + (m + 1) → t.Removable j) ↔
        t.Removable k ∧ ∀ j, k + 1 ≤ j → j < k + 1 + m → t.Removable j := by
      constructor
      · intro h
        exact ⟨h k le_rfl (by omega), fun j hlo hhi => h j (by omega) (by omega)⟩
      · rintro ⟨hk, h⟩ j hlo hhi
        rcases Nat.eq_or_lt_of_le hlo with rfl | hlt
        · exact hk
        · exact h j hlt (by omega)
    rw [uvmunmapLoop_round, ih, clear_succ, hrest, hsplit, and_assoc]

/-- The pages that sys_munmap asks uvmunmap to remove, none for a negative number. -/
def munmapPages (length : Int) : Nat := (PGROUNDUPint length / PGSIZE).toNat

theorem roundUpInt_div (length : Int) :
    PGROUNDUPint length / PGSIZE = int32 (length + PGSIZE - 1) / PGSIZE := by
  unfold PGROUNDUPint
  exact Int.mul_ediv_cancel _ (by decide)

theorem roundUpInt_range (length : Int) :
    -2^19 ≤ PGROUNDUPint length / PGSIZE ∧ PGROUNDUPint length / PGSIZE < 2^19 := by
  rw [roundUpInt_div]
  unfold int32 PGSIZE
  omega

/-- What the loop of uvmunmap makes of `q` pages, `q` an `int`: below address 0 the sum wraps. -/
theorem unmap_count {q : Int} (hq : -2^19 ≤ q ∧ q < 2^19) (hva : va < 2^63) :
    if 0 ≤ (va : Int) + q * PGSIZE then
      ((va + add64 0 q * PGSIZE) % 2^64 - va) / PGSIZE = q.toNat
    else 2^38 / 2^12 < ((va + add64 0 q * PGSIZE) % 2^64 - va) / PGSIZE := by
  unfold add64 PGSIZE
  by_cases h0 : 0 ≤ q
  · have hx : (((0 : Nat) + q) % 2^64).toNat = q.toNat := by omega
    rw [if_pos (by omega), hx, Nat.mod_eq_of_lt (by omega)]
    omega
  · have hx : (((0 : Nat) + q) % 2^64).toNat = 2^64 - (-q).toNat := by omega
    rw [hx]
    generalize hm : (-q).toNat = m
    have hm1 : m ≤ 2^19 := by omega
    have hqz : q.toNat = 0 := by omega
    have hqm : q = -(m : Int) := by omega
    have hmul : (2^64 - m) * 4096 = 2^64 * 4095 + (2^64 - m * 4096) := by omega
    rw [hqz, hqm, hmul, ← Nat.add_assoc, Nat.add_right_comm, Nat.add_mul_mod_self_left]
    split
    · have hmod : (va + (2^64 - m * 4096)) % 2^64 = va - m * 4096 := by omega
      rw [hmod]
      omega
    · have hmod : (va + (2^64 - m * 4096)) % 2^64 = va + (2^64 - m * 4096) := by omega
      rw [hmod]
      omega

/-- What uvmunmap needs for sys_munmap of `length` bytes from `addr` on: the range does not end
below address 0, and all its pages can be removed. -/
structure CanUnmap (t : Table) (addr : Nat) (length : Int) : Prop where
  above : 0 ≤ (PGROUNDDOWN addr : Int) + PGROUNDUPint length
  pages : ∀ k, addr / PGSIZE ≤ k → k < addr / PGSIZE + munmapPages length → t.Removable k

/-- uvmunmap as sys_munmap calls it. -/
theorem uvmunmap_iff {addr : Nat} {length : Int} (haddr : addr < 2^63) :
    uvmunmap t (PGROUNDDOWN addr) (add64 0 (PGROUNDUPint length / PGSIZE)) true = .ok t' ↔
      CanUnmap t addr length ∧ t' = t.clear (addr / PGSIZE) (munmapPages length) := by
  have hround : PGROUNDDOWN addr = addr / PGSIZE * PGSIZE := rfl
  have hle := roundDown_le addr
  have hva : PGROUNDDOWN addr < 2^63 := by omega
  have hcount := unmap_count (roundUpInt_range length) hva
  have hup : PGROUNDUPint length / PGSIZE * PGSIZE = PGROUNDUPint length := by
    rw [roundUpInt_div]
    rfl
  unfold uvmunmap
  rw [if_neg (by rw [hround, Nat.mul_mod_left]; exact fun h => h rfl)]
  rw [hup] at hcount
  by_cases habove : 0 ≤ (PGROUNDDOWN addr : Int) + PGROUNDUPint length
  · rw [if_pos habove] at hcount
    rw [hcount, hround, uvmunmapLoop_iff]
    constructor
    · rintro ⟨hpages, ht⟩
      exact ⟨⟨habove, hpages⟩, ht⟩
    · rintro ⟨hcan, ht⟩
      exact ⟨hcan.pages, ht⟩
  · rw [if_neg habove] at hcount
    generalize ((PGROUNDDOWN addr + add64 0 (PGROUNDUPint length / PGSIZE) * PGSIZE) % 2^64 -
      PGROUNDDOWN addr) / PGSIZE = c at hcount ⊢
    rw [hround, uvmunmapLoop_iff]
    constructor
    · -- the loop comes to MAXVA
      rintro ⟨hpages, -⟩
      have hlast := (hpages (addr / PGSIZE + 2^38 / 2^12) (by omega) (by omega)).1
      unfold MAXVA PGSIZE at hlast
      omega
    · rintro ⟨hcan, -⟩
      exact absurd hcan.above habove

end Pages

section WriteBack

variable {s s' : State n} {f : FileId}

/-- Only file `f`, not its references, and its inode have changed. -/
structure OnlyFile (f : FileId) (s s' : State n) : Prop where
  proc : s'.proc = s.proc
  mem : s'.mem = s.mem
  files : ∀ g, g ≠ f → s'.file g = s.file g
  ref : (s'.file f).ref = (s.file f).ref
  ip : (s'.file f).ip = (s.file f).ip
  type : (s'.file f).type = (s.file f).type
  inodes : ∀ ip, (s.file f).ip ≠ some ip → s'.inode ip = s.inode ip

theorem OnlyFile.refl (f : FileId) (s : State n) : OnlyFile f s s :=
  ⟨rfl, rfl, fun _ _ => rfl, rfl, rfl, rfl, fun _ _ => rfl⟩

theorem OnlyFile.trans {s'' : State n} (h : OnlyFile f s s') (h' : OnlyFile f s' s'') :
    OnlyFile f s s'' :=
  ⟨h'.proc.trans h.proc, h'.mem.trans h.mem, fun g hg => (h'.files g hg).trans (h.files g hg),
    h'.ref.trans h.ref, h'.ip.trans h.ip, h'.type.trans h.type, fun ip hip =>
      (h'.inodes ip (by rw [h.ip]; exact hip)).trans (h.inodes ip hip)⟩

theorem filewriteLoop_only (t : Table) (f : FileId) (addr len fuel : Nat) (s : State n) (i : Nat) :
    Yields (fun _ => True) (OnlyFile f s) (filewriteLoop t f addr len fuel s i) := by
  induction fuel generalizing s i with
  | zero => exact OnlyFile.refl f s
  | succ fuel ih =>
    unfold filewriteLoop
    split
    · exact OnlyFile.refl f s
    · have hlock : Yields (fun _ => True) (fun ip => (s.file f).ip = some ip) (ilock s f) := by
        unfold ilock
        cases (s.file f).ip with
        | none => trivial
        | some ip =>
          simp only
          split
          · trivial
          · exact rfl
      apply hlock.bind
      intro ip hip
      have hset (I : Inode) : OnlyFile f s (s.setInode ip I) := by
        refine ⟨rfl, rfl, fun _ _ => rfl, rfl, rfl, rfl, ?_⟩
        intro j hj
        apply Function.update_of_ne
        rintro rfl
        exact hj hip
      dsimp only
      generalize writei t (s.inode ip) (addr + i) (s.file f).off (min (len - i) writeMax) = w
      obtain ⟨I, o⟩ := w
      cases o with
      | none => exact hset I
      | some k =>
        have hfile (I : Inode) (off : Nat) : OnlyFile f s ((s.setInode ip I).setFile f
            { (s.setInode ip I).file f with off := off }) := by
          refine ⟨rfl, rfl, ?_, ?_, ?_, ?_, (hset I).inodes⟩
          · intro g hg
            exact Function.update_of_ne hg _ _
          · simp [State.setFile, State.setInode]
          · simp [State.setFile, State.setInode]
          · simp [State.setFile, State.setInode]
        simp only
        split
        · exact (ih _ _).mono (fun _ h => (hfile _ _).trans h)
        · exact hfile _ _

theorem writeBack_only (s : State n) (p : Fin n) (v : VMA) (addr : Nat) (len : Int) :
    Yields (fun _ => True) (OnlyFile v.mapfile s) (writeBack s p v addr len) := by
  unfold writeBack filewrite
  split
  · split
    · exact OnlyFile.refl _ s
    · cases (s.file v.mapfile).type with
      | pipe => exact OnlyFile.refl _ s
      | device => exact OnlyFile.refl _ s
      | inode => exact filewriteLoop_only _ _ _ _ _ _ _
      | none => trivial
  · exact OnlyFile.refl _ s

/-- A write from a page that is not mapped changes nothing. -/
theorem writei_unmapped {t : Table} (I : Inode) {addr : Nat} (off len : Nat) (hlen : 0 < len)
    (haddr : addr % PGSIZE = 0) (hleaf : t.leaf (addr / PGSIZE) = none) :
    writei t I addr off len = (I, none) ∨ writei t I addr off len = (I, some 0) := by
  unfold writei
  split
  · exact Or.inl rfl
  · split
    · exact Or.inl rfl
    · rename_i hoff _
      right
      have hround : PGROUNDDOWN addr = addr := by
        unfold PGROUNDDOWN
        unfold PGSIZE at *
        omega
      have hwalk : walkaddr t (PGROUNDDOWN addr) = none := by
        rw [hround]
        unfold walkaddr findPTE
        split_ifs <;> simp [hleaf]
      have hmod := Nat.mod_lt off (show 0 < BSIZE by decide)
      have hk : 0 < min (len - 0) (BSIZE - off % BSIZE) := by
        rw [lt_min_iff]
        omega
      have hcopy : copyinLen t (min (len - 0) (BSIZE - off % BSIZE) + 1) addr
          (min (len - 0) (BSIZE - off % BSIZE)) = 0 := by
        unfold copyinLen
        rw [if_neg (by omega), hwalk]
      obtain ⟨fuel, hfuel⟩ : ∃ fuel, len = fuel + 1 := ⟨len - 1, by omega⟩
      have hloop : writeiLoop t len I.data addr off len 0 = (I.data, off, 0) := by
        conv_lhs => arg 2; rw [hfuel]
        unfold writeiLoop
        rw [if_neg (by omega)]
        simp only [hcopy]
        rw [if_pos hk]
        have hdata : (fun i => if off ≤ i ∧ i < off + 0 then userByte t (addr + (i - off))
            else I.data i) = I.data := by
          funext i
          rw [if_neg (by omega)]
        rw [hdata]
      have hle : off ≤ I.size := by omega
      rw [hloop]
      simp only [Nat.max_eq_left hle]

theorem setInode_self (s : State n) (ip : Nat) : s.setInode ip (s.inode ip) = s := by
  unfold State.setInode
  rw [Function.update_eq_self]

theorem setFile_self (s : State n) (f : FileId) : s.setFile f (s.file f) = s := by
  unfold State.setFile
  rw [Function.update_eq_self]

/-- The write back of a range none of whose pages is there. -/
theorem writeBack_unmapped {p : Fin n} {v : VMA} {addr : Nat} {len : Int}
    (haddr : addr % PGSIZE = 0) (hleaf : 0 < len → (s.proc p).table.leaf (addr / PGSIZE) = none)
    (h : writeBack s p v addr len = .ok s') : s' = s := by
  unfold writeBack filewrite at h
  split at h
  · split at h
    · cases h
      rfl
    · split at h
      · cases h
        rfl
      · cases h
        rfl
      · cases hlen : len.toNat with
        | zero =>
          rw [hlen] at h
          cases h
          rfl
        | succ k =>
          rw [hlen] at h
          unfold filewriteLoop at h
          rw [if_neg (by omega)] at h
          obtain ⟨ip, -, h⟩ := (bind_ok_iff _ _ _).mp h
          have hmax : 0 < min (k + 1 - 0) writeMax := by
            rw [lt_min_iff]
            exact ⟨by omega, by decide⟩
          rcases writei_unmapped (s.inode ip) (s.file v.mapfile).off (min (k + 1 - 0) writeMax)
            hmax haddr (hleaf (by omega)) with hw | hw
          · rw [Nat.add_zero, hw] at h
            simp only [setInode_self] at h
            cases h
            rfl
          · rw [Nat.add_zero, hw] at h
            simp only [setInode_self, Nat.add_zero] at h
            rw [if_neg (by omega)] at h
            cases h
            exact setFile_self s v.mapfile
      · cases h
  · cases h
    rfl

end WriteBack

section Mappings

/-- The mapping holds the address `x`. -/
def VMA.covers (v : VMA) (x : Int) : Prop :=
  v.used = true ∧ (v.addr : Int) ≤ x ∧ x < v.addr + v.length

/-- The mappings of a process are page-aligned and disjoint. -/
structure Aligned (P : Proc) : Prop where
  start : ∀ i, (P.vma i).used = true → (P.vma i).addr % PGSIZE = 0
  size : ∀ i, (P.vma i).used = true → (P.vma i).length % PGSIZE = 0
  pos : ∀ i, (P.vma i).used = true → 0 ≤ (P.vma i).length
  short : ∀ i, (P.vma i).used = true → (P.vma i).length < 2^31
  fits : ∀ i, (P.vma i).used = true → ((P.vma i).addr : Int) + (P.vma i).length ≤ 2^63
  apart : ∀ i j x, i ≠ j → (P.vma i).covers x → ¬(P.vma j).covers x

/-- `v'` is what is left of `v` when `length` bytes from `addr` on are taken away: the same file
bytes at the other addresses, and a free slot when none is left. -/
structure Shrunk (v v' : VMA) (addr : Nat) (length : Int) : Prop where
  covers : ∀ x, v'.covers x ↔ v.covers x ∧ ¬((addr : Int) ≤ x ∧ x < addr + length)
  offset : v'.used = true → (v'.offset + v.addr) % 2^64 = (v.offset + v'.addr) % 2^64
  file : v'.mapfile = v.mapfile
  prot : v'.prot = v.prot ∧ v'.flags = v.flags
  free : (∀ x, ¬v'.covers x) → v'.used = false

variable {v : VMA} {addr : Nat} {length : Int}

theorem add64_eq {a : Nat} {x : Int} (h0 : 0 ≤ (a : Int) + x) (h1 : (a : Int) + x < 2^64) :
    (add64 a x : Int) = a + x := by
  unfold add64
  rw [Int.emod_eq_of_lt h0 h1]
  omega

theorem add64_wrap {a : Nat} {x : Int} (h0 : (a : Int) + x < 0) (h1 : -2^31 ≤ x) :
    (2^63 : Int) < add64 a x := by
  unfold add64
  omega

/-- Both sums move by the same amount. -/
theorem add64_shift (a b : Nat) (x : Int) : (add64 a x + b) % 2^64 = (a + add64 b x) % 2^64 := by
  have hadd (c : Nat) : (add64 c x : Int) = (c + x) % 2^64 :=
    Int.toNat_of_nonneg (Int.emod_nonneg _ (by decide))
  have hmod : ((2^64 : Nat) : Int) = 2^64 := rfl
  have hleft : (((add64 a x + b) % 2^64 : Nat) : Int) = (a + x + b) % 2^64 := by
    rw [Int.natCast_emod, Int.natCast_add, hadd, hmod, Int.emod_add_emod]
  have hright : (((a + add64 b x) % 2^64 : Nat) : Int) = (a + x + b) % 2^64 := by
    rw [Int.natCast_emod, Int.natCast_add, hadd, hmod, Int.add_emod_emod, Int.add_comm (b : Int) x,
      Int.add_assoc]
  exact Int.ofNat_inj.mp (hleft.trans hright.symm)

theorem int32_eq {x : Int} (h0 : -2^31 ≤ x) (h1 : x < 2^31) : int32 x = x := by
  unfold int32
  omega

theorem hit_iff (hfits : (v.addr : Int) + v.length ≤ 2^63) (hpos : 0 ≤ v.length) :
    v.hit addr = true ↔ v.covers addr := by
  have hadd : (add64 v.addr v.length : Int) = v.addr + v.length := add64_eq (by omega) (by omega)
  simp only [VMA.hit, VMA.covers, Bool.and_eq_true, decide_eq_true_eq]
  constructor
  · rintro ⟨⟨hu, hlo⟩, hhi⟩
    exact ⟨hu, by omega, by omega⟩
  · rintro ⟨hu, hlo, hhi⟩
    exact ⟨⟨hu, by omega⟩, by omega⟩

/-- Which end of the mapping the range ends at, in `uint64` arithmetic and without. -/
theorem suffix_iff (hfits : (v.addr : Int) + v.length ≤ 2^63) (hpos : 0 < v.length)
    (hc : v.covers addr) (hlen : -2^31 ≤ length ∧ length < 2^31) :
    add64 addr length = add64 v.addr v.length ↔ (addr : Int) + length = v.addr + v.length := by
  have hadd : (add64 v.addr v.length : Int) = v.addr + v.length := add64_eq (by omega) (by omega)
  obtain ⟨-, hlo, hhi⟩ := hc
  by_cases h0 : 0 ≤ (addr : Int) + length
  · have hsum := add64_eq h0 (by omega)
    omega
  · have hwrap := add64_wrap (a := addr) (by omega) hlen.1
    omega

/-- A range from the start of the mapping on is taken away as it should be if and only if it
lies in the mapping. -/
theorem cut_start (hused : v.used = true) (hpos : 0 < v.length) (hshort : v.length < 2^31)
    (hfits : (v.addr : Int) + v.length ≤ 2^63) (hlen : -2^31 ≤ length ∧ length < 2^31) :
    Shrunk v (v.cut v.addr length) v.addr length ↔ 0 ≤ length ∧ length ≤ v.length := by
  by_cases hall : length = v.length
  · have hcut : v.cut v.addr length = { v with used := false } := if_pos ⟨rfl, hall⟩
    rw [hcut]
    refine ⟨fun _ => by omega, fun _ => ⟨?_, fun h => (by cases h), rfl, ⟨rfl, rfl⟩, fun _ => rfl⟩⟩
    intro x
    unfold VMA.covers
    simp only [Bool.false_eq_true, false_and, false_iff]
    omega
  · have hcut : v.cut v.addr length = { v with
        addr := add64 v.addr length
        length := int32 (v.length - length)
        offset := add64 v.offset length } := by
      unfold VMA.cut
      rw [if_neg (fun h => hall h.2), if_pos rfl]
    rw [hcut]
    constructor
    · intro h
      have hcov := h.covers
      simp only [VMA.covers, hused, true_and] at hcov
      by_cases hneg : length < 0
      · -- the mapping has grown, or lies elsewhere
        by_cases h0 : 0 ≤ (v.addr : Int) + length
        · have haddr := add64_eq h0 (by omega)
          have hself := hcov v.addr
          have hlow := hcov (v.addr + length)
          rw [haddr] at hself hlow
          omega
        · have hwrap := add64_wrap (a := v.addr) (by omega) hlen.1
          have hself := hcov v.addr
          omega
      · by_cases hlong : v.length < length
        · have hint := int32_eq (x := v.length - length) (by omega) (by omega)
          have hfree := h.free (fun x hx => by
            simp only [VMA.covers, hused, hint] at hx
            omega)
          simp only [hused, Bool.true_eq_false] at hfree
        · omega
    · rintro ⟨h0, h1⟩
      have haddr := add64_eq (a := v.addr) (x := length) (by omega) (by omega)
      have hint := int32_eq (x := v.length - length) (by omega) (by omega)
      refine ⟨?_, ?_, rfl, ⟨rfl, rfl⟩, ?_⟩
      · intro x
        simp only [VMA.covers, hused, haddr, hint, true_and]
        omega
      · exact fun _ => add64_shift v.offset v.addr length
      · intro hnone
        exfalso
        apply hnone (v.addr + length)
        simp only [VMA.covers, hused, haddr, hint, true_and]
        omega

/-- A range up to the end of the mapping is taken away as it should be. -/
theorem cut_end (hused : v.used = true) (hfits : (v.addr : Int) + v.length ≤ 2^63)
    (hpos : 0 < v.length) (hshort : v.length < 2^31) (hc : v.covers addr)
    (hne : addr ≠ v.addr) (hend : (addr : Int) + length = v.addr + v.length) :
    Shrunk v (v.cut addr length) addr length := by
  have hlo := hc.2.1
  have hhi := hc.2.2
  have hcut : v.cut addr length = { v with length := int32 (v.length - length) } := by
    unfold VMA.cut
    rw [if_neg (fun h => hne h.1), if_neg hne,
      if_pos ((suffix_iff hfits hpos hc ⟨by omega, by omega⟩).mpr hend)]
  have hint := int32_eq (x := v.length - length) (by omega) (by omega)
  rw [hcut]
  refine ⟨?_, fun _ => rfl, rfl, ⟨rfl, rfl⟩, ?_⟩
  · intro x
    simp only [VMA.covers, hused, hint, true_and]
    omega
  · intro hnone
    exfalso
    apply hnone v.addr
    simp only [VMA.covers, hused, hint, true_and]
    omega

end Mappings

section Call

variable {s s' : State n} {p : Fin n} {addr : Nat} {length : Int} {i : Fin NVMA} {b : Bool}

theorem fileclose_only {f : FileId} (h : fileclose s f = .ok s') :
    s'.proc = s.proc ∧ (∀ g, g ≠ f → s'.file g = s.file g) ∧
      (s'.file f).ref = (s.file f).ref - 1 ∧
      ∀ ip, (s.file f).ip ≠ some ip → s'.inode ip = s.inode ip := by
  have hset (F : File) : ∀ g, g ≠ f → (s.setFile f F).file g = s.file g :=
    fun g hg => by simp only [State.setFile, Function.update_of_ne hg]
  have hself (F : File) : (s.setFile f F).file f = F := by
    simp only [State.setFile, Function.update_self]
  unfold fileclose at h
  dsimp only at h
  split at h
  · cases h
  · split at h
    · cases h
      exact ⟨rfl, hset _, by rw [hself], fun _ _ => rfl⟩
    · have hzero : (s.file f).ref - 1 = 0 := by omega
      rw [hzero]
      split at h
      · rename_i ip _ hip
        cases h
        refine ⟨rfl, hset _, by simp only [iput, State.setInode, hself], ?_⟩
        intro j hj
        apply Function.update_of_ne
        rintro rfl
        exact hj hip
      · rename_i ip _ hip
        cases h
        refine ⟨rfl, hset _, by simp only [iput, State.setInode, hself], ?_⟩
        intro j hj
        apply Function.update_of_ne
        rintro rfl
        exact hj hip
      · cases h
      · cases h
      · cases h
        exact ⟨rfl, hset _, by rw [hself], fun _ _ => rfl⟩

theorem clear_unmapped {t : Table} {lo k : Nat} (h : ∀ j, lo ≤ j → j < lo + k → t.leaf j = none) :
    t.clear lo k = t := by
  have hleaf : (fun j => if lo ≤ j ∧ j < lo + k then none else t.leaf j) = t.leaf := by
    funext j
    split
    · rename_i hin
      exact (h j hin.1 hin.2).symm
    · rfl
  unfold Table.clear
  rw [hleaf]

/-- What a pass of the loop does for the mapping `i` that holds `addr`; the answer `false` is
`return 1`. -/
structure Unmaps (s s' : State n) (p : Fin n) (addr : Nat) (length : Int) (i : Fin NVMA)
    (b : Bool) : Prop where
  table : (s'.proc p).table = (s.proc p).table.clear (addr / PGSIZE) (munmapPages length)
  vma : (s'.proc p).vma = Function.update (s.proc p).vma i (((s.proc p).vma i).cut addr length)
  procs : ∀ q, q ≠ p → s'.proc q = s.proc q
  files : ∀ f, f ≠ ((s.proc p).vma i).mapfile → s'.file f = s.file f
  inodes : ∀ ip, (s.file ((s.proc p).vma i).mapfile).ip ≠ some ip → s'.inode ip = s.inode ip
  ref : ((s.proc p).vma i).used = true → (s'.file ((s.proc p).vma i).mapfile).ref =
    (s.file ((s.proc p).vma i).mapfile).ref -
      if (((s.proc p).vma i).cut addr length).used then 0 else 1
  answer : b = true ↔ addr = ((s.proc p).vma i).addr ∨
    add64 addr length = add64 ((s.proc p).vma i).addr ((s.proc p).vma i).length
  failed : b = false → (∀ k, addr / PGSIZE ≤ k → k < addr / PGSIZE + munmapPages length →
    (s.proc p).table.leaf k = none) → s' = s

/-- A pass of the loop closes a mapping, cuts one, or finds that nothing fits. -/
theorem munmapVma_cases {v : VMA} (hv : (s.proc p).vma i = v)
    (h : munmapVma s p addr length i = .ok (s', b)) :
    ∃ s₁ t, writeBack s p v (PGROUNDDOWN addr) (PGROUNDUPint length) = .ok s₁ ∧
      uvmunmap (s₁.proc p).table (PGROUNDDOWN addr)
        (add64 0 (PGROUNDUPint length / PGSIZE)) true = .ok t ∧
      ((b = true ∧ addr = v.addr ∧ (v.cut addr length).used = false ∧
          ∃ s₂, fileclose (s₁.setTable p t) v.mapfile = .ok s₂ ∧
            s' = s₂.setVma p i (v.cut addr length)) ∨
        (b = true ∧ (addr = v.addr ∨ add64 addr length = add64 v.addr v.length) ∧
          (v.cut addr length).used = v.used ∧
          s' = (s₁.setTable p t).setVma p i (v.cut addr length)) ∨
        b = false ∧ ¬(addr = v.addr ∨ add64 addr length = add64 v.addr v.length) ∧
          v.cut addr length = v ∧ s' = s₁.setTable p t) := by
  unfold munmapVma at h
  rw [hv] at h
  obtain ⟨s₁, hw, h⟩ := (bind_ok_iff _ _ _).mp h
  obtain ⟨t, ht, h⟩ := (bind_ok_iff _ _ _).mp h
  refine ⟨s₁, t, hw, ht, ?_⟩
  unfold VMA.cut
  dsimp only at h
  by_cases hall : addr = v.addr ∧ length = v.length
  · left
    rw [if_pos hall] at h ⊢
    obtain ⟨s₂, hclose, h⟩ := (bind_ok_iff _ _ _).mp h
    cases h
    exact ⟨rfl, hall.1, rfl, s₂, hclose, rfl⟩
  · right
    rw [if_neg hall] at h ⊢
    by_cases hstart : addr = v.addr
    · left
      rw [if_pos hstart] at h ⊢
      cases h
      exact ⟨rfl, Or.inl hstart, rfl, rfl⟩
    · rw [if_neg hstart] at h ⊢
      by_cases hend : add64 addr length = add64 v.addr v.length
      · left
        rw [if_pos hend] at h ⊢
        cases h
        exact ⟨rfl, Or.inr hend, rfl, rfl⟩
      · right
        rw [if_neg hend] at h ⊢
        cases h
        exact ⟨rfl, not_or.mpr ⟨hstart, hend⟩, rfl, rfl⟩

/-- Where nothing is mapped, writing back a mapping does nothing. -/
theorem writeBack_pages {v : VMA} {s₁ : State n}
    (hw : writeBack s p v (PGROUNDDOWN addr) (PGROUNDUPint length) = .ok s₁)
    (hnone : ∀ k, addr / PGSIZE ≤ k → k < addr / PGSIZE + munmapPages length →
      (s.proc p).table.leaf k = none) : s₁ = s := by
  refine writeBack_unmapped (Nat.mul_mod_left _ _) ?_ hw
  intro hpos
  change (s.proc p).table.leaf (PGROUNDDOWN addr / PGSIZE) = none
  rw [roundDown_div]
  apply hnone _ le_rfl
  have hpages : 0 < munmapPages length := by
    unfold munmapPages
    unfold PGROUNDUPint at hpos ⊢
    unfold PGSIZE at *
    omega
  omega

theorem munmapVma_unmaps (haddr : addr < 2^63)
    (h : munmapVma s p addr length i = .ok (s', b)) : Unmaps s s' p addr length i b := by
  obtain ⟨s₁, t, hw, ht, hcases⟩ := munmapVma_cases rfl h
  have honly := (writeBack_only s p ((s.proc p).vma i) _ _).of_ok hw
  rw [honly.proc] at ht
  have htable := ((uvmunmap_iff haddr).mp ht).2
  have hproc (q : Fin n) (hq : q ≠ p) : (s₁.setTable p t).proc q = s.proc q := by
    simp only [State.setTable, State.setProc, Function.update_of_ne hq, honly.proc]
  have hself : (s₁.setTable p t).proc p = { s.proc p with table := t } := by
    simp only [State.setTable, State.setProc, Function.update_self, honly.proc]
  -- the parts of the result that the branches which set the mapping share
  have hset (u : State n) (v : VMA) (hu : u.proc = (s₁.setTable p t).proc) :
      (((u.setVma p i v).proc p).table = (s.proc p).table.clear (addr / PGSIZE)
        (munmapPages length)) ∧
      ((u.setVma p i v).proc p).vma = Function.update (s.proc p).vma i v ∧
      ∀ q, q ≠ p → (u.setVma p i v).proc q = s.proc q := by
    refine ⟨?_, ?_, ?_⟩
    · rw [← htable]
      simp only [State.setVma, State.setProc, Function.update_self, hu, hself]
    · simp only [State.setVma, State.setProc, Function.update_self, hu, hself]
    · intro q hq
      simp only [State.setVma, State.setProc, Function.update_of_ne hq, hu]
      exact hproc q hq
  rcases hcases with ⟨rfl, hstart, hused', s₂, hclose, rfl⟩ | ⟨rfl, hfit, hkept, rfl⟩ |
    ⟨rfl, hfit, hcut, rfl⟩
  · -- the whole mapping goes, and with it a reference of its file
    obtain ⟨hcp, hcf, hcr, hci⟩ := fileclose_only hclose
    obtain ⟨h1, h2, h3⟩ := hset s₂ _ hcp
    refine ⟨h1, h2, h3, fun f hf => (hcf f hf).trans (honly.files f hf), ?_, ?_,
      ⟨fun _ => Or.inl hstart, fun _ => rfl⟩, fun hb => (by cases hb)⟩
    · intro ip hip
      exact (hci ip (by change (s₁.file _).ip ≠ _; rw [honly.ip]; exact hip)).trans
        (honly.inodes ip hip)
    · intro _
      rw [hused']
      exact hcr.trans (congrArg (· - 1) honly.ref)
  · -- the mapping is cut and keeps its reference
    obtain ⟨h1, h2, h3⟩ := hset (s₁.setTable p t) _ rfl
    refine ⟨h1, h2, h3, honly.files, honly.inodes, ?_, ⟨fun _ => hfit, fun _ => rfl⟩,
      fun hb => (by cases hb)⟩
    intro hused
    rw [hkept, if_pos hused, Nat.sub_zero]
    exact honly.ref
  · -- nothing fits: the pages are gone and the mapping is as it was
    refine ⟨by rw [hself]; exact htable, ?_, hproc, honly.files, honly.inodes, ?_, ?_, ?_⟩
    · rw [hself, hcut, Function.update_eq_self]
    · intro hused
      rw [hcut, if_pos hused, Nat.sub_zero]
      exact honly.ref
    · exact ⟨fun hb => (by cases hb), fun hb => absurd hb hfit⟩
    · intro _ hnone
      rw [clear_unmapped hnone] at htable
      rw [writeBack_pages hw hnone, htable]
      unfold State.setTable State.setProc
      rw [Function.update_eq_self]

/-- A pass of the loop returns exactly when its pages can be removed. -/
theorem munmapVma_ok_iff (hE : Exact s) (haddr : addr < 2^63)
    (hused : ((s.proc p).vma i).used = true) :
    (∃ r, munmapVma s p addr length i = .ok r) ↔ CanUnmap (s.proc p).table addr length := by
  obtain ⟨s₁, hw, hsame⟩ :=
    (writeBack_ok hE hused (PGROUNDDOWN addr) (PGROUNDUPint length)).exists_ok
  unfold munmapVma
  dsimp only
  rw [hw, ok_bind, hsame.proc]
  constructor
  · rintro ⟨r, h⟩
    obtain ⟨t, ht, -⟩ := (bind_ok_iff _ _ _).mp h
    exact ((uvmunmap_iff haddr).mp ht).1
  · intro hcan
    rw [(uvmunmap_iff haddr).mpr ⟨hcan, rfl⟩, ok_bind]
    generalize (s.proc p).table.clear (addr / PGSIZE) (munmapPages length) = t
    split
    · -- the reference that is closed is the one of the mapping
      have hvma : ((s₁.setTable p t).proc p).vma i = (s.proc p).vma i := by
        simp [State.setTable, hsame.proc]
      have h₁ : Exact s₁ := Refs.same hE hsame
      have htake := (h₁.setTable p t).takeVma (p := p) (i := i) (by rw [hvma]; exact hused)
      rw [hvma] at htake
      obtain ⟨s₂, hclose, -⟩ := fileclose_then htake
      rw [hclose]
      exact ⟨_, rfl⟩
    · split
      · exact ⟨_, rfl⟩
      · split
        · exact ⟨_, rfl⟩
        · exact ⟨_, rfl⟩

theorem munmapLoop_skip {is : List (Fin NVMA)} (h : ∀ j ∈ is, ((s.proc p).vma j).hit addr = false) :
    munmapLoop p addr length is s = .ok (s, 0) := by
  induction is with
  | nil => rfl
  | cons j is ih =>
    unfold munmapLoop
    rw [h j List.mem_cons_self, if_neg Bool.false_ne_true]
    exact ih (fun j hj => h j (List.mem_cons_of_mem _ hj))

/-- When one mapping holds `addr`, the loop does one pass for it. -/
theorem munmapLoop_iff {is : List (Fin NVMA)} {r : Nat} (haddr : addr < 2^63) (hnd : is.Nodup)
    (hi : i ∈ is) (hhit : ((s.proc p).vma i).hit addr = true)
    (hothers : ∀ j, j ≠ i → ((s.proc p).vma j).hit addr = false) :
    munmapLoop p addr length is s = .ok (s', r) ↔
      ∃ b, munmapVma s p addr length i = .ok (s', b) ∧ r = if b then 0 else 1 := by
  induction is with
  | nil => cases hi
  | cons j is ih =>
    obtain ⟨hj, hnd⟩ := List.nodup_cons.mp hnd
    unfold munmapLoop
    by_cases hji : j = i
    · subst hji
      rw [if_pos hhit]
      cases hpass : munmapVma s p addr length j with
      | error e =>
        constructor
        · intro h
          cases h
        · rintro ⟨b, h, -⟩
          cases h
      | ok q =>
        obtain ⟨s₁, b⟩ := q
        have hskip : munmapLoop p addr length is s₁ = .ok (s₁, 0) := by
          apply munmapLoop_skip
          intro k hk
          have hkj : k ≠ j := fun he => hj (he ▸ hk)
          simp only [(munmapVma_unmaps haddr hpass).vma, Function.update_of_ne hkj]
          exact hothers k hkj
        rw [ok_bind]
        cases b with
        | false => simp [eq_comm]
        | true => simp [hskip, eq_comm]
    · rw [hothers j hji, if_neg Bool.false_ne_true]
      exact ih hnd ((List.mem_cons.mp hi).resolve_left (Ne.symm hji))

theorem Aligned.hit_iff (hal : Aligned (s.proc p)) (i : Fin NVMA) :
    ((s.proc p).vma i).hit addr = true ↔ ((s.proc p).vma i).covers addr := by
  cases hu : ((s.proc p).vma i).used with
  | false => simp [VMA.hit, VMA.covers, hu]
  | true => exact Mmap.hit_iff (hal.fits i hu) (hal.pos i hu)

theorem sysMunmap_miss (hal : Aligned (s.proc p)) (hnone : ∀ i, ¬((s.proc p).vma i).covers addr) :
    sysMunmap s p addr length = .ok (s, 0) :=
  munmapLoop_skip (fun j _ =>
    Bool.eq_false_iff.mpr (fun hh => hnone j ((hal.hit_iff j).mp hh)))

theorem Aligned.addr_lt (hal : Aligned (s.proc p)) (hi : ((s.proc p).vma i).covers addr) :
    addr < 2^63 := by
  have := hal.fits i hi.1
  have := hi.2.2
  omega

/-- The call is one pass for the one mapping that holds `addr`. -/
theorem sysMunmap_hit {r : Nat} (hal : Aligned (s.proc p)) (hi : ((s.proc p).vma i).covers addr) :
    sysMunmap s p addr length = .ok (s', r) ↔
      ∃ b, munmapVma s p addr length i = .ok (s', b) ∧ r = if b then 0 else 1 := by
  refine munmapLoop_iff (hal.addr_lt hi) (List.nodup_finRange _) (List.mem_finRange i)
    ((hal.hit_iff i).mpr hi) (fun j hj => Bool.eq_false_iff.mpr (fun hh => ?_))
  exact hal.apart i j addr hj.symm hi ((hal.hit_iff j).mp hh)

/-- The call returns exactly when the pages of its range can be removed. -/
theorem sysMunmap_ok_iff (hE : Exact s) (hal : Aligned (s.proc p)) :
    (∃ s' r, sysMunmap s p addr length = .ok (s', r)) ↔
      ∀ i, ((s.proc p).vma i).covers addr → CanUnmap (s.proc p).table addr length := by
  constructor
  · rintro ⟨s', r, h⟩ i hi
    obtain ⟨b, hpass, -⟩ := (sysMunmap_hit hal hi).mp h
    exact (munmapVma_ok_iff hE (hal.addr_lt hi) hi.1).mp ⟨_, hpass⟩
  · intro hcan
    by_cases hany : ∃ i, ((s.proc p).vma i).covers addr
    · obtain ⟨i, hi⟩ := hany
      obtain ⟨⟨s', b⟩, hpass⟩ :=
        (munmapVma_ok_iff hE (hal.addr_lt hi) hi.1).mpr (hcan i hi)
      exact ⟨s', _, (sysMunmap_hit hal hi).mpr ⟨b, hpass, rfl⟩⟩
    · exact ⟨s, 0, sysMunmap_miss hal (fun i hi => hany ⟨i, hi⟩)⟩

/-- The call does nothing, or one pass for the one mapping that holds `addr`. -/
theorem sysMunmap_cases {r : Nat} (hal : Aligned (s.proc p))
    (h : sysMunmap s p addr length = .ok (s', r)) :
    ((∀ i, ¬((s.proc p).vma i).covers addr) ∧ s' = s ∧ r = 0) ∨
    ∃ i b, ((s.proc p).vma i).covers addr ∧ (∀ j, j ≠ i → ¬((s.proc p).vma j).covers addr) ∧
      Unmaps s s' p addr length i b ∧ r = if b then 0 else 1 := by
  by_cases hany : ∃ i, ((s.proc p).vma i).covers addr
  · obtain ⟨i, hi⟩ := hany
    obtain ⟨b, hpass, hr⟩ := (sysMunmap_hit hal hi).mp h
    exact Or.inr ⟨i, b, hi, fun j hj => hal.apart i j addr hj.symm hi,
      munmapVma_unmaps (hal.addr_lt hi) hpass, hr⟩
  · have hnone (i : Fin NVMA) : ¬((s.proc p).vma i).covers addr := fun hi => hany ⟨i, hi⟩
    rw [sysMunmap_miss hal hnone] at h
    cases h
    exact Or.inl ⟨hnone, rfl, rfl⟩

/-- Page `k` lies in the `length` bytes from `addr` on. -/
def PageIn (k addr : Nat) (length : Int) : Prop :=
  (addr : Int) ≤ k * PGSIZE ∧ ((k : Int) + 1) * PGSIZE ≤ addr + length

/-- A call of munmap that touches only what it was asked to and fails cleanly; `r` is its
answer. -/
structure Clean (s s' : State n) (p : Fin n) (addr : Nat) (length : Int) (r : Nat) : Prop where
  pages : ∀ k, (s'.proc p).table.leaf k ≠ (s.proc p).table.leaf k →
    (s'.proc p).table.leaf k = none ∧ ∃ i, ((s.proc p).vma i).covers addr ∧
      PageIn k ((s.proc p).vma i).addr ((s.proc p).vma i).length ∧ PageIn k addr length
  vmas : ∀ j, ¬((s.proc p).vma j).covers addr → (s'.proc p).vma j = (s.proc p).vma j
  procs : ∀ q, q ≠ p → s'.proc q = s.proc q
  files : ∀ f, (∀ i, ((s.proc p).vma i).covers addr → f ≠ ((s.proc p).vma i).mapfile) →
    s'.file f = s.file f
  inodes : ∀ ip, (∀ i, ((s.proc p).vma i).covers addr →
    (s.file ((s.proc p).vma i).mapfile).ip ≠ some ip) → s'.inode ip = s.inode ip
  success : r = 0 → ∀ i, ((s.proc p).vma i).covers addr →
    Shrunk ((s.proc p).vma i) ((s'.proc p).vma i) addr length ∧
    (s'.file ((s.proc p).vma i).mapfile).ref = (s.file ((s.proc p).vma i).mapfile).ref -
      if ((s'.proc p).vma i).used then 0 else 1
  failure : r ≠ 0 → s' = s

/-- The requests that a call which returns handles cleanly. From the start of a mapping on: a part
of it, with no page mapped that is only partly asked for. Up to its end: the same. Any other: no
page mapped where the call would remove one. -/
structure CutRequest (P : Proc) (addr : Nat) (length : Int) : Prop where
  start : ∀ i, (P.vma i).covers addr → addr = (P.vma i).addr →
    0 ≤ length ∧ length ≤ (P.vma i).length ∧
      (length % PGSIZE = 0 ∨ P.table.leaf ((addr + length).toNat / PGSIZE) = none)
  finish : ∀ i, (P.vma i).covers addr → addr ≠ (P.vma i).addr →
    (addr : Int) + length = (P.vma i).addr + (P.vma i).length →
    addr % PGSIZE = 0 ∨ P.table.leaf (addr / PGSIZE) = none
  other : ∀ i, (P.vma i).covers addr → addr ≠ (P.vma i).addr →
    (addr : Int) + length ≠ (P.vma i).addr + (P.vma i).length →
    ∀ k, addr / PGSIZE ≤ k → k < addr / PGSIZE + munmapPages length → P.table.leaf k = none

/-- The requests on which the call returns, as one that is handled cleanly. -/
structure CleanRequest (P : Proc) (addr : Nat) (length : Int) : Prop
    extends CutRequest P addr length where
  unmap : ∀ i, (P.vma i).covers addr → CanUnmap P.table addr length

section Request

variable {P : Proc} (hi : (P.vma i).covers addr) (hone : ∀ j, (P.vma j).covers addr → j = i)
include hi hone

theorem cutRequest_start (hs : addr = (P.vma i).addr) :
    CutRequest P addr length ↔ 0 ≤ length ∧ length ≤ (P.vma i).length ∧
      (length % PGSIZE = 0 ∨ P.table.leaf ((addr + length).toNat / PGSIZE) = none) := by
  refine ⟨fun h => h.start i hi hs, fun h => ⟨?_, ?_, ?_⟩⟩
  · intro j hj _
    rw [hone j hj]
    exact h
  · intro j hj hne
    rw [hone j hj] at hne
    exact absurd hs hne
  · intro j hj hne
    rw [hone j hj] at hne
    exact absurd hs hne

theorem cutRequest_finish (hs : addr ≠ (P.vma i).addr)
    (he : (addr : Int) + length = (P.vma i).addr + (P.vma i).length) :
    CutRequest P addr length ↔ addr % PGSIZE = 0 ∨ P.table.leaf (addr / PGSIZE) = none := by
  refine ⟨fun h => h.finish i hi hs he, fun h => ⟨?_, fun _ _ _ _ => h, ?_⟩⟩
  · intro j hj heq
    rw [hone j hj] at heq
    exact absurd heq hs
  · intro j hj _ hne
    rw [hone j hj] at hne
    exact absurd he hne

theorem cutRequest_other (hs : addr ≠ (P.vma i).addr)
    (he : (addr : Int) + length ≠ (P.vma i).addr + (P.vma i).length) :
    CutRequest P addr length ↔ ∀ k, addr / PGSIZE ≤ k →
      k < addr / PGSIZE + munmapPages length → P.table.leaf k = none := by
  refine ⟨fun h => h.other i hi hs he, fun h => ⟨?_, ?_, fun _ _ _ _ => h⟩⟩
  · intro j hj heq
    rw [hone j hj] at heq
    exact absurd heq hs
  · intro j hj _ heq
    rw [hone j hj] at heq
    exact absurd heq he

end Request

theorem munmapPages_eq (h0 : 0 ≤ length) (h1 : length ≤ 2^31 - PGSIZE) :
    (munmapPages length : Int) = (length + PGSIZE - 1) / PGSIZE := by
  unfold munmapPages
  rw [roundUpInt_div, int32_eq (by unfold PGSIZE at *; omega) (by unfold PGSIZE at *; omega)]
  exact Int.toNat_of_nonneg (Int.ediv_nonneg (by unfold PGSIZE; omega) (by decide))

/-- Whether the call is clean, from what its one pass has done. -/
theorem Unmaps.clean_iff (h : Unmaps s s' p addr length i b) (hi : ((s.proc p).vma i).covers addr)
    (hone : ∀ j, j ≠ i → ¬((s.proc p).vma j).covers addr) :
    Clean s s' p addr length (if b then 0 else 1) ↔
      (∀ k, addr / PGSIZE ≤ k → k < addr / PGSIZE + munmapPages length →
        (s.proc p).table.leaf k ≠ none → b = true ∧
        PageIn k ((s.proc p).vma i).addr ((s.proc p).vma i).length ∧ PageIn k addr length) ∧
      (b = true →
        Shrunk ((s.proc p).vma i) (((s.proc p).vma i).cut addr length) addr length) := by
  have honly (j : Fin NVMA) (hj : ((s.proc p).vma j).covers addr) : j = i := by
    by_contra hne
    exact hone j hne hj
  have hleaf (k : Nat) : (s'.proc p).table.leaf k =
      if addr / PGSIZE ≤ k ∧ k < addr / PGSIZE + munmapPages length then none
      else (s.proc p).table.leaf k := by
    rw [h.table]
    rfl
  have hvma : (s'.proc p).vma i = ((s.proc p).vma i).cut addr length := by
    rw [h.vma, Function.update_self]
  constructor
  · intro hc
    refine ⟨?_, ?_⟩
    · intro k hlo hhi hsome
      have hk : (s'.proc p).table.leaf k = none := by rw [hleaf, if_pos ⟨hlo, hhi⟩]
      have hne : (s'.proc p).table.leaf k ≠ (s.proc p).table.leaf k := by
        rw [hk]
        exact Ne.symm hsome
      obtain ⟨-, j, hj, hin, hin'⟩ := hc.pages k hne
      rw [honly j hj] at hin
      refine ⟨?_, hin, hin'⟩
      cases b with
      | true => rfl
      | false => exact absurd (by rw [hc.failure Nat.one_ne_zero]) hne
    · intro hb
      subst hb
      rw [← hvma]
      exact (hc.success rfl i hi).1
  · rintro ⟨hpages, hshrunk⟩
    refine ⟨?_, ?_, h.procs, fun f hf => h.files f (hf i hi), fun ip hip => h.inodes ip (hip i hi),
      ?_, ?_⟩
    · intro k hne
      by_cases hin : addr / PGSIZE ≤ k ∧ k < addr / PGSIZE + munmapPages length
      · rw [hleaf, if_pos hin] at hne ⊢
        exact ⟨rfl, i, hi, (hpages k hin.1 hin.2 (Ne.symm hne)).2⟩
      · rw [hleaf, if_neg hin] at hne
        exact absurd rfl hne
    · intro j hj
      have hji : j ≠ i := by
        rintro rfl
        exact hj hi
      rw [h.vma, Function.update_of_ne hji]
    · intro hr j hj
      rw [honly j hj, hvma]
      cases b with
      | true => exact ⟨hshrunk rfl, h.ref hi.1⟩
      | false => exact absurd hr Nat.one_ne_zero
    · intro hr
      cases b with
      | true => exact absurd rfl hr
      | false =>
        refine h.failed rfl (fun k hlo hhi => ?_)
        by_contra hsome
        exact Bool.false_ne_true (hpages k hlo hhi hsome).1

/-- Of a range from the start of a mapping on, only the last page can be partly asked for. -/
theorem pages_start (t : Table) {size : Int} (haddr : addr % PGSIZE = 0) (h0 : 0 ≤ length)
    (hle : length ≤ size) (hsize : size % PGSIZE = 0) (hshort : size < 2^31) :
    (∀ k, addr / PGSIZE ≤ k → k < addr / PGSIZE + munmapPages length → t.leaf k ≠ none →
      PageIn k addr size ∧ PageIn k addr length) ↔
      length % PGSIZE = 0 ∨ t.leaf ((addr + length).toNat / PGSIZE) = none := by
  have hm := munmapPages_eq h0 (by unfold PGSIZE at *; omega)
  unfold PageIn
  generalize munmapPages length = m at hm
  unfold PGSIZE at *
  constructor
  · intro hpages
    by_cases hpart : length % 4096 = 0
    · exact Or.inl (by omega)
    · right
      by_contra hsome
      have hin := (hpages _ (by omega) (by omega) hsome).2.2
      omega
  · intro hlast k hlo hhi hsome
    have hlast' : (length : Int) % 4096 = 0 ∨ k ≠ (addr + length).toNat / 4096 := by
      rcases hlast with h | h
      · exact Or.inl (by omega)
      · right
        rintro rfl
        exact hsome h
    omega

/-- Of a range up to the end of a mapping, only the first page can be partly asked for. -/
theorem pages_end (t : Table) {base : Nat} {size : Int} (hbase : base % PGSIZE = 0)
    (hsize : size % PGSIZE = 0) (hshort : size < 2^31) (hlo : base ≤ addr) (hpos : 0 < length)
    (hend : (addr : Int) + length = base + size) :
    (∀ k, addr / PGSIZE ≤ k → k < addr / PGSIZE + munmapPages length → t.leaf k ≠ none →
      PageIn k base size ∧ PageIn k addr length) ↔
      addr % PGSIZE = 0 ∨ t.leaf (addr / PGSIZE) = none := by
  have hm : (munmapPages length : Int) = (length + PGSIZE - 1) / PGSIZE :=
    munmapPages_eq (by omega) (by unfold PGSIZE at *; omega)
  unfold PageIn
  generalize munmapPages length = m at hm
  unfold PGSIZE at *
  constructor
  · intro hpages
    by_cases hpart : addr % 4096 = 0
    · exact Or.inl hpart
    · right
      by_contra hsome
      have hin := (hpages _ le_rfl (by omega) hsome).2.1
      omega
  · intro hfirst k hk hhi hsome
    have hfirst' : addr % 4096 = 0 ∨ k ≠ addr / 4096 := by
      rcases hfirst with h | h
      · exact Or.inl h
      · right
        rintro rfl
        exact hsome h
    omega

theorem clean_iff_cutRequest {r : Nat} (hal : Aligned (s.proc p))
    (hlen : -2^31 ≤ length ∧ length < 2^31) (h : sysMunmap s p addr length = .ok (s', r)) :
    Clean s s' p addr length r ↔ CutRequest (s.proc p) addr length := by
  rcases sysMunmap_cases hal h with ⟨hnone, rfl, rfl⟩ | ⟨i, b, hi, hone, hun, rfl⟩
  · refine ⟨fun _ => ⟨fun i hi => absurd hi (hnone i), fun i hi => absurd hi (hnone i),
      fun i hi => absurd hi (hnone i)⟩, fun _ => ⟨fun _ hne => absurd rfl hne, fun _ _ => rfl,
      fun _ _ => rfl, fun _ _ => rfl, fun _ _ => rfl, fun _ i hi => absurd hi (hnone i),
      fun hr => absurd rfl hr⟩⟩
  · have honly (j : Fin NVMA) (hj : ((s.proc p).vma j).covers addr) : j = i := by
      by_contra hne
      exact hone j hne hj
    rw [hun.clean_iff hi hone]
    have hstart := hal.start i hi.1
    have hsize := hal.size i hi.1
    have hshort := hal.short i hi.1
    have hfits := hal.fits i hi.1
    have hlo := hi.2.1
    have hhi := hi.2.2
    have hpos : 0 < ((s.proc p).vma i).length := by omega
    have hsuffix := suffix_iff hfits hpos hi hlen
    have hanswer := hun.answer
    by_cases hs : addr = ((s.proc p).vma i).addr
    · have hb : b = true := hanswer.mpr (Or.inl hs)
      have hcut := cut_start hi.1 hpos hshort hfits hlen
      rw [← hs] at hcut hstart
      have hpages (h0 : 0 ≤ length) (hle : length ≤ ((s.proc p).vma i).length) :=
        pages_start (s.proc p).table hstart h0 hle hsize hshort
      rw [cutRequest_start hi honly hs]
      constructor
      · rintro ⟨hp, hshrunk⟩
        obtain ⟨h0, hle⟩ := hcut.mp (hshrunk hb)
        refine ⟨h0, hle, (hpages h0 hle).mp (fun k hk hk' hsome => ?_)⟩
        have hin := (hp k hk hk' hsome).2
        rwa [← hs] at hin
      · rintro ⟨h0, hle, hlast⟩
        refine ⟨fun k hk hk' hsome => ⟨hb, ?_⟩, fun _ => hcut.mpr ⟨h0, hle⟩⟩
        rw [← hs]
        exact (hpages h0 hle).mpr hlast k hk hk' hsome
    · by_cases he : (addr : Int) + length = ((s.proc p).vma i).addr + ((s.proc p).vma i).length
      · have hb : b = true := hanswer.mpr (Or.inr (hsuffix.mpr he))
        have hpages := pages_end (s.proc p).table hstart hsize hshort (by omega) (by omega) he
        rw [cutRequest_finish hi honly hs he]
        constructor
        · rintro ⟨hp, -⟩
          exact hpages.mp (fun k hk hk' hsome => (hp k hk hk' hsome).2)
        · intro hreq
          exact ⟨fun k hk hk' hsome => ⟨hb, hpages.mpr hreq k hk hk' hsome⟩,
            fun _ => cut_end hi.1 hfits hpos hshort hi hs he⟩
      · have hb : b = false := by
          rw [Bool.eq_false_iff]
          intro hb
          rcases hanswer.mp hb with h | h
          · exact hs h
          · exact he (hsuffix.mp h)
        rw [cutRequest_other hi honly hs he]
        constructor
        · rintro ⟨hp, -⟩ k hk hk'
          by_contra hsome
          have := (hp k hk hk' hsome).1
          rw [hb] at this
          cases this
        · intro hreq
          refine ⟨fun k hk hk' hsome => absurd (hreq k hk hk') hsome, fun hb' => ?_⟩
          rw [hb] at hb'
          cases hb'

/-- sys_munmap returns, touches only what it was asked to and fails cleanly, exactly on these
requests. -/
theorem munmap_clean_iff (hE : Exact s) (hal : Aligned (s.proc p))
    (hlen : -2^31 ≤ length ∧ length < 2^31) :
    (∃ s' r, sysMunmap s p addr length = .ok (s', r) ∧ Clean s s' p addr length r) ↔
      CleanRequest (s.proc p) addr length := by
  constructor
  · rintro ⟨s', r, h, hclean⟩
    exact ⟨(clean_iff_cutRequest hal hlen h).mp hclean,
      (sysMunmap_ok_iff hE hal).mp ⟨s', r, h⟩⟩
  · intro hreq
    obtain ⟨s', r, h⟩ := (sysMunmap_ok_iff hE hal).mpr hreq.unmap
    exact ⟨s', r, h, (clean_iff_cutRequest hal hlen h).mpr hreq.toCutRequest⟩

end Call

/-- A process with one private read-only mapping of three pages, all of them touched. -/
def threePages : State 1 where
  proc _ := {
    state := .running
    sz := 28672
    table := ⟨fun _ => true, fun _ => true, fun k =>
      if 4 ≤ k ∧ k < 7 then some ⟨true, false, false, true, true, fun _ => 0⟩ else none⟩
    vma := fun i => if i = 0 then ⟨true, 16384, 12288, PROT_READ, MAP_PRIVATE, 0, 0, 0⟩
      else ⟨false, 0, 0, 0, 0, 0, 0, 0⟩
    ofile := fun _ => none
    cwd := 1
    given := fun _ => false
    image := 0 }
  file f := if f = 0 then ⟨.inode, 1, true, false, some 5, 0⟩
    else ⟨.none, 0, false, false, none, 0⟩
  inode ip := ⟨if ip = 1 ∨ ip = 5 then 1 else 0, 1, 12288, fun _ => 0⟩
  mem _ := true

theorem threePages_exact : Exact threePages := by
  refine ⟨by decide +kernel, by decide, by decide +kernel, by decide, ?_, ?_⟩
  · intro ip
    have hfiles : (fun f => (threePages.file f).inodes) =
        Function.update (fun _ => []) 0 [5] := by
      funext f
      by_cases hf : f = 0
      · subst hf
        rfl
      · simp [threePages, hf, File.inodes]
    have htally := tally_update (fun _ : FileId => ([] : List Nat)) 0 [5] ip
    have hnil : tally (fun _ : FileId => ([] : List Nat)) ip = 0 := by simp [tally]
    have hdirs : tally (fun p => (threePages.proc p).dirs) ip = [1].count ip := by
      simp [tally, threePages, Proc.dirs]
    rw [hnil, List.count_nil, List.count_singleton] at htally
    unfold inodeHolders
    rw [hfiles, hdirs, List.count_singleton, List.count_nil]
    change (if ip = 1 ∨ ip = 5 then 1 else 0) = _
    simp only [beq_iff_eq] at htally ⊢
    split at htally <;> split <;> split <;> omega
  · intro p hp
    exact absurd rfl hp

theorem threePages_used (i : Fin NVMA) (h : ((threePages.proc 0).vma i).used = true) : i = 0 := by
  by_contra hne
  simp [threePages, hne] at h

theorem threePages_aligned : Aligned (threePages.proc 0) := by
  refine ⟨?_, ?_, ?_, ?_, ?_, ?_⟩
  · intro i h
    rw [threePages_used i h]
    rfl
  · intro i h
    rw [threePages_used i h]
    rfl
  · intro i h
    rw [threePages_used i h]
    decide
  · intro i h
    rw [threePages_used i h]
    decide
  · intro i h
    rw [threePages_used i h]
    decide
  · intro i j x hne hi hj
    exact hne ((threePages_used i hi.1).trans (threePages_used j hj.1).symm)

/-- The first page of the mapping is taken away cleanly, the page in the middle is not. -/
theorem munmap_clean_iff_threePages :
    (∃ s', sysMunmap threePages 0 16384 4096 = .ok (s', 0) ∧
      Clean threePages s' 0 16384 4096 0) ∧
    ¬∃ s' r, sysMunmap threePages 0 20480 4096 = .ok (s', r) ∧
      Clean threePages s' 0 20480 4096 r := by
  have hpages : munmapPages 4096 = 1 := by decide
  constructor
  · have hreq : CleanRequest (threePages.proc 0) 16384 4096 := by
      refine ⟨⟨?_, ?_, ?_⟩, ?_⟩
      · intro i hi _
        rw [threePages_used i hi.1]
        decide
      · intro i hi hne
        rw [threePages_used i hi.1] at hne
        exact absurd rfl hne
      · intro i hi hne
        rw [threePages_used i hi.1] at hne
        exact absurd rfl hne
      · intro i _
        refine ⟨by decide, ?_⟩
        intro k hlo hhi
        rw [hpages] at hhi
        obtain rfl : k = 4 := by
          unfold PGSIZE at hlo hhi
          omega
        refine ⟨by decide, rfl, rfl, ?_⟩
        rintro e he
        cases he
        exact ⟨rfl, rfl⟩
    obtain ⟨s', r, hs, hclean⟩ :=
      (munmap_clean_iff threePages_exact threePages_aligned (by decide)).mpr hreq
    cases hs
    exact ⟨_, rfl, hclean⟩
  · intro hclean
    have hreq := (munmap_clean_iff threePages_exact threePages_aligned (by decide)).mp hclean
    have hnone := hreq.other 0 ⟨rfl, by decide, by decide⟩ (by decide) (by decide) 5 (by decide)
      (by decide)
    cases hnone

/-- munmap of the page in the middle reports a failure, and the page is gone. -/
theorem middle_page_lost :
    ∃ s', Exact threePages ∧ Aligned (threePages.proc 0) ∧
      sysMunmap threePages 0 20480 4096 = .ok (s', 1) ∧
      (s'.proc 0).table.leaf 5 = none ∧ ¬Clean threePages s' 0 20480 4096 1 := by
  refine ⟨_, threePages_exact, threePages_aligned, rfl, rfl, ?_⟩
  intro h
  have hsame := congrArg (fun s : State 1 => ((s.proc 0).table.leaf 5).isSome)
    (h.failure Nat.one_ne_zero)
  exact Bool.false_ne_true hsame

end Xv6Labs.Mmap
