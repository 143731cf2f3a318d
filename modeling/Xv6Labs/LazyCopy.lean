import Xv6Labs.LazyRefine

/-! copyout, copyin and copyinstr over memory with gaps. Only the first page of a copyout or a
copyin is allocated on the way, and no page of a copyinstr. -/
namespace Xv6Labs.Lazy

open Mmap (PGSIZE MAXVA TRAMPOLINE TRAPFRAME PGROUNDDOWN Panic PTE Table Mem walkaddr walkaddr_eq
  walkaddr_none userPTE zeroPage emptyTable plenty roundDown_div roundDown_le lt_roundDown_add)

section Ranges

variable {va len k : Nat}

/-- Page `k` has an address of the range `[va, va + len)`. -/
def PageOf (va len k : Nat) : Prop := ∃ a, va ≤ a ∧ a < va + len ∧ a / PGSIZE = k

theorem pageOf_iff (hlen : 0 < len) :
    PageOf va len k ↔ va / PGSIZE ≤ k ∧ k * PGSIZE < va + len := by
  constructor
  · rintro ⟨a, ha, ha', rfl⟩
    have := Nat.div_mul_le_self a PGSIZE
    exact ⟨Nat.div_le_div_right ha, by omega⟩
  · rintro ⟨hlo, hhi⟩
    by_cases hk : k * PGSIZE ≤ va
    · refine ⟨va, Nat.le_refl va, by omega, ?_⟩
      unfold PGSIZE at *
      omega
    · exact ⟨k * PGSIZE, by omega, hhi, Mmap.page_div k⟩

theorem pageOf_first (hlen : 0 < len) : PageOf va len (va / PGSIZE) :=
  ⟨va, Nat.le_refl va, by omega, rfl⟩

theorem chunk_pos (va : Nat) (hlen : 0 < len) : 0 < chunk va len := by
  have := lt_roundDown_add va
  have := roundDown_le va
  unfold chunk
  omega

/-- A round that does not end the copy goes up to the end of the page. -/
theorem chunk_next (h : chunk va len < len) : PGROUNDDOWN va + PGSIZE = va + chunk va len := by
  have := lt_roundDown_add va
  have := roundDown_le va
  unfold chunk at h ⊢
  omega

/-- The pages of the range are its first page and those that the rounds after the first see. -/
theorem pageOf_cases (hlen : 0 < len) : PageOf va len k ↔ k = va / PGSIZE ∨
    PageOf (PGROUNDDOWN va + PGSIZE) (len - chunk va len) k := by
  have hdown : PGROUNDDOWN va = va / PGSIZE * PGSIZE := rfl
  by_cases hend : chunk va len < len
  · have hnext := chunk_next hend
    rw [pageOf_iff hlen, pageOf_iff (by omega), hnext, Nat.add_assoc,
      Nat.add_sub_cancel' (by omega),
      ← hnext, hdown]
    have hdiv : (va / PGSIZE * PGSIZE + PGSIZE) / PGSIZE = va / PGSIZE + 1 := by
      rw [← Nat.succ_mul, Mmap.page_div]
    rw [hdiv]
    have := Nat.div_mul_le_self va PGSIZE
    constructor
    · intro h
      omega
    · rintro (rfl | h)
      · omega
      · omega
  · have hall : len - chunk va len = 0 := by omega
    have hfit : len ≤ PGSIZE - (va - PGROUNDDOWN va) := by
      unfold chunk at hend
      omega
    rw [hall]
    constructor
    · rintro ⟨a, ha, ha', rfl⟩
      left
      have := lt_roundDown_add va
      rw [hdown] at hfit this
      unfold PGSIZE at *
      omega
    · rintro (rfl | ⟨a, ha, ha', -⟩)
      · exact pageOf_first hlen
      · omega

/-- No round comes back to the first page. -/
theorem pageOf_next_ne (h : PageOf (PGROUNDDOWN va + PGSIZE) len k) : k ≠ va / PGSIZE := by
  obtain ⟨a, ha, -, rfl⟩ := h
  have hdown : PGROUNDDOWN va = va / PGSIZE * PGSIZE := rfl
  rw [hdown] at ha
  unfold PGSIZE at *
  omega

theorem next_top {top : Nat} (htop : va + len ≤ top) (hmore : 0 < len - chunk va len) :
    PGROUNDDOWN va + PGSIZE + (len - chunk va len) ≤ top := by
  have hchunk : chunk va len < len := by omega
  rw [chunk_next hchunk]
  omega

end Ranges

section Loops

variable {t t' : Table} {sz va : Nat}

theorem walkaddr_page (hR : t.Rooted) (hva : va < MAXVA) :
    walkaddr t (PGROUNDDOWN va) = (t.leaf (va / PGSIZE)).filter (fun e => e.u) := by
  have := roundDown_le va
  rw [walkaddr_eq hR (by omega), roundDown_div]

theorem walkaddr_user (hR : t.Rooted) (hva : va < MAXVA) {e : PTE}
    (he : t.leaf (va / PGSIZE) = some e) (hu : e.u = true) :
    walkaddr t (PGROUNDDOWN va) = some e := by
  rw [walkaddr_page hR hva, he, Option.filter_some_pos hu]

theorem walkaddr_mapped (hR : t.Rooted) (hva : va < MAXVA) {e : PTE}
    (he : walkaddr t (PGROUNDDOWN va) = some e) : t.leaf (va / PGSIZE) = some e := by
  rw [walkaddr_page hR hva] at he
  exact (Option.filter_eq_some_iff.mp he).1

/-- Where every page is there, copyout does the same to both tables. -/
theorem copyoutLoop_filled (rounds : Nat) (src : List UInt8) (hR : t.Rooted) (hR' : t'.Rooted)
    (hleaf : t'.leaf = filled sz t.leaf) (hlen : src.length ≤ rounds)
    (htop : va + src.length ≤ MAXVA)
    (hmap : ∀ k, PageOf va src.length k → ∃ e, t.leaf k = some e ∧ e.u = true) :
    (copyoutLoop rounds t va src).2 = true ∧ (copyoutLoop rounds t' va src).2 = true ∧
      (copyoutLoop rounds t' va src).1.leaf = filled sz (copyoutLoop rounds t va src).1.leaf := by
  induction rounds generalizing t t' va src with
  | zero =>
    have : src = [] := List.length_eq_zero_iff.mp (by omega)
    subst this
    exact ⟨rfl, rfl, hleaf⟩
  | succ rounds ih =>
    by_cases hsrc : src = []
    · subst hsrc
      exact ⟨rfl, rfl, hleaf⟩
    have hpos : 0 < src.length := List.length_pos_iff.mpr hsrc
    have hempty : src.isEmpty = false := by simpa using hsrc
    have hva : va < MAXVA := by omega
    obtain ⟨e, he, hu⟩ := hmap _ (pageOf_first hpos)
    have he' : t'.leaf (va / PGSIZE) = some e := by
      rw [hleaf]
      exact filled_some he
    simp only [copyoutLoop, hempty, Bool.false_eq_true, if_false, walkaddr_user hR hva he hu,
      walkaddr_user hR' hva he' hu, roundDown_div]
    have hdrop : (src.drop (chunk va src.length)).length = src.length - chunk va src.length :=
      List.length_drop
    have hchunk := chunk_pos va hpos
    by_cases hmore : 0 < src.length - chunk va src.length
    · apply ih _ (hR.set_some he _) (hR'.set_some he' _)
      · simp only [Table.set, hleaf, filled_update]
      · omega
      · rw [hdrop]
        exact next_top htop hmore
      · intro k hk
        rw [hdrop] at hk
        obtain ⟨f, hf, hfu⟩ := hmap k ((pageOf_cases hpos).mpr (Or.inr hk))
        refine ⟨f, ?_, hfu⟩
        simp only [Table.set, Function.update_of_ne (pageOf_next_ne hk)]
        exact hf
    · -- the last round
      have hnil : src.drop (chunk va src.length) = [] :=
        List.length_eq_zero_iff.mp (by omega)
      rw [hnil]
      have hdone (u : Table) (a : Nat) : copyoutLoop rounds u a [] = (u, true) := by
        cases rounds <;> rfl
      simp only [hdone, Table.set, hleaf, filled_update, and_self]

/-- copyout stops at a gap. -/
theorem copyoutLoop_mapped (rounds : Nat) (src : List UInt8) (hR : t.Rooted)
    (hlen : src.length ≤ rounds) (htop : va + src.length ≤ MAXVA)
    (hok : (copyoutLoop rounds t va src).2 = true) {k : Nat} (hk : PageOf va src.length k) :
    t.leaf k ≠ none := by
  induction rounds generalizing t va src with
  | zero =>
    obtain ⟨a, ha, ha', -⟩ := hk
    omega
  | succ rounds ih =>
    have hpos : 0 < src.length := by
      obtain ⟨a, ha, ha', -⟩ := hk
      omega
    have hempty : src.isEmpty = false := by
      simpa using List.length_pos_iff.mp hpos
    have hva : va < MAXVA := by omega
    simp only [copyoutLoop, hempty, Bool.false_eq_true, if_false, roundDown_div] at hok
    cases hw : walkaddr t (PGROUNDDOWN va) with
    | none =>
      rw [hw] at hok
      cases hok
    | some e =>
      rw [hw] at hok
      have he := walkaddr_mapped hR hva hw
      have hdrop : (src.drop (chunk va src.length)).length = src.length - chunk va src.length :=
        List.length_drop
      have hchunk := chunk_pos va hpos
      rcases (pageOf_cases hpos).mp hk with rfl | hnext
      · rw [he]
        exact Option.some_ne_none e
      · have hmore : 0 < src.length - chunk va src.length := by
          obtain ⟨a, ha, ha', -⟩ := hnext
          omega
        have hrest := ih _ (hR.set_some he _) (by omega)
          (by rw [hdrop]; exact next_top htop hmore) hok (by rw [hdrop]; exact hnext)
        simpa only [Table.set, Function.update_of_ne (pageOf_next_ne hnext)] using hrest

/-- Where every page is there, copyin moves the same bytes from both tables. -/
theorem copyinLoop_filled (rounds len : Nat) (hR : t.Rooted) (hR' : t'.Rooted)
    (hleaf : t'.leaf = filled sz t.leaf) (hlen : len ≤ rounds) (htop : va + len ≤ MAXVA)
    (hmap : ∀ k, PageOf va len k → ∃ e, t.leaf k = some e ∧ e.u = true) :
    (copyinLoop rounds t va len).2 = true ∧
      copyinLoop rounds t' va len = copyinLoop rounds t va len := by
  induction rounds generalizing va len with
  | zero =>
    have : len = 0 := by omega
    subst this
    exact ⟨rfl, rfl⟩
  | succ rounds ih =>
    by_cases hzero : len = 0
    · subst hzero
      exact ⟨rfl, rfl⟩
    have hpos : 0 < len := by omega
    have hva : va < MAXVA := by omega
    obtain ⟨e, he, hu⟩ := hmap _ (pageOf_first hpos)
    have he' : t'.leaf (va / PGSIZE) = some e := by
      rw [hleaf]
      exact filled_some he
    have hbeq : (len == 0) = false := by simpa using hzero
    simp only [copyinLoop, hbeq, Bool.false_eq_true, if_false, walkaddr_user hR hva he hu,
      walkaddr_user hR' hva he' hu]
    have hchunk := chunk_pos va hpos
    by_cases hmore : 0 < len - chunk va len
    · obtain ⟨hok, heq⟩ := ih (len - chunk va len) (by omega) (next_top htop hmore)
        (fun k hk => hmap k ((pageOf_cases hpos).mpr (Or.inr hk)))
      exact ⟨hok, by rw [heq]⟩
    · rw [Nat.eq_zero_of_not_pos hmore]
      have hdone (u : Table) (a : Nat) : copyinLoop rounds u a 0 = ([], true) := by
        cases rounds <;> rfl
      simp only [hdone, and_self]

theorem copyinLoop_mapped (rounds len : Nat) (hR : t.Rooted) (hlen : len ≤ rounds)
    (htop : va + len ≤ MAXVA) (hok : (copyinLoop rounds t va len).2 = true) {k : Nat}
    (hk : PageOf va len k) : t.leaf k ≠ none := by
  induction rounds generalizing va len with
  | zero =>
    obtain ⟨a, ha, ha', -⟩ := hk
    omega
  | succ rounds ih =>
    have hpos : 0 < len := by
      obtain ⟨a, ha, ha', -⟩ := hk
      omega
    have hbeq : (len == 0) = false := by simpa using Nat.ne_of_gt hpos
    have hva : va < MAXVA := by omega
    simp only [copyinLoop, hbeq, Bool.false_eq_true, if_false] at hok
    cases hw : walkaddr t (PGROUNDDOWN va) with
    | none =>
      rw [hw] at hok
      cases hok
    | some e =>
      rw [hw] at hok
      have hchunk := chunk_pos va hpos
      rcases (pageOf_cases hpos).mp hk with rfl | hnext
      · rw [walkaddr_mapped hR hva hw]
        exact Option.some_ne_none e
      · have hmore : 0 < len - chunk va len := by
          obtain ⟨a, ha, ha', -⟩ := hnext
          omega
        exact ih _ (by omega) (next_top htop hmore) hok hnext

end Loops

section Strings

variable {t t' : Table} {sz va max : Nat}

theorem upToNull_snd (l : List UInt8) : (upToNull l).2 = true ↔ 0 ∈ l := by
  induction l with
  | nil => simp [upToNull]
  | cons b bs ih =>
    by_cases hb : b = 0
    · simp [upToNull, hb]
    · have hb' : (b == 0) = false := by simpa using hb
      simp only [upToNull, hb', Bool.false_eq_true, if_false, List.mem_cons]
      rw [ih]
      constructor
      · exact Or.inr
      · rintro (h | h)
        · exact absurd h.symm hb
        · exact h

/-- Some address of the round's part of the page has a NUL. -/
theorem null_mem_chunk (page : Nat → UInt8) :
    0 ∈ pageBytes page (va - PGROUNDDOWN va) (chunk va max) ↔
      ∃ a, va ≤ a ∧ a < va + chunk va max ∧ a / PGSIZE = va / PGSIZE ∧ page (a % PGSIZE) = 0 := by
  have hdown : PGROUNDDOWN va = va / PGSIZE * PGSIZE := rfl
  have hlt := lt_roundDown_add va
  have hchunk : chunk va max ≤ PGSIZE - (va - PGROUNDDOWN va) := Nat.min_le_left _ _
  simp only [pageBytes, List.mem_map, List.mem_range]
  constructor
  · rintro ⟨i, hi, hnull⟩
    have hdiv : (va + i) / PGSIZE = va / PGSIZE := by
      rw [hdown] at hchunk hlt
      unfold PGSIZE at *
      omega
    have hmod : (va + i) % PGSIZE = va - PGROUNDDOWN va + i := by
      rw [hdown] at hchunk hlt ⊢
      unfold PGSIZE at *
      omega
    exact ⟨va + i, by omega, by omega, hdiv, by rw [hmod]; exact hnull⟩
  · rintro ⟨a, ha, ha', hdiv, hnull⟩
    refine ⟨a - va, by omega, ?_⟩
    have hmod : va - PGROUNDDOWN va + (a - va) = a % PGSIZE := by
      rw [hdown] at hlt ⊢
      unfold PGSIZE at *
      omega
    rw [hmod]
    exact hnull

/-- Before every gap of the range there is a NUL. -/
def NullFirst (t : Table) (va max : Nat) : Prop :=
  ∀ k, PageOf va max k → t.leaf k = none →
    ∃ a e, va ≤ a ∧ a < k * PGSIZE ∧ t.leaf (a / PGSIZE) = some e ∧ e.page (a % PGSIZE) = 0

/-- When the first round finds no NUL it is the rest of the range that decides. -/
theorem nullFirst_next (hpos : 0 < max) {e : PTE} (he : t.leaf (va / PGSIZE) = some e)
    (hno : ¬∃ a, va ≤ a ∧ a < va + chunk va max ∧ a / PGSIZE = va / PGSIZE ∧
      e.page (a % PGSIZE) = 0) :
    NullFirst t (PGROUNDDOWN va + PGSIZE) (max - chunk va max) ↔ NullFirst t va max := by
  have hlt := lt_roundDown_add va
  constructor
  · intro h k hk hgap
    rcases (pageOf_cases hpos).mp hk with rfl | hnext
    · simp [he] at hgap
    · obtain ⟨a, f, ha, hrest⟩ := h k hnext hgap
      exact ⟨a, f, by omega, hrest⟩
  · intro h k hk hgap
    obtain ⟨a, f, ha, hak, hf, hnull⟩ := h k ((pageOf_cases hpos).mpr (Or.inr hk)) hgap
    refine ⟨a, f, ?_, hak, hf, hnull⟩
    by_contra hbefore
    have hmore : chunk va max < max := by
      obtain ⟨b, hb, hb', -⟩ := hk
      omega
    have hnext := chunk_next hmore
    have hdiv : a / PGSIZE = va / PGSIZE := by
      have hdown : PGROUNDDOWN va = va / PGSIZE * PGSIZE := rfl
      rw [hdown] at hbefore
      unfold PGSIZE at *
      omega
    rw [hdiv, he] at hf
    cases hf
    exact hno ⟨a, ha, by omega, hdiv, hnull⟩

/-- copyinstr over the gaps agrees with copyinstr over zeroed pages when no gap is reached. -/
theorem copyinstrLoop_same_iff (rounds : Nat) (hR : t.Rooted) (hR' : t'.Rooted)
    (hleaf : t'.leaf = filled sz t.leaf) (hlen : max ≤ rounds) (htop : va + max ≤ sz)
    (hsz : sz ≤ MAXVA)
    (hguard : ∀ k e, PageOf va max k → t.leaf k = some e → e.u = true) :
    copyinstrLoop rounds t va max = copyinstrLoop rounds t' va max ↔ NullFirst t va max := by
  have hvoid (a : Nat) : NullFirst t a 0 := by
    rintro k ⟨b, hb, hb', -⟩
    omega
  have hnone (r : Nat) (u : Table) (a : Nat) : copyinstrLoop r u a 0 = ([], false) := by
    cases r <;> rfl
  induction rounds generalizing va max with
  | zero =>
    have : max = 0 := by omega
    subst this
    simp only [hnone, true_iff]
    exact hvoid va
  | succ rounds ih =>
    by_cases hzero : max = 0
    · subst hzero
      simp only [hnone, true_iff]
      exact hvoid va
    have hpos : 0 < max := by omega
    have hva : va < MAXVA := by omega
    have hbeq : (max == 0) = false := by simpa using hzero
    have hchunk := chunk_pos va hpos
    have hdown := roundDown_le va
    cases he : t.leaf (va / PGSIZE) with
    | none =>
      -- the lazy kernel fails at once; the eager one finds the NUL of a zeroed page
      have he' : t'.leaf (va / PGSIZE) = some userPTE := by
        rw [hleaf]
        exact filled_gap he (show PGROUNDDOWN va < sz by omega)
      have hnull : (upToNull (pageBytes userPTE.page (va - PGROUNDDOWN va) (chunk va max))).2 =
          true := by
        rw [upToNull_snd, null_mem_chunk]
        exact ⟨va, Nat.le_refl va, by omega, rfl, rfl⟩
      have hw : walkaddr t (PGROUNDDOWN va) = none := by
        rw [walkaddr_page hR hva, he]
        rfl
      simp only [copyinstrLoop, hbeq, Bool.false_eq_true, if_false, hw,
        walkaddr_user hR' hva he' rfl, hnull, if_true]
      constructor
      · intro heq
        rw [← heq] at hnull
        cases hnull
      · intro h
        obtain ⟨a, f, ha, ha', -⟩ := h _ (pageOf_first hpos) he
        have : va / PGSIZE * PGSIZE ≤ va := Nat.div_mul_le_self va PGSIZE
        omega
    | some e =>
      have he' : t'.leaf (va / PGSIZE) = some e := by
        rw [hleaf]
        exact filled_some he
      have hu := hguard _ e (pageOf_first hpos) he
      simp only [copyinstrLoop, hbeq, Bool.false_eq_true, if_false, walkaddr_user hR hva he hu,
        walkaddr_user hR' hva he' hu]
      by_cases hnull : (upToNull (pageBytes e.page (va - PGROUNDDOWN va) (chunk va max))).2 = true
      · simp only [hnull, if_true, true_iff]
        rw [upToNull_snd, null_mem_chunk] at hnull
        obtain ⟨a, ha, -, hdiv, hzero⟩ := hnull
        intro k hk hgap
        rcases (pageOf_cases hpos).mp hk with rfl | hnext
        · simp [he] at hgap
        · refine ⟨a, e, ha, ?_, by rw [hdiv]; exact he, hzero⟩
          obtain ⟨b, hb, -, rfl⟩ := hnext
          have hround : PGROUNDDOWN va = va / PGSIZE * PGSIZE := rfl
          rw [hround] at hb
          unfold PGSIZE at *
          omega
      · simp only [hnull, Bool.false_eq_true, if_false]
        rw [upToNull_snd, null_mem_chunk] at hnull
        rw [Prod.mk.injEq, List.append_cancel_left_eq, ← Prod.ext_iff,
          ← nullFirst_next hpos he hnull]
        by_cases hmore : 0 < max - chunk va max
        · exact ih (by omega) (next_top htop hmore)
            (fun k f hk => hguard k f ((pageOf_cases hpos).mpr (Or.inr hk)))
        · rw [Nat.eq_zero_of_not_pos hmore]
          simp only [hnone, true_iff]
          exact hvoid _

end Strings

section Calls

variable {P : Proc} {p sp va : Nat}

/-- A process of the lazy kernel between system calls. -/
structure WellFormed (P : Proc) : Prop where
  below : P.sz ≤ TRAPFRAME
  rooted : P.table.Rooted
  fits : Fits P.sz P.table.leaf

/-- The process with every page below its size allocated and zeroed. -/
def eager (P : Proc) : Proc :=
  { P with table := ⟨fun _ => true, fun _ => true, filled P.sz P.table.leaf⟩ }

theorem eager_rooted (P : Proc) : (eager P).table.Rooted := fun _ _ _ => ⟨rfl, rfl⟩

/-- copyout and copyin allocate the page of their first byte, and that shows to no one. -/
theorem lazyTouch_first (hP : WellFormed P) (hsp : OnKstack p sp) (va : Nat) :
    ∃ t, lazyTouch plenty P sp va = .ok (plenty, { P with table := t }) ∧ t.Rooted ∧
      filled P.sz t.leaf = filled P.sz P.table.leaf ∧
      (∀ k, k ≠ va / PGSIZE → t.leaf k = P.table.leaf k) ∧
      (va < P.sz → t.leaf (va / PGSIZE) = filled P.sz P.table.leaf (va / PGSIZE)) := by
  have hbelow := hP.below
  have hframe : TRAPFRAME + 2 * PGSIZE = MAXVA := by decide
  have hdown := roundDown_le va
  have hcheck := uvmlazycheck_eq hP.rooted (onKstack_ne hsp va) (fun hlt => by omega)
  unfold lazyTouch
  rw [hcheck]
  by_cases hgap : PGROUNDDOWN va < P.sz ∧ P.table.leaf (va / PGSIZE) = none
  · have hva : va < MAXVA := by
      have := lt_roundDown_add va
      omega
    obtain ⟨t, halloc, hR, ht⟩ := uvmlazyalloc_gap hP.rooted hva hgap.2
    refine ⟨t, ?_, hR, ?_, ?_, ?_⟩
    · simpa [hgap.1, hgap.2] using halloc
    · rw [ht, filled_update]
      funext j
      by_cases hj : j = va / PGSIZE
      · rw [hj, Function.update_self]
        exact (filled_gap hgap.2 hgap.1).symm
      · rw [Function.update_of_ne hj]
    · intro k hk
      rw [ht, Function.update_of_ne hk]
    · intro _
      rw [ht, Function.update_self]
      exact (filled_gap hgap.2 hgap.1).symm
  · refine ⟨P.table, ?_, hP.rooted, rfl, fun _ _ => rfl, ?_⟩
    · have hno : (decide (PGROUNDDOWN va < P.sz) && (P.table.leaf (va / PGSIZE)).isNone) =
          false := by
        simpa [Option.isSome_iff_ne_none] using hgap
      simp only [hno, ok_bind, Bool.false_eq_true, if_false]
    · intro hlt
      cases he : P.table.leaf (va / PGSIZE) with
      | none => exact absurd ⟨by omega, he⟩ hgap
      | some e => exact (filled_some he).symm

/-- Nothing is left to allocate in the eager process. -/
theorem lazyTouch_eager (hP : WellFormed P) (hsp : OnKstack p sp) (va : Nat) :
    lazyTouch plenty (eager P) sp va = .ok (plenty, eager P) := by
  have hbelow := hP.below
  have hframe : TRAPFRAME + 2 * PGSIZE = MAXVA := by decide
  have hcheck := uvmlazycheck_eq (eager_rooted P) (onKstack_ne hsp va) (fun hlt => by
    have hlt' : PGROUNDDOWN va < P.sz := hlt
    omega)
  have hno : (decide (PGROUNDDOWN va < (eager P).sz) &&
      ((eager P).table.leaf (va / PGSIZE)).isNone) = false := by
    by_cases hlt : PGROUNDDOWN va < P.sz
    · cases he : P.table.leaf (va / PGSIZE) with
      | none => simp [eager, filled_gap he hlt]
      | some e => simp [eager, filled_some he]
    · simp [eager, hlt]
  unfold lazyTouch
  rw [hcheck, hno]
  rfl

/-- copyout succeeds and leaves the user memory that it leaves in the eager process. -/
def CopyoutAsEager (P : Proc) (sp va : Nat) (src : List UInt8) : Prop :=
  ∃ P' Q', copyout plenty P sp va src = .ok (plenty, P', true) ∧
    copyout plenty (eager P) sp va src = .ok (plenty, Q', true) ∧
    Q'.table.leaf = filled P'.sz P'.table.leaf

/-- copyin succeeds and moves the bytes that it moves in the eager process. -/
def CopyinAsEager (P : Proc) (sp va len : Nat) : Prop :=
  ∃ P' bytes, copyin plenty P sp va len = .ok (plenty, P', bytes, true) ∧
    copyin plenty (eager P) sp va len = .ok (plenty, eager P, bytes, true) ∧
    filled P'.sz P'.table.leaf = filled P.sz P.table.leaf

/-- Every page of the range but the first has been touched. -/
def RestTouched (P : Proc) (va len : Nat) : Prop :=
  ∀ k, PageOf va len k → k ≠ va / PGSIZE → P.table.leaf k ≠ none

/-- After the touch of the first page all pages of the range are user pages. -/
theorem range_mapped {t : Table} {len : Nat} (hrange : va + len ≤ P.sz)
    (hguard : ∀ k e, PageOf va len k → P.table.leaf k = some e → e.u = true)
    (hothers : ∀ k, k ≠ va / PGSIZE → t.leaf k = P.table.leaf k)
    (hfirst : va < P.sz → t.leaf (va / PGSIZE) = filled P.sz P.table.leaf (va / PGSIZE))
    (hrest : RestTouched P va len) (k : Nat) (hk : PageOf va len k) :
    ∃ e, t.leaf k = some e ∧ e.u = true := by
  by_cases hk0 : k = va / PGSIZE
  · subst hk0
    have hva : va < P.sz := by
      obtain ⟨a, ha, ha', -⟩ := hk
      omega
    rw [hfirst hva]
    cases he : P.table.leaf (va / PGSIZE) with
    | none =>
      have hdown : va / PGSIZE * PGSIZE ≤ va := Nat.div_mul_le_self va PGSIZE
      exact ⟨userPTE, filled_gap he (by omega), rfl⟩
    | some e => exact ⟨e, filled_some he, hguard _ e hk he⟩
  · rw [hothers k hk0]
    obtain ⟨e, he⟩ := Option.ne_none_iff_exists'.mp (hrest k hk hk0)
    exact ⟨e, he, hguard k e hk he⟩

theorem copyout_as_eager_iff (hP : WellFormed P) (hsp : OnKstack p sp) (src : List UInt8)
    (hrange : va + src.length ≤ P.sz)
    (hguard : ∀ k e, PageOf va src.length k → P.table.leaf k = some e → e.u = true) :
    CopyoutAsEager P sp va src ↔ RestTouched P va src.length := by
  have hbelow := hP.below
  have hframe : TRAPFRAME + 2 * PGSIZE = MAXVA := by decide
  obtain ⟨t, htouch, hR, hfill, hothers, hfirst⟩ := lazyTouch_first hP hsp va
  unfold CopyoutAsEager copyout
  rw [htouch, lazyTouch_eager hP hsp va]
  simp only [ok_bind, Except.ok.injEq, Prod.mk.injEq, true_and]
  constructor
  · rintro ⟨P', Q', ⟨-, hok⟩, -⟩ k hk hk0
    rw [← hothers k hk0]
    exact copyoutLoop_mapped src.length src hR (Nat.le_refl _) (by omega) hok hk
  · intro hrest
    obtain ⟨hok, hok', hleaf⟩ :=
      copyoutLoop_filled src.length src hR (eager_rooted P) hfill.symm (Nat.le_refl _) (by omega)
      (range_mapped hrange hguard hothers hfirst hrest)
    exact ⟨_, _, ⟨rfl, hok⟩, ⟨rfl, hok'⟩, hleaf⟩

theorem copyin_as_eager_iff {len : Nat} (hP : WellFormed P) (hsp : OnKstack p sp)
    (hrange : va + len ≤ P.sz)
    (hguard : ∀ k e, PageOf va len k → P.table.leaf k = some e → e.u = true) :
    CopyinAsEager P sp va len ↔ RestTouched P va len := by
  have hbelow := hP.below
  have hframe : TRAPFRAME + 2 * PGSIZE = MAXVA := by decide
  obtain ⟨t, htouch, hR, hfill, hothers, hfirst⟩ := lazyTouch_first hP hsp va
  unfold CopyinAsEager copyin
  rw [htouch, lazyTouch_eager hP hsp va]
  simp only [ok_bind, Except.ok.injEq, Prod.mk.injEq, true_and]
  constructor
  · rintro ⟨P', bytes, ⟨-, hcopy⟩, -⟩ k hk hk0
    rw [← hothers k hk0]
    exact copyinLoop_mapped len len hR (Nat.le_refl _) (by omega) (by rw [hcopy]) hk
  · intro hrest
    obtain ⟨hok, heq⟩ := copyinLoop_filled len len hR (eager_rooted P) hfill.symm (Nat.le_refl _)
      (by omega)
      (range_mapped hrange hguard hothers hfirst hrest)
    exact ⟨_, (copyinLoop len t va len).1, ⟨rfl, Prod.ext rfl hok⟩,
      heq.trans (Prod.ext rfl hok), hfill⟩

/-- The system calls see the eager memory exactly when the gaps they meet are the first page
of a copyout or a copyin, or lie behind the NUL of a string. -/
theorem copies_as_eager_iff (P : Proc) (p sp va len : Nat) (hP : WellFormed P)
    (hsp : OnKstack p sp) (hrange : va + len ≤ P.sz)
    (hguard : ∀ k e, PageOf va len k → P.table.leaf k = some e → e.u = true) :
    (∀ src, src.length = len → (CopyoutAsEager P sp va src ↔ RestTouched P va len)) ∧
    (CopyinAsEager P sp va len ↔ RestTouched P va len) ∧
    (copyinstr P va len = copyinstr (eager P) va len ↔ NullFirst P.table va len) := by
  have hbelow := hP.below
  have hframe : TRAPFRAME + 2 * PGSIZE = MAXVA := by decide
  refine ⟨?_, copyin_as_eager_iff hP hsp hrange hguard, ?_⟩
  · rintro src rfl
    exact copyout_as_eager_iff hP hsp src hrange hguard
  · exact copyinstrLoop_same_iff len hP.rooted (eager_rooted P) rfl (Nat.le_refl _) hrange
      (by omega) hguard

/-- Three pages, of which only the first has been touched. -/
def gapProc : Proc :=
  { initProc with sz := 3 * PGSIZE }

theorem gapProc_wellFormed : WellFormed gapProc := by
  refine ⟨by decide, fun _ _ _ => ⟨rfl, rfl⟩, ⟨?_, ?_⟩⟩
  · intro k f hf
    simp only [gapProc, initProc] at hf ⊢
    unfold TRAPFRAME TRAMPOLINE MAXVA PGSIZE at *
    split_ifs at hf <;> omega
  · intro k f hf hk
    simp only [gapProc, initProc] at hf hk
    unfold TRAPFRAME TRAMPOLINE MAXVA PGSIZE at *
    split_ifs at hf
    · cases hf
      decide
    · omega
    · omega

theorem gapProc_user {k : Nat} {e : PTE} (hk : k * PGSIZE < gapProc.sz)
    (he : gapProc.table.leaf k = some e) : e.u = true := by
  simp only [gapProc, initProc] at he hk
  unfold TRAPFRAME TRAMPOLINE MAXVA PGSIZE at *
  split_ifs at he
  · cases he
    rfl
  · omega
  · omega

theorem gapProc_guard {va len : Nat} (hrange : va + len ≤ gapProc.sz) (k : Nat) (e : PTE)
    (hk : PageOf va len k) (he : gapProc.table.leaf k = some e) : e.u = true := by
  obtain ⟨a, -, ha, rfl⟩ := hk
  have := Nat.div_mul_le_self a PGSIZE
  exact gapProc_user (by omega) he

/-- The first two bytes of the second page, which is touched for copyout and copyin alone. -/
theorem copies_as_eager_iff_gapProc :
    CopyoutAsEager gapProc (KSTACK 0 + 16) 4096 [1, 2] ∧
    CopyinAsEager gapProc (KSTACK 0 + 16) 4096 2 ∧
    copyinstr gapProc 4096 2 ≠ copyinstr (eager gapProc) 4096 2 := by
  have hrest : RestTouched gapProc 4096 2 := by
    rintro k ⟨a, hlow, hhigh, rfl⟩ hne
    exact absurd (show a / PGSIZE = 4096 / PGSIZE by unfold PGSIZE; omega) hne
  obtain ⟨hout, hin, hstr⟩ := copies_as_eager_iff gapProc 0 (KSTACK 0 + 16) 4096 2
    gapProc_wellFormed (by decide +kernel) (by decide) (gapProc_guard (by decide))
  refine ⟨(hout [1, 2] rfl).mpr hrest, hin.mpr hrest, fun hsame => ?_⟩
  obtain ⟨a, -, hlow, hhigh, -⟩ := hstr.mp hsame 1 ⟨4096, by decide, by decide, by decide⟩ rfl
  change a < 1 * 4096 at hhigh
  omega

/-- The second page of the range is not allocated for copyout and copyin, nor the first one
for copyinstr. -/
theorem copies_stop_at_gap : WellFormed gapProc ∧ OnKstack 0 (KSTACK 0 + 16) ∧
    4095 + 2 ≤ gapProc.sz ∧
    (∀ k e, PageOf 4095 2 k → gapProc.table.leaf k = some e → e.u = true) ∧
    ¬CopyoutAsEager gapProc (KSTACK 0 + 16) 4095 [1, 2] ∧
    ¬CopyinAsEager gapProc (KSTACK 0 + 16) 4095 2 ∧
    copyinstr gapProc 4096 1 = ([], false) ∧ copyinstr (eager gapProc) 4096 1 = ([0], true) := by
  refine ⟨gapProc_wellFormed, by decide +kernel, by decide, gapProc_guard (by decide), ?_, ?_,
    by decide +kernel, by decide +kernel⟩
  · rw [copyout_as_eager_iff gapProc_wellFormed (p := 0) (by decide +kernel) [1, 2] (by decide)
      (gapProc_guard (by decide))]
    intro h
    exact h 1 ⟨4096, by decide, by decide, by decide⟩ (by decide) (by decide)
  · rw [copyin_as_eager_iff gapProc_wellFormed (p := 0) (by decide +kernel) (by decide)
      (gapProc_guard (by decide))]
    intro h
    exact h 1 ⟨4096, by decide, by decide, by decide⟩ (by decide) (by decide)

end Calls

end Xv6Labs.Lazy
