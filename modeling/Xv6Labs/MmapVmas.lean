import Xv6Labs.MmapEffects
import Xv6Labs.MmapTables

/-! The mappings of a process lie apart from one another and from its heap, as long as sizes are
page multiples where a mapping starts and no call takes the ground from under a mapping. -/
namespace Xv6Labs.Mmap

variable {n : Nat} {s s' : State n}

section Pages

/-- Page `k` is one of the pages of the mapping. -/
def VMA.holds (v : VMA) (k : Nat) : Prop :=
  PGROUNDDOWN v.addr ≤ k * PGSIZE ∧ k * PGSIZE < PGROUNDUP (add64 v.addr v.length)

instance (v : VMA) (k : Nat) : Decidable (v.holds k) := inferInstanceAs (Decidable (_ ∧ _))

instance : NeZero NVMA := ⟨by decide⟩

theorem holds_iff {v : VMA} (hpos : 0 < v.length) (hend : (v.addr : Int) + v.length ≤ TRAPFRAME)
    (k : Nat) : v.holds k ↔ v.addr / PGSIZE ≤ k ∧ (k * PGSIZE : Int) < v.addr + v.length := by
  obtain ⟨len, hlen⟩ := Int.eq_ofNat_of_zero_le (Int.le_of_lt hpos)
  have htop : v.addr + len ≤ MAXVA := by
    unfold TRAPFRAME TRAMPOLINE MAXVA PGSIZE at hend
    unfold MAXVA
    omega
  have hadd : add64 v.addr v.length = v.addr + len := by
    unfold MAXVA at htop
    unfold add64
    omega
  unfold VMA.holds
  rw [hadd, roundUp_eq htop, hlen]
  unfold PGROUNDDOWN PGSIZE
  omega

/-- The used VMA `v'` is what is left of `v`. -/
structure Within (v' v : VMA) : Prop where
  used : v.used = true
  pos : 0 < v'.length
  lo : v.addr ≤ v'.addr
  hi : (v'.addr : Int) + v'.length ≤ v.addr + v.length
  short : v'.length < 2^31
  image : v'.image = v.image

/-- The mappings of a process are in order. -/
structure VmasOk (P : Proc) : Prop where
  pos : ∀ i, (P.vma i).used = true → 0 < (P.vma i).length
  below : ∀ i, (P.vma i).used = true → ((P.vma i).addr : Int) + (P.vma i).length ≤ P.sz
  low : ∀ i, (P.vma i).used = true → ((P.vma i).addr : Int) + (P.vma i).length ≤ TRAPFRAME
  image : ∀ i, (P.vma i).used = true → (P.vma i).image = P.image
  apart : ∀ i j k, i ≠ j → (P.vma i).used = true → (P.vma j).used = true →
    (P.vma i).holds k → ¬(P.vma j).holds k
  heap : ∀ i k, (P.vma i).used = true → (P.vma i).holds k → P.given k = false

/-- What a running process keeps: the mappings are in order, their lengths are those of an
`int`, and the heap lies below the size. -/
structure Tidy (P : Proc) : Prop where
  ok : VmasOk P
  short : ∀ i, (P.vma i).used = true → (P.vma i).length < 2^31
  given : ∀ k, P.given k = true → k * PGSIZE < P.sz

theorem Tidy.within {P : Proc} (h : Tidy P) {i : Fin NVMA} (hi : (P.vma i).used = true) :
    Within (P.vma i) (P.vma i) :=
  ⟨hi, h.ok.pos i hi, Nat.le_refl _, Int.le_refl _, h.short i hi, rfl⟩

theorem Within.holds {v' v : VMA} (h : Within v' v) (hend : (v.addr : Int) + v.length ≤ TRAPFRAME)
    {k : Nat} (hk : v'.holds k) : v.holds k := by
  have hpos := h.pos
  have hlo := h.lo
  have hhi := h.hi
  rw [holds_iff hpos (by omega)] at hk
  rw [holds_iff (by omega) hend]
  have hdiv : v.addr / PGSIZE ≤ v'.addr / PGSIZE := Nat.div_le_div_right hlo
  omega

/-- Mappings that only get smaller stay in order. -/
theorem Tidy.shrink {P P' : Proc} (h : Tidy P) (hsz : P'.sz = P.sz) (hgiven : P'.given = P.given)
    (himage : P'.image = P.image)
    (hvma : ∀ i, (P'.vma i).used = true → Within (P'.vma i) (P.vma i)) : Tidy P' := by
  refine ⟨⟨?_, ?_, ?_, ?_, ?_, ?_⟩, ?_, ?_⟩
  · exact fun i hi => (hvma i hi).pos
  · intro i hi
    have hw := hvma i hi
    have := h.ok.below i hw.used
    have := hw.hi
    rw [hsz]
    omega
  · intro i hi
    have hw := hvma i hi
    have := h.ok.low i hw.used
    have := hw.hi
    omega
  · intro i hi
    have hw := hvma i hi
    rw [hw.image, himage]
    exact h.ok.image i hw.used
  · intro i j k hij hi hj hki hkj
    have hwi := hvma i hi
    have hwj := hvma j hj
    exact h.ok.apart i j k hij hwi.used hwj.used (hwi.holds (h.ok.low i hwi.used) hki)
      (hwj.holds (h.ok.low j hwj.used) hkj)
  · intro i k hi hk
    have hw := hvma i hi
    rw [hgiven]
    exact h.ok.heap i k hw.used (hw.holds (h.ok.low i hw.used) hk)
  · exact fun i hi => (hvma i hi).short
  · intro k hk
    rw [hgiven] at hk
    rw [hsz]
    exact h.given k hk

theorem Tidy.looks {P P' : Proc} (h : Tidy P) (hlook : Looks P P') : Tidy P' := by
  apply h.shrink hlook.sz hlook.given hlook.image
  intro i hi
  rw [hlook.vma] at hi ⊢
  exact h.within hi

end Pages

section Calls

variable {p : Fin n}

/-- A new mapping starts at the size, past the heap and the other mappings. -/
theorem Tidy.mmap {P P' : Proc} (h : Tidy P) {i : Fin NVMA} {v : VMA} (hlen : 0 < v.length)
    (hshort : v.length < 2^31) (halign : P.sz % PGSIZE = 0) (haddr : v.addr = P.sz)
    (htop : (P.sz : Int) + v.length ≤ TRAPFRAME) (himage : v.image = P.image)
    (hlook : Looks { P with vma := Function.update P.vma i v, sz := add64 P.sz v.length } P') :
    Tidy P' := by
  have hsz : (add64 P.sz v.length : Int) = P.sz + v.length := by
    unfold TRAPFRAME TRAMPOLINE MAXVA PGSIZE at htop
    unfold add64
    omega
  have hnew (k : Nat) (hk : v.holds k) : P.sz ≤ k * PGSIZE := by
    rw [holds_iff hlen (by rw [haddr]; exact htop), haddr] at hk
    unfold PGSIZE at *
    omega
  have hold (j : Fin NVMA) (hj : (P.vma j).used = true) (k : Nat) (hk : (P.vma j).holds k) :
      k * PGSIZE < P.sz := by
    rw [holds_iff (h.ok.pos j hj) (h.ok.low j hj)] at hk
    have := h.ok.below j hj
    omega
  refine Tidy.looks ?_ hlook
  -- each field for the new VMA, and for another one
  refine ⟨⟨?_, ?_, ?_, ?_, ?_, ?_⟩, ?_, ?_⟩
  · intro j hj
    by_cases hji : j = i
    · simpa [hji] using hlen
    · simp only [Function.update_of_ne hji] at hj ⊢
      exact h.ok.pos j hj
  · intro j hj
    simp only [hsz]
    by_cases hji : j = i
    · simp [hji, haddr]
    · simp only [Function.update_of_ne hji] at hj ⊢
      have := h.ok.below j hj
      omega
  · intro j hj
    by_cases hji : j = i
    · simpa [hji, haddr] using htop
    · simp only [Function.update_of_ne hji] at hj ⊢
      exact h.ok.low j hj
  · intro j hj
    by_cases hji : j = i
    · simpa [hji] using himage
    · simp only [Function.update_of_ne hji] at hj ⊢
      exact h.ok.image j hj
  · intro j j' k hjj' hj hj' hk hk'
    by_cases hji : j = i
    · have hji' : j' ≠ i := fun heq => hjj' (hji.trans heq.symm)
      simp only [hji, Function.update_self] at hk
      simp only [Function.update_of_ne hji'] at hj' hk'
      have := hnew k hk
      have := hold j' hj' k hk'
      omega
    · simp only [Function.update_of_ne hji] at hj hk
      by_cases hji' : j' = i
      · simp only [hji', Function.update_self] at hk'
        have := hnew k hk'
        have := hold j hj k hk
        omega
      · simp only [Function.update_of_ne hji'] at hj' hk'
        exact h.ok.apart j j' k hjj' hj hj' hk hk'
  · intro j k hj hk
    by_cases hji : j = i
    · simp only [hji, Function.update_self] at hk
      have hsz := hnew k hk
      by_contra hgiven
      have := h.given k (by simpa using hgiven)
      omega
    · simp only [Function.update_of_ne hji] at hj hk
      exact h.ok.heap j k hj hk
  · intro j hj
    by_cases hji : j = i
    · simpa [hji] using hshort
    · simp only [Function.update_of_ne hji] at hj ⊢
      exact h.short j hj
  · intro k hk
    have := h.given k hk
    show k * PGSIZE < add64 P.sz v.length
    omega

/-- What munmap leaves of a VMA, when the range does not go past its end. -/
theorem cut_within {v : VMA} {addr : Nat} {length : Int} (hw : Within v v)
    (hend : (v.addr : Int) + v.length ≤ TRAPFRAME) (hhit : v.hit addr = true)
    (hlen : -2^31 ≤ length ∧ length < 2^31)
    (hin : addr = v.addr → 0 ≤ length ∧ length ≤ v.length)
    (hused : (v.cut addr length).used = true) : Within (v.cut addr length) v := by
  have hpos := hw.pos
  have hshort := hw.short
  have hadd : (add64 v.addr v.length : Int) = v.addr + v.length := by
    unfold TRAPFRAME TRAMPOLINE MAXVA PGSIZE at hend
    unfold add64
    omega
  simp only [VMA.hit, Bool.and_eq_true, decide_eq_true_eq] at hhit
  unfold TRAPFRAME TRAMPOLINE MAXVA PGSIZE at hend
  unfold VMA.cut at hused ⊢
  split_ifs at hused ⊢ with hall hbegins hsuffix
  · -- a prefix
    obtain ⟨h0, h1⟩ := hin hbegins
    have hne : length ≠ v.length := fun heq => hall ⟨hbegins, heq⟩
    have haddr : (add64 v.addr length : Int) = v.addr + length := by
      unfold add64
      omega
    have hint : int32 (v.length - length) = v.length - length := by
      unfold int32
      omega
    refine ⟨hw.used, ?_, ?_, ?_, ?_, rfl⟩
    · simp only [hint]
      omega
    · show v.addr ≤ add64 v.addr length
      omega
    · simp only [hint, haddr]
      omega
    · simp only [hint]
      omega
  · -- a suffix: its length is that of the range up to the end
    have hlength : length = v.addr + v.length - addr := by
      have hadd' : (add64 addr length : Int) = v.addr + v.length := by
        rw [hsuffix]
        exact hadd
      unfold add64 at hadd'
      omega
    have hint : int32 (v.length - length) = v.length - length := by
      unfold int32
      omega
    refine ⟨hw.used, ?_, Nat.le_refl _, ?_, ?_, rfl⟩
    · simp only [hint]
      omega
    · simp only [hint]
      omega
    · simp only [hint]
      omega
  · exact hw

theorem Tidy.munmap {addr : Nat} {length : Int} (h : Tidy (s.proc p))
    (hcuts : Cuts p addr length s s') (hlen : -2^31 ≤ length ∧ length < 2^31)
    (hin : ∀ i, ((s.proc p).vma i).used = true → ((s.proc p).vma i).addr = addr →
      0 ≤ length ∧ length ≤ ((s.proc p).vma i).length) : Tidy (s'.proc p) := by
  apply h.shrink hcuts.sz hcuts.given hcuts.image
  intro i hi
  rcases hcuts.vma i with hsame | ⟨hhit, hcut⟩
  · rw [hsame] at hi ⊢
    exact h.within hi
  · have hused : ((s.proc p).vma i).used = true := by
      simp only [VMA.hit, Bool.and_eq_true] at hhit
      exact hhit.1.1
    rw [hcut] at hi ⊢
    exact cut_within (h.within hused) (h.ok.low i hused) hhit hlen
      (fun heq => hin i hused heq.symm) hi

/-- A new size and heap that leave the mappings alone. -/
theorem Tidy.resize {sz : Nat} {given : Nat → Bool} (h : Tidy (s.proc p))
    (hr : Resizes p sz given (s.proc p).image s s')
    (hbelow : ∀ i, ((s.proc p).vma i).used = true →
      (((s.proc p).vma i).addr : Int) + ((s.proc p).vma i).length ≤ sz)
    (hheap : ∀ j, given j = true → j * PGSIZE < sz ∧ ((s.proc p).given j = true ∨
      ∀ i, ((s.proc p).vma i).used = true →
        (((s.proc p).vma i).addr : Int) + ((s.proc p).vma i).length ≤ j * PGSIZE)) :
    Tidy (s'.proc p) := by
  refine Tidy.looks ?_ hr.self
  refine ⟨⟨h.ok.pos, hbelow, h.ok.low, h.ok.image, h.ok.apart, ?_⟩, h.short,
    fun j hj => (hheap j hj).1⟩
  intro i j hi hj
  by_contra hgiven
  rcases (hheap j (by simpa using hgiven)).2 with hold | hnew
  · rw [h.ok.heap i j hi hj] at hold
    cases hold
  · rw [holds_iff (h.ok.pos i hi) (h.ok.low i hi)] at hj
    have := hnew i hi
    omega

/-- sbrk that keeps the size above the mappings. -/
theorem Tidy.sbrk {k : Int} (h : Tidy (s.proc p)) (hsbrk : Sbrks p k s s')
    (hsz : (s.proc p).sz < 2^32)
    (hk : -2^31 ≤ k) (hgrow : ((s.proc p).sz : Int) + k < 2^32)
    (hroom : 0 ≤ ((s.proc p).sz : Int) + k → ∀ i, ((s.proc p).vma i).used = true →
      (((s.proc p).vma i).addr : Int) + ((s.proc p).vma i).length ≤ (s.proc p).sz + k)
    (hpage : 0 < k → ∀ i, ((s.proc p).vma i).used = true →
      (((s.proc p).vma i).addr : Int) + ((s.proc p).vma i).length ≤ PGROUNDDOWN (s.proc p).sz) :
    Tidy (s'.proc p) := by
  have huint : uint32 (s.proc p).sz = (s.proc p).sz := Nat.mod_eq_of_lt hsz
  cases hsbrk with
  | fails _ hcalm => exact h.looks hcalm.self
  | grows hpos hr =>
    have hnew : (sbrkSize (s.proc p) k : Int) = (s.proc p).sz + k := by
      unfold sbrkSize
      rw [huint]
      omega
    have hmax : uint32 (max (uint32 (s.proc p).sz) (sbrkSize (s.proc p) k)) =
        sbrkSize (s.proc p) k := by
      rw [huint, Nat.max_eq_right (by omega)]
      unfold uint32
      omega
    rw [hmax] at hr
    apply h.resize hr
    · intro i hi
      have := h.ok.below i hi
      omega
    · intro j hj
      simp only [pagesOf, huint, Bool.or_eq_true, Bool.and_eq_true, decide_eq_true_eq] at hj
      rcases hj with hj | ⟨⟨-, hlo⟩, hhi⟩
      · have := h.given j hj
        exact ⟨by omega, Or.inl hj⟩
      · -- the first of the new pages may be the one that the old size lies in
        refine ⟨hhi, Or.inr (fun i hi => ?_)⟩
        have := hpage hpos i hi
        omega
  | shrinks hneg hr =>
    by_cases hsum : 0 ≤ ((s.proc p).sz : Int) + k
    · have hnew : (sbrkSize (s.proc p) k : Int) = (s.proc p).sz + k := by
        unfold sbrkSize
        rw [huint]
        omega
      have hmin : uint32 (min (uint32 (s.proc p).sz) (sbrkSize (s.proc p) k)) =
          sbrkSize (s.proc p) k := by
        rw [huint, Nat.min_eq_right (by omega)]
        unfold uint32
        omega
      rw [hmin] at hr
      apply h.resize hr
      · intro i hi
        have := hroom hsum i hi
        omega
      · intro j hj
        simp only [huint, Bool.and_eq_true, Bool.not_eq_true', Bool.and_eq_false_iff,
          decide_eq_false_iff_not] at hj
        have := h.given j hj.1
        exact ⟨by omega, Or.inl hj.1⟩
    · -- the new size wraps around to one above the old size, and nothing happens
      have hnew : (sbrkSize (s.proc p) k : Int) = (s.proc p).sz + k + 2^32 := by
        unfold sbrkSize
        rw [huint]
        omega
      have hmin : uint32 (min (uint32 (s.proc p).sz) (sbrkSize (s.proc p) k)) =
          (s.proc p).sz := by
        rw [huint, Nat.min_eq_left (by omega), huint]
      rw [hmin] at hr
      apply h.resize hr
      · exact fun i hi => h.ok.below i hi
      · intro j hj
        simp only [Bool.and_eq_true] at hj
        exact ⟨h.given j hj.1, Or.inl hj.1⟩
  | stays hzero hr =>
    rw [huint] at hr
    apply h.resize hr
    · exact fun i hi => h.ok.below i hi
    · exact fun j hj => ⟨h.given j hj, Or.inl hj⟩

end Calls

section Runs

/-- The calls that keep the mappings in order. A mapping starts at a page boundary, has a
positive length and ends below the trapframe; munmap at the start of a mapping stays inside it;
sbrk stays in a `uint` and leaves the mappings below the size, and where it grows the heap, no
mapping ends in the page of the old size; exec finds no mapping. -/
def Careful (s : State n) : Op n → Prop
  | .mmap p length prot flags fd _ => (mmapFile s p prot flags fd.toInt).isSome →
      (freeVma (s.proc p)).isSome → 0 < length.toInt ∧ (s.proc p).sz % PGSIZE = 0 ∧
      ((s.proc p).sz : Int) + length.toInt ≤ TRAPFRAME
  | .munmap p addr length => ∀ i, ((s.proc p).vma i).used = true → ((s.proc p).vma i).addr = addr →
      0 ≤ length.toInt ∧ length.toInt ≤ ((s.proc p).vma i).length
  | .sbrk p k => (s.proc p).sz < 2^32 ∧ ((s.proc p).sz : Int) + k.toInt < 2^32 ∧
      (0 ≤ ((s.proc p).sz : Int) + k.toInt → ∀ i, ((s.proc p).vma i).used = true →
        (((s.proc p).vma i).addr : Int) + ((s.proc p).vma i).length ≤ (s.proc p).sz + k.toInt) ∧
      (0 < k.toInt → ∀ i, ((s.proc p).vma i).used = true →
        (((s.proc p).vma i).addr : Int) + ((s.proc p).vma i).length ≤ PGROUNDDOWN (s.proc p).sz)
  | .exec p _ _ => ∀ i, ((s.proc p).vma i).used = false
  | _ => True

instance (s : State n) (op : Op n) : Decidable (Careful s op) := by
  cases op <;> unfold Careful <;> infer_instance

/-- Running processes are tidy, and the others have no mappings. -/
structure AllTidy (s : State n) : Prop where
  tidy : ∀ p, (s.proc p).state = .running → Tidy (s.proc p)
  idle : ∀ p, (s.proc p).state ≠ .running → ∀ i, ((s.proc p).vma i).used = false

/-- A step that changes one process. -/
theorem AllTidy.change (h : AllTidy s) (p : Fin n) (hothers : ∀ q, q ≠ p → s'.proc q = s.proc q)
    (hself : (s'.proc p).state = .running → Tidy (s'.proc p))
    (hidle : (s'.proc p).state ≠ .running → ∀ i, ((s'.proc p).vma i).used = false) :
    AllTidy s' := by
  constructor
  · intro q hq
    by_cases hqp : q = p
    · subst hqp
      exact hself hq
    · rw [hothers q hqp] at hq ⊢
      exact h.tidy q hq
  · intro q hq
    by_cases hqp : q = p
    · subst hqp
      exact hidle hq
    · rw [hothers q hqp] at hq ⊢
      exact h.idle q hq

variable {p : Fin n}

theorem AllTidy.calm (h : AllTidy s) (hcalm : Calm p s s') : AllTidy s' := by
  refine h.change p hcalm.others ?_ ?_
  · intro hrun
    rw [hcalm.self.state] at hrun
    exact (h.tidy p hrun).looks hcalm.self
  · intro hidle
    rw [hcalm.self.state] at hidle
    rw [hcalm.self.vma]
    exact h.idle p hidle

theorem AllTidy.dies (h : AllTidy s) (hdies : Dies p s s') : AllTidy s' := by
  refine h.change p hdies.others ?_ (fun _ => hdies.vma)
  intro hrun
  rw [hdies.state] at hrun
  cases hrun

theorem AllTidy.resize (h : AllTidy s) (hrun : (s.proc p).state = .running) {sz : Nat}
    {given : Nat → Bool} {image : Nat} (hr : Resizes p sz given image s s')
    (htidy : Tidy (s'.proc p)) : AllTidy s' := by
  refine h.change p hr.others (fun _ => htidy) ?_
  intro hidle
  rw [hr.self.state] at hidle
  exact absurd hrun hidle

theorem AllTidy.fork (h : AllTidy s) {q : Fin n} (hp : (s.proc p).state = .running)
    (hq : (s.proc q).state = .unused) (hf : Forks p q s s') : AllTidy s' := by
  have hfree := h.idle q (by rw [hq]; decide)
  refine h.change q hf.others ?_ ?_
  · intro hrun
    rcases hf.child with ⟨hstate, -⟩ | hlook
    · exact absurd hrun hstate
    · apply (h.tidy p hp).shrink hlook.sz hlook.given hlook.image
      intro i hi
      have hvma : (s'.proc q).vma i = if ((s.proc p).vma i).used then (s.proc p).vma i
          else (s.proc q).vma i := congrFun hlook.vma i
      by_cases hused : ((s.proc p).vma i).used = true
      · rw [hvma, if_pos hused]
        exact (h.tidy p hp).within hused
      · rw [hvma, if_neg hused, hfree i] at hi
        cases hi
  · intro hidle
    rcases hf.child with ⟨-, hvma⟩ | hlook
    · rw [hvma]
      exact hfree
    · exact absurd (hlook.state.trans hp) hidle

theorem act_tidy (h : AllTidy s) (op : Op n)
    (hrun : ∀ p, op.caller = some p → (s.proc p).state = .running) (hop : Careful s op) :
    Yields (fun _ => True) AllTidy (act s op) := by
  have hend (p : Fin n) (s' : State n) (hs : Calm p s s' ∨ Dies p s s') : AllTidy s' := by
    rcases hs with hs | hs
    · exact h.calm hs
    · exact h.dies hs
  cases op with
  | openFile p ip device readable writable trunc =>
    exact (sysOpen_calm s p ip device readable writable trunc).mono (fun _ hs => h.calm hs)
  | dup p fd => exact (sysDup_calm s p fd.toInt).mono (fun _ hs => h.calm hs)
  | close p fd => exact (sysClose_calm s p fd.toInt).mono (fun _ hs => h.calm hs)
  | pipe p fdarray => exact (sysPipe_calm s p fdarray).mono (fun _ hs => h.calm hs)
  | load p va =>
    apply (load_effect s p va).bind
    exact fun r hr => hend p r.1 hr
  | store p va b => exact (store_effect s p va b).mono (hend p)
  | exit p => exact (exit_dies s p).mono (fun _ hs => h.dies hs)
  | wait q =>
    simp only [act]
    split
    · rename_i hz
      apply (freeproc_effect s q).mono
      rintro s' ⟨hothers, hstate, hvma⟩
      refine h.change q hothers ?_ ?_
      · intro hrun'
        rw [hstate] at hrun'
        cases hrun'
      · intro _
        rw [hvma]
        exact h.idle q (by rw [hz]; decide)
    · exact h
  | mmap p length prot flags fd offset =>
    have hrun := hrun p rfl
    apply (sysMmap_effect s p length.toInt prot flags fd.toInt offset).bind
    rintro r (⟨hsame, -⟩ | ⟨f, i, hf, hi, hproc⟩)
    · rw [yields_ok, hsame]
      exact h
    · obtain ⟨hpos, halign, htop⟩ := hop (by simp [hf]) (by simp [hi])
      refine h.change p (fun q hq => by rw [hproc, Function.update_of_ne hq]) ?_ ?_
      · intro _
        rw [hproc, Function.update_self]
        exact (h.tidy p hrun).mmap (v := ⟨true, (s.proc p).sz, length.toInt, prot, flags, f, offset,
          (s.proc p).image⟩) hpos (Int32.toInt_lt length) halign rfl htop rfl (Looks.refl _)
      · intro hidle
        rw [hproc, Function.update_self] at hidle
        exact absurd hrun hidle
  | munmap p addr length =>
    have hrun := hrun p rfl
    have hcuts : Yields (fun _ => True) (Cuts p addr length.toInt s)
        (act s (.munmap p addr length)) :=
      (sysMunmap_effect s p addr length.toInt).bind (fun r hr => hr)
    apply hcuts.mono
    intro s' hs
    refine h.change p hs.others ?_ ?_
    · intro _
      exact (h.tidy p hrun).munmap hs ⟨Int32.le_toInt length, Int32.toInt_lt length⟩ hop
    · intro hidle
      rw [hs.state] at hidle
      exact absurd hrun hidle
  | fork p q =>
    have hrun := hrun p rfl
    simp only [act]
    split
    · rename_i hq
      exact (fork_effect s hrun hq).mono (fun _ hs => h.fork hrun hq hs)
    · exact h
  | sbrk p k =>
    have hrun := hrun p rfl
    apply (growproc_effect s p k.toInt).mono
    intro s' hs
    have htidy := (h.tidy p hrun).sbrk hs hop.1 (Int32.le_toInt k) hop.2.1 hop.2.2.1
      hop.2.2.2
    cases hs with
    | fails _ hcalm => exact h.calm hcalm
    | grows _ hr => exact h.resize hrun hr htidy
    | shrinks _ hr => exact h.resize hrun hr htidy
    | stays _ hr => exact h.resize hrun hr htidy
  | exec p segs bad =>
    have hrun := hrun p rfl
    apply (exec_effect s p segs bad).mono
    rintro s' (hs | ⟨sz, hr⟩)
    · exact h.calm hs
    · have hvma : (s'.proc p).vma = (s.proc p).vma := hr.self.vma
      have hnone (i : Fin NVMA) : ((s'.proc p).vma i).used ≠ true := by
        rw [hvma, hop i]
        decide
      apply h.resize hrun hr
      refine ⟨⟨?_, ?_, ?_, ?_, ?_, ?_⟩, ?_, ?_⟩
      all_goals try exact fun i hi => absurd hi (hnone i)
      · exact fun i _ _ _ hi => absurd hi (hnone i)
      · exact fun i _ hi => absurd hi (hnone i)
      · intro k hk
        rw [hr.self.given] at hk
        rw [hr.self.sz]
        simpa using hk

/-- A careful step keeps every process tidy. -/
theorem step_tidy (h : AllTidy s) (op : Op n) (hop : Careful s op) :
    Yields (fun _ => True) AllTidy (step s op) := by
  unfold step
  cases hcaller : op.caller with
  | none =>
    apply act_tidy h op _ hop
    intro p hp
    rw [hcaller] at hp
    cases hp
  | some p =>
    dsimp only
    split
    · rename_i hrun
      apply act_tidy h op _ hop
      intro q hq
      rw [hcaller] at hq
      cases hq
      exact hrun
    · exact h

/-- No mappings yet, and the heap of every process below its size. -/
structure NoMaps (s : State n) : Prop where
  vma : ∀ p i, ((s.proc p).vma i).used = false
  given : ∀ p k, (s.proc p).given k = true → k * PGSIZE < (s.proc p).sz

theorem NoMaps.allTidy (h : NoMaps s) : AllTidy s := by
  have hnone (p : Fin n) (i : Fin NVMA) : ((s.proc p).vma i).used ≠ true := by
    rw [h.vma p i]
    decide
  refine ⟨fun p _ => ⟨⟨?_, ?_, ?_, ?_, ?_, ?_⟩, ?_, h.given p⟩, fun p _ => h.vma p⟩
  all_goals try exact fun i hi => absurd hi (hnone p i)
  · exact fun i _ _ _ hi => absurd hi (hnone p i)
  · exact fun i _ hi => absurd hi (hnone p i)

/-- In every run of careful calls the mappings of every running process are in order. -/
theorem vmas_wellformed (s₀ s : State n) (ops : List (Op n)) (h₀ : NoMaps s₀)
    (hops : Guarded next Careful s₀ ops) (hrun : run next s₀ ops = some s) (p : Fin n)
    (hp : (s.proc p).state = .running) : VmasOk (s.proc p) := by
  have hall : AllTidy s := by
    refine guarded_run_invariant next Careful AllTidy ?_ s₀ s ops h₀.allTidy hops hrun
    intro s op t hs hop ht
    unfold next at ht
    cases hstep : step s op with
    | error e =>
      rw [hstep] at ht
      cases ht
    | ok s' =>
      rw [hstep] at ht
      cases ht
      exact (step_tidy hs op hop).of_ok hstep
  exact (hall.tidy p hp).ok

theorem firstState_noMaps (size : Nat → Nat) (data : Nat → Nat → UInt8) :
    NoMaps (firstState (n := n) size data) := by
  constructor
  · intro p i
    by_cases hp : p = 0 <;> simp [firstState, hp, firstProc, unusedProc, noVma]
  · intro p k hk
    by_cases hp : p = 0
    · simp only [firstState, hp, if_true, firstProc, beq_iff_eq] at hk ⊢
      rw [hk]
      decide
    · simp [firstState, hp, unusedProc] at hk

/-- A mapping of two pages of which the second is unmapped, a heap page and a fork. -/
def mapSbrkOps : List (Op 2) :=
  [.openFile 0 5 false true true false, .mmap 0 8192 3 1 0 0, .sbrk 0 4096,
    .munmap 0 8192 4096, .load 0 4096, .fork 0 1, .mmap 1 100 1 1 0 0]

theorem vmas_wellformed_mapSbrkOps :
    ∃ s : State 2, run next (firstState (fun _ => 100) (fun _ _ => 7)) mapSbrkOps = some s ∧
      VmasOk (s.proc 0) ∧ VmasOk (s.proc 1) := by
  have hops : Guarded next Careful (firstState (n := 1) (fun _ => 100) (fun _ _ => 7))
      mapSbrkOps := by decide +kernel
  have hrun : (run next (firstState (n := 1) (fun _ => 100) (fun _ _ => 7)) mapSbrkOps).map
      (fun s => ((s.proc 0).state, (s.proc 1).state)) = some (.running, .running) := by
    decide +kernel
  obtain ⟨s, hs, hend⟩ := Option.map_eq_some_iff.mp hrun
  obtain ⟨h0, h1⟩ := Prod.mk.inj hend
  exact ⟨s, hs, vmas_wellformed _ s mapSbrkOps (firstState_noMaps _ _) hops hs 0 h0,
    vmas_wellformed _ s mapSbrkOps (firstState_noMaps _ _) hops hs 1 h1⟩

/-- Two mappings of 100 bytes. -/
def twoSmallOps : List (Op 1) :=
  [.openFile 0 5 false true true false, .mmap 0 100 1 1 0 0, .mmap 0 100 1 1 0 0]

/-- The second mapping starts inside the last page of the first one. -/
theorem small_maps_share_page :
    ∃ s : State 1, run next (firstState (fun _ => 100) (fun _ _ => 7)) twoSmallOps = some s ∧
      (s.proc 0).state = .running ∧ ¬VmasOk (s.proc 0) := by
  have hrun : (run next (firstState (n := 0) (fun _ => 100) (fun _ _ => 7)) twoSmallOps).map
      (fun s => ((s.proc 0).state, ((s.proc 0).vma 0).used, ((s.proc 0).vma 1).used,
        decide (((s.proc 0).vma 0).holds 1), decide (((s.proc 0).vma 1).holds 1))) =
      some (.running, true, true, true, true) := by
    decide +kernel
  obtain ⟨s, hs, hend⟩ := Option.map_eq_some_iff.mp hrun
  simp only [Prod.mk.injEq, decide_eq_true_eq] at hend
  obtain ⟨hstate, h0, h1, hk0, hk1⟩ := hend
  exact ⟨s, hs, hstate, fun hok => hok.apart 0 1 1 (by decide) h0 h1 hk0 hk1⟩

end Runs

end Xv6Labs.Mmap
