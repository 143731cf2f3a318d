import Xv6Labs.LazyTables

/-! The lazy kernel against the eager one. The eager table is the lazy one with a zeroed page
in every gap below the size, and every operation keeps it so. -/
namespace Xv6Labs.Lazy

open Mmap (PGSIZE MAXVA TRAMPOLINE TRAPFRAME PGROUNDDOWN int32 add64 uint32 Panic PTE Table Mem
  kalloc_plenty findPTE findPTE_rooted walkaddr walkaddr_eq walkaddr_none mappages
  mappages_plenty userPTE zeroPage emptyTable plenty translate page_div roundDown_div roundDown_le)

variable {n : Nat}

section Gaps

/-- The leaves with a zeroed page in every gap below `sz`. -/
def filled (sz : Nat) (leaf : Nat → Option PTE) : Nat → Option PTE := fun k =>
  match leaf k with
  | some e => some e
  | none => if k * PGSIZE < sz then some userPTE else none

variable {sz : Nat} {leaf : Nat → Option PTE}

theorem filled_some {k : Nat} {e : PTE} (h : leaf k = some e) : filled sz leaf k = some e := by
  simp only [filled, h]

theorem filled_gap {k : Nat} (h : leaf k = none) (hk : k * PGSIZE < sz) :
    filled sz leaf k = some userPTE := by
  simp only [filled, h, if_pos hk]

theorem filled_none {k : Nat} (h : leaf k = none) (hk : ¬k * PGSIZE < sz) :
    filled sz leaf k = none := by
  simp only [filled, h, if_neg hk]

theorem Fits.filled (h : Fits sz leaf) : Fits sz (filled sz leaf) := by
  have hcases (k : Nat) (e : PTE) (he : Lazy.filled sz leaf k = some e) :
      leaf k = some e ∨ (k * PGSIZE < sz ∧ e = userPTE) := by
    cases hl : leaf k with
    | some f =>
      rw [filled_some hl] at he
      exact Or.inl he
    | none =>
      by_cases hk : k * PGSIZE < sz
      · rw [filled_gap hl hk] at he
        exact Or.inr ⟨hk, (Option.some.inj he).symm⟩
      · rw [filled_none hl hk] at he
        cases he
  constructor
  · intro k e he
    rcases hcases k e he with hl | hl
    · exact h.range k e hl
    · exact Or.inl hl.1
  · intro k e he hk
    rcases hcases k e he with hl | hl
    · exact h.user k e hl hk
    · rw [hl.2]
      decide

/-- A page below the size that is mapped or written is the same in both. -/
theorem filled_update (k : Nat) (e : PTE) :
    filled sz (Function.update leaf k (some e)) = Function.update (filled sz leaf) k (some e) := by
  funext j
  by_cases hj : j = k
  · rw [hj, Function.update_self]
    exact filled_some (Function.update_self ..)
  · rw [Function.update_of_ne hj]
    simp only [filled, Function.update_of_ne hj]

theorem Fits.update (h : Fits sz leaf) {k : Nat} {e : PTE}
    (hin : k * PGSIZE < sz ∨ TRAPFRAME ≤ k * PGSIZE)
    (he : k * PGSIZE < sz → e.own = true ∧ e.noFlags = false) :
    Fits sz (Function.update leaf k (some e)) := by
  constructor
  · intro j f hf
    by_cases hj : j = k
    · rw [hj]
      exact hin
    · rw [Function.update_of_ne hj] at hf
      exact h.range j f hf
  · intro j f hf hk
    by_cases hj : j = k
    · subst hj
      rw [Function.update_self] at hf
      rw [← Option.some.inj hf]
      exact he hk
    · rw [Function.update_of_ne hj] at hf
      exact h.user j f hf hk

end Gaps

section Relation

/-- A running process of the lazy kernel and the same process of the eager kernel. -/
structure Alive (P Q : Proc) : Prop where
  small : P.sz < 2^31
  sz : Q.sz = P.sz
  killed : P.killed = false
  killed' : Q.killed = false
  rooted : P.table.Rooted
  rooted' : Q.table.Rooted
  fits : Fits P.sz P.table.leaf
  leaf : Q.table.leaf = filled P.sz P.table.leaf

structure SameProc (P Q : Proc) : Prop where
  state : Q.state = P.state
  fresh : P.state = .unused → P.killed = false ∧ Q.killed = false
  alive : P.state = .running → Alive P Q

/-- The two kernels, with enough memory. -/
structure Same (s e : State n) : Prop where
  mem : s.mem = plenty
  mem' : e.mem = plenty
  proc : ∀ p, SameProc (s.proc p) (e.proc p)

variable {s e : State n}

theorem Same.setProc (h : Same s e) (p : Fin n) {P Q : Proc} (hPQ : SameProc P Q) :
    Same (s.setProc p P) (e.setProc p Q) := by
  refine ⟨h.mem, h.mem', ?_⟩
  intro q
  by_cases hq : q = p
  · rw [hq]
    simpa [State.setProc] using hPQ
  · simpa [State.setProc, hq] using h.proc q

theorem Alive.sameProc {P Q : Proc} (h : Alive P Q) (hP : P.state = .running)
    (hQ : Q.state = .running) : SameProc P Q :=
  ⟨hQ.trans hP.symm, fun hu => absurd (hP.symm.trans hu) (by decide), fun _ => h⟩

theorem sameProc_zombie {P Q : Proc} (hP : P.state = .zombie) (hQ : Q.state = .zombie) :
    SameProc P Q :=
  ⟨hQ.trans hP.symm, fun hu => absurd (hP.symm.trans hu) (by decide),
    fun hr => absurd (hP.symm.trans hr) (by decide)⟩

theorem setMem_plenty (h : s.mem = plenty) : s.setMem plenty = s := by
  rw [← h]
  rfl

end Relation

section Accesses

variable {s e : State n} {P Q : Proc}

/-- The hardware finds in the eager table what it finds in the lazy one, if the page is
there. -/
theorem translate_mapped (h : Alive P Q) {va : Nat} (store : Bool) {f : PTE}
    (hf : P.table.leaf (va / PGSIZE) = some f) :
    translate Q.table va store = translate P.table va store := by
  have hf' : Q.table.leaf (va / PGSIZE) = some f := by
    rw [h.leaf]
    exact filled_some hf
  unfold Mmap.translate
  by_cases hva : va < MAXVA
  · rw [walkaddr_eq h.rooted hva, walkaddr_eq h.rooted' hva, hf, hf']
  · rw [walkaddr_none (by omega), walkaddr_none (by omega)]

theorem translate_user {t : Table} (hR : t.Rooted) {va : Nat} (hva : va < MAXVA) (store : Bool)
    (hf : t.leaf (va / PGSIZE) = some userPTE) : translate t va store = some userPTE := by
  unfold Mmap.translate
  rw [walkaddr_eq hR hva, hf]
  cases store <;> rfl

theorem translate_gap {t : Table} (hR : t.Rooted) {va : Nat} (store : Bool)
    (hf : t.leaf (va / PGSIZE) = none) : translate t va store = none := by
  unfold Mmap.translate
  by_cases hva : va < MAXVA
  · rw [walkaddr_eq hR hva, hf]
    rfl
  · rw [walkaddr_none (by omega)]

/-- r_sp() reads an address inside the kernel stack of the process. -/
def OnKstack (p sp : Nat) : Prop := KSTACK p < sp ∧ sp < KSTACK p + PGSIZE

instance (p sp : Nat) : Decidable (OnKstack p sp) := inferInstanceAs (Decidable (_ ∧ _))

theorem onKstack_ne {p sp : Nat} (h : OnKstack p sp) (va : Nat) : PGROUNDDOWN va ≠ sp := by
  obtain ⟨hlo, hhi⟩ := h
  unfold KSTACK TRAMPOLINE MAXVA PGSIZE at hlo hhi
  unfold PGROUNDDOWN PGSIZE
  omega

/-- uvmlazycheck accepts the gaps below the size. -/
theorem uvmlazycheck_eq (hR : P.table.Rooted) {sp va : Nat} (hsp : PGROUNDDOWN va ≠ sp)
    (hlow : PGROUNDDOWN va < P.sz → PGROUNDDOWN va < MAXVA) : uvmlazycheck P sp va =
      .ok (decide (PGROUNDDOWN va < P.sz) && (P.table.leaf (va / PGSIZE)).isNone) := by
  unfold uvmlazycheck
  by_cases hsz : PGROUNDDOWN va < P.sz
  · simp only []
    rw [if_pos ⟨hsz, hsp⟩]
    obtain ⟨o, ho, hjoin⟩ := findPTE_rooted hR (hlow hsz)
    rw [roundDown_div] at hjoin
    rw [ho, ← hjoin]
    rcases o with _ | _ | f <;> simp [hsz]
  · simp only []
    rw [if_neg (fun h => hsz h.1)]
    simp [hsz]

/-- A fault in a gap below the size maps a zeroed page. -/
theorem uvmlazyalloc_gap {va : Nat} (hR : P.table.Rooted) (hva : va < MAXVA)
    (hgap : P.table.leaf (va / PGSIZE) = none) : ∃ t, uvmlazyalloc plenty P va =
      .ok (plenty, { P with table := t }) ∧ t.Rooted ∧
        t.leaf = Function.update P.table.leaf (va / PGSIZE) (some userPTE) := by
  have hdown := roundDown_le va
  obtain ⟨t, hmap, hR', hgrow⟩ := mappages_plenty hR
    (show PGROUNDDOWN va < MAXVA by omega)
    (by rw [roundDown_div]; exact hgap) userPTE
  rw [roundDown_div] at hgrow
  refine ⟨t, ?_, hR', hgrow.leaf_eq⟩
  unfold uvmlazyalloc
  simp only [kalloc_plenty, if_true, hmap, ok_bind]
  simp

/-- Filling a gap of the lazy table changes nothing for the eager one. -/
theorem Alive.fill (h : Alive P Q) {t : Table} {k : Nat} (hR : t.Rooted)
    (hk : k * PGSIZE < P.sz) (hgap : P.table.leaf k = none)
    (ht : t.leaf = Function.update P.table.leaf k (some userPTE)) :
    Alive { P with table := t } Q := by
  refine ⟨h.small, h.sz, h.killed, h.killed', hR, h.rooted', ?_, ?_⟩
  · rw [ht]
    exact h.fits.update (Or.inl hk) (fun _ => by decide)
  · rw [ht, filled_update, h.leaf]
    funext j
    by_cases hj : j = k
    · rw [hj, Function.update_self]
      exact filled_gap hgap hk
    · rw [Function.update_of_ne hj]

theorem translate_leaf {t : Table} (hR : t.Rooted) {va : Nat} {store : Bool} {f : PTE}
    (hf : translate t va store = some f) : t.leaf (va / PGSIZE) = some f := by
  unfold Mmap.translate at hf
  by_cases hva : va < MAXVA
  · rw [walkaddr_eq hR hva] at hf
    cases hl : t.leaf (va / PGSIZE) with
    | none => simp [hl] at hf
    | some g =>
      rw [hl] at hf
      by_cases hu : g.u = true
      · rw [Option.filter_some_pos hu] at hf
        by_cases hperm : (g.r && (!store || g.w)) = true
        · simp only [hperm, if_true] at hf
          exact hf
        · simp [hperm] at hf
      · rw [Option.filter_some_neg (by simpa using hu)] at hf
        cases hf
  · rw [walkaddr_none (by omega)] at hf
    cases hf

/-- A fault that uvmlazycheck does not accept kills the process, as every fault of the eager
kernel does. -/
theorem usertrap_kills (p : Fin n) {sp va : Nat}
    (hcheck : uvmlazycheck (s.proc p) sp va = .ok false) :
    usertrap s p sp va = .ok (eagerTrap s p) := by
  unfold usertrap pageFault
  simp only [hcheck, ok_bind, Bool.false_eq_true, if_false, if_true]
  rfl

theorem Same.eagerTrap (h : Same s e) (p : Fin n) : Same (eagerTrap s p) (eagerTrap e p) := by
  unfold Lazy.eagerTrap Lazy.exit
  refine ⟨h.mem, h.mem', ?_⟩
  intro q
  by_cases hq : q = p
  · subst hq
    apply sameProc_zombie <;> simp [State.setProc]
  · simpa [State.setProc, hq] using h.proc q

/-- Two accesses that find the same PTE of a running process, or that both kill it. -/
def SameAccess (p : Fin n) (va : Nat) (x y : Except Panic (Option (State n × Option PTE))) : Prop :=
  ∃ s' e' r, x = .ok (some (s', r)) ∧ y = .ok (some (e', r)) ∧ Same s' e' ∧
    ∀ f, r = some f → (s'.proc p).state = .running ∧ (s'.proc p).table.leaf (va / PGSIZE) = some f

theorem access_killed (h : Same s e) (p : Fin n) {sp va : Nat} {store : Bool}
    (hnone : translate (s.proc p).table va store = none)
    (hnone' : translate (e.proc p).table va store = none)
    (hcheck : uvmlazycheck (s.proc p) sp va = .ok false) :
    SameAccess p va (access (fun s => usertrap s p sp va) s p va store)
      (access (fun s => .ok (eagerTrap s p)) e p va store) := by
  have hdead (s : State n) : ((eagerTrap s p).proc p).state ≠ .running := by
    simp [eagerTrap, exit, State.setProc]
  refine ⟨eagerTrap s p, eagerTrap e p, none, ?_, ?_, h.eagerTrap p, fun f hf => nomatch hf⟩
  · simp only [access, hnone, usertrap_kills p hcheck, ok_bind]
    rw [if_neg (hdead s)]
  · simp only [access, hnone', ok_bind]
    rw [if_neg (hdead e)]

/-- Both kernels find the same PTE, or both kill the process. -/
theorem access_same (h : Same s e) (p : Fin n) (hrun : (s.proc p).state = .running) {sp : Nat}
    (va : Nat) (hsp : OnKstack p sp) (store : Bool) :
    SameAccess p va (access (fun s => usertrap s p sp va) s p va store)
      (access (fun s => .ok (eagerTrap s p)) e p va store) := by
  have hA := (h.proc p).alive hrun
  have hcheck := uvmlazycheck_eq hA.rooted (onKstack_ne hsp va) (fun hlt => by
    have := hA.small
    unfold MAXVA
    omega)
  cases hl : (s.proc p).table.leaf (va / PGSIZE) with
  | some f =>
    -- the page is mapped, so both kernels find the same PTE
    have htr := translate_mapped hA store hl
    cases hf : translate (s.proc p).table va store with
    | some g =>
      refine ⟨s, e, some g, by simp only [access, hf], by simp only [access, htr, hf], h, ?_⟩
      intro f' hf'
      cases hf'
      exact ⟨hrun, translate_leaf hA.rooted hf⟩
    | none =>
      apply access_killed h p hf (htr.trans hf)
      rw [hcheck, hl]
      simp
  | none =>
    have hnone := translate_gap hA.rooted store hl
    by_cases hsz : PGROUNDDOWN va < (s.proc p).sz
    · -- a gap: the lazy kernel maps the zeroed page that the eager one has
      have hva : va < MAXVA := by
        have hsmall := hA.small
        have hdown := Mmap.lt_roundDown_add va
        unfold MAXVA
        unfold PGSIZE at hdown
        omega
      obtain ⟨t, halloc, hR, ht⟩ := uvmlazyalloc_gap hA.rooted hva hl
      obtain ⟨s', hs'⟩ : ∃ s', s' = s.setProc p { s.proc p with table := t } := ⟨_, rfl⟩
      have htrap : usertrap s p sp va = .ok s' := by
        unfold usertrap pageFault
        rw [hcheck, hl, h.mem, hs']
        simp only [hsz, decide_true, Option.isNone_none, Bool.and_true, ok_bind, if_true, halloc,
          hA.killed, Bool.false_eq_true, if_false, setMem_plenty h.mem]
      have hstate : (s'.proc p).state = .running := by
        simpa [hs', State.setProc] using hrun
      have htable : (s'.proc p).table = t := by
        simp [hs', State.setProc]
      have hleaf : t.leaf (va / PGSIZE) = some userPTE := by
        rw [ht, Function.update_self]
      have hfill := hA.fill hR (k := va / PGSIZE) hsz hl ht
      have hsame : Same s' e := by
        have := h.setProc p (hfill.sameProc hrun ((h.proc p).state.trans hrun))
        rw [hs']
        rwa [State.setProc, State.setProc, Function.update_eq_self] at this
      refine ⟨s', e, some userPTE, ?_, ?_, hsame, ?_⟩
      · simp only [access, hnone, htrap, ok_bind, hstate, if_true, htable,
          translate_user hR hva store hleaf]
      · have hleaf' : (e.proc p).table.leaf (va / PGSIZE) = some userPTE := by
          rw [hA.leaf]
          exact filled_gap hl hsz
        simp only [access, translate_user hA.rooted' hva store hleaf']
      · intro f hf
        cases hf
        rw [htable]
        exact ⟨hstate, hleaf⟩
    · -- beyond the size: both kill the process
      apply access_killed h p hnone (translate_gap hA.rooted' store ?_)
      · rw [hcheck]
        simp [hsz]
      · rw [hA.leaf]
        exact filled_none hl hsz

/-- A byte stored through a PTE that both kernels have. -/
theorem putByte_same (h : Same s e) (p : Fin n) (hrun : (s.proc p).state = .running) (va : Nat)
    (b : UInt8) {f : PTE} (hf : (s.proc p).table.leaf (va / PGSIZE) = some f) :
    Same (putByte s p va b f) (putByte e p va b f) := by
  have hA := (h.proc p).alive hrun
  have hf' : (e.proc p).table.leaf (va / PGSIZE) = some f := by
    rw [hA.leaf]
    exact filled_some hf
  apply h.setProc
  apply Alive.sameProc
  · refine ⟨hA.small, hA.sz, hA.killed, hA.killed', hA.rooted.set_some hf _,
      hA.rooted'.set_some hf' _, ?_, ?_⟩
    · exact hA.fits.update (hA.fits.range _ f hf) (hA.fits.user _ f hf)
    · simp only [Table.set, hA.leaf, filled_update]
  · exact hrun
  · exact (h.proc p).state.trans hrun

theorem touch_same (h : Same s e) (p : Fin n) (hrun : (s.proc p).state = .running) {sp : Nat}
    (va : Nat) (hsp : OnKstack p sp) (b : Option UInt8) : ∃ s' e' o,
    touch (fun s => usertrap s p sp va) s p va b = .ok (some (s', o)) ∧
    touch (fun s => .ok (eagerTrap s p)) e p va b = .ok (some (e', o)) ∧ Same s' e' := by
  obtain ⟨s', e', r, hs', he', hsame, hfound⟩ := access_same h p hrun va hsp b.isSome
  unfold touch
  rw [hs', he']
  cases r with
  | none => exact ⟨s', e', .killed, rfl, rfl, hsame⟩
  | some f =>
    obtain ⟨hrun', hleaf⟩ := hfound f rfl
    cases b with
    | none => exact ⟨s', e', _, rfl, rfl, hsame⟩
    | some b => exact ⟨_, _, .stored, rfl, rfl, putByte_same hsame p hrun' va b hleaf⟩

end Accesses

section Sizes

variable {s e : State n} {P Q : Proc}

theorem gap_of_fits {sz newsz k : Nat} {leaf : Nat → Option PTE} (h : Fits sz leaf)
    (hsmall : newsz < 2^31) (hk : npages sz ≤ k) (hk' : k < npages newsz) : leaf k = none := by
  cases he : leaf k with
  | none => rfl
  | some f =>
    have hlow := (lt_npages newsz k).mp hk'
    rcases h.range k f he with hin | hin
    · have := (lt_npages sz k).mpr hin
      omega
    · unfold TRAPFRAME TRAMPOLINE MAXVA PGSIZE at hin
      unfold PGSIZE at hlow
      omega

/-- Shrinking both tables. -/
theorem Alive.shrink (h : Alive P Q) {newsz : Nat} (hle : newsz ≤ P.sz) :
    Alive { P with table := P.table.clear (npages newsz) (npages P.sz - npages newsz), sz := newsz }
      { Q with
        table := Q.table.clear (npages newsz) (npages P.sz - npages newsz)
        sz := newsz } := by
  have hmono := npages_mono hle
  have hsmall := h.small
  refine ⟨by simp only; omega, rfl, h.killed, h.killed', h.rooted.clear _ _,
    h.rooted'.clear _ _, ⟨?_, ?_⟩, ?_⟩
  · intro k f hf
    simp only [Table.clear] at hf
    by_cases hin : npages newsz ≤ k ∧ k < npages newsz + (npages P.sz - npages newsz)
    · simp [hin] at hf
    · rw [if_neg hin] at hf
      rcases h.fits.range k f hf with hlow | hhigh
      · have := (lt_npages P.sz k).mpr hlow
        exact Or.inl ((lt_npages newsz k).mp (by omega))
      · exact Or.inr hhigh
  · intro k f hf hk
    simp only [Table.clear] at hf
    by_cases hin : npages newsz ≤ k ∧ k < npages newsz + (npages P.sz - npages newsz)
    · simp [hin] at hf
    · rw [if_neg hin] at hf
      simp only at hk
      exact h.fits.user k f hf (by omega)
  · funext k
    simp only [Table.clear, h.leaf]
    by_cases hin : npages newsz ≤ k ∧ k < npages newsz + (npages P.sz - npages newsz)
    · have hout : ¬k * PGSIZE < newsz := by
        rw [← lt_npages]
        omega
      rw [if_pos hin]
      exact (filled_none (if_pos hin) hout).symm
    · -- a page outside the range is a gap below the new size iff it was one below the old
      have hiff : k * PGSIZE < newsz ↔ k * PGSIZE < P.sz := by
        rw [← lt_npages, ← lt_npages]
        omega
      rw [if_neg hin]
      simp only [filled, if_neg hin, hiff]

/-- Growing gives gaps to the lazy table and zeroed pages to the eager one. -/
theorem Alive.grow (h : Alive P Q) {newsz : Nat} (hle : P.sz ≤ newsz) (hsmall : newsz < 2^31)
    {t : Table} (hR : t.Rooted)
    (ht : t.leaf = fun k => if npages P.sz ≤ k ∧ k < npages newsz then some userPTE
      else Q.table.leaf k) :
    Alive { P with sz := newsz } { Q with table := t, sz := newsz } := by
  have hmono := npages_mono hle
  refine ⟨hsmall, rfl, h.killed, h.killed', h.rooted, hR, ⟨?_, ?_⟩, ?_⟩
  · intro k f hf
    rcases h.fits.range k f hf with hlow | hhigh
    · exact Or.inl (Nat.lt_of_lt_of_le hlow hle)
    · exact Or.inr hhigh
  · intro k f hf hk
    apply h.fits.user k f hf
    rw [← lt_npages]
    by_contra hge
    have hnone := gap_of_fits h.fits hsmall (by omega) ((lt_npages newsz k).mpr hk)
    simp [hnone] at hf
  · rw [ht, h.leaf]
    funext k
    by_cases hin : npages P.sz ≤ k ∧ k < npages newsz
    · have hnone := gap_of_fits h.fits hsmall hin.1 hin.2
      rw [if_pos hin]
      exact (filled_gap hnone ((lt_npages newsz k).mp hin.2)).symm
    · have hiff : k * PGSIZE < newsz ↔ k * PGSIZE < P.sz := by
        rw [← lt_npages, ← lt_npages]
        omega
      rw [if_neg hin]
      simp only [filled, hiff]

theorem sbrk_same (h : Same s e) (p : Fin n) (hrun : (s.proc p).state = .running) (k : Int)
    (hlo : 0 ≤ ((s.proc p).sz : Int) + k) (hhi : ((s.proc p).sz : Int) + k < 2^31) : ∃ s' e' a,
    sysSbrk s p k = .ok (s', a) ∧ eagerSbrk e p k = .ok (e', a) ∧ Same s' e' := by
  have hA := (h.proc p).alive hrun
  have hrun' : (e.proc p).state = .running := (h.proc p).state.trans hrun
  have hsmall := hA.small
  have hfit' : Fits (s.proc p).sz (e.proc p).table.leaf := by
    rw [hA.leaf]
    exact hA.fits.filled
  obtain ⟨newsz, hnew⟩ : ∃ newsz : Nat, (newsz : Int) = (s.proc p).sz + k :=
    ⟨((s.proc p).sz + k).toNat, Int.toNat_of_nonneg hlo⟩
  have hadd : add64 (s.proc p).sz k = newsz := by
    unfold add64
    omega
  have huint : uint32 (s.proc p).sz = (s.proc p).sz := by
    unfold uint32
    omega
  have hmod : ((((s.proc p).sz : Int) + k) % 2^32).toNat = newsz := by omega
  have huint' : uint32 newsz = newsz := by
    unfold uint32
    omega
  unfold sysSbrk eagerSbrk
  simp only [hA.sz, huint, hmod, hadd]
  rcases Int.lt_trichotomy k 0 with hk | hk | hk
  · have hle : newsz ≤ (s.proc p).sz := by omega
    rw [if_pos hk, if_neg (show ¬0 < k by omega), if_pos hk,
      uvmdealloc_eq hA.rooted hA.fits hle hsmall, uvmdealloc_eq hA.rooted' hfit' hle hsmall]
    refine ⟨_, _, _, rfl, rfl, h.setProc p ?_⟩
    simp only [huint']
    exact (hA.shrink hle).sameProc hrun hrun'
  · have heq : newsz = (s.proc p).sz := by omega
    rw [if_neg (by omega), if_neg (by omega), if_neg (by omega), heq]
    refine ⟨_, _, _, rfl, rfl, h.setProc p ?_⟩
    rw [← hA.sz]
    have hA' : Alive { s.proc p with sz := (e.proc p).sz } (e.proc p) := by
      rw [hA.sz]
      exact hA
    exact hA'.sameProc hrun hrun'
  · have hle : (s.proc p).sz ≤ newsz := by omega
    obtain ⟨t, halloc, hR, ht⟩ := uvmalloc_plenty hA.rooted' hfit' hle (by omega)
    rw [if_neg (by omega), if_pos hk, h.mem', halloc]
    simp only [ok_bind]
    rw [if_neg (by omega), setMem_plenty h.mem']
    refine ⟨_, _, _, rfl, rfl, h.setProc p ?_⟩
    rw [huint']
    exact (hA.grow hle (by omega) hR ht).sameProc hrun hrun'

/-- A fork that finds all the memory it needs. -/
theorem fork_plenty {p q : Fin n} (hmem : s.mem = plenty) (hpq : p ≠ q) {new t : Table}
    (hnew : procPagetable plenty = .ok (plenty, some new))
    (hcopy : uvmcopy plenty (s.proc p).table new (s.proc p).sz = .ok (plenty, t, true)) :
    fork s p q = .ok (s.setProc q
      { s.proc q with table := t, state := .running, sz := (s.proc p).sz }, true) := by
  unfold fork
  simp only [hmem, kalloc_plenty, if_true, hnew, ok_bind, hcopy, setMem_plenty hmem]
  simp [State.setProc, hpq]

/-- fork copies the pages that are there; the gaps of the child are those of the parent. -/
theorem fork_same (h : Same s e) (p q : Fin n) (hrun : (s.proc p).state = .running)
    (hq : (s.proc q).state = .unused) : ∃ s' e' b,
    fork s p q = .ok (s', b) ∧ fork e p q = .ok (e', b) ∧ Same s' e' := by
  have hA := (h.proc p).alive hrun
  have hsmall := hA.small
  have hfit' : Fits (s.proc p).sz (e.proc p).table.leaf := by
    rw [hA.leaf]
    exact hA.fits.filled
  obtain ⟨new, hnew, hRnew, hfree⟩ := procPagetable_plenty
  have hbelow (k : Nat) (hk : k < npages (s.proc p).sz) : new.leaf k = none := by
    apply hfree
    have := (lt_npages _ _).mp hk
    unfold TRAPFRAME TRAMPOLINE MAXVA PGSIZE
    unfold PGSIZE at this
    omega
  obtain ⟨t, hcopy, hR, ht⟩ := uvmcopy_plenty hA.rooted hA.fits hRnew hsmall hbelow
  obtain ⟨t', hcopy', hR', ht'⟩ := uvmcopy_plenty hA.rooted' hfit' hRnew hsmall hbelow
  have hfresh := (h.proc q).fresh hq
  have hpq : p ≠ q := fun heq => by
    rw [heq, hq] at hrun
    cases hrun
  refine ⟨s.setProc q { s.proc q with table := t, state := .running, sz := (s.proc p).sz },
    e.setProc q { e.proc q with table := t', state := .running, sz := (s.proc p).sz }, true,
    ?_, ?_, ?_⟩
  · exact fork_plenty h.mem hpq hnew hcopy
  · rw [← hA.sz] at hcopy' ⊢
    exact fork_plenty h.mem' hpq hnew hcopy'
  · apply h.setProc
    apply Alive.sameProc _ rfl rfl
    -- a page of the child comes from the parent, or it lies past every size
    have hpage (k : Nat) (f : PTE) (hf : t.leaf k = some f) :
        (s.proc p).table.leaf k = some f ∧ k < npages (s.proc p).sz ∨
          TRAPFRAME ≤ k * PGSIZE := by
      rw [ht] at hf
      simp only at hf
      by_cases hk : k < npages (s.proc p).sz
      · rw [if_pos hk] at hf
        exact Or.inl ⟨hf, hk⟩
      · rw [if_neg hk] at hf
        by_contra hnot
        simp [hfree k (by omega)] at hf
    refine ⟨hsmall, rfl, hfresh.1, hfresh.2, hR, hR', ⟨?_, ?_⟩, ?_⟩
    · intro k f hf
      rcases hpage k f hf with hl | hl
      · exact Or.inl ((lt_npages _ _).mp hl.2)
      · exact Or.inr hl
    · intro k f hf hk
      rcases hpage k f hf with hl | hl
      · exact hA.fits.user k f hl.1 hk
      · simp only at hk
        unfold TRAPFRAME TRAMPOLINE MAXVA at hl
        unfold PGSIZE at hl hk
        omega
    · rw [ht', ht, hA.leaf]
      funext k
      by_cases hk : k < npages (s.proc p).sz
      · simp only [filled, if_pos hk]
      · have hout : ¬k * PGSIZE < (s.proc p).sz := by
          rw [← lt_npages]
          exact hk
        simp only [filled, if_neg hk, if_neg hout]
        cases new.leaf k <;> rfl

end Sizes

section Runs

variable {s e : State n}

/-- sbrk keeps the size below 2^31, and a trap runs on the kernel stack of its process. -/
def InRange (s : State n) : Op n → Prop
  | .sbrk p k => 0 ≤ ((s.proc p).sz : Int) + k.toInt ∧ ((s.proc p).sz : Int) + k.toInt < 2^31
  | .fork _ _ => True
  | .load p _ sp | .store p _ sp _ => OnKstack p sp

theorem step_same (h : Same s e) (op : Op n) (hop : InRange s op) :
    ∃ s' e' o, lazyStep s op = some (s', o) ∧ eagerStep e op = some (e', o) ∧ Same s' e' := by
  unfold lazyStep eagerStep stepWith
  rw [(h.proc op.caller).state]
  by_cases hrun : (s.proc op.caller).state = .running
  · rw [if_pos hrun, if_pos hrun]
    cases op with
    | sbrk p k =>
      obtain ⟨s', e', a, hs', he', hsame⟩ := sbrk_same h p hrun k.toInt hop.1 hop.2
      simp only [hs', he', ok_bind]
      exact ⟨s', e', _, rfl, rfl, hsame⟩
    | fork p q =>
      simp only [(h.proc q).state]
      by_cases hq : (s.proc q).state = .unused
      · obtain ⟨s', e', b, hs', he', hsame⟩ := fork_same h p q hrun hq
        simp only [if_pos hq, hs', he', ok_bind]
        exact ⟨s', e', _, rfl, rfl, hsame⟩
      · simp only [if_neg hq]
        exact ⟨s, e, _, rfl, rfl, h⟩
    | load p va sp =>
      obtain ⟨s', e', o, hs', he', hsame⟩ := touch_same h p hrun va hop none
      simp only [hs', he']
      exact ⟨s', e', o, rfl, rfl, hsame⟩
    | store p va sp b =>
      obtain ⟨s', e', o, hs', he', hsame⟩ := touch_same h p hrun va hop (some b)
      simp only [hs', he']
      exact ⟨s', e', o, rfl, rfl, hsame⟩
  · rw [if_neg hrun, if_neg hrun]
    exact ⟨s, e, _, rfl, rfl, h⟩

/-- Lazy allocation shows in no value that is loaded and in no decision to kill. -/
theorem lazy_as_eager (s e : State n) (ops : List (Op n)) (h : Same s e)
    (hops : Guarded (fun s op => (lazyStep s op).map Prod.fst) InRange s ops) :
    ∃ s' e' outs, runOut lazyStep s ops = some (s', outs) ∧
      runOut eagerStep e ops = some (e', outs) :=
  let ⟨s', e', outs, hs', he', _⟩ := runOut_both lazyStep eagerStep InRange Same
    (fun _ _ op h hop => step_same h op hop) s e ops h hops
  ⟨s', e', outs, hs', he'⟩

/-- A process whose pages below the size are all there, as exec leaves it, is the same for
both kernels. -/
theorem Alive.self {P : Proc} (hsmall : P.sz < 2^31) (hkilled : P.killed = false)
    (hR : P.table.Rooted) (hfit : Fits P.sz P.table.leaf)
    (hfull : ∀ k, k * PGSIZE < P.sz → P.table.leaf k ≠ none) : Alive P P := by
  refine ⟨hsmall, rfl, hkilled, hkilled, hR, hR, hfit, ?_⟩
  funext k
  cases hl : P.table.leaf k with
  | some f => exact (filled_some hl).symm
  | none => exact (filled_none hl (fun hk => hfull k hk hl)).symm

instance (s : State n) (op : Op n) : Decidable (InRange s op) := by
  cases op <;> unfold InRange <;> infer_instance

/-- initcode's process, with its one page. -/
def initProc : Proc where
  state := .running
  sz := PGSIZE
  table := ⟨fun _ => true, fun _ => true, fun k => if k = 0 then some userPTE
    else if k = TRAPFRAME / PGSIZE then some Mmap.trapframePTE
    else if k = TRAMPOLINE / PGSIZE then some Mmap.trampolinePTE else none⟩
  killed := false

/-- Two processes, of which the first is initcode's. -/
def initState : State 2 where
  proc p := if p = 0 then initProc else ⟨.unused, 0, emptyTable, false⟩
  mem := plenty

theorem initState_same : Same initState initState := by
  refine ⟨rfl, rfl, ?_⟩
  intro p
  by_cases hp : p = 0
  · rw [show initState.proc p = initProc from if_pos hp]
    apply Alive.sameProc _ rfl rfl
    refine Alive.self (by decide) rfl (fun _ _ _ => ⟨rfl, rfl⟩) ⟨?_, ?_⟩ ?_
    · intro k f hf
      simp only [initProc] at hf ⊢
      unfold TRAPFRAME TRAMPOLINE MAXVA PGSIZE at *
      split_ifs at hf <;> omega
    · intro k f hf hk
      have hk0 : k = 0 := by
        simp only [initProc] at hk
        unfold PGSIZE at hk
        omega
      rw [hk0] at hf
      cases hf
      decide
    · intro k hk
      have hk0 : k = 0 := by
        simp only [initProc] at hk
        unfold PGSIZE at hk
        omega
      rw [hk0]
      exact fun h => nomatch h
  · rw [show initState.proc p = ⟨.unused, 0, emptyTable, false⟩ from if_neg hp]
    exact ⟨rfl, fun _ => ⟨rfl, rfl⟩, fun hr => nomatch hr⟩

/-- Grow by three pages and a bit, write, fork, give the written page back, take it again and
read it, in a process and its child; then read past the size. -/
def growShrinkOps : List (Op 2) :=
  [.sbrk 0 12289, .store 0 8200 (KSTACK 0 + 16) 7, .fork 0 1, .sbrk 0 (-9000), .sbrk 0 9000,
    .load 0 8200 (KSTACK 0 + 16), .load 1 8200 (KSTACK 1 + 16), .load 1 20479 (KSTACK 1 + 16),
    .load 1 20480 (KSTACK 1 + 16)]

theorem lazy_as_eager_growShrink :
    Guarded (fun s op => (lazyStep s op).map Prod.fst) InRange initState growShrinkOps ∧
    ∃ s' e' outs, runOut lazyStep initState growShrinkOps = some (s', outs) ∧
      runOut eagerStep initState growShrinkOps = some (e', outs) := by
  have hops : Guarded (fun s op => (lazyStep s op).map Prod.fst) InRange initState
      growShrinkOps := by decide +kernel
  exact ⟨hops, lazy_as_eager initState initState growShrinkOps initState_same hops⟩

end Runs

end Xv6Labs.Lazy
