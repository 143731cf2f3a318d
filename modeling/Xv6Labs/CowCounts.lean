import Xv6Labs.CowProcs

/-! The reference counts are exact: after kinit and any calls of the allocator and of vm.c,
failing or not, the count of a page is the number of its users. -/
namespace Xv6Labs.Cow

variable {n kend : Nat} {s : State n}

section Calls

/-- The calls. kfree gives back a page that a direct caller of kalloc holds; cow_alloc is
called after cow_check, as in usertrap and copyout; uvmcopy fills a fresh table. -/
inductive Call (n : Nat) where
  | kalloc
  | kfree (pa : Nat)
  | uvmcreate (t : Fin n)
  | uvmalloc (t : Fin n) (newsz : Nat)
  | uvmdealloc (t : Fin n) (newsz : Nat)
  | uvmcopy (old new : Fin n)
  | uvmclear (t : Fin n) (va : Nat)
  | cowAlloc (t : Fin n) (va : Nat)
  | uvmfree (t : Fin n)

def call (s : State n) : Call n → Option (State n)
  | .kalloc =>
    match kalloc s with
    | (s, none) => some s
    | (s, some pa) => some { s with held := pa :: s.held }
  | .kfree pa => if pa ∈ s.held then kfree { s with held := s.held.erase pa } pa else none
  | .uvmcreate t => if s.node (t, .root) = none then some (uvmcreate s t).1 else none
  | .uvmalloc t newsz => if s.node (t, .root) ≠ none then growTo s t newsz else none
  | .uvmdealloc t newsz => if s.node (t, .root) ≠ none then shrinkTo s t newsz else none
  | .uvmcopy old new =>
    if old ≠ new ∧ s.node (new, .root) ≠ none ∧ s.sz new = 0 then
      (copyTo uvmcopy s old new).map Prod.fst
    else none
  | .uvmclear t va => uvmclear s t va
  | .cowAlloc t va => if cowCheck s t va then cowAlloc s t va else none
  | .uvmfree t => if s.node (t, .root) ≠ none then freeTable s t else none

theorem call_ok (h : Ok true kend s) (c : Call n) (s' : State n) (hs : call s c = some s') :
    Ok true kend s' := by
  cases c with
  | kalloc =>
    rcases kalloc_spec h.inv with hfail | ⟨s₁, r, halloc, hg, -⟩
    · simp only [call, hfail, Option.some.injEq] at hs
      subst hs
      exact h.same _ h.inv.fail.inv rfl rfl (fun k => Iff.rfl) (fun t ht => ht)
    · simp only [call, halloc, Option.some.injEq] at hs
      subst hs
      apply h.same _ hg.inv.hold hg.rest.kend hg.rest.sz
      · intro k
        change view s₁ k ≠ none ↔ _
        rw [hg.view]
      · intro t ht
        rw [← hg.rest.roots]
        exact ht
  | kfree pa =>
    simp only [call] at hs
    split at hs
    · rename_i hpa
      obtain ⟨s₁, hs₁, hinv, hrest, hleaf, hnode, -⟩ := kfree_spec (h.inv.unhold hpa)
      rw [hs₁] at hs
      cases hs
      apply h.same _ hinv hrest.kend hrest.sz
      · intro k
        rw [view_ne_none, view_ne_none, hleaf]
      · intro t ht
        rw [hnode] at ht
        exact ht
    · cases hs
  | uvmcreate t =>
    simp only [call] at hs
    split at hs
    · rename_i hnone
      obtain ⟨s₁, b, hs₁, hok, -⟩ := create_ok h t hnone
      simp only [hs₁, Option.some.injEq] at hs
      subst hs
      exact hok
    · cases hs
  | uvmalloc t newsz =>
    simp only [call] at hs
    split at hs
    · rename_i hroot
      rcases growTo_spec h t newsz hroot with ⟨s₁, hs₁, hok, -⟩ | ⟨hnone, -⟩
      · rw [hs₁] at hs
        cases hs
        exact hok
      · rw [hnone] at hs
        cases hs
    · cases hs
  | uvmdealloc t newsz =>
    simp only [call] at hs
    split at hs
    · rename_i hroot
      obtain ⟨s₁, hs₁, hok, -⟩ := shrinkTo_spec h t newsz hroot
      rw [hs₁] at hs
      cases hs
      exact hok
    · cases hs
  | uvmcopy old new =>
    simp only [call] at hs
    split at hs
    · rename_i hnew
      obtain ⟨s₁, b, hs₁, hok, -⟩ := copyTo_spec uvmcopy_copySpec h old new hnew.1 hnew.2.1 hnew.2.2
      rw [hs₁] at hs
      cases hs
      exact hok
    · cases hs
  | uvmclear t va => exact uvmclear_ok h t va s' hs
  | cowAlloc t va =>
    simp only [call] at hs
    split at hs
    · -- cow_check has found the PTE that cow_alloc works on
      rename_i hc
      obtain ⟨hva, -, e, he, -⟩ := cowCheck_leaf h.inv t va hc
      obtain ⟨s₁, hs₁, hok, -⟩ := cowAlloc_ok h t va hva e he
      rw [hs₁] at hs
      cases hs
      exact hok
    · cases hs
  | uvmfree t =>
    simp only [call] at hs
    split at hs
    · obtain ⟨s₁, hs₁, hok, -⟩ := freeTable_spec h t
      rw [hs₁] at hs
      cases hs
      exact hok
    · cases hs

end Calls

section Boot

theorem freerangePages_isPage (kend : Nat) (hk : KERNBASE ≤ kend) (pa : Nat) :
    pa ∈ freerangePages kend ↔ IsPage kend pa := by
  unfold freerangePages IsPage
  simp only [List.mem_map, List.mem_range]
  unfold PGROUNDUP PHYSTOP KERNBASE PGSIZE
  unfold KERNBASE at hk
  constructor
  · rintro ⟨i, hi, rfl⟩
    omega
  · intro hp
    exact ⟨(pa - (kend + 4096 - 1) / 4096 * 4096) / 4096, by omega, by omega⟩

theorem freerangePages_nodup (kend : Nat) : (freerangePages kend).Nodup := by
  unfold freerangePages
  apply List.nodup_range.map
  intro i j hij
  simp only [PGSIZE] at hij
  omega

/-- kfree of pages whose counters are 0: they go on the free list with the count -1. -/
theorem freeAll_spec (l : List Nat) (hk : KERNBASE ≤ s.kend) (hl : l.Nodup)
    (hp : ∀ q ∈ l, IsPage s.kend q ∧ s.ref q = 0) :
    ∃ s', l.foldlM kfree s = some s' ∧ s'.freelist = l.reverse ++ s.freelist ∧
      s'.kend = s.kend ∧ s'.leaf = s.leaf ∧ s'.node = s.node ∧ s'.held = s.held ∧
      s'.sz = s.sz ∧ s'.failed = s.failed ∧
      ∀ q, IsPage s.kend q → s'.ref q = if q ∈ l then -1 else s.ref q := by
  induction l generalizing s with
  | nil => exact ⟨s, rfl, rfl, rfl, rfl, rfl, rfl, rfl, rfl, fun q _ => by simp⟩
  | cons p l ih =>
    obtain ⟨hpl, hl⟩ := List.nodup_cons.mp hl
    obtain ⟨hpage, href⟩ := hp p (by simp)
    have hok : ¬(p % PGSIZE ≠ 0 ∨ p < s.kend ∨ PHYSTOP ≤ p) := by
      obtain ⟨h1, h2, h3⟩ := hpage
      omega
    have hself : (s.setRef p (s.ref p - 1)).ref p = -1 := by
      rw [setRef_ref hk hpage hpage, if_pos rfl, href]
      rfl
    have hkfree : kfree s p = some { (s.setRef p (s.ref p - 1)).fill p (fun _ => 1) with
        freelist := p :: s.freelist } := by
      unfold kfree
      rw [if_neg hok]
      simp only [hself]
      rfl
    obtain ⟨s', hs', hfree, hkend, hleaf, hnode, hheld, hsz, hfailed, hlow⟩ :=
      ih (s := { (s.setRef p (s.ref p - 1)).fill p (fun _ => 1) with
        freelist := p :: s.freelist }) hk hl (by
        intro q hq
        have hqp : q ≠ p := by
          rintro rfl
          exact hpl hq
        refine ⟨(hp q (by simp [hq])).1, ?_⟩
        have hr := setRef_ref hk hpage (hp q (by simp [hq])).1 (s.ref p - 1)
        rw [if_neg hqp, (hp q (by simp [hq])).2] at hr
        exact hr)
    refine ⟨s', ?_, ?_, hkend, hleaf, hnode, hheld, hsz, hfailed, ?_⟩
    · rw [List.foldlM_cons, hkfree]
      exact hs'
    · rw [hfree]
      simp
    · intro q hq
      have hr : s'.ref q = if q ∈ l then -1 else (s.setRef p (s.ref p - 1)).ref q := hlow q hq
      rw [hr, setRef_ref hk hpage hq, href]
      by_cases hqp : q = p
      · rw [hqp, if_neg hpl, if_pos rfl, if_pos (by simp)]
        rfl
      · simp only [List.mem_cons, hqp, false_or, if_false]

theorem kinit_spec (lazy : Bool) (n kend : Nat) (hk : KERNBASE ≤ kend) :
    ∃ s, kinit n kend = some s ∧ Ok lazy kend s ∧ s.failed = false := by
  obtain ⟨s, hs, hfree, hkend, hleaf, hnode, hheld, hsz, hfailed, href⟩ := freeAll_spec
    (s := boot n kend) (freerangePages kend) hk (freerangePages_nodup kend)
    (fun q hq => ⟨(freerangePages_isPage kend hk q).mp hq, rfl⟩)
  have hkend' : s.kend = kend := hkend
  have hnoleaf (k : Fin n × Slot) : s.leaf k = none := by
    rw [hleaf]
    rfl
  have hnonode (k : Fin n × Node) : s.node k = none := by
    rw [hnode]
    rfl
  have husers (pa : Nat) : users s [] pa = 0 := by
    have h1 : leafPTEs s pa = 0 := by simp [leafPTEs, tally, hnoleaf]
    have h2 : kernelHolders s pa = 0 := by
      simp [kernelHolders, tally, hnonode, hheld, boot]
    simp [users, h1, h2]
  have hcount (pa : Nat) : s.freelist.count pa = if pa ∈ freerangePages kend then 1 else 0 := by
    rw [hfree]
    have hnil : (boot n kend).freelist = [] := rfl
    rw [hnil, List.append_nil, List.count_reverse]
    exact List.Nodup.count (freerangePages_nodup kend)
  refine ⟨s, hs, ⟨⟨⟨?_, ?_, ?_⟩, by rw [hkend']; exact hk, ?_, ?_, ?_⟩, hkend', ?_, ?_, ?_⟩,
    hfailed⟩
  · intro t i hi
    exact absurd (hnoleaf _) hi
  · intro t k k' _ hn
    exact absurd (hnonode _) hn
  · intro k e he
    rw [hnoleaf] at he
    cases he
  · intro pa hpa
    rw [hkend'] at hpa
    have hin := (freerangePages_isPage kend hk pa).mpr hpa
    left
    rw [hcount, if_pos hin]
    refine ⟨rfl, husers pa, ?_⟩
    rw [href pa hpa, if_pos hin]
    decide
  · intro pa hpa
    rw [hkend'] at hpa
    rw [hcount, if_neg (fun hin => hpa ((freerangePages_isPage kend hk pa).mp hin))]
    exact ⟨rfl, husers pa⟩
  · intro k e he
    rw [hnoleaf] at he
    cases he
  · intro t j _
    have hz : s.sz t = 0 := by
      rw [hsz]
      rfl
    rw [view_ne_none, hnoleaf, hz, npages_zero]
    simp
  · intro t
    have hz : s.sz t = 0 := by
      rw [hsz]
      rfl
    rw [hz, npages_zero]
    omega
  · intro t _
    rw [hsz]
    rfl

end Boot

/-- After kinit and any calls, for every page: when it is not free, its count is the number
of leaf PTEs that map it and of kernel holders, and at least 1; when it is free, its count is
at most 0, it is once on the list and no PTE maps it. -/
theorem refcounts_exact (kend : Nat) (hk : KERNBASE ≤ kend) (s₀ s : State n)
    (h₀ : kinit n kend = some s₀) (cs : List (Call n)) (hr : run call s₀ cs = some s) (pa : Nat)
    (hpa : pa % PGSIZE = 0 ∧ kend ≤ pa ∧ pa < PHYSTOP) :
    (pa ∉ s.freelist → s.ref pa = leafPTEs s pa + kernelHolders s pa ∧ 1 ≤ s.ref pa) ∧
      (pa ∈ s.freelist → s.ref pa ≤ 0 ∧ s.freelist.count pa = 1 ∧
        ∀ k e, s.leaf k = some e → e.pa ≠ pa) := by
  have hok : Ok true kend s := by
    obtain ⟨s₁, hs₁, hok₁, -⟩ := kinit_spec true n kend hk
    rw [h₀] at hs₁
    cases hs₁
    exact run_invariant call (Ok true kend) (fun s c s' h hs => call_ok h c s' hs) s₀ s cs hok₁ hr
  have hpage : IsPage s.kend pa := by rwa [hok.kend_eq]
  constructor
  · intro hfree
    rcases hok.inv.counted pa hpage with ⟨hc, -⟩ | ⟨-, hpos, href⟩
    · rw [List.count_eq_zero.mpr hfree] at hc
      cases hc
    · have hu : users s [] pa = leafPTEs s pa + kernelHolders s pa := rfl
      rw [hu] at hpos href
      refine ⟨by rw [href]; push_cast; rfl, ?_⟩
      rw [href]
      omega
  · intro hfree
    obtain ⟨-, hcount, hzero, hle⟩ := hok.inv.of_free hfree
    refine ⟨hle, hcount, ?_⟩
    rintro k e he rfl
    have := users_pos_of_leaf (H := []) he
    omega

/-- A process of two pages forks, and the child writes to its first page. -/
def forkCalls : List (Call 2) :=
  [.uvmcreate 0, .uvmalloc 0 4097, .uvmcreate 1, .uvmcopy 0 1, .cowAlloc 1 0]

/-- With 12 pages of memory, the second page of the process is the fifth from the top. -/
theorem refcounts_exact_forkCalls :
    ∃ s₀ s : State 2, kinit 2 (PHYSTOP - 12 * PGSIZE) = some s₀ ∧
      run call s₀ forkCalls = some s ∧ s.freelist.length = 3 ∧
      leafPTEs s (PHYSTOP - 5 * PGSIZE) + kernelHolders s (PHYSTOP - 5 * PGSIZE) = 2 := by
  have hrun : (kinit 2 (PHYSTOP - 12 * PGSIZE)).bind (fun s₀ : State 2 =>
      (run call s₀ forkCalls).map (fun s => (s.freelist.length,
        decide (PHYSTOP - 5 * PGSIZE ∈ s.freelist), s.ref (PHYSTOP - 5 * PGSIZE)))) =
      some (3, false, 2) := by
    decide +kernel
  obtain ⟨s₀, h₀, hrun⟩ := Option.bind_eq_some_iff.mp hrun
  obtain ⟨s, hs, hend⟩ := Option.map_eq_some_iff.mp hrun
  obtain ⟨hlen, hend⟩ := Prod.mk.inj hend
  obtain ⟨hfree, href⟩ := Prod.mk.inj hend
  obtain ⟨hcount, -⟩ := (refcounts_exact (PHYSTOP - 12 * PGSIZE) (by decide) s₀ s h₀ forkCalls hs
    (PHYSTOP - 5 * PGSIZE) (by decide)).1 (of_decide_eq_false hfree)
  refine ⟨s₀, s, h₀, hs, hlen, ?_⟩
  rw [href] at hcount
  omega

end Xv6Labs.Cow
