import Xv6Labs.CowTables

/-! cow_alloc, and the stores that go through it. -/
namespace Xv6Labs.Cow

variable {n : Nat} {lazy : Bool} {s : State n} {H : List Nat}

section Repair

/-- The PTE that cow_alloc puts in the place of `e`. -/
def PTE.own (e : PTE) (pa : Nat) : PTE := { e with pa := pa, w := true, cow := false }

/-- uvmunmap without free and mappages, for a page that is mapped. -/
theorem remap_eq (h : Shape lazy s) (t : Fin n) (va : Nat) (hva : va < MAXVA) (e e' : PTE)
    (he : s.leaf (t, slotOf va) = some e) :
    (uvmunmap s t (PGROUNDDOWN va) 1 false).bind (fun s =>
      match mappages s t va 1 e' with
      | some (s, true) => some s
      | _ => none) = some (s.setLeaf t (slotOf va) (some e')) := by
  have hle : PGROUNDDOWN va ≤ va := Nat.div_mul_le_self va PGSIZE
  have hfind : findPTE s t (PGROUNDDOWN va) = some (some e) := by
    rw [findPTE_eq h t _ (by omega), slotOf_rounddown, he]
  have hflags : e.noFlags = false := by simp [PTE.noFlags, (h.perms _ e he).1]
  have hunmap : uvmunmap s t (PGROUNDDOWN va) 1 false =
      some (s.setLeaf t (slotOf va) none) := by
    unfold uvmunmap
    rw [if_neg (by rw [PGROUNDDOWN, Nat.mul_mod_left]; simp)]
    simp only [uvmunmapLoop, hfind, hflags, Bool.false_eq_true, if_false, Option.bind_some,
      slotOf_rounddown]
  have hlow := h.slots t (slotOf va) (by simp [he])
  have hwalk : walk (s.setLeaf t (slotOf va) none) t (PGROUNDDOWN va) true =
      some (s.setLeaf t (slotOf va) none, some (slotOf va)) := by
    have hshape : Shape lazy (s.setLeaf t (slotOf va) none) := h.clear t (slotOf va)
    have hw := walk_found hshape t (PGROUNDDOWN va) (by omega) (by
      rw [slotOf_rounddown]
      exact hlow)
    rwa [slotOf_rounddown] at hw
  have hmaps : mappages (s.setLeaf t (slotOf va) none) t va 1 e' =
      some (s.setLeaf t (slotOf va) (some e'), true) := by
    unfold mappages
    rw [Nat.add_sub_cancel, Nat.sub_self, Nat.zero_div]
    simp only [mappagesLoop, hwalk]
    simp [State.setLeaf]
  rw [hunmap, Option.bind_some, hmaps]

/-- cow_alloc of a mapped page: the process gets a writable page with the same bytes, or it
is killed because kalloc fails. -/
theorem cowAlloc_spec (h : Inv lazy s H) (t : Fin n) (va : Nat) (hva : va < MAXVA) (e : PTE)
    (he : s.leaf (t, slotOf va) = some e) :
    ∃ s', Inv lazy s' H ∧ view s' = view s ∧
      ((cowAlloc s t va = some s' ∧ Rest s s' ∧ ∃ pa,
          s'.leaf = Function.update s.leaf (t, slotOf va) (some (e.own pa))) ∨
        (cowAlloc s t va = some { s' with killed := Function.update s'.killed t true } ∧
          Rest s s' ∧ s'.failed = true)) := by
  have hfind : findPTE s t va = some (some e) := by rw [findPTE_eq h.toShape t va hva, he]
  have hpos := users_pos_of_leaf (H := H) he
  obtain ⟨hpage, hfree, href⟩ := h.of_users hpos
  have hperm (pa : Nat) : (e.own pa).Fits lazy := ⟨(h.perms _ e he).1, Or.inl rfl⟩
  unfold cowAlloc kcopyNDeref
  simp only [hfind]
  by_cases hone : s.ref e.pa ≤ 1
  · -- the last user keeps the page
    simp only [if_pos hone]
    have husers : users s H e.pa = 1 := by
      rw [href] at hone
      omega
    refine ⟨_, ?_, ?_, Or.inl ⟨remap_eq h.toShape t va hva e (e.own e.pa) he,
      Rest.setLeaf s t _ _, e.pa, rfl⟩⟩
    · have hput := (h.takeLeaf he).putLeaf (t := t) (i := slotOf va) (e := e.own e.pa)
        (setLeaf_self ..) (h.slots t _ (by simp [he])) (hperm e.pa) (by
        intro _
        exact (users_takeLeaf he e.pa).trans husers)
      have hset : (s.setLeaf t (slotOf va) none).setLeaf t (slotOf va) (some (e.own e.pa)) =
          s.setLeaf t (slotOf va) (some (e.own e.pa)) := by
        simp [State.setLeaf]
      rwa [hset] at hput
    · rw [view_setLeaf]
      apply Function.update_eq_self_iff.mpr
      simp [view, he, PTE.own]
  · simp only [if_neg hone]
    rcases kalloc_spec h with hfail | ⟨s₁, r, halloc, hg, hfresh, hr, -, -⟩
    · rw [hfail]
      exact ⟨_, h.fail.inv, h.fail.view, Or.inr ⟨rfl, h.fail.rest, rfl⟩⟩
    · rw [halloc]
      simp only
      have hne : e.pa ≠ r := by
        intro heq
        rw [heq] at hpos
        omega
      obtain ⟨huse₁, hmem₁⟩ := hg.keeps e.pa hpos
      have he₁ : s₁.leaf (t, slotOf va) = some e := by rw [hg.leaf, he]
      -- the copy, with the reference of the old page given up
      have hinv₁ := hg.inv.fill r (s₁.mem e.pa)
      have hshape : Shape lazy ((s₁.fill r (s₁.mem e.pa)).setRef e.pa
          ((s₁.fill r (s₁.mem e.pa)).ref e.pa - 1)) := ⟨hinv₁.slots, hinv₁.parents, hinv₁.perms⟩
      have htake : Inv lazy ((s₁.fill r (s₁.mem e.pa)).setLeaf t (slotOf va) none)
          (e.pa :: r :: H) := hinv₁.takeLeaf he₁
      have huse (q : Nat) : users ((s₁.fill r (s₁.mem e.pa)).setLeaf t (slotOf va) none)
          (e.pa :: r :: H) q = users s₁ (r :: H) q :=
        users_takeLeaf (s := s₁.fill r (s₁.mem e.pa)) he₁ q
      have hdrop := htake.dropRef (by
        have h1 := huse e.pa
        rw [users_cons_self] at h1
        rw [href] at hone
        omega)
      have hput := hdrop.putLeaf (t := t) (i := slotOf va) (e := e.own r) (setLeaf_self ..)
        (hg.inv.slots t _ (by simp [he₁])) (hperm r) (by
        intro _
        have h1 := huse r
        rw [users_cons_of_ne (Ne.symm hne)] at h1
        exact h1.trans hr)
      have hset : (((s₁.fill r (s₁.mem e.pa)).setLeaf t (slotOf va) none).setRef e.pa
          (((s₁.fill r (s₁.mem e.pa)).setLeaf t (slotOf va) none).ref e.pa - 1)).setLeaf t
            (slotOf va) (some (e.own r)) =
          ((s₁.fill r (s₁.mem e.pa)).setRef e.pa
            ((s₁.fill r (s₁.mem e.pa)).ref e.pa - 1)).setLeaf t (slotOf va) (some (e.own r)) := by
        simp only [State.setLeaf, State.setRef, Function.update_idem]
        rfl
      rw [hset] at hput
      refine ⟨_, hput, ?_, Or.inl ⟨remap_eq hshape t va hva e (e.own r) he₁, ?_, r, ?_⟩⟩
      · rw [view_setLeaf]
        have hview : view ((s₁.fill r (s₁.mem e.pa)).setRef e.pa
            ((s₁.fill r (s₁.mem e.pa)).ref e.pa - 1)) = view s :=
          (view_fill_fresh hr (s₁.mem e.pa)).trans hg.view
        rw [hview]
        apply Function.update_eq_self_iff.mpr
        simp [view, he, PTE.own, State.setRef, State.fill, hmem₁]
      · exact ⟨hg.rest.kend, hg.rest.sz, hg.rest.killed, hg.rest.held, hg.rest.roots,
          hg.rest.failed⟩
      · rw [← hg.leaf]
        rfl

end Repair

end Xv6Labs.Cow
