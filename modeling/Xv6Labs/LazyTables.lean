import Xv6Labs.LazyCode
import Xv6Labs.MmapTables

/-! What the page loops of the `lazys` vm.c do, for tables whose pages below the size are user
pages and whose other pages are the trapframe and the trampoline. -/
namespace Xv6Labs.Lazy

open Mmap (PGSIZE MAXVA TRAMPOLINE TRAPFRAME PGROUNDUP PGROUNDDOWN int32 add64 Panic PTE Table Mem
  kalloc findPTE findPTE_rooted mappages mappages_plenty userPTE emptyTable
  trampolinePTE trapframePTE plenty kalloc_plenty page_div clear_zero clear_succ clear_skip
  rooted_empty roundUp_eq)

variable {t : Table}

/-- The number of pages below `sz`. -/
def npages (sz : Nat) : Nat := (sz + PGSIZE - 1) / PGSIZE

theorem lt_npages (sz k : Nat) : k < npages sz ↔ k * PGSIZE < sz := by
  unfold npages PGSIZE
  omega

theorem npages_mono {a b : Nat} (h : a ≤ b) : npages a ≤ npages b := by
  unfold npages PGSIZE
  omega

/-- Every page below `sz` is a user page that kalloc gave, and no other page is mapped below
the trapframe. -/
structure Fits (sz : Nat) (leaf : Nat → Option PTE) : Prop where
  range : ∀ k e, leaf k = some e → k * PGSIZE < sz ∨ TRAPFRAME ≤ k * PGSIZE
  user : ∀ k e, leaf k = some e → k * PGSIZE < sz → e.own = true ∧ e.noFlags = false

theorem uvmunmapLoop_eq (doFree : Bool) (n lo : Nat) (hR : t.Rooted)
    (htop : (lo + n) * PGSIZE ≤ MAXVA)
    (hok : ∀ k e, lo ≤ k → k < lo + n → t.leaf k = some e → e.own = true ∧ e.noFlags = false) :
    uvmunmapLoop doFree n t (lo * PGSIZE) = .ok (t.clear lo n) := by
  induction n generalizing t lo with
  | zero =>
    rw [clear_zero]
    rfl
  | succ n ih =>
    have hlt : lo * PGSIZE < MAXVA := by
      unfold PGSIZE at htop ⊢
      omega
    have hnext : lo * PGSIZE + PGSIZE = (lo + 1) * PGSIZE := (Nat.succ_mul lo PGSIZE).symm
    have htop' : (lo + 1 + n) * PGSIZE ≤ MAXVA := by
      rw [Nat.add_right_comm]
      exact htop
    obtain ⟨o, ho, hjoin⟩ := findPTE_rooted hR hlt
    rw [page_div] at hjoin
    -- a missing page-table page and an invalid PTE are both skipped
    have hskip (hnone : t.leaf lo = none) :
        uvmunmapLoop doFree n t (lo * PGSIZE + PGSIZE) = .ok (t.clear lo (n + 1)) := by
      rw [hnext, ih (lo + 1) hR htop', clear_skip n hnone]
      intro k e hk hk'
      exact hok k e (by omega) (by omega)
    simp only [uvmunmapLoop, ho, ok_bind]
    rcases o with _ | _ | e
    · exact hskip hjoin.symm
    · exact hskip hjoin.symm
    · have he := hok lo e (Nat.le_refl lo) (by omega) hjoin.symm
      simp only [he.1, he.2, page_div, hnext, Bool.not_true, Bool.and_false, Bool.false_eq_true,
        if_false]
      rw [ih (lo + 1) (hR.set_none lo) htop', clear_succ]
      intro k f hk hk' hf
      have hne : k ≠ lo := by omega
      simp only [Table.set, Function.update_of_ne hne] at hf
      exact hok k f (by omega) (by omega) hf

theorem uvmunmap_eq (n lo : Nat) (hR : t.Rooted) (htop : (lo + n) * PGSIZE ≤ MAXVA)
    (hok : ∀ k e, lo ≤ k → k < lo + n → t.leaf k = some e → e.own = true ∧ e.noFlags = false) :
    uvmunmap t (lo * PGSIZE) n true = .ok (t.clear lo n) := by
  have hcount : ((lo * PGSIZE + n * PGSIZE) % 2^64 - lo * PGSIZE) / PGSIZE = n := by
    rw [← Nat.add_mul, Nat.mod_eq_of_lt, Nat.add_mul, Nat.add_sub_cancel_left, page_div]
    unfold MAXVA at htop
    omega
  unfold uvmunmap
  rw [if_neg (by simp), hcount]
  exact uvmunmapLoop_eq true n lo hR htop hok

/-- Shrinking takes away the pages that lie past the new size. -/
theorem uvmdealloc_eq {oldsz newsz : Nat} (hR : t.Rooted) (hfit : Fits oldsz t.leaf)
    (hle : newsz ≤ oldsz) (hsmall : oldsz < 2^31) : uvmdealloc t oldsz newsz =
      .ok (t.clear (npages newsz) (npages oldsz - npages newsz), newsz) := by
  have hup (a : Nat) (ha : a ≤ oldsz) : PGROUNDUP a = npages a * PGSIZE :=
    roundUp_eq (by unfold MAXVA; omega)
  have hmono := npages_mono hle
  unfold uvmdealloc
  by_cases heq : oldsz ≤ newsz
  · have : newsz = oldsz := by omega
    rw [if_pos heq, this, Nat.sub_self, clear_zero]
  rw [if_neg heq, hup oldsz (Nat.le_refl _), hup newsz hle]
  by_cases hpages : npages newsz * PGSIZE < npages oldsz * PGSIZE
  · rw [if_pos hpages, ← Nat.sub_mul, page_div]
    have hn : npages oldsz < 2^31 := by
      unfold npages PGSIZE
      omega
    have hcast : add64 0 (int32 ((npages oldsz - npages newsz : Nat) : Int)) =
        npages oldsz - npages newsz := by
      unfold add64 int32
      omega
    simp only [hcast]
    rw [uvmunmap_eq _ _ hR]
    · rfl
    · rw [Nat.add_sub_cancel' hmono]
      unfold npages PGSIZE MAXVA
      omega
    · intro k e hk hk' he
      exact hfit.user k e he ((lt_npages oldsz k).mp (by omega))
  · have : npages oldsz - npages newsz = 0 := by
      unfold PGSIZE at hpages
      omega
    rw [if_neg hpages, this, clear_zero]

/-- uvmalloc's loop gives zeroed pages to the whole range. -/
theorem uvmallocLoop_plenty (oldsz n lo : Nat) (hR : t.Rooted) (htop : (lo + n) * PGSIZE ≤ MAXVA)
    (hnone : ∀ k, lo ≤ k → k < lo + n → t.leaf k = none) :
    ∃ t', uvmallocLoop oldsz n plenty t (lo * PGSIZE) = .ok (plenty, t', true) ∧ t'.Rooted ∧
      t'.leaf = fun k => if lo ≤ k ∧ k < lo + n then some userPTE else t.leaf k := by
  induction n generalizing t lo with
  | zero =>
    refine ⟨t, rfl, hR, ?_⟩
    funext k
    rw [if_neg (by omega)]
  | succ n ih =>
    have hlt : lo * PGSIZE < MAXVA := by
      unfold PGSIZE at htop ⊢
      omega
    have hfree : t.leaf (lo * PGSIZE / PGSIZE) = none := by
      rw [page_div]
      exact hnone lo (Nat.le_refl lo) (by omega)
    obtain ⟨t₁, hmap, hR₁, hgrow⟩ := mappages_plenty hR hlt hfree userPTE
    have hleaf := hgrow.leaf_eq
    rw [page_div] at hleaf
    have hnone₁ (k : Nat) (hk : lo + 1 ≤ k) (hk' : k < lo + 1 + n) : t₁.leaf k = none := by
      rw [hleaf, Function.update_of_ne (by omega)]
      exact hnone k (by omega) (by omega)
    obtain ⟨t', hloop, hR', hleaf'⟩ := ih (lo + 1) hR₁ (by
      rw [Nat.add_right_comm]
      exact htop) hnone₁
    refine ⟨t', ?_, hR', ?_⟩
    · simp only [uvmallocLoop, kalloc_plenty, if_true, hmap, ok_bind]
      rw [← Nat.succ_mul]
      exact hloop
    · rw [hleaf', hleaf]
      funext k
      by_cases hk : k = lo
      · rw [if_neg (by omega), if_pos (by omega), hk, Function.update_self]
      · rw [Function.update_of_ne hk]
        by_cases hin : lo + 1 ≤ k ∧ k < lo + 1 + n
        · rw [if_pos hin, if_pos (by omega)]
        · rw [if_neg hin, if_neg (by omega)]

theorem uvmalloc_plenty {oldsz newsz : Nat} (hR : t.Rooted) (hfit : Fits oldsz t.leaf)
    (hle : oldsz ≤ newsz) (hsmall : newsz < 2^31) :
    ∃ t', uvmalloc plenty t oldsz newsz = .ok (plenty, t', newsz) ∧ t'.Rooted ∧
      t'.leaf = fun k => if npages oldsz ≤ k ∧ k < npages newsz then some userPTE
        else t.leaf k := by
  have hmono := npages_mono hle
  have hup : PGROUNDUP oldsz = npages oldsz * PGSIZE := roundUp_eq (by unfold MAXVA; omega)
  have hcount : (newsz - npages oldsz * PGSIZE + PGSIZE - 1) / PGSIZE =
      npages newsz - npages oldsz := by
    unfold npages PGSIZE
    omega
  have htop : (npages oldsz + (npages newsz - npages oldsz)) * PGSIZE ≤ MAXVA := by
    rw [Nat.add_sub_cancel' hmono]
    unfold npages PGSIZE MAXVA
    omega
  obtain ⟨t', hloop, hR', hleaf⟩ := uvmallocLoop_plenty (npages oldsz * PGSIZE)
    (npages newsz - npages oldsz) (npages oldsz) hR htop (by
      intro k hk hk'
      cases he : t.leaf k with
      | none => rfl
      | some e =>
        have hlow := (lt_npages newsz k).mp (by omega)
        rcases hfit.range k e he with hin | hin
        · have := (lt_npages oldsz k).mpr hin
          omega
        · unfold TRAPFRAME TRAMPOLINE MAXVA PGSIZE at hin
          unfold PGSIZE at hlow
          omega)
  refine ⟨t', ?_, hR', ?_⟩
  · unfold uvmalloc
    rw [if_neg (by omega), hup, hcount, hloop]
    rfl
  · rw [hleaf, Nat.add_sub_cancel' hmono]

/-- uvmcopy's loop copies the pages that are there. -/
theorem uvmcopyLoop_plenty (old : Table) (n lo : Nat) (hold : old.Rooted) (hR : t.Rooted)
    (htop : (lo + n) * PGSIZE ≤ MAXVA) (hnone : ∀ k, lo ≤ k → k < lo + n → t.leaf k = none)
    (hown : ∀ k e, lo ≤ k → k < lo + n → old.leaf k = some e → e.own = true) :
    ∃ t', uvmcopyLoop old n plenty t (lo * PGSIZE) = .ok (plenty, t', true) ∧ t'.Rooted ∧
      t'.leaf = fun k => if lo ≤ k ∧ k < lo + n then old.leaf k else t.leaf k := by
  induction n generalizing t lo with
  | zero =>
    refine ⟨t, rfl, hR, ?_⟩
    funext k
    rw [if_neg (by omega)]
  | succ n ih =>
    have hlt : lo * PGSIZE < MAXVA := by
      unfold PGSIZE at htop ⊢
      omega
    have htop' : (lo + 1 + n) * PGSIZE ≤ MAXVA := by
      rw [Nat.add_right_comm]
      exact htop
    have hown' (k : Nat) (e : PTE) (hk : lo + 1 ≤ k) (hk' : k < lo + 1 + n) :
        old.leaf k = some e → e.own = true := hown k e (by omega) (by omega)
    -- the rest of the loop, once the page `lo` of `t₁` is as in the old table
    have hrest (t₁ : Table) (hR₁ : t₁.Rooted)
        (hleaf : t₁.leaf = Function.update t.leaf lo (old.leaf lo)) :
        ∃ t', uvmcopyLoop old n plenty t₁ (lo * PGSIZE + PGSIZE) = .ok (plenty, t', true) ∧
          t'.Rooted ∧ t'.leaf = fun k => if lo ≤ k ∧ k < lo + (n + 1) then old.leaf k
            else t.leaf k := by
      rw [← Nat.succ_mul]
      obtain ⟨t', hloop, hR', hleaf'⟩ := ih (lo + 1) hR₁ htop' (by
        intro k hk hk'
        rw [hleaf, Function.update_of_ne (by omega)]
        exact hnone k (by omega) (by omega)) hown'
      refine ⟨t', hloop, hR', ?_⟩
      rw [hleaf', hleaf]
      funext k
      by_cases hk : k = lo
      · rw [if_neg (by omega), if_pos (by omega), hk, Function.update_self]
      · rw [Function.update_of_ne hk]
        by_cases hin : lo + 1 ≤ k ∧ k < lo + 1 + n
        · rw [if_pos hin, if_pos (by omega)]
        · rw [if_neg hin, if_neg (by omega)]
    have hfree : t.leaf lo = none := hnone lo (Nat.le_refl lo) (by omega)
    obtain ⟨o, ho, hjoin⟩ := findPTE_rooted hold hlt
    rw [page_div] at hjoin
    have hskip (h : old.leaf lo = none) : t.leaf = Function.update t.leaf lo (old.leaf lo) := by
      rw [h, ← hfree, Function.update_eq_self]
    simp only [uvmcopyLoop, ho, ok_bind]
    rcases o with _ | _ | e
    · exact hrest t hR (hskip hjoin.symm)
    · exact hrest t hR (hskip hjoin.symm)
    · have hown₀ := hown lo e (Nat.le_refl lo) (by omega) hjoin.symm
      have hcopy : { e with own := true } = e := by
        rw [← hown₀]
      obtain ⟨t₁, hmap, hR₁, hgrow⟩ := mappages_plenty hR hlt
        (by rw [page_div]; exact hfree) e
      have hleaf := hgrow.leaf_eq
      rw [page_div, show some e = old.leaf lo from hjoin] at hleaf
      simp only [kalloc_plenty, if_true, hcopy, hmap, ok_bind]
      exact hrest t₁ hR₁ hleaf

theorem uvmcopy_plenty {old : Table} {sz : Nat} (hold : old.Rooted) (hfit : Fits sz old.leaf)
    (hR : t.Rooted) (hsmall : sz < 2^31) (hnone : ∀ k, k < npages sz → t.leaf k = none) :
    ∃ t', uvmcopy plenty old t sz = .ok (plenty, t', true) ∧ t'.Rooted ∧
      t'.leaf = fun k => if k < npages sz then old.leaf k else t.leaf k := by
  have htop : (0 + npages sz) * PGSIZE ≤ MAXVA := by
    unfold npages PGSIZE MAXVA
    omega
  obtain ⟨t', hloop, hR', hleaf⟩ := uvmcopyLoop_plenty old (npages sz) 0 hold hR htop
    (fun k _ hk => hnone k (by omega))
    (fun k e _ hk he => (hfit.user k e he ((lt_npages sz k).mp (by omega))).1)
  refine ⟨t', ?_, hR', ?_⟩
  · rw [Nat.zero_mul] at hloop
    exact hloop
  · rw [hleaf]
    funext k
    simp only [Nat.zero_le, true_and, Nat.zero_add]

/-- A new page table has the trampoline and the trapframe. -/
theorem procPagetable_plenty : ∃ t, procPagetable plenty = .ok (plenty, some t) ∧ t.Rooted ∧
    ∀ k, k * PGSIZE < TRAPFRAME → t.leaf k = none := by
  obtain ⟨t₁, hmap, hR₁, hgrow⟩ := mappages_plenty rooted_empty
    (show TRAMPOLINE < MAXVA by decide) rfl trampolinePTE
  have hne : TRAPFRAME / PGSIZE ≠ TRAMPOLINE / PGSIZE := by decide
  obtain ⟨t₂, hmap₂, hR₂, hgrow₂⟩ := mappages_plenty hR₁ (show TRAPFRAME < MAXVA by decide) (by
    rw [hgrow.leaf_eq, Function.update_of_ne hne]
    rfl) trapframePTE
  refine ⟨t₂, ?_, hR₂, ?_⟩
  · unfold procPagetable
    simp only [kalloc_plenty, if_true, hmap, hmap₂, ok_bind]
  · intro k hk
    have hframe : k ≠ TRAPFRAME / PGSIZE := by
      unfold TRAPFRAME TRAMPOLINE MAXVA PGSIZE at hk ⊢
      omega
    have htramp : k ≠ TRAMPOLINE / PGSIZE := by
      unfold TRAPFRAME TRAMPOLINE MAXVA PGSIZE at hk
      unfold TRAMPOLINE MAXVA PGSIZE
      omega
    rw [hgrow₂.leaf_eq, Function.update_of_ne hframe, hgrow.leaf_eq, Function.update_of_ne htramp]
    rfl

end Xv6Labs.Lazy
