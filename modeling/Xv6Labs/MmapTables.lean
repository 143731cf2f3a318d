import Xv6Labs.MmapSys
import Xv6Labs.Outcomes

/-! What walk, mappages and the loops over pages do to the leaves of a page table. -/
namespace Xv6Labs.Mmap

variable {t : Table} {m : Mem} {va : Nat}

section Pages

theorem roundDown_div (a : Nat) : PGROUNDDOWN a / PGSIZE = a / PGSIZE := by
  unfold PGROUNDDOWN
  exact Nat.mul_div_cancel _ (by decide)

theorem roundDown_le (a : Nat) : PGROUNDDOWN a ≤ a := Nat.div_mul_le_self a PGSIZE

theorem lt_roundDown_add (a : Nat) : a < PGROUNDDOWN a + PGSIZE := by
  unfold PGROUNDDOWN PGSIZE
  omega

theorem page_div (k : Nat) : k * PGSIZE / PGSIZE = k := Nat.mul_div_cancel k (by decide)

/-- PGROUNDUP of an address that is not at the very end. -/
theorem roundUp_eq {a : Nat} (h : a ≤ MAXVA) :
    PGROUNDUP a = (a + PGSIZE - 1) / PGSIZE * PGSIZE := by
  unfold PGROUNDUP
  rw [Nat.mod_eq_of_lt]
  unfold MAXVA at h
  unfold PGSIZE
  omega

end Pages

section Nodes

/-- Every leaf of the table can be reached. -/
def Table.Rooted (t : Table) : Prop :=
  ∀ k e, t.leaf k = some e → t.mid (k / 2^18) = true ∧ t.low (k / 2^9) = true

theorem rooted_empty : emptyTable.Rooted := by
  intro k e h
  cases h

theorem Table.Rooted.at (h : t.Rooted) {e : PTE} (he : t.leaf (va / PGSIZE) = some e) :
    t.mid (va / 2^30) = true ∧ t.low (va / 2^21) = true := by
  have hmid : va / PGSIZE / 2^18 = va / 2^30 := Nat.div_div_eq_div_mul va PGSIZE (2^18)
  have hlow : va / PGSIZE / 2^9 = va / 2^21 := Nat.div_div_eq_div_mul va PGSIZE (2^9)
  have h := h _ e he
  rwa [hmid, hlow] at h

theorem Table.Rooted.set_none (h : t.Rooted) (k : Nat) : (t.set k none).Rooted := by
  intro j e he
  by_cases hj : j = k
  · simp [Table.set, hj] at he
  · simp only [Table.set, Function.update_of_ne hj] at he
    exact h j e he

/-- A page that is mapped may get other bytes and flags. -/
theorem Table.Rooted.set_some (h : t.Rooted) {k : Nat} {e : PTE} (he : t.leaf k = some e)
    (e' : PTE) : (t.set k (some e')).Rooted := by
  intro j f hf
  by_cases hj : j = k
  · subst hj
    exact h j e he
  · simp only [Table.set, Function.update_of_ne hj] at hf
    exact h j f hf

/-- walk without alloc finds the leaf, or nothing where there is none. -/
theorem findPTE_rooted (h : t.Rooted) (hva : va < MAXVA) :
    ∃ o, findPTE t va = .ok o ∧ o.join = t.leaf (va / PGSIZE) := by
  unfold findPTE
  rw [if_neg (by omega)]
  by_cases hnode : (t.mid (va / 2^30) && t.low (va / 2^21)) = true
  · exact ⟨_, by rw [if_pos hnode], rfl⟩
  · refine ⟨none, by rw [if_neg hnode], ?_⟩
    cases he : t.leaf (va / PGSIZE) with
    | none => rfl
    | some e =>
      have hat := h.at he
      rw [hat.1, hat.2] at hnode
      exact absurd rfl hnode

theorem walkaddr_eq (h : t.Rooted) (hva : va < MAXVA) :
    walkaddr t va = (t.leaf (va / PGSIZE)).filter (fun e => e.u) := by
  obtain ⟨o, ho, hjoin⟩ := findPTE_rooted h hva
  unfold walkaddr
  rw [ho, ← hjoin]
  cases o with
  | none => rfl
  | some o =>
    cases o with
    | none => rfl
    | some e => simp [Option.filter]

theorem walkaddr_none (hva : MAXVA ≤ va) : walkaddr t va = none := by
  simp [walkaddr, findPTE, hva]

end Nodes

section Mapping

/-- `t'` has the leaves `leaf` and all the page-table pages of `t`. -/
structure Table.Grows (t t' : Table) (leaf : Nat → Option PTE) : Prop where
  leaf_eq : t'.leaf = leaf
  mid : ∀ i, t.mid i = true → t'.mid i = true
  low : ∀ i, t.low i = true → t'.low i = true

theorem Table.Grows.refl (t : Table) : t.Grows t t.leaf := ⟨rfl, fun _ h => h, fun _ h => h⟩

theorem Table.Grows.trans {t₁ t₂ : Table} {l l' : Nat → Option PTE} (h : t.Grows t₁ l)
    (h' : t₁.Grows t₂ l') : t.Grows t₂ l' :=
  ⟨h'.leaf_eq, fun i hi => h'.mid i (h.mid i hi), fun i hi => h'.low i (h.low i hi)⟩

theorem Table.Grows.rooted {t' : Table} (h : t.Grows t' t.leaf) (ht : t.Rooted) : t'.Rooted := by
  intro k e he
  rw [h.leaf_eq] at he
  have hk := ht k e he
  exact ⟨h.mid _ hk.1, h.low _ hk.2⟩

theorem grows_mid (t : Table) (i : Nat) :
    t.Grows { t with mid := Function.update t.mid i true } t.leaf := by
  refine ⟨rfl, fun j hj => ?_, fun j hj => hj⟩
  by_cases hji : j = i
  · simp [hji]
  · simpa [hji] using hj

theorem grows_low (t : Table) (i : Nat) :
    t.Grows { t with low := Function.update t.low i true } t.leaf := by
  refine ⟨rfl, fun j hj => hj, fun j hj => ?_⟩
  by_cases hji : j = i
  · simp [hji]
  · simpa [hji] using hj

/-- walk with alloc keeps the leaves. When it answers true the nodes for `va` are there. -/
theorem walk_alloc (m : Mem) (t : Table) (hva : va < MAXVA) : ∃ m' t' b,
    walk m t va true = .ok (m', t', b) ∧ t.Grows t' t.leaf ∧
    (b = true → t'.mid (va / 2^30) = true ∧ t'.low (va / 2^21) = true) := by
  unfold walk
  rw [if_neg (by omega)]
  simp only []
  by_cases h1 : (walkLevel m (t.mid (va / 2^30)) true).2 = true
  · rw [if_pos h1]
    have hmid := grows_mid t (va / 2^30)
    by_cases h2 : (walkLevel (walkLevel m (t.mid (va / 2^30)) true).1 (t.low (va / 2^21)) true).2
        = true
    · rw [if_pos h2]
      refine ⟨_, _, true, rfl, hmid.trans (grows_low _ _), ?_⟩
      intro _
      simp
    · rw [if_neg h2]
      exact ⟨_, _, false, rfl, hmid, fun h => by cases h⟩
  · rw [if_neg h1]
    exact ⟨_, _, false, rfl, Table.Grows.refl t, fun h => by cases h⟩

/-- The answers of kalloc when memory never runs out. -/
def plenty : Mem := fun _ => true

theorem kalloc_plenty : kalloc plenty = (plenty, true) := rfl

theorem walkLevel_plenty (present : Bool) : walkLevel plenty present true = (plenty, true) := by
  cases present <;> rfl

theorem walk_plenty (t : Table) (hva : va < MAXVA) :
    ∃ t', walk plenty t va true = .ok (plenty, t', true) ∧ t.Grows t' t.leaf ∧
      t'.mid (va / 2^30) = true ∧ t'.low (va / 2^21) = true := by
  obtain ⟨m', t', b, hw, hgrow, hnode⟩ := walk_alloc plenty t hva
  have hb : m' = plenty ∧ b = true := by
    unfold walk at hw
    rw [if_neg (by omega)] at hw
    simp only [walkLevel_plenty, if_true, Except.ok.injEq, Prod.mk.injEq] at hw
    exact ⟨hw.1.symm, hw.2.2.symm⟩
  obtain ⟨rfl, rfl⟩ := hb
  exact ⟨t', hw, hgrow, hnode rfl⟩

theorem grows_set {t' : Table} (h : t.Grows t' t.leaf) (k : Nat) (o : Option PTE) :
    t.Grows (t'.set k o) (Function.update t.leaf k o) := by
  refine ⟨?_, h.mid, h.low⟩
  simp only [Table.set, h.leaf_eq]

theorem rooted_set {t' : Table} (h : t'.Rooted) (hnode : t'.mid (va / 2^30) = true ∧
    t'.low (va / 2^21) = true) (e : PTE) : (t'.set (va / PGSIZE) (some e)).Rooted := by
  have hmid : va / PGSIZE / 2^18 = va / 2^30 := Nat.div_div_eq_div_mul va PGSIZE (2^18)
  have hlow : va / PGSIZE / 2^9 = va / 2^21 := Nat.div_div_eq_div_mul va PGSIZE (2^9)
  intro k f hf
  by_cases hk : k = va / PGSIZE
  · rw [hk, hmid, hlow]
    exact hnode
  · simp only [Table.set, Function.update_of_ne hk] at hf
    exact h k f hf

theorem mappages_plenty (hR : t.Rooted) (hva : va < MAXVA) (hnone : t.leaf (va / PGSIZE) = none)
    (e : PTE) : ∃ t', mappages plenty t va e = .ok (plenty, t', true) ∧ t'.Rooted ∧
      t.Grows t' (Function.update t.leaf (va / PGSIZE) (some e)) := by
  obtain ⟨t₁, hw, hgrow, hnode⟩ := walk_plenty t hva
  refine ⟨t₁.set (va / PGSIZE) (some e), ?_, ?_, grows_set hgrow _ _⟩
  · unfold mappages
    simp only [hw, ok_bind, if_true, hgrow.leaf_eq, hnone]
  · exact rooted_set (hgrow.rooted hR) hnode e

end Mapping

section Ranges

/-- The table without the leaves of `n` pages from `lo` on. -/
def Table.clear (t : Table) (lo n : Nat) : Table :=
  { t with leaf := fun k => if lo ≤ k ∧ k < lo + n then none else t.leaf k }

theorem clear_zero (t : Table) (lo : Nat) : t.clear lo 0 = t := by
  unfold Table.clear
  congr 1
  funext k
  rw [if_neg (by omega)]

/-- A cleared page and then the pages behind it. -/
theorem clear_succ (t : Table) (lo n : Nat) :
    (t.set lo none).clear (lo + 1) n = t.clear lo (n + 1) := by
  unfold Table.clear Table.set
  congr 1
  funext k
  simp only
  by_cases hk : k = lo
  · rw [if_neg (by omega), if_pos (by omega), hk, Function.update_self]
  · rw [Function.update_of_ne hk]
    by_cases hin : lo + 1 ≤ k ∧ k < lo + 1 + n
    · rw [if_pos hin, if_pos (by omega)]
    · rw [if_neg hin, if_neg (by omega)]

theorem clear_skip {lo : Nat} (n : Nat) (h : t.leaf lo = none) :
    t.clear (lo + 1) n = t.clear lo (n + 1) := by
  rw [← clear_succ]
  congr 1
  unfold Table.set
  rw [← h, Function.update_eq_self]

theorem Table.Rooted.clear (h : t.Rooted) (lo n : Nat) : (t.clear lo n).Rooted := by
  intro k e he
  unfold Table.clear at he
  by_cases hk : lo ≤ k ∧ k < lo + n
  · simp [hk] at he
  · simp only [if_neg hk] at he
    exact h k e he

end Ranges

end Xv6Labs.Mmap
