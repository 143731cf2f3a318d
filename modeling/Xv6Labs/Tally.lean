import Mathlib.Algebra.Order.BigOperators.Group.Finset
import Mathlib.Data.Fintype.Basic

/-! Counting how often an item occurs over a finite family of lists. Moving items between
lists changes the tallies by amounts that `omega` can add up. -/
namespace Xv6Labs

section Tally

variable {ι α : Type*} [Fintype ι] [DecidableEq α]

def tally (L : ι → List α) (p : α) : Nat := ∑ i, (L i).count p

theorem count_le_tally (L : ι → List α) (i : ι) (p : α) : (L i).count p ≤ tally L p :=
  Finset.single_le_sum (f := fun j => (L j).count p) (fun _ _ => Nat.zero_le _)
    (Finset.mem_univ i)

variable [DecidableEq ι]

/-- The tally after one list has been replaced. -/
theorem tally_update (L : ι → List α) (i : ι) (l : List α) (p : α) :
    tally (Function.update L i l) p + (L i).count p = tally L p + l.count p := by
  unfold tally
  rw [← Finset.add_sum_erase Finset.univ _ (Finset.mem_univ i),
    ← Finset.add_sum_erase Finset.univ (fun j => (L j).count p) (Finset.mem_univ i)]
  have hrest : ∑ j ∈ Finset.univ.erase i, (Function.update L i l j).count p =
      ∑ j ∈ Finset.univ.erase i, (L j).count p := by
    apply Finset.sum_congr rfl
    intro j hj
    rw [Function.update_of_ne (Finset.ne_of_mem_erase hj)]
  rw [hrest, Function.update_self]
  omega

/-- Two different lists of the family. -/
theorem count_add_count_le_tally (L : ι → List α) (i j : ι) (hij : i ≠ j) (p : α) :
    (L i).count p + (L j).count p ≤ tally L p := by
  have h := count_le_tally (Function.update L i []) j p
  rw [Function.update_of_ne hij.symm] at h
  have hu := tally_update L i [] p
  rw [List.count_nil] at hu
  omega

end Tally

end Xv6Labs
