import Mathlib

/-!
# Tallies

The sum of a weight over a finite table, and how it changes when one entry of
the table is replaced.
-/

namespace Mmix.Tally

variable {ι α : Type*} [Fintype ι]

/-- The total weight of a table. -/
def tally (w : α → Int) (f : ι → α) : Int := ∑ i, w (f i)

theorem tally_update [DecidableEq ι] (w : α → Int) (f : ι → α) (i : ι) (a : α) :
    tally w (Function.update f i a) = tally w f - w (f i) + w a := by
  have hrest : ∑ j ∈ Finset.univ.erase i, w (Function.update f i a j) =
      ∑ j ∈ Finset.univ.erase i, w (f j) := by
    refine Finset.sum_congr rfl fun j hj => ?_
    rw [Function.update_of_ne (Finset.ne_of_mem_erase hj)]
  have hnew := Finset.add_sum_erase Finset.univ (fun j => w (Function.update f i a j))
    (Finset.mem_univ i)
  have hold := Finset.add_sum_erase Finset.univ (fun j => w (f j)) (Finset.mem_univ i)
  simp only [Function.update_self] at hnew
  unfold tally
  rw [← hnew, ← hold, hrest]
  omega

/-- Entries of weight zero do not count. -/
theorem tally_eq_zero {w : α → Int} {f : ι → α} (h : ∀ i, w (f i) = 0) : tally w f = 0 :=
  Finset.sum_eq_zero fun i _ => h i

theorem tally_nonneg {w : α → Int} (h : ∀ a, 0 ≤ w a) (f : ι → α) : 0 ≤ tally w f :=
  Finset.sum_nonneg fun i _ => h (f i)

/-- A table of total weight zero has only entries of weight zero. -/
theorem eq_zero_of_tally {w : α → Int} (h : ∀ a, 0 ≤ w a) {f : ι → α} (hf : tally w f = 0)
    (i : ι) : w (f i) = 0 :=
  (Finset.sum_eq_zero_iff_of_nonneg fun i _ => h (f i)).mp hf i (Finset.mem_univ i)

/-- The tally of a table with positions `0, …, n - 1`, as a sum over the list. -/
theorem tally_fin {n : Nat} (w : α → Int) (f : Fin n → α) :
    tally w f = ((List.finRange n).map fun i => w (f i)).sum :=
  Fin.sum_univ_def _

end Mmix.Tally
