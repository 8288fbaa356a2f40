import Mathlib.Algebra.Ring.Nat
import Mathlib.Order.Interval.Finset.Nat

/-!
# Coverage by intervals

The numbers that a list of half-open intervals covers, and the sum of the lengths.
Intervals that do not meet are the shortest way to cover what they cover.
-/

namespace Snii.Lib.Coverage

variable {ι κ : Type} {lo hi : ι → Nat} {lo' hi' : κ → Nat}

/-- The numbers in the intervals from `lo` up to `hi`. -/
def covered (lo hi : ι → Nat) : List ι → Finset Nat
  | [] => ∅
  | x :: xs => Finset.Ico (lo x) (hi x) ∪ covered lo hi xs

/-- The lengths of the intervals, added up. -/
def extent (lo hi : ι → Nat) (xs : List ι) : Nat := (xs.map fun x => hi x - lo x).sum

theorem mem_covered {xs : List ι} {n : Nat} :
    n ∈ covered lo hi xs ↔ ∃ x ∈ xs, lo x ≤ n ∧ n < hi x := by
  induction xs with
  | nil => simp [covered]
  | cons x xs ih =>
      rw [covered, Finset.mem_union, Finset.mem_Ico, ih, List.exists_mem_cons_iff]

theorem card_covered_le (lo hi : ι → Nat) (xs : List ι) :
    (covered lo hi xs).card ≤ extent lo hi xs := by
  induction xs with
  | nil => exact Nat.le_refl 0
  | cons x xs ih =>
      rw [covered, extent, List.map_cons, List.sum_cons, ← Nat.card_Ico]
      exact (Finset.card_union_le _ _).trans (Nat.add_le_add_left ih _)

/-- Intervals in ascending order that do not meet cover as much as they are long. -/
theorem card_covered_of_apart {xs : List ι} (h : xs.Pairwise fun x y => hi x ≤ lo y) :
    (covered lo hi xs).card = extent lo hi xs := by
  induction xs with
  | nil => rfl
  | cons x xs ih =>
      obtain ⟨hfirst, hrest⟩ := List.pairwise_cons.mp h
      have hdisjoint : Disjoint (Finset.Ico (lo x) (hi x)) (covered lo hi xs) := by
        rw [Finset.disjoint_left]
        intro n hn hmem
        obtain ⟨y, hy, hle, -⟩ := mem_covered.mp hmem
        have hlt := (Finset.mem_Ico.mp hn).2
        have hapart := hfirst y hy
        omega
      rw [covered, Finset.card_union_of_disjoint hdisjoint, Nat.card_Ico, ih hrest]
      rfl

/-- **The shortest cover**: intervals that do not meet are no longer than any that cover
the same numbers. -/
theorem extent_le {xs : List ι} {ys : List κ} (h : xs.Pairwise fun x y => hi x ≤ lo y)
    (hcover : covered lo hi xs ⊆ covered lo' hi' ys) : extent lo hi xs ≤ extent lo' hi' ys := by
  rw [← card_covered_of_apart h]
  exact (Finset.card_le_card hcover).trans (card_covered_le lo' hi' ys)

end Snii.Lib.Coverage
