import Mathlib.Data.List.Basic
import Mathlib.Tactic.Ring

/-!
# Fixed-size chunks

The pieces of a list that a loop over `start = 0, u, 2u, …` sees: all of length
`u` but the last, which is not empty.  Their concatenation is the list.
-/

namespace Snii.Lib.Chunks

variable {α β : Type}

/-- The pieces of length `u`, the last one shorter if need be. -/
def chunks (u : Nat) (xs : List α) : List (List α) :=
  (List.range ((xs.length + u - 1) / u)).map fun i => (xs.drop (i * u)).take u

@[simp] theorem chunks_nil {u : Nat} (hu : 0 < u) : chunks u ([] : List α) = [] := by
  rw [chunks, List.length_nil, Nat.div_eq_of_lt (show 0 + u - 1 < u by omega)]
  rfl

/-- The loop's first piece and the rest of the loop. -/
theorem chunks_of_ne_nil {u : Nat} (hu : 0 < u) {xs : List α} (hne : xs ≠ []) :
    chunks u xs = xs.take u :: chunks u (xs.drop u) := by
  have hpos : 0 < xs.length := List.length_pos_iff.mpr hne
  have hcount : (xs.length + u - 1) / u = ((xs.drop u).length + u - 1) / u + 1 := by
    rw [List.length_drop]
    by_cases hle : u ≤ xs.length
    · rw [show xs.length + u - 1 = (xs.length - u + u - 1) + u by omega, Nat.add_div_right _ hu]
    · rw [show xs.length - u + u - 1 = u - 1 by omega, Nat.div_eq_of_lt (show u - 1 < u by omega),
        show xs.length + u - 1 = (xs.length - 1) + u by omega, Nat.add_div_right _ hu,
        Nat.div_eq_of_lt (by omega)]
  rw [chunks, hcount, List.range_succ_eq_map, List.map_cons, List.map_map, Nat.zero_mul,
    List.drop_zero, chunks]
  congr 1
  refine List.map_congr_left fun i _ => ?_
  show (xs.drop ((i + 1) * u)).take u = ((xs.drop u).drop (i * u)).take u
  rw [List.drop_drop, Nat.succ_mul, Nat.add_comm]

/-- Induction along the loop. -/
theorem chunks_induction {u : Nat} (hu : 0 < u) {motive : List α → Prop} (nil : motive [])
    (step : ∀ xs, xs ≠ [] → motive (xs.drop u) → motive xs) (xs : List α) : motive xs := by
  induction hn : xs.length using Nat.strong_induction_on generalizing xs with
  | _ n ih =>
      by_cases hne : xs = []
      · rw [hne]
        exact nil
      · refine step xs hne (ih _ ?_ _ rfl)
        have := List.length_pos_iff.mpr hne
        rw [List.length_drop]
        omega

theorem flatten_chunks {u : Nat} (hu : 0 < u) (xs : List α) : (chunks u xs).flatten = xs := by
  induction xs using chunks_induction hu with
  | nil => rw [chunks_nil hu, List.flatten_nil]
  | step xs hne ih => rw [chunks_of_ne_nil hu hne, List.flatten_cons, ih, List.take_append_drop]

theorem length_mem_chunks {u : Nat} (hu : 0 < u) {xs c : List α} (h : c ∈ chunks u xs) :
    0 < c.length ∧ c.length ≤ u := by
  induction xs using chunks_induction hu with
  | nil => simp [chunks_nil hu] at h
  | step xs hne ih =>
      rw [chunks_of_ne_nil hu hne] at h
      rcases List.mem_cons.mp h with rfl | h
      · have := List.length_pos_iff.mpr hne
        rw [List.length_take]
        omega
      · exact ih h

theorem mem_of_mem_chunks {u : Nat} {xs c : List α} (h : c ∈ chunks u xs) {x : α} (hx : x ∈ c) :
    x ∈ xs := by
  obtain ⟨i, _, rfl⟩ := List.mem_map.mp h
  exact List.mem_of_mem_drop (List.mem_of_mem_take hx)

theorem chunks_map {u : Nat} (f : α → β) (xs : List α) :
    chunks u (xs.map f) = (chunks u xs).map (List.map f) := by
  simp only [chunks, List.length_map, List.map_map, Function.comp_def, List.map_drop, List.map_take]

/-- Lists of one length have pieces of the same lengths. -/
theorem map_length_chunks (u : Nat) (xs : List α) :
    (chunks u xs).map List.length =
      (List.range ((xs.length + u - 1) / u)).map fun i => min u (xs.length - i * u) := by
  rw [chunks, List.map_map]
  refine List.map_congr_left fun i _ => ?_
  simp

theorem length_chunks (u : Nat) (xs : List α) :
    (chunks u xs).length = (xs.length + u - 1) / u := by
  simp [chunks]

/-- There are no more chunks than elements. -/
theorem length_chunks_le {u : Nat} (hu : 0 < u) (xs : List α) :
    (chunks u xs).length ≤ xs.length := by
  rw [length_chunks]
  apply Nat.le_of_lt_succ
  apply Nat.div_lt_of_lt_mul
  have hle : xs.length ≤ u * xs.length := Nat.le_mul_of_pos_left _ hu
  rw [Nat.mul_succ]
  omega

end Snii.Lib.Chunks
