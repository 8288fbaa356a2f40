import Mathlib.Algebra.BigOperators.Group.Finset.Basic
import Mathlib.Data.Finset.Card
import Mathlib.Data.Finset.Sort

/-!
# Maximal runs of consecutive numbers

A set of numbers falls into maximal runs of consecutive ones; each run has one first
number, so there are as many runs as numbers without a predecessor in the set.  A scan
of the numbers in ascending order counts them by looking at the number before.
-/

namespace Snii.Lib.Runs

/-- The number of maximal runs of consecutive numbers in a set. -/
def runs (s : Finset ℕ) : ℕ := (s.filter fun b => ∀ a ∈ s, a + 1 ≠ b).card

/-- The runs that a scan in ascending order counts, after the number before. -/
def runStarts : Option ℕ → List ℕ → ℕ
  | _, [] => 0
  | prev, b :: bs => (if prev.map (· + 1) = some b then 0 else 1) + runStarts (some b) bs

theorem runs_le_card (s : Finset ℕ) : runs s ≤ s.card := Finset.card_filter_le _ _

@[simp] theorem runs_empty : runs ∅ = 0 := rfl

/-- A scan of an ascending list, with the numbers that have no predecessor in it. -/
theorem runStarts_eq {bs : List ℕ} {prev : Option ℕ} (hasc : bs.Pairwise (· < ·))
    (hprev : ∀ p ∈ prev, ∀ b ∈ bs, p < b) :
    runStarts prev bs =
      (bs.filter fun b => prev.map (· + 1) ≠ some b ∧ ∀ a ∈ bs, a + 1 ≠ b).length := by
  induction bs generalizing prev with
  | nil => rfl
  | cons b bs ih =>
      obtain ⟨hb, hasc⟩ := List.pairwise_cons.mp hasc
      have hrest := @ih (some b) hasc fun p hp c hc => by
        cases hp
        exact hb c hc
      rw [runStarts, hrest, List.filter_cons]
      have hhead : (prev.map (· + 1) ≠ some b ∧ ∀ a ∈ b :: bs, a + 1 ≠ b) ↔
          prev.map (· + 1) ≠ some b := by
        refine ⟨fun h => h.1, fun h => ⟨h, fun a ha heq => ?_⟩⟩
        rcases List.mem_cons.mp ha with rfl | ha
        · omega
        · have := hb a ha
          omega
      have htail : bs.filter (fun c => prev.map (· + 1) ≠ some c ∧ ∀ a ∈ b :: bs, a + 1 ≠ c) =
          bs.filter fun c => (some b).map (· + 1) ≠ some c ∧ ∀ a ∈ bs, a + 1 ≠ c := by
        apply List.filter_congr
        intro c hc
        have hbc := hb c hc
        apply decide_eq_decide.mpr
        constructor
        · rintro ⟨-, hall⟩
          refine ⟨fun heq => ?_, fun a ha => hall a (List.mem_cons_of_mem _ ha)⟩
          exact hall b List.mem_cons_self (Option.some.inj heq)
        · rintro ⟨hne, hall⟩
          refine ⟨fun heq => ?_, fun a ha => ?_⟩
          · obtain ⟨p, hp, hpc⟩ := Option.map_eq_some_iff.mp heq
            have := hprev p hp b List.mem_cons_self
            omega
          · rcases List.mem_cons.mp ha with rfl | ha
            · exact fun heq => hne (congrArg some heq)
            · exact hall a ha
      rw [htail]
      by_cases hstart : prev.map (· + 1) = some b
      · rw [if_pos hstart, if_neg (by rw [decide_eq_true_iff, hhead]; exact not_not.mpr hstart),
          Nat.zero_add]
      · rw [if_neg hstart, if_pos (by rw [decide_eq_true_iff, hhead]; exact hstart),
          List.length_cons, Nat.add_comm]

/-- **A scan counts the runs** of the numbers it visits. -/
theorem runStarts_none {bs : List ℕ} (hasc : bs.Pairwise (· < ·)) :
    runStarts none bs = runs bs.toFinset := by
  have hnodup : bs.Nodup := hasc.imp fun h => Nat.ne_of_lt h
  rw [runStarts_eq hasc (fun p hp => by cases hp), runs,
    ← List.toFinset_card_of_nodup (hnodup.filter _), List.toFinset_filter]
  congr 1
  apply Finset.filter_congr
  intro b _
  simp

end Snii.Lib.Runs
