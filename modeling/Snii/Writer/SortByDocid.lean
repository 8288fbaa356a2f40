import Snii.Format.PayloadRoundTrip
import Snii.Writer.ToPostings

/-!
# The reorder by docid

`SortByDocid` on any parallel arrays.  The groups a term's arrays hold are read off them
in arrival order (`groupsOf`); the reorder leaves one group for each docid, with the sum of
the freqs (`freqOf`) and the positions of all its groups one after the other
(`positionsOf`).
-/

namespace Snii.Writer.SpimiTermBuffer

open Snii.Lib.Grouping Snii.Format.PrxPod

/-- The positions of every group, in arrival order. -/
def groupsOf (d : Decoded) : List (Nat × List Nat) :=
  d.docids.zip (splitCounts d.freqs d.positionsFlat)

/-- The positions of a document: those of its groups, in arrival order. -/
def positionsOf (d : Decoded) (docid : Nat) : List Nat := (valuesOf docid (groupsOf d)).flatten

/-- The freq of a document: the sum over its groups. -/
def freqOf (d : Decoded) (docid : Nat) : Nat := (valuesOf docid (d.docids.zip d.freqs)).sum

/-! ## Arrays and groups -/

/-- The arrays hold the groups; without positions there is nothing to cut up. -/
structure Arrays (hasPositions : Bool) (d : Decoded) (g : List (Nat × List Nat)) : Prop where
  docids : d.docids = g.map Prod.fst
  freqs : d.freqs = g.map fun e => e.2.length
  positions : hasPositions = true → d.positionsFlat = g.flatMap Prod.snd

variable {hasPositions : Bool} {d : Decoded} {g : List (Nat × List Nat)}

theorem arrays_flat (hasPositions : Bool) (g : List (Nat × List Nat)) :
    Arrays hasPositions (flat hasPositions g) g := by
  refine ⟨rfl, rfl, ?_⟩
  intro hpos
  rw [flat, if_pos hpos]

/-- Counts that add up to a list's length cut it into pieces of these lengths. -/
theorem splitCounts_sum {counts xs : List Nat} (h : xs.length = counts.sum) :
    (splitCounts counts xs).map List.length = counts ∧ (splitCounts counts xs).flatten = xs := by
  induction counts generalizing xs with
  | nil =>
      rw [List.sum_nil] at h
      exact ⟨rfl, (List.length_eq_zero_iff.mp h).symm⟩
  | cons n counts ih =>
      rw [List.sum_cons] at h
      obtain ⟨hlens, hflat⟩ := @ih (xs.drop n) (by rw [List.length_drop]; omega)
      have htake : (xs.take n).length = n := by
        rw [List.length_take]
        omega
      rw [splitCounts, List.map_cons, List.flatten_cons, hlens, hflat, htake,
        List.take_append_drop]
      exact ⟨rfl, rfl⟩

theorem exists_arrays (hfreqs : d.freqs.length = d.docids.length)
    (hpos : hasPositions = true → d.positionsFlat.length = d.freqs.sum) :
    ∃ g, Arrays hasPositions d g := by
  let xs := if hasPositions then d.positionsFlat else List.replicate d.freqs.sum 0
  have hxs : xs.length = d.freqs.sum := by
    cases hasPositions with
    | false => exact List.length_replicate
    | true => exact hpos rfl
  obtain ⟨hlens, hflat⟩ := splitCounts_sum hxs
  have hlen : (splitCounts d.freqs xs).length = d.docids.length := by
    rw [← hfreqs, ← congrArg List.length hlens, List.length_map]
  have hsnd : (d.docids.zip (splitCounts d.freqs xs)).map Prod.snd = splitCounts d.freqs xs :=
    List.map_snd_zip hlen.le
  refine ⟨d.docids.zip (splitCounts d.freqs xs), (List.map_fst_zip hlen.ge).symm, ?_, ?_⟩
  · calc d.freqs = ((d.docids.zip (splitCounts d.freqs xs)).map Prod.snd).map List.length := by
          rw [hsnd, hlens]
      _ = (d.docids.zip (splitCounts d.freqs xs)).map fun e => e.2.length := List.map_map
  · intro hp
    rw [List.flatMap_def, hsnd, hflat]
    exact (if_pos hp).symm

theorem Arrays.length_ungroup (h : Arrays hasPositions d g) : (ungroup g).length = d.freqs.sum := by
  rw [SpimiTermBuffer.length_ungroup, h.freqs]

/-! ## The reorder -/

/-- The groups after the reorder. -/
def reorder (g : List (Nat × List Nat)) : List (Nat × List Nat) :=
  foldGroups [] (g.insertionSort fun a b => a.1 ≤ b.1)

/-- Without positions the flat positions are neither read nor written. -/
theorem sortByDocid_noPositions (d : Decoded) (positions : List Nat) :
    sortByDocid d false =
      { sortByDocid { d with positionsFlat := positions } false with
        positionsFlat := d.positionsFlat } := rfl

theorem sortByDocid_arrays (h : Arrays hasPositions d g) (hlen : d.freqs.sum < 2 ^ 32) :
    Arrays hasPositions (sortByDocid d hasPositions) (reorder g) ∧
      (hasPositions = false → (sortByDocid d hasPositions).positionsFlat = d.positionsFlat) := by
  have hsort := @sortByDocid_flat hasPositions g (by rw [h.length_ungroup]; exact hlen)
  have harrays := arrays_flat hasPositions (reorder g)
  cases hasPositions with
  | true =>
      have hd : d = flat true g := by
        cases d
        simp only [flat, if_true, Decoded.mk.injEq]
        exact ⟨h.docids, h.freqs, h.positions rfl⟩
      rw [hd, hsort]
      exact ⟨harrays, fun hfalse => by cases hfalse⟩
  | false =>
      have hd : { d with positionsFlat := [] } = flat false g := by
        rw [flat, if_neg (by decide), ← h.docids, ← h.freqs]
      rw [sortByDocid_noPositions d [], hd, hsort]
      exact ⟨⟨harrays.docids, harrays.freqs, fun hfalse => by cases hfalse⟩, fun _ => rfl⟩

theorem mem_keys_foldGroups {acc g : List (Nat × List Nat)} {docid : Nat} :
    docid ∈ (foldGroups acc g).map Prod.fst ↔
      docid ∈ acc.map Prod.fst ∨ docid ∈ g.map Prod.fst := by
  induction g generalizing acc with
  | nil => simp [foldGroups]
  | cons e g ih =>
      rw [foldGroups, List.foldl_cons, ← foldGroups, ih, mem_keys_catGroups]
      simp only [List.map_cons, List.map_nil, List.mem_cons, List.not_mem_nil]
      tauto

theorem mem_keys_reorder (g : List (Nat × List Nat)) (docid : Nat) :
    docid ∈ (reorder g).map Prod.fst ↔ docid ∈ g.map Prod.fst := by
  rw [reorder, mem_keys_foldGroups]
  simp only [List.map_nil, List.not_mem_nil, false_or, List.mem_map, List.mem_insertionSort]

/-- **One group for each docid**, with the values of all its groups in arrival order. -/
theorem reorder_eq (g : List (Nat × List Nat)) :
    reorder g =
      ((reorder g).map Prod.fst).map fun docid => (docid, (valuesOf docid g).flatten) := by
  rw [List.map_map]
  conv_lhs => rw [← List.map_id (reorder g)]
  apply List.map_congr_left
  intro e he
  have hgroup := valuesOf_ungroup_of_mem (foldGroups_sort_ascending g) he
  rw [valuesOf_foldGroups_sort, valuesOf_ungroup] at hgroup
  exact Prod.ext rfl hgroup.symm

/-! ## What the arrays say -/

theorem Arrays.groupsOf_eq (h : Arrays true d g) : groupsOf d = g := by
  have hcut : splitCounts d.freqs d.positionsFlat = g.map Prod.snd := by
    have hlens := Snii.Format.splitCounts_lengths (g.map Prod.snd)
    rw [List.map_map] at hlens
    rw [h.freqs, h.positions rfl, List.flatMap_def]
    exact hlens
  rw [groupsOf, hcut, h.docids, List.zip_map']
  exact List.map_id g

theorem Arrays.positionsOf_eq (h : Arrays true d g) (docid : Nat) :
    positionsOf d docid = (valuesOf docid g).flatten := by
  rw [positionsOf, h.groupsOf_eq]

theorem Arrays.freqOf_eq (h : Arrays hasPositions d g) (docid : Nat) :
    freqOf d docid = (valuesOf docid g).flatten.length := by
  have hzip : d.docids.zip d.freqs = g.map fun e => (e.1, e.2.length) := by
    rw [h.docids, h.freqs, List.zip_map']
  rw [freqOf, hzip, valuesOf_map, List.length_flatten]

/-- **The reorder groups by docid**: for any parallel docids and freqs, and as many positions
as the freqs count, every docid comes out once, in strictly ascending order, with the sum of
its freqs and with the positions of its groups in arrival order.  Without positions the flat
positions stay as they are. -/
theorem sortByDocid_groups (hasPositions : Bool) {d : Decoded}
    (hfreqs : d.freqs.length = d.docids.length) (hsum : d.freqs.sum < 2 ^ 32)
    (hpos : hasPositions = true → d.positionsFlat.length = d.freqs.sum) :
    let out := sortByDocid d hasPositions
    out.docids.Pairwise (· < ·) ∧ (∀ docid, docid ∈ out.docids ↔ docid ∈ d.docids) ∧
      out.freqs = out.docids.map (freqOf d) ∧
      (hasPositions = true →
        groupsOf out = out.docids.map fun docid => (docid, positionsOf d docid)) ∧
      (hasPositions = true → out.positionsFlat = out.docids.flatMap (positionsOf d)) ∧
      (hasPositions = false → out.positionsFlat = d.positionsFlat) := by
  obtain ⟨g, hg⟩ := exists_arrays hfreqs hpos
  obtain ⟨hout, huntouched⟩ := sortByDocid_arrays hg hsum
  have hgroups := reorder_eq g
  dsimp only
  refine ⟨?_, ?_, ?_, ?_, ?_, huntouched⟩
  · rw [hout.docids]
    exact List.pairwise_map.mpr (foldGroups_sort_ascending g)
  · intro docid
    rw [hout.docids, mem_keys_reorder, hg.docids]
  · rw [hout.freqs, hout.docids]
    conv_lhs => rw [hgroups]
    rw [List.map_map]
    exact List.map_congr_left fun docid _ => (hg.freqOf_eq docid).symm
  · intro hp
    subst hp
    rw [hout.groupsOf_eq, hout.docids]
    conv_lhs => rw [hgroups]
    apply List.map_congr_left
    intro docid _
    rw [hg.positionsOf_eq]
  · intro hp
    subst hp
    rw [hout.positions rfl, hout.docids]
    conv_lhs => rw [hgroups]
    rw [List.flatMap_map]
    exact List.flatMap_congr fun docid _ => (hg.positionsOf_eq docid).symm

/-- Document 5 comes twice, once before and once after document 1. -/
theorem sortByDocid_groups_revisit :
    let d : Decoded := { docids := [5, 1, 5], freqs := [2, 1, 1], positionsFlat := [3, 4, 0, 1] }
    sortByDocid d true =
        { docids := [1, 5], freqs := [1, 3], positionsFlat := [0, 3, 4, 1] } ∧
      (sortByDocid d true).docids.Pairwise (· < ·) ∧
      groupsOf (sortByDocid d true) = [(1, positionsOf d 1), (5, positionsOf d 5)] := by
  have h := @sortByDocid_groups true
    { docids := [5, 1, 5], freqs := [2, 1, 1], positionsFlat := [3, 4, 0, 1] } rfl (by decide)
    fun _ => rfl
  exact ⟨by decide, h.1, h.2.2.2.1 rfl⟩

end Snii.Writer.SpimiTermBuffer
