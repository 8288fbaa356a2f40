import Snii.Writer.LogicalIndexWriter
import Snii.Writer.SpillTransparent

/-!
# Feeds out of order

Docids of a term that arrive out of order, or again after another one, are put
in order when the term is decoded.  A spill decodes what is resident, so each
run is in order by itself; the merge appends the runs and folds a docid only
where one run ends with it and the next begins with it.  The postings of a feed
are therefore acceptable to the index writer exactly when no spill stands
between two tokens of a term of which the later has the smaller docid
(`build_acceptable_iff`).
-/

namespace Snii.Writer.SpimiTermBuffer

open Snii.Lib.ByteReader Snii.Lib.Grouping Snii.Common Snii.Writer.SpillRunCodec
  Snii.Writer.LogicalIndexWriter

/-- What the index writer needs of an emitted term with the given tokens. -/
structure Acceptable (hasPositions : Bool) (toks : List Tok) (e : Emitted) : Prop where
  ascending : e.postings.docids.Pairwise (· < ·)
  complete : ∀ d, d ∈ e.postings.docids ↔ d ∈ toks.map Prod.fst
  parallel : e.postings.freqs.length = e.postings.docids.length
  positions : hasPositions = true → e.positions.length = e.postings.freqs.sum
  accepted : validateTerm hasPositions e.postings = .ok ()

/-- No spill separates two tokens of the term of which the later has the smaller
docid. -/
def SpillsInOrder (segs : List (List Token)) (id : Nat) : Prop :=
  segs.Pairwise fun s t => ∀ a ∈ toksOf s id, ∀ b ∈ toksOf t id, a.1 ≤ b.1

private theorem mem_keys_segmentGroups {segs : List (List Token)} {id d : Nat} :
    d ∈ (segmentGroups segs id).map Prod.fst ↔ d ∈ (toksOf segs.flatten id).map Prod.fst := by
  rw [← mem_keys_ungroup (segmentGroups_nonempty segs id), ← not_iff_not, ← valuesOf_eq_nil,
    ← valuesOf_eq_nil, valuesOf_segmentGroups]

/-- The number of positions announced is the sum of the freqs. -/
private theorem Lays.announced {plan : TermPostings → List Nat} {allowStream : Bool}
    {e : Emitted} {hasPositions : Bool} {term : Bytes} {g : List (Nat × List Nat)}
    (h : Lays plan allowStream e hasPositions term g) (hplan : allowStream = true → Drains plan)
    (hsmall : ∀ x ∈ g, x.2.length < 2 ^ 32) (hpos : hasPositions = true) :
    e.positions.length = e.postings.freqs.sum ∧
      e.postings.freqs.sum = if e.postings.streamed then e.postings.posTotal
        else e.postings.positionsFlat.length := by
  have hsum : e.postings.freqs.sum = (g.flatMap Prod.snd).length := by
    rw [h.freqs, freqsOf_of_lt hsmall, List.length_flatMap]
  have hlen : e.positions.length = (g.flatMap Prod.snd).length := by
    rw [h.positions hplan, if_pos hpos]
  refine ⟨hlen.trans hsum.symm, ?_⟩
  cases hs : e.postings.streamed with
  | true => rw [if_pos rfl, (h.streamed hs).2.2.2, hsum]
  | false =>
      rw [Emitted.positions, hs] at hlen
      simpa [hsum] using hlen.symm

/-- A term laid out from its segments is acceptable when its docids ascend. -/
theorem Lays.acceptable_iff {plan : TermPostings → List Nat} {allowStream : Bool} {e : Emitted}
    {hasPositions : Bool} {term : Bytes} {segs : List (List Token)} {id : Nat}
    (h : Lays plan allowStream e hasPositions term (segmentGroups segs id))
    (hplan : allowStream = true → Drains plan)
    (hcount : (toksOf segs.flatten id).length < 2 ^ 32) :
    Acceptable hasPositions (toksOf segs.flatten id) e ↔ SpillsInOrder segs id := by
  have hasc : e.postings.docids.Pairwise (· < ·) ↔ SpillsInOrder segs id := by
    rw [h.docids, List.pairwise_map]
    exact segmentGroups_ascending_iff segs id
  constructor
  · intro hacc
    exact hasc.mp hacc.ascending
  · intro hord
    have hpar : e.postings.freqs.length = e.postings.docids.length := by
      rw [h.freqs, h.docids, length_freqsOf, List.length_map]
    have hannounced := h.announced hplan (segmentGroups_small hcount)
    refine ⟨hasc.mpr hord, fun d => ?_, hpar, fun hpos => (hannounced hpos).1, ?_⟩
    · rw [h.docids]
      exact mem_keys_segmentGroups
    · have hcount : ¬ (hasPositions = true ∧ e.postings.freqs.sum ≠
          if e.postings.streamed then e.postings.posTotal
          else e.postings.positionsFlat.length) := by
        rintro ⟨hpos, hne⟩
        exact hne (hannounced hpos).2
      rw [validateTerm, if_neg (not_not.mpr hpar), if_neg hcount,
        if_neg (by simp [(docidsAscend_iff _).mpr (hasc.mpr hord)])]

private theorem spillsInOrder_of_not_mem {vocab : List Bytes} {segs : List (List Token)} {id : Nat}
    (h : id ∉ dictIds vocab segs.flatten) : SpillsInOrder segs id := by
  refine List.Pairwise.imp_of_mem ?_ (List.pairwise_of_forall (R := fun _ _ => True) (by simp))
  intro s t hs _ _ a ha
  have hnil : toksOf segs.flatten id = [] := toksOf_eq_nil.mpr fun hmem => h (mem_dictIds.mpr hmem)
  have hmem : a ∈ toksOf segs.flatten id := by
    rw [toksOf_flatten]
    exact List.mem_flatMap.mpr ⟨s, hs, ha⟩
  rw [hnil] at hmem
  simp at hmem

/-- All the emitted terms together. -/
theorem LaysSegs.acceptable_iff {plan : TermPostings → List Nat} {allowStream : Bool}
    {vocab : List Bytes} {hasPositions : Bool} {segs : List (List Token)} {out : List Emitted}
    (h : LaysSegs plan allowStream vocab hasPositions segs out)
    (hplan : allowStream = true → Drains plan)
    (hcount : ∀ id, (toksOf segs.flatten id).length < 2 ^ 32) :
    List.Forall₂ (fun e id => Acceptable hasPositions (toksOf segs.flatten id) e) out
        (dictIds vocab segs.flatten) ↔ ∀ id, SpillsInOrder segs id := by
  have hpoint : List.Forall₂ (fun e id => Acceptable hasPositions (toksOf segs.flatten id) e) out
      (dictIds vocab segs.flatten) ↔ ∀ id ∈ dictIds vocab segs.flatten, SpillsInOrder segs id := by
    unfold LaysSegs at h
    generalize dictIds vocab segs.flatten = ids at h
    induction h with
    | nil => simp
    | cons hlays _ ih => rw [List.forall₂_cons, ih, hlays.acceptable_iff hplan (hcount _),
        List.forall_mem_cons]
  rw [hpoint]
  constructor
  · intro hall id
    by_cases hid : id ∈ dictIds vocab segs.flatten
    · exact hall id hid
    · exact spillsInOrder_of_not_mem hid
  · exact fun hall id _ => hall id

/-- **When the writer accepts a build.**  Over any feed and any placement of
spills, either drain succeeds, and its terms are all acceptable exactly when no
spill stands between two tokens of a term of which the later has the smaller
docid. -/
theorem build_acceptable_iff (vocab : List Bytes) (hasPositions : Bool) (spillThresholdBytes : Nat)
    (hasReporter : Bool) (feed : List (Token × TokenEnv)) (env : DrainEnv)
    (plan : TermPostings → List Nat) (hvocab : vocab.Nodup) (hfeed : FeedOk vocab feed)
    (hcount : ∀ id, (toksOf (feed.map Prod.fst) id).length < 2 ^ 32) (henv : Good env.spill)
    (hplan : Drains plan) :
    let start := Buffer.borrowed vocab hasPositions spillThresholdBytes hasReporter
    let segs := (segmentsAfter start feed [] []).1 ++ [(segmentsAfter start feed [] []).2]
    let toks := feed.map Prod.fst
    ∃ b, addTokens start feed = some b ∧
      (∃ out b', forEachTermSorted env plan b = some (.ok (), out, b') ∧
        (List.Forall₂ (fun e id => Acceptable hasPositions (toksOf toks id) e) out
          (dictIds vocab toks) ↔ ∀ id, SpillsInOrder segs id)) ∧
      ∃ out b', finalizeSorted env b = some (out, b') ∧ b'.spillStatus = none ∧
        (List.Forall₂ (fun e id => Acceptable hasPositions (toksOf toks id) e) out
          (dictIds vocab toks) ↔ ∀ id, SpillsInOrder segs id) := by
  intro start segs toks
  obtain ⟨hflat, b, hadd, ⟨out1, b1, h1, hlays1⟩, out2, b2, h2, hstatus, hlays2⟩ :=
    build_lays vocab hasPositions spillThresholdBytes hasReporter feed env plan hvocab hfeed
      (fun id => Nat.lt_trans (hcount id) (by decide)) henv hplan.restrained
  have htoks : toks = segs.flatten := hflat.symm
  have hcount' : ∀ id, (toksOf segs.flatten id).length < 2 ^ 32 := by
    rw [← htoks]
    exact hcount
  rw [htoks]
  exact ⟨b, hadd, ⟨out1, b1, h1, hlays1.acceptable_iff (fun _ => hplan) hcount'⟩, out2, b2, h2, hstatus,
    hlays2.acceptable_iff (by simp) hcount'⟩

/-- A term seen in document 5, then in document 3; `spilled` puts a spill between. -/
def reorderFeed (spilled : Bool) : List (Token × TokenEnv) :=
  [(⟨0, 5, 0⟩, { overCap := spilled }), (⟨0, 3, 0⟩, {})]

theorem reorderFeed_ok (spilled : Bool) : FeedOk [[116]] (reorderFeed spilled) ∧
    ∀ id, (toksOf ((reorderFeed spilled).map Prod.fst) id).length < 2 ^ 32 := by
  refine ⟨⟨?_, ?_, ?_⟩, fun id => ?_⟩
  · cases spilled <;> decide
  · unfold Token.Valid
    cases spilled <;> decide
  · intro x hx
    simp only [reorderFeed, List.mem_cons, List.not_mem_nil, or_false] at hx
    rcases hx with rfl | rfl <;> exact ⟨rfl, rfl, fun _ => rfl, rfl⟩
  · have hle := List.length_filter_le (fun t => decide (t.termId = id))
      ((reorderFeed spilled).map Prod.fst)
    rw [toksOf, List.length_map]
    exact Nat.lt_of_le_of_lt hle (by simp [reorderFeed])

theorem build_acceptable_iff_resident :
    ∃ b, addTokens (Buffer.borrowed [[116]] true 0 true) (reorderFeed false) = some b ∧
      ∃ out b', forEachTermSorted {} (fun tp => [tp.posTotal]) b = some (.ok (), out, b') ∧
        List.Forall₂ (fun e id => Acceptable true
          (toksOf ((reorderFeed false).map Prod.fst) id) e) out
          (dictIds [[116]] ((reorderFeed false).map Prod.fst)) := by
  obtain ⟨hfeed, hcount⟩ := reorderFeed_ok false
  obtain ⟨b, hadd, ⟨out, b', hdrain, hiff⟩, _⟩ := build_acceptable_iff [[116]] true 0 true
    (reorderFeed false) {} (fun tp => [tp.posTotal]) (by decide) hfeed hcount
    ⟨rfl, rfl, fun _ => rfl, rfl⟩ (fun tp _ => by simp)
  have hsegs : segmentsAfter (Buffer.borrowed [[116]] true 0 true) (reorderFeed false) [] [] =
      ([], [⟨0, 5, 0⟩, ⟨0, 3, 0⟩]) := by decide +kernel
  refine ⟨b, hadd, out, b', hdrain, hiff.mpr fun id => ?_⟩
  rw [hsegs]
  exact List.pairwise_singleton _ _

/-- With a spill between the two documents the drain succeeds, returns docids
5, 3, and the writer's check rejects them. -/
theorem build_rejected_spilled :
    ∃ b out b', addTokens (Buffer.borrowed [[116]] true 0 true) (reorderFeed true) = some b ∧
      forEachTermSorted {} (fun tp => [tp.posTotal]) b = some (.ok (), out, b') ∧
      out.map (fun e => e.postings.docids) = [[5, 3]] ∧
      out.map (fun e => validateTerm true e.postings) =
        [.error (.invalidArgument "logical_index: docids must be strictly ascending")] := by
  have hrun : ((addTokens (Buffer.borrowed [[116]] true 0 true) (reorderFeed true)).bind fun b =>
      (forEachTermSorted {} (fun tp => [tp.posTotal]) b).map fun r =>
        (r.1.isOk, r.2.1.map fun e => (e.postings.docids, validateTerm true e.postings))) =
      some (true, [([5, 3], .error (.invalidArgument
        "logical_index: docids must be strictly ascending"))]) := by decide +kernel
  obtain ⟨b, hadd, hdrain⟩ := Option.bind_eq_some_iff.mp hrun
  obtain ⟨⟨st, out, b'⟩, hfor, heq⟩ := Option.map_eq_some_iff.mp hdrain
  obtain ⟨hok, hout⟩ := Prod.mk.inj heq
  cases st with
  | error s => exact absurd hok (by simp [Except.isOk, Except.toBool])
  | ok u =>
      refine ⟨b, out, b', hadd, hfor, ?_, ?_⟩
      · simpa using congrArg (List.map Prod.fst) hout
      · simpa using congrArg (List.map Prod.snd) hout

end Snii.Writer.SpimiTermBuffer
