import Snii.Query.MovedPostings
import Snii.Reader.SameIndex

/-!
# Calls that fail

A call of `add_logical_index` that fails leaves its posting bytes in the output and no
index.  The container that the session finishes answers as the one of its successful
calls alone (`failedAdds_sound`): the indexes are the same and their sections hold the
same bytes, at other offsets, and no read looks at an offset but to fetch what is there.
-/

namespace Snii.Query.FailedAdds

open Snii.Lib.ByteReader Snii.Lib.Agreement Snii.Common Snii.Io.BatchRangeFetcher
open Snii.Reader Snii.Query.MovedPostings
open Snii.Query.DocidPosting Snii.Query.CursorPostings Snii.Query.Conjunction
open Snii.Query.PhraseQuery Snii.Query.PostingPaths
open Snii.Query.ScoringQuery (DocSort)
open Snii.Format.Dict Snii.Format.DictIndex
open Snii.Format.DictBlock (Resolved)
open Snii.Format.FrqPrelude (FrqPreludeReader)
open Snii.Writer.LogicalIndexWriter Snii.Writer.CompoundWriter

/-- An entry that a reader gives, for a term or under a prefix. -/
def Given (renv : ReadEnv) (idx : LogicalIndexReader) (r : Resolved) : Prop :=
  (∃ term, lookup renv idx term = .ok (some r)) ∨
    ∃ pre rs, prefixTerms renv idx pre = .ok rs ∧ r ∈ rs

/-- Every read of a posting gives the same, errors included. -/
structure SameReads (renv : ReadEnv) (idx idx' : LogicalIndexReader) (r : Resolved) : Prop where
  docids : readDocidPosting renv.zstd idx r = readDocidPosting renv.zstd idx' r
  freqs : buildCursorPostings renv.zstd idx r = buildCursorPostings renv.zstd idx' r
  positions : ∀ srt : DocSort, termPositions srt renv.zstd idx r =
    termPositions srt renv.zstd idx' r
  prelude : fetchWindowedPrelude idx r.entry r.frqBase = fetchWindowedPrelude idx' r.entry r.frqBase
  windowed : ∀ wantPositions wantFreq, readWindowedPosting renv.zstd idx r wantPositions wantFreq =
    readWindowedPosting renv.zstd idx' r wantPositions wantFreq
  window : ∀ prelude w, materializeWindowPostings renv.zstd idx r prelude w =
    materializeWindowPostings renv.zstd idx' r prelude w

/-- Two readers give the same for everything they are asked. -/
structure SameAnswers (renv : ReadEnv) (idx idx' : LogicalIndexReader) : Prop where
  stats : idx.stats = idx'.stats
  tier : idx.tier = idx'.tier
  positions : idx.hasPositions = idx'.hasPositions
  lookup : ∀ term, lookup renv idx term = lookup renv idx' term
  prefixTerms : ∀ pre, prefixTerms renv idx pre = prefixTerms renv idx' pre
  reads : ∀ r, Given renv idx r → SameReads renv idx idx' r
  batch : ∀ rs, (∀ r ∈ rs, Given renv idx r) →
    readDocidPostingsBatched renv.zstd idx rs = readDocidPostingsBatched renv.zstd idx' rs
  phrase : ∀ (srt : DocSort) terms,
    phraseQuery srt renv idx terms = phraseQuery srt renv idx' terms

variable {env : BuildEnv} {renv : ReadEnv} {idx idx' : LogicalIndexReader} {region : Bytes}

/-! ## Two readers of one index -/

/-- **A plan** is refused, ends at a term that is missing, or asks for the same bytes. -/
theorem planTerms_same (h : SameIndex renv idx idx' region) (needPositions : Bool)
    (terms : List Bytes) {reqs reqs' : List Range}
    (hreqs : List.Forall₂ (SameBytes idx.file idx'.file) reqs reqs') :
    SameOutcome (Option.Rel (MovedPlans idx.file idx'.file region.length))
      (planTerms renv idx needPositions reqs terms)
      (planTerms renv idx' needPositions reqs' terms) := by
  induction terms generalizing reqs reqs' with
  | nil => exact .ok (.some ⟨rfl, fun p hp => (by cases hp), hreqs⟩)
  | cons term terms ih =>
      rw [planTerms, planTerms, ← h.lookup term]
      apply (SameOutcome.self fun hit (hhit : lookup renv idx term = .ok hit) => hhit).bind
      intro hit _ hhit
      obtain ⟨heq, hhit⟩ := hhit
      subst heq
      cases hit with
      | none => exact .ok .none
      | some r =>
          apply (configureTermPlan_moved h.posting (h.lookup_spans hhit) needPositions hreqs).bind
          intro x x' hx
          obtain ⟨hplan, hposting, hmore⟩ := hx
          apply (ih hmore).bind
          intro y y' hy
          cases hy with
          | none => exact .ok .none
          | @some y y' hy =>
              apply SameOutcome.ok
              apply Option.Rel.some
              constructor
              case plans =>
                show x.1 :: y.1 = x'.1 :: y'.1
                rw [hplan, hy.plans]
              case spans =>
                intro p hp
                cases List.mem_cons.mp hp with
                | inl heq =>
                    rw [heq, hposting]
                    exact h.lookup_spans hhit
                | inr hrest => exact hy.spans p hrest
              case reqs => exact hy.reqs

/-- **A phrase** is in the same documents. -/
theorem phraseQuery_same (srt : DocSort) (h : SameIndex renv idx idx' region)
    (terms : List Bytes) : phraseQuery srt renv idx terms = phraseQuery srt renv idx' terms := by
  rw [phraseQuery, phraseQuery, h.positions]
  split
  · rfl
  · split
    · rfl
    · apply (planTerms_same h true terms .nil).bind_eq
      intro planned planned' hplanned
      cases hplanned with
      | none => rfl
      | @some x x' hx =>
          simp only [executePhrasePlans]
          rw [← hx.plans, buildPhraseExecutionState_moved srt h.posting hx.spans hx.reqs]

theorem spansIn_given (h : SameIndex renv idx idx' region) {r : Resolved}
    (hr : Given renv idx r) : SpansIn region.length r := by
  cases hr with
  | inl hfound =>
      obtain ⟨term, hterm⟩ := hfound
      exact h.lookup_spans hterm
  | inr hfound =>
      obtain ⟨pre, rs, hpre, hin⟩ := hfound
      exact h.prefixTerms_spans hpre r hin

/-- **Two readers of one index** give the same for everything they are asked. -/
theorem sameAnswers_of_sameIndex (h : SameIndex renv idx idx' region) :
    SameAnswers renv idx idx' := by
  constructor
  case stats => exact h.stats
  case tier => exact h.tier
  case positions => exact h.positions
  case lookup => exact h.lookup
  case prefixTerms => exact h.prefixTerms
  case reads =>
    intro r hr
    have hspans := spansIn_given h hr
    constructor
    case docids => exact readDocidPosting_moved h.posting hspans
    case freqs => exact buildCursorPostings_moved h.posting hspans
    case positions => exact fun srt => termPositions_moved srt h.posting hspans
    case prelude => exact fetchWindowedPrelude_moved h.posting hspans
    case windowed => exact readWindowedPosting_moved renv.zstd h.posting hspans
    case window => exact materializeWindowPostings_moved h.posting hspans
  case batch =>
    intro rs hrs
    exact readDocidPostingsBatched_moved h.posting fun r hr => spansIn_given h (hrs r hr)
  case phrase => exact fun srt => phraseQuery_same srt h

/-! ## Sessions -/

theorem builtOf_isSome (env : BuildEnv) (a : AddCall) :
    (builtOf env a).isSome = true ↔ statusOf env a = .ok () := by
  rw [builtOf, statusOf]
  cases build (a.env env) a.input [] with
  | error e region => exact ⟨fun h => (by cases h), fun h => (by cases h)⟩
  | ok w region => exact ⟨fun _ => rfl, fun _ => rfl⟩

/-- The calls of a session that succeed are those whose status says so. -/
theorem statuses_added (env : BuildEnv) (adds : List AddCall) :
    List.Forall₂ (fun a status => a ∈ added env adds ↔ status = .ok ()) adds
      (addAll env {} adds).1 := by
  rw [(addAll_eq adds).1, List.forall₂_map_right_iff, List.forall₂_same]
  intro a ha
  rw [added, List.mem_filter, builtOf_isSome]
  exact ⟨fun h => h.2, fun h => ⟨ha, h⟩⟩

/-- **Calls that fail leave the container sound.**  Whichever calls of a session fail,
the container opens and holds the indexes of the calls that succeeded, and each of them
answers as it does in the container of these calls alone. -/
theorem failedAdds_sound {adds : List AddCall} (hlibs : SameLibs env renv)
    (hwidths : WidthsOk env adds) (hok : SessionOk (added env adds) (containerOf env adds))
    (hok' : SessionOk (added env adds) (containerOf env (added env adds))) :
    (finish (addAll env {} adds).2).1 = .ok () ∧
    List.Forall₂ (fun a status => a ∈ added env adds ↔ status = .ok ()) adds
      (addAll env {} adds).1 ∧
    ∃ s s', SniiSegmentReader.open (containerOf env adds) = .ok s ∧
      SniiSegmentReader.open (containerOf env (added env adds)) = .ok s' ∧
      directoryKeys s = (added env adds).map (fun a => keyOf a.input) ∧
      ∀ key : Nat × Bytes,
        (key ∈ (added env adds).map (fun a => keyOf a.input) →
          ∃ idx idx', s.openIndex renv key.1 key.2 = .ok idx ∧
            s'.openIndex renv key.1 key.2 = .ok idx' ∧ SameAnswers renv idx idx') ∧
        (key ∉ (added env adds).map (fun a => keyOf a.input) →
          s.openIndex renv key.1 key.2 = .error (.notFound "segment: logical index not found") ∧
          s'.openIndex renv key.1 key.2 =
            .error (.notFound "segment: logical index not found")) := by
  obtain ⟨hfinish, hcont⟩ := @finish_container env adds
  obtain ⟨-, hcont'⟩ := @finish_container env (added env adds)
  rw [← containerOf] at hcont hcont'
  refine ⟨hfinish, statuses_added env adds, _, _, open_container hcont hok,
    open_container hcont' (by rwa [added_added]), directoryKeys_container hcont, fun key => ?_⟩
  constructor
  · intro hkey
    obtain ⟨idx, idx', region, hidx, hidx', hsame⟩ :=
      openIndex_same hlibs hcont hcont' hok hok' hwidths hkey
    exact ⟨idx, idx', hidx, hidx', sameAnswers_of_sameIndex hsame⟩
  · exact openIndex_absent_same hcont hcont' hok hok'

/-- An index whose first term is written before its second is refused. -/
def unsortedInput : SniiIndexInput :=
  { docCount := 2 ^ 31
    source := .terms
      [{ postings := { term := [98], docids := (List.range 100).map (· * 2 ^ 25)
                       freqs := List.replicate 100 1, positionsFlat := List.range 100 } },
       { postings := { term := [99], docids := [5, 3], freqs := [1, 1]
                       positionsFlat := [0, 0] } }] }

/-- The same terms with the documents of both in order. -/
def sortedInput : SniiIndexInput :=
  { docCount := 2 ^ 31, indexId := 1
    source := .terms
      [{ postings := { term := [98], docids := (List.range 100).map (· * 2 ^ 25)
                       freqs := List.replicate 100 1, positionsFlat := List.range 100 } },
       { postings := { term := [99], docids := [3, 5], freqs := [1, 1]
                       positionsFlat := [0, 0] } }] }

def unsortedCall : AddCall := { overCap := fun _ => false, input := unsortedInput }

/-- A call that fails between two that succeed. -/
def threeCalls : List AddCall :=
  [oneCall [97], unsortedCall, { overCap := fun _ => false, input := sortedInput }]

theorem keys_threeCalls :
    (added storeEnv threeCalls).map (fun a => keyOf a.input) = [(0, []), (1, [])] := by
  decide +kernel

theorem failedAdds_sound_threeCalls :
    (addAll storeEnv {} threeCalls).1 = [.ok (),
        .error (.invalidArgument "logical_index: docids must be strictly ascending"), .ok ()] ∧
    ∃ s s', SniiSegmentReader.open (containerOf storeEnv threeCalls) = .ok s ∧
      SniiSegmentReader.open (containerOf storeEnv (added storeEnv threeCalls)) = .ok s' ∧
      directoryKeys s = [(0, []), (1, [])] ∧
      ∀ key ∈ [(0, []), (1, [])], ∃ idx idx', s.openIndex storeReadEnv key.1 key.2 = .ok idx ∧
        s'.openIndex storeReadEnv key.1 key.2 = .ok idx' ∧ SameAnswers storeReadEnv idx idx' := by
  have hcaps : CapsOk storeEnv threeCalls := capsOk_of_capsHold (by decide +kernel)
  have hcount : threeCalls.length < 2 ^ 32 := by decide
  have hinputs : ∀ a ∈ threeCalls, InputOk a.input := by decide +kernel
  have hsize : (containerOf storeEnv threeCalls).length < 2 ^ 64 := by decide +kernel
  have hsize' : (containerOf storeEnv (added storeEnv threeCalls)).length < 2 ^ 64 := by
    decide +kernel
  obtain ⟨-, -, s, s', hopen, hopen', hkeys, hindexes⟩ := failedAdds_sound sameLibs_store
    hcaps.widths (sessionOk_added ⟨hsize, hcount, hinputs⟩)
    (sessionOk_added ⟨hsize', hcount, hinputs⟩)
  rw [keys_threeCalls] at hkeys hindexes
  exact ⟨by decide +kernel, s, s', hopen, hopen', hkeys, fun key hkey => (hindexes key).1 hkey⟩

theorem fail_unsortedCall : Fail storeEnv [unsortedCall] := by
  constructor
  · rw [List.forall_mem_singleton, ← Option.isNone_iff_eq_none]
    decide +kernel
  · decide +kernel

/-- After a call that fails, too, an index whose term is too long cannot be opened. -/
theorem failedAdds_not_opened_longTerm :
    (addAll storeEnv {} [oneCall (List.replicate (2 ^ 32) 0), unsortedCall]).1 = [.ok (),
        .error (.invalidArgument "logical_index: docids must be strictly ascending")] ∧
    (finish (addAll storeEnv {} [oneCall (List.replicate (2 ^ 32) 0), unsortedCall]).2).1 =
      .ok () ∧
    ∃ s, SniiSegmentReader.open
        (containerOf storeEnv [oneCall (List.replicate (2 ^ 32) 0), unsortedCall]) = .ok s ∧
      ∀ idx, s.openIndex storeReadEnv 0 [] ≠ .ok idx := by
  obtain ⟨hstatus, hfinish, hopen⟩ :=
    tooLong_not_opened (tooLong_replicate rfl) fail_unsortedCall storeReadEnv
  have hunsorted : [unsortedCall].map (statusOf storeEnv) =
      [.error (.invalidArgument "logical_index: docids must be strictly ascending")] := by
    decide +kernel
  rw [hunsorted] at hstatus
  exact ⟨hstatus, hfinish, hopen⟩

end Snii.Query.FailedAdds
