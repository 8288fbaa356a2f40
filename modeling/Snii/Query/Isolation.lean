import Snii.Query.FailedAdds
import Snii.Query.IndexScoring
import Snii.Query.RegexpQuery
import Snii.Query.TermQuery

/-!
# One index in two containers

A container holds the indexes of many calls.  Whatever the other calls of a session are,
before an index or behind it, failed or not, the index answers alike: the readers that
two containers give for one call are readers of one index, and no query of the interface
tells them apart, errors included (`isolation`).
-/

namespace Snii.Query.Isolation

open Snii.Lib.ByteReader Snii.Lib.Agreement Snii.Lib.Aligned Snii.Common
open Snii.Io.BatchRangeFetcher Snii.Reader Snii.Stats
open Snii.Query.DocidPosting Snii.Query.DocidUnion Snii.Query.DocidSetOps
open Snii.Query.CursorPostings Snii.Query.Conjunction Snii.Query.PhraseQuery
open Snii.Query.PhrasePrefixQuery Snii.Query.WildcardQuery Snii.Query.RegexpQuery
open Snii.Query.TermQuery Snii.Query.MovedPostings Snii.Query.FailedAdds
open Snii.Query.IndexCursors Snii.Query.IndexScoring
open Snii.Query.ScoringQuery (DocSort TermCursor)
open Snii.Query.Bm25Scorer (Bm25Params ScorerContext)
open Snii.Query.FetchedWindows (FetchingCursor)
open Snii.Encoding.Compression
open Snii.Format.DictBlock (DictBlockBuilder Resolved)
open Snii.Format.FrqPrelude (FrqPreludeReader)
open Snii.Writer.LogicalIndexWriter Snii.Writer.CompoundWriter

variable {env : BuildEnv} {renv : ReadEnv} {idx idx' : LogicalIndexReader} {region : Bytes}

/-! ## Terms and unions -/

theorem termQuery_same (h : SameIndex renv idx idx' region) (term : Bytes) :
    termQuery renv idx term = termQuery renv idx' term := by
  rw [termQuery, termQuery, ← h.lookup term]
  apply (SameOutcome.self fun hit (hhit : lookup renv idx term = .ok hit) => hhit).bind_eq
  intro hit _ hhit
  obtain ⟨heq, hhit⟩ := hhit
  subst heq
  cases hit with
  | none => rfl
  | some r => exact readDocidPosting_moved h.posting (h.lookup_spans hhit)

theorem emitDocidUnion_same (h : SameIndex renv idx idx' region) {rs : List Resolved}
    (hrs : ∀ r ∈ rs, SpansIn region.length r) :
    emitDocidUnion renv.zstd idx rs = emitDocidUnion renv.zstd idx' rs := by
  rw [emitDocidUnion, emitDocidUnion, readDocidPostingsBatched_moved h.posting hrs]

theorem booleanOr_same (h : SameIndex renv idx idx' region) (terms : List Bytes) :
    booleanOr renv idx terms = booleanOr renv idx' terms := by
  have hlookup : lookup renv idx = lookup renv idx' := funext h.lookup
  have hspans : ∀ found, (uniqueTerms terms).mapM (lookup renv idx) = .ok found →
      ∀ r ∈ found.filterMap id, SpansIn region.length r := by
    intro found hfound r hr
    obtain ⟨hit, hhit, hsome⟩ := List.mem_filterMap.mp hr
    obtain ⟨t, -, ht⟩ := exists_left_of_mem (mapM_eq_ok hfound) hhit
    rw [id] at hsome
    rw [hsome] at ht
    exact h.lookup_spans ht
  rw [booleanOr, booleanOr, ← hlookup]
  split
  · rfl
  · apply (SameOutcome.self hspans).bind_eq
    intro found _ hfound
    obtain ⟨heq, hfound⟩ := hfound
    subst heq
    exact emitDocidUnion_same h hfound

/-- **An expansion** finds the same terms and joins the same documents. -/
theorem emitExpandedDocidUnion_same (h : SameIndex renv idx idx' region) (pre : Bytes)
    (accepts : Bytes → Bool) :
    emitExpandedDocidUnion renv idx pre accepts =
      emitExpandedDocidUnion renv idx' pre accepts := by
  rw [emitExpandedDocidUnion, emitExpandedDocidUnion, ← h.prefixTerms pre]
  apply (SameOutcome.self fun hits (hhits : prefixTerms renv idx pre = .ok hits) =>
    h.prefixTerms_spans hhits).bind_eq
  intro hits _ hhits
  obtain ⟨heq, hhits⟩ := hhits
  subst heq
  exact emitDocidUnion_same h fun r hr => hhits r (List.mem_filter.mp hr).1

theorem regexpQuery_same (lib : Regex) (h : SameIndex renv idx idx' region) (pattern : Bytes) :
    regexpQuery lib renv idx pattern = regexpQuery lib renv idx' pattern := by
  rw [regexpQuery, regexpQuery]
  cases lib.compile pattern with
  | error what => rfl
  | ok re => exact emitExpandedDocidUnion_same h _ _

/-! ## Conjunctions -/

theorem booleanAnd_same (srt : DocSort) (h : SameIndex renv idx idx' region)
    (terms : List Bytes) : booleanAnd srt renv idx terms = booleanAnd srt renv idx' terms := by
  rw [booleanAnd, booleanAnd]
  split
  · rfl
  · apply (planTerms_same h false terms .nil).bind_eq
    intro planned planned' hplanned
    cases hplanned with
    | none => rfl
    | @some x x' hx =>
        simp only
        rw [← hx.plans]
        apply (fetch_same h.posting.here.size h.posting.there.size hx.reqs 0).bind_eq
        intro f f' hf
        rw [openPreludes_same hf]
        apply (SameOutcome.self fun opened hopened => openPreludes_spans hx.spans hopened).bind_eq
        intro opened _ hopened
        obtain ⟨heq, hspans⟩ := hopened
        subst heq
        rw [buildConjunction, conjunctionLoop_moved h.posting hf hspans]
        rfl

/-! ## Phrases with a prefix -/

/-- The exact terms are found alike, with their spans in the posting region. -/
theorem resolveExactTerms_same (h : SameIndex renv idx idx' region) (terms : List Bytes) :
    SameOutcome (fun x x' => x = x' ∧ ∀ rs, x = some rs → ∀ r ∈ rs, SpansIn region.length r)
      (resolveExactTerms renv idx terms) (resolveExactTerms renv idx' terms) := by
  induction terms with
  | nil =>
      apply SameOutcome.ok
      refine ⟨rfl, fun rs hrs r hr => ?_⟩
      cases hrs
      cases hr
  | cons term terms ih =>
      rw [resolveExactTerms, resolveExactTerms, ← h.lookup term]
      apply (SameOutcome.self fun hit (hhit : lookup renv idx term = .ok hit) => hhit).bind
      intro hit _ hhit
      obtain ⟨heq, hhit⟩ := hhit
      subst heq
      cases hit with
      | none => exact .ok ⟨rfl, fun rs hrs => (by cases hrs)⟩
      | some r =>
          apply ih.bind
          intro rest _ hrest
          obtain ⟨heq, hspans⟩ := hrest
          subst heq
          apply SameOutcome.ok
          refine ⟨rfl, fun rs hrs q hq => ?_⟩
          obtain ⟨more, hmore, rfl⟩ := Option.map_eq_some_iff.mp hrs
          cases List.mem_cons.mp hq with
          | inl heq => exact heq ▸ h.lookup_spans hhit
          | inr hin => exact hspans more hmore q hin

theorem collectExpectedTailPositions_moved (srt : DocSort) {z : Zstd}
    (h : SameRegion idx idx' region) {rs : List Resolved}
    (hrs : ∀ r ∈ rs, SpansIn region.length r) :
    collectExpectedTailPositions srt z idx rs = collectExpectedTailPositions srt z idx' rs := by
  rw [collectExpectedTailPositions, collectExpectedTailPositions]
  apply (planResolvedTerms_moved h hrs true .nil).bind_eq
  intro x x' hx
  simp only
  rw [← hx.plans, buildPhraseExecutionState_moved srt h hx.spans hx.reqs]

theorem collectTailMatches_moved (srt : DocSort) {z : Zstd} (h : SameRegion idx idx' region)
    (expected : List ExpectedTailPositions) {tail : Resolved}
    (htail : SpansIn region.length tail) :
    collectTailMatchesAtExpectedPositions srt z idx expected tail =
      collectTailMatchesAtExpectedPositions srt z idx' expected tail := by
  rw [collectTailMatchesAtExpectedPositions, collectTailMatchesAtExpectedPositions]
  split
  · rfl
  · apply (planResolvedTerms_moved h (List.forall_mem_singleton.mpr htail) true .nil).bind_eq
    intro x x' hx
    simp only
    rw [← hx.plans, buildPhraseExecutionState_moved srt h hx.spans hx.reqs]

theorem joinTails_congr {read read' : Resolved → Result (List Nat)} {hits : List Resolved}
    (h : ∀ hit ∈ hits, read hit = read' hit) (acc : List Nat) :
    joinTails read acc hits = joinTails read' acc hits := by
  induction hits generalizing acc with
  | nil => rfl
  | cons hit hits ih =>
      rw [joinTails, joinTails, h hit List.mem_cons_self]
      apply (SameOutcome.refl _).bind_eq
      intro docs _ hdocs
      subst hdocs
      exact ih (fun x hx => h x (List.mem_cons_of_mem _ hx)) _

/-- **A phrase with a prefix at its end** is in the same documents. -/
theorem phrasePrefixQuery_same (srt : DocSort) (h : SameIndex renv idx idx' region)
    (terms : List Bytes) :
    phrasePrefixQuery srt renv idx terms = phrasePrefixQuery srt renv idx' terms := by
  rw [phrasePrefixQuery, phrasePrefixQuery, h.positions]
  split
  · rfl
  · split
    · rw [prefixQuery_eq, prefixQuery_eq]
      exact emitExpandedDocidUnion_same h _ _
    · split
      · rfl
      · apply (resolveExactTerms_same h _).bind_eq
        intro found _ hfound
        obtain ⟨heq, hspans⟩ := hfound
        subst heq
        cases found with
        | none => rfl
        | some exactTerms =>
            simp only
            rw [← h.prefixTerms]
            apply (SameOutcome.self fun hits
              (hhits : prefixTerms renv idx (terms.getLastD []) = .ok hits) =>
              h.prefixTerms_spans hhits).bind_eq
            intro hits _ hhits
            obtain ⟨heq, hhits⟩ := hhits
            subst heq
            rw [collectExpectedTailPositions_moved srt h.posting (hspans _ rfl)]
            split
            · rfl
            · apply (SameOutcome.refl _).bind_eq
              intro expected _ hexpected
              subst hexpected
              rw [joinTails_congr fun hit hhit =>
                collectTailMatches_moved srt h.posting expected (hhits hit hhit)]

/-! ## Scores -/

section Scores

variable {ln : ℚ → ℚ} {params : Bm25Params} {ctx : ScorerContext} {p : SniiStatsProvider}

/-- Scoring looks at the numbers of the provider alone. -/
theorem scoreDecoded_moved (docids freqs : List Nat) :
    scoreDecoded { p with idx := idx' } ctx params docids freqs =
      scoreDecoded p ctx params docids freqs := by
  induction docids generalizing freqs with
  | nil => rfl
  | cons d docids ih =>
      rw [scoreDecoded, scoreDecoded, ih]
      rfl

theorem fetchPrelude_moved (h : SameRegion idx idx' region) {r : Resolved}
    (hr : SpansIn region.length r) :
    fetchPrelude idx r.entry r.frqBase = fetchPrelude idx' r.entry r.frqBase := by
  have hfrq := hr.frq
  have hprelude := hr.prelude
  have hrange := h.sameBytes (n := r.entry.preludeLen) (by omega) (preludeAbs_eq h.here hr)
    (preludeAbs_eq h.there hr)
  rw [fetchPrelude, fetchPrelude]
  apply (fetch_same h.here.size h.there.size (.cons hrange .nil) 0).bind_eq
  intro f f' hf
  rw [hf 0]

theorem entryCursor_moved (h : SameRegion idx idx' region) {r : Resolved}
    (hr : SpansIn region.length r) :
    entryCursor renv ln params idx p r =
      entryCursor renv ln params idx' { p with idx := idx' } r := by
  rw [entryCursor, entryCursor, buildCursorPostings_moved h hr]
  simp only [fetchedBounds, fetchPrelude_moved h hr, scoreDecoded_moved]
  rfl

theorem entryLazyCursor_moved (h : SameRegion idx idx' region) {r : Resolved}
    (hr : SpansIn region.length r) :
    entryLazyCursor renv ln params idx p r =
      entryLazyCursor renv ln params idx' { p with idx := idx' } r := by
  have hwindow : ∀ ctx prelude, fetchWindow renv ctx params idx p r prelude =
      fetchWindow renv ctx params idx' { p with idx := idx' } r prelude := by
    intro ctx prelude
    funext w count
    rw [fetchWindow, fetchWindow, materializeWindowPostings_moved h hr]
    simp only [scoreDecoded_moved]
  rw [entryLazyCursor, entryLazyCursor]
  simp only [buildLazyWindowed, buildLazySlim, decodeSlim, fetchWindowedPrelude_moved h hr,
    fetchSlimWindowBytes_moved h, scoreDecoded_moved, hwindow]
  rfl

/-- **The cursors** of a query are the same. -/
theorem buildCursors_same (h : SameIndex renv idx idx' region) (terms : List Bytes) :
    buildCursors renv ln params idx p terms =
      buildCursors renv ln params idx' { p with idx := idx' } terms := by
  induction terms with
  | nil => rfl
  | cons term terms ih =>
      have hone : buildCursor renv ln params idx p term =
          buildCursor renv ln params idx' { p with idx := idx' } term := by
        rw [buildCursor, buildCursor, ← h.lookup term]
        apply (SameOutcome.self fun hit (hhit : lookup renv idx term = .ok hit) => hhit).bind_eq
        intro hit _ hhit
        obtain ⟨heq, hhit⟩ := hhit
        subst heq
        cases hit with
        | none => rfl
        | some r =>
            simp only
            rw [entryCursor_moved h.posting (h.lookup_spans hhit)]
      rw [buildCursors, buildCursors, hone, ih]

/-- **The lazy cursors** of a query are the same, with the reads they will make. -/
theorem selectiveBuildCursors_same (h : SameIndex renv idx idx' region) (terms : List Bytes) :
    selectiveBuildCursors renv ln params idx p terms =
      selectiveBuildCursors renv ln params idx' { p with idx := idx' } terms := by
  induction terms with
  | nil => rfl
  | cons term terms ih =>
      have hone : buildLazyCursor renv ln params idx p term =
          buildLazyCursor renv ln params idx' { p with idx := idx' } term := by
        rw [buildLazyCursor, buildLazyCursor, ← h.lookup term]
        apply (SameOutcome.self fun hit (hhit : lookup renv idx term = .ok hit) => hhit).bind_eq
        intro hit _ hhit
        obtain ⟨heq, hhit⟩ := hhit
        subst heq
        cases hit with
        | none => rfl
        | some r =>
            simp only
            rw [entryLazyCursor_moved h.posting (h.lookup_spans hhit)]
      rw [selectiveBuildCursors, selectiveBuildCursors, hone, ih]

end Scores

/-! ## Every query -/

/-- Two readers that no query tells apart. -/
structure SameQueries (renv : ReadEnv) (idx idx' : LogicalIndexReader) : Prop extends
    SameAnswers renv idx idx' where
  term : ∀ t, termQuery renv idx t = termQuery renv idx' t
  disjunction : ∀ terms, booleanOr renv idx terms = booleanOr renv idx' terms
  conjunction : ∀ srt terms, booleanAnd srt renv idx terms = booleanAnd srt renv idx' terms
  expansion : ∀ pre, prefixQuery renv idx pre = prefixQuery renv idx' pre
  wildcard : ∀ pattern, wildcardQuery renv idx pattern = wildcardQuery renv idx' pattern
  regexp : ∀ lib pattern, regexpQuery lib renv idx pattern = regexpQuery lib renv idx' pattern
  phrasePrefix : ∀ srt terms,
    phrasePrefixQuery srt renv idx terms = phrasePrefixQuery srt renv idx' terms

theorem sameQueries_of_sameIndex (h : SameIndex renv idx idx' region) :
    SameQueries renv idx idx' := by
  constructor
  case toSameAnswers => exact sameAnswers_of_sameIndex h
  case term => exact termQuery_same h
  case disjunction => exact booleanOr_same h
  case conjunction => exact fun srt => booleanAnd_same srt h
  case expansion =>
    intro pre
    rw [prefixQuery_eq, prefixQuery_eq]
    exact emitExpandedDocidUnion_same h _ _
  case wildcard => exact fun pattern => emitExpandedDocidUnion_same h _ _
  case regexp => exact fun lib => regexpQuery_same lib h
  case phrasePrefix => exact fun srt => phrasePrefixQuery_same srt h

/-- Two providers that report alike, and whose scored queries return alike. -/
structure SameScores (renv : ReadEnv) (idx idx' : LogicalIndexReader)
    (p p' : SniiStatsProvider) : Prop where
  reports : p' = { p with idx := p'.idx }
  docFreq : ∀ t, p.docFreq renv t = p'.docFreq renv t
  totalTermFreq : ∀ t, p.totalTermFreq renv t = p'.totalTermFreq renv t
  exhaustive : ∀ ln params terms k, scoringQueryExhaustive renv ln params idx p terms k =
    scoringQueryExhaustive renv ln params idx' p' terms k
  wand : ∀ srt ln params terms k, scoringQueryWand srt renv ln params idx p terms k =
    scoringQueryWand srt renv ln params idx' p' terms k
  selective : ∀ srt ln params terms k,
    scoringQueryWandSelective srt renv ln params idx p terms k =
      scoringQueryWandSelective srt renv ln params idx' p' terms k

theorem sameScores_of_sameIndex (h : SameIndex renv idx idx' region) {p : SniiStatsProvider}
    (hp : p.idx = idx) : SameScores renv idx idx' p { p with idx := idx' } := by
  constructor
  case reports => rfl
  case docFreq =>
    intro t
    rw [SniiStatsProvider.docFreq, SniiStatsProvider.docFreq, hp, h.lookup t]
  case totalTermFreq =>
    intro t
    rw [SniiStatsProvider.totalTermFreq, SniiStatsProvider.totalTermFreq, hp, h.lookup t]
  case exhaustive =>
    intro ln params terms k
    rw [scoringQueryExhaustive, scoringQueryExhaustive, buildCursors_same h]
  case wand =>
    intro srt ln params terms k
    rw [scoringQueryWand, scoringQueryWand, buildCursors_same h]
  case selective =>
    intro srt ln params terms k
    rw [scoringQueryWandSelective, scoringQueryWandSelective, selectiveBuildCursors_same h]

/-! ## One call in two sessions -/

variable {adds adds' : List AddCall} {a : AddCall}

/-- The index of a call, as its session's container holds it. -/
structure HeldIn (env : BuildEnv) (renv : ReadEnv) (adds : List AddCall) (a : AddCall)
    (w : BuiltIndex) (region : Bytes) (idx : LogicalIndexReader) : Prop where
  opens : OpensFrom env renv adds a idx
  size : (containerOf env adds).length < 2 ^ 64
  held : ∃ p, PlacedAt (containerOf env adds) w region p ∧
    OpensAs env.bsbf renv (containerOf env adds) (w, p) idx

theorem heldIn_of_written (h : WrittenIndex env renv adds a) (hwidths : WidthsOk env [a])
    {w : BuiltIndex} (hbuild : build (a.env env) a.input [] = .ok w region) :
    ∃ idx, HeldIn env renv adds a w region idx := by
  obtain ⟨-, hcont⟩ := @finish_container env adds
  rw [← containerOf] at hcont
  generalize (finish (addAll env {} adds).2).2.indexes = indexes at hcont
  have hok := @sessionOk_added env _ _ h.session
  obtain ⟨y, hy, region', hbuild', hplaced⟩ :=
    exists_right_of_mem (calls_of_container hcont) h.added
  rw [hbuild] at hbuild'
  injection hbuild' with hw hregion
  subst hregion
  have hsizes := hwidths a List.mem_cons_self _ _ hbuild
  have hfind := findEntry_of_nodup (keys_of_container hcont ▸ h.keys) hy
  obtain ⟨idx, hidx, hopens⟩ := openIndex_opensTo hcont hok h.libs.bsbf hy hfind (hw ▸ hsizes)
  rw [← hw, (build_builtFrom hbuild).1] at hidx
  rw [← hw] at hplaced
  refine ⟨idx, ⟨_, open_container hcont hok, hidx⟩, hok.size, y.2, hplaced, ?_⟩
  rw [hw]
  exact hopens

/-- The provider of a held index has the numbers and the norms of its call. -/
theorem HeldIn.provider {w : BuiltIndex} (h : HeldIn env renv adds a w region idx)
    (hbuild : build (a.env env) a.input [] = .ok w region) (hcount : a.input.docCount < 2 ^ 32) :
    SniiStatsProvider.open idx = .ok
      { idx := idx, docCount := idx.stats.docCount, indexedDocCount := idx.stats.indexedDocCount
        sumTotalTermFreq := idx.stats.sumTotalTermFreq
        norms := if w.input.hasNorms then
            some { docCount := w.input.encodedNorms.length, norms := w.input.encodedNorms
                   counted := rfl }
          else none } := by
  obtain ⟨hin, blocks, hbuilt⟩ := build_builtFrom hbuild
  obtain ⟨q, hplaced, hopens⟩ := h.held
  have hrefs : idx.sectionRefs = q.sectionRefs := by
    rw [LogicalIndexReader.sectionRefs, hopens.indexMeta]
    rfl
  have hnorms := hplaced.normsLen
  rw [sectionOf_norms hbuilt] at hnorms
  apply open_norms hbuilt (hin ▸ hcount) (hopens.file_eq ▸ h.size)
  rw [hopens.file_eq, hrefs]
  refine ⟨hnorms, fun hne => hplaced.norms ?_⟩
  rw [hnorms]
  exact List.length_pos_iff.mpr hne

/-- **An index answers alike in every container.**  Two sessions that both add the index
of a call, whatever else they add and in whatever order, leave containers whose readers
of the index no query tells apart: docids, positions, statistics and scores, and every
error. -/
theorem isolation (h : WrittenIndex env renv adds a) (h' : WrittenIndex env renv adds' a)
    (hwidths : WidthsOk env [a]) :
    ∃ idx idx' p p', OpensFrom env renv adds a idx ∧ OpensFrom env renv adds' a idx' ∧
      SniiStatsProvider.open idx = .ok p ∧ SniiStatsProvider.open idx' = .ok p' ∧
      SameQueries renv idx idx' ∧ SameScores renv idx idx' p p' := by
  obtain ⟨⟨w, region⟩, -, hbuild⟩ := exists_right_of_mem (builds_of_added env adds) h.added
  obtain ⟨idx, hheld⟩ := heldIn_of_written h hwidths hbuild
  obtain ⟨idx', hheld'⟩ := heldIn_of_written h' hwidths hbuild
  obtain ⟨q, hplaced, hopens⟩ := hheld.held
  obtain ⟨q', hplaced', hopens'⟩ := hheld'.held
  have hinput := h.session.inputs a (List.mem_filter.mp h.added).1
  obtain ⟨hin, blocks, hfrom⟩ := build_builtFrom hbuild
  have hsame : SameIndex renv idx idx' region :=
    @sameIndex_of_opened (a.env env) renv idx idx' region w blocks _ _
      ⟨h.libs.zstd, h.libs.bsbf, h.libs.lossless⟩ hfrom (hin ▸ hinput.widths)
      (hwidths a List.mem_cons_self _ _ hbuild) q q' hplaced hplaced' hheld.size hheld'.size
      hopens hopens'
  have hp := hheld.provider hbuild hinput.docCount
  have hp' := hheld'.provider hbuild hinput.docCount
  rw [← hsame.stats] at hp'
  exact ⟨idx, idx', _, _, hheld.opens, hheld'.opens, hp, hp', sameQueries_of_sameIndex hsame,
    sameScores_of_sameIndex hsame rfl⟩

/-- The scored index behind a call that fails and an index of another key. -/
def crowdedCalls : List AddCall := [unsortedCall, positionalCall, scoredCall]

theorem written_crowdedCalls : WrittenIndex storeEnv storeReadEnv crowdedCalls scoredCall := by
  have hfails : (builtOf storeEnv unsortedCall).isSome = false := by decide +kernel
  have hfirst : (builtOf storeEnv positionalCall).isSome = true :=
    (List.mem_filter.mp positional_written.added).2
  have hsecond : (builtOf storeEnv scoredCall).isSome = true :=
    (List.mem_filter.mp written_scoredCall.added).2
  have hadded : added storeEnv crowdedCalls = [positionalCall, scoredCall] := by
    simp only [added, crowdedCalls, List.filter_cons, List.filter_nil, hfails, hfirst, hsecond,
      Bool.false_eq_true, if_true, if_false]
  constructor
  case libs => exact sameLibs_store
  case added =>
    rw [hadded]
    exact List.mem_cons_of_mem _ List.mem_cons_self
  case keys =>
    rw [hadded]
    decide
  case session => exact ⟨by decide +kernel, by decide, by decide +kernel⟩
  case sorted => exact written_scoredCall.sorted

theorem isolation_crowdedCalls : ∃ idx idx' p p',
    OpensFrom storeEnv storeReadEnv [scoredCall] scoredCall idx ∧
      OpensFrom storeEnv storeReadEnv crowdedCalls scoredCall idx' ∧
      SniiStatsProvider.open idx = .ok p ∧ SniiStatsProvider.open idx' = .ok p' ∧
      SameQueries storeReadEnv idx idx' ∧ SameScores storeReadEnv idx idx' p p' :=
  isolation written_scoredCall written_crowdedCalls capsOk_scoredCall.widths

end Snii.Query.Isolation
