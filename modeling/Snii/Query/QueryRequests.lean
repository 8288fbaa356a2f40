import Snii.Io.Requests
import Snii.Query.PhrasePrefixQuery
import Snii.Query.RegexpQuery
import Snii.Query.TermQuery
import Snii.Query.WildcardQuery

/-!
# Queries as requests

The docid and phrase queries with the reads they make: the lookup of a term asks for a
block of the filter and a block of the dictionary, a batch of postings for its preludes
and then for its docid regions, a conjunction for one batch a windowed term.  Over the
bytes of the file each returns what the query without its reads returns (the `run_...`
theorems).
-/

namespace Snii.Query.QueryRequests

open Snii.Lib.ByteReader Snii.Lib.Requests Snii.Common Snii.Io.BatchRangeFetcher
open Snii.Io.Requests Snii.Reader
open Snii.Query.DocidPosting Snii.Query.DocidSetOps Snii.Query.Conjunction
open Snii.Query.PositionCursor Snii.Query.PhraseQuery Snii.Query.PhrasePrefixQuery
open Snii.Query.RegexpQuery (Regex literalPrefixForRegex)
open Snii.Query.WildcardQuery (literalPrefixForWildcard wildcardMatch)
open Snii.Query.DocidUnion (uniqueTerms)
open Snii.Query.ScoringQuery (DocSort)
open Snii.Encoding.Compression
open Snii.Format.Bsbf Snii.Format.Dict Snii.Format.DictBlock Snii.Format.DictIndex

/-! ## Terms -/

/-- One block of a filter that is not kept in memory. -/
def bsbfProbe (h : BsbfHeader) (hash : Nat) : Reading Bool := do
  let block ← readAtOnce (h.blockOffset hash) kBsbfBytesPerBlock
  pure (bsbfBlockContains hash block)

/-- The filter, in memory if it is resident; an index without one lets every term through. -/
def probeBsbf (env : ReadEnv) (idx : LogicalIndexReader) (term : Bytes) : Reading Bool :=
  match idx.bsbf with
  | none => pure true
  | some s =>
      let hash := bsbfHash env.bsbf term
      match s.resident with
      | some bits =>
          pure (bsbfBlockContains hash
            (bits.drop (bsbfBlockIndex hash s.header.numBlocks * kBsbfBytesPerBlock)))
      | none => bsbfProbe s.header hash

/-- A dictionary block, read whole and inflated. -/
def loadBlock (env : ReadEnv) (idx : LogicalIndexReader) (ref : BlockRef) :
    Reading DictBlockReader := do
  let disk ← readAtOnce ref.offset ref.length
  let plain ← Program.lift (inflateBlock env ref disk)
  Program.lift (openBlock plain idx.tier idx.hasPositions)

/-- One term: the filter, then the block whose sample stands at or before it. -/
def lookup (env : ReadEnv) (idx : LogicalIndexReader) (term : Bytes) :
    Reading (Option Resolved) := do
  let maybe ← probeBsbf env idx term
  if maybe then
    match locate idx.sampleTerms term with
    | none => pure none
    | some ordinal => do
        let ref ← Program.lift (getBlock idx.blockRefs ordinal)
        let br ← loadBlock env idx ref
        let hit ← Program.lift (br.findTerm term)
        pure (hit.map fun e => { entry := e, frqBase := br.frqBase, prxBase := br.prxBase })
  else pure none

/-- The entries under a prefix, block after block until one ends past it. -/
def prefixBlocks (env : ReadEnv) (idx : LogicalIndexReader) (pre : Bytes) :
    List BlockRef → Reading (List Resolved)
  | [] => pure []
  | ref :: refs => do
      let br ← loadBlock env idx ref
      let entries ← Program.lift br.decodeAll
      let (hits, more) := takePrefix pre entries
      let here := hits.map fun e =>
        ({ entry := e, frqBase := br.frqBase, prxBase := br.prxBase } : Resolved)
      if more then
        let rest ← prefixBlocks env idx pre refs
        pure (here ++ rest)
      else pure here

/-- From the block that can hold the first term under the prefix. -/
def prefixTerms (env : ReadEnv) (idx : LogicalIndexReader) (pre : Bytes) :
    Reading (List Resolved) :=
  let start := if pre = [] then 0 else (locate idx.sampleTerms pre).getD 0
  prefixBlocks env idx pre (idx.blockRefs.drop start)

/-! ## Docids -/

/-- One batch for the preludes and one for the docid regions. -/
def readDocidPostingsBatched (z : Zstd) (idx : LogicalIndexReader) (postings : List Resolved) :
    Reading (List (List Nat)) := do
  let plans ← Program.lift
    (planPostings z 0 postings { docids := List.replicate postings.length [] })
  let preludeFetch ← fetchOnce 0 (plans.window.map fun x => preludeRange idx x.2)
  let preludes ← Program.lift (openWindowPreludes preludeFetch 0 plans.window)
  let flat ← Program.lift (plans.flat.mapM fun x => planFlatDocs idx x.2)
  let windows ← Program.lift
    ((plans.window.zip preludes).mapM fun x => planWindowDocs idx x.1.2 x.2)
  let docsFetch ← fetchOnce 0 (flat ++ windows.flatten.map Prod.snd)
  let out ← Program.lift (decodeFlatPlans z docsFetch 0 plans.flat plans.docids)
  Program.lift (decodeWindowPlans z docsFetch flat.length
    ((plans.window.map Prod.fst).zip (windows.map fun ws => ws.map Prod.fst)) out)

/-- One posting, as a batch of one. -/
def readDocidPosting (z : Zstd) (idx : LogicalIndexReader) (r : Resolved) :
    Reading (List Nat) := do
  let batched ← readDocidPostingsBatched z idx [r]
  match batched with
  | docs :: _ => pure docs
  | [] => Program.lift (.error .outOfBounds)

/-- The union of the docids of some postings. -/
def emitDocidUnion (z : Zstd) (idx : LogicalIndexReader) (postings : List Resolved) :
    Reading (List Nat) :=
  if postings = [] then pure []
  else do
    let docsByPosting ← readDocidPostingsBatched z idx postings
    pure (unionSortedMany docsByPosting)

/-- The union over the accepted terms under a prefix. -/
def emitExpandedDocidUnion (env : ReadEnv) (idx : LogicalIndexReader) (enumPrefix : Bytes)
    (accepts : Bytes → Bool) : Reading (List Nat) := do
  let hits ← prefixTerms env idx enumPrefix
  emitDocidUnion env.zstd idx (hits.filter fun hit => accepts hit.entry.term)

/-- The docids of one term. -/
def termQuery (env : ReadEnv) (idx : LogicalIndexReader) (term : Bytes) : Reading (List Nat) := do
  let hit ← lookup env idx term
  match hit with
  | none => pure []
  | some r => readDocidPosting env.zstd idx r

/-- The union over every term under the prefix. -/
def prefixQuery (env : ReadEnv) (idx : LogicalIndexReader) (pre : Bytes) :
    Reading (List Nat) := do
  let hits ← prefixTerms env idx pre
  emitDocidUnion env.zstd idx hits

/-- The union over distinct terms, each looked up in its turn. -/
def booleanOr (env : ReadEnv) (idx : LogicalIndexReader) (terms : List Bytes) :
    Reading (List Nat) :=
  if terms = [] then pure []
  else do
    let found ← (uniqueTerms terms).mapM (lookup env idx)
    emitDocidUnion env.zstd idx (found.filterMap id)

/-- The union over the terms the pattern matches. -/
def wildcardQuery (env : ReadEnv) (idx : LogicalIndexReader) (pattern : Bytes) :
    Reading (List Nat) :=
  emitExpandedDocidUnion env idx (literalPrefixForWildcard pattern) (wildcardMatch pattern)

/-- The union over the terms the expression matches; a pattern that does not compile is
refused before anything is read. -/
def regexpQuery (lib : Regex) (env : ReadEnv) (idx : LogicalIndexReader) (pattern : Bytes) :
    Reading (List Nat) :=
  match lib.compile pattern with
  | .error what =>
      Program.lift (.error (.invalidArgument ("regexp_query: invalid regex: " ++ what)))
  | .ok re => emitExpandedDocidUnion env idx (literalPrefixForRegex pattern) re

/-! ## Conjunctions -/

/-- Looks the terms up and collects the ranges of the first round; an absent term ends it. -/
def planTerms (env : ReadEnv) (idx : LogicalIndexReader) (needPositions : Bool) :
    List Range → List Bytes → Reading (Option (List TermPlan × List Range))
  | reqs, [] => pure (some ([], reqs))
  | reqs, term :: terms => do
      let hit ← lookup env idx term
      match hit with
      | none => pure none
      | some r => do
          let (p, reqs) ← Program.lift (configureTermPlan idx needPositions reqs r)
          let rest ← planTerms env idx needPositions reqs terms
          pure (rest.map fun x => (p :: x.1, x.2))

/-- The chosen windows of a term, in a batch of their own. -/
def decodeWindowedDocids (z : Zstd) (idx : LogicalIndexReader) (needPositions : Bool)
    (p : TermPlan) (windows : List Nat) : Reading (List PosChunk) := do
  let planned ← Program.lift (windows.mapM (planWindow idx p needPositions))
  let fetched ← fetchOnce kSameTermCoalesceGap (planned.flatMap Prod.snd)
  Program.lift (decodeChunks z fetched needPositions 0 (planned.map Prod.fst))

/-- Only a windowed term is read here; a slim one came with the first batch. -/
def readTerm (z : Zstd) (idx : LogicalIndexReader) (round1 : Fetched) (needPositions : Bool)
    (candidates : Option (List Nat)) (p : TermPlan) : Reading (List PosChunk) :=
  if p.windowed then
    decodeWindowedDocids z idx needPositions p (match candidates with
      | none => allWindows p.prelude
      | some docs => selectCoveringWindows p.prelude (2 ^ 32 - 1) docs)
  else do
    let chunk ← Program.lift (decodeFlatDocids z round1 needPositions p)
    pure [chunk]

/-- Term after term, while candidates are left. -/
def conjunctionLoop (z : Zstd) (idx : LogicalIndexReader) (round1 : Fetched)
    (needPositions : Bool) (plans : List TermPlan) :
    List Nat → Option (List Nat) → List (List PosChunk) →
      Reading (List (List PosChunk) × List Nat)
  | [], candidates, srcs => pure (srcs, candidates.getD [])
  | ti :: order, candidates, srcs =>
      match plans[ti]? with
      | none => Program.lift (.error .outOfBounds)
      | some p => do
          let chunks ← readTerm z idx round1 needPositions candidates p
          let srcs := srcs.set ti chunks
          let docids := narrow candidates (docsOf chunks)
          if docids = [] then pure (srcs, [])
          else conjunctionLoop z idx round1 needPositions plans order (some docids) srcs

/-- The terms by ascending document frequency. -/
def buildConjunction (srt : DocSort) (z : Zstd) (idx : LogicalIndexReader) (round1 : Fetched)
    (needPositions : Bool) (plans : List TermPlan) : Reading (List (List PosChunk) × List Nat) :=
  conjunctionLoop z idx round1 needPositions plans (ascendingDfOrder srt plans) none
    (List.replicate plans.length [])

/-- The intersection, read without positions. -/
def booleanAnd (srt : DocSort) (env : ReadEnv) (idx : LogicalIndexReader) (terms : List Bytes) :
    Reading (List Nat) :=
  if terms = [] then pure []
  else do
    let planned ← planTerms env idx false [] terms
    match planned with
    | none => pure []
    | some (plans, reqs) => do
        let round1 ← fetchOnce 0 reqs
        let plans ← Program.lift (openPreludes round1 false plans)
        let (_, docids) ← buildConjunction srt env.zstd idx round1 false plans
        pure docids

/-! ## Phrases -/

/-- The conjunction of a phrase, read with positions. -/
def buildPhraseExecutionState (srt : DocSort) (z : Zstd) (idx : LogicalIndexReader)
    (reqs : List Range) (plans : List TermPlan) : Reading (List (List PosChunk) × List Nat) := do
  let round1 ← fetchOnce 0 reqs
  let plans ← Program.lift (openPreludes round1 true plans)
  buildConjunction srt z idx round1 true plans

/-- The positions came with the docids: nothing more is read. -/
def executePhrasePlans (srt : DocSort) (z : Zstd) (idx : LogicalIndexReader) (reqs : List Range)
    (plans : List TermPlan) : Reading (List Nat) := do
  let (srcs, candidates) ← buildPhraseExecutionState srt z idx reqs plans
  if candidates = [] then pure []
  else
    match buildPositionOffsets plans.length with
    | none =>
        Program.lift (.error
          (.invalidArgument "phrase_query: phrase length exceeds doc position range"))
    | some offsets => Program.lift (emitPhraseStreaming z offsets srcs candidates)

/-- The documents with the terms at consecutive positions. -/
def phraseQuery (srt : DocSort) (env : ReadEnv) (idx : LogicalIndexReader)
    (terms : List Bytes) : Reading (List Nat) :=
  if terms = [] then pure []
  else if idx.hasPositions = false then
    Program.lift (.error (.unsupported "phrase_query: index has no positions"))
  else do
    let planned ← planTerms env idx true [] terms
    match planned with
    | none => pure []
    | some (plans, reqs) => executePhrasePlans srt env.zstd idx reqs plans

/-- Where the completed last term would have to stand, document by document. -/
def collectExpectedTailPositions (srt : DocSort) (z : Zstd) (idx : LogicalIndexReader)
    (exactTerms : List Resolved) : Reading (List ExpectedTailPositions) := do
  let (plans, reqs) ← Program.lift (planResolvedTerms idx true [] exactTerms)
  let (srcs, candidates) ← buildPhraseExecutionState srt z idx reqs plans
  if candidates = [] then pure []
  else
    match buildPositionOffsets (plans.length + 1) with
    | none =>
        Program.lift (.error
          (.invalidArgument "phrase_prefix_query: phrase length exceeds doc position range"))
    | some offsets =>
        Program.lift (streamCandidates z (expectedAt offsets) (cursorsOver srcs) candidates)

/-- The documents in which one completion stands there. -/
def collectTailMatchesAtExpectedPositions (srt : DocSort) (z : Zstd) (idx : LogicalIndexReader)
    (expected : List ExpectedTailPositions) (tail : Resolved) : Reading (List Nat) :=
  if expected = [] then pure []
  else do
    let (plans, reqs) ← Program.lift (planResolvedTerms idx true [] [tail])
    let (srcs, candidates) ← buildPhraseExecutionState srt z idx reqs plans
    if candidates = [] then pure []
    else Program.lift (tailMatches z { src := srcs.headD [] } expected candidates)

/-- The terms in front of the last one; an absent one leaves no answer. -/
def resolveExactTerms (env : ReadEnv) (idx : LogicalIndexReader) :
    List Bytes → Reading (Option (List Resolved))
  | [] => pure (some [])
  | term :: terms => do
      let hit ← lookup env idx term
      match hit with
      | none => pure none
      | some r => do
          let rest ← resolveExactTerms env idx terms
          pure (rest.map fun rs => r :: rs)

/-- The answers of the completions, united one after the other. -/
def joinTails (read : Resolved → Reading (List Nat)) :
    List Nat → List Resolved → Reading (List Nat)
  | acc, [] => pure acc
  | acc, hit :: hits => do
      let docs ← read hit
      joinTails read (unionSortedInto acc docs) hits

/-- The phrase for every completion of its last term. -/
def phrasePrefixQuery (srt : DocSort) (env : ReadEnv) (idx : LogicalIndexReader)
    (terms : List Bytes) : Reading (List Nat) :=
  if terms = [] then pure []
  else if terms.length = 1 then prefixQuery env idx (terms.headD [])
  else if idx.hasPositions = false then
    Program.lift (.error (.unsupported "phrase_prefix_query: index has no positions"))
  else do
    let exactTerms ← resolveExactTerms env idx terms.dropLast
    match exactTerms with
    | none => pure []
    | some exactTerms => do
        let tailHits ← prefixTerms env idx (terms.getLastD [])
        if tailHits = [] then pure []
        else do
          let expected ← collectExpectedTailPositions srt env.zstd idx exactTerms
          if expected = [] then pure []
          else
            joinTails (collectTailMatchesAtExpectedPositions srt env.zstd idx expected) [] tailHits

/-! ## Over the file -/

variable {env : ReadEnv} {idx : LogicalIndexReader}

/-- Answered by the file, the probe is the probe. -/
theorem run_probeBsbf (env : ReadEnv) (idx : LogicalIndexReader) (term : Bytes) :
    (probeBsbf env idx term).run (fileAnswer idx.file) = Reader.probeBsbf env idx term := by
  rw [probeBsbf, Reader.probeBsbf]
  cases idx.bsbf with
  | none => rfl
  | some s =>
      cases hbits : s.resident with
      | some bits =>
          simp only [hbits]
          rfl
      | none =>
          simp only [hbits, bsbfProbe, Format.Bsbf.bsbfProbe, Program.run_bind, run_readAtOnce]
          rfl

theorem run_loadBlock (env : ReadEnv) (idx : LogicalIndexReader) (ref : BlockRef) :
    (loadBlock env idx ref).run (fileAnswer idx.file) = Reader.loadBlock env idx ref := by
  simp only [loadBlock, Reader.loadBlock, Program.run_bind, run_readAtOnce, Program.run_lift]

/-- The lookup. -/
theorem run_lookup (env : ReadEnv) (idx : LogicalIndexReader) (term : Bytes) :
    (lookup env idx term).run (fileAnswer idx.file) = Reader.lookup env idx term := by
  rw [lookup, Reader.lookup, Program.run_bind, run_probeBsbf]
  congr 1
  funext maybe
  cases maybe with
  | false => rfl
  | true =>
      simp only [if_true]
      cases locate idx.sampleTerms term with
      | none => rfl
      | some ordinal =>
          simp only [Program.run_bind, Program.run_lift, run_loadBlock]
          rfl

theorem run_prefixBlocks (env : ReadEnv) (idx : LogicalIndexReader) (pre : Bytes)
    (refs : List BlockRef) :
    (prefixBlocks env idx pre refs).run (fileAnswer idx.file) =
      Reader.prefixBlocks env idx pre refs := by
  induction refs with
  | nil => rfl
  | cons ref refs ih =>
      rw [prefixBlocks, Reader.prefixBlocks, Program.run_bind, run_loadBlock]
      congr 1
      funext br
      rw [Program.run_bind, Program.run_lift]
      congr 1
      funext entries
      simp only
      split
      · rw [Program.run_bind, ih]
        rfl
      · rfl

theorem run_prefixTerms (env : ReadEnv) (idx : LogicalIndexReader) (pre : Bytes) :
    (prefixTerms env idx pre).run (fileAnswer idx.file) = Reader.prefixTerms env idx pre :=
  run_prefixBlocks env idx pre _

/-- A batch of postings, whose two rounds are two requests. -/
theorem run_readDocidPostingsBatched (z : Zstd) (idx : LogicalIndexReader)
    (postings : List Resolved) :
    (readDocidPostingsBatched z idx postings).run (fileAnswer idx.file) =
      DocidPosting.readDocidPostingsBatched z idx postings := by
  simp only [readDocidPostingsBatched, DocidPosting.readDocidPostingsBatched, Program.run_bind,
    Program.run_lift, run_fetchOnce]

theorem run_readDocidPosting (z : Zstd) (idx : LogicalIndexReader) (r : Resolved) :
    (readDocidPosting z idx r).run (fileAnswer idx.file) =
      DocidPosting.readDocidPosting z idx r := by
  rw [readDocidPosting, DocidPosting.readDocidPosting, Program.run_bind,
    run_readDocidPostingsBatched]
  congr 1
  funext batched
  cases batched <;> rfl

theorem run_emitDocidUnion (z : Zstd) (idx : LogicalIndexReader) (postings : List Resolved) :
    (emitDocidUnion z idx postings).run (fileAnswer idx.file) =
      DocidUnion.emitDocidUnion z idx postings := by
  rw [emitDocidUnion, DocidUnion.emitDocidUnion]
  split
  · rfl
  · rw [Program.run_bind, run_readDocidPostingsBatched]
    rfl

/-- The union over expanded terms. -/
theorem run_emitExpandedDocidUnion (env : ReadEnv) (idx : LogicalIndexReader)
    (enumPrefix : Bytes) (accepts : Bytes → Bool) :
    (emitExpandedDocidUnion env idx enumPrefix accepts).run (fileAnswer idx.file) =
      DocidUnion.emitExpandedDocidUnion env idx enumPrefix accepts := by
  simp only [emitExpandedDocidUnion, DocidUnion.emitExpandedDocidUnion, Program.run_bind,
    run_prefixTerms, run_emitDocidUnion]

/-- **The term query** answered by the file. -/
theorem run_termQuery (env : ReadEnv) (idx : LogicalIndexReader) (term : Bytes) :
    (termQuery env idx term).run (fileAnswer idx.file) = TermQuery.termQuery env idx term := by
  rw [termQuery, TermQuery.termQuery, Program.run_bind, run_lookup]
  congr 1
  funext hit
  cases hit with
  | none => rfl
  | some r => exact run_readDocidPosting env.zstd idx r

/-- **The prefix query** answered by the file. -/
theorem run_prefixQuery (env : ReadEnv) (idx : LogicalIndexReader) (pre : Bytes) :
    (prefixQuery env idx pre).run (fileAnswer idx.file) = DocidUnion.prefixQuery env idx pre := by
  simp only [prefixQuery, DocidUnion.prefixQuery, Program.run_bind, run_prefixTerms,
    run_emitDocidUnion]

/-- **The disjunction** answered by the file. -/
theorem run_booleanOr (env : ReadEnv) (idx : LogicalIndexReader) (terms : List Bytes) :
    (booleanOr env idx terms).run (fileAnswer idx.file) = DocidUnion.booleanOr env idx terms := by
  rw [booleanOr, DocidUnion.booleanOr]
  split
  · rfl
  · simp only [Program.run_bind, Program.run_mapM, run_lookup, run_emitDocidUnion]

/-- **The regexp query** answered by the file. -/
theorem run_regexpQuery (lib : Regex) (env : ReadEnv) (idx : LogicalIndexReader)
    (pattern : Bytes) : (regexpQuery lib env idx pattern).run (fileAnswer idx.file) =
      RegexpQuery.regexpQuery lib env idx pattern := by
  rw [regexpQuery, RegexpQuery.regexpQuery]
  cases lib.compile pattern with
  | error what => rfl
  | ok re => exact run_emitExpandedDocidUnion env idx _ re

theorem run_planTerms (env : ReadEnv) (idx : LogicalIndexReader) (needPositions : Bool)
    (terms : List Bytes) (reqs : List Range) :
    (planTerms env idx needPositions reqs terms).run (fileAnswer idx.file) =
      Conjunction.planTerms env idx needPositions reqs terms := by
  induction terms generalizing reqs with
  | nil => rfl
  | cons term terms ih =>
      rw [planTerms, Conjunction.planTerms, Program.run_bind, run_lookup]
      congr 1
      funext hit
      cases hit with
      | none => rfl
      | some r =>
          simp only [Program.run_bind, Program.run_lift, ih]
          rfl

theorem run_readTerm (z : Zstd) (idx : LogicalIndexReader) (round1 : Fetched)
    (needPositions : Bool) (candidates : Option (List Nat)) (p : TermPlan) :
    (readTerm z idx round1 needPositions candidates p).run (fileAnswer idx.file) =
      Conjunction.readTerm z idx round1 needPositions candidates p := by
  have hwindows : ∀ windows,
      (decodeWindowedDocids z idx needPositions p windows).run (fileAnswer idx.file) =
        Conjunction.decodeWindowedDocids z idx needPositions p windows := by
    intro windows
    simp only [decodeWindowedDocids, Conjunction.decodeWindowedDocids, Program.run_bind,
      Program.run_lift, run_fetchOnce]
  unfold readTerm Conjunction.readTerm
  split
  · cases candidates <;> exact hwindows _
  · rw [Program.run_bind, Program.run_lift]
    rfl

theorem run_conjunctionLoop (z : Zstd) (idx : LogicalIndexReader) (round1 : Fetched)
    (needPositions : Bool) (plans : List TermPlan) (order : List Nat)
    (candidates : Option (List Nat)) (srcs : List (List PosChunk)) :
    (conjunctionLoop z idx round1 needPositions plans order candidates srcs).run
        (fileAnswer idx.file) =
      Conjunction.conjunctionLoop z idx round1 needPositions plans order candidates srcs := by
  induction order generalizing candidates srcs with
  | nil => rfl
  | cons ti order ih =>
      rw [conjunctionLoop, Conjunction.conjunctionLoop]
      cases plans[ti]? with
      | none => rfl
      | some p =>
          simp only [Program.run_bind, run_readTerm]
          congr 1
          funext chunks
          split
          · rfl
          · exact ih _ _

/-- **The conjunction** answered by the file. -/
theorem run_booleanAnd (srt : DocSort) (env : ReadEnv) (idx : LogicalIndexReader)
    (terms : List Bytes) : (booleanAnd srt env idx terms).run (fileAnswer idx.file) =
      Conjunction.booleanAnd srt env idx terms := by
  rw [booleanAnd, Conjunction.booleanAnd]
  split
  · rfl
  · rw [Program.run_bind, run_planTerms]
    congr 1
    funext planned
    cases planned with
    | none => rfl
    | some x =>
        simp only [Program.run_bind, Program.run_lift, run_fetchOnce, buildConjunction,
          run_conjunctionLoop]
        rfl

theorem run_buildPhraseExecutionState (srt : DocSort) (z : Zstd) (idx : LogicalIndexReader)
    (reqs : List Range) (plans : List TermPlan) :
    (buildPhraseExecutionState srt z idx reqs plans).run (fileAnswer idx.file) =
      PhraseQuery.buildPhraseExecutionState srt z idx reqs plans := by
  simp only [buildPhraseExecutionState, PhraseQuery.buildPhraseExecutionState, Program.run_bind,
    Program.run_lift, run_fetchOnce, buildConjunction, run_conjunctionLoop]
  rfl

/-- **The phrase query** answered by the file. -/
theorem run_phraseQuery (srt : DocSort) (env : ReadEnv) (idx : LogicalIndexReader)
    (terms : List Bytes) : (phraseQuery srt env idx terms).run (fileAnswer idx.file) =
      PhraseQuery.phraseQuery srt env idx terms := by
  rw [phraseQuery, PhraseQuery.phraseQuery]
  split
  · rfl
  · split
    · rfl
    · rw [Program.run_bind, run_planTerms]
      congr 1
      funext planned
      cases planned with
      | none => rfl
      | some x =>
          simp only [executePhrasePlans, PhraseQuery.executePhrasePlans, Program.run_bind,
            run_buildPhraseExecutionState]
          congr 1
          funext state
          split
          · rfl
          · cases buildPositionOffsets x.1.length <;> rfl

theorem run_collectExpectedTailPositions (srt : DocSort) (z : Zstd) (idx : LogicalIndexReader)
    (exactTerms : List Resolved) :
    (collectExpectedTailPositions srt z idx exactTerms).run (fileAnswer idx.file) =
      PhrasePrefixQuery.collectExpectedTailPositions srt z idx exactTerms := by
  simp only [collectExpectedTailPositions, PhrasePrefixQuery.collectExpectedTailPositions,
    Program.run_bind, Program.run_lift, run_buildPhraseExecutionState]
  congr 1
  funext planned
  congr 1
  funext state
  split
  · rfl
  · cases buildPositionOffsets (planned.1.length + 1) <;> rfl

theorem run_collectTailMatches (srt : DocSort) (z : Zstd) (idx : LogicalIndexReader)
    (expected : List ExpectedTailPositions) (tail : Resolved) :
    (collectTailMatchesAtExpectedPositions srt z idx expected tail).run (fileAnswer idx.file) =
      PhrasePrefixQuery.collectTailMatchesAtExpectedPositions srt z idx expected tail := by
  rw [collectTailMatchesAtExpectedPositions,
    PhrasePrefixQuery.collectTailMatchesAtExpectedPositions]
  split
  · rfl
  · simp only [Program.run_bind, Program.run_lift, run_buildPhraseExecutionState]
    congr 1
    funext planned
    congr 1
    funext state
    split <;> rfl

theorem run_resolveExactTerms (env : ReadEnv) (idx : LogicalIndexReader) (terms : List Bytes) :
    (resolveExactTerms env idx terms).run (fileAnswer idx.file) =
      PhrasePrefixQuery.resolveExactTerms env idx terms := by
  induction terms with
  | nil => rfl
  | cons term terms ih =>
      rw [resolveExactTerms, PhrasePrefixQuery.resolveExactTerms, Program.run_bind, run_lookup]
      congr 1
      funext hit
      cases hit with
      | none => rfl
      | some r =>
          rw [Program.run_bind, ih]
          rfl

theorem run_joinTails {read : Resolved → Reading (List Nat)} {answer : ∀ c, Result (Answer c)}
    (acc : List Nat) (hits : List Resolved) : (joinTails read acc hits).run answer =
      PhrasePrefixQuery.joinTails (fun hit => (read hit).run answer) acc hits := by
  induction hits generalizing acc with
  | nil => rfl
  | cons hit hits ih =>
      rw [joinTails, PhrasePrefixQuery.joinTails, Program.run_bind]
      congr 1
      funext docs
      exact ih _

/-- **The phrase prefix query** answered by the file. -/
theorem run_phrasePrefixQuery (srt : DocSort) (env : ReadEnv) (idx : LogicalIndexReader)
    (terms : List Bytes) : (phrasePrefixQuery srt env idx terms).run (fileAnswer idx.file) =
      PhrasePrefixQuery.phrasePrefixQuery srt env idx terms := by
  rw [phrasePrefixQuery, PhrasePrefixQuery.phrasePrefixQuery]
  split
  · rfl
  · split
    · exact run_prefixQuery env idx _
    · split
      · rfl
      · rw [Program.run_bind, run_resolveExactTerms]
        congr 1
        funext exactTerms
        cases exactTerms with
        | none => rfl
        | some exactTerms =>
            simp only [Program.run_bind, run_prefixTerms]
            congr 1
            funext tailHits
            split
            · rfl
            · rw [Program.run_bind, run_collectExpectedTailPositions]
              congr 1
              funext expected
              split
              · rfl
              · rw [run_joinTails]
                simp only [run_collectTailMatches]

end Snii.Query.QueryRequests
