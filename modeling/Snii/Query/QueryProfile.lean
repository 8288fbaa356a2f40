import Snii.Query.QueryRequests

/-!
# Profiles of queries

`query_profile.cpp`: a query's scope takes the counters of its reader when it opens and
when it is finished, and reports the difference.  The rounds of a query are bounded by
its stages, whatever the number of its postings, windows or documents, and by what the
dictionary asks for: at most two reads a term that is looked up, one a block that is
enumerated.  A query that is repeated costs the remote store nothing (`queries_profiled`).
-/

namespace Snii.Query.Profile

open Snii.Lib.ByteReader Snii.Lib.Requests Snii.Common Snii.Io.FileReader
open Snii.Io.BatchRangeFetcher Snii.Io.Metered Snii.Io.Requests
open Snii.Reader hiding lookup probeBsbf loadBlock prefixBlocks prefixTerms
open Snii.Query.QueryRequests
open Snii.Query.Conjunction (TermPlan PosChunk configureTermPlan ascendingDfOrder openPreludes)
open Snii.Query.DocidUnion (uniqueTerms)
open Snii.Query.RegexpQuery (Regex)
open Snii.Query.ScoringQuery (DocSort)
open Snii.Encoding.Compression
open Snii.Format.DictBlock (Resolved)
open Snii.Format.DictIndex (BlockRef)

/-! ## Scopes -/

/-- The counters are subtracted in 64 bits. -/
def delta (after before : IoMetrics) : IoMetrics where
  readAtCalls := (after.readAtCalls + 2 ^ 64 - before.readAtCalls) % 2 ^ 64
  serialRounds := (after.serialRounds + 2 ^ 64 - before.serialRounds) % 2 ^ 64
  rangeGets := (after.rangeGets + 2 ^ 64 - before.rangeGets) % 2 ^ 64
  remoteBytes := (after.remoteBytes + 2 ^ 64 - before.remoteBytes) % 2 ^ 64
  totalRequestBytes := (after.totalRequestBytes + 2 ^ 64 - before.totalRequestBytes) % 2 ^ 64

structure QueryProfile where
  elapsedNs : Nat := 0
  hasIoMetrics : Bool := false
  ioBefore : IoMetrics := {}
  ioAfter : IoMetrics := {}
  ioDelta : IoMetrics := {}

structure QueryProfileScope where
  profile : QueryProfile
  finished : Bool := false

/-- The scope over a reader that may keep no counters. -/
def QueryProfileScope.open (ioMetrics : Option IoMetrics) : QueryProfileScope where
  profile :=
    match ioMetrics with
    | none => {}
    | some metrics => { hasIoMetrics := true, ioBefore := metrics }

/-- The destructor finishes too: only the first time counts. -/
def QueryProfileScope.finish (scope : QueryProfileScope) (elapsed : Nat)
    (ioMetrics : Option IoMetrics) : QueryProfileScope :=
  if scope.finished then scope
  else
    let profile := { scope.profile with elapsedNs := max 1 elapsed }
    if profile.hasIoMetrics = false then { profile := profile, finished := true }
    else
      match ioMetrics with
      | none => { profile := { profile with hasIoMetrics := false }, finished := true }
      | some metrics =>
          { profile := { profile with
              ioAfter := metrics
              ioDelta := delta metrics profile.ioBefore }
            finished := true }

/-- A query over a metered reader, inside a scope that is finished and then destroyed. -/
def profiled {α : Type} (elapsed : Nat) (m : MeteredFileReader) (query : Reading α) :
    MeteredFileReader × Result α × QueryProfile :=
  let scope := QueryProfileScope.open (some m.metrics)
  let (m', r) := query.runFrom meteredAnswer m
  let scope := scope.finish elapsed (some m'.metrics)
  (m', r, (scope.finish elapsed (some m'.metrics)).profile)

/-- What a caller may rely on: the result is the plain one, the rounds are bounded, and a
second run is served from the cache. -/
structure Profiled {α : Type} (m : MeteredFileReader) (query : Reading α) (plain : Result α)
    (rounds : Nat) : Prop where
  result : ∀ elapsed x, (profiled elapsed m query).2.1 = .ok x ↔ plain = .ok x
  reported : ∀ elapsed, (profiled elapsed m query).2.2.hasIoMetrics = true ∧
    1 ≤ (profiled elapsed m query).2.2.elapsedNs
  rounds : ∀ elapsed, (profiled elapsed m query).2.2.ioDelta.serialRounds ≤ rounds
  repeated : ∀ elapsed elapsed',
    let again := profiled elapsed' (profiled elapsed m query).1 query
    (∀ x, again.2.1 = .ok x ↔ plain = .ok x) ∧ again.2.2.ioDelta.serialRounds = 0 ∧
      again.2.2.ioDelta.rangeGets = 0 ∧ again.2.2.ioDelta.remoteBytes = 0

variable {file : Bytes} {m : MeteredFileReader} {α : Type} {query : Reading α} {plain : Result α}

/-- A profile is the run over the metered file with the metrics around it. -/
theorem profiled_eq (elapsed : Nat) (m : MeteredFileReader) (query : Reading α) :
    profiled elapsed m query =
      ((query.runFrom meteredAnswer m).1, (query.runFrom meteredAnswer m).2,
        { elapsedNs := max 1 elapsed
          hasIoMetrics := true
          ioBefore := m.metrics
          ioAfter := (query.runFrom meteredAnswer m).1.metrics
          ioDelta := delta (query.runFrom meteredAnswer m).1.metrics m.metrics }) := rfl

/-- **The calls of a query** lead the metered reader to its last state. -/
theorem runFrom_metered (h : Over file m) (query : Reading α) :
    (query.runFrom meteredAnswer m).1 = m.run (query.asked (fileAnswer file)) ∧
      ∀ x, (query.runFrom meteredAnswer m).2 = .ok x ↔ query.run (fileAnswer file) = .ok x := by
  have hstep : (fun (m : MeteredFileReader) c => (meteredAnswer m c).1) =
      MeteredFileReader.step := by
    funext m c
    exact fst_meteredAnswer m c
  have hrun := Program.runFrom_eq (serves_metered file) h query
  rw [hstep] at hrun
  exact hrun

/-- A counter that stands still gives no delta. -/
theorem delta_self {a b : Nat} (h : a = b) : (a + 2 ^ 64 - b) % 2 ^ 64 = 0 := by
  rw [h, Nat.add_sub_cancel_left, Nat.mod_self]

/-- A delta is at most what was counted, wraps included. -/
theorem delta_le {a b k : Nat} (h : a ≡ b + k [MOD 2 ^ 64]) (hb : b < 2 ^ 64) :
    (a + 2 ^ 64 - b) % 2 ^ 64 ≤ k := by
  have hadd : a + 2 ^ 64 - b ≡ k [MOD 2 ^ 64] := by
    apply Nat.ModEq.add_right_cancel' b
    rw [Nat.sub_add_cancel (by omega), Nat.add_comm k b]
    exact (Nat.ModEq.add_right _ h).trans (by simp [Nat.ModEq])
  rw [hadd]
  exact Nat.mod_le _ _

/-- **A profiled query**, from the number of its calls. -/
theorem profiled_of_cost (h : Over file m) (hplain : query.run (fileAnswer file) = plain)
    {rounds : Nat} (hcost : query.cost (fileAnswer file) eachCall ≤ rounds) :
    Profiled m query plain rounds := by
  obtain ⟨hstate, hresult⟩ := runFrom_metered h query
  obtain ⟨k, hk, hspent⟩ := run_spent h.blockSize (query.asked (fileAnswer file))
  have hover := h.run (query.asked (fileAnswer file))
  rw [cost_eachCall] at hcost
  constructor
  case result =>
    intro elapsed x
    rw [profiled_eq, ← hplain]
    exact hresult x
  case reported => exact fun elapsed => ⟨rfl, Nat.le_max_left 1 elapsed⟩
  case rounds =>
    intro elapsed
    rw [profiled_eq, hstate]
    exact (delta_le hspent.rounds h.counters.rounds).trans (hk.trans hcost)
  case repeated =>
    intro elapsed elapsed'
    have hfirst : (profiled elapsed m query).1 = m.run (query.asked (fileAnswer file)) := hstate
    rw [hfirst]
    obtain ⟨hstate', hresult'⟩ := runFrom_metered hover query
    have hwarm := @warm_calls _ hover.blockSize hover.counters (query.asked (fileAnswer file))
      (by
        rw [hspent.inner, hspent.blockSize]
        exact fun b hb => (hspent.resident b).mpr (.inr hb))
    rw [profiled_eq, hstate', ← hplain]
    exact ⟨hresult', delta_self hwarm.rounds, delta_self hwarm.gets, delta_self hwarm.remote⟩

/-! ## Stages -/

variable {env : ReadEnv} {idx : LogicalIndexReader}

/-- The number of calls of a query over the file of an index. -/
abbrev callsOf (idx : LogicalIndexReader) (query : Reading α) : Nat :=
  query.cost (fileAnswer idx.file) eachCall

/-- A probe is one read at most. -/
theorem calls_probeBsbf (env : ReadEnv) (idx : LogicalIndexReader) (term : Bytes) :
    callsOf idx (probeBsbf env idx term) ≤ 1 := by
  rw [probeBsbf]
  cases idx.bsbf with
  | none => exact Program.cost_pure_le true
  | some s =>
      cases hbits : s.resident with
      | some bits =>
          simp only [hbits]
          exact Program.cost_pure_le _
      | none =>
          simp only [hbits, bsbfProbe]
          apply Program.cost_bind_free_le (calls_readAtOnce _ _)
          exact fun block => Program.cost_pure_le _

/-- A block is one read at most. -/
theorem calls_loadBlock (env : ReadEnv) (idx : LogicalIndexReader) (ref : BlockRef) :
    callsOf idx (loadBlock env idx ref) ≤ 1 := by
  rw [loadBlock]
  apply Program.cost_bind_free_le (calls_readAtOnce _ _)
  intro disk
  apply Program.cost_lift_bind_le
  exact fun plain _ => Program.cost_lift_le _

/-- **A lookup** reads a block of the filter and a block of the dictionary. -/
theorem calls_lookup (env : ReadEnv) (idx : LogicalIndexReader) (term : Bytes) :
    callsOf idx (lookup env idx term) ≤ 2 := by
  rw [lookup]
  apply Program.cost_bind_le (n := 1) (m := 1) (calls_probeBsbf env idx term)
  intro maybe _
  split
  · cases Format.DictIndex.locate idx.sampleTerms term with
    | none => exact Program.cost_pure_le none
    | some ordinal =>
        apply Program.cost_lift_bind_le
        intro ref _
        apply Program.cost_bind_free_le (calls_loadBlock env idx ref)
        intro br
        apply Program.cost_lift_bind_le
        exact fun hit _ => Program.cost_pure_le _
  · exact Program.cost_pure_le none

/-- An enumeration reads each block once at most. -/
theorem calls_prefixBlocks (env : ReadEnv) (idx : LogicalIndexReader) (pre : Bytes)
    (refs : List BlockRef) : callsOf idx (prefixBlocks env idx pre refs) ≤ refs.length := by
  induction refs with
  | nil => exact Program.cost_pure_le []
  | cons ref refs ih =>
      rw [prefixBlocks, List.length_cons, Nat.add_comm]
      apply Program.cost_bind_le (calls_loadBlock env idx ref)
      intro br _
      apply Program.cost_lift_bind_le
      intro entries _
      simp only
      split
      · apply Program.cost_bind_free_le ih
        exact fun rest => Program.cost_pure_le _
      · exact Program.cost_pure_le _

/-- **An enumeration** reads each block at most once. -/
theorem calls_prefixTerms (env : ReadEnv) (idx : LogicalIndexReader) (pre : Bytes) :
    callsOf idx (prefixTerms env idx pre) ≤ idx.blockRefs.length := by
  apply (calls_prefixBlocks env idx pre _).trans
  rw [List.length_drop]
  exact Nat.sub_le _ _

/-- **A batch of postings**, however many and however many windows they have. -/
theorem calls_readDocidPostingsBatched (z : Zstd) (idx : LogicalIndexReader)
    (postings : List Resolved) : callsOf idx (readDocidPostingsBatched z idx postings) ≤ 2 := by
  rw [readDocidPostingsBatched]
  apply Program.cost_lift_bind_le
  intro plans _
  apply Program.cost_bind_le (n := 1) (m := 1) (calls_fetchOnce _ _)
  intro preludeFetch _
  apply Program.cost_lift_bind_le
  intro preludes _
  apply Program.cost_lift_bind_le
  intro flat _
  apply Program.cost_lift_bind_le
  intro windows _
  apply Program.cost_bind_free_le (calls_fetchOnce _ _)
  intro docsFetch
  apply Program.cost_lift_bind_le
  exact fun out _ => Program.cost_lift_le _

/-- A union is two batches at most. -/
theorem calls_emitDocidUnion (z : Zstd) (idx : LogicalIndexReader) (postings : List Resolved) :
    callsOf idx (emitDocidUnion z idx postings) ≤ 2 := by
  rw [emitDocidUnion]
  split
  · exact Program.cost_pure_le []
  · apply Program.cost_bind_free_le (calls_readDocidPostingsBatched z idx postings)
    exact fun docs => Program.cost_pure_le _

/-- **A term query** asks four times at most. -/
theorem calls_termQuery (env : ReadEnv) (idx : LogicalIndexReader) (term : Bytes) :
    callsOf idx (termQuery env idx term) ≤ 4 := by
  rw [termQuery]
  apply Program.cost_bind_le (n := 2) (m := 2) (calls_lookup env idx term)
  intro hit _
  cases hit with
  | none => exact Program.cost_pure_le []
  | some r =>
      apply Program.cost_bind_free_le (calls_readDocidPostingsBatched env.zstd idx [r])
      intro batched
      cases batched with
      | nil => exact Program.cost_lift_le _
      | cons docs more => exact Program.cost_pure_le docs

/-- A term that is not found has no posting to be read. -/
theorem calls_termQuery_absent {term : Bytes} (h : Reader.lookup env idx term = .ok none) :
    callsOf idx (termQuery env idx term) ≤ 2 := by
  rw [termQuery]
  apply Program.cost_bind_le (n := 2) (m := 0) (calls_lookup env idx term)
  intro hit hrun
  rw [run_lookup, h] at hrun
  cases hrun
  exact Program.cost_pure_le []

/-- **A disjunction** looks its terms up and asks twice. -/
theorem calls_booleanOr (env : ReadEnv) (idx : LogicalIndexReader) (terms : List Bytes) :
    callsOf idx (booleanOr env idx terms) ≤ (uniqueTerms terms).length * 2 + 2 := by
  rw [booleanOr]
  split
  · exact Program.cost_pure_le []
  · apply Program.cost_bind_le (Program.cost_mapM_le fun term _ => calls_lookup env idx term)
    exact fun found _ => calls_emitDocidUnion env.zstd idx _

theorem calls_emitExpandedDocidUnion (env : ReadEnv) (idx : LogicalIndexReader)
    (enumPrefix : Bytes) (accepts : Bytes → Bool) :
    callsOf idx (emitExpandedDocidUnion env idx enumPrefix accepts) ≤ idx.blockRefs.length + 2 :=
  Program.cost_bind_le (calls_prefixTerms env idx enumPrefix) fun _ _ =>
    calls_emitDocidUnion env.zstd idx _

/-! ## Conjunctions and phrases -/

/-- Planning looks up each term. -/
theorem calls_planTerms (env : ReadEnv) (idx : LogicalIndexReader) (needPositions : Bool)
    (terms : List Bytes) (reqs : List Range) :
    callsOf idx (planTerms env idx needPositions reqs terms) ≤ terms.length * 2 := by
  induction terms generalizing reqs with
  | nil => exact Program.cost_pure_le _
  | cons term terms ih =>
      rw [planTerms, List.length_cons, Nat.succ_mul, Nat.add_comm]
      apply Program.cost_bind_le (calls_lookup env idx term)
      intro hit _
      cases hit with
      | none => exact Program.cost_pure_le none
      | some r =>
          apply Program.cost_lift_bind_le
          intro x _
          apply Program.cost_bind_free_le (ih x.2)
          exact fun rest => Program.cost_pure_le _

/-- Every term gets a plan. -/
theorem length_planTerms {needPositions : Bool} {terms : List Bytes} {reqs : List Range}
    {planned : List TermPlan × List Range}
    (h : Conjunction.planTerms env idx needPositions reqs terms = .ok (some planned)) :
    planned.1.length = terms.length := by
  induction terms generalizing reqs planned with
  | nil =>
      cases h
      rfl
  | cons term terms ih =>
      rw [Conjunction.planTerms] at h
      obtain ⟨hit, -, h1⟩ := bind_eq_ok h
      cases hit with
      | none => cases h1
      | some r =>
          obtain ⟨x, -, h2⟩ := bind_eq_ok h1
          obtain ⟨rest, hrest, h3⟩ := bind_eq_ok h2
          cases rest with
          | none => cases h3
          | some y =>
              cases h3
              exact congrArg (· + 1) (ih hrest)

/-- A term of a conjunction is one batch at most. -/
theorem calls_readTerm (z : Zstd) (idx : LogicalIndexReader) (round1 : Fetched)
    (needPositions : Bool) (candidates : Option (List Nat)) (p : TermPlan) :
    callsOf idx (readTerm z idx round1 needPositions candidates p) ≤ 1 := by
  unfold readTerm
  split
  · apply Program.cost_lift_bind_le
    intro planned _
    apply Program.cost_bind_free_le (calls_fetchOnce _ _)
    exact fun fetched => Program.cost_lift_le _
  · apply Program.cost_lift_bind_le
    exact fun chunk _ => Program.cost_pure_le _

/-- One batch a term, whatever the number of its windows. -/
theorem calls_conjunctionLoop (z : Zstd) (idx : LogicalIndexReader) (round1 : Fetched)
    (needPositions : Bool) (plans : List TermPlan) (order : List Nat)
    (candidates : Option (List Nat)) (srcs : List (List PosChunk)) :
    callsOf idx (conjunctionLoop z idx round1 needPositions plans order candidates srcs) ≤
      order.length := by
  induction order generalizing candidates srcs with
  | nil => exact Program.cost_pure_le _
  | cons ti order ih =>
      rw [conjunctionLoop, List.length_cons, Nat.add_comm]
      cases plans[ti]? with
      | none => exact Program.cost_lift_le _
      | some p =>
          apply Program.cost_bind_le (calls_readTerm z idx round1 needPositions candidates p)
          intro chunks _
          simp only
          split
          · exact Program.cost_pure_le _
          · exact ih _ _

theorem calls_buildConjunction (srt : DocSort) (z : Zstd) (idx : LogicalIndexReader)
    (round1 : Fetched) (needPositions : Bool) (plans : List TermPlan) :
    callsOf idx (buildConjunction srt z idx round1 needPositions plans) ≤ plans.length := by
  have horder : (ascendingDfOrder srt plans).length = plans.length := by
    rw [ascendingDfOrder, (srt.perm _).length_eq, List.length_range, List.length_map]
  exact horder ▸ calls_conjunctionLoop z idx round1 needPositions plans _ none _

/-- The first batch, and then the conjunction over it. -/
theorem calls_buildPhraseExecutionState (srt : DocSort) (z : Zstd) (idx : LogicalIndexReader)
    (reqs : List Range) (plans : List TermPlan) :
    callsOf idx (buildPhraseExecutionState srt z idx reqs plans) ≤ plans.length + 1 := by
  rw [buildPhraseExecutionState, Nat.add_comm]
  apply Program.cost_bind_le (calls_fetchOnce 0 reqs)
  intro round1 _
  apply Program.cost_lift_bind_le
  intro opened hopened
  have hlen : opened.length = plans.length := (mapM_eq_ok hopened).length_eq.symm
  exact hlen ▸ calls_buildConjunction srt z idx round1 true opened

/-- **A conjunction** looks its terms up, then asks once and once for each term. -/
theorem calls_booleanAnd (srt : DocSort) (env : ReadEnv) (idx : LogicalIndexReader)
    (terms : List Bytes) :
    callsOf idx (booleanAnd srt env idx terms) ≤ terms.length * 2 + (terms.length + 1) := by
  rw [booleanAnd]
  split
  · exact Program.cost_pure_le []
  · apply Program.cost_bind_le (calls_planTerms env idx false terms [])
    intro planned hplanned
    cases planned with
    | none => exact Program.cost_pure_le []
    | some x =>
        rw [run_planTerms] at hplanned
        rw [← length_planTerms hplanned, Nat.add_comm x.1.length]
        apply Program.cost_bind_le (calls_fetchOnce 0 x.2)
        intro round1 _
        apply Program.cost_lift_bind_le
        intro opened hopened
        have hlen : opened.length = x.1.length := (mapM_eq_ok hopened).length_eq.symm
        rw [← hlen]
        have hloop := calls_buildConjunction srt env.zstd idx round1 false opened
        apply Program.cost_bind_free_le hloop
        exact fun state => Program.cost_pure_le state.2

/-- **A phrase** asks as often as a conjunction. -/
theorem calls_phraseQuery (srt : DocSort) (env : ReadEnv) (idx : LogicalIndexReader)
    (terms : List Bytes) :
    callsOf idx (phraseQuery srt env idx terms) ≤ terms.length * 2 + (terms.length + 1) := by
  rw [phraseQuery]
  split
  · exact Program.cost_pure_le []
  · split
    · exact Program.cost_lift_le _
    · apply Program.cost_bind_le (calls_planTerms env idx true terms [])
      intro planned hplanned
      cases planned with
      | none => exact Program.cost_pure_le []
      | some x =>
          rw [run_planTerms] at hplanned
          have hrounds := calls_buildPhraseExecutionState srt env.zstd idx x.2 x.1
          rw [length_planTerms hplanned] at hrounds
          apply Program.cost_bind_free_le hrounds
          rintro ⟨srcs, candidates⟩
          simp only
          split
          · exact Program.cost_pure_le []
          · cases PhraseQuery.buildPositionOffsets x.1.length with
            | none => exact Program.cost_lift_le _
            | some offsets => exact Program.cost_lift_le _

theorem calls_resolveExactTerms (env : ReadEnv) (idx : LogicalIndexReader) (terms : List Bytes) :
    callsOf idx (resolveExactTerms env idx terms) ≤ terms.length * 2 := by
  induction terms with
  | nil => exact Program.cost_pure_le _
  | cons term terms ih =>
      rw [resolveExactTerms, List.length_cons, Nat.succ_mul, Nat.add_comm]
      apply Program.cost_bind_le (calls_lookup env idx term)
      intro hit _
      cases hit with
      | none => exact Program.cost_pure_le none
      | some r =>
          apply Program.cost_bind_free_le ih
          exact fun rest => Program.cost_pure_le _

theorem length_resolveExactTerms {terms : List Bytes} {rs : List Resolved}
    (h : PhrasePrefixQuery.resolveExactTerms env idx terms = .ok (some rs)) :
    rs.length = terms.length := by
  induction terms generalizing rs with
  | nil =>
      cases h
      rfl
  | cons term terms ih =>
      rw [PhrasePrefixQuery.resolveExactTerms] at h
      obtain ⟨hit, -, h1⟩ := bind_eq_ok h
      cases hit with
      | none => cases h1
      | some r =>
          obtain ⟨rest, hrest, h2⟩ := bind_eq_ok h1
          cases rest with
          | none => cases h2
          | some more =>
              cases h2
              exact congrArg (· + 1) (ih hrest)

theorem length_planResolvedTerms {needPositions : Bool} {rs : List Resolved} {reqs : List Range}
    {planned : List TermPlan × List Range}
    (h : Conjunction.planResolvedTerms idx needPositions reqs rs = .ok planned) :
    planned.1.length = rs.length := by
  induction rs generalizing reqs planned with
  | nil =>
      cases h
      rfl
  | cons r rs ih =>
      rw [Conjunction.planResolvedTerms] at h
      obtain ⟨x, -, h1⟩ := bind_eq_ok h
      obtain ⟨y, hy, h2⟩ := bind_eq_ok h1
      cases h2
      exact congrArg (· + 1) (ih hy)

/-- The exact terms of a phrase prefix ask as those of a phrase. -/
theorem calls_collectExpectedTailPositions (srt : DocSort) (z : Zstd) (idx : LogicalIndexReader)
    (exactTerms : List Resolved) :
    callsOf idx (collectExpectedTailPositions srt z idx exactTerms) ≤ exactTerms.length + 1 := by
  rw [collectExpectedTailPositions]
  apply Program.cost_lift_bind_le
  rintro ⟨plans, reqs⟩ hplanned
  have hlen : plans.length = exactTerms.length := length_planResolvedTerms hplanned
  rw [← hlen]
  apply Program.cost_bind_free_le (calls_buildPhraseExecutionState srt z idx reqs plans)
  rintro ⟨srcs, candidates⟩
  simp only
  split
  · exact Program.cost_pure_le []
  · cases PhraseQuery.buildPositionOffsets (plans.length + 1) with
    | none => exact Program.cost_lift_le _
    | some offsets => exact Program.cost_lift_le _

/-- A completion asks twice at most. -/
theorem calls_collectTailMatches (srt : DocSort) (z : Zstd) (idx : LogicalIndexReader)
    (expected : List PhrasePrefixQuery.ExpectedTailPositions) (tail : Resolved) :
    callsOf idx (collectTailMatchesAtExpectedPositions srt z idx expected tail) ≤ 2 := by
  rw [collectTailMatchesAtExpectedPositions]
  split
  · exact Program.cost_pure_le []
  · apply Program.cost_lift_bind_le
    rintro ⟨plans, reqs⟩ hplanned
    have hlen : plans.length = 1 := length_planResolvedTerms hplanned
    have hrounds := calls_buildPhraseExecutionState srt z idx reqs plans
    rw [hlen] at hrounds
    apply Program.cost_bind_free_le hrounds
    rintro ⟨srcs, candidates⟩
    simp only
    split
    · exact Program.cost_pure_le []
    · exact Program.cost_lift_le _

/-- Completions ask one after the other. -/
theorem calls_joinTails {idx : LogicalIndexReader} {read : Resolved → Reading (List Nat)}
    {n : Nat} (h : ∀ hit, callsOf idx (read hit) ≤ n) (acc : List Nat) (hits : List Resolved) :
    callsOf idx (joinTails read acc hits) ≤ hits.length * n := by
  induction hits generalizing acc with
  | nil => exact Program.cost_pure_le acc
  | cons hit hits ih =>
      rw [joinTails, List.length_cons, Nat.succ_mul, Nat.add_comm]
      exact Program.cost_bind_le (h hit) fun docs _ => ih _

/-- The number of completions of the last term of a phrase. -/
def completionsOf (env : ReadEnv) (idx : LogicalIndexReader) (terms : List Bytes) : Nat :=
  match Reader.prefixTerms env idx (terms.getLastD []) with
  | .ok hits => hits.length
  | .error _ => 0

/-- The exact terms are planned once; every completion is read in two batches. -/
theorem calls_phrasePrefixQuery (srt : DocSort) (env : ReadEnv) (idx : LogicalIndexReader)
    (terms : List Bytes) : callsOf idx (phrasePrefixQuery srt env idx terms) ≤
      terms.length * 2 +
        (idx.blockRefs.length + (terms.length + completionsOf env idx terms * 2)) := by
  rw [phrasePrefixQuery]
  split
  · exact Program.cost_pure_le []
  · rename_i hne
    split
    · rename_i hone
      have hprefix : callsOf idx (prefixQuery env idx (terms.headD [])) ≤
          idx.blockRefs.length + 2 :=
        Program.cost_bind_le (calls_prefixTerms env idx _) fun hits _ =>
          calls_emitDocidUnion env.zstd idx hits
      omega
    · split
      · exact Program.cost_lift_le _
      · have hinit : terms.dropLast.length + 1 = terms.length := by
          rw [List.length_dropLast]
          exact Nat.sub_add_cancel (List.length_pos_iff.mpr hne)
        rw [← hinit]
        have hresolve := calls_resolveExactTerms env idx terms.dropLast
        apply Program.cost_bind_le (hresolve.trans (by omega))
        intro exactTerms hexact
        rw [run_resolveExactTerms] at hexact
        cases exactTerms with
        | none => exact Program.cost_pure_le []
        | some exactTerms =>
            apply Program.cost_bind_le (calls_prefixTerms env idx _)
            intro tailHits htails
            rw [run_prefixTerms] at htails
            have hcount : completionsOf env idx terms = tailHits.length := by
              rw [completionsOf, htails]
            split
            · exact Program.cost_pure_le []
            · rw [← length_resolveExactTerms hexact, hcount]
              apply Program.cost_bind_le
                (calls_collectExpectedTailPositions srt env.zstd idx exactTerms)
              intro expected _
              split
              · exact Program.cost_pure_le []
              · have htail := calls_collectTailMatches srt env.zstd idx expected
                exact calls_joinTails htail [] tailHits

/-! ## Profiled queries -/

/-- **The profile of a query.**  Over the file of any index, in any state of the cache, a
query returns what it returns without a cache, and in no more rounds than its stages: two
for a term that is looked up and one for a block that is enumerated, two for a batch of
postings however many they are, one for a conjunction and one for each of its terms, and
nothing for the positions of a phrase.  Repeated, it costs the remote store nothing. -/
theorem queries_profiled (srt : DocSort) (lib : Regex) (env : ReadEnv)
    {idx : LogicalIndexReader} (h : Over idx.file m) :
    (∀ term, Profiled m (termQuery env idx term) (TermQuery.termQuery env idx term) 4) ∧
      (∀ term, Reader.lookup env idx term = .ok none →
        Profiled m (termQuery env idx term) (.ok []) 2) ∧
      (∀ terms, Profiled m (booleanOr env idx terms) (DocidUnion.booleanOr env idx terms)
        ((uniqueTerms terms).length * 2 + 2)) ∧
      (∀ pre, Profiled m (prefixQuery env idx pre) (DocidUnion.prefixQuery env idx pre)
        (idx.blockRefs.length + 2)) ∧
      (∀ pattern, Profiled m (wildcardQuery env idx pattern)
        (WildcardQuery.wildcardQuery env idx pattern) (idx.blockRefs.length + 2)) ∧
      (∀ pattern, Profiled m (regexpQuery lib env idx pattern)
        (RegexpQuery.regexpQuery lib env idx pattern) (idx.blockRefs.length + 2)) ∧
      (∀ terms, Profiled m (booleanAnd srt env idx terms)
        (Conjunction.booleanAnd srt env idx terms) (terms.length * 2 + (terms.length + 1))) ∧
      (∀ terms, Profiled m (phraseQuery srt env idx terms)
        (PhraseQuery.phraseQuery srt env idx terms) (terms.length * 2 + (terms.length + 1))) ∧
      ∀ terms, Profiled m (phrasePrefixQuery srt env idx terms)
        (PhrasePrefixQuery.phrasePrefixQuery srt env idx terms)
        (terms.length * 2 +
          (idx.blockRefs.length + (terms.length + completionsOf env idx terms * 2))) := by
  have hexpanded : ∀ pre accepts, Profiled m (emitExpandedDocidUnion env idx pre accepts)
      (DocidUnion.emitExpandedDocidUnion env idx pre accepts) (idx.blockRefs.length + 2) :=
    fun pre accepts => profiled_of_cost h (run_emitExpandedDocidUnion env idx pre accepts)
      (calls_emitExpandedDocidUnion env idx pre accepts)
  refine ⟨fun term => ?_, fun term habsent => ?_, fun terms => ?_, fun pre => ?_,
    fun pattern => hexpanded _ _, fun pattern => ?_, fun terms => ?_, fun terms => ?_,
    fun terms => ?_⟩
  · exact profiled_of_cost h (run_termQuery env idx term) (calls_termQuery env idx term)
  · have hplain : TermQuery.termQuery env idx term = .ok [] := by
      rw [TermQuery.termQuery, habsent]
      rfl
    exact profiled_of_cost h ((run_termQuery env idx term).trans hplain)
      (calls_termQuery_absent habsent)
  · exact profiled_of_cost h (run_booleanOr env idx terms) (calls_booleanOr env idx terms)
  · apply profiled_of_cost h (run_prefixQuery env idx pre)
    exact Program.cost_bind_le (calls_prefixTerms env idx pre) fun hits _ =>
      calls_emitDocidUnion env.zstd idx hits
  · cases hlib : lib.compile pattern with
    | error what =>
        apply profiled_of_cost h (run_regexpQuery lib env idx pattern)
        rw [regexpQuery, hlib]
        exact Program.cost_lift_le _
    | ok re =>
        rw [regexpQuery, RegexpQuery.regexpQuery, hlib]
        exact hexpanded _ re
  · exact profiled_of_cost h (run_booleanAnd srt env idx terms)
      (calls_booleanAnd srt env idx terms)
  · exact profiled_of_cost h (run_phraseQuery srt env idx terms)
      (calls_phraseQuery srt env idx terms)
  · exact profiled_of_cost h (run_phrasePrefixQuery srt env idx terms)
      (calls_phrasePrefixQuery srt env idx terms)

theorem queries_profiled_repeats : ∃ idx,
    OpensFrom Writer.LogicalIndexWriter.storeEnv storeReadEnv twoCalls
        positionalCall idx ∧
      Profiled { inner := innerOf idx.file, blockSize := 16 }
        (phraseQuery DocSort.stable storeReadEnv idx [[97], [98], [97]])
        (PhraseQuery.phraseQuery DocSort.stable storeReadEnv idx [[97], [98], [97]]) 10 := by
  obtain ⟨idx, hopens, -⟩ := positional_written.serves capsOk_twoCalls
  have hzero : IoMetrics.Bounded {} :=
    ⟨Nat.two_pow_pos 64, Nat.two_pow_pos 64, Nat.two_pow_pos 64, Nat.two_pow_pos 64⟩
  have hover : Over idx.file { inner := innerOf idx.file, blockSize := 16 } :=
    { inner := rfl, blockSize := Nat.succ_pos 15, counters := hzero }
  obtain ⟨-, -, -, -, -, -, -, hphrase, -⟩ := queries_profiled DocSort.stable
    ⟨fun _ => .ok fun _ => true⟩ storeReadEnv hover
  exact ⟨idx, hopens, hphrase [[97], [98], [97]]⟩

end Snii.Query.Profile
