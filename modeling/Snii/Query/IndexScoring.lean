import Snii.Query.IndexCursors

/-!
# Scored queries over an index

The three entry points of `scoring_query.cpp` from the terms of a query to its hits.
Over a written index with norms the exhaustive query returns the first `k` documents by
the sums of their BM25 scores (`exhaustive_exact`), the selective query makes the offers
of the eager one although it reads its windows one by one (`selective_eq_wand`), and the
pruned queries return exact scores, and the exhaustive list where the bounds of no term
rise (`wand_exact`).
-/

namespace Snii.Query.IndexScoring

open Snii.Lib Snii.Lib.ByteReader Snii.Lib.Aligned Snii.Lib.TopK Snii.Common
open Snii.Reader Snii.Stats Snii.Query.IndexCursors
open Snii.Query.ScoringQuery hiding TermSource buildCursor buildCursors buildLazyCursor
  selectiveBuildCursors scoringQueryExhaustive scoringQueryWand scoringQueryWandSelective
  selectiveWandLoop
open Snii.Query.Bm25Scorer (Bm25Params)
open Snii.Query.Conjunction (HasTerm term_unique)
open Snii.Query.FetchedWindows (FetchingCursor ofLazy selectiveWandLoop selectiveWandLoop_ofLazy)
open Snii.Format.DictBlock (DictBlockBuilder)
open Snii.Format.NormsPod (normAt)
open Snii.Writer.SpillRunCodec Snii.Writer.LogicalIndexWriter Snii.Writer.CompoundWriter

/-! ## The queries -/

section Queries

variable (srt : DocSort) (env : ReadEnv) (ln : ℚ → ℚ) (params : Bm25Params)
  (idx : LogicalIndexReader) (p : SniiStatsProvider) (terms : List Bytes) (k : Nat)

def scoringQueryExhaustive : Result (List ScoredDoc) :=
  if k = 0 then .ok []
  else do
    let cursors ← buildCursors env ln params idx p terms
    pure (ScoringQuery.scoringQueryExhaustive k cursors)

def scoringQueryWand : Option (Result (List ScoredDoc)) :=
  if k = 0 then some (.ok [])
  else match buildCursors env ln params idx p terms with
    | .error s => some (.error s)
    | .ok cursors => (ScoringQuery.scoringQueryWand srt k cursors).map .ok

def scoringQueryWandSelective : Option (Result (List ScoredDoc)) :=
  if k = 0 then some (.ok [])
  else match selectiveBuildCursors env ln params idx p terms with
    | .error s => some (.error s)
    | .ok cursors =>
        (selectiveWandLoop srt ((cursors.map FetchingCursor.totalPostings).sum + 1) cursors
          { k := k, heap := [] }).map fun r => r.map fun x => drainSorted x.2

end Queries

/-! ## The first documents of a ranking -/

/-- The score of a document: for each term of the query, its posting's. -/
def docScore (ln : ℚ → ℚ) (params : Bm25Params) (i : SniiIndexInput) (terms : List Bytes)
    (d : Nat) : ℚ :=
  (terms.map fun t => (termOf i t).elim 0 fun tp => postingScore (scoredTerm ln params i tp) d).sum

/-- A document that some term of the query has. -/
def Matches (i : SniiIndexInput) (terms : List Bytes) (d : Nat) : Prop :=
  ∃ t ∈ terms, HasTerm i t d

/-- Hits with their scores, best first. -/
structure Hits (score : Nat → ℚ) (matching : Nat → Prop) (k : Nat) (out : List ScoredDoc) :
    Prop where
  hit : ∀ x ∈ out, matching x.docid ∧ x.score = score x.docid
  ranked : out.Pairwise hitBefore
  size : out.length ≤ k

/-- The best hits: what is left out ranks behind all of them. -/
structure TopHits (score : Nat → ℚ) (matching : Nat → Prop) (k : Nat) (out : List ScoredDoc) :
    Prop extends Hits score matching k out where
  best : ∀ d, matching d → d ∉ out.map ScoredDoc.docid →
    out.length = k ∧ ∀ x ∈ out, hitBefore x { docid := d, score := score d }

/-- Distinct entries in the queue's order are distinct hits in the order of the output. -/
theorem hitBefore_of_rankLe {a b : Entry} (h : rankLe a b) (hne : a ≠ b) :
    hitBefore (toHit a) (toHit b) := by
  have hcmp : cmp a b := by
    rw [cmp_iff]
    rcases (rankLe_iff a b).mp h with hlt | ⟨heq, hle⟩
    · exact .inl hlt
    · refine .inr ⟨heq, lt_of_le_of_ne hle fun hdoc => hne (Prod.ext heq hdoc)⟩
  exact hcmp

section Ranking

variable {score : Nat → ℚ} {matching : Nat → Prop} {k : Nat} {l : List Entry}

/-- The best of distinct entries, each with its document's score. -/
theorem hits_bestK (hnodup : l.Nodup) (hl : ∀ e ∈ l, matching e.2 ∧ e.1 = score e.2) :
    Hits score matching k ((bestK rankLe k l).map toHit) := by
  have hbest : (bestK rankLe k l).Nodup :=
    ((List.perm_insertionSort rankLe l).nodup_iff.mpr hnodup).sublist (List.take_sublist _ _)
  constructor
  case hit =>
    intro x hx
    obtain ⟨e, he, rfl⟩ := List.mem_map.mp hx
    exact hl e (mem_of_mem_bestK he)
  case ranked =>
    rw [List.pairwise_map]
    exact ((bestK_pairwise k l).and hbest).imp fun h => hitBefore_of_rankLe h.1 h.2
  case size =>
    rw [List.length_map]
    exact bestK_length_le k l

theorem topHits_bestK (hnodup : l.Nodup) (hl : ∀ e ∈ l, matching e.2 ∧ e.1 = score e.2)
    (hall : ∀ d, matching d → (score d, d) ∈ l) :
    TopHits score matching k ((bestK rankLe k l).map toHit) := by
  refine ⟨hits_bestK hnodup hl, fun d hd hnot => ?_⟩
  have hmem := hall d hd
  have hout : (score d, d) ∉ bestK rankLe k l := by
    intro hin
    apply hnot
    rw [List.map_map]
    exact List.mem_map.mpr ⟨_, hin, rfl⟩
  constructor
  · rw [List.length_map, bestK_length]
    by_contra hne
    apply hout
    rw [bestK, List.take_of_length_le (by rw [List.length_insertionSort]; omega)]
    exact (List.mem_insertionSort _).mpr hmem
  · intro x hx
    obtain ⟨e, he, rfl⟩ := List.mem_map.mp hx
    have hrank := rel_of_mem_bestK_of_notMem he hmem hout
    exact hitBefore_of_rankLe hrank fun heq => hout (heq ▸ he)

end Ranking

/-! ## The terms of a query -/

variable {env : BuildEnv} {renv : ReadEnv} {ln : ℚ → ℚ} {params : Bm25Params}
  {idx : LogicalIndexReader} {p : SniiStatsProvider} {i : SniiIndexInput}

/-- A term of a query as the loops see it. -/
structure TermSourceAt (renv : ReadEnv) (ln : ℚ → ℚ) (params : Bm25Params)
    (idx : LogicalIndexReader) (p : SniiStatsProvider) (i : SniiIndexInput) (t : Bytes)
    (src : ScoringQuery.TermSource) : Prop where
  ok : src.Ok
  postings : src.postings = (termOf i t).elim [] (scoredTerm ln params i)
  holds : ∀ d, (∃ x ∈ src.postings, x.docid = d) ↔ HasTerm i t d
  eager : ∃ c, buildCursor renv ln params idx p t = .ok c ∧
    ScoringQuery.buildCursor src = .ok c ∧
      ((Sane ln params ∧ 0 < avgdlOf i) → ∀ x, c = some x → x.WellBounded) ∧
        ((∀ tp, termOf i t = some tp → tp.postings.docids.length < kSlimDfThreshold) →
          ∀ x, c = some x → x.NonIncreasing)
  lazy : buildLazyCursor renv ln params idx p t =
    .ok ((ScoringQuery.buildLazyCursor src).map ofLazy)

/-- An open index that gives what was written of its terms and of its statistics. -/
structure Serving (env : BuildEnv) (renv : ReadEnv) (idx : LogicalIndexReader)
    (p : SniiStatsProvider) (i : SniiIndexInput) : Prop where
  found : ∀ t, ∃ hit, lookup renv idx t = .ok hit ∧
    Option.Rel (Found env idx i) (termOf i t) hit
  sorted : SortedTerms i
  zstd : renv.zstd = env.zstd
  reports : ProviderReports renv p i
  size : idx.file.length < 2 ^ 64
  count : i.docCount < 2 ^ 32

theorem hasTerm_iff (hs : SortedTerms i) {t : Bytes} {d : Nat} :
    HasTerm i t d ↔ ∃ tp, termOf i t = some tp ∧ d ∈ tp.postings.docids := by
  constructor
  · rintro ⟨tp, htp, hterm, hd⟩
    cases hfind : termOf i t with
    | none =>
        have hno := List.find?_eq_none.mp hfind tp htp
        simp only [hterm, decide_true, not_true_eq_false] at hno
    | some tp' =>
        have hterm' : tp'.postings.term = t := by simpa using List.find?_some hfind
        rw [term_unique hs (List.mem_of_find?_eq_some hfind) htp (hterm'.trans hterm.symm)]
        exact ⟨tp, rfl, hd⟩
  · rintro ⟨tp, hfind, hd⟩
    exact ⟨tp, List.mem_of_find?_eq_some hfind, by simpa using List.find?_some hfind, hd⟩

theorem Serving.termSource (h : Serving env renv idx p i) (hscored : i.hasNorms = true)
    {t : Bytes} (hdocs : ∀ d, HasTerm i t d → d < i.docCount) :
    ∃ src, TermSourceAt renv ln params idx p i t src := by
  obtain ⟨hit, hlookup, hrel⟩ := h.found t
  have hterm := fun tp (htp : termOf i t = some tp) d (hd : d ∈ tp.postings.docids) =>
    hdocs d ((hasTerm_iff h.sorted).mpr ⟨tp, htp, hd⟩)
  generalize htp : termOf i t = written at hrel hterm
  cases hrel with
  | none =>
      refine ⟨.missing, ?_⟩
      constructor
      case ok => exact ⟨List.Pairwise.nil, by simp [TermSource.postings], fun ws hws => by cases hws⟩
      case postings => rw [htp]; rfl
      case holds =>
        intro d
        rw [hasTerm_iff h.sorted, htp]
        simp [TermSource.postings]
      case eager =>
        refine ⟨none, ?_, rfl, ?_, ?_⟩
        · rw [buildCursor, hlookup]
          rfl
        · intro _ x hx
          cases hx
        · intro _ x hx
          cases hx
      case lazy =>
        rw [buildLazyCursor, hlookup]
        rfl
  | @some tp r hfound =>
      have hscorable : Scorable env renv idx p i tp r :=
        ⟨⟨hfound, h.zstd, h.reports, hasFreq_of_hasNorms hscored, h.size⟩, hscored, h.count,
          hterm tp rfl⟩
      obtain ⟨src, hsrc⟩ := @Scorable.source env renv ln params idx p i tp r hscorable
      obtain ⟨c, hentry, hc, hbounded, hsmall⟩ := hsrc.eager
      obtain ⟨l, hlazy, hl⟩ := hsrc.lazy
      refine ⟨src, ?_⟩
      constructor
      case ok => exact hsrc.ok
      case postings => rw [htp]; exact hsrc.postings
      case holds =>
        intro d
        have hmap := @map_docid_scorePostings (ctxOf ln i tp) (avgdlOf i) params i.encodedNorms
          tp.postings.docids tp.postings.freqs hfound.lengths
        rw [hasTerm_iff h.sorted, htp, hsrc.postings, ← List.mem_map, scoredTerm, hmap]
        simp only [Option.some.injEq, exists_eq_left']
      case eager =>
        refine ⟨some c, ?_, hc, ?_, ?_⟩
        · rw [buildCursor, hlookup, ok_bind]
          simp only
          rw [hentry]
          rfl
        · rintro ⟨hsane, havg⟩ x hx
          cases hx
          exact hbounded hsane havg
        · intro hall x hx
          cases hx
          exact hsmall (hall tp htp)
      case lazy =>
        rw [buildLazyCursor, hlookup, ok_bind]
        simp only
        rw [hlazy, hl]
        rfl

/-- The sources of the terms of a query. -/
def Sources (renv : ReadEnv) (ln : ℚ → ℚ) (params : Bm25Params) (idx : LogicalIndexReader)
    (p : SniiStatsProvider) (i : SniiIndexInput) (terms : List Bytes)
    (srcs : List ScoringQuery.TermSource) : Prop :=
  List.Forall₂ (TermSourceAt renv ln params idx p i) terms srcs

theorem Serving.sources (h : Serving env renv idx p i) (hscored : i.hasNorms = true)
    {terms : List Bytes} (hdocs : ∀ d, Matches i terms d → d < i.docCount) :
    ∃ srcs, Sources renv ln params idx p i terms srcs :=
  exists_forall₂ fun t ht => h.termSource hscored fun d hd => hdocs d ⟨t, ht, hd⟩

section Sources

variable {terms : List Bytes} {srcs : List ScoringQuery.TermSource}

theorem Sources.ok (h : Sources renv ln params idx p i terms srcs) : ∀ s ∈ srcs, s.Ok := by
  intro s hs
  obtain ⟨t, -, ht⟩ := exists_left_of_mem h hs
  exact ht.ok

/-- **The cursors** of a query are those of its sources. -/
theorem Sources.buildCursors_eq (h : Sources renv ln params idx p i terms srcs) :
    buildCursors renv ln params idx p terms = ScoringQuery.buildCursors srcs := by
  induction h with
  | nil => rfl
  | cons ht _ ih =>
      obtain ⟨c, hc, hsrc, -⟩ := ht.eager
      rw [buildCursors, hc, ih]
      exact (congrArg (fun found => found >>= _) hsrc).symm

/-- **The lazy cursors** of a query read what its sources know. -/
theorem Sources.selectiveBuildCursors_eq (h : Sources renv ln params idx p i terms srcs) :
    selectiveBuildCursors renv ln params idx p terms =
      .ok ((ScoringQuery.selectiveBuildCursors srcs).map ofLazy) := by
  induction h with
  | nil => rfl
  | @cons t src terms srcs ht _ ih =>
      rw [selectiveBuildCursors, ht.lazy, ok_bind, ih, ok_bind, ScoringQuery.selectiveBuildCursors,
        ScoringQuery.selectiveBuildCursors]
      cases hlazy : ScoringQuery.buildLazyCursor src with
      | none => rw [List.filterMap_cons_none hlazy]; rfl
      | some c =>
          rw [List.filterMap_cons_some hlazy]
          have htotal : (ofLazy c).totalPostings = c.totalPostings := rfl
          by_cases hpos : 0 < c.totalPostings
          · simp only [Option.map_some, htotal, List.filter_cons, hpos, decide_true, if_true]
            rfl
          · simp only [Option.map_some, htotal, List.filter_cons, hpos, decide_false, if_false,
              Bool.false_eq_true]
            rfl

/-- A cursor holds the postings of its source. -/
theorem buildCursor_postings {src : ScoringQuery.TermSource} (h : src.Ok) {c : Option TermCursor}
    (hc : ScoringQuery.buildCursor src = .ok c) :
    src.postings = c.elim [] TermCursor.postings := by
  cases src with
  | missing => cases hc; rfl
  | slim postings => cases hc; rfl
  | windowed ws =>
      rw [ScoringQuery.buildCursor, readWindowed_truthful (h.truthful ws rfl), ok_bind] at hc
      cases hc
      rfl

/-- What the cursors sum is what the sources hold. -/
theorem cursors_hold (hok : ∀ s ∈ srcs, s.Ok) {cs : List TermCursor}
    (hcs : ScoringQuery.buildCursors srcs = .ok cs) :
    (∀ d, fullScore cs d = (srcs.map fun s => postingScore s.postings d).sum) ∧
      ∀ d, (∃ c ∈ cs, ∃ a ∈ c.postings, a.docid = d) ↔ ∃ s ∈ srcs, ∃ a ∈ s.postings, a.docid = d := by
  induction srcs generalizing cs with
  | nil => cases hcs; exact ⟨fun d => rfl, fun d => by simp⟩
  | cons s srcs ih =>
      obtain ⟨hs, hrest⟩ := List.forall_mem_cons.mp hok
      rw [ScoringQuery.buildCursors] at hcs
      obtain ⟨c, hc, h1⟩ := bind_eq_ok hcs
      obtain ⟨rest, hbuild, h2⟩ := bind_eq_ok h1
      obtain ⟨hscore, hmem⟩ := ih hrest hbuild
      have hpost := buildCursor_postings hs hc
      have hskip : s.postings = [] → (∀ d, fullScore rest d =
          ((s :: srcs).map fun s => postingScore s.postings d).sum) ∧
            ∀ d, (∃ c ∈ rest, ∃ a ∈ c.postings, a.docid = d) ↔
              ∃ s' ∈ s :: srcs, ∃ a ∈ s'.postings, a.docid = d := by
        intro hnil
        refine ⟨fun d => ?_, fun d => ?_⟩
        · rw [hscore, List.map_cons, List.sum_cons, hnil]
          exact (zero_add _).symm
        · rw [hmem]
          constructor
          · rintro ⟨s', hs', ha⟩
            exact ⟨s', List.mem_cons_of_mem _ hs', ha⟩
          · rintro ⟨s', hs', a, ha, hd⟩
            rcases List.mem_cons.mp hs' with rfl | hs'
            · rw [hnil] at ha
              cases ha
            · exact ⟨s', hs', a, ha, hd⟩
      cases c with
      | none => cases h2; exact hskip hpost
      | some c =>
          by_cases hnil : c.postings = []
          · simp only [if_pos hnil] at h2
            cases h2
            exact hskip (hpost.trans hnil)
          · simp only [if_neg hnil] at h2
            cases h2
            have hsame : s.postings = c.postings := hpost
            refine ⟨fun d => ?_, fun d => ?_⟩
            · rw [List.map_cons, List.sum_cons, ← hscore, hsame]
              rfl
            · rw [List.exists_mem_cons_iff, List.exists_mem_cons_iff, hmem, hsame]

theorem Sources.score_eq (h : Sources renv ln params idx p i terms srcs) (d : Nat) :
    (srcs.map fun s => postingScore s.postings d).sum = docScore ln params i terms d := by
  rw [docScore]
  refine congrArg List.sum (map_eq_of_forall₂ (fun t s ht => ?_) h).symm
  rw [ht.postings]
  cases termOf i t <;> rfl

theorem Sources.holds (h : Sources renv ln params idx p i terms srcs) (d : Nat) :
    (∃ s ∈ srcs, ∃ x ∈ s.postings, x.docid = d) ↔ Matches i terms d := by
  constructor
  · rintro ⟨s, hs, hx⟩
    obtain ⟨t, htmem, ht⟩ := exists_left_of_mem h hs
    exact ⟨t, htmem, (ht.holds d).mp hx⟩
  · rintro ⟨t, ht, hd⟩
    obtain ⟨s, hs, hsrc⟩ := exists_right_of_mem h ht
    exact ⟨s, hs, (hsrc.holds d).mpr hd⟩

/-- The documents of the cursors are the matching ones, with their scores. -/
theorem Sources.scoredDocs (h : Sources renv ln params idx p i terms srcs) {cs : List TermCursor}
    (hcs : ScoringQuery.buildCursors srcs = .ok cs) :
    (∀ e ∈ scoredDocs cs, Matches i terms e.2 ∧ e.1 = docScore ln params i terms e.2) ∧
      ∀ d, Matches i terms d → (docScore ln params i terms d, d) ∈ scoredDocs cs := by
  obtain ⟨hscore, hmem⟩ := cursors_hold h.ok hcs
  constructor
  · intro e he
    obtain ⟨hdoc, hsum⟩ := mem_scoredDocs.mp he
    rw [hsum, hscore, h.score_eq]
    exact ⟨(h.holds e.2).mp ((hmem e.2).mp hdoc), rfl⟩
  · intro d hd
    apply mem_scoredDocs.mpr
    simp only [hscore, h.score_eq, and_true]
    exact (hmem d).mpr ((h.holds d).mpr hd)

/-- A cursor of the query was built for one of its terms. -/
theorem mem_buildCursors {cs : List TermCursor} (hcs : ScoringQuery.buildCursors srcs = .ok cs)
    {c : TermCursor} (hc : c ∈ cs) : ∃ s ∈ srcs, ScoringQuery.buildCursor s = .ok (some c) := by
  induction srcs generalizing cs with
  | nil => cases hcs; cases hc
  | cons s srcs ih =>
      rw [ScoringQuery.buildCursors] at hcs
      obtain ⟨c', hc', h1⟩ := bind_eq_ok hcs
      obtain ⟨rest, hbuild, h2⟩ := bind_eq_ok h1
      have hskip : c ∈ rest → ∃ s' ∈ s :: srcs, ScoringQuery.buildCursor s' = .ok (some c) := by
        intro hin
        obtain ⟨s', hs', hbuilt⟩ := ih hbuild hin
        exact ⟨s', List.mem_cons_of_mem _ hs', hbuilt⟩
      cases c' with
      | none => cases h2; exact hskip hc
      | some c' =>
          by_cases hnil : c'.postings = []
          · simp only [if_pos hnil] at h2
            cases h2
            exact hskip hc
          · simp only [if_neg hnil] at h2
            cases h2
            rcases List.mem_cons.mp hc with rfl | hc
            · exact ⟨s, List.mem_cons_self, hc'⟩
            · exact hskip hc

theorem Sources.wellBounded (h : Sources renv ln params idx p i terms srcs)
    (hsane : Sane ln params) (havg : 0 < avgdlOf i) {cs : List TermCursor}
    (hcs : ScoringQuery.buildCursors srcs = .ok cs) : ∀ c ∈ cs, c.WellBounded := by
  intro c hc
  obtain ⟨s, hs, hbuilt⟩ := mem_buildCursors hcs hc
  obtain ⟨t, -, ht⟩ := exists_left_of_mem h hs
  obtain ⟨c', -, hc', hbounded, -⟩ := ht.eager
  rw [hbuilt] at hc'
  exact hbounded ⟨hsane, havg⟩ c (Except.ok.inj hc').symm

/-- Terms that are not laid out in windows have one bound each. -/
theorem Sources.nonIncreasing (h : Sources renv ln params idx p i terms srcs)
    (hsmall : ∀ t ∈ terms, ∀ tp, termOf i t = some tp →
      tp.postings.docids.length < kSlimDfThreshold) {cs : List TermCursor}
    (hcs : ScoringQuery.buildCursors srcs = .ok cs) : ∀ c ∈ cs, c.NonIncreasing := by
  intro c hc
  obtain ⟨s, hs, hbuilt⟩ := mem_buildCursors hcs hc
  obtain ⟨t, htmem, ht⟩ := exists_left_of_mem h hs
  obtain ⟨c', -, hc', -, hfall⟩ := ht.eager
  rw [hbuilt] at hc'
  exact hfall (hsmall t htmem) c (Except.ok.inj hc').symm

/-! ## The three queries over sources -/

variable (srt : DocSort)

theorem Sources.exhaustive (h : Sources renv ln params idx p i terms srcs) (k : Nat) :
    ∃ cs, ScoringQuery.buildCursors srcs = .ok cs ∧ (∀ c ∈ cs, c.pos = 0) ∧
      scoringQueryExhaustive renv ln params idx p terms k =
        .ok ((bestK rankLe k (ScoringQuery.scoredDocs cs)).map toHit) := by
  obtain ⟨cs, hcs, -, hpos⟩ := buildCursors_follows h.ok
  refine ⟨cs, hcs, hpos, ?_⟩
  rw [scoringQueryExhaustive]
  rcases Nat.eq_zero_or_pos k with rfl | hk
  · rfl
  · rw [if_neg (by omega), h.buildCursors_eq, hcs, ok_bind, scoringQueryExhaustive_eq hk]
    rfl

theorem Sources.wand {cs : List TermCursor} (h : Sources renv ln params idx p i terms srcs)
    (hcs : ScoringQuery.buildCursors srcs = .ok cs) {k : Nat} (hk : 0 < k) :
    scoringQueryWand srt renv ln params idx p terms k =
      (ScoringQuery.scoringQueryWand srt k cs).map .ok := by
  rw [scoringQueryWand, if_neg (by omega), h.buildCursors_eq, hcs]

/-- **The selective query** makes the offers of the eager one. -/
theorem Sources.selective (h : Sources renv ln params idx p i terms srcs) (k : Nat) :
    ∃ out, scoringQueryWandSelective srt renv ln params idx p terms k = some (.ok out) ∧
      scoringQueryWand srt renv ln params idx p terms k = some (.ok out) := by
  rcases Nat.eq_zero_or_pos k with rfl | hk
  · exact ⟨[], rfl, rfl⟩
  · obtain ⟨cs, hcs, hfollows, hpos⟩ := buildCursors_follows h.ok
    obtain ⟨offs, -, t, hloop, -⟩ :=
      @wandLoop_reach srt (workLeft cs + 1) cs { k := k, heap := [] } (Nat.lt_succ_self _)
    have htotals : ((((ScoringQuery.selectiveBuildCursors srcs).map ofLazy).map
        FetchingCursor.totalPostings).sum) = workLeft cs := by
      rw [List.map_map]
      exact sum_totalPostings hfollows hpos
    refine ⟨drainSorted t, ?_, ?_⟩
    · rw [scoringQueryWandSelective, if_neg (by omega), h.selectiveBuildCursors_eq]
      simp only
      rw [htotals, selectiveWandLoop_ofLazy, selectiveWandLoop_follows srt _ hfollows, hloop]
      rfl
    · rw [h.wand srt hcs hk, ScoringQuery.scoringQueryWand, if_neg (by omega), wandRun, hloop]
      rfl

end Sources

/-! ## Documents without a norm -/

section Refused

variable {terms : List Bytes} {status : Status}

theorem Serving.readable (h : Serving env renv idx p i) (hfreq : i.hasFreq = true) (t : Bytes) :
    (termOf i t = none ∧ lookup renv idx t = .ok none) ∨
      ∃ tp r, termOf i t = some tp ∧ lookup renv idx t = .ok (some r) ∧
        Readable env renv idx p i tp r := by
  obtain ⟨hit, hlookup, hrel⟩ := h.found t
  generalize termOf i t = written at hrel ⊢
  cases hrel with
  | none => exact .inl ⟨rfl, hlookup⟩
  | @some tp r hfound => exact .inr ⟨tp, r, rfl, hlookup, hfound, h.zstd, h.reports, hfreq, h.size⟩

/-- **A document without a norm** ends the building of the cursors. -/
theorem Serving.buildCursors_error (h : Serving env renv idx p i) (hfreq : i.hasFreq = true)
    (hbad : ∃ d, Matches i terms d ∧ p.encodedNorm d = .error status)
    (hall : ∀ d s, p.encodedNorm d = .error s → s = status) :
    buildCursors renv ln params idx p terms = .error status := by
  induction terms with
  | nil =>
      obtain ⟨d, ⟨t, ht, -⟩, -⟩ := hbad
      cases ht
  | cons t terms ih =>
      rw [buildCursors]
      by_cases hhere : ∃ d, HasTerm i t d ∧ p.encodedNorm d = .error status
      · obtain ⟨d, hterm, herror⟩ := hhere
        obtain ⟨tp, htp, hd⟩ := (hasTerm_iff h.sorted).mp hterm
        rcases h.readable hfreq t with ⟨hnone, -⟩ | ⟨tp', r, hsome, hlookup, hread⟩
        · rw [hnone] at htp
          cases htp
        · rw [hsome] at htp
          cases htp
          rw [buildCursor, hlookup, ok_bind]
          simp only
          rw [hread.entryCursor_error ⟨d, hd, herror⟩ hall]
          rfl
      · have hrest : ∃ d, Matches i terms d ∧ p.encodedNorm d = .error status := by
          obtain ⟨d, ⟨t', ht', hterm⟩, herror⟩ := hbad
          rcases List.mem_cons.mp ht' with rfl | ht'
          · exact absurd ⟨d, hterm, herror⟩ hhere
          · exact ⟨d, ⟨t', ht', hterm⟩, herror⟩
        have hok : ∃ c, buildCursor renv ln params idx p t = .ok c := by
          rcases h.readable hfreq t with ⟨-, hlookup⟩ | ⟨tp, r, hsome, hlookup, hread⟩
          · exact ⟨none, by rw [buildCursor, hlookup]; rfl⟩
          · have hnorms : ∀ d ∈ tp.postings.docids, ∃ norm, p.encodedNorm d = .ok norm := by
              intro d hd
              cases hnorm : p.encodedNorm d with
              | ok norm => exact ⟨norm, rfl⟩
              | error s =>
                  have hterm := (hasTerm_iff h.sorted).mpr ⟨tp, hsome, hd⟩
                  exact absurd ⟨d, hterm, hall d s hnorm ▸ hnorm⟩ hhere
            obtain ⟨c, hc⟩ := @Readable.entryCursor_total env renv ln params idx p i tp r hread hnorms
            refine ⟨some c, ?_⟩
            rw [buildCursor, hlookup, ok_bind]
            simp only
            rw [hc]
            rfl
        obtain ⟨c, hc⟩ := hok
        rw [hc, ok_bind, ih hrest]
        rfl

end Refused

/-! ## Written indexes -/

variable {adds : List AddCall} {a : AddCall}

/-- A written index opens with its statistics. -/
theorem serving_of_written (h : WrittenIndex env renv adds a) (hcaps : CapsOk env adds) :
    ∃ idx p, OpensFrom env renv adds a idx ∧ SniiStatsProvider.open idx = .ok p ∧
      Serving (a.env env) renv idx p a.input := by
  obtain ⟨idx, hopens, hfile, hreports, w, blocks, region, dictOff, hbuild, hin, hserves⟩ :=
    h.reports hcaps
  have ha : a ∈ adds := (List.mem_filter.mp h.added).1
  obtain ⟨p, hopen, hall⟩ := open_reports ha h.session hreports hfile hbuild hin hserves h.sorted
  have hfound := hserves.found (hin ▸ h.sorted)
  rw [hin] at hfound
  exact ⟨idx, p, hopens, hopen, hfound, h.sorted, hserves.zstd, hall, hserves.holds.size,
    (h.session.inputs a ha).docCount⟩

/-- Every document of the query has its norm. -/
def InRange (i : SniiIndexInput) (terms : List Bytes) : Prop :=
  ∀ d, Matches i terms d → d < i.docCount

/-- A rational stand-in for the logarithm, right at `1` and close to it nearby. -/
def padeLn (x : ℚ) : ℚ := 2 * (x - 1) / (x + 1)

def classicParams : Bm25Params := { k1 := 6 / 5, b := 3 / 4 }

theorem sane_classic : Sane padeLn classicParams := by
  constructor
  case ln =>
    intro x hx
    exact div_nonneg (by linarith) (by linarith)
  case k1 => norm_num [classicParams]
  case bNonneg => norm_num [classicParams]
  case bLe => norm_num [classicParams]

theorem inRange_scoredCall {terms : List Bytes} : InRange scoredCall.input terms := by
  have hall : ∀ tp ∈ scoredCall.input.source.list, ∀ d ∈ tp.postings.docids,
      d < scoredCall.input.docCount := by decide
  rintro d ⟨t, -, tp, htp, -, hd⟩
  exact hall tp htp d hd

/-- What the exhaustive query answers. -/
structure ExhaustiveAnswers (query : List Bytes → Nat → Result (List ScoredDoc)) (ln : ℚ → ℚ)
    (params : Bm25Params) (i : SniiIndexInput) : Prop where
  exact : i.hasNorms = true → ∀ terms k, InRange i terms →
    ∃ out, query terms k = .ok out ∧ TopHits (docScore ln params i terms) (Matches i terms) k out
  beyond : i.hasNorms = true → ∀ terms k, 0 < k → ¬ InRange i terms →
    query terms k = .error (.invalidArgument "norms: docid out of range")
  unscored : i.hasNorms = false → i.hasFreq = true → ∀ terms k, 0 < k → (∃ d, Matches i terms d) →
    query terms k = .error (.invalidArgument "stats_provider: index has no norms")

/-- **The exhaustive query** over every written index: the first `k` of the matching
documents by the sums of their scores, best first and ties by docid.  It refuses a query
with a document that has no norm, and every match where the index has none. -/
theorem exhaustive_exact (h : WrittenIndex env renv adds a) (hcaps : CapsOk env adds)
    (ln : ℚ → ℚ) (params : Bm25Params) :
    ∃ idx p, OpensFrom env renv adds a idx ∧ SniiStatsProvider.open idx = .ok p ∧
      ExhaustiveAnswers (scoringQueryExhaustive renv ln params idx p) ln params a.input := by
  obtain ⟨idx, p, hopens, hopen, hserving⟩ := serving_of_written h hcaps
  refine ⟨idx, p, hopens, hopen, ?_⟩
  constructor
  case exact =>
    intro hscored terms k hrange
    obtain ⟨srcs, hsrcs⟩ := @Serving.sources _ renv ln params idx p a.input hserving hscored terms
      hrange
    obtain ⟨cs, hcs, -, hquery⟩ := hsrcs.exhaustive k
    obtain ⟨hscores, hall⟩ := hsrcs.scoredDocs hcs
    exact ⟨_, hquery, topHits_bestK (nodup_scoredDocs cs) hscores hall⟩
  case beyond =>
    intro hscored terms k hk hrange
    obtain ⟨hlen, hnorms⟩ := hserving.reports.norms hscored
    have hbad : ∃ d, Matches a.input terms d ∧
        p.encodedNorm d = .error (.invalidArgument "norms: docid out of range") := by
      by_contra hnone
      apply hrange
      intro d hd
      by_contra hout
      apply hnone
      refine ⟨d, hd, ?_⟩
      rw [hnorms, normAt, List.getElem?_eq_none (by omega)]
    have hall : ∀ d s, p.encodedNorm d = .error s →
        s = .invalidArgument "norms: docid out of range" := by
      intro d s hs
      rw [hnorms, normAt] at hs
      cases hget : a.input.encodedNorms[d]? with
      | none => rw [hget] at hs; exact (Except.error.inj hs).symm
      | some norm => rw [hget] at hs; cases hs
    rw [scoringQueryExhaustive, if_neg (by omega),
      hserving.buildCursors_error (hasFreq_of_hasNorms hscored) hbad hall]
    rfl
  case unscored =>
    intro hnone hfreq terms k hk hmatch
    have hnorms := hserving.reports.noNorms hnone
    obtain ⟨d, hd⟩ := hmatch
    rw [scoringQueryExhaustive, if_neg (by omega),
      hserving.buildCursors_error hfreq ⟨d, hd, hnorms d⟩ fun d s hs => by
        rw [hnorms] at hs
        exact (Except.error.inj hs).symm]
    rfl

theorem exhaustive_exact_scoredCall : ∃ idx p,
    OpensFrom storeEnv storeReadEnv [scoredCall] scoredCall idx ∧
      SniiStatsProvider.open idx = .ok p ∧
        ExhaustiveAnswers (scoringQueryExhaustive storeReadEnv padeLn classicParams idx p) padeLn
          classicParams scoredCall.input :=
  exhaustive_exact written_scoredCall capsOk_scoredCall padeLn classicParams

/-- **The selective query** over every written index ends and returns what the eager one
returns, whichever windows it fetched. -/
theorem selective_eq_wand (srt : DocSort) (h : WrittenIndex env renv adds a)
    (hcaps : CapsOk env adds) (hscored : a.input.hasNorms = true) (ln : ℚ → ℚ)
    (params : Bm25Params) :
    ∃ idx p, OpensFrom env renv adds a idx ∧ SniiStatsProvider.open idx = .ok p ∧
      ∀ terms k, InRange a.input terms → ∃ out,
        scoringQueryWandSelective srt renv ln params idx p terms k = some (.ok out) ∧
          scoringQueryWand srt renv ln params idx p terms k = some (.ok out) := by
  obtain ⟨idx, p, hopens, hopen, hserving⟩ := serving_of_written h hcaps
  refine ⟨idx, p, hopens, hopen, fun terms k hrange => ?_⟩
  obtain ⟨srcs, hsrcs⟩ := @Serving.sources _ renv ln params idx p a.input hserving hscored terms
    hrange
  exact hsrcs.selective srt k

theorem selective_eq_wand_scoredCall : ∃ idx p,
    OpensFrom storeEnv storeReadEnv [scoredCall] scoredCall idx ∧
      SniiStatsProvider.open idx = .ok p ∧ ∃ out,
        scoringQueryWandSelective DocSort.stable storeReadEnv padeLn classicParams idx p
            [[97], [98]] 2 = some (.ok out) ∧
          scoringQueryWand DocSort.stable storeReadEnv padeLn classicParams idx p [[97], [98]] 2 =
            some (.ok out) := by
  obtain ⟨idx, p, hopens, hopen, hqueries⟩ := selective_eq_wand DocSort.stable written_scoredCall
    capsOk_scoredCall rfl padeLn classicParams
  exact ⟨idx, p, hopens, hopen, hqueries _ 2 inRange_scoredCall⟩

/-- No term of the query has a window whose bound is above that of a window before it. -/
def BoundsFall (renv : ReadEnv) (ln : ℚ → ℚ) (params : Bm25Params) (idx : LogicalIndexReader)
    (p : SniiStatsProvider) (terms : List Bytes) : Prop :=
  ∀ cs, buildCursors renv ln params idx p terms = .ok cs → ∀ c ∈ cs, c.NonIncreasing

/-- What the pruned query answers. -/
structure WandAnswers (query : List Bytes → Nat → Option (Result (List ScoredDoc)))
    (fall : List Bytes → Prop) (ln : ℚ → ℚ) (params : Bm25Params) (i : SniiIndexInput) :
    Prop where
  hits : ∀ terms k, InRange i terms → ∃ out, query terms k = some (.ok out) ∧
    Hits (docScore ln params i terms) (Matches i terms) k out ∧
      (fall terms → TopHits (docScore ln params i terms) (Matches i terms) k out)
  slim : ∀ terms, InRange i terms → (∀ t ∈ terms, ∀ tp, termOf i t = some tp →
    tp.postings.docids.length < kSlimDfThreshold) → fall terms

/-- **The pruned query** over every written index ends, and every hit has its document's
full score.  The hits are the best ones where no bound rises along a term's windows, so
for every query of terms that are not laid out in windows. -/
theorem wand_exact (srt : DocSort) (h : WrittenIndex env renv adds a) (hcaps : CapsOk env adds)
    (hscored : a.input.hasNorms = true) (hsane : Sane ln params) (havg : 0 < avgdlOf a.input) :
    ∃ idx p, OpensFrom env renv adds a idx ∧ SniiStatsProvider.open idx = .ok p ∧
      WandAnswers (scoringQueryWand srt renv ln params idx p)
        (BoundsFall renv ln params idx p) ln params a.input := by
  obtain ⟨idx, p, hopens, hopen, hserving⟩ := serving_of_written h hcaps
  refine ⟨idx, p, hopens, hopen, ?_⟩
  have hsources := fun terms => @Serving.sources _ renv ln params idx p a.input hserving hscored terms
  constructor
  case hits =>
    intro terms k hrange
    obtain ⟨srcs, hsrcs⟩ := hsources terms hrange
    obtain ⟨cs, hcs, hpos, -⟩ := hsrcs.exhaustive k
    obtain ⟨hscores, hall⟩ := hsrcs.scoredDocs hcs
    have hwell := hsrcs.wellBounded hsane havg hcs
    rcases Nat.eq_zero_or_pos k with rfl | hk
    · have hnone := @topHits_bestK _ _ 0 _ (nodup_scoredDocs cs) hscores hall
      exact ⟨[], rfl, hnone.toHits, fun _ => hnone⟩
    · obtain ⟨offs, cs', t, hreach, -, hinv, hquery⟩ :=
        wandRun_spec srt hk (fun c hc => (hwell c hc).toAscending) hpos
      refine ⟨_, ?_, hits_bestK hinv.offered_nodup fun e he => hscores e (hinv.exact e he),
        fun hfall => ?_⟩
      · rw [hsrcs.wand srt hcs hk, hquery]
        rfl
      · have hmono := hfall cs (hsrcs.buildCursors_eq.trans hcs)
        have hbest := (wand_eq_iff srt hk (fun c hc => (hwell c hc).toAscending) hpos).mpr
          (noPrunedWinner_of_nonIncreasing srt hk (fun c hc => ⟨hwell c hc, hmono c hc⟩) hpos)
        rw [hquery, scoringQueryExhaustive_eq hk, Option.some.injEq] at hbest
        rw [hbest]
        exact topHits_bestK (nodup_scoredDocs cs) hscores hall
  case slim =>
    intro terms hrange hsmall cs hcs
    obtain ⟨srcs, hsrcs⟩ := hsources terms hrange
    exact hsrcs.nonIncreasing hsmall (hsrcs.buildCursors_eq.symm.trans hcs)

theorem wand_exact_scoredCall : ∃ idx p,
    OpensFrom storeEnv storeReadEnv [scoredCall] scoredCall idx ∧
      SniiStatsProvider.open idx = .ok p ∧
        WandAnswers (scoringQueryWand DocSort.stable storeReadEnv padeLn classicParams idx p)
          (BoundsFall storeReadEnv padeLn classicParams idx p) padeLn classicParams
          scoredCall.input :=
  wand_exact DocSort.stable written_scoredCall capsOk_scoredCall rfl sane_classic
    (by norm_num [avgdlOf, scoredCall, TermSource.list])

end Snii.Query.IndexScoring
