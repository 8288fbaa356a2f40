import Snii.Query.Bm25Scorer
import Snii.Query.CursorPostings
import Snii.Query.FetchedWindows
import Snii.Stats.SniiStatsProvider

/-!
# Cursors over an index

`BuildCursor` of `scoring_query.cpp` from the lookup of a term on: its posting is read
and scored, and the bounds of its windows come from its prelude.  Over a written index a
term becomes the source that the loops of the queries are about (`SourceAt`): its
postings carry the scores of what was written, the rows of its prelude state the truth,
and no posting scores above the bound of its window.
-/

namespace Snii.Query.IndexCursors

open Snii.Lib.ByteReader Snii.Lib.Aligned Snii.Common Snii.Io.BatchRangeFetcher
open Snii.Reader Snii.Stats
open Snii.Query.ScoringQuery hiding buildCursor buildCursors buildLazyCursor selectiveBuildCursors
open Snii.Query.Bm25Scorer Snii.Query.CursorPostings
open Snii.Query.FetchedWindows (FetchingCursor fetchKnown ofLazy)
open Snii.Query.DocidSetOps (Ascending)
open Snii.Format.Dict
open Snii.Format.NormsPod (normAt)
open Snii.Format.DictBlock (Resolved)
open Snii.Format.FrqPrelude (WindowMeta FrqPreludeReader readerOf)
open Snii.Writer.SpillRunCodec Snii.Writer.LogicalIndexWriter

/-! ## Building a cursor -/

/-- The documents with their scores; a document without a frequency counts once. -/
def scoreDecoded (p : SniiStatsProvider) (ctx : ScorerContext) (params : Bm25Params) :
    List Nat → List Nat → Result (List TermPosting)
  | [], _ => .ok []
  | docid :: docids, freqs => do
      let norm ← p.encodedNorm docid
      let rest ← scoreDecoded p ctx params docids freqs.tail
      pure ({ docid := docid, score := ctx.score (freqs.headD 1) norm.toNat p.avgdl params } ::
        rest)

/-- The prelude of a windowed term. -/
def fetchPrelude (idx : LogicalIndexReader) (e : DictEntry) (frqBase : Nat) :
    Result FrqPreludeReader := do
  let fetched ← fetch idx.file 0 [⟨preludeAbs idx e frqBase, e.preludeLen⟩]
  let bytes ← fetched.get 0
  FrqPreludeReader.open bytes

/-- The bounds of the windows, as far as the prelude can be read. -/
def fetchedBounds (idx : LogicalIndexReader) (r : Resolved) (ctx : ScorerContext) (avgdl : ℚ)
    (params : Bm25Params) : List WindowBound :=
  match fetchPrelude idx r.entry r.frqBase with
  | .ok prelude => buildWindowBounds (prelude.windows.map (windowDataOf ctx avgdl params))
  | .error _ => []

/-- The cursor of an entry. -/
def entryCursor (env : ReadEnv) (ln : ℚ → ℚ) (params : Bm25Params) (idx : LogicalIndexReader)
    (p : SniiStatsProvider) (r : Resolved) : Result TermCursor := do
  let ctx := ScorerContext.make ln p.indexedDocCount r.entry.df
  let (docids, freqs) ← buildCursorPostings env.zstd idx r
  let postings ← scoreDecoded p ctx params docids freqs
  let windows :=
    if r.entry.kind = .podRef ∧ r.entry.enc = .windowed then fetchedBounds idx r ctx p.avgdl params
    else []
  pure { postings := postings
         windows := if windows = [] then singleWindowFallback postings else windows }

/-- The cursor of a term, read whole; an absent term has none. -/
def buildCursor (env : ReadEnv) (ln : ℚ → ℚ) (params : Bm25Params) (idx : LogicalIndexReader)
    (p : SniiStatsProvider) (term : Bytes) : Result (Option TermCursor) := do
  let hit ← lookup env idx term
  match hit with
  | none => pure none
  | some r => do
      let cursor ← entryCursor env ln params idx p r
      pure (some cursor)

/-- The cursors of the terms that have postings. -/
def buildCursors (env : ReadEnv) (ln : ℚ → ℚ) (params : Bm25Params) (idx : LogicalIndexReader)
    (p : SniiStatsProvider) : List Bytes → Result (List TermCursor)
  | [] => .ok []
  | term :: terms => do
      let c ← buildCursor env ln params idx p term
      let rest ← buildCursors env ln params idx p terms
      pure (match c with
        | some c => if c.postings = [] then rest else c :: rest
        | none => rest)

/-! ## Building a lazy cursor -/

/-- The read of a window: its documents and frequencies, and then their scores. -/
def fetchWindow (env : ReadEnv) (ctx : ScorerContext) (params : Bm25Params)
    (idx : LogicalIndexReader) (p : SniiStatsProvider) (r : Resolved) (prelude : FrqPreludeReader)
    (w count : Nat) : Result (List TermPosting) := do
  let (docids, freqs) ← materializeWindowPostings env.zstd idx r prelude w
  if docids.length ≠ count then
    .error (.corruption "scoring_query: selective window doc-count drift")
  else scoreDecoded p ctx params docids freqs

/-- Only the prelude is read; every window is fetched later. -/
def buildLazyWindowed (env : ReadEnv) (ctx : ScorerContext) (params : Bm25Params)
    (idx : LogicalIndexReader) (p : SniiStatsProvider) (r : Resolved) : Result FetchingCursor := do
  let prelude ← fetchWindowedPrelude idx r.entry r.frqBase
  let ws := prelude.windows.map (windowDataOf ctx p.avgdl params)
  pure { ofLazy (ScoringQuery.buildLazyWindowed ws) with
    fetch := fetchWindow env ctx params idx p r prelude }

/-- A term of one window is read at once. -/
def buildLazySlim (env : ReadEnv) (ctx : ScorerContext) (params : Bm25Params)
    (idx : LogicalIndexReader) (p : SniiStatsProvider) (r : Resolved) : Result FetchingCursor := do
  let (docids, freqs) ← decodeSlim env.zstd idx r.entry r.frqBase
  let postings ← scoreDecoded p ctx params docids freqs
  pure (ofLazy (ScoringQuery.buildLazySlim postings))

/-- By how the entry is stored. -/
def entryLazyCursor (env : ReadEnv) (ln : ℚ → ℚ) (params : Bm25Params) (idx : LogicalIndexReader)
    (p : SniiStatsProvider) (r : Resolved) : Result FetchingCursor :=
  let ctx := ScorerContext.make ln p.indexedDocCount r.entry.df
  if r.entry.kind = .podRef ∧ r.entry.enc = .windowed then buildLazyWindowed env ctx params idx p r
  else buildLazySlim env ctx params idx p r

/-- The cursor of a term, read as it moves. -/
def buildLazyCursor (env : ReadEnv) (ln : ℚ → ℚ) (params : Bm25Params) (idx : LogicalIndexReader)
    (p : SniiStatsProvider) (term : Bytes) : Result (Option FetchingCursor) := do
  let hit ← lookup env idx term
  match hit with
  | none => pure none
  | some r => do
      let cursor ← entryLazyCursor env ln params idx p r
      pure (some cursor)

/-- The cursors of the terms that have postings. -/
def selectiveBuildCursors (env : ReadEnv) (ln : ℚ → ℚ) (params : Bm25Params)
    (idx : LogicalIndexReader) (p : SniiStatsProvider) :
    List Bytes → Result (List FetchingCursor)
  | [] => .ok []
  | term :: terms => do
      let c ← buildLazyCursor env ln params idx p term
      let rest ← selectiveBuildCursors env ln params idx p terms
      pure (match c with
        | some c => if 0 < c.totalPostings then c :: rest else rest
        | none => rest)

/-! ## The scores of what was written -/

/-- A posting list with the scores of its documents. -/
def scorePostings (ctx : ScorerContext) (avgdl : ℚ) (params : Bm25Params) (norms : Bytes)
    (docids freqs : List Nat) : List TermPosting :=
  List.zipWith (fun d tf =>
    { docid := d, score := ctx.score tf (norms.getD d 0).toNat avgdl params }) docids freqs

/-- The average length of a document of the input. -/
def avgdlOf (i : SniiIndexInput) : ℚ :=
  ((i.source.list.map fun tp => tp.postings.freqs.sum).sum % 2 ^ 64 : Nat) /
    (max 1 i.docCount : Nat)

/-- The context of a written term. -/
def ctxOf (ln : ℚ → ℚ) (i : SniiIndexInput) (tp : Emitted) : ScorerContext :=
  ScorerContext.make ln i.docCount tp.postings.docids.length

/-- The postings of a written term, scored. -/
def scoredTerm (ln : ℚ → ℚ) (params : Bm25Params) (i : SniiIndexInput) (tp : Emitted) :
    List TermPosting :=
  scorePostings (ctxOf ln i tp) (avgdlOf i) params i.encodedNorms tp.postings.docids
    tp.postings.freqs

section Scores

variable {ctx : ScorerContext} {avgdl : ℚ} {params : Bm25Params} {norms : Bytes}
  {docids freqs : List Nat}

/-- Scoring keeps the documents. -/
theorem map_docid_scorePostings (h : freqs.length = docids.length) :
    (scorePostings ctx avgdl params norms docids freqs).map TermPosting.docid = docids := by
  rw [scorePostings, ← List.map_uncurry_zip_eq_zipWith, List.map_map]
  exact List.map_fst_zip h.ge

/-- One score a document. -/
theorem length_scorePostings (h : freqs.length = docids.length) :
    (scorePostings ctx avgdl params norms docids freqs).length = docids.length := by
  rw [scorePostings, List.length_zipWith, h, Nat.min_self]

/-- A scored posting is a document with a frequency. -/
theorem mem_scorePostings {p : TermPosting}
    (h : p ∈ scorePostings ctx avgdl params norms docids freqs) :
    p.docid ∈ docids ∧ ∃ tf ∈ freqs,
      p.score = ctx.score tf (norms.getD p.docid 0).toNat avgdl params := by
  rw [scorePostings, ← List.map_uncurry_zip_eq_zipWith] at h
  obtain ⟨⟨d, tf⟩, hmem, rfl⟩ := List.mem_map.mp h
  obtain ⟨hd, htf⟩ := List.of_mem_zip hmem
  exact ⟨hd, tf, htf, rfl⟩

/-- Windows are scored one by one. -/
theorem scorePostings_flatMap {vs : List Window} (h : ∀ v ∈ vs, v.freqs.length = v.docs.length) :
    scorePostings ctx avgdl params norms (vs.flatMap Window.docs) (vs.flatMap Window.freqs) =
      vs.flatMap fun v => scorePostings ctx avgdl params norms v.docs v.freqs := by
  induction vs with
  | nil => rfl
  | cons v vs ih =>
      have hrest := ih fun u hu => h u (List.mem_cons_of_mem _ hu)
      rw [scorePostings] at hrest ⊢
      rw [List.flatMap_cons, List.flatMap_cons, List.flatMap_cons,
        List.zipWith_append (h v List.mem_cons_self).symm, hrest]
      rfl

/-- **Scoring** succeeds where every document has its norm. -/
theorem scoreDecoded_ok {p : SniiStatsProvider} (hlen : freqs.length = docids.length)
    (hnorms : ∀ d ∈ docids, p.encodedNorm d = .ok (norms.getD d 0)) :
    scoreDecoded p ctx params docids freqs =
      .ok (scorePostings ctx p.avgdl params norms docids freqs) := by
  induction docids generalizing freqs with
  | nil => rfl
  | cons d docids ih =>
      cases freqs with
      | nil => cases hlen
      | cons tf freqs =>
          have hrest := ih (Nat.succ.inj hlen) fun e he => hnorms e (List.mem_cons_of_mem _ he)
          rw [scoreDecoded, hnorms d List.mem_cons_self, ok_bind, List.tail_cons, hrest]
          rfl

/-- Scoring succeeds if every document has a norm. -/
theorem scoreDecoded_total {p : SniiStatsProvider}
    (h : ∀ d ∈ docids, ∃ norm, p.encodedNorm d = .ok norm) :
    ∃ ps, scoreDecoded p ctx params docids freqs = .ok ps := by
  induction docids generalizing freqs with
  | nil => exact ⟨[], rfl⟩
  | cons d docids ih =>
      obtain ⟨norm, hnorm⟩ := h d List.mem_cons_self
      obtain ⟨ps, hps⟩ := @ih freqs.tail fun e he => h e (List.mem_cons_of_mem _ he)
      rw [scoreDecoded, hnorm, ok_bind, hps]
      exact ⟨_, rfl⟩

/-- Scoring stops at a document without a norm. -/
theorem scoreDecoded_error {p : SniiStatsProvider} {status : Status}
    (h : ∃ d ∈ docids, p.encodedNorm d = .error status)
    (hall : ∀ d ∈ docids, ∀ s, p.encodedNorm d = .error s → s = status) :
    scoreDecoded p ctx params docids freqs = .error status := by
  induction docids generalizing freqs with
  | nil =>
      obtain ⟨d, hd, -⟩ := h
      cases hd
  | cons d docids ih =>
      rw [scoreDecoded]
      cases hnorm : p.encodedNorm d with
      | error s =>
          rw [hall d List.mem_cons_self s hnorm]
          rfl
      | ok norm =>
          have hrest : ∃ e ∈ docids, p.encodedNorm e = .error status := by
            obtain ⟨e, he, herror⟩ := h
            rcases List.mem_cons.mp he with rfl | he
            · rw [hnorm] at herror
              cases herror
            · exact ⟨e, he, herror⟩
          rw [ok_bind, ih hrest fun e he => hall e (List.mem_cons_of_mem _ he)]
          rfl

end Scores

/-! ## Bounds of blocks -/

/-- A window's bound over the postings of the window. -/
structure Bounds (b : WindowBound) (blk : List TermPosting) : Prop where
  last : blk.getLast?.map TermPosting.docid = some b.lastDocid
  covers : ∀ p ∈ blk, p.score ≤ b.maxScore

section Blocks

variable {bs : List WindowBound} {blocks : List (List TermPosting)}

/-- A window's documents end at its last docid. -/
theorem Bounds.docid_le {b : WindowBound} {blk : List TermPosting} (h : Bounds b blk)
    (hasc : blk.Pairwise fun p q => p.docid < q.docid) {p : TermPosting} (hp : p ∈ blk) :
    p.docid ≤ b.lastDocid := by
  obtain ⟨last, hlast, hdocid⟩ := Option.map_eq_some_iff.mp h.last
  obtain ⟨init, rfl⟩ := List.getLast?_eq_some_iff.mp hlast
  rw [← hdocid]
  rcases List.mem_append.mp hp with hp | hp
  · exact ((List.pairwise_append.mp hasc).2.2 p hp last List.mem_cons_self).le
  · rw [List.mem_singleton.mp hp]

/-- The last document of a bound is one of its block. -/
theorem Bounds.exists_last {b : WindowBound} {blk : List TermPosting} (h : Bounds b blk) :
    ∃ p ∈ blk, p.docid = b.lastDocid := by
  obtain ⟨last, hlast, hdocid⟩ := Option.map_eq_some_iff.mp h.last
  exact ⟨last, List.mem_of_getLast? hlast, hdocid⟩

/-- The windows of ascending postings ascend. -/
theorem bounds_ascending (h : List.Forall₂ Bounds bs blocks)
    (hasc : blocks.flatten.Pairwise fun p q => p.docid < q.docid) :
    bs.Pairwise fun v w => v.lastDocid < w.lastDocid := by
  induction h with
  | nil => exact List.Pairwise.nil
  | @cons b blk bs blocks hb hrest ih =>
      obtain ⟨-, htail, hcross⟩ := List.pairwise_append.mp hasc
      obtain ⟨p, hp, hlast⟩ := hb.exists_last
      refine List.pairwise_cons.mpr ⟨fun w hw => ?_, ih htail⟩
      obtain ⟨blk', hblk', hw'⟩ := exists_right_of_mem hrest hw
      obtain ⟨q, hq, hlast'⟩ := hw'.exists_last
      rw [← hlast, ← hlast']
      exact hcross p hp q (List.mem_flatten.mpr ⟨blk', hblk', hq⟩)

/-- The first bound that reaches a document is that of its block. -/
theorem bounds_cover (h : List.Forall₂ Bounds bs blocks)
    (hasc : blocks.flatten.Pairwise fun p q => p.docid < q.docid) {p : TermPosting}
    (hp : p ∈ blocks.flatten) :
    ∃ w, bs.find? (fun w => p.docid ≤ w.lastDocid) = some w ∧ p.score ≤ w.maxScore := by
  induction h with
  | nil => cases hp
  | @cons b blk bs blocks hb _ ih =>
      obtain ⟨hblk, htail, hcross⟩ := List.pairwise_append.mp hasc
      rcases List.mem_append.mp hp with hp | hp
      · have hle := hb.docid_le hblk hp
        exact ⟨b, List.find?_cons_of_pos (decide_eq_true hle), hb.covers p hp⟩
      · obtain ⟨last, hlast, hdocid⟩ := hb.exists_last
        have hlt := hcross last hlast p hp
        rw [List.find?_cons_of_neg (by simp only [decide_eq_true_eq]; omega)]
        exact ih htail hp

/-- **Bounds window by window** make a well-bounded cursor. -/
theorem wellBounded_of_bounds (h : List.Forall₂ Bounds bs blocks)
    (hasc : blocks.flatten.Pairwise fun p q => p.docid < q.docid)
    (hrange : ∀ p ∈ blocks.flatten, p.docid < uint32Max)
    (hscores : ∀ p ∈ blocks.flatten, 0 ≤ p.score) :
    TermCursor.WellBounded { postings := blocks.flatten, windows := bs } := by
  constructor
  case ascending => exact hasc
  case inRange => exact hrange
  case scoreNonneg => exact hscores
  case windowsAscending => exact bounds_ascending h hasc
  case covered => exact fun p hp => bounds_cover h hasc hp

end Blocks

/-- The fold of the fallback window reaches every score. -/
theorem le_foldl_max (ps : List TermPosting) (m : ℚ) :
    m ≤ ps.foldl (fun m p => max m p.score) m ∧
      ∀ p ∈ ps, p.score ≤ ps.foldl (fun m p => max m p.score) m := by
  induction ps generalizing m with
  | nil => exact ⟨le_refl m, fun p hp => by cases hp⟩
  | cons q ps ih =>
      obtain ⟨hle, hall⟩ := ih (max m q.score)
      rw [List.foldl_cons]
      refine ⟨(le_max_left _ _).trans hle, fun p hp => ?_⟩
      rcases List.mem_cons.mp hp with rfl | hp
      · exact (le_max_right _ _).trans hle
      · exact hall p hp

/-- One window over everything bounds it. -/
theorem singleWindowFallback_bounds {ps : List TermPosting} (hne : ps ≠ []) :
    ∃ b, singleWindowFallback ps = [b] ∧ Bounds b ps := by
  obtain ⟨first, rest, rfl⟩ := List.exists_cons_of_ne_nil hne
  rw [singleWindowFallback, List.head?_cons, List.getLast?_eq_some_getLast hne]
  refine ⟨_, rfl, ?_⟩
  constructor
  case last => rw [List.getLast?_eq_some_getLast hne, Option.map_some]
  case covers => exact (le_foldl_max _ 0).2

/-! ## Sound scores -/

/-- Parameters under which no score is negative and every bound is valid. -/
structure Sane (ln : ℚ → ℚ) (params : Bm25Params) : Prop where
  ln : ∀ x, 1 ≤ x → 0 ≤ ln x
  k1 : 0 ≤ params.k1
  bNonneg : 0 ≤ params.b
  bLe : params.b ≤ 1

/-- Sane parameters make a sound scorer. -/
theorem Sane.sound {ln : ℚ → ℚ} {params : Bm25Params} (h : Sane ln params) {n df : Nat}
    (hle : df ≤ n) {avgdl : ℚ} (havg : 0 < avgdl) :
    Sound (ScorerContext.make ln n df) avgdl params := by
  have hcast : (df : ℚ) ≤ n := by exact_mod_cast hle
  have hdf : (0 : ℚ) ≤ df := Nat.cast_nonneg df
  constructor
  case idf =>
    apply h.ln
    have hratio : 0 ≤ ((n : ℚ) - df + 1 / 2) / (df + 1 / 2) :=
      div_nonneg (by linarith) (by linarith)
    linarith
  case k1 => exact h.k1
  case bNonneg => exact h.bNonneg
  case bLe => exact h.bLe
  case avgdl => exact havg

/-- A sound scorer gives no negative score. -/
theorem score_nonneg_of_sound {ctx : ScorerContext} {avgdl : ℚ} {params : Bm25Params}
    (h : Sound ctx avgdl params) (tf norm : Nat) : 0 ≤ ctx.score tf norm avgdl params := by
  have hzero : ctx.score 0 norm avgdl params = 0 := by
    rw [score_eq, Nat.cast_zero, zero_mul, mul_zero, zero_div]
  rw [← hzero]
  exact score_mono h (Nat.zero_le tf) (Nat.le_refl norm)

/-- Ascending documents below a count are no more than it. -/
theorem length_le_of_ascending {docids : List Nat} {n : Nat} (hasc : Ascending docids)
    (hlt : ∀ d ∈ docids, d < n) : docids.length ≤ n := by
  have hsub : docids ⊆ List.range n := fun d hd => List.mem_range.mpr (hlt d hd)
  have hnodup : docids.Nodup := hasc.imp fun h => h.ne
  have hle := (List.subperm_of_subset hnodup hsub).length_le
  rwa [List.length_range] at hle

/-! ## Sources of written terms -/

/-- A window of a written term, known with its scores. -/
def windowSource (ctx : ScorerContext) (avgdl : ℚ) (params : Bm25Params) (norms : Bytes)
    (m : WindowMeta) (v : Window) : WindowData :=
  { windowDataOf ctx avgdl params m with
    postings := scorePostings ctx avgdl params norms v.docs v.freqs }

/-- A window without its postings. -/
def bare (d : WindowData) : WindowData := { d with postings := [] }

/-- Bounds do not look at postings. -/
theorem buildWindowBounds_bare (ws : List WindowData) :
    buildWindowBounds (ws.map bare) = buildWindowBounds ws := by
  rw [buildWindowBounds, buildWindowBounds, List.zipIdx_map, List.filterMap_map]
  rfl

/-- A lazy cursor is built from the rows alone, apart from its reads. -/
theorem ofLazy_bare (ws : List WindowData) (fetch : Nat → Nat → Result (List TermPosting)) :
    ({ ofLazy (ScoringQuery.buildLazyWindowed (ws.map bare)) with fetch := fetch } :
        FetchingCursor) =
      { ofLazy (ScoringQuery.buildLazyWindowed ws) with fetch := fetch } := by
  have hcounts : (ws.map bare).map WindowData.docCount = ws.map WindowData.docCount := by
    rw [List.map_map]
    rfl
  simp only [ofLazy, ScoringQuery.buildLazyWindowed, buildWindowBounds_bare, hcounts]

/-- The bounds of a truthful prelude are those of the windows. -/
theorem bounds_of_truthful {ws : List WindowData} (htrue : ∀ d ∈ ws, d.Truthful)
    (hcovers : ∀ d ∈ ws, ∀ p ∈ d.postings, p.score ≤ d.maxScore) :
    List.Forall₂ Bounds (buildWindowBounds ws) (ws.map WindowData.postings) := by
  have hlen : (buildWindowBounds ws).length = ws.length := by
    have hlasts := congrArg List.length (buildWindowBounds_lastDocid htrue)
    rwa [List.length_map, List.length_map] at hlasts
  apply forall₂_of_getElem? (by rw [hlen, List.length_map])
  intro w b blk hb hblk
  rw [List.getElem?_map] at hblk
  obtain ⟨d, hd, rfl⟩ := Option.map_eq_some_iff.mp hblk
  obtain ⟨b', hb', hlast, hmax⟩ := buildWindowBounds_getElem?
    (fun d hd => (htrue d hd).docCount_ne_zero) hd
  rw [hb] at hb'
  cases hb'
  have hmem := List.mem_of_getElem? hd
  constructor
  case last => rw [hlast, (htrue d hmem).lastDocid]
  case covers => exact fun p hp => hmax ▸ hcovers d hmem p hp

/-- What the row of a window says of it. -/
structure RowOf (c : EntryConfig) (v : Window) (m : WindowMeta) : Prop where
  last : m.lastDocid = v.last
  docCount : m.docCount = v.docs.length % 2 ^ 32
  maxFreq : m.maxFreq = maxOf v.freqs
  maxNorm : m.maxNorm = windowMaxNorm c.norms v.docs

/-- Each window has its row of the prelude. -/
theorem rows_of (c : EntryConfig) (winBase ddOff freqOff prxOff : Nat) (vs : List Window) :
    List.Forall₂ (RowOf c) vs (rows c winBase ddOff freqOff prxOff vs) := by
  induction vs generalizing winBase ddOff freqOff prxOff with
  | nil => exact .nil
  | cons v vs ih => exact .cons ⟨rfl, rfl, rfl, rfl⟩ (ih _ _ _ _)

/-- The windows of a written term, known with their scores. -/
def windowSources (c : EntryConfig) (ctx : ScorerContext) (avgdl : ℚ) (params : Bm25Params)
    (vs : List Window) : List WindowData :=
  List.zipWith (windowSource ctx avgdl params c.norms) (rows c 0 0 0 0 vs) vs

section Sources

variable {c : EntryConfig} {ctx : ScorerContext} {avgdl : ℚ} {params : Bm25Params}
  {vs : List Window}

/-- A source is a window with its row. -/
theorem mem_windowSources {d : WindowData} (h : d ∈ windowSources c ctx avgdl params vs) :
    ∃ v ∈ vs, ∃ m, RowOf c v m ∧ d = windowSource ctx avgdl params c.norms m v := by
  rw [windowSources, ← List.map_uncurry_zip_eq_zipWith] at h
  obtain ⟨⟨m, v⟩, hmem, rfl⟩ := List.mem_map.mp h
  have hrow := (List.forall₂_iff_zip.mp (rows_of c 0 0 0 0 vs).flip).2 hmem
  exact ⟨v, (List.of_mem_zip hmem).2, m, hrow, rfl⟩

theorem windowSources_bare : (windowSources c ctx avgdl params vs).map bare =
    (rows c 0 0 0 0 vs).map (windowDataOf ctx avgdl params) := by
  rw [windowSources, ← List.map_uncurry_zip_eq_zipWith, List.map_map]
  have hlen : (rows c 0 0 0 0 vs).length ≤ vs.length := by rw [length_rows]
  have hfst := congrArg (List.map (windowDataOf ctx avgdl params)) (List.map_fst_zip hlen)
  rw [List.map_map] at hfst
  exact hfst

/-- Its postings are the scored documents of the window. -/
theorem windowSources_postings : (windowSources c ctx avgdl params vs).map WindowData.postings =
    vs.map fun v => scorePostings ctx avgdl params c.norms v.docs v.freqs := by
  rw [windowSources, ← List.map_uncurry_zip_eq_zipWith, List.map_map]
  have hlen : vs.length ≤ (rows c 0 0 0 0 vs).length := by rw [length_rows]
  have hsnd := congrArg (List.map fun v : Window =>
    scorePostings ctx avgdl params c.norms v.docs v.freqs) (List.map_snd_zip hlen)
  rw [List.map_map] at hsnd
  exact hsnd

/-- **The rows of a written prelude** state the truth. -/
theorem windowSources_truthful (hvs : ∀ v ∈ vs, WindowOk v) :
    ∀ d ∈ windowSources c ctx avgdl params vs, d.Truthful := by
  intro d hd
  obtain ⟨v, hv, m, hrow, rfl⟩ := mem_windowSources hd
  have hok := hvs v hv
  have hlen := @length_scorePostings ctx avgdl params c.norms v.docs v.freqs hok.lengths
  constructor
  case nonempty =>
    apply List.ne_nil_of_length_pos
    have hpos := List.length_pos_iff.mpr hok.pos
    simp only [windowSource, hlen]
    exact hpos
  case docCount =>
    have hcount := hok.count
    simp only [windowSource, windowDataOf, hlen, hrow.docCount]
    exact Nat.mod_eq_of_lt (by omega)
  case lastDocid =>
    have hmap := @map_docid_scorePostings ctx avgdl params c.norms v.docs v.freqs hok.lengths
    simp only [windowSource, windowDataOf]
    rw [← List.getLast?_map, hmap, hrow.last, Window.last, List.getLastD_eq_getLast?,
      List.getLast?_eq_some_getLast hok.pos]
    rfl

/-- **No posting** scores above the bound of its window. -/
theorem windowSources_covers (h : Sound ctx avgdl params)
    (hnorms : ∀ v ∈ vs, ∀ d ∈ v.docs, d < c.norms.length) :
    ∀ d ∈ windowSources c ctx avgdl params vs, ∀ p ∈ d.postings, p.score ≤ d.maxScore := by
  intro d hd p hp
  obtain ⟨v, hv, m, hrow, rfl⟩ := mem_windowSources hd
  obtain ⟨hdoc, tf, htf, hscore⟩ := mem_scorePostings hp
  have hlt := hnorms v hv p.docid hdoc
  have hnorm : scoringNorm c.norms p.docid = some (c.norms.getD p.docid 0).toNat := by
    rw [scoringNorm, if_neg (List.ne_nil_of_length_pos (by omega)),
      List.getD_eq_getElem?_getD, List.getElem?_eq_getElem hlt]
    rfl
  rw [hscore]
  apply score_mono h
  · rw [hrow.maxFreq]
    exact le_maxOf htf
  · rw [hrow.maxNorm]
    exact windowMaxNorm_le hdoc hnorm

end Sources

/-! ## Terms of a written index -/

section Written

variable {env : BuildEnv} {renv : ReadEnv} {ln : ℚ → ℚ} {params : Bm25Params}
  {idx : LogicalIndexReader} {p : SniiStatsProvider} {i : SniiIndexInput} {tp : Emitted}
  {r : Resolved}

/-- The provider's average length is that of the input. -/
theorem avgdl_of_reports (h : ProviderReports renv p i) : p.avgdl = avgdlOf i := by
  rw [SniiStatsProvider.avgdl, avgdlOf, h.sumTotalTermFreq, h.indexedDocCount]

/-- And its norms are the input's. -/
theorem norm_of_reports (h : ProviderReports renv p i) (hscored : i.hasNorms = true) {d : Nat}
    (hd : d < i.docCount) : p.encodedNorm d = .ok (i.encodedNorms.getD d 0) := by
  obtain ⟨hlen, hnorms⟩ := h.norms hscored
  rw [← hlen] at hd
  rw [hnorms, normAt, List.getElem?_eq_getElem hd, List.getD_eq_getElem?_getD,
    List.getElem?_eq_getElem hd]
  rfl

/-- A found term as the loops of the queries see it. -/
structure EntrySource (renv : ReadEnv) (ln : ℚ → ℚ) (params : Bm25Params)
    (idx : LogicalIndexReader) (p : SniiStatsProvider) (i : SniiIndexInput) (tp : Emitted)
    (r : Resolved) (src : ScoringQuery.TermSource) : Prop where
  ok : src.Ok
  postings : src.postings = scoredTerm ln params i tp
  eager : ∃ c, entryCursor renv ln params idx p r = .ok c ∧
    ScoringQuery.buildCursor src = .ok (some c) ∧
      (Sane ln params → 0 < avgdlOf i → c.WellBounded) ∧
        (tp.postings.docids.length < kSlimDfThreshold → c.NonIncreasing)
  lazy : ∃ c, entryLazyCursor renv ln params idx p r = .ok (ofLazy c) ∧
    ScoringQuery.buildLazyCursor src = some c

/-- A found term of an index with frequencies. -/
structure Readable (env : BuildEnv) (renv : ReadEnv) (idx : LogicalIndexReader)
    (p : SniiStatsProvider) (i : SniiIndexInput) (tp : Emitted) (r : Resolved) : Prop where
  found : Found env idx i tp r
  zstd : renv.zstd = env.zstd
  reports : ProviderReports renv p i
  hasFreq : i.hasFreq = true
  size : idx.file.length < 2 ^ 64

/-- A found term whose documents have their norms. -/
structure Scorable (env : BuildEnv) (renv : ReadEnv) (idx : LogicalIndexReader)
    (p : SniiStatsProvider) (i : SniiIndexInput) (tp : Emitted) (r : Resolved) : Prop
    extends Readable env renv idx p i tp r where
  scored : i.hasNorms = true
  count : i.docCount < 2 ^ 32
  docs : ∀ d ∈ tp.postings.docids, d < i.docCount

/-- Scored indexes have frequencies. -/
theorem hasFreq_of_hasNorms (h : i.hasNorms = true) : i.hasFreq = true := by
  have hconfig : i.config = .docsPositionsScoring := by
    simpa [SniiIndexInput.hasNorms, hasScoring] using h
  simp [SniiIndexInput.hasFreq, SniiIndexInput.tier, hconfig, tierOf]

namespace Readable

theorem ctx (h : Readable env renv idx p i tp r) :
    ScorerContext.make ln p.indexedDocCount r.entry.df = ctxOf ln i tp := by
  rw [ctxOf, h.reports.indexedDocCount, h.found.df]

/-- What is read of the term is what was written of it. -/
theorem buildCursorPostings_eq (h : Readable env renv idx p i tp r) :
    buildCursorPostings renv.zstd idx r = .ok (tp.postings.docids, tp.postings.freqs) := by
  rw [h.zstd]
  exact buildCursorPostings_ok h.found.entry h.found.widths h.found.lengths h.hasFreq h.size

/-- A cursor is built where every document of the term has a norm. -/
theorem entryCursor_total (h : Readable env renv idx p i tp r)
    (hnorms : ∀ d ∈ tp.postings.docids, ∃ norm, p.encodedNorm d = .ok norm) :
    ∃ c, entryCursor renv ln params idx p r = .ok c := by
  obtain ⟨ps, hps⟩ := @scoreDecoded_total (ctxOf ln i tp) params tp.postings.docids
    tp.postings.freqs p hnorms
  rw [entryCursor, h.buildCursorPostings_eq, ok_bind]
  simp only [h.ctx]
  rw [hps]
  exact ⟨_, rfl⟩

theorem entryCursor_error (h : Readable env renv idx p i tp r) {status : Status}
    (hbad : ∃ d ∈ tp.postings.docids, p.encodedNorm d = .error status)
    (hall : ∀ d s, p.encodedNorm d = .error s → s = status) :
    entryCursor renv ln params idx p r = .error status := by
  rw [entryCursor, h.buildCursorPostings_eq, ok_bind]
  simp only
  rw [scoreDecoded_error hbad fun d _ => hall d]
  rfl

end Readable

namespace Scorable

theorem norms (h : Scorable env renv idx p i tp r) : ∀ d ∈ tp.postings.docids,
    p.encodedNorm d = .ok (i.encodedNorms.getD d 0) :=
  fun d hd => norm_of_reports h.reports h.scored (h.docs d hd)

theorem sound (h : Scorable env renv idx p i tp r) (hsane : Sane ln params)
    (havg : 0 < avgdlOf i) : Sound (ctxOf ln i tp) (avgdlOf i) params :=
  hsane.sound (length_le_of_ascending h.found.ascending h.docs) havg

/-- The postings of the term, scored. -/
theorem scored_ascending (h : Scorable env renv idx p i tp r) :
    (scoredTerm ln params i tp).Pairwise fun a b => a.docid < b.docid := by
  have hmap := @map_docid_scorePostings (ctxOf ln i tp) (avgdlOf i) params i.encodedNorms
    tp.postings.docids tp.postings.freqs h.found.lengths
  have hasc : ((scoredTerm ln params i tp).map TermPosting.docid).Pairwise (· < ·) := by
    rw [scoredTerm, hmap]
    exact h.found.ascending
  exact List.pairwise_map.mp hasc

/-- A scored term has fewer than 2³² postings. -/
theorem scored_length (h : Scorable env renv idx p i tp r) :
    (scoredTerm ln params i tp).length < 2 ^ 32 := by
  rw [scoredTerm, length_scorePostings h.found.lengths]
  exact h.found.widths.count

/-- None of them is the end marker. -/
theorem scored_inRange (h : Scorable env renv idx p i tp r) :
    ∀ a ∈ scoredTerm ln params i tp, a.docid < uint32Max := by
  intro a ha
  have hlt := h.docs a.docid (mem_scorePostings ha).1
  have hcount := h.count
  rw [uint32Max]
  omega

/-- None has a negative score. -/
theorem scored_nonneg (h : Scorable env renv idx p i tp r) (hsane : Sane ln params)
    (havg : 0 < avgdlOf i) : ∀ a ∈ scoredTerm ln params i tp, 0 ≤ a.score := by
  intro a ha
  obtain ⟨-, tf, -, hscore⟩ := mem_scorePostings ha
  rw [hscore]
  exact score_nonneg_of_sound (h.sound hsane havg) tf _

/-- The documents of the term are scored as they were written. -/
theorem scoreDecoded_eq (h : Scorable env renv idx p i tp r) :
    scoreDecoded p (ctxOf ln i tp) params tp.postings.docids tp.postings.freqs =
      .ok (scoredTerm ln params i tp) := by
  rw [scoreDecoded_ok h.found.lengths h.norms, avgdl_of_reports h.reports]
  rfl

/-- **A slim term** is one block. -/
theorem slimSource (h : Scorable env renv idx p i tp r)
    (hnot : ¬ (r.entry.kind = .podRef ∧ r.entry.enc = .windowed)) :
    EntrySource renv ln params idx p i tp r (.slim (scoredTerm ln params i tp)) := by
  have hread := h.buildCursorPostings_eq
  have hscore := @scoreDecoded_eq env renv ln params idx p i tp r h
  constructor
  case ok => exact ⟨h.scored_ascending, h.scored_length, fun ws hws => by cases hws⟩
  case postings => rfl
  case eager =>
    refine ⟨_, ?_, rfl, fun hsane havg => ?_, fun _ => ?_⟩
    · rw [entryCursor, hread, ok_bind]
      simp only [h.ctx]
      rw [hscore, ok_bind]
      simp only [if_neg hnot, if_true]
      rfl
    · rcases eq_or_ne (scoredTerm ln params i tp) [] with hnil | hne
      · rw [hnil]
        exact @wellBounded_of_bounds [] [] .nil .nil (fun a ha => by cases ha)
          fun a ha => by cases ha
      · obtain ⟨b, hb, hbounds⟩ := singleWindowFallback_bounds hne
        have hflat : [scoredTerm ln params i tp].flatten = scoredTerm ln params i tp := by simp
        have hwell := @wellBounded_of_bounds [b] [scoredTerm ln params i tp] (.cons hbounds .nil)
        rw [hflat] at hwell
        rw [hb]
        exact hwell h.scored_ascending h.scored_inRange (h.scored_nonneg hsane havg)
    · rw [TermCursor.NonIncreasing]
      rcases eq_or_ne (scoredTerm ln params i tp) [] with hnil | hne
      · rw [hnil]
        exact List.Pairwise.nil
      · obtain ⟨b, hb, -⟩ := singleWindowFallback_bounds hne
        rw [hb]
        exact List.pairwise_singleton _ _
  case lazy =>
    refine ⟨_, ?_, rfl⟩
    rw [buildCursorPostings, if_neg hnot] at hread
    rw [entryLazyCursor]
    simp only [if_neg hnot, h.ctx]
    rw [IndexCursors.buildLazySlim, hread, ok_bind]
    simp only
    rw [hscore]
    rfl

/-! ### A windowed term -/

variable {vs : List Window} {prelude : Bytes}

/-- The windows hold the term's postings. -/
theorem windows_flatten (h : Scorable env renv idx p i tp r)
    (hterm : Windowed env.zstd i.entryConfig tp vs prelude) (hvs : ∀ v ∈ vs, WindowOk v) :
    ((windowSources i.entryConfig (ctxOf ln i tp) (avgdlOf i) params vs).map
        WindowData.postings).flatten = scoredTerm ln params i tp := by
  obtain ⟨hdocs, hfreqs⟩ := hterm.windows h.found.lengths
  have hunit := unitOf_bounds tp.postings
  rw [windowSources_postings, ← List.flatMap_def,
    ← scorePostings_flatMap fun v hv => (hvs v hv).lengths, List.flatMap_def, hdocs,
    List.flatMap_def, hfreqs, Lib.Chunks.flatten_chunks (by omega),
    Lib.Chunks.flatten_chunks (by omega)]
  rfl

/-- The documents of a window are documents of the index. -/
theorem docs_of_window (h : Scorable env renv idx p i tp r)
    (hterm : Windowed env.zstd i.entryConfig tp vs prelude) {v : Window} (hv : v ∈ vs) :
    ∀ d ∈ v.docs, d < i.docCount := by
  intro d hd
  obtain ⟨hdocs, -⟩ := hterm.windows h.found.lengths
  have hmem : v.docs ∈ vs.map Window.docs := List.mem_map_of_mem hv
  rw [hdocs] at hmem
  exact h.docs d (Lib.Chunks.mem_of_mem_chunks hmem hd)

/-- The prelude of a written term is fetched whole. -/
theorem fetchPrelude_ok {c : EntryConfig} (h : WindowedAt c idx r vs prelude) :
    fetchPrelude idx r.entry r.frqBase = .ok (readerOf (columns c vs)) := by
  have hok := fetchWindowedPrelude_ok h
  have hpos := h.prelude_pos
  have hle := h.preludeLen_le
  rw [fetchWindowedPrelude, if_neg (by rw [h.preludeLen]; omega),
    if_neg (by rw [h.preludeLen]; omega)] at hok
  exact hok

/-- **The reads of the windows** are the windows known with their scores. -/
theorem fetchWindow_known (h : Scorable env renv idx p i tp r)
    (hterm : Windowed env.zstd i.entryConfig tp vs prelude)
    (hplaced : WindowedAt i.entryConfig idx r vs prelude) :
    fetchWindow renv (ctxOf ln i tp) params idx p r (readerOf (columns i.entryConfig vs)) =
      fetchKnown (windowSources i.entryConfig (ctxOf ln i tp) (avgdlOf i) params vs) := by
  funext w count
  rw [fetchWindow, fetchKnown]
  have hlen : (rows i.entryConfig 0 0 0 0 vs).length = vs.length := length_rows 0 0 0 0
  cases hv : vs[w]? with
  | none =>
      have hout := List.getElem?_eq_none_iff.mp hv
      have hrow : (readerOf (columns i.entryConfig vs)).windows[w]? = none :=
        List.getElem?_eq_none (by rw [← hlen] at hout; exact hout)
      have hsource : (windowSources i.entryConfig (ctxOf ln i tp) (avgdlOf i) params vs)[w]? =
          none := by
        apply List.getElem?_eq_none
        rw [windowSources, List.length_zipWith, hlen, Nat.min_self]
        exact hout
      rw [hsource, materializeWindowPostings, FrqPreludeReader.window, hrow]
      rfl
  | some v =>
      have hmem := List.mem_of_getElem? hv
      have hok := hplaced.windows v hmem
      obtain ⟨m, hm, hrow⟩ := getElem?_of_forall₂ (rows_of i.entryConfig 0 0 0 0 vs) hv
      have hsource : (windowSources i.entryConfig (ctxOf ln i tp) (avgdlOf i) params vs)[w]? =
          some (windowSource (ctxOf ln i tp) (avgdlOf i) params i.encodedNorms m v) := by
        rw [windowSources, List.getElem?_zipWith, hm, hv]
        rfl
      have htrue := windowSources_truthful hplaced.windows _ (List.mem_of_getElem? hsource)
      have hdocs := h.docs_of_window hterm hmem
      have hnorms : ∀ d ∈ v.docs, p.encodedNorm d = .ok (i.encodedNorms.getD d 0) :=
        fun d hd => norm_of_reports h.reports h.scored (hdocs d hd)
      have hscore := @scoreDecoded_ok (ctxOf ln i tp) params i.encodedNorms v.docs v.freqs p
        hok.lengths hnorms
      have hcount := @length_scorePostings (ctxOf ln i tp) (avgdlOf i) params i.encodedNorms
        v.docs v.freqs hok.lengths
      rw [hsource, materializeWindowPostings_ok hplaced h.hasFreq hv]
      simp only
      rw [decodeWindow_truthful htrue, ok_bind, ok_bind]
      simp only [windowSource, hcount]
      by_cases hdrift : v.docs.length ≠ count
      · rw [if_pos hdrift, if_pos hdrift]
      · rw [if_neg hdrift, if_neg hdrift, hscore, avgdl_of_reports h.reports]

/-- The cursor of a windowed term. -/
def windowedCursor (ln : ℚ → ℚ) (params : Bm25Params) (i : SniiIndexInput) (tp : Emitted)
    (vs : List Window) : TermCursor :=
  let bounds := buildWindowBounds
    (windowSources i.entryConfig (ctxOf ln i tp) (avgdlOf i) params vs)
  { postings := scoredTerm ln params i tp
    windows := if bounds = [] then singleWindowFallback (scoredTerm ln params i tp) else bounds }

/-- No posting of a windowed term scores above the bound of its window. -/
theorem windowedCursor_wellBounded (h : Scorable env renv idx p i tp r)
    (hterm : Windowed env.zstd i.entryConfig tp vs prelude) (hvs : ∀ v ∈ vs, WindowOk v)
    (hsane : Sane ln params) (havg : 0 < avgdlOf i) :
    (windowedCursor ln params i tp vs).WellBounded := by
  have hflat := @windows_flatten env renv ln params idx p i tp r vs prelude h hterm hvs
  have hnorms : ∀ v ∈ vs, ∀ d ∈ v.docs, d < i.entryConfig.norms.length := by
    intro v hv d hd
    show d < i.encodedNorms.length
    rw [(h.reports.norms h.scored).1]
    exact h.docs_of_window hterm hv d hd
  have hcovers := windowSources_covers (h.sound hsane havg) hnorms
  have hbounds := bounds_of_truthful (windowSources_truthful hvs) hcovers
  have hwell := wellBounded_of_bounds hbounds
  rw [hflat] at hwell
  have hall := hwell h.scored_ascending h.scored_inRange (h.scored_nonneg hsane havg)
  rw [windowedCursor]
  by_cases hnil : buildWindowBounds
      (windowSources i.entryConfig (ctxOf ln i tp) (avgdlOf i) params vs) = []
  · have hempty : scoredTerm ln params i tp = [] := by
      rw [hnil] at hbounds
      rw [← hflat, List.forall₂_nil_left_iff.mp hbounds, List.flatten_nil]
    rw [hnil, hempty] at hall
    simp only [if_pos hnil, hempty]
    exact hall
  · simp only [if_neg hnil]
    exact hall

/-- **A windowed term** is the list of its windows. -/
theorem windowedSource (h : Scorable env renv idx p i tp r)
    (hterm : Windowed env.zstd i.entryConfig tp vs prelude)
    (hplaced : WindowedAt i.entryConfig idx r vs prelude) :
    EntrySource renv ln params idx p i tp r
      (.windowed (windowSources i.entryConfig (ctxOf ln i tp) (avgdlOf i) params vs)) := by
  have hread := h.buildCursorPostings_eq
  have hscore := @scoreDecoded_eq env renv ln params idx p i tp r h
  have hflat := @windows_flatten env renv ln params idx p i tp r vs prelude h hterm
    hplaced.windows
  have htrue := @windowSources_truthful i.entryConfig (ctxOf ln i tp) (avgdlOf i) params vs
    hplaced.windows
  have hbare := @windowSources_bare i.entryConfig (ctxOf ln i tp) (avgdlOf i) params vs
  have hwindowed : r.entry.kind = .podRef ∧ r.entry.enc = .windowed :=
    ⟨hplaced.kind, hplaced.enc⟩
  have hrows : (readerOf (columns i.entryConfig vs)).windows = rows i.entryConfig 0 0 0 0 vs := rfl
  have hpostings : (windowSources i.entryConfig (ctxOf ln i tp) (avgdlOf i) params vs).flatMap
      WindowData.postings = scoredTerm ln params i tp := by rw [List.flatMap_def, hflat]
  constructor
  case ok =>
    constructor
    case ascending =>
      rw [TermSource.postings, hpostings]
      exact h.scored_ascending
    case fits =>
      rw [TermSource.postings, hpostings]
      exact h.scored_length
    case truthful =>
      intro ws hws
      cases hws
      exact htrue
  case postings => exact hpostings
  case eager =>
    have hfetched : fetchedBounds idx r (ctxOf ln i tp) p.avgdl params =
        buildWindowBounds (windowSources i.entryConfig (ctxOf ln i tp) (avgdlOf i) params vs) := by
      rw [fetchedBounds, fetchPrelude_ok hplaced]
      simp only
      rw [hrows, avgdl_of_reports h.reports, ← hbare, buildWindowBounds_bare]
    refine ⟨windowedCursor ln params i tp vs, ?_, ?_, ?_, ?_⟩
    · rw [entryCursor, hread, ok_bind]
      simp only [h.ctx]
      rw [hscore, ok_bind]
      simp only [if_pos hwindowed, hfetched]
      rfl
    · rw [ScoringQuery.buildCursor, readWindowed_truthful htrue, ok_bind, hpostings]
      rfl
    · exact h.windowedCursor_wellBounded hterm hplaced.windows
    · exact fun hsmall => absurd (h.found.wide hplaced.enc) (Nat.not_le.mpr hsmall)
  case lazy =>
    refine ⟨_, ?_, rfl⟩
    rw [entryLazyCursor]
    simp only [if_pos hwindowed, h.ctx]
    rw [IndexCursors.buildLazyWindowed, fetchWindowedPrelude_ok hplaced, ok_bind]
    simp only
    rw [h.fetchWindow_known hterm hplaced, hrows, avgdl_of_reports h.reports, ← hbare, ofLazy_bare]
    rfl

/-- **Every found term** has a source. -/
theorem source (h : Scorable env renv idx p i tp r) :
    ∃ src, EntrySource renv ln params idx p i tp r src := by
  cases h.found.entry with
  | windowed vs prelude term placed => exact ⟨_, h.windowedSource term placed⟩
  | inline prx positions regions kind frq prxHere =>
      exact ⟨_, h.slimSource fun hboth => by rw [kind] at hboth; cases hboth.1⟩
  | slim prx frqAbs prxAbs positions regions kind docsLen frqRange frqHere prxRange prxHere =>
      exact ⟨_, h.slimSource fun hboth => by rw [regions.enc] at hboth; cases hboth.2⟩

end Scorable

end Written

end Snii.Query.IndexCursors
