import Snii.Query.BooleanAnd
import Snii.Query.PositionCursor

/-!
# Phrases

`phrase_query` of `phrase_query.cpp`: the candidates of the conjunction are streamed
past one position cursor a term, and a candidate matches if some position of the first
term is followed by the other terms at their offsets.
-/

namespace Snii.Query.PhraseQuery

open Snii.Lib.ByteReader Snii.Lib.Aligned Snii.Common Snii.Io.BatchRangeFetcher
open Snii.Reader Snii.Query.DocidSetOps Snii.Query.DocidUnion Snii.Query.Conjunction
open Snii.Query.PositionCursor
open Snii.Query.ScoringQuery (DocSort)
open Snii.Encoding.Compression Snii.Format.PrxPod
open Snii.Format.DictBlock (DictBlockBuilder Resolved)
open Snii.Writer.SpillRunCodec Snii.Writer.LogicalIndexWriter Snii.Writer.CompoundWriter

/-! ## Positions at offsets -/

/-- The offsets of a phrase's terms, if they have 32 bits. -/
def buildPositionOffsets (count : Nat) : Option (List Nat) :=
  if count ≥ 2 ^ 32 - 1 then none else some (List.range count)

def addPositionOffset (start offset : Nat) : Option Nat :=
  if start > 2 ^ 32 - 1 - offset then none else some (start + offset)

/-- `std::binary_search` on a sorted range: the lower bound is the value. -/
def binarySearch (xs : List Nat) (v : Nat) : Bool :=
  match xs[(xs.takeWhile fun x => decide (x < v)).length]? with
  | none => false
  | some x => !decide (v < x)

/-- The term stands at the offset from the start. -/
def standsAt (start offset : Nat) (span : List Nat) : Bool :=
  match addPositionOffset start offset with
  | none => false
  | some want => binarySearch span want

/-- The terms after the first stand at their offsets from the start. -/
def followsFrom (offsets : List Nat) (spans : List (List Nat)) (start : Nat) : Bool :=
  ((spans.zip offsets).drop 1).all fun x => standsAt start x.2 x.1

/-- A candidate whose positions hold the phrase. -/
def phraseMatch (offsets : List Nat) (d : Nat) (spans : List (List Nat)) : Option Nat :=
  if (spans.headD []).any (followsFrom offsets spans) then some d else none

/-! ## The query -/

def cursorsOver (srcs : List (List PosChunk)) : List PostingCursor :=
  srcs.map fun src => { src := src }

def emitPhraseStreaming (z : Zstd) (offsets : List Nat) (srcs : List (List PosChunk))
    (candidates : List Nat) : Result (List Nat) :=
  streamCandidates z (phraseMatch offsets) (cursorsOver srcs) candidates

/-- The plans' first round and the conjunction over it. -/
def buildPhraseExecutionState (srt : DocSort) (z : Zstd) (idx : LogicalIndexReader)
    (reqs : List Range) (plans : List TermPlan) : Result (List (List PosChunk) × List Nat) := do
  let round1 ← fetch idx.file 0 reqs
  let plans ← openPreludes round1 true plans
  buildConjunction srt z idx round1 true plans

def executePhrasePlans (srt : DocSort) (z : Zstd) (idx : LogicalIndexReader) (reqs : List Range)
    (plans : List TermPlan) : Result (List Nat) := do
  let (srcs, candidates) ← buildPhraseExecutionState srt z idx reqs plans
  if candidates = [] then pure []
  else
    match buildPositionOffsets plans.length with
    | none =>
        .error (.invalidArgument "phrase_query: phrase length exceeds doc position range")
    | some offsets => emitPhraseStreaming z offsets srcs candidates

def phraseQuery (srt : DocSort) (env : ReadEnv) (idx : LogicalIndexReader) (terms : List Bytes) :
    Result (List Nat) :=
  if terms = [] then .ok []
  else if idx.hasPositions = false then
    .error (.unsupported "phrase_query: index has no positions")
  else do
    let planned ← planTerms env idx true [] terms
    match planned with
    | none => pure []
    | some (plans, reqs) => executePhrasePlans srt env.zstd idx reqs plans

/-! ## Matching -/

theorem binarySearch_iff {xs : List Nat} (h : xs.IsChain (· ≤ ·)) (v : Nat) :
    binarySearch xs v = true ↔ v ∈ xs := by
  rw [List.isChain_iff_pairwise] at h
  induction xs with
  | nil => simp [binarySearch]
  | cons x xs ih =>
      obtain ⟨hle, hrest⟩ := List.pairwise_cons.mp h
      by_cases hlt : x < v
      · have hstep : binarySearch (x :: xs) v = binarySearch xs v := by
          rw [binarySearch, List.takeWhile_cons_of_pos (by simpa using hlt), List.length_cons,
            List.getElem?_cons_succ]
          rfl
        rw [hstep, ih hrest, List.mem_cons]
        exact ⟨.inr, fun hv => hv.resolve_left (by omega)⟩
      · rw [binarySearch, List.takeWhile_cons_of_neg (by simpa using hlt), List.length_nil,
          List.getElem?_cons_zero]
        simp only [Bool.not_eq_true', decide_eq_false_iff_not, List.mem_cons]
        constructor
        · exact fun hnot => .inl (by omega)
        · rintro (heq | hin)
          · omega
          · have := hle v hin
            omega

/-- The positions of one document, a list a term: sorted and in 32 bits. -/
structure SpansOk (spans : List (List Nat)) : Prop where
  sorted : ∀ span ∈ spans, span.IsChain (· ≤ ·)
  widths : ∀ span ∈ spans, ∀ p ∈ span, p < 2 ^ 32

variable {spans : List (List Nat)} {n : Nat}

/-- A position at an offset is found exactly if it is there, without wrapping. -/
theorem standsAt_iff {span : List Nat} (hsorted : span.IsChain (· ≤ ·))
    (hwidth : ∀ p ∈ span, p < 2 ^ 32) {start offset : Nat} :
    standsAt start offset span = true ↔ start + offset ∈ span := by
  rw [standsAt, addPositionOffset]
  by_cases hbig : start > 2 ^ 32 - 1 - offset
  · rw [if_pos hbig]
    constructor
    · exact fun h => nomatch h
    · intro hin
      have := hwidth _ hin
      omega
  · rw [if_neg hbig]
    exact binarySearch_iff hsorted _

theorem followsFrom_iff (h : SpansOk spans) (hlen : spans.length ≤ n) (start : Nat) :
    followsFrom (List.range n) spans start = true ↔
      ∀ (i : Nat) span, spans[i + 1]? = some span → start + (i + 1) ∈ span := by
  rw [followsFrom, List.all_eq_true]
  have hzip : ∀ (i : Nat) span, spans[i]? = some span →
      (spans.zip (List.range n))[i]? = some (span, i) := by
    intro i span hspan
    have hi := (List.getElem?_eq_some_iff.mp hspan).1
    rw [List.getElem?_zip_eq_some]
    exact ⟨hspan, List.getElem?_range (by omega)⟩
  constructor
  · intro hall i span hspan
    have hmem : (span, i + 1) ∈ (spans.zip (List.range n)).drop 1 := by
      apply List.mem_of_getElem? (i := i)
      rw [List.getElem?_drop, Nat.add_comm 1 i]
      exact hzip _ _ hspan
    have hin := List.mem_of_getElem? hspan
    exact (standsAt_iff (h.sorted span hin) (h.widths span hin)).mp (hall _ hmem)
  · intro hall x hx
    obtain ⟨i, hi⟩ := List.mem_iff_getElem?.mp hx
    rw [List.getElem?_drop, List.getElem?_zip_eq_some] at hi
    obtain ⟨hspan, hoffset⟩ := hi
    have hin := List.mem_of_getElem? hspan
    have hidx : x.2 = 1 + i := by
      obtain ⟨hlt, heq⟩ := List.getElem?_eq_some_iff.mp hoffset
      rw [← heq, List.getElem_range]
    rw [hidx, standsAt_iff (h.sorted _ hin) (h.widths _ hin), Nat.add_comm 1 i]
    exact hall i x.1 (by rwa [Nat.add_comm i 1])

/-- The starts of a phrase are the positions of its first term that the others follow. -/
theorem mem_starts (h : SpansOk spans) (hne : spans ≠ []) (hlen : spans.length ≤ n) (start : Nat) :
    start ∈ spans.headD [] ∧ followsFrom (List.range n) spans start = true ↔
      ∀ (i : Nat) span, spans[i]? = some span → start + i ∈ span := by
  rw [followsFrom_iff h hlen]
  obtain ⟨first, rest, rfl⟩ := List.exists_cons_of_ne_nil hne
  constructor
  · rintro ⟨hstart, hfollows⟩ i span hspan
    cases i with
    | zero =>
        cases hspan
        exact hstart
    | succ i => exact hfollows i span hspan
  · exact fun hall => ⟨hall 0 first rfl, fun i span hspan => hall (i + 1) span hspan⟩

/-- **A candidate matches** exactly if some position is followed by all terms in order,
as integers. -/
theorem phraseMatch_iff (h : SpansOk spans) (hne : spans ≠ []) (hlen : spans.length ≤ n) (d : Nat) :
    phraseMatch (List.range n) d spans = some d ↔
      ∃ p : Nat, ∀ (i : Nat) span, spans[i]? = some span → p + i ∈ span := by
  have hany : phraseMatch (List.range n) d spans = some d ↔
      (spans.headD []).any (followsFrom (List.range n) spans) = true := by
    rw [phraseMatch]
    by_cases hmatch : (spans.headD []).any (followsFrom (List.range n) spans) = true
    · rw [if_pos hmatch]
      exact ⟨fun _ => hmatch, fun _ => rfl⟩
    · rw [if_neg hmatch]
      exact ⟨fun hnone => (nomatch hnone), fun hyes => absurd hyes hmatch⟩
  rw [hany, List.any_eq_true]
  exact exists_congr fun start => mem_starts h hne hlen start

/-! ## Terms with their positions -/

variable {env : BuildEnv} {renv : ReadEnv} {idx : LogicalIndexReader} {w : BuiltIndex}
  {blocks : List DictBlockBuilder} {region : Bytes} {dictOff : Nat} {i : SniiIndexInput}

/-- A cursor over parts that a term kept. -/
theorem cursorOk_of_kept {t : Bytes} {x : TermHit} (h : x.Ok renv idx i true t)
    (hprx : i.hasPrx = true) (hfit : PositionsFit x.term) {sel : List PosChunk}
    (hsel : sel.Sublist x.chunks) :
    CursorOk renv.zstd (positionsAt x.term) 0 { src := sel } := by
  rw [h.chunks] at hsel
  exact cursorOk_of_parts h.windows hprx h.lengths h.widths h.ascending hfit hsel

/-- **The pass over the candidates** visits each with the positions of all terms. -/
theorem stream_candidates {β : Type} {srt : DocSort} {z : Zstd} {xs : List TermHit}
    {opened : List TermPlan} {srcs : List (List PosChunk)} {docs : List Nat}
    (hc : Candidates srt z idx true xs opened srcs docs)
    (hxs : ∀ x ∈ xs, (∃ t, x.Ok renv idx i true t) ∧ PositionsFit x.term) (hprx : i.hasPrx = true)
    (hne : docs ≠ []) (visit : Nat → List (List Nat) → Option β) :
    streamCandidates renv.zstd visit (cursorsOver srcs) docs =
      .ok (docs.filterMap fun d => visit d (xs.map fun x => positionsAt x.term d)) := by
  have hkept : ∀ (k : Nat) (x : TermHit) sel, xs[k]? = some x → srcs[k]? = some sel →
      sel.Sublist x.chunks ∧ ∀ d ∈ docs, d ∈ docsOf sel := by
    intro k x sel hx hsel
    have hk := (List.getElem?_eq_some_iff.mp hx).1
    have hchunks : (xs.map fun x => x.chunks).getD k [] = x.chunks := by
      rw [List.getD_eq_getElem?_getD, List.getElem?_map, hx]
      rfl
    have heach : ∀ d ∈ docs, sel.Sublist x.chunks ∧ d ∈ docsOf sel := by
      intro d hd
      obtain ⟨sel', hsel', hsub, hin⟩ := hc.narrowed.kept k (List.mem_range.mpr hk) d hd
      rw [hsel] at hsel'
      cases hsel'
      exact ⟨hchunks ▸ hsub, hin⟩
    obtain ⟨d, hd⟩ := List.exists_mem_of_ne_nil docs hne
    exact ⟨(heach d hd).1, fun e he => (heach e he).2⟩
  have hlen : xs.length = (cursorsOver srcs).length := by
    rw [cursorsOver, List.length_map, hc.kept]
  have hcursors : List.Forall₂ (fun posAt cur => CursorOk renv.zstd posAt 0 cur)
      (xs.map fun x => positionsAt x.term) (cursorsOver srcs) := by
    rw [List.forall₂_map_left_iff]
    apply forall₂_of_getElem? hlen
    intro k x cur hx hcur
    rw [cursorsOver, List.getElem?_map, Option.map_eq_some_iff] at hcur
    obtain ⟨sel, hsel, rfl⟩ := hcur
    obtain ⟨⟨t, hok⟩, hfit⟩ := hxs x (List.mem_of_getElem? hx)
    exact cursorOk_of_kept hok hprx hfit (hkept k x sel hx hsel).1
  rw [streamCandidates_ok visit hcursors hc.narrowed.ascending fun d _ => Nat.zero_le d]
  · simp only [List.map_map]
    rfl
  · intro d hd cur hcur
    obtain ⟨k, hk⟩ := List.mem_iff_getElem?.mp hcur
    have hk' : k < xs.length := hlen ▸ (List.getElem?_eq_some_iff.mp hk).1
    rw [cursorsOver, List.getElem?_map, Option.map_eq_some_iff] at hk
    obtain ⟨sel, hsel, rfl⟩ := hk
    exact (hkept k _ sel (List.getElem?_eq_getElem hk') hsel).2 d hd

/-- The positions of all terms in a document. -/
theorem spansOk_hits {xs : List TermHit}
    (hxs : ∀ x ∈ xs, (∃ t, x.Ok renv idx i true t) ∧ PositionsFit x.term) (hprx : i.hasPrx = true)
    (d : Nat) : SpansOk (xs.map fun x => positionsAt x.term d) := by
  have hdoc : ∀ tp : Emitted, positionsAt tp d = [] ∨ positionsAt tp d ∈ docPositions tp := by
    intro tp
    rw [positionsAt]
    cases hfind : (docRows tp).find? fun y => y.1 == d with
    | none => exact .inl rfl
    | some y => exact .inr (List.of_mem_zip (List.mem_of_find?_eq_some hfind)).2
  constructor
  · intro span hspan
    obtain ⟨x, hx, rfl⟩ := List.mem_map.mp hspan
    obtain ⟨⟨t, hok⟩, hfit⟩ := hxs x hx
    cases hdoc x.term with
    | inl hnil =>
        rw [hnil]
        exact .nil
    | inr hin => exact hok.windows.sorted hprx hok.lengths hfit _ hin
  · intro span hspan p hp
    obtain ⟨x, hx, rfl⟩ := List.mem_map.mp hspan
    obtain ⟨-, hfit⟩ := hxs x hx
    cases hdoc x.term with
    | inl hnil =>
        rw [hnil] at hp
        cases hp
    | inr hin => exact hfit.widths p (mem_splitCounts hin hp)

/-! ## Phrases over a written index -/

/-- A term of the index stands at the position of the document. -/
def TermAt (i : SniiIndexInput) (t : Bytes) (d p : Nat) : Prop :=
  ∃ tp ∈ i.source.list, tp.postings.term = t ∧ OccursAt tp d p

/-- The terms follow one another from the position on, as integers. -/
def PhraseAt (i : SniiIndexInput) (terms : List Bytes) (d p : Nat) : Prop :=
  ∀ (k : Nat) t, terms[k]? = some t → TermAt i t d (p + k)

theorem TermAt.hasTerm {t : Bytes} {d p : Nat} (h : TermAt i t d p) : HasTerm i t d := by
  obtain ⟨tp, htp, hterm, hoccurs⟩ := h
  exact ⟨tp, htp, hterm, hoccurs.mem_docids⟩

theorem termAt_hit (hs : SortedTerms i) {needPositions : Bool} {t : Bytes} {x : TermHit}
    (h : x.Ok renv idx i needPositions t) (d p : Nat) :
    TermAt i t d p ↔ p ∈ positionsAt x.term d := by
  rw [mem_positionsAt h.ascending h.lengths]
  constructor
  · rintro ⟨tp, htp, hterm, hoccurs⟩
    rwa [term_unique hs h.mem htp (h.eq.trans hterm.symm)]
  · exact fun hoccurs => ⟨x.term, h.mem, h.eq, hoccurs⟩

/-- The phrase, seen from the positions of the terms that were found. -/
theorem phraseAt_hits (hs : SortedTerms i) {needPositions : Bool} {terms : List Bytes}
    {xs : List TermHit} (h : List.Forall₂ (TermHit.Ok renv idx i needPositions) terms xs)
    (d p : Nat) : PhraseAt i terms d p ↔ ∀ (k : Nat) span,
      (xs.map fun x => positionsAt x.term d)[k]? = some span → p + k ∈ span := by
  constructor
  · intro hphrase k span hspan
    rw [List.getElem?_map, Option.map_eq_some_iff] at hspan
    obtain ⟨x, hx, rfl⟩ := hspan
    obtain ⟨t, ht, hok⟩ := getElem?_of_forall₂ h.flip hx
    exact (termAt_hit hs hok d _).mp (hphrase k t ht)
  · intro hall k t ht
    obtain ⟨x, hx, hok⟩ := getElem?_of_forall₂ h ht
    rw [termAt_hit hs hok]
    apply hall k
    rw [List.getElem?_map, hx]
    rfl

theorem phraseMatch_eq_some {offsets : List Nat} {d e : Nat} {spans : List (List Nat)}
    (h : phraseMatch offsets d spans = some e) : e = d := by
  rw [phraseMatch] at h
  split at h
  · exact (Option.some_inj.mp h).symm
  · cases h

/-- The found terms of a phrase. -/
theorem hits_fit {terms : List Bytes} {xs : List TermHit}
    (h : List.Forall₂ (TermHit.Ok renv idx i true) terms xs)
    (hfit : ∀ tp ∈ i.source.list, PositionsFit tp) :
    ∀ x ∈ xs, (∃ t, x.Ok renv idx i true t) ∧ PositionsFit x.term := by
  intro x hx
  obtain ⟨t, -, hok⟩ := exists_left_of_mem h hx
  exact ⟨⟨t, hok⟩, hfit _ hok.mem⟩

theorem buildPhraseExecutionState_ok {srt : DocSort} {z : Zstd} {xs : List TermHit}
    {opened : List TermPlan} {srcs : List (List PosChunk)} {docs : List Nat}
    (hc : Candidates srt z idx true xs opened srcs docs) :
    ∃ plans reqs,
      planResolvedTerms idx true [] (xs.map fun x => x.posting) = .ok (plans, reqs) ∧
      plans.length = xs.length ∧
      buildPhraseExecutionState srt z idx reqs plans = .ok (srcs, docs) := by
  obtain ⟨plans, reqs, round1, hplan, hfetch, hopen, hbuild⟩ := hc.plan
  refine ⟨plans, reqs, hplan, ?_, ?_⟩
  · rw [← hc.plans]
    exact (mapM_eq_ok hopen).length_eq
  · rw [buildPhraseExecutionState, hfetch, ok_bind, hopen, ok_bind, hbuild]

theorem PhraseAt.hasTerm {terms : List Bytes} {d p : Nat} (h : PhraseAt i terms d p) :
    ∀ t ∈ terms, HasTerm i t d := by
  intro t ht
  obtain ⟨k, hk⟩ := List.mem_iff_getElem?.mp ht
  exact (h k t hk).hasTerm

/-- **The pass** over the candidates of found terms emits the documents with the phrase. -/
theorem emitPhraseStreaming_returns {srt : DocSort} (hs : SortedTerms i) (hprx : i.hasPrx = true)
    {terms : List Bytes} {xs : List TermHit} (hne : terms ≠ [])
    (hxs : List.Forall₂ (TermHit.Ok renv idx i true) terms xs)
    (hhits : ∀ x ∈ xs, (∃ t, x.Ok renv idx i true t) ∧ PositionsFit x.term)
    {opened : List TermPlan} {srcs : List (List PosChunk)} {docs : List Nat}
    (hc : Candidates srt renv.zstd idx true xs opened srcs docs) (hdocs : docs ≠ []) :
    Returns (emitPhraseStreaming renv.zstd (List.range terms.length) srcs docs)
      fun d => ∃ p, PhraseAt i terms d p := by
  have hmem := hc.mem hs hxs
  rw [emitPhraseStreaming, stream_candidates hc hhits hprx hdocs]
  refine ⟨_, rfl, ?_, fun d => ?_⟩
  · rw [Ascending, List.pairwise_filterMap]
    apply hc.narrowed.ascending.imp
    intro a b hab a' ha' b' hb'
    rwa [phraseMatch_eq_some ha', phraseMatch_eq_some hb']
  · have hspans := spansOk_hits hhits hprx d
    have hlen : (xs.map fun x => positionsAt x.term d).length ≤ terms.length := by
      rw [List.length_map, hxs.length_eq]
    have hmatch := phraseMatch_iff hspans (by simpa using ne_nil_of_forall₂ hxs hne) hlen d
    rw [List.mem_filterMap]
    constructor
    · rintro ⟨e, he, hsome⟩
      rw [← phraseMatch_eq_some hsome] at hsome
      obtain ⟨p, hp⟩ := hmatch.mp hsome
      exact ⟨p, (phraseAt_hits hs hxs d p).mpr hp⟩
    · rintro ⟨p, hphrase⟩
      refine ⟨d, (hmem d).mpr hphrase.hasTerm, hmatch.mpr ⟨p, ?_⟩⟩
      exact (phraseAt_hits hs hxs d p).mp hphrase

/-- What a phrase query answers: the documents with the phrase, and no answer for a
phrase with too many terms for 32-bit offsets, if all its terms share a document. -/
structure PhraseAnswers (out : Result (List Nat)) (i : SniiIndexInput) (terms : List Bytes) : Prop where
  exact : terms.length < 2 ^ 32 - 1 → Returns out fun d => ∃ p, PhraseAt i terms d p
  tooLong : 2 ^ 32 - 1 ≤ terms.length → (∃ d, ∀ t ∈ terms, HasTerm i t d) →
    out = .error (.invalidArgument "phrase_query: phrase length exceeds doc position range")

/-- Without a common document nothing is returned. -/
theorem answers_empty {terms : List Bytes} (h : ∀ d, ¬ ∀ t ∈ terms, HasTerm i t d) :
    PhraseAnswers (.ok []) i terms := by
  constructor
  case exact =>
    refine fun _ => ⟨[], rfl, List.Pairwise.nil, fun d => ?_⟩
    constructor
    · exact fun hd => nomatch hd
    · rintro ⟨p, hphrase⟩
      exact absurd hphrase.hasTerm (h d)
  case tooLong =>
    rintro - ⟨d, hd⟩
    exact absurd hd (h d)

theorem executePhrasePlans_answers {srt : DocSort} (hs : SortedTerms i) (hprx : i.hasPrx = true)
    {terms : List Bytes} {xs : List TermHit} (hne : terms ≠ [])
    (hxs : List.Forall₂ (TermHit.Ok renv idx i true) terms xs)
    (hhits : ∀ x ∈ xs, (∃ t, x.Ok renv idx i true t) ∧ PositionsFit x.term)
    {opened plans : List TermPlan} {srcs : List (List PosChunk)} {docs : List Nat}
    {reqs : List Range} (hc : Candidates srt renv.zstd idx true xs opened srcs docs)
    (hlen : plans.length = xs.length)
    (hbuild : buildPhraseExecutionState srt renv.zstd idx reqs plans = .ok (srcs, docs)) :
    PhraseAnswers (executePhrasePlans srt renv.zstd idx reqs plans) i terms := by
  have hmem := hc.mem hs hxs
  rw [executePhrasePlans, hbuild, ok_bind, hlen, ← hxs.length_eq]
  simp only
  by_cases hnil : docs = []
  · rw [if_pos hnil]
    apply answers_empty
    intro d hd
    rw [← hmem, hnil] at hd
    cases hd
  · rw [if_neg hnil, buildPositionOffsets]
    constructor
    case exact =>
      intro hshort
      rw [if_neg (by omega)]
      exact emitPhraseStreaming_returns hs hprx hne hxs hhits hc hnil
    case tooLong =>
      intro hlong _
      rw [if_pos hlong]

/-- **A phrase** over an index that serves what was written. -/
theorem phraseQuery_answers (srt : DocSort) (h : Serves env renv idx w blocks region dictOff)
    (hs : SortedTerms w.input) (hprx : w.input.hasPrx = true)
    (hfit : ∀ tp ∈ w.input.source.list, PositionsFit tp) {terms : List Bytes} (hne : terms ≠ []) :
    PhraseAnswers (phraseQuery srt renv idx terms) w.input terms := by
  have hpositions : ¬ idx.hasPositions = false := by
    rw [h.positions, hprx]
    decide
  rw [phraseQuery, if_neg hne, if_neg hpositions]
  cases terms_found_or_absent h hs (fun _ => hprx) terms with
  | inr habsent =>
      obtain ⟨hplan, t, ht, hnot⟩ := habsent
      rw [hplan, ok_bind]
      apply answers_empty
      intro d hall
      obtain ⟨tp, htp, hterm, -⟩ := hall t ht
      exact hnot tp htp hterm
  | inl hfound =>
      obtain ⟨xs, hxs⟩ := hfound
      have hhits := hits_fit hxs hfit
      obtain ⟨opened, srcs, docs, hc⟩ := candidates_ok srt h.holds.size (ne_nil_of_forall₂ hxs hne)
        fun x hx => (hhits x hx).1.elim fun _ hok => hok.readable
      obtain ⟨plans, reqs, hplan, hlen, hbuild⟩ := buildPhraseExecutionState_ok hc
      rw [planTerms_hits hxs hplan, ok_bind]
      exact executePhrasePlans_answers hs hprx hne hxs hhits hc hlen hbuild

theorem answers_written {adds : List AddCall} {a : AddCall} (srt : DocSort)
    (h : WrittenIndex env renv adds a) (hcaps : CapsOk env adds) (hprx : a.input.hasPrx = true)
    (hfit : ∀ tp ∈ a.input.source.list, PositionsFit tp) :
    ∃ idx, OpensFrom env renv adds a idx ∧ ∀ terms, terms ≠ [] →
      PhraseAnswers (phraseQuery srt renv idx terms) a.input terms := by
  obtain ⟨idx, hopens, w, blocks, region, dictOff, -, hin, hserves⟩ := h.serves hcaps
  refine ⟨idx, hopens, fun terms hne => ?_⟩
  have hanswers := phraseQuery_answers srt hserves (hin ▸ h.sorted) (hin ▸ hprx)
    (by rw [hin]; exact hfit) hne
  rwa [hin] at hanswers

/-- **Phrase search is exact** over every written index with positions, within the
reader's caps, for phrases whose offsets have 32 bits. -/
theorem phraseQuery_exact {adds : List AddCall} {a : AddCall} (srt : DocSort)
    (h : WrittenIndex env renv adds a) (hcaps : CapsOk env adds) (hprx : a.input.hasPrx = true)
    (hfit : ∀ tp ∈ a.input.source.list, PositionsFit tp) :
    ∃ idx, OpensFrom env renv adds a idx ∧ ∀ terms, terms ≠ [] →
      PhraseAnswers (phraseQuery srt renv idx terms) a.input terms := by
  exact answers_written srt h hcaps hprx hfit

theorem positional_fit : ∀ tp ∈ positionalCall.input.source.list, PositionsFit tp := by
  decide +kernel

instance (tp : Emitted) (d p : Nat) : Decidable (OccursAt tp d p) :=
  decidable_of_iff (∃ x ∈ docRows tp, x.1 = d ∧ p ∈ x.2)
    ⟨fun ⟨x, hx, hd, hp⟩ => ⟨x.2, hd ▸ hx, hp⟩, fun ⟨ps, hx, hp⟩ => ⟨(d, ps), hx, rfl, hp⟩⟩

/-- A phrase with a repeated term, and a document that has it. -/
theorem phraseQuery_exact_repeats : ∃ idx,
    OpensFrom storeEnv storeReadEnv twoCalls positionalCall idx ∧
      PhraseAnswers (phraseQuery DocSort.stable storeReadEnv idx [[97], [97], [98]])
        positionalCall.input [[97], [97], [98]] ∧
      PhraseAt positionalCall.input [[97], [97], [98]] (2 ^ 26) 0 := by
  obtain ⟨idx, hopens, hanswers⟩ := phraseQuery_exact DocSort.stable positional_written
    capsOk_twoCalls rfl positional_fit
  refine ⟨idx, hopens, hanswers _ (List.cons_ne_nil _ _), ?_⟩
  rintro (_ | _ | _ | k) t ht
  · cases ht
    exact ⟨_, List.mem_cons_self, rfl, by decide +kernel⟩
  · cases ht
    exact ⟨_, List.mem_cons_self, rfl, by decide +kernel⟩
  · cases ht
    exact ⟨_, List.mem_cons_of_mem _ List.mem_cons_self, rfl, by decide +kernel⟩
  · cases ht

/-- A phrase of as many terms as there are offsets, all of them one term. -/
theorem phraseQuery_tooLong : ∃ idx,
    OpensFrom storeEnv storeReadEnv twoCalls positionalCall idx ∧
      ¬ Returns (phraseQuery DocSort.stable storeReadEnv idx (List.replicate (2 ^ 32 - 1) [97]))
        fun d => ∃ p, PhraseAt positionalCall.input (List.replicate (2 ^ 32 - 1) [97]) d p := by
  obtain ⟨idx, hopens, hanswers⟩ := answers_written DocSort.stable positional_written
    capsOk_twoCalls rfl positional_fit
  generalize hn : 2 ^ 32 - 1 = n
  have hne : List.replicate n ([97] : Bytes) ≠ [] := by
    rw [Ne, List.replicate_eq_nil_iff]
    omega
  have hshared : ∀ t ∈ List.replicate n ([97] : Bytes), HasTerm positionalCall.input t 1 := by
    intro t ht
    rw [List.eq_of_mem_replicate ht]
    exact ⟨_, List.mem_cons_self, rfl, List.mem_cons_self⟩
  refine ⟨idx, hopens, ?_⟩
  rintro ⟨docs, hout, -, -⟩
  rw [(hanswers _ hne).tooLong (by rw [List.length_replicate, hn]) ⟨1, hshared⟩] at hout
  cases hout

end Snii.Query.PhraseQuery
