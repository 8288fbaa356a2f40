import Snii.Query.PhraseQuery

/-!
# Phrases that end in a prefix

`phrase_prefix_query` of `phrase_query.cpp`: the terms before the last one are matched as
a phrase, which leaves the positions where the tail is expected.  Every dictionary term
with the prefix is read against them with a cursor of its own, and the matches are
joined.
-/

namespace Snii.Query.PhrasePrefixQuery

open Snii.Lib.ByteReader Snii.Lib.Aligned Snii.Common Snii.Io.BatchRangeFetcher
open Snii.Reader Snii.Query.DocidSetOps Snii.Query.DocidUnion Snii.Query.Conjunction
open Snii.Query.PositionCursor Snii.Query.PhraseQuery
open Snii.Query.ScoringQuery (DocSort)
open Snii.Encoding.Compression
open Snii.Format.DictBlock (DictBlockBuilder Resolved)
open Snii.Writer.SpillRunCodec Snii.Writer.LogicalIndexWriter Snii.Writer.CompoundWriter

/-! ## The query -/

/-- A document and the positions at which the tail is expected there. -/
structure ExpectedTailPositions where
  docid : Nat
  positions : List Nat

/-- The positions behind the exact terms, as far as they have 32 bits. -/
def tailPositions (offsets : List Nat) (spans : List (List Nat)) : List Nat :=
  (spans.headD []).filterMap fun start =>
    if followsFrom offsets spans start then addPositionOffset start (offsets.getD spans.length 0)
    else none

def expectedAt (offsets : List Nat) (d : Nat) (spans : List (List Nat)) :
    Option ExpectedTailPositions :=
  if tailPositions offsets spans = [] then none else some ⟨d, tailPositions offsets spans⟩

def collectExpectedTailPositions (srt : DocSort) (z : Zstd) (idx : LogicalIndexReader)
    (exactTerms : List Resolved) : Result (List ExpectedTailPositions) := do
  let (plans, reqs) ← planResolvedTerms idx true [] exactTerms
  let (srcs, candidates) ← buildPhraseExecutionState srt z idx reqs plans
  if candidates = [] then pure []
  else
    match buildPositionOffsets (plans.length + 1) with
    | none =>
        .error (.invalidArgument "phrase_prefix_query: phrase length exceeds doc position range")
    | some offsets => streamCandidates z (expectedAt offsets) (cursorsOver srcs) candidates

def containsAnyPosition (wanted actual : List Nat) : Bool := wanted.any (binarySearch actual)

/-- The documents that both sides hold, in step; the cursor visits only these. -/
def tailMatches (z : Zstd) : PostingCursor → List ExpectedTailPositions → List Nat →
    Result (List Nat)
  | _, [], _ => .ok []
  | _, _ :: _, [] => .ok []
  | cur, e :: expected, d :: tails =>
      if e.docid < d then tailMatches z cur expected (d :: tails)
      else if d < e.docid then tailMatches z cur (e :: expected) tails
      else do
        let (actual, cur) ← (cur.seek e.docid).positions z
        let rest ← tailMatches z cur expected tails
        pure (if containsAnyPosition e.positions actual then e.docid :: rest else rest)
termination_by _ expected tails => expected.length + tails.length

def collectTailMatchesAtExpectedPositions (srt : DocSort) (z : Zstd) (idx : LogicalIndexReader)
    (expected : List ExpectedTailPositions) (tail : Resolved) : Result (List Nat) :=
  if expected = [] then .ok []
  else do
    let (plans, reqs) ← planResolvedTerms idx true [] [tail]
    let (srcs, candidates) ← buildPhraseExecutionState srt z idx reqs plans
    if candidates = [] then pure []
    else tailMatches z { src := srcs.headD [] } expected candidates

/-- The exact terms' entries, or nothing at the first absent term. -/
def resolveExactTerms (env : ReadEnv) (idx : LogicalIndexReader) :
    List Bytes → Result (Option (List Resolved))
  | [] => .ok (some [])
  | term :: terms => do
      let hit ← lookup env idx term
      match hit with
      | none => pure none
      | some r => do
          let rest ← resolveExactTerms env idx terms
          pure (rest.map fun rs => r :: rs)

/-- The union of the matches of all tails. -/
def joinTails (read : Resolved → Result (List Nat)) : List Nat → List Resolved → Result (List Nat)
  | acc, [] => .ok acc
  | acc, hit :: hits => do
      let docs ← read hit
      joinTails read (unionSortedInto acc docs) hits

def phrasePrefixQuery (srt : DocSort) (env : ReadEnv) (idx : LogicalIndexReader)
    (terms : List Bytes) : Result (List Nat) :=
  if terms = [] then .ok []
  else if terms.length = 1 then prefixQuery env idx (terms.headD [])
  else if idx.hasPositions = false then
    .error (.unsupported "phrase_prefix_query: index has no positions")
  else do
    let exactTerms ← resolveExactTerms env idx terms.dropLast
    match exactTerms with
    | none => pure []
    | some exactTerms => do
        let tailHits ← prefixTerms env idx (terms.getLastD [])
        if tailHits = [] then pure []
        else do
          let expected ← collectExpectedTailPositions srt env.zstd idx exactTerms
          if expected = [] then pure []
          else joinTails (collectTailMatchesAtExpectedPositions srt env.zstd idx expected) [] tailHits

/-! ## Expected positions -/

theorem addPositionOffset_eq_some {start offset q : Nat} (hoffset : offset < 2 ^ 32) :
    addPositionOffset start offset = some q ↔ start + offset = q ∧ q < 2 ^ 32 := by
  rw [addPositionOffset]
  by_cases hbig : start > 2 ^ 32 - 1 - offset
  · rw [if_pos hbig]
    constructor
    · intro h
      cases h
    · omega
  · rw [if_neg hbig, Option.some_inj]
    constructor
    · exact fun h => ⟨h, by omega⟩
    · exact fun h => h.1

/-- The tail is expected behind every start of the phrase, in 32 bits. -/
theorem mem_tailPositions {spans : List (List Nat)} (h : SpansOk spans) (hne : spans ≠ [])
    (hlen : spans.length < 2 ^ 32) (q : Nat) :
    q ∈ tailPositions (List.range (spans.length + 1)) spans ↔
      ∃ p, (∀ (i : Nat) span, spans[i]? = some span → p + i ∈ span) ∧
        p + spans.length = q ∧ q < 2 ^ 32 := by
  have hoffset : (List.range (spans.length + 1)).getD spans.length 0 = spans.length := by
    rw [List.getD_eq_getElem?_getD, List.getElem?_range (Nat.lt_succ_self _)]
    rfl
  have hstarts := mem_starts h hne (Nat.le_succ spans.length)
  rw [tailPositions, List.mem_filterMap, hoffset]
  apply exists_congr
  intro p
  rw [← hstarts, and_assoc]
  apply and_congr_right
  intro _
  by_cases hfollows : followsFrom (List.range (spans.length + 1)) spans p = true
  · rw [if_pos hfollows, addPositionOffset_eq_some hlen]
    exact ⟨fun hq => ⟨hfollows, hq⟩, fun hq => hq.2⟩
  · rw [if_neg hfollows]
    exact ⟨fun hq => (nomatch hq), fun hq => absurd hq.1 hfollows⟩

theorem expectedAt_eq_some {offsets : List Nat} {d : Nat} {spans : List (List Nat)}
    {e : ExpectedTailPositions} :
    expectedAt offsets d spans = some e ↔
      e = ⟨d, tailPositions offsets spans⟩ ∧ tailPositions offsets spans ≠ [] := by
  rw [expectedAt]
  split
  case isTrue hnil => exact ⟨fun h => (nomatch h), fun h => absurd hnil h.2⟩
  case isFalse hne =>
    rw [Option.some_inj]
    exact ⟨fun h => ⟨h.symm, hne⟩, fun h => h.1.symm⟩

/-! ## Tails -/

theorem containsAnyPosition_iff {wanted actual : List Nat} (h : actual.IsChain (· ≤ ·)) :
    containsAnyPosition wanted actual = true ↔ ∃ q ∈ wanted, q ∈ actual := by
  simp only [containsAnyPosition, List.any_eq_true, binarySearch_iff h]

/-- The documents in ascending order, each with its expected positions. -/
def AscendingDocs (expected : List ExpectedTailPositions) : Prop :=
  expected.Pairwise fun a b => a.docid < b.docid

/-- A match of the tail in an expected document. -/
def Matched (posAt : Nat → List Nat) (expected : List ExpectedTailPositions) (tails : List Nat)
    (d : Nat) : Prop :=
  ∃ e ∈ expected, e.docid = d ∧ d ∈ tails ∧ containsAnyPosition e.positions (posAt d) = true

variable {posAt : Nat → List Nat} {z : Zstd}

section Step

variable {e : ExpectedTailPositions} {expected : List ExpectedTailPositions} {t : Nat}
  {tails : List Nat}

/-- The tail has no document as early as this one. -/
theorem matched_before (htails : Ascending (t :: tails)) (hbefore : e.docid < t) (d : Nat) :
    Matched posAt expected (t :: tails) d ↔ Matched posAt (e :: expected) (t :: tails) d := by
  constructor
  · rintro ⟨x, hx, hmatch⟩
    exact ⟨x, List.mem_cons_of_mem _ hx, hmatch⟩
  · rintro ⟨x, hx, heq, hd, hmatch⟩
    cases List.mem_cons.mp hx with
    | inl hhead =>
        have hge : t ≤ d := by
          cases List.mem_cons.mp hd with
          | inl hd => exact Nat.le_of_eq hd.symm
          | inr hd => exact Nat.le_of_lt (htails.lt hd)
        rw [hhead] at heq
        omega
    | inr hx => exact ⟨x, hx, heq, hd, hmatch⟩

/-- Nothing is expected in a document as early as this one. -/
theorem matched_after (hexpected : AscendingDocs (e :: expected)) (hafter : t < e.docid) (d : Nat) :
    Matched posAt (e :: expected) tails d ↔ Matched posAt (e :: expected) (t :: tails) d := by
  constructor
  · rintro ⟨x, hx, heq, hd, hmatch⟩
    exact ⟨x, hx, heq, List.mem_cons_of_mem _ hd, hmatch⟩
  · rintro ⟨x, hx, heq, hd, hmatch⟩
    refine ⟨x, hx, heq, (List.mem_cons.mp hd).resolve_left fun hd => ?_, hmatch⟩
    have hge : e.docid ≤ x.docid := by
      cases List.mem_cons.mp hx with
      | inl hhead => rw [hhead]
      | inr hx => exact Nat.le_of_lt ((List.pairwise_cons.mp hexpected).1 x hx)
    omega

theorem matched_cons (hexpected : AscendingDocs (e :: expected)) (htails : Ascending (t :: tails))
    (hsame : e.docid = t) (d : Nat) :
    Matched posAt (e :: expected) (t :: tails) d ↔
      d = t ∧ containsAnyPosition e.positions (posAt t) = true ∨ Matched posAt expected tails d := by
  have hlt := (List.pairwise_cons.mp hexpected).1
  constructor
  · rintro ⟨x, hx, heq, hd, hmatch⟩
    cases List.mem_cons.mp hx with
    | inl hhead =>
        left
        rw [hhead] at heq hmatch
        have hdt : d = t := by omega
        exact ⟨hdt, hdt ▸ hmatch⟩
    | inr hx =>
        have hafter := hlt x hx
        exact .inr ⟨x, hx, heq, (List.mem_cons.mp hd).resolve_left (by omega), hmatch⟩
  · rintro (⟨rfl, hmatch⟩ | ⟨x, hx, heq, hd, hmatch⟩)
    · exact ⟨e, List.mem_cons_self, hsame, List.mem_cons_self, hmatch⟩
    · exact ⟨x, List.mem_cons_of_mem _ hx, heq, List.mem_cons_of_mem _ hd, hmatch⟩

end Step

/-- **The merge** of the expected documents with the tail's own: a document that one side
lacks is passed over, and the cursor, which only moves forward, need not see it. -/
theorem tailMatches_returns {expected : List ExpectedTailPositions} {tails : List Nat}
    {cur : PostingCursor} {target : Nat} (h : CursorOk z posAt target cur)
    (hexpected : AscendingDocs expected) (htails : Ascending tails)
    (hle : ∀ d ∈ tails, target ≤ d) (hin : ∀ d ∈ tails, d ∈ docsOf cur.src) :
    Returns (tailMatches z cur expected tails) (Matched posAt expected tails) := by
  induction expected generalizing target cur tails with
  | nil =>
      refine ⟨[], by rw [tailMatches], List.Pairwise.nil, fun d => ?_⟩
      constructor
      · exact fun hd => nomatch hd
      · rintro ⟨e, he, -⟩
        cases he
  | cons e expected ih =>
      obtain ⟨hlt, hrest⟩ := List.pairwise_cons.mp hexpected
      induction tails with
      | nil =>
          refine ⟨[], by rw [tailMatches], List.Pairwise.nil, fun d => ?_⟩
          constructor
          · exact fun hd => nomatch hd
          · rintro ⟨e, -, -, hd, -⟩
            cases hd
      | cons t tails ihTails =>
          rw [tailMatches]
          by_cases hbefore : e.docid < t
          · rw [if_pos hbefore]
            exact (ih h hrest htails hle hin).congr (matched_before htails hbefore)
          · rw [if_neg hbefore]
            by_cases hafter : t < e.docid
            · rw [if_pos hafter]
              have hskip := ihTails htails.tail (fun d hd => hle d (List.mem_cons_of_mem _ hd))
                fun d hd => hin d (List.mem_cons_of_mem _ hd)
              exact hskip.congr (matched_after hexpected hafter)
            · rw [if_neg hafter]
              have hsame : e.docid = t := by omega
              have hhere := h.visit (hle t List.mem_cons_self) (hin t List.mem_cons_self)
              obtain ⟨next, hvisit, hok, hsrc⟩ := hhere
              obtain ⟨docs, hdocs, hasc, hmem⟩ := ih hok hrest htails.tail
                (fun d hd => Nat.le_of_lt (htails.lt hd))
                fun d hd => hsrc ▸ hin d (List.mem_cons_of_mem _ hd)
              rw [hsame, hvisit, ok_bind]
              simp only
              rw [hdocs, ok_bind]
              have hcons : ∀ d, Matched posAt (e :: expected) (t :: tails) d ↔ _ :=
                matched_cons hexpected htails hsame
              have hbehind : ∀ d ∈ docs, t < d := by
                intro d hd
                obtain ⟨x, hx, heq, -⟩ := (hmem d).mp hd
                have := hlt x hx
                omega
              by_cases hmatch : containsAnyPosition e.positions (posAt t) = true
              · rw [if_pos hmatch]
                refine ⟨t :: docs, rfl, List.pairwise_cons.mpr ⟨hbehind, hasc⟩, fun d => ?_⟩
                rw [List.mem_cons, hcons, hmem, and_iff_left hmatch]
              · rw [if_neg hmatch]
                refine ⟨docs, rfl, hasc, fun d => ?_⟩
                rw [hcons, hmem, or_iff_right fun hhere => hmatch hhere.2]

/-! ## Over a written index -/

variable {env : BuildEnv} {renv : ReadEnv} {idx : LogicalIndexReader} {w : BuiltIndex}
  {blocks : List DictBlockBuilder} {region : Bytes} {dictOff : Nat} {i : SniiIndexInput}
  {terms : List Bytes} {xs : List TermHit} {expected : List ExpectedTailPositions}

/-- The positions expected behind a phrase: all of its ends that have 32 bits. -/
structure ExpectedOk (i : SniiIndexInput) (terms : List Bytes)
    (expected : List ExpectedTailPositions) : Prop where
  ascending : AscendingDocs expected
  mem : ∀ e ∈ expected, ∀ q, q ∈ e.positions ↔
    ∃ p, PhraseAt i terms e.docid p ∧ p + terms.length = q ∧ q < 2 ^ 32
  complete : ∀ d p, PhraseAt i terms d p → p + terms.length < 2 ^ 32 →
    ∃ e ∈ expected, e.docid = d

/-- The ends of the phrase in one document. -/
theorem mem_tailPositions_hits (hs : SortedTerms i) (hprx : i.hasPrx = true)
    (hne : terms ≠ []) (hlen : terms.length < 2 ^ 32)
    (hxs : List.Forall₂ (TermHit.Ok renv idx i true) terms xs)
    (hhits : ∀ x ∈ xs, (∃ t, x.Ok renv idx i true t) ∧ PositionsFit x.term) (d q : Nat) :
    q ∈ tailPositions (List.range (terms.length + 1)) (xs.map fun x => positionsAt x.term d) ↔
      ∃ p, PhraseAt i terms d p ∧ p + terms.length = q ∧ q < 2 ^ 32 := by
  have hcount : (xs.map fun x => positionsAt x.term d).length = terms.length := by
    rw [List.length_map, hxs.length_eq]
  have htail := mem_tailPositions (spansOk_hits hhits hprx d)
    (by simpa using ne_nil_of_forall₂ hxs hne) (by omega) q
  rw [hcount] at htail
  rw [htail]
  apply exists_congr
  intro p
  rw [phraseAt_hits hs hxs]

theorem collectExpectedTailPositions_ok (srt : DocSort) (hs : SortedTerms i) (hprx : i.hasPrx = true)
    (hsize : idx.file.length < 2 ^ 64) (hne : terms ≠ [])
    (hxs : List.Forall₂ (TermHit.Ok renv idx i true) terms xs)
    (hhits : ∀ x ∈ xs, (∃ t, x.Ok renv idx i true t) ∧ PositionsFit x.term)
    (hshort : terms.length + 1 < 2 ^ 32 - 1) :
    ∃ expected, collectExpectedTailPositions srt renv.zstd idx (xs.map fun x => x.posting) =
      .ok expected ∧ ExpectedOk i terms expected := by
  obtain ⟨opened, srcs, docs, hc⟩ := candidates_ok srt hsize (ne_nil_of_forall₂ hxs hne)
    fun x hx => (hhits x hx).1.elim fun _ hok => hok.readable
  obtain ⟨plans, reqs, hplan, hlen, hbuild⟩ := buildPhraseExecutionState_ok hc
  have hmem := hc.mem hs hxs
  rw [collectExpectedTailPositions, hplan, ok_bind]
  simp only
  rw [hbuild, ok_bind]
  simp only
  by_cases hnil : docs = []
  · rw [if_pos hnil]
    refine ⟨[], rfl, List.Pairwise.nil, fun e he => (nomatch he), fun d p hphrase _ => ?_⟩
    have hd := (hmem d).mpr hphrase.hasTerm
    rw [hnil] at hd
    cases hd
  · rw [if_neg hnil, hlen, ← hxs.length_eq, buildPositionOffsets, if_neg (by omega)]
    simp only
    rw [stream_candidates hc hhits hprx hnil]
    have htails := mem_tailPositions_hits hs hprx hne (by omega) hxs hhits
    refine ⟨_, rfl, ?_, fun e he q => ?_, fun d p hphrase hwidth => ?_⟩
    · rw [AscendingDocs, List.pairwise_filterMap]
      apply hc.narrowed.ascending.imp
      intro a b hab a' ha' b' hb'
      rwa [(expectedAt_eq_some.mp ha').1, (expectedAt_eq_some.mp hb').1]
    · obtain ⟨d, -, hexpected⟩ := List.mem_filterMap.mp he
      rw [(expectedAt_eq_some.mp hexpected).1]
      exact htails d q
    · have hin := (htails d (p + terms.length)).mpr ⟨p, hphrase, rfl, hwidth⟩
      have hsome := (expectedAt_eq_some (d := d)).mpr ⟨rfl, List.ne_nil_of_mem hin⟩
      exact ⟨_, List.mem_filterMap.mpr ⟨d, (hmem d).mpr hphrase.hasTerm, hsome⟩, rfl⟩

/-- With as many terms as there are offsets no position is expected, if all share a
document. -/
theorem collectExpectedTailPositions_tooLong (srt : DocSort) (hs : SortedTerms i)
    (hsize : idx.file.length < 2 ^ 64) (hne : terms ≠ [])
    (hxs : List.Forall₂ (TermHit.Ok renv idx i true) terms xs)
    (hlong : 2 ^ 32 - 1 ≤ terms.length + 1) (hshared : ∃ d, ∀ t ∈ terms, HasTerm i t d) :
    collectExpectedTailPositions srt renv.zstd idx (xs.map fun x => x.posting) =
      .error (.invalidArgument
        "phrase_prefix_query: phrase length exceeds doc position range") := by
  obtain ⟨opened, srcs, docs, hc⟩ := candidates_ok srt hsize (ne_nil_of_forall₂ hxs hne)
    fun x hx => (exists_left_of_mem hxs hx).elim fun _ ht => ht.2.readable
  obtain ⟨plans, reqs, hplan, hlen, hbuild⟩ := buildPhraseExecutionState_ok hc
  obtain ⟨d, hd⟩ := hshared
  have hnil : docs ≠ [] := List.ne_nil_of_mem ((hc.mem hs hxs d).mpr hd)
  rw [collectExpectedTailPositions, hplan, ok_bind]
  simp only
  rw [hbuild, ok_bind]
  simp only
  rw [if_neg hnil, hlen, ← hxs.length_eq, buildPositionOffsets, if_pos hlong]

/-- The parts of a single term hold all its candidates. -/
theorem kept_one {srt : DocSort} {z : Zstd} {x : TermHit} {opened : List TermPlan}
    {srcs : List (List PosChunk)} {docs : List Nat}
    (hc : Candidates srt z idx true [x] opened srcs docs) (hne : docs ≠ []) :
    ∃ sel, srcs = [sel] ∧ sel.Sublist x.chunks ∧ ∀ d ∈ docs, d ∈ docsOf sel := by
  obtain ⟨sel, rfl⟩ := List.length_eq_one_iff.mp hc.kept
  have heach : ∀ d ∈ docs, sel.Sublist x.chunks ∧ d ∈ docsOf sel := by
    intro d hd
    obtain ⟨sel', hsel', hsub, hin⟩ := hc.narrowed.kept 0 (List.mem_range.mpr Nat.one_pos) d hd
    cases hsel'
    exact ⟨hsub, hin⟩
  obtain ⟨d, hd⟩ := List.exists_mem_of_ne_nil docs hne
  exact ⟨sel, rfl, (heach d hd).1, fun e he => (heach e he).2⟩

/-- **One tail**: the documents where it stands behind the phrase. -/
theorem collectTailMatches_returns (srt : DocSort) (hprx : i.hasPrx = true)
    (hsize : idx.file.length < 2 ^ 64) {t : Bytes} {x : TermHit} (hx : x.Ok renv idx i true t)
    (hfit : PositionsFit x.term) (hexpected : ExpectedOk i terms expected) :
    Returns (collectTailMatchesAtExpectedPositions srt renv.zstd idx expected x.posting)
      fun d => ∃ p, PhraseAt i terms d p ∧ OccursAt x.term d (p + terms.length) := by
  have hone : ∀ y ∈ [x], (∃ t, y.Ok renv idx i true t) ∧ PositionsFit y.term := by
    intro y hy
    rw [List.mem_singleton.mp hy]
    exact ⟨⟨t, hx⟩, hfit⟩
  obtain ⟨opened, srcs, docs, hc⟩ := candidates_ok srt hsize (List.cons_ne_nil x [])
    fun y hy => (hone y hy).1.elim fun _ hok => hok.readable
  obtain ⟨plans, reqs, hplan, -, hbuild⟩ := buildPhraseExecutionState_ok hc
  rw [List.map_singleton] at hplan
  have hmem : ∀ d, d ∈ docs ↔ d ∈ x.term.postings.docids := by
    intro d
    rw [hc.narrowed.mem, ← hx.docsOf]
    simp
  have hspan := (spansOk_hits hone hprx)
  have hmatched : ∀ d, Matched (positionsAt x.term) expected docs d ↔
      ∃ p, PhraseAt i terms d p ∧ OccursAt x.term d (p + terms.length) := by
    intro d
    have hsorted : (positionsAt x.term d).IsChain (· ≤ ·) := (hspan d).sorted _ (by simp)
    have hwidths : ∀ q ∈ positionsAt x.term d, q < 2 ^ 32 := (hspan d).widths _ (by simp)
    constructor
    · rintro ⟨e, he, rfl, -, hany⟩
      obtain ⟨q, hq, hin⟩ := (containsAnyPosition_iff hsorted).mp hany
      obtain ⟨p, hphrase, rfl, -⟩ := (hexpected.mem e he q).mp hq
      exact ⟨p, hphrase, (mem_positionsAt hx.ascending hx.lengths _ _).mp hin⟩
    · rintro ⟨p, hphrase, hoccurs⟩
      have hin := (mem_positionsAt hx.ascending hx.lengths _ _).mpr hoccurs
      obtain ⟨e, he, rfl⟩ := hexpected.complete d p hphrase (hwidths _ hin)
      refine ⟨e, he, rfl, (hmem _).mpr hoccurs.mem_docids, ?_⟩
      rw [containsAnyPosition_iff hsorted]
      exact ⟨_, (hexpected.mem e he _).mpr ⟨p, hphrase, rfl, hwidths _ hin⟩, hin⟩
  rw [collectTailMatchesAtExpectedPositions]
  by_cases hnone : expected = []
  · rw [if_pos hnone]
    refine ⟨[], rfl, List.Pairwise.nil, fun d => ⟨fun hd => (nomatch hd), fun hd => ?_⟩⟩
    obtain ⟨e, he, -⟩ := (hmatched d).mpr hd
    rw [hnone] at he
    cases he
  · rw [if_neg hnone, hplan, ok_bind]
    simp only
    rw [hbuild, ok_bind]
    simp only
    by_cases hnil : docs = []
    · rw [if_pos hnil]
      refine ⟨[], rfl, List.Pairwise.nil, fun d => ⟨fun hd => (nomatch hd), fun hd => ?_⟩⟩
      obtain ⟨e, he, -, hin, -⟩ := (hmatched d).mpr hd
      rw [hnil] at hin
      cases hin
    · rw [if_neg hnil]
      obtain ⟨sel, hsel, hsub, hin⟩ := kept_one hc hnil
      rw [hsel]
      exact (tailMatches_returns (cursorOk_of_kept hx hprx hfit hsub) hexpected.ascending
        hc.narrowed.ascending (fun d _ => Nat.zero_le d) hin).congr hmatched

/-! ## The query's parts -/

theorem resolveExactTerms_found
    (hxs : List.Forall₂ (TermHit.Ok renv idx i true) terms xs) :
    resolveExactTerms renv idx terms = .ok (some (xs.map fun x => x.posting)) := by
  induction hxs with
  | nil => rfl
  | cons hx _ ih =>
      rw [resolveExactTerms, hx.found, ok_bind]
      simp only
      rw [ih]
      rfl

theorem resolveExactTerms_absent
    (hfound : ∀ t ∈ terms, (∃ x : TermHit, x.Ok renv idx i true t) ∨ lookup renv idx t = .ok none)
    (habsent : ∃ t ∈ terms, lookup renv idx t = .ok none) :
    resolveExactTerms renv idx terms = .ok none := by
  induction terms with
  | nil =>
      obtain ⟨t, ht, -⟩ := habsent
      cases ht
  | cons t terms ih =>
      rw [resolveExactTerms]
      cases hfound t List.mem_cons_self with
      | inr hnone => rw [hnone]; rfl
      | inl hhit =>
          obtain ⟨x, hx⟩ := hhit
          have hrest : ∃ t ∈ terms, lookup renv idx t = .ok none := by
            obtain ⟨t', ht', hnone⟩ := habsent
            cases List.mem_cons.mp ht' with
            | inl heq =>
                rw [heq, hx.found] at hnone
                cases hnone
            | inr hin => exact ⟨t', hin, hnone⟩
          rw [hx.found, ok_bind]
          simp only
          rw [ih (fun t ht => hfound t (List.mem_cons_of_mem _ ht)) hrest]
          rfl

/-- **The join** holds what any of the tails matches. -/
theorem joinTails_returns {read : Resolved → Result (List Nat)} {hits : List Resolved}
    (hread : ∀ hit ∈ hits, ∃ docs, read hit = .ok docs ∧ Ascending docs) {acc : List Nat}
    (hacc : Ascending acc) :
    Returns (joinTails read acc hits) fun d =>
      d ∈ acc ∨ ∃ hit ∈ hits, ∃ docs, read hit = .ok docs ∧ d ∈ docs := by
  induction hits generalizing acc with
  | nil => exact ⟨acc, rfl, hacc, fun d => by simp⟩
  | cons hit hits ih =>
      obtain ⟨docs, hdocs, hasc⟩ := hread hit List.mem_cons_self
      rw [joinTails, hdocs, ok_bind]
      apply (ih (fun h hh => hread h (List.mem_cons_of_mem _ hh))
        (ascending_unionSortedInto hacc hasc)).congr
      intro d
      simp [mem_unionSortedInto, or_assoc, hdocs]

/-- The found tails of a query: all dictionary terms with the prefix. -/
structure TailsOk (renv : ReadEnv) (idx : LogicalIndexReader) (i : SniiIndexInput) (pre : Bytes)
    (hits : List Resolved) : Prop where
  sound : ∀ hit ∈ hits, ∃ x : TermHit, x.posting = hit ∧ pre <+: x.term.postings.term ∧
    ∃ t, x.Ok renv idx i true t
  complete : ∀ tp ∈ i.source.list, pre <+: tp.postings.term →
    ∃ hit ∈ hits, ∃ x : TermHit, x.posting = hit ∧ x.term = tp ∧ ∃ t, x.Ok renv idx i true t

/-- The dictionary's terms with a prefix, each with the windows it is read in. -/
theorem tailHits (h : Serves env renv idx w blocks region dictOff) (hs : SortedTerms w.input)
    (hprx : w.input.hasPrx = true) (pre : Bytes) :
    ∃ hits, prefixTerms renv idx pre = .ok hits ∧ TailsOk renv idx w.input pre hits := by
  refine ⟨_, h.prefixTerms hs pre, fun hit hhit => ?_, fun tp htp hpre => ?_⟩
  · obtain ⟨r, hr, rfl⟩ := List.mem_map.mp hhit
    obtain ⟨hin, hpre⟩ := List.mem_filter.mp hr
    obtain ⟨x, hposting, hx⟩ := termHit_of_mem h hs (fun _ => hprx) hin
    rw [List.isPrefixOf_iff_prefix, ← hx.eq] at hpre
    exact ⟨x, hposting, hpre, _, hx⟩
  · obtain ⟨r, hr, hterm, -⟩ := exists_right_of_mem h.entries htp
    obtain ⟨x, hposting, hx⟩ := termHit_of_mem h hs (fun _ => hprx) hr
    have hfiltered : r ∈ (blocks.flatMap resolve).filter fun r => pre.isPrefixOf r.entry.term := by
      rw [List.mem_filter, List.isPrefixOf_iff_prefix, hterm]
      exact ⟨hr, hpre⟩
    exact ⟨_, List.mem_map_of_mem hfiltered, x, hposting,
      term_unique hs hx.mem htp (hx.eq.trans hterm), _, hx⟩

/-! ## The query -/

/-- The exact terms follow one another from the position on, and a dictionary term that
starts with the last element stands behind them. -/
def PhrasePrefixAt (i : SniiIndexInput) (terms : List Bytes) (d p : Nat) : Prop :=
  PhraseAt i terms.dropLast d p ∧ ∃ tp ∈ i.source.list,
    terms.getLastD [] <+: tp.postings.term ∧ OccursAt tp d (p + (terms.length - 1))

/-- What a phrase with a prefix at its end answers: the documents with the phrase, and no
answer for too many terms for 32-bit offsets, if the exact terms share a document and the
prefix has a term. -/
structure PrefixAnswers (out : Result (List Nat)) (i : SniiIndexInput) (terms : List Bytes) :
    Prop where
  exact : terms.length < 2 ^ 32 - 1 → Returns out fun d => ∃ p, PhrasePrefixAt i terms d p
  tooLong : 2 ^ 32 - 1 ≤ terms.length → (∃ d, ∀ t ∈ terms.dropLast, HasTerm i t d) →
    (∃ tp ∈ i.source.list, terms.getLastD [] <+: tp.postings.term) →
    out = .error (.invalidArgument
      "phrase_prefix_query: phrase length exceeds doc position range")

/-- Without a common document or a tail nothing is returned. -/
theorem prefixAnswers_empty (h : (∀ d, ¬ ∀ t ∈ terms.dropLast, HasTerm i t d) ∨
      ∀ tp ∈ i.source.list, ¬ terms.getLastD [] <+: tp.postings.term) :
    PrefixAnswers (.ok []) i terms := by
  constructor
  case exact =>
    refine fun _ => ⟨[], rfl, List.Pairwise.nil, fun d => ⟨fun hd => (nomatch hd), ?_⟩⟩
    rintro ⟨p, hphrase, tp, htp, hpre, -⟩
    cases h with
    | inl hnone => exact absurd hphrase.hasTerm (hnone d)
    | inr hnone => exact absurd hpre (hnone tp htp)
  case tooLong =>
    rintro - ⟨d, hd⟩ ⟨tp, htp, hpre⟩
    cases h with
    | inl hnone => exact absurd hd (hnone d)
    | inr hnone => exact absurd hpre (hnone tp htp)

/-- The tails joined over the expected positions. -/
theorem joinTails_phrase (srt : DocSort) (hprx : i.hasPrx = true) (hsize : idx.file.length < 2 ^ 64)
    (hfit : ∀ tp ∈ i.source.list, PositionsFit tp) {pre : Bytes} {hits : List Resolved}
    (htails : TailsOk renv idx i pre hits) (hexpected : ExpectedOk i terms expected) :
    Returns (joinTails (collectTailMatchesAtExpectedPositions srt renv.zstd idx expected) [] hits)
      fun d => ∃ p, PhraseAt i terms d p ∧
        ∃ tp ∈ i.source.list, pre <+: tp.postings.term ∧ OccursAt tp d (p + terms.length) := by
  have hone : ∀ (x : TermHit) t, x.Ok renv idx i true t →
      Returns (collectTailMatchesAtExpectedPositions srt renv.zstd idx expected x.posting)
        fun d => ∃ p, PhraseAt i terms d p ∧ OccursAt x.term d (p + terms.length) :=
    fun x t hx => collectTailMatches_returns srt hprx hsize hx (hfit _ hx.mem) hexpected
  have hread : ∀ hit ∈ hits, ∃ docs,
      collectTailMatchesAtExpectedPositions srt renv.zstd idx expected hit = .ok docs ∧
        Ascending docs := by
    intro hit hhit
    obtain ⟨x, rfl, -, t, hx⟩ := htails.sound hit hhit
    obtain ⟨docs, hdocs, hasc, -⟩ := hone x t hx
    exact ⟨docs, hdocs, hasc⟩
  apply (joinTails_returns hread List.Pairwise.nil).congr
  intro d
  constructor
  · rintro (hnone | ⟨hit, hhit, docs, hdocs, hd⟩)
    · cases hnone
    · obtain ⟨x, rfl, hpre, t, hx⟩ := htails.sound hit hhit
      obtain ⟨docs', hdocs', -, hmem⟩ := hone x t hx
      rw [hdocs] at hdocs'
      cases hdocs'
      obtain ⟨p, hphrase, hoccurs⟩ := (hmem d).mp hd
      exact ⟨p, hphrase, x.term, hx.mem, hpre, hoccurs⟩
  · rintro ⟨p, hphrase, tp, htp, hpre, hoccurs⟩
    obtain ⟨hit, hhit, x, rfl, rfl, t, hx⟩ := htails.complete tp htp hpre
    obtain ⟨docs, hdocs, -, hmem⟩ := hone x t hx
    exact .inr ⟨x.posting, hhit, docs, hdocs, (hmem d).mpr ⟨p, hphrase, hoccurs⟩⟩

/-- **A phrase with a prefix at its end** over an index that serves what was written. -/
theorem phrasePrefixQuery_answers (srt : DocSort) (h : Serves env renv idx w blocks region dictOff)
    (hs : SortedTerms w.input) (hprx : w.input.hasPrx = true)
    (hfit : ∀ tp ∈ w.input.source.list, PositionsFit tp) (hlen : 2 ≤ terms.length) :
    PrefixAnswers (phrasePrefixQuery srt renv idx terms) w.input terms := by
  have hne : terms ≠ [] := List.ne_nil_of_length_pos (by omega)
  have hcount : terms.dropLast.length = terms.length - 1 := List.length_dropLast
  have hexactNe : terms.dropLast ≠ [] := List.ne_nil_of_length_pos (by omega)
  have hpositions : ¬ idx.hasPositions = false := by
    rw [h.positions, hprx]
    decide
  have heither : ∀ t, (∃ x : TermHit, x.Ok renv idx w.input true t) ∨ lookup renv idx t = .ok none ∧
      ∀ tp ∈ w.input.source.list, tp.postings.term ≠ t :=
    termHit_or_absent h hs fun _ => hprx
  rw [phrasePrefixQuery, if_neg hne, if_neg (by omega), if_neg hpositions]
  by_cases hall : ∀ t ∈ terms.dropLast, ∃ x : TermHit, x.Ok renv idx w.input true t
  case neg =>
    push Not at hall
    obtain ⟨t, ht, hnot⟩ := hall
    obtain ⟨hlookup, habsent⟩ := (heither t).resolve_left fun ⟨x, hx⟩ => hnot x hx
    rw [resolveExactTerms_absent (i := w.input) (fun t _ => (heither t).imp_right And.left)
      ⟨t, ht, hlookup⟩, ok_bind]
    apply prefixAnswers_empty
    left
    intro d hd
    obtain ⟨tp, htp, hterm, -⟩ := hd t ht
    exact habsent tp htp hterm
  case pos =>
    obtain ⟨xs, hxs⟩ := exists_forall₂ hall
    have hhits := hits_fit hxs hfit
    obtain ⟨hits, henum, htails⟩ := tailHits h hs hprx (terms.getLastD [])
    rw [resolveExactTerms_found hxs, ok_bind]
    simp only
    rw [henum, ok_bind]
    by_cases hnil : hits = []
    · rw [if_pos hnil]
      apply prefixAnswers_empty
      right
      intro tp htp hpre
      obtain ⟨hit, hhit, -⟩ := htails.complete tp htp hpre
      rw [hnil] at hhit
      cases hhit
    · rw [if_neg hnil]
      constructor
      case exact =>
        intro hshort
        obtain ⟨expected, hcollect, hexpected⟩ := collectExpectedTailPositions_ok srt hs hprx
          h.holds.size hexactNe hxs hhits (by omega)
        have hjoin := joinTails_phrase srt hprx h.holds.size hfit htails hexpected
        rw [hcount] at hjoin
        rw [hcollect, ok_bind]
        by_cases hnone : expected = []
        · rw [if_pos hnone]
          refine ⟨[], rfl, List.Pairwise.nil, fun d => ⟨fun hd => (nomatch hd), ?_⟩⟩
          rintro ⟨p, hphrase, tp, htp, -, hoccurs⟩
          obtain ⟨e, he, -⟩ := hexpected.complete d p hphrase
            (hcount ▸ (hfit tp htp).widths _ hoccurs.mem_supplied)
          rw [hnone] at he
          cases he
        · rw [if_neg hnone]
          exact hjoin
      case tooLong =>
        intro hlong hshared _
        rw [collectExpectedTailPositions_tooLong srt hs h.holds.size hexactNe hxs (by omega) hshared]
        rfl

theorem prefixAnswers_written {adds : List AddCall} {a : AddCall} (srt : DocSort)
    (h : WrittenIndex env renv adds a) (hcaps : CapsOk env adds) (hprx : a.input.hasPrx = true)
    (hfit : ∀ tp ∈ a.input.source.list, PositionsFit tp) :
    ∃ idx, OpensFrom env renv adds a idx ∧ ∀ terms : List Bytes, 2 ≤ terms.length →
      PrefixAnswers (phrasePrefixQuery srt renv idx terms) a.input terms := by
  obtain ⟨idx, hopens, w, blocks, region, dictOff, -, hin, hserves⟩ := h.serves hcaps
  refine ⟨idx, hopens, fun terms hlen => ?_⟩
  have hanswers := phrasePrefixQuery_answers srt hserves (hin ▸ h.sorted) (hin ▸ hprx)
    (by rw [hin]; exact hfit) hlen
  rwa [hin] at hanswers

/-- **Phrase search with a prefix at the end is exact** over every written index with
positions, within the reader's caps, for phrases whose offsets have 32 bits. -/
theorem phrasePrefixQuery_exact {adds : List AddCall} {a : AddCall} (srt : DocSort)
    (h : WrittenIndex env renv adds a) (hcaps : CapsOk env adds) (hprx : a.input.hasPrx = true)
    (hfit : ∀ tp ∈ a.input.source.list, PositionsFit tp) :
    ∃ idx, OpensFrom env renv adds a idx ∧ ∀ terms : List Bytes, 2 ≤ terms.length →
      PrefixAnswers (phrasePrefixQuery srt renv idx terms) a.input terms := by
  exact prefixAnswers_written srt h hcaps hprx hfit

/-- A phrase with a repeated term before any completion, and a document that has it. -/
theorem phrasePrefixQuery_exact_repeats : ∃ idx,
    OpensFrom storeEnv storeReadEnv twoCalls positionalCall idx ∧
      PrefixAnswers (phrasePrefixQuery DocSort.stable storeReadEnv idx [[97], [97], []])
        positionalCall.input [[97], [97], []] ∧
      PhrasePrefixAt positionalCall.input [[97], [97], []] (2 ^ 26) 0 := by
  obtain ⟨idx, hopens, hanswers⟩ := phrasePrefixQuery_exact DocSort.stable positional_written
    capsOk_twoCalls rfl positional_fit
  refine ⟨idx, hopens, hanswers _ (by decide), ?_, ?_⟩
  · rintro (_ | _ | k) t ht
    · cases ht
      exact ⟨_, List.mem_cons_self, rfl, by decide +kernel⟩
    · cases ht
      exact ⟨_, List.mem_cons_self, rfl, by decide +kernel⟩
    · cases ht
  · exact ⟨_, List.mem_cons_of_mem _ List.mem_cons_self, List.nil_prefix, by decide +kernel⟩

/-- As many terms as there are offsets, all of them one term of the index. -/
theorem phrasePrefixQuery_tooLong : ∃ idx,
    OpensFrom storeEnv storeReadEnv twoCalls positionalCall idx ∧
      ¬ Returns (phrasePrefixQuery DocSort.stable storeReadEnv idx
        (List.replicate (2 ^ 32 - 1) [97])) fun d =>
          ∃ p, PhrasePrefixAt positionalCall.input (List.replicate (2 ^ 32 - 1) [97]) d p := by
  obtain ⟨idx, hopens, hanswers⟩ := prefixAnswers_written DocSort.stable positional_written
    capsOk_twoCalls rfl positional_fit
  generalize hn : 2 ^ 32 - 1 = n
  have hlen : 2 ≤ (List.replicate n ([97] : Bytes)).length := by
    rw [List.length_replicate]
    omega
  have hshared : ∀ t ∈ (List.replicate n ([97] : Bytes)).dropLast,
      HasTerm positionalCall.input t 1 := by
    intro t ht
    rw [List.eq_of_mem_replicate (List.dropLast_subset _ ht)]
    exact ⟨_, List.mem_cons_self, rfl, List.mem_cons_self⟩
  have hlast : (List.replicate n ([97] : Bytes)).getLastD [] = [97] := by
    obtain ⟨k, rfl⟩ : ∃ k, n = k + 1 := ⟨n - 1, by omega⟩
    rw [List.replicate_succ', List.getLastD_concat]
  have htail : ∃ tp ∈ positionalCall.input.source.list,
      (List.replicate n ([97] : Bytes)).getLastD [] <+: tp.postings.term := by
    rw [hlast]
    exact ⟨_, List.mem_cons_self, List.prefix_rfl⟩
  refine ⟨idx, hopens, ?_⟩
  rintro ⟨docs, hout, -, -⟩
  rw [(hanswers _ hlen).tooLong (by rw [List.length_replicate, hn]) ⟨1, hshared⟩ htail] at hout
  cases hout

end Snii.Query.PhrasePrefixQuery
