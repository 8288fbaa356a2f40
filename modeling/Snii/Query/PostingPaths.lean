import Snii.Query.BooleanOr
import Snii.Query.CursorPostings
import Snii.Query.PhraseQuery
import Snii.Writer.BudgetFree

/-!
# Three ways into a posting

A term that the writer accepted is read back from its dictionary entry: without its
frequencies, with them, and with its positions.  All paths give the term's own postings,
whichever encoding its document frequency and its encoded size led to
(`posting_roundTrip`).
-/

namespace Snii.Query.PostingPaths

open Snii.Lib.ByteReader Snii.Lib.Aligned Snii.Lib.Chunks Snii.Common Snii.Io.BatchRangeFetcher
open Snii.Reader Snii.Query.DocidPosting Snii.Query.DocidSetOps Snii.Query.DocidUnion
open Snii.Query.BooleanOr (readDocidPosting_ok)
open Snii.Query.Conjunction Snii.Query.CursorPostings Snii.Query.PositionCursor
open Snii.Query.PhraseQuery
open Snii.Query.ScoringQuery (DocSort)
open Snii.Encoding.Compression Snii.Format.Dict
open Snii.Format.DictBlock (Resolved length_prxBytes_le writeBody_lt)
open Snii.Format.PrxPod (splitCounts)
open Snii.Writer.SpillRunCodec Snii.Writer.LogicalIndexWriter

/-! ## The positional path -/

/-- A phrase of one term: its plan, its parts, and a cursor over all of its documents. -/
def termPositions (srt : DocSort) (z : Zstd) (idx : LogicalIndexReader) (r : Resolved) :
    Result (List (Nat × List Nat)) := do
  let (plans, reqs) ← planResolvedTerms idx true [] [r]
  let (srcs, candidates) ← buildPhraseExecutionState srt z idx reqs plans
  streamCandidates z (fun d spans => some (d, spans.headD [])) (cursorsOver srcs) candidates

section Positions

variable {z : Zstd} {c : EntryConfig} {idx : LogicalIndexReader} {r : Resolved} {tp : Emitted}

/-- The documents of a term, each with the positions it is asked for. -/
theorem map_positionsAt (hasc : tp.postings.docids.Pairwise (· < ·))
    (hlen : tp.postings.freqs.length = tp.postings.docids.length) :
    (tp.postings.docids.map fun d => (d, positionsAt tp d)) = docRows tp := by
  have hle : tp.postings.docids.length ≤ (docPositions tp).length := by
    rw [docPositions, length_splitCounts, hlen]
  have hfst : (docRows tp).map Prod.fst = tp.postings.docids := List.map_fst_zip hle
  have hself : (docRows tp).map (fun x => (x.1, positionsAt tp x.1)) = docRows tp := by
    conv_rhs => rw [← List.map_id (docRows tp)]
    apply List.map_congr_left
    intro x hx
    rw [positionsAt_of_mem hasc hlen hx]
    rfl
  conv_lhs => rw [← hfst, List.map_map]
  exact hself

/-- **A phrase of one term** visits all documents of a written posting with their
positions. -/
theorem termPositions_ok (srt : DocSort) (h : EntryAt z c idx tp r)
    (hwidths : TermWidths tp.postings)
    (hlen : tp.postings.freqs.length = tp.postings.docids.length)
    (hasc : Ascending tp.postings.docids)
    (hwide : r.entry.enc = .windowed → kSlimDfThreshold ≤ tp.postings.docids.length)
    (hprx : c.hasPrx = true) (hfit : PositionsFit tp) (hsize : idx.file.length < 2 ^ 64) :
    termPositions srt z idx r = .ok (docRows tp) := by
  obtain ⟨vs, cells, hwindows, hreadable⟩ :=
    @readable_of_entryAt z idx true c tp r h hwidths hlen hasc hwide fun _ => hprx
  obtain ⟨plans, reqs, round1, opened, hplans, hfetch, hopened, hreads⟩ :=
    @round1_ok z idx true hsize [⟨r, cells, vs.map (partOf true)⟩] (by
      intro x hx
      cases List.mem_singleton.mp hx
      exact hreadable)
  obtain ⟨srcs, docs, hbuilt, hnarrowed, hcount⟩ := buildConjunction_ok srt hreads (by simp)
  obtain ⟨sel, rfl⟩ := List.length_eq_one_iff.mp hcount
  have hall : docsOf (vs.map (partOf true)) = tp.postings.docids := by
    rw [docsOf_parts, hwindows.docs hlen]
  have hdocs : docs = tp.postings.docids := by
    apply List.Pairwise.eq_of_mem_iff hnarrowed.ascending hasc
    intro d
    rw [hnarrowed.mem d, ← hall]
    simp
  have hkept : ∀ d ∈ docs, sel.Sublist (vs.map (partOf true)) ∧ d ∈ docsOf sel := by
    intro d hd
    obtain ⟨sel', hsel', hsub, hin⟩ := hnarrowed.kept 0 (by simp) d hd
    cases hsel'
    exact ⟨hsub, hin⟩
  have hstate : buildPhraseExecutionState srt z idx reqs plans = .ok ([sel], docs) := by
    rw [buildPhraseExecutionState, hfetch, ok_bind, hopened, ok_bind, hbuilt]
  have hstream : streamCandidates z (fun d spans => some (d, spans.headD [])) (cursorsOver [sel])
      docs = .ok (docs.filterMap fun d => some (d, positionsAt tp d)) := by
    cases hnil : docs with
    | nil => rfl
    | cons d rest =>
        have hsub := (hkept d (by rw [hnil]; exact List.mem_cons_self)).1
        have hcursor := cursorOk_of_parts hwindows hprx hlen hwidths hasc hfit hsub
        rw [← hnil]
        have hcursors : List.Forall₂ (fun posAt cur => CursorOk z posAt 0 cur) [positionsAt tp]
            (cursorsOver [sel]) := .cons hcursor .nil
        apply streamCandidates_ok _ hcursors hnarrowed.ascending fun d _ => Nat.zero_le d
        intro e he cur hcur
        cases List.mem_singleton.mp hcur
        exact (hkept e he).2
  have hplan : planResolvedTerms idx true [] [r] = .ok (plans, reqs) := hplans
  rw [termPositions, hplan, ok_bind]
  simp only
  rw [hstate, ok_bind]
  simp only
  rw [hstream, hdocs, List.filterMap_eq_map', map_positionsAt hasc hlen]

/-! ## Windowed postings -/

/-- A posting that is kept in windows. -/
def InWindows (r : Resolved) : Prop := r.entry.kind = .podRef ∧ r.entry.enc = .windowed

/-- A posting's documents, with whatever else is asked for. -/
def decodedPosting (tp : Emitted) (wantPositions wantFreq : Bool) : DecodedPosting where
  docids := tp.postings.docids
  freqs := if wantFreq then tp.postings.freqs else []
  positions := if wantPositions then splitCounts tp.postings.freqs tp.positions else []

/-- A written posting that is kept in windows has them in the file. -/
theorem windowedAt_of_entryAt (h : EntryAt z c idx tp r) (hr : InWindows r) :
    ∃ vs prelude, Windowed z c tp vs prelude ∧ WindowedAt c idx r vs prelude := by
  cases h with
  | windowed vs prelude term placed => exact ⟨vs, prelude, term, placed⟩
  | inline prx positions regions kind frq prxHere =>
      have hkind := hr.1
      rw [kind] at hkind
      cases hkind
  | slim prx frqAbs prxAbs positions regions kind docsLen frqRange frqHere prxRange prxHere =>
      have henc := hr.2
      rw [regions.enc] at henc
      cases henc

theorem decodedAs_term {vs : List Window} {prelude : Bytes} (h : Windowed z c tp vs prelude)
    (hlen : tp.postings.freqs.length = tp.postings.docids.length)
    (hwide : kSlimDfThreshold ≤ tp.postings.docids.length) (wantPositions wantFreq : Bool) :
    decodedAs wantPositions wantFreq vs (positionWindows tp) =
      decodedPosting tp wantPositions wantFreq := by
  obtain ⟨hdocs, hfreqs⟩ := h.windows hlen
  have hunit := unitOf_bounds tp.postings
  rw [decodedAs, decodedPosting, List.flatMap_def, hdocs, List.flatMap_def, hfreqs,
    flatten_chunks (by omega), flatten_chunks (by omega), flatten_positionWindows, docPositions,
    suppliedPositions, if_pos hwide]

/-- **A whole windowed posting** gives whatever is asked for. -/
theorem readWindowedPosting_term {vs : List Window} {prelude : Bytes}
    (h : Windowed z c tp vs prelude) (hat : WindowedAt c idx r vs prelude)
    (hwide : kSlimDfThreshold ≤ tp.postings.docids.length) (hwidths : TermWidths tp.postings)
    (hlen : tp.postings.freqs.length = tp.postings.docids.length)
    (hfit : c.hasPrx = true → PositionsFit tp) {wantPositions wantFreq : Bool}
    (hprx : wantPositions = true → c.hasPrx = true)
    (hfreq : wantFreq = true → c.hasFreq = true) :
    readWindowedPosting z idx r wantPositions wantFreq =
      .ok (decodedPosting tp wantPositions wantFreq) := by
  have hwindows := TermWindows.windowed vs prelude hwide h
  have hcounts := hwindows.counts hlen hwidths
  have hpos : List.Forall₂ (fun v ps => wantPositions = true →
      decodePositions z v.prx v.docs.length = .ok ps) vs (positionWindows tp) := by
    cases hw : wantPositions with
    | false => exact hcounts.imp fun _ _ _ hfalse => absurd hfalse Bool.false_ne_true
    | true =>
        have hc := hprx hw
        have hholds := hwindows.positions hc hlen (hfit hc)
        exact (forall₂_and hholds hcounts).imp fun _ _ hx _ => hx.2 ▸ hx.1.decodePositions
  rw [readWindowedPosting_ok hat hfreq hprx hpos, decodedAs_term h hlen hwide]

/-- **One window at a time**, a windowed posting gives the same. -/
theorem materializeWindowPostings_term {vs : List Window} {prelude : Bytes}
    (h : Windowed z c tp vs prelude) (hat : WindowedAt c idx r vs prelude)
    (hlen : tp.postings.freqs.length = tp.postings.docids.length) (hc : c.hasFreq = true) :
    ∃ opened parts, fetchWindowedPrelude idx r.entry r.frqBase = .ok opened ∧
      (List.range opened.windows.length).mapM (materializeWindowPostings z idx r opened) =
        .ok parts ∧
      parts.flatMap Prod.fst = tp.postings.docids ∧ parts.flatMap Prod.snd = tp.postings.freqs := by
  obtain ⟨hdocs, hfreqs⟩ := h.windows hlen
  have hunit : 0 < unitOf tp.postings :=
    Nat.lt_of_lt_of_le (by decide) (unitOf_bounds tp.postings).1
  have hcount : (Format.FrqPrelude.readerOf (columns c vs)).windows.length = vs.length := by
    show (rows c 0 0 0 0 vs).length = vs.length
    rw [← List.length_map Format.FrqPrelude.WindowMeta.lastDocid, lastDocids_rows, List.length_map]
  refine ⟨_, vs.map fun v => (v.docs, v.freqs), fetchWindowedPrelude_ok hat, ?_, ?_, ?_⟩
  · rw [hcount]
    exact mapM_range_ok fun i v hv => materializeWindowPostings_ok hat hc hv
  · rw [List.flatMap_map, List.flatMap_def]
    exact (congrArg List.flatten hdocs).trans (flatten_chunks hunit _)
  · rw [List.flatMap_map, List.flatMap_def]
    exact (congrArg List.flatten hfreqs).trans (flatten_chunks hunit _)

end Positions

/-! ## Pumped positions -/

/-- A streamed term announces as many positions as its pump yields, and its flat buffer
is empty. -/
def PumpOk (tp : Emitted) : Prop :=
  tp.postings.streamed = true →
    tp.pulled.length = tp.postings.posTotal ∧ tp.postings.positionsFlat = []

instance (tp : Emitted) : Decidable (PumpOk tp) := by
  unfold PumpOk
  infer_instance

/-- The term with its positions in the flat buffer. -/
def materialized (tp : Emitted) : Emitted where
  postings :=
    { tp.postings with positionsFlat := tp.positions, streamed := false, posTotal := 0 }

section Pump

variable {z : Zstd} {c : EntryConfig} {tp : Emitted} {frqBase prxBase : Nat} {before after : Bytes}
  {e : DictEntry}

/-- A slim term that was accepted has all its positions in the flat buffer. -/
theorem positionsFlat_of_slim (hbuilt : buildEntry z c tp frqBase prxBase before = .ok e after)
    (hvalid : validateTerm c.hasPrx tp.postings = .ok ()) (hprx : c.hasPrx = true)
    (hpump : PumpOk tp) (hslim : (entryStats tp.postings).df < kSlimDfThreshold) :
    tp.postings.positionsFlat = tp.positions := by
  rw [Emitted.positions]
  cases hs : tp.postings.streamed with
  | false => rfl
  | true =>
      obtain ⟨hcount, hflat⟩ := hpump hs
      unfold buildEntry at hbuilt
      rw [if_neg (Nat.not_le.mpr hslim)] at hbuilt
      obtain ⟨-, prx, hpositions, -⟩ := buildSlimEntry_eq_ok hbuilt
      rw [makePrxWindow, if_pos hprx] at hpositions
      have hsum := sum_eq_length_of_built hpositions
      have htotal := (of_validateTerm hvalid).2 hprx
      rw [announcedPositions, hs, if_pos rfl] at htotal
      rw [hflat, List.length_nil] at hsum
      rw [if_pos rfl, hflat, List.length_eq_zero_iff.mp (show tp.pulled.length = 0 by omega)]

/-- The positions that a written term was given. -/
theorem suppliedPositions_eq (hbuilt : buildEntry z c tp frqBase prxBase before = .ok e after)
    (hvalid : validateTerm c.hasPrx tp.postings = .ok ()) (hprx : c.hasPrx = true)
    (hpump : PumpOk tp) (hcount : tp.postings.docids.length < 2 ^ 32) :
    suppliedPositions tp = tp.positions := by
  rw [suppliedPositions]
  split
  case isTrue => rfl
  case isFalse hslim =>
    apply positionsFlat_of_slim hbuilt hvalid hprx hpump
    show tp.postings.docids.length % 2 ^ 32 < kSlimDfThreshold
    rw [Nat.mod_eq_of_lt hcount]
    exact Nat.not_le.mp hslim

/-- **The pump or the flat buffer**: an accepted term becomes the same entry over the same
bytes either way. -/
theorem buildEntry_materialized (hbuilt : buildEntry z c tp frqBase prxBase before = .ok e after)
    (hvalid : validateTerm c.hasPrx tp.postings = .ok ()) (hprx : c.hasPrx = true)
    (hpump : PumpOk tp) :
    buildEntry z c (materialized tp) frqBase prxBase before = .ok e after := by
  have hsame : SameTerm c.hasPrx tp (materialized tp) := by
    constructor
    case term => rfl
    case docids => rfl
    case freqs => rfl
    case count =>
      show announcedPositions tp.postings = tp.positions.length
      rw [announcedPositions, Emitted.positions]
      cases hs : tp.postings.streamed with
      | false => rfl
      | true => exact (hpump hs).1.symm
    case positions => exact fun _ _ _ => rfl
    case slim => exact positionsFlat_of_slim hbuilt hvalid hprx hpump
  rw [← SameTerm.buildEntry_eq hsame hvalid]
  exact hbuilt

end Pump

/-! ## The round trip -/

/-- What the reader gives of a posting, by each of its paths. -/
structure ReadsBack (z : Zstd) (c : EntryConfig) (idx : LogicalIndexReader) (tp : Emitted)
    (r : Resolved) : Prop where
  docids : readDocidPosting z idx r = .ok tp.postings.docids
  freqs : c.hasFreq = true →
    buildCursorPostings z idx r = .ok (tp.postings.docids, tp.postings.freqs)
  positions : c.hasPrx = true → ∀ srt, termPositions srt z idx r =
    .ok (tp.postings.docids.zip (splitCounts tp.postings.freqs tp.positions))
  whole : InWindows r → ∀ wantPositions wantFreq, (wantPositions = true → c.hasPrx = true) →
    (wantFreq = true → c.hasFreq = true) →
      readWindowedPosting z idx r wantPositions wantFreq =
        .ok (decodedPosting tp wantPositions wantFreq)
  windows : InWindows r → c.hasFreq = true → ∃ opened parts,
    fetchWindowedPrelude idx r.entry r.frqBase = .ok opened ∧
      (List.range opened.windows.length).mapM (materializeWindowPostings z idx r opened) =
        .ok parts ∧
      parts.flatMap Prod.fst = tp.postings.docids ∧ parts.flatMap Prod.snd = tp.postings.freqs

variable {env : BuildEnv} {i : SniiIndexInput} {region : Bytes} {tp : Emitted} {r : Resolved}
  {idx : LogicalIndexReader}

/-- The entry as the dictionary returns it, with the bases of its block. -/
def stored (i : SniiIndexInput) (r : Resolved) : Resolved :=
  ⟨r.entry.stored i.tier, r.frqBase, if i.hasPrx then r.prxBase else 0⟩

theorem entryAt_stored (h : WroteAt env i region tp r) (hwidths : TermWidths tp.postings)
    (hregion : HoldsRegion idx region) :
    EntryAt env.zstd i.entryConfig idx tp (stored i r) := by
  obtain ⟨before, after, more, hsplit, hbase, hbuilt⟩ := h.built
  rw [h.bases] at hbuilt
  have hbases : i.entryConfig.hasPrx = true → (stored i r).prxBase = r.frqBase :=
    fun hprx => (if_pos hprx).trans h.bases
  exact entryAt_of_built hregion hsplit hbuilt hbase h.lengths hwidths i.tier_spec.1
    i.tier_spec.2 rfl rfl hbases

theorem readsBack_stored (h : WroteAt env i region tp r) (hwidths : TermWidths tp.postings)
    (hpump : i.hasPrx = true → PumpOk tp) (hfit : i.hasPrx = true → PositionsFit tp)
    (hregion : HoldsRegion idx region) :
    ReadsBack env.zstd i.entryConfig idx tp (stored i r) := by
  have hat := entryAt_stored h hwidths hregion
  have hsize := hregion.size
  have hasc := ascending_of_validateTerm h.valid
  have hwide : (stored i r).entry.enc = .windowed →
      kSlimDfThreshold ≤ tp.postings.docids.length := by
    intro henc
    apply h.wide
    rwa [stored, DictEntry.stored_enc] at henc
  have hsupplied : i.hasPrx = true → suppliedPositions tp = tp.positions := by
    intro hprx
    obtain ⟨before, after, more, -, -, hbuilt⟩ := h.built
    exact suppliedPositions_eq hbuilt h.valid hprx (hpump hprx) hwidths.count
  constructor
  case docids => exact readDocidPosting_ok hsize (docsAt_of_entryAt hat hwidths h.lengths)
  case freqs => exact fun hc => buildCursorPostings_ok hat hwidths h.lengths hc hsize
  case positions =>
    intro hprx srt
    rw [termPositions_ok srt hat hwidths h.lengths hasc hwide hprx (hfit hprx) hsize, docRows,
      docPositions, hsupplied hprx]
  case whole =>
    intro hr wantPositions wantFreq hprx hfreq
    obtain ⟨vs, prelude, hterm, hplaced⟩ := windowedAt_of_entryAt hat hr
    exact readWindowedPosting_term hterm hplaced (hwide hr.2) hwidths h.lengths hfit hprx hfreq
  case windows =>
    intro hr hc
    obtain ⟨vs, prelude, hterm, hplaced⟩ := windowedAt_of_entryAt hat hr
    exact materializeWindowPostings_term hterm hplaced h.lengths hc

/-- The dictionary returns the stored part of an entry that was written. -/
theorem decodeDictEntry_written (h : WroteAt env i region tp r) (hwidths : TermWidths tp.postings)
    (hterm : tp.postings.term.length < 2 ^ 32) (hsize : region.length < 2 ^ 64) {prev : Bytes}
    (hentry : (encodeDictEntry r.entry prev i.tier).length < 2 ^ 64) (rest : Bytes) :
    (decodeDictEntry prev i.tier).run (encodeDictEntry r.entry prev i.tier ++ rest) =
      .ok (r.entry.stored i.tier, rest) := by
  obtain ⟨before, after, more, hsplit, -, hbuilt⟩ := h.built
  have hafter : after.length < 2 ^ 64 := by
    rw [hsplit, List.length_append] at hsize
    omega
  have hok : EntryOk i.tier r.entry := by
    refine entryOk_of_built hbuilt h.lengths hwidths hafter (h.term ▸ hterm) i.tier_spec.2 ?_
    exact fun hkind htier => Nat.lt_of_le_of_lt (length_prxBytes_le _ prev _ hkind htier) hentry
  exact reads_dictEntry hok (writeBody_lt hentry) rest

/-- **Posting round trip**: the entry of an accepted term decodes from the dictionary's
bytes, every path from it leads to the term's own postings, and a pump instead of the flat
buffer makes no difference. -/
theorem posting_roundTrip (h : WroteAt env i region tp r) (hwidths : TermWidths tp.postings)
    (hterm : tp.postings.term.length < 2 ^ 32) (hpump : i.hasPrx = true → PumpOk tp)
    (hfit : i.hasPrx = true → PositionsFit tp) (hregion : HoldsRegion idx region) {prev : Bytes}
    (hentry : (encodeDictEntry r.entry prev i.tier).length < 2 ^ 64) (rest : Bytes) :
    ∃ e, (decodeDictEntry prev i.tier).run (encodeDictEntry r.entry prev i.tier ++ rest) =
        .ok (e, rest) ∧
      ReadsBack env.zstd i.entryConfig idx tp
        ⟨e, r.frqBase, if i.hasPrx then r.prxBase else 0⟩ ∧
      (i.hasPrx = true → ∀ frqBase prxBase before e' after,
        buildEntry env.zstd i.entryConfig tp frqBase prxBase before = .ok e' after →
        buildEntry env.zstd i.entryConfig (materialized tp) frqBase prxBase before =
          .ok e' after) := by
  have hsize : region.length < 2 ^ 64 := by
    have hbound := hregion.here.bound
    have hfile := hregion.size
    omega
  refine ⟨_, decodeDictEntry_written h hwidths hterm hsize hentry rest,
    readsBack_stored h hwidths hpump hfit hregion, ?_⟩
  intro hprx frqBase prxBase before e' after hbuilt
  exact buildEntry_materialized hbuilt h.valid hprx (hpump hprx)

/-- A term of a hundred documents, far apart: its regions are too long to be inline. -/
def hundredDocs : Emitted where
  postings :=
    { term := [98], docids := (List.range 100).map (· * 2 ^ 25), freqs := List.replicate 100 1
      positionsFlat := List.range 100 }

/-- A build step that succeeds with lengths that have 64 bits. -/
def fitsFormat (tier : IndexTier) : EStateM.Result Status Bytes DictEntry → Bool
  | .ok e region => region.length < 2 ^ 64 ∧ (encodeDictEntry e [] tier).length < 2 ^ 64
  | .error _ _ => false

/-- A file that is one posting region. -/
def regionReader (region : Bytes) : LogicalIndexReader where
  file := region
  tier := .t2
  hasPositions := true
  indexMeta := { sectionRefs := { postingRegion := ⟨0, region.length⟩ } }
  sampleTerms := []
  blockRefs := []
  bsbf := none

theorem posting_roundTrip_hundredDocs : ∃ e region,
    buildEntry storeEnv.zstd tiledInput.entryConfig hundredDocs 0 0 [] = .ok e region ∧
      ∃ stored, (decodeDictEntry [] .t2).run (encodeDictEntry e [] .t2 ++ []) = .ok (stored, []) ∧
        ReadsBack storeEnv.zstd tiledInput.entryConfig (regionReader region) hundredDocs
          ⟨stored, 0, 0⟩ := by
  have hrun : fitsFormat .t2
      (buildEntry storeEnv.zstd tiledInput.entryConfig hundredDocs 0 0 []) = true := by
    decide +kernel
  cases hbuilt : buildEntry storeEnv.zstd tiledInput.entryConfig hundredDocs 0 0 [] with
  | error e region =>
      rw [hbuilt] at hrun
      cases hrun
  | ok e region =>
      rw [hbuilt, fitsFormat, decide_eq_true_eq] at hrun
      have hwrote : WroteAt storeEnv tiledInput region hundredDocs ⟨e, 0, 0⟩ := by
        refine ⟨?_, by decide +kernel, rfl, [], region, [], by simp, Nat.le_refl 0, hbuilt⟩
        exact (buildEntry_spans (Nat.le_refl 0) (Nat.le_refl 0) hbuilt).1
      have hholds : HoldsRegion (regionReader region) region :=
        ⟨⟨[], [], by simp [regionReader], rfl⟩, rfl, hrun.1⟩
      obtain ⟨stored, hdecoded, hreads, -⟩ := posting_roundTrip hwrote (by decide +kernel)
        (by decide) (fun _ => by decide) (fun _ => by decide +kernel) hholds hrun.2 []
      exact ⟨e, region, rfl, stored, hdecoded, hreads⟩

end Snii.Query.PostingPaths
