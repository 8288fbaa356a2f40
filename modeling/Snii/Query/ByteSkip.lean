import Snii.Query.QueryReads
import Snii.Reader.ReaderSafety
import Snii.Reader.WindowRanges
import Snii.Reader.WrittenTerms
import Snii.Writer.PostingTiling

/-!
# Bytes that queries skip

A posting lies in the file as its positions, its prelude with its docid regions, and its
frequencies.  Over a written index a docid query reads the filter, the dictionary and the
docids of postings, a phrase query the positions besides, and no batch merges anything
else into its reads.  Neither meets the frequencies of any posting, so no answer changes
whatever becomes of the bytes that the query skips (`queries_skip`).
-/

namespace Snii.Writer.LogicalIndexWriter

open Snii.Lib.ByteReader Snii.Format.Dict Snii.Format.DictBlock

/-! ## Tiles apart -/

/-- Where the span of an entry starts: its positions are in front of the rest. -/
def spanStart (c : EntryConfig) (r : Resolved) : Nat :=
  r.frqBase + r.entry.frqOffDelta - if c.hasPrx then r.entry.prxLen else 0

def spanStop (r : Resolved) : Nat := r.frqBase + r.entry.frqOffDelta + r.entry.frqLen

variable {c : EntryConfig} {off : Nat} {rs : List Resolved} {bytes : Bytes} {r r' : Resolved}

theorem EntrySpan.bounds {span : Bytes} (h : EntrySpan c r.frqBase r.prxBase r.entry off span)
    (hkind : r.entry.kind = .podRef) :
    spanStart c r = off ∧ spanStop r = off + span.length ∧
      (if c.hasPrx then r.entry.prxLen else 0) ≤ r.frqBase + r.entry.frqOffDelta ∧
      (c.hasPrx = true → r.prxBase + r.entry.prxOffDelta = off) := by
  rw [EntrySpan, hkind] at h
  obtain ⟨prx, frq, rfl, hof⟩ := h
  have hfrq := hof.frqOff
  have hlen := hof.frqLen
  have hprx : (if c.hasPrx then r.entry.prxLen else 0) = prx.length := by
    cases hc : c.hasPrx with
    | true => exact hof.prxLen hc
    | false => rw [hof.noPrx hc]; rfl
  rw [spanStart, spanStop, hprx, List.length_append]
  exact ⟨by omega, by omega, by omega, hof.prxOff⟩

theorem TilesRegion.bounds (h : TilesRegion c off rs bytes) (hr : r ∈ rs)
    (hkind : r.entry.kind = .podRef) :
    off ≤ spanStart c r ∧ spanStop r ≤ off + bytes.length ∧
      (if c.hasPrx then r.entry.prxLen else 0) ≤ r.frqBase + r.entry.frqOffDelta ∧
      (c.hasPrx = true → r.prxBase + r.entry.prxOffDelta = spanStart c r) := by
  induction rs generalizing off bytes with
  | nil => cases hr
  | cons q rs ih =>
      obtain ⟨span, more, rfl, hspan, hmore⟩ := h
      rw [List.length_append]
      cases List.mem_cons.mp hr with
      | inl heq =>
          subst heq
          obtain ⟨hstart, hstop, hle, hprx⟩ := hspan.bounds hkind
          exact ⟨by omega, by omega, hle, fun hc => (hprx hc).trans hstart.symm⟩
      | inr hin =>
          obtain ⟨hstart, hstop, hrest⟩ := ih hmore hin
          exact ⟨by omega, by omega, hrest⟩

/-- **The spans** of two entries do not meet. -/
theorem TilesRegion.apart (h : TilesRegion c off rs bytes) (hr : r ∈ rs) (hr' : r' ∈ rs)
    (hkind : r.entry.kind = .podRef) (hkind' : r'.entry.kind = .podRef) :
    r = r' ∨ spanStop r ≤ spanStart c r' ∨ spanStop r' ≤ spanStart c r := by
  induction rs generalizing off bytes with
  | nil => cases hr
  | cons q rs ih =>
      obtain ⟨span, more, rfl, hspan, hmore⟩ := h
      cases List.mem_cons.mp hr with
      | inl heq =>
          cases List.mem_cons.mp hr' with
          | inl heq' => exact .inl (heq.trans heq'.symm)
          | inr hin' =>
              subst heq
              have hfirst := (hspan.bounds hkind).2.1
              have hlater := (hmore.bounds hin' hkind').1
              exact .inr (.inl (hfirst.trans_le hlater))
      | inr hin =>
          cases List.mem_cons.mp hr' with
          | inl heq' =>
              subst heq'
              have hfirst := (hspan.bounds hkind').2.1
              have hlater := (hmore.bounds hin hkind).1
              exact .inr (.inr (hfirst.trans_le hlater))
          | inr hin' => exact ih hmore hin hin'

end Snii.Writer.LogicalIndexWriter

namespace Snii.Query.ByteSkip

open Snii.Lib.ByteReader Snii.Lib.Aligned Snii.Lib.Requests Snii.Common
open Snii.Io.FileReader Snii.Io.BatchRangeFetcher Snii.Io.Requests
open Snii.Reader hiding lookup probeBsbf loadBlock prefixBlocks prefixTerms
open Snii.Query.QueryRequests Snii.Query.QueryReads
open Snii.Query.DocidPosting (planFlatDocs preludeRange slimDocsFetchLen length_slimDd_pos)
open Snii.Query.RegexpQuery (Regex)
open Snii.Query.ScoringQuery (DocSort)
open Snii.Format.Dict Snii.Format.DictBlock Snii.Format.Bsbf
open Snii.Format.PerIndexMeta (RegionRef)
open Snii.Format.FrqPrelude (FrqPreludeReader readerOf)
open Snii.Writer.SpillRunCodec Snii.Writer.LogicalIndexWriter Snii.Writer.CompoundWriter

/-! ## The parts of a posting -/

/-- The length of a posting's prelude and docid regions, as its entry or its prelude says. -/
def docidLen (idx : LogicalIndexReader) (r : Resolved) : Nat :=
  if r.entry.enc = .windowed then
    match FrqPreludeReader.open ((preludeRange idx r).bytesIn idx.file) with
    | .ok prelude => r.entry.preludeLen + prelude.ddBlockLen
    | .error _ => r.entry.frqLen
  else r.entry.frqDocsLen

def docidPart (idx : LogicalIndexReader) (r : Resolved) : Range :=
  ⟨preludeAbs idx r.entry r.frqBase, docidLen idx r⟩

/-- A byte of the part of one of the postings. -/
def PartByte (part : LogicalIndexReader → Resolved → Range) (idx : LogicalIndexReader)
    (rs : List Resolved) (b : Nat) : Prop :=
  ∃ r ∈ rs, r.entry.kind ≠ .inline ∧ (part idx r).offset ≤ b ∧ b < (part idx r).stop

/-- A byte of the dictionary or of the filter. -/
def TermByte (idx : LogicalIndexReader) (b : Nat) : Prop :=
  (idx.sectionRefs.dictRegion.offset ≤ b ∧
      b < idx.sectionRefs.dictRegion.offset + idx.sectionRefs.dictRegion.length) ∨
    idx.sectionRefs.bsbf.offset ≤ b ∧
      b < idx.sectionRefs.bsbf.offset + idx.sectionRefs.bsbf.length

/-- What docid queries read. -/
def DocidByte (idx : LogicalIndexReader) (rs : List Resolved) (b : Nat) : Prop :=
  TermByte idx b ∨ PartByte docidPart idx rs b

/-- How a posting lies in the posting region: its positions, its prelude and docid regions,
its frequencies. -/
structure LaidOut (idx : LogicalIndexReader) (r : Resolved) : Prop where
  start : idx.sectionRefs.postingRegion.offset + r.entry.prxLen ≤
    preludeAbs idx r.entry r.frqBase
  stop : preludeAbs idx r.entry r.frqBase + r.entry.frqLen ≤
    idx.sectionRefs.postingRegion.offset + idx.sectionRefs.postingRegion.length
  positions : idx.hasPositions = true →
    prxAbs idx r.entry r.prxBase + r.entry.prxLen = preludeAbs idx r.entry r.frqBase
  noPositions : idx.hasPositions = false → r.entry.prxLen = 0
  docids : docidLen idx r ≤ r.entry.frqLen
  flat : r.entry.enc ≠ .windowed → r.entry.preludeLen = 0 ∧ 0 < r.entry.frqDocsLen
  opens : r.entry.enc = .windowed → ∃ prelude,
    FrqPreludeReader.open ((preludeRange idx r).bytesIn idx.file) = .ok prelude

variable {D : Nat → Prop} {env : BuildEnv} {renv : ReadEnv} {adds : List AddCall} {a : AddCall}
  {idx : LogicalIndexReader} {r : Resolved} {rs : List Resolved}

/-! ## What is read of a posting -/

theorem docidLen_slim (h : r.entry.enc ≠ .windowed) : docidLen idx r = r.entry.frqDocsLen :=
  if_neg h

theorem docidLen_windowed (h : r.entry.enc = .windowed) {prelude : FrqPreludeReader}
    (hopen : FrqPreludeReader.open ((preludeRange idx r).bytesIn idx.file) = .ok prelude) :
    docidLen idx r = r.entry.preludeLen + prelude.ddBlockLen := by
  rw [docidLen, if_pos h, hopen]

/-- A flat locator without a prelude is where the entry's base and delta put it. -/
theorem resolveWindow_eq {ref : RegionRef} {base delta total off len : Nat}
    (h : resolveWindow ref base delta total 0 = .ok (off, len)) :
    off = (ref.offset + base + delta) % 2 ^ 64 ∧ len = total := by
  rw [resolveWindow] at h
  split at h
  · cases h
  · simp only at h
    split at h
    · cases h
    · split at h
      · cases h
      · cases h
        rw [Nat.add_zero, Nat.sub_zero, Nat.add_mod_mod, Nat.add_assoc]
        exact ⟨rfl, rfl⟩

theorem planFlatDocs_eq (h : LaidOut idx r) (henc : r.entry.enc ≠ .windowed) {range : Range}
    (hplan : planFlatDocs idx r = .ok range) : range = docidPart idx r := by
  obtain ⟨hprelude, hpos⟩ := h.flat henc
  rw [planFlatDocs] at hplan
  obtain ⟨⟨off, len⟩, hwindow, hplan⟩ := bind_eq_ok hplan
  obtain ⟨n, hn, hplan⟩ := bind_eq_ok hplan
  cases hplan
  rw [resolveFrqWindow, hprelude] at hwindow
  obtain ⟨rfl, rfl⟩ := resolveWindow_eq hwindow
  rw [slimDocsFetchLen, if_pos hpos] at hn
  split at hn
  · cases hn
  · cases hn
    rw [docidPart, docidLen_slim henc]
    rfl

theorem prelude_le_docids (h : LaidOut idx r) (henc : r.entry.enc = .windowed) :
    r.entry.preludeLen ≤ docidLen idx r := by
  obtain ⟨prelude, hopen⟩ := h.opens henc
  rw [docidLen_windowed henc hopen]
  exact Nat.le_add_right _ _

/-- The docid region of a window is in the docid part. -/
theorem window_in_docids (h : LaidOut idx r)
    (hsize : idx.sectionRefs.postingRegion.offset + idx.sectionRefs.postingRegion.length < 2 ^ 64)
    (henc : r.entry.enc = .windowed) {prelude : FrqPreludeReader}
    (hopen : FrqPreludeReader.open ((preludeRange idx r).bytesIn idx.file) = .ok prelude)
    {w : Nat} {wantPositions : Bool} {range : WindowAbsRange}
    (hrange : windowedWindowRange idx r prelude w wantPositions false = .ok range) :
    (docidPart idx r).offset ≤ range.dd.offset ∧ range.dd.stop ≤ (docidPart idx r).stop := by
  obtain ⟨-, -, start, m, rfl, hdd, hrange, -, -⟩ := windowedWindowRange_inv hrange
  have hstop := h.stop
  have hdocids := h.docids
  rw [docidLen_windowed henc hopen] at hdocids
  rw [hrange, docidPart, docidLen_windowed henc hopen, Nat.mod_add_mod,
    Nat.mod_eq_of_lt (by omega)]
  simp only [Range.stop]
  omega

theorem postingIn_docids (h : LaidOut idx r)
    (hsize : idx.sectionRefs.postingRegion.offset + idx.sectionRefs.postingRegion.length < 2 ^ 64)
    (hD : Inside D (docidPart idx r)) : PostingIn D idx false r where
  flat henc range hplan := by
    rw [planFlatDocs_eq h henc hplan]
    exact hD
  positions hneed := absurd hneed Bool.false_ne_true
  prelude henc b hb hb' := by
    have hle := prelude_le_docids h henc
    exact hD b hb (Nat.lt_of_lt_of_le hb' (Nat.add_le_add_left hle _))
  windows henc prelude hopen _ := by
    refine ⟨_, _, fun ranges hranges => ⟨hD, fun part hpart => ?_⟩⟩
    obtain ⟨range, hmem, hpart⟩ := List.mem_flatMap.mp hpart
    obtain ⟨w, hw⟩ := hranges range hmem
    rw [List.mem_singleton.mp hpart]
    exact window_in_docids h hsize henc hopen hw

/-- What the format keeps of an entry that has spans in the region. -/
structure StoredSpans (tier : IndexTier) (e : DictEntry) : Prop where
  frqOff : (e.stored tier).frqOffDelta = e.frqOffDelta
  frqLen : (e.stored tier).frqLen = e.frqLen
  prxOff : tierHasStats tier = true → (e.stored tier).prxOffDelta = e.prxOffDelta
  prxLen : (e.stored tier).prxLen = if tierHasStats tier then e.prxLen else 0
  prelude : e.enc ≠ .windowed → (e.stored tier).preludeLen = 0

theorem stored_kind (tier : IndexTier) (e : DictEntry) : (e.stored tier).kind = e.kind := by
  cases hk : e.kind <;> cases he : e.enc <;> simp only [DictEntry.stored, hk, he]

theorem storedSpans (tier : IndexTier) {e : DictEntry} (h : e.kind = .podRef) :
    StoredSpans tier e := by
  cases he : e.enc with
  | slim =>
      constructor <;> simp only [DictEntry.stored, h, he]
      · exact fun hstats => if_pos hstats
      · exact fun _ => trivial
  | windowed =>
      constructor <;> simp only [DictEntry.stored, h, he]
      · exact fun hstats => if_pos hstats
      · exact fun hne => absurd rfl hne

/-- Where the spans of a written entry are, as the reader sees it. -/
structure SeenSpans (idx : LogicalIndexReader) (i : SniiIndexInput) (r : Resolved) : Prop where
  frqAbs : preludeAbs idx (seen i r).entry (seen i r).frqBase =
    idx.sectionRefs.postingRegion.offset + (r.frqBase + r.entry.frqOffDelta)
  frqLen : (seen i r).entry.frqLen = r.entry.frqLen
  prxLen : (seen i r).entry.prxLen = if i.entryConfig.hasPrx then r.entry.prxLen else 0
  prxAbs : i.hasPrx = true → prxAbs idx (seen i r).entry (seen i r).prxBase =
    idx.sectionRefs.postingRegion.offset + spanStart i.entryConfig r
  prxLe : (if i.entryConfig.hasPrx then r.entry.prxLen else 0) ≤ r.frqBase + r.entry.frqOffDelta
  stop : spanStop r ≤ idx.sectionRefs.postingRegion.length

variable {w : BuiltIndex} {blocks : List DictBlockBuilder} {region : Bytes} {dictOff : Nat}

theorem seenSpans (h : Serves env renv idx w blocks region dictOff)
    (hr : r ∈ blocks.flatMap resolve) (hkind : r.entry.kind = .podRef) :
    SeenSpans idx w.input r := by
  have hbound := h.holds.bound
  have hlen := h.holds.len
  have hstored := storedSpans w.input.tier hkind
  have htier := w.input.tier_spec.2
  obtain ⟨-, hstop, hle, hprx⟩ := h.built.wrote.tiles.bounds hr hkind
  rw [Nat.zero_add, ← hlen] at hstop
  have hspan : r.frqBase + r.entry.frqOffDelta ≤ spanStop r := Nat.le_add_right _ _
  constructor
  case frqAbs =>
    rw [preludeAbs, seen]
    simp only
    rw [hstored.frqOff, Nat.mod_eq_of_lt (by omega), Nat.add_assoc]
  case frqLen => exact hstored.frqLen
  case prxLen =>
    rw [htier]
    exact hstored.prxLen
  case prxAbs =>
    intro hc
    have hbase := hprx hc
    have hstart : spanStart w.input.entryConfig r ≤ r.frqBase + r.entry.frqOffDelta := Nat.sub_le _ _
    rw [prxAbs, seen, hstored.prxOff (htier ▸ hc)]
    simp only [hc, if_true]
    rw [Nat.add_assoc, hbase, Nat.mod_eq_of_lt (by omega)]
  case prxLe => exact hle
  case stop => exact hstop

/-- The bytes of a range that stand in the file. -/
theorem bytesIn_of_at {file data : Bytes} {range : Range} (h : At file range.offset data)
    (hlen : range.len = data.length) : range.bytesIn file = data := by
  obtain ⟨pre, post, rfl, hpre⟩ := h
  rw [Range.bytesIn, ← hpre, List.drop_left, hlen, List.take_left]

/-- **A written posting** is laid out in three parts. -/
theorem laidOut_of_written (h : Serves env renv idx w blocks region dictOff)
    (hr : r ∈ blocks.flatMap resolve) (hkind : r.entry.kind = .podRef) :
    LaidOut idx (seen w.input r) := by
  obtain ⟨tp, -, -, hentry⟩ := exists_left_of_mem h.entries hr
  have hspans := seenSpans h hr hkind
  have hseen : (seen w.input r).entry.kind = .podRef := (stored_kind _ _).trans hkind
  have hfrq := hspans.frqAbs
  have hfrqLen := hspans.frqLen
  have hprxLen := hspans.prxLen
  have hle := hspans.prxLe
  have hstop := hspans.stop
  rw [spanStop] at hstop
  have hpositions := h.positions
  have hparts : (docidLen idx (seen w.input r) ≤ (seen w.input r).entry.frqLen) ∧
      ((seen w.input r).entry.enc ≠ .windowed → 0 < (seen w.input r).entry.frqDocsLen) ∧
      ((seen w.input r).entry.enc = .windowed → ∃ prelude, FrqPreludeReader.open
        ((preludeRange idx (seen w.input r)).bytesIn idx.file) = .ok prelude) := by
    cases hentry with
    | inline prx positions regions kind => rw [hseen] at kind; cases kind
    | windowed vs prelude term placed =>
        have hbytes : (preludeRange idx (seen w.input r)).bytesIn idx.file = prelude :=
          bytesIn_of_at placed.frqAt.left placed.preludeLen
        have hopen := placed.opens
        rw [← hbytes] at hopen
        have hdd : (readerOf (columns w.input.entryConfig vs)).ddBlockLen = (ddBytes 0 vs).length :=
          sum_ddDiskLen 0 0 0 0 vs
        refine ⟨?_, fun hne => absurd placed.enc hne, fun _ => ⟨_, hopen⟩⟩
        rw [docidLen_windowed placed.enc hopen, placed.frqLen, placed.preludeLen, hdd, frqSpan]
        simp only [List.length_append]
        omega
    | slim prx frqAbs prxAbs positions regions kind docsLen frqRange =>
        have hne : (seen w.input r).entry.enc ≠ .windowed := by
          rw [regions.enc]
          decide
        refine ⟨?_, fun _ => docsLen ▸ length_slimDd_pos _, fun henc => absurd henc hne⟩
        have hprelude := (storedSpans w.input.tier hkind).prelude
          (by rwa [seen, DictEntry.stored_enc] at hne)
        rw [resolveFrqWindow, show (seen w.input r).entry.preludeLen = 0 from hprelude] at frqRange
        rw [docidLen_slim hne, docsLen, ← (resolveWindow_eq frqRange).2, slimFrq,
          List.length_append]
        exact Nat.le_add_right _ _
  constructor
  case start => omega
  case stop => omega
  case positions =>
    intro hpos
    rw [hspans.prxAbs (hpositions ▸ hpos), spanStart]
    omega
  case noPositions =>
    intro hpos
    rw [hpositions] at hpos
    rw [hprxLen]
    exact if_neg (by rw [show w.input.entryConfig.hasPrx = w.input.hasPrx from rfl, hpos]; decide)
  case docids => exact hparts.1
  case flat =>
    intro hne
    refine ⟨?_, hparts.2.1 hne⟩
    exact (storedSpans w.input.tier hkind).prelude (by rwa [seen, DictEntry.stored_enc] at hne)
  case opens => exact hparts.2.2

/-! ## Bytes apart -/

/-- A byte of the posting, from its positions to its frequencies. -/
def InPosting (idx : LogicalIndexReader) (r : Resolved) (b : Nat) : Prop :=
  preludeAbs idx r.entry r.frqBase ≤ b + r.entry.prxLen ∧
    b < preludeAbs idx r.entry r.frqBase + r.entry.frqLen

/-- The postings are laid out, and no byte belongs to two. -/
structure Apart (idx : LogicalIndexReader) (rs : List Resolved) : Prop where
  laid : ∀ r ∈ rs, r.entry.kind ≠ .inline → LaidOut idx r
  owner : ∀ r ∈ rs, ∀ r' ∈ rs, r.entry.kind ≠ .inline → r'.entry.kind ≠ .inline →
    ∀ b, InPosting idx r b → InPosting idx r' b → r = r'

/-- The postings of a written index, as the reader sees them. -/
abbrev seenAll (i : SniiIndexInput) (blocks : List DictBlockBuilder) : List Resolved :=
  (blocks.flatMap resolve).map (seen i)

theorem podRef_of_seen {i : SniiIndexInput} (h : (seen i r).entry.kind ≠ .inline) :
    r.entry.kind = .podRef := by
  rw [seen, stored_kind] at h
  cases hkind : r.entry.kind with
  | inline => exact absurd hkind h
  | podRef => rfl

theorem apart_of_written (h : Serves env renv idx w blocks region dictOff) :
    Apart idx (seenAll w.input blocks) := by
  constructor
  case laid =>
    intro r hr hkind
    obtain ⟨q, hq, rfl⟩ := List.mem_map.mp hr
    exact laidOut_of_written h hq (podRef_of_seen hkind)
  case owner =>
    intro r hr r' hr' hkind hkind' b hb hb'
    obtain ⟨q, hq, rfl⟩ := List.mem_map.mp hr
    obtain ⟨q', hq', rfl⟩ := List.mem_map.mp hr'
    have hpod := podRef_of_seen hkind
    have hpod' := podRef_of_seen hkind'
    have hspans := seenSpans h hq hpod
    have hspans' := seenSpans h hq' hpod'
    have hle := hspans.prxLe
    have hle' := hspans'.prxLe
    rw [InPosting, hspans.frqAbs, hspans.frqLen, hspans.prxLen] at hb
    rw [InPosting, hspans'.frqAbs, hspans'.frqLen, hspans'.prxLen] at hb'
    cases h.built.wrote.tiles.apart hq hq' hpod hpod' with
    | inl heq => exact congrArg _ heq
    | inr hdisjoint =>
        rw [spanStop, spanStop, spanStart, spanStart] at hdisjoint
        omega

/-- The posting region holds neither the dictionary nor the filter. -/
def RegionApart (idx : LogicalIndexReader) : Prop :=
  ∀ b, TermByte idx b → ¬ (idx.sectionRefs.postingRegion.offset ≤ b ∧
    b < idx.sectionRefs.postingRegion.offset + idx.sectionRefs.postingRegion.length)

/-- A byte of a posting is a byte of the region. -/
theorem LaidOut.inside (h : LaidOut idx r) {b : Nat} (hb : InPosting idx r b) :
    idx.sectionRefs.postingRegion.offset ≤ b ∧
      b < idx.sectionRefs.postingRegion.offset + idx.sectionRefs.postingRegion.length := by
  have hstart := h.start
  have hstop := h.stop
  rw [InPosting] at hb
  omega

/-- The three parts of a posting, one behind the other. -/
theorem LaidOut.docidPart (h : LaidOut idx r) {b : Nat} (hlo : (docidPart idx r).offset ≤ b)
    (hhi : b < (docidPart idx r).stop) :
    InPosting idx r b ∧ preludeAbs idx r.entry r.frqBase ≤ b ∧
      b < preludeAbs idx r.entry r.frqBase + docidLen idx r := by
  have hdocids := h.docids
  simp only [ByteSkip.docidPart, Range.stop] at hlo hhi
  rw [InPosting]
  omega

/-- Ranges that do not meet. -/
def Disjoint (r s : RegionRef) : Prop :=
  r.offset + r.length ≤ s.offset ∨ s.offset + s.length ≤ r.offset

theorem parseBsbfHeader_base {bytes : Bytes} {base : Nat} {header : BsbfHeader}
    (h : parseBsbfHeader bytes base = .ok header) :
    header.bitsetBase = base + kBsbfHeaderSize := by
  rw [parseBsbfHeader] at h
  simp only at h
  repeat' split at h
  all_goals cases h
  rfl

/-- **A probed block** is inside the section that the filter was opened from. -/
theorem openBsbf_inside {file : Bytes} {ref : RegionRef} {s : BsbfSection}
    (h : openBsbf renv file ref = .ok (some s)) {hash : Nat} (hhash : hash < 2 ^ 64) :
    ref.offset ≤ s.header.blockOffset hash ∧
      s.header.blockOffset hash + kBsbfBytesPerBlock ≤ ref.offset + ref.length := by
  rw [openBsbf] at h
  split at h
  · split at h
    · cases h
    · rename_i hlong
      obtain ⟨head, -, h⟩ := bind_eq_ok h
      obtain ⟨header, hheader, h⟩ := bind_eq_ok h
      obtain ⟨hblocks, hpos⟩ := (Format.MetaSafety.parseBsbfHeader_safe _ _).2 header hheader
      have hbase := parseBsbfHeader_base hheader
      split at h
      · cases h
      · rename_i hsized
        obtain ⟨found, -, h⟩ := bind_eq_ok h
        cases h
        have hindex := bsbfBlockIndex_le hhash hpos
        have hfill := Nat.div_mul_le_self header.numBytes kBsbfBytesPerBlock
        have hmul := Nat.mul_le_mul_right kBsbfBytesPerBlock hindex
        rw [hblocks, Nat.succ_mul, ← hblocks] at hmul
        rw [← hblocks] at hfill
        simp only [BsbfHeader.blockOffset, hbase]
        omega
  · cases h

/-- The blocks of the directory are in the dictionary. -/
theorem blockRef_inside (h : Serves env renv idx w blocks region dictOff)
    {ref : Format.DictIndex.BlockRef} (href : ref ∈ idx.blockRefs) :
    dictOff ≤ ref.offset ∧
      ref.offset + ref.length ≤ dictOff + (dictBytes env blocks).length := by
  rw [h.refs, h.built.records] at href
  obtain ⟨record, hrecord, rfl⟩ := List.mem_map.mp href
  obtain ⟨k, hk⟩ := List.mem_iff_getElem?.mp hrecord
  rw [recordsFrom_getElem?, Option.map_eq_some_iff] at hk
  obtain ⟨b, hb, rfl⟩ := hk
  have hdrop : blocks.drop k = b :: blocks.drop (k + 1) := by
    obtain ⟨hlt, rfl⟩ := List.getElem?_eq_some_iff.mp hb
    exact List.drop_eq_getElem_cons hlt
  rw [dictBytes_split blocks k, hdrop, List.length_append]
  rw [show dictBytes env (b :: blocks.drop (k + 1)) = diskOf env b ++ dictBytes env _ from
    List.flatMap_cons, List.length_append]
  simp only [blockRef, recordOf]
  omega

/-! ## Written indexes -/

/-- Where a written index lies: its filter, its dictionary and its postings, each in a
section of its own. -/
structure Placed (env : BuildEnv) (renv : ReadEnv) (idx : LogicalIndexReader) (w : BuiltIndex)
    (blocks : List DictBlockBuilder) (region : Bytes) (dictOff : Nat) : Prop where
  serves : Serves env renv idx w blocks region dictOff
  sorted : SortedTerms w.input
  filter : openBsbf renv idx.file idx.sectionRefs.bsbf = .ok idx.bsbf
  dict : idx.sectionRefs.dictRegion = ⟨dictOff, (dictBytes env blocks).length⟩
  region : RegionApart idx

theorem Placed.indexIn (h : Placed env renv idx w blocks region dictOff) {needPositions : Bool}
    (hterm : ∀ b, TermByte idx b → D b)
    (hpost : ∀ r ∈ seenAll w.input blocks, r.entry.kind ≠ .inline →
      PostingIn D idx needPositions r) : IndexIn D renv idx needPositions := by
  constructor
  case filter =>
    intro s hs hash hhash b hb hb'
    have hopen := h.filter
    rw [hs] at hopen
    obtain ⟨hstart, hstop⟩ := openBsbf_inside hopen hhash
    exact hterm b (.inr ⟨hstart.trans hb, hb'.trans_le hstop⟩)
  case blocks =>
    intro ref href b hb hb'
    obtain ⟨hstart, hstop⟩ := blockRef_inside h.serves href
    apply hterm b
    left
    rw [h.dict]
    exact ⟨hstart.trans hb, hb'.trans_le hstop⟩
  case found =>
    intro term r hlookup
    rw [h.serves.lookup h.sorted term] at hlookup
    obtain ⟨q, hq, rfl⟩ := Option.map_eq_some_iff.mp (Except.ok.inj hlookup)
    exact hpost _ (List.mem_map_of_mem (List.mem_of_find?_eq_some hq))
  case listed =>
    intro pre rs hlisted r hr
    rw [h.serves.prefixTerms h.sorted pre] at hlisted
    rw [← Except.ok.inj hlisted] at hr
    obtain ⟨q, hq, rfl⟩ := List.mem_map.mp hr
    exact hpost _ (List.mem_map_of_mem (List.mem_filter.mp hq).1)

/-- The section of the postings ends within the 64-bit range. -/
theorem Placed.size (h : Placed env renv idx w blocks region dictOff) :
    idx.sectionRefs.postingRegion.offset + idx.sectionRefs.postingRegion.length < 2 ^ 64 := by
  have hbound := h.serves.holds.here.bound
  have hlen := h.serves.holds.len
  have hsize := h.serves.holds.size
  omega

/-- **Docid queries** read the bytes of docids. -/
theorem Placed.docids (h : Placed env renv idx w blocks region dictOff) :
    IndexIn (DocidByte idx (seenAll w.input blocks)) renv idx false := by
  apply h.indexIn fun b hb => .inl hb
  intro r hr hkind
  apply postingIn_docids ((apart_of_written h.serves).laid r hr hkind) h.size
  exact fun b hb hb' => .inr ⟨r, hr, hkind, hb, hb'⟩

end Snii.Query.ByteSkip
