import Snii.Reader.WindowedPosting
import Snii.Writer.PreludeColumns

/-!
# Postings read back

What the writer appended for a term and what the dictionary says of it, seen from the
reader (`EntryAt`): the entry leads to the term's own bytes, which decode to the term's
own docids, frequencies and positions.
-/

namespace Snii.Reader

open Snii.Lib.ByteReader Snii.Common Snii.Io.FileReader
open Snii.Encoding.Compression Snii.Encoding.Crc32c Snii.Format.Dict Snii.Format.FrqPod
open Snii.Format.DictBlock (Resolved)
open Snii.Format.FrqPrelude (WindowMeta FrqPreludeReader readerOf)
open Snii.Writer.SpillRunCodec Snii.Writer.LogicalIndexWriter

variable {z : Zstd} {c : EntryConfig} {idx : LogicalIndexReader} {region : Bytes}

/-! ## One window -/

theorem region_rawMeta (z : Zstd) (plain : Bytes) : Region z (rawMeta plain) plain plain :=
  ⟨rfl, rfl, fun _ => rfl, rfl⟩

/-- A window's row, in blocks that hold the window's regions. -/
structure RowAt (c : EntryConfig) (dd freq prx : Bytes) (v : Window) (m : WindowMeta) : Prop where
  last : m.lastDocid = v.last
  chain : (m.winBase :: v.docs).IsChain (· ≤ ·)
  docCount : m.docCount = v.docs.length % 2 ^ 32
  ddMeta : ddMetaOf m = rawMeta (ddPlain m.winBase v.docs)
  ddAt : At dd m.ddOff (ddPlain m.winBase v.docs)
  freqMeta : c.hasFreq = true → freqMetaOf m = rawMeta (encodePforRuns v.freqs)
  freqAt : c.hasFreq = true → At freq m.freqOff (encodePforRuns v.freqs)
  prxAt : c.hasPrx = true → At prx m.prxOff v.prx
  prxLen : m.prxLen = v.prx.length

theorem rows_at {dd freq prx : Bytes} {winBase ddOff freqOff prxOff : Nat} {vs : List Window}
    (hchain : DocsChain winBase vs) (pd pf pp : Bytes) (hd : pd.length = ddOff)
    (hf : pf.length = freqOff) (hp : pp.length = prxOff) (hdd : dd = pd ++ ddBytes winBase vs)
    (hfreq : freq = pf ++ freqBytes c.hasFreq vs) (hprx : prx = pp ++ prxSpan vs) :
    List.Forall₂ (RowAt c dd freq prx) vs (rows c winBase ddOff freqOff prxOff vs) := by
  induction vs generalizing winBase ddOff freqOff prxOff pd pf pp with
  | nil => exact .nil
  | cons v vs ih =>
      rw [ddBytes] at hdd
      rw [freqBytes, List.flatMap_cons, ← freqBytes] at hfreq
      rw [prxSpan, List.flatMap_cons, ← prxSpan] at hprx
      have hrow : RowAt c dd freq prx v (v.row c winBase ddOff freqOff prxOff) := by
        constructor
        case last => rfl
        case chain => exact hchain.1
        case docCount => rfl
        case ddMeta => rfl
        case ddAt => exact ⟨pd, ddBytes v.last vs, hdd, hd⟩
        case freqMeta =>
          intro hc
          simp [freqMetaOf, Window.row, Window.freqBytes, hc, rawMeta, Window.skeleton,
            windowSkeleton]
        case freqAt =>
          intro hc
          refine ⟨pf, freqBytes c.hasFreq vs, ?_, ?_⟩
          · rw [hfreq, Window.freqBytes, if_pos hc]
          · simp [Window.row, hc, hf]
        case prxAt =>
          intro hc
          refine ⟨pp, prxSpan vs, hprx, ?_⟩
          simp [Window.row, Window.skeleton, hc, hp]
        case prxLen => rfl
      refine .cons hrow (ih hchain.2 (pd ++ v.ddBytes winBase) (pf ++ v.freqBytes c.hasFreq)
        (pp ++ v.prx) ?_ ?_ ?_ ?_ ?_ ?_)
      · rw [List.length_append, hd]
      · rw [List.length_append, hf]
      · rw [List.length_append, hp]
      · rw [hdd, List.append_assoc]
      · rw [hfreq, List.append_assoc]
      · rw [hprx, List.append_assoc]

theorem length_ddPlain_window {v : Window} (hv : WindowOk v) (winBase : Nat) :
    (ddPlain winBase v.docs).length ≤ kMaxRegionUncompBytes := by
  have hle := @length_ddPlain_le winBase _ hv.docs
  have hcount := hv.count
  have hcap : kMaxRegionUncompBytes = 268435456 := by decide
  omega

/-- **One window** decodes to the window's documents and whatever else is asked for. -/
theorem decodeWindowSlices_row {dd freq prx : Bytes} {v : Window} {m : WindowMeta}
    (h : RowAt c dd freq prx v m) (hv : WindowOk v) {freqRegion prxWindow : Bytes}
    {positions : List (List Nat)} {wantPositions wantFreq : Bool}
    (hfreq : wantFreq = true → c.hasFreq = true ∧ freqRegion = encodePforRuns v.freqs)
    (hprx : wantPositions = true → decodePositions z prxWindow v.docs.length = .ok positions) :
    decodeWindowSlices z m (ddPlain m.winBase v.docs) freqRegion prxWindow wantPositions wantFreq =
      .ok { docids := v.docs, freqs := if wantFreq then v.freqs else []
            positions := if wantPositions then positions else [] } := by
  have hcount := hv.count
  have hdocs : decodeDdRegion z (ddPlain m.winBase v.docs) (ddMetaOf m) m.winBase = .ok v.docs := by
    refine decodeDdRegion_region ⟨h.chain, hv.docs⟩ (Nat.le_trans hcount (by decide)) ?_
      (length_ddPlain_window hv _)
    rw [h.ddMeta]
    exact region_rawMeta z _
  have hdocCount : m.docCount = v.docs.length := by
    rw [h.docCount, Nat.mod_eq_of_lt (by omega)]
  have hfreqs : (if wantFreq then decodeFreqRegion z freqRegion (freqMetaOf m) m.docCount
      else .ok []) = .ok (if wantFreq then v.freqs else []) := by
    cases hw : wantFreq with
    | false => rfl
    | true =>
        obtain ⟨hc, hreg⟩ := hfreq hw
        have hle := length_encodePforRuns_le hv.freqs
        have hlen := hv.lengths
        have hcap : kMaxRegionUncompBytes = 268435456 := by decide
        rw [if_pos rfl, if_pos rfl, hdocCount, ← hlen, hreg, h.freqMeta hc]
        exact decodeFreqRegion_region hv.freqs (region_rawMeta z _) (by omega)
  have hpos : (if wantPositions then decodePositions z prxWindow v.docs.length else .ok []) =
      .ok (if wantPositions then positions else []) := by
    cases hw : wantPositions with
    | false => rfl
    | true => exact hprx hw
  rw [decodeWindowSlices, hdocs, ok_bind, if_neg (by simp [hdocCount]), hfreqs, ok_bind, hpos,
    ok_bind]
  rfl

/-! ## Entries in a file -/

/-- The index's posting region stands in the file. -/
structure HoldsRegion (idx : LogicalIndexReader) (region : Bytes) : Prop where
  here : At idx.file idx.sectionRefs.postingRegion.offset region
  len : idx.sectionRefs.postingRegion.length = region.length
  size : idx.file.length < 2 ^ 64

/-- A windowed entry whose spans stand in the file. -/
structure WindowedAt (c : EntryConfig) (idx : LogicalIndexReader) (r : Resolved)
    (vs : List Window) (prelude : Bytes) : Prop where
  kind : r.entry.kind = .podRef
  enc : r.entry.enc = .windowed
  preludeLen : r.entry.preludeLen = prelude.length
  frqLen : r.entry.frqLen = (frqSpan c prelude vs).length
  frqAt : At idx.file (preludeAbs idx r.entry r.frqBase) (frqSpan c prelude vs)
  prxLen : c.hasPrx = true → r.entry.prxLen = (prxSpan vs).length
  prxAt : c.hasPrx = true → At idx.file (prxAbs idx r.entry r.prxBase) (prxSpan vs)
  opens : FrqPreludeReader.open prelude = .ok (readerOf (columns c vs))
  windows : ∀ v ∈ vs, WindowOk v
  chain : DocsChain 0 vs
  size : idx.file.length < 2 ^ 64

/-- What a slim entry says of the term's two regions, wherever they are. -/
structure SlimRegions (z : Zstd) (c : EntryConfig) (tp : TermPostings) (e : DictEntry) : Prop where
  enc : e.enc = .slim
  dd : Region z e.ddMeta (slimDd tp) (slimDd tp)
  freq : c.hasFreq = true → Region z e.freqMeta (slimFreq c tp) (slimFreq c tp)
  chain : (0 :: tp.docids).IsChain (· ≤ ·)
  small : tp.docids.length < kSlimDfThreshold

/-- A term's entry, and where the term's bytes are. -/
inductive EntryAt (z : Zstd) (c : EntryConfig) (idx : LogicalIndexReader) (tp : Emitted)
    (r : Resolved) : Prop
  | windowed (vs : List Window) (prelude : Bytes) (term : Windowed z c tp vs prelude)
      (placed : WindowedAt c idx r vs prelude)
  | inline (prx : Bytes) (positions : makePrxWindow z c tp.postings = .ok prx)
      (regions : SlimRegions z c tp.postings r.entry) (kind : r.entry.kind = .inline)
      (frq : r.entry.frqBytes = slimFrq c tp.postings)
      (prxHere : c.hasPrx = true → r.entry.prxBytes = prx)
  | slim (prx : Bytes) (frqAbs prxAbs : Nat) (positions : makePrxWindow z c tp.postings = .ok prx)
      (regions : SlimRegions z c tp.postings r.entry) (kind : r.entry.kind = .podRef)
      (docsLen : r.entry.frqDocsLen = (slimDd tp.postings).length)
      (frqRange : resolveFrqWindow idx r.entry r.frqBase =
        .ok (frqAbs, (slimFrq c tp.postings).length))
      (frqHere : At idx.file frqAbs (slimFrq c tp.postings))
      (prxRange : c.hasPrx = true → resolvePrxWindow idx r.entry r.prxBase = .ok (prxAbs, prx.length))
      (prxHere : c.hasPrx = true → At idx.file prxAbs prx)

/-- **The two blocks of a windowed posting** stand behind its prelude, where the reader
looks for them. -/
theorem WindowedAt.blocks {r : Resolved} {vs : List Window} {prelude : Bytes}
    (h : WindowedAt c idx r vs prelude) :
    resolveBlocks idx r.entry r.frqBase (readerOf (columns c vs)) =
        .ok { ddBlockOff := preludeAbs idx r.entry r.frqBase + prelude.length
              ddBlockLen := (ddBytes 0 vs).length
              freqBlockOff :=
                preludeAbs idx r.entry r.frqBase + prelude.length + (ddBytes 0 vs).length
              freqBlockLen := (freqBytes c.hasFreq vs).length } ∧
      At idx.file (preludeAbs idx r.entry r.frqBase + prelude.length) (ddBytes 0 vs) ∧
      At idx.file (preludeAbs idx r.entry r.frqBase + prelude.length + (ddBytes 0 vs).length)
        (freqBytes c.hasFreq vs) := by
  have hat := h.frqAt
  have hbound := hat.bound
  have hsize := h.size
  have hpre := h.preludeLen
  have hfrq := h.frqLen
  rw [frqSpan] at hat
  simp only [frqSpan, List.length_append] at hbound hfrq
  have hdd : (readerOf (columns c vs)).ddBlockLen = (ddBytes 0 vs).length := sum_ddDiskLen 0 0 0 0 vs
  have hfreq : (readerOf (columns c vs)).freqBlockLen = (freqBytes c.hasFreq vs).length :=
    freqTotal_rows 0 0 0 0 vs
  refine ⟨?_, hat.part, hat.right.right⟩
  rw [resolveBlocks, if_neg (by omega), hdd, hfreq, if_neg (by omega), hpre,
    Nat.mod_eq_of_lt (by omega), Nat.mod_eq_of_lt (by omega)]

/-- The planned ranges of a window are where its regions stand. -/
theorem WindowedAt.windowRange {r : Resolved} {vs : List Window} {prelude : Bytes}
    (h : WindowedAt c idx r vs prelude) {wantPositions wantFreq : Bool}
    (hprx : wantPositions = true → c.hasPrx = true) (hfreq : wantFreq = true → c.hasFreq = true)
    {i : Nat} {v : Window} {m : WindowMeta} (hm : (rows c 0 0 0 0 vs)[i]? = some m)
    (hrow : RowAt c (ddBytes 0 vs) (freqBytes c.hasFreq vs) (prxSpan vs) v m) :
    windowedWindowRange idx r (readerOf (columns c vs)) i wantPositions wantFreq =
      .ok { dd := ⟨preludeAbs idx r.entry r.frqBase + prelude.length + m.ddOff, m.ddDiskLen⟩
            freq := if wantFreq then
                ⟨preludeAbs idx r.entry r.frqBase + prelude.length + (ddBytes 0 vs).length +
                  m.freqOff, m.freqDiskLen⟩
              else ⟨0, 0⟩
            prx := if wantPositions then ⟨prxAbs idx r.entry r.prxBase + m.prxOff, m.prxLen⟩
              else ⟨0, 0⟩ } := by
  obtain ⟨hblocks, hdd, hfreqs⟩ := h.blocks
  have hbound := hdd.bound
  have hsize := h.size
  have hwindow : (readerOf (columns c vs)).window i = .ok m := by
    rw [FrqPreludeReader.window, show (readerOf (columns c vs)).windows[i]? = some m from hm]
  have hlen : m.ddDiskLen = (ddPlain m.winBase v.docs).length :=
    congrArg FrqRegionMeta.diskLen hrow.ddMeta
  have hin := hrow.ddAt.bound
  rw [← hlen] at hin
  have hinside : inBounds m.ddOff m.ddDiskLen (ddBytes 0 vs).length = .ok () := by
    rw [inBounds, if_neg (by omega)]
  have hfreqRange : ∀ g : BlockGeometry,
      g.freqBlockOff = preludeAbs idx r.entry r.frqBase + prelude.length + (ddBytes 0 vs).length →
      g.freqBlockLen = (freqBytes c.hasFreq vs).length →
      freqRange g m wantFreq = .ok (if wantFreq then
        ⟨preludeAbs idx r.entry r.frqBase + prelude.length + (ddBytes 0 vs).length + m.freqOff,
          m.freqDiskLen⟩ else ⟨0, 0⟩) := by
    intro g hoff hblock
    cases hw : wantFreq with
    | false => rfl
    | true =>
        have hc := hfreq hw
        have hfreqBound := hfreqs.bound
        have hfreqIn := (hrow.freqAt hc).bound
        have hfreqLen : m.freqDiskLen = (encodePforRuns v.freqs).length :=
          congrArg FrqRegionMeta.diskLen (hrow.freqMeta hc)
        have hfreqInside : inBounds m.freqOff m.freqDiskLen g.freqBlockLen = .ok () := by
          rw [inBounds, hblock, if_neg (by omega)]
        rw [freqRange, if_pos rfl, hfreqInside, ok_bind, hoff, Nat.mod_eq_of_lt (by omega),
          if_pos rfl]
        rfl
  have hpositions : prxRange idx r.entry r.prxBase (readerOf (columns c vs)) m wantPositions =
      .ok (if wantPositions then ⟨prxAbs idx r.entry r.prxBase + m.prxOff, m.prxLen⟩
        else ⟨0, 0⟩) := by
    cases hw : wantPositions with
    | false => rfl
    | true =>
        have hc := hprx hw
        have hprxIn := (hrow.prxAt hc).bound
        have hprxBound := (h.prxAt hc).bound
        have hhas : ¬ (readerOf (columns c vs)).hasPrx = false := by
          show ¬ c.hasPrx = false
          simp [hc]
        have hprxInside : inBounds m.prxOff m.prxLen r.entry.prxLen = .ok () := by
          rw [inBounds, h.prxLen hc, hrow.prxLen, if_neg (by omega)]
        rw [prxRange, if_pos rfl, if_neg hhas, hprxInside, ok_bind, Nat.mod_eq_of_lt (by omega),
          if_pos rfl]
        rfl
  rw [windowedWindowRange, hblocks, ok_bind, hwindow, ok_bind, hinside, ok_bind,
    hfreqRange _ rfl rfl, ok_bind, hpositions, ok_bind]
  dsimp only
  rw [Nat.mod_eq_of_lt (by omega)]
  rfl

theorem resolveWindow_ok {ref : Format.PerIndexMeta.RegionRef} {base delta pos totalLen : Nat}
    (hpos : base + delta = pos) (hin : pos + totalLen ≤ ref.length)
    (hsize : ref.offset + ref.length < 2 ^ 64) :
    resolveWindow ref base delta totalLen 0 = .ok (ref.offset + pos, totalLen) := by
  have hmod : (base + delta) % 2 ^ 64 = pos := by
    rw [hpos]
    exact Nat.mod_eq_of_lt (by omega)
  rw [resolveWindow, if_neg (by omega)]
  simp only [hmod]
  rw [if_neg (by omega), if_neg (by omega), Nat.add_zero, Nat.mod_eq_of_lt (by omega), Nat.sub_zero]

/-- Where the spans of a term stand. -/
theorem HoldsRegion.spans (h : HoldsRegion idx region) {before prx frq more : Bytes}
    (hregion : region = before ++ (prx ++ frq) ++ more) :
    At idx.file (idx.sectionRefs.postingRegion.offset + before.length) prx ∧
      At idx.file (idx.sectionRefs.postingRegion.offset + (before.length + prx.length)) frq := by
  refine ⟨h.here.trans ⟨before, frq ++ more, by simp [hregion], rfl⟩,
    h.here.trans ⟨before ++ prx, more, by simp [hregion], by simp⟩⟩

theorem HoldsRegion.bound (h : HoldsRegion idx region) :
    idx.sectionRefs.postingRegion.offset + idx.sectionRefs.postingRegion.length < 2 ^ 64 := by
  have := h.here.bound
  have := h.size
  rw [h.len]
  omega

/-- The entry of a windowed term leads to its spans. -/
theorem entryAt_of_windowed (hregion : HoldsRegion idx region) {tp : Emitted} {e : DictEntry}
    {base : Nat} {before after more : Bytes} (hsplit : region = after ++ more)
    (hbuilt : buildWindowedEntry z c tp base base (entryStats tp.postings) before = .ok e after)
    (hbase : base ≤ before.length)
    (hlen : tp.postings.freqs.length = tp.postings.docids.length)
    (hwidths : TermWidths tp.postings) {tier : IndexTier} (hprx : c.hasPrx = tierHasStats tier)
    {r : Resolved} (hentry : r.entry = e.stored tier) (hfrqBase : r.frqBase = base)
    (hprxBase : c.hasPrx = true → r.prxBase = base) : EntryAt z c idx tp r := by
  have hbound := hregion.bound
  obtain ⟨vs, prelude, hwin, hafter, rfl⟩ := buildWindowedEntry_eq_ok hbuilt
  obtain ⟨hprxAt, hfrqAt⟩ := hregion.spans (hsplit.trans (by rw [hafter]))
  have hle1 := hprxAt.bound
  have hle2 := hfrqAt.bound
  have hsize := hregion.size
  refine .windowed vs prelude hwin ?_
  constructor
  case kind => rw [hentry]; rfl
  case enc => rw [hentry]; rfl
  case preludeLen => rw [hentry]; rfl
  case frqLen => rw [hentry]; rfl
  case frqAt =>
    have habs : preludeAbs idx r.entry r.frqBase =
        idx.sectionRefs.postingRegion.offset + (before.length + (prxSpan vs).length) := by
      rw [preludeAbs, hentry, hfrqBase]
      show (_ + base + (before.length + (prxSpan vs).length - base)) % 2 ^ 64 = _
      rw [Nat.mod_eq_of_lt (by omega)]
      omega
    rw [habs]
    exact hfrqAt
  case prxLen =>
    intro hc
    rw [hentry]
    show (if tierHasStats tier then (if c.hasPrx then (prxSpan vs).length else _) else 0) = _
    rw [if_pos (hprx ▸ hc), if_pos hc]
  case prxAt =>
    intro hc
    have habs : prxAbs idx r.entry r.prxBase =
        idx.sectionRefs.postingRegion.offset + before.length := by
      rw [prxAbs, hentry, hprxBase hc]
      show (_ + base + (if tierHasStats tier then
        (if c.hasPrx then before.length - base else _) else 0)) % 2 ^ 64 = _
      rw [if_pos (hprx ▸ hc), if_pos hc, Nat.mod_eq_of_lt (by omega)]
      omega
    rw [habs]
    exact hprxAt
  case opens =>
    refine hwin.open_prelude hlen hwidths ?_
    rw [List.length_append]
    omega
  case windows => exact hwin.windowOk hlen hwidths
  case chain => exact hwin.chain
  case size => exact hregion.size

/-- The entry of a slim term holds its bytes or leads to them. -/
theorem entryAt_of_slim (hregion : HoldsRegion idx region) {tp : Emitted} {e : DictEntry}
    {base : Nat} {before after more : Bytes} (hsplit : region = after ++ more)
    (hbuilt : buildSlimEntry z c tp base base (entryStats tp.postings) before = .ok e after)
    (hbase : base ≤ before.length)
    (hsmall : tp.postings.docids.length < kSlimDfThreshold) {tier : IndexTier}
    (hfreq : c.hasFreq = tierHasStats tier) (hprx : c.hasPrx = tierHasStats tier) {r : Resolved}
    (hentry : r.entry = e.stored tier) (hfrqBase : r.frqBase = base)
    (hprxBase : c.hasPrx = true → r.prxBase = base) : EntryAt z c idx tp r := by
  have hbound := hregion.bound
  obtain ⟨hchain, prx, hpositions, hcases⟩ := buildSlimEntry_eq_ok hbuilt
  by_cases hinline : (slimFrq c tp.postings).length ≤ kDefaultInlineThreshold
  · rw [if_pos hinline] at hcases
    obtain ⟨_, rfl⟩ := hcases
    refine .inline prx hpositions ⟨?_, ?_, ?_, hchain, hsmall⟩ ?_ ?_ ?_
    · rw [hentry]; rfl
    · rw [hentry]
      exact ⟨rfl, rfl, fun hv => (by cases hv), rfl⟩
    · intro hc
      rw [hentry]
      show Region z (if tierHasStats tier then storedRegion (if c.hasFreq then _ else _) false
        ((slimFrq c tp.postings).length - (slimDd tp.postings).length) else _) _ _
      rw [if_pos (hfreq ▸ hc), if_pos hc]
      refine ⟨?_, rfl, fun hv => (by cases hv), rfl⟩
      show (slimFrq c tp.postings).length - (slimDd tp.postings).length = _
      rw [slimFrq, List.length_append, Nat.add_sub_cancel_left]
    · rw [hentry]; rfl
    · rw [hentry]; rfl
    · intro hc
      rw [hentry]
      show (if tierHasStats tier then (if c.hasPrx then prx else _) else []) = prx
      rw [if_pos (hprx ▸ hc), if_pos hc]
  · rw [if_neg hinline] at hcases
    obtain ⟨hafter, rfl⟩ := hcases
    obtain ⟨hprxAt, hfrqAt⟩ := hregion.spans (hsplit.trans (by rw [hafter]))
    have hregionLen : region.length =
        before.length + prx.length + (slimFrq c tp.postings).length + more.length := by
      rw [hsplit, hafter]
      simp only [List.length_append]
      omega
    have hrefLen := hregion.len
    refine .slim prx (idx.sectionRefs.postingRegion.offset + (before.length + prx.length))
      (idx.sectionRefs.postingRegion.offset + before.length) hpositions
      ⟨?_, ?_, ?_, hchain, hsmall⟩ ?_ ?_ ?_ hfrqAt ?_ fun _ => hprxAt
    · rw [hentry]; rfl
    · rw [hentry]
      exact ⟨rfl, rfl, fun _ => rfl, rfl⟩
    · intro hc
      rw [hentry]
      show Region z (if tierHasStats tier then storedRegion (if c.hasFreq then _ else _) true
        ((slimFrq c tp.postings).length - (slimDd tp.postings).length) else _) _ _
      rw [if_pos (hfreq ▸ hc), if_pos hc]
      refine ⟨?_, rfl, fun _ => rfl, rfl⟩
      show (slimFrq c tp.postings).length - (slimDd tp.postings).length = _
      rw [slimFrq, List.length_append, Nat.add_sub_cancel_left]
    · rw [hentry]; rfl
    · rw [hentry]; rfl
    · rw [resolveFrqWindow, hentry, hfrqBase]
      show resolveWindow _ base (before.length + prx.length - base)
        (slimFrq c tp.postings).length 0 = _
      exact resolveWindow_ok (by omega) (by omega) hbound
    · intro hc
      rw [resolvePrxWindow, hentry, hprxBase hc]
      show resolveWindow _ base (if tierHasStats tier then
        (if c.hasPrx then before.length - base else _) else 0)
        (if tierHasStats tier then (if c.hasPrx then prx.length else _) else 0) 0 = _
      rw [if_pos (hprx ▸ hc), if_pos hc, if_pos (hprx ▸ hc), if_pos hc]
      exact resolveWindow_ok (by omega) (by omega) hbound

/-- **The entry of a written term** leads to the term's bytes. -/
theorem entryAt_of_built (hregion : HoldsRegion idx region) {tp : Emitted} {e : DictEntry}
    {base : Nat} {before after more : Bytes} (hsplit : region = after ++ more)
    (hbuilt : buildEntry z c tp base base before = .ok e after) (hbase : base ≤ before.length)
    (hlen : tp.postings.freqs.length = tp.postings.docids.length)
    (hwidths : TermWidths tp.postings) {tier : IndexTier} (hfreq : c.hasFreq = tierHasStats tier)
    (hprx : c.hasPrx = tierHasStats tier) {r : Resolved} (hentry : r.entry = e.stored tier)
    (hfrqBase : r.frqBase = base) (hprxBase : c.hasPrx = true → r.prxBase = base) :
    EntryAt z c idx tp r := by
  unfold buildEntry at hbuilt
  by_cases hdf : (entryStats tp.postings).df ≥ kSlimDfThreshold
  · rw [if_pos hdf] at hbuilt
    exact entryAt_of_windowed hregion hsplit hbuilt hbase hlen hwidths hprx hentry hfrqBase hprxBase
  · rw [if_neg hdf] at hbuilt
    have hsmall : tp.postings.docids.length < kSlimDfThreshold := by
      have hcount : (entryStats tp.postings).df = tp.postings.docids.length :=
        Nat.mod_eq_of_lt hwidths.count
      rw [← hcount]
      exact Nat.lt_of_not_le hdf
    exact entryAt_of_slim hregion hsplit hbuilt hbase hsmall hfreq hprx hentry hfrqBase hprxBase

end Snii.Reader
