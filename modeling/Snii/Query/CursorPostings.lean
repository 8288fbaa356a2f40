import Snii.Query.DocidPosting
import Snii.Reader.WindowedRoundTrip

/-!
# Documents and frequencies of a scoring cursor

What `scoring_query.cpp` reads of a posting before it scores: a slim posting with both of
its regions, a windowed one as a whole or one window at a time.  A written posting gives
its documents and frequencies either way (`buildCursorPostings_ok`, `materializeWindowPostings_ok`).
-/

namespace Snii.Query.CursorPostings

open Snii.Lib.ByteReader Snii.Lib.Aligned Snii.Common Snii.Io.FileReader Snii.Io.BatchRangeFetcher
open Snii.Reader Snii.Query.DocidPosting
open Snii.Encoding.Compression Snii.Format.Dict
open Snii.Format.DictBlock (Resolved)
open Snii.Format.FrqPod (FrqRegionMeta decodeDdRegion decodeFreqRegion decodeFreqRegion_region
  encodePforRuns length_encodePforRuns_le kMaxRegionUncompBytes ddPlain)
open Snii.Format.FrqPrelude (WindowMeta FrqPreludeReader readerOf)
open Snii.Writer.SpillRunCodec Snii.Writer.LogicalIndexWriter

/-! ## Reading -/

def fetchSlimWindowBytes (idx : LogicalIndexReader) (e : DictEntry) (frqBase : Nat) :
    Result Bytes :=
  if e.kind = .inline then .ok e.frqBytes
  else do
    let (winAbs, winLen) ← resolveFrqWindow idx e frqBase
    let fetched ← fetch idx.file 0 [⟨winAbs, winLen⟩]
    fetched.get 0

def decodeSlim (z : Zstd) (idx : LogicalIndexReader) (e : DictEntry) (frqBase : Nat) :
    Result (List Nat × List Nat) := do
  let window ← fetchSlimWindowBytes idx e frqBase
  if e.ddMeta.diskLen > window.length then
    .error (.corruption "scoring_query: slim dd region exceeds window")
  else do
    let docids ← decodeDdRegion z (window.take e.ddMeta.diskLen) e.ddMeta 0
    let freqs ← decodeFreqRegion z (window.drop e.ddMeta.diskLen) e.freqMeta docids.length
    pure (docids, freqs)

/-- `BuildCursor`, up to the documents and frequencies that are scored. -/
def buildCursorPostings (z : Zstd) (idx : LogicalIndexReader) (r : Resolved) :
    Result (List Nat × List Nat) :=
  if r.entry.kind = .podRef ∧ r.entry.enc = .windowed then do
    let posting ← readWindowedPosting z idx r false true
    pure (posting.docids, posting.freqs)
  else decodeSlim z idx r.entry r.frqBase

/-- `MaterializeWindow`, up to the documents and frequencies that are scored. -/
def materializeWindowPostings (z : Zstd) (idx : LogicalIndexReader) (r : Resolved)
    (prelude : FrqPreludeReader) (w : Nat) : Result (List Nat × List Nat) := do
  let m ← prelude.window w
  let range ← windowedWindowRange idx r prelude w false true
  let fetched ← fetch idx.file kSameTermCoalesceGap [range.dd, range.freq]
  let dd ← fetched.get 0
  let freq ← fetched.get 1
  let window ← decodeWindowSlices z m dd freq [] false true
  pure (window.docids, window.freqs)

/-! ## Written postings -/

variable {z : Zstd} {c : EntryConfig} {idx : LogicalIndexReader} {r : Resolved} {tp : Emitted}
  {vs : List Window} {prelude : Bytes}

/-- Both regions of a slim posting, side by side. -/
theorem decodeSlim_regions {e : DictEntry} {frqBase : Nat}
    (h : SlimRegions z c tp.postings e) (hwidths : TermWidths tp.postings)
    (hlen : tp.postings.freqs.length = tp.postings.docids.length) (hc : c.hasFreq = true)
    (hfetch : fetchSlimWindowBytes idx e frqBase = .ok (slimFrq c tp.postings)) :
    decodeSlim z idx e frqBase = .ok (tp.postings.docids, tp.postings.freqs) := by
  have hdd : e.ddMeta.diskLen = (slimDd tp.postings).length := h.dd.diskLen
  have hsmall := h.small
  have hthreshold : kSlimDfThreshold = 512 := rfl
  have hfreqLen := length_encodePforRuns_le hwidths.freqs
  have hcap : kMaxRegionUncompBytes = 268435456 := by decide
  have hfreq : slimFreq c tp.postings = encodePforRuns tp.postings.freqs := if_pos hc
  have hregion := h.freq hc
  rw [hfreq] at hregion
  have hle : ¬ e.ddMeta.diskLen > (slimFrq c tp.postings).length := by
    rw [slimFrq, List.length_append, hdd]
    omega
  have hdocs : decodeDdRegion z (slimDd tp.postings) e.ddMeta 0 = .ok tp.postings.docids :=
    decodeFlatDocs_slim h hwidths
  rw [decodeSlim, hfetch, ok_bind, if_neg hle, hdd, slimFrq, List.take_left, List.drop_left, hdocs,
    ok_bind, ← hlen, hfreq, decodeFreqRegion_region hwidths.freqs hregion (by omega)]
  rfl

/-- **A written posting** gives its documents with their frequencies. -/
theorem buildCursorPostings_ok (h : EntryAt z c idx tp r) (hwidths : TermWidths tp.postings)
    (hlen : tp.postings.freqs.length = tp.postings.docids.length) (hc : c.hasFreq = true)
    (hsize : idx.file.length < 2 ^ 64) :
    buildCursorPostings z idx r = .ok (tp.postings.docids, tp.postings.freqs) := by
  cases h with
  | windowed vs prelude term placed =>
      obtain ⟨hdocs, hfreqs⟩ := term.windows hlen
      have hunit := unitOf_bounds tp.postings
      have hpos : List.Forall₂ (fun (v : Window) ps => false = true →
          decodePositions z v.prx v.docs.length = .ok ps) vs (vs.map fun _ => []) := by
        rw [List.forall₂_map_right_iff, List.forall₂_same]
        exact fun _ _ hfalse => absurd hfalse Bool.false_ne_true
      have hread := @readWindowedPosting_ok z c idx r vs prelude false true placed _ (fun _ => hc)
        (fun hfalse => absurd hfalse Bool.false_ne_true) hpos
      rw [buildCursorPostings, if_pos ⟨placed.kind, placed.enc⟩, hread, ok_bind]
      simp only [decodedAs, if_true]
      rw [List.flatMap_def, hdocs, List.flatMap_def, hfreqs,
        Lib.Chunks.flatten_chunks (by omega), Lib.Chunks.flatten_chunks (by omega)]
      rfl
  | inline prx positions regions kind frq prxHere =>
      have hnot : ¬ (r.entry.kind = .podRef ∧ r.entry.enc = .windowed) := by
        rw [kind]
        exact fun hboth => by cases hboth.1
      rw [buildCursorPostings, if_neg hnot]
      apply decodeSlim_regions regions hwidths hlen hc
      rw [fetchSlimWindowBytes, if_pos kind, frq]
  | slim prx frqAbs prxAbs positions regions kind docsLen frqRange frqHere prxRange prxHere =>
      have hnot : ¬ (r.entry.kind = .podRef ∧ r.entry.enc = .windowed) := by
        rw [regions.enc]
        exact fun hboth => by cases hboth.2
      have hkind : r.entry.kind ≠ .inline := by
        rw [kind]
        decide
      obtain ⟨f, hf, hgets⟩ := @fetch_at 0 idx.file [⟨frqAbs, (slimFrq c tp.postings).length⟩]
        [slimFrq c tp.postings] hsize (.cons ⟨frqHere, rfl⟩ .nil)
      rw [buildCursorPostings, if_neg hnot]
      apply decodeSlim_regions regions hwidths hlen hc
      rw [fetchSlimWindowBytes, if_neg hkind, frqRange, ok_bind]
      simp only
      rw [hf, ok_bind, hgets.cons.1]

/-- **One window** of a written posting, read on its own. -/
theorem materializeWindowPostings_ok (h : WindowedAt c idx r vs prelude)
    (hc : c.hasFreq = true) {i : Nat} {v : Window} (hv : vs[i]? = some v) :
    materializeWindowPostings z idx r (readerOf (columns c vs)) i = .ok (v.docs, v.freqs) := by
  obtain ⟨-, hdd, hfreqs⟩ := h.blocks
  have hrows : List.Forall₂ (RowAt c (ddBytes 0 vs) (freqBytes c.hasFreq vs) (prxSpan vs)) vs
      (rows c 0 0 0 0 vs) := rows_at h.chain [] [] [] rfl rfl rfl rfl rfl rfl
  obtain ⟨m, hm, hrow⟩ := getElem?_of_forall₂ hrows hv
  have hwindow : (readerOf (columns c vs)).window i = .ok m := by
    rw [FrqPreludeReader.window, show (readerOf (columns c vs)).windows[i]? = some m from hm]
  have hrange := @WindowedAt.windowRange c idx r vs prelude h false true
    (fun hfalse => absurd hfalse Bool.false_ne_true) (fun _ => hc) i v m hm hrow
  have hcells : List.Forall₂ (fun (x : Range) b => At idx.file x.offset b ∧ x.len = b.length)
      [⟨preludeAbs idx r.entry r.frqBase + prelude.length + m.ddOff, m.ddDiskLen⟩,
        ⟨preludeAbs idx r.entry r.frqBase + prelude.length + (ddBytes 0 vs).length + m.freqOff,
          m.freqDiskLen⟩] [ddPlain m.winBase v.docs, encodePforRuns v.freqs] := by
    refine .cons ⟨hdd.trans hrow.ddAt, congrArg FrqRegionMeta.diskLen hrow.ddMeta⟩
      (.cons ⟨hfreqs.trans (hrow.freqAt hc), ?_⟩ .nil)
    exact congrArg FrqRegionMeta.diskLen (hrow.freqMeta hc)
  obtain ⟨f, hf, hgets⟩ := @fetch_at kSameTermCoalesceGap idx.file _ _ h.size hcells
  have hok := h.windows v (List.mem_of_getElem? hv)
  have hdecoded := @decodeWindowSlices_row z c _ _ _ v m hrow hok (encodePforRuns v.freqs)
    [] [] false true (fun _ => ⟨hc, rfl⟩)
    (fun hfalse => absurd hfalse Bool.false_ne_true)
  rw [materializeWindowPostings, hwindow, ok_bind, hrange, ok_bind]
  simp only [if_true]
  rw [hf, ok_bind, hgets.cons.1, ok_bind, hgets.cons.2.cons.1, ok_bind, hdecoded]
  rfl

end Snii.Query.CursorPostings
