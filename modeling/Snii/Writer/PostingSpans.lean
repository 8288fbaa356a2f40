import Snii.Writer.WindowRows

/-!
# What an entry says of its spans

Building an entry appends to the region exactly the bytes the entry stands for:
nothing if it is inline, else its positions and then its frequencies, at the offsets
and of the lengths it records (`EntrySpan`).
-/

namespace Snii.Writer.LogicalIndexWriter

open Snii.Lib.ByteReader Snii.Common Snii.Writer.SpillRunCodec
open Snii.Encoding.Compression Snii.Format.Dict
open Snii.Format.FrqPrelude (WindowMeta)

/-! ## Closed forms -/

section ClosedForms

variable {z : Zstd} {c : EntryConfig} {tp : Emitted} {frqBase prxBase : Nat} {e e' : DictEntry}
  {region region' : Bytes}

/-- The windows and the prelude of a windowed term. -/
structure Windowed (z : Zstd) (c : EntryConfig) (tp : Emitted) (vs : List Window) (prelude : Bytes) :
    Prop where
  split : vs.map Window.split = splitWindows tp.postings.docids tp.postings.freqs
  encoded : PrxEncoded z c tp 0 vs
  chain : DocsChain 0 vs
  prelude : buildPrelude c (rows c 0 0 0 0 vs) = .ok prelude

/-- The position windows of a term. -/
def prxSpan (vs : List Window) : Bytes := vs.flatMap Window.prx

/-- Prelude, docid block and freq block. -/
def frqSpan (c : EntryConfig) (prelude : Bytes) (vs : List Window) : Bytes :=
  prelude ++ (ddBytes 0 vs ++ freqBytes c.hasFreq vs)

/-- The entry over the spans of a windowed term. -/
def windowedEntry (c : EntryConfig) (e : DictEntry) (frqBase prxBase off : Nat) (prelude : Bytes)
    (vs : List Window) : DictEntry :=
  { e with
    kind := .podRef, enc := .windowed, hasSb := true, preludeLen := prelude.length
    frqDocsLen := prelude.length + (ddBytes 0 vs).length
    frqOffDelta := off + (prxSpan vs).length - frqBase, frqLen := (frqSpan c prelude vs).length
    prxOffDelta := if c.hasPrx then off - prxBase else e.prxOffDelta
    prxLen := if c.hasPrx then (prxSpan vs).length else e.prxLen }

theorem buildWindowedEntry_eq_ok
    (h : buildWindowedEntry z c tp frqBase prxBase e region = .ok e' region') :
    ∃ vs prelude, Windowed z c tp vs prelude ∧
      region' = region ++ (prxSpan vs ++ frqSpan c prelude vs) ∧
      e' = windowedEntry c e frqBase prxBase region.length prelude vs := by
  unfold buildWindowedEntry at h
  obtain ⟨_, _, hsize, h1⟩ := bind_run_eq_ok h
  cases hsize
  obtain ⟨⟨wp, total⟩, region1, hpost, h2⟩ := bind_run_eq_ok h1
  obtain ⟨prelude, region2, hprelude, h3⟩ := bind_run_eq_ok h2
  cases h3
  obtain ⟨vs, hsplit, henc, hchain, hregion1, htotal, hwp⟩ := buildWindowedPosting_rows hpost
  obtain ⟨hprelude', hregion2⟩ := check_eq_ok hprelude
  subst hwp hregion2 hregion1 htotal
  refine ⟨vs, prelude, ⟨hsplit, henc, hchain, hprelude'⟩, by simp [prxSpan, frqSpan], ?_⟩
  have hlen : (region ++ prxSpan vs ++ prelude ++ ddBytes 0 vs ++ freqBytes c.hasFreq vs).length -
      (region ++ prxSpan vs).length = (frqSpan c prelude vs).length := by
    simp only [frqSpan, List.length_append]
    omega
  rw [windowedEntry, ← hlen, ← @List.length_append _ region (prxSpan vs)]
  rfl

/-- The two regions of a slim term. -/
def slimDd (tp : TermPostings) : Bytes := Format.FrqPod.ddPlain 0 tp.docids

/-- The freq region of a term of one window. -/
def slimFreq (c : EntryConfig) (tp : TermPostings) : Bytes :=
  if c.hasFreq then Format.FrqPod.encodePforRuns tp.freqs else []

/-- Its two regions. -/
def slimFrq (c : EntryConfig) (tp : TermPostings) : Bytes := slimDd tp ++ slimFreq c tp

/-- The entry before its postings have a place. -/
def slimEntry (c : EntryConfig) (e : DictEntry) (tp : TermPostings) : DictEntry :=
  { e with
    enc := .slim, ddMeta := rawMeta (slimDd tp)
    freqMeta := if c.hasFreq then rawMeta (slimFreq c tp) else {} }

/-- With the postings inside it. -/
def inlineEntry (c : EntryConfig) (e : DictEntry) (tp : TermPostings) (prx : Bytes) : DictEntry :=
  { slimEntry c e tp with
    kind := .inline, inlineDdDiskLen := (slimDd tp).length, frqBytes := slimFrq c tp
    prxBytes := if c.hasPrx then prx else e.prxBytes }

/-- With the postings in the posting region. -/
def slimPodRef (c : EntryConfig) (e : DictEntry) (tp : TermPostings) (frqBase prxBase off : Nat)
    (prx : Bytes) : DictEntry :=
  { slimEntry c e tp with
    kind := .podRef, frqDocsLen := (slimDd tp).length
    prxOffDelta := if c.hasPrx then off - prxBase else e.prxOffDelta
    prxLen := if c.hasPrx then prx.length else e.prxLen
    frqOffDelta := off + prx.length - frqBase, frqLen := (slimFrq c tp).length }

theorem appendSlim_eq_ok {prx frq : Bytes} (hnil : c.hasPrx = false → prx = [])
    (h : appendSlim c frqBase prxBase e prx frq region = .ok e' region') :
    region' = region ++ (prx ++ frq) ∧
      e' = { e with
        prxOffDelta := if c.hasPrx then region.length - prxBase else e.prxOffDelta
        prxLen := if c.hasPrx then prx.length else e.prxLen
        frqOffDelta := region.length + prx.length - frqBase, frqLen := frq.length } := by
  unfold appendSlim at h
  cases hc : c.hasPrx with
  | true =>
      rw [hc, if_pos rfl] at h
      cases h
      refine ⟨by simp, ?_⟩
      simp only [if_true, List.length_append, Nat.add_sub_cancel_left]
  | false =>
      have hp := hnil hc
      subst hp
      rw [hc, if_neg (by decide)] at h
      cases h
      refine ⟨by simp, ?_⟩
      simp only [Bool.false_eq_true, if_false, List.length_append, Nat.add_sub_cancel_left,
        List.length_nil, Nat.add_zero]

theorem makePrxWindow_nil {prx : Bytes} (h : makePrxWindow z c tp.postings = .ok prx)
    (hc : c.hasPrx = false) : prx = [] := by
  rw [makePrxWindow, hc, if_neg (by decide)] at h
  cases h
  rfl

theorem buildSlimEntry_eq_ok
    (h : buildSlimEntry z c tp frqBase prxBase e region = .ok e' region') :
    (0 :: tp.postings.docids).IsChain (· ≤ ·) ∧ ∃ prx, makePrxWindow z c tp.postings = .ok prx ∧
      if (slimFrq c tp.postings).length ≤ kDefaultInlineThreshold then
        region' = region ∧ e' = inlineEntry c e tp.postings prx
      else
        region' = region ++ (prx ++ slimFrq c tp.postings) ∧
          e' = slimPodRef c e tp.postings frqBase prxBase region.length prx := by
  unfold buildSlimEntry at h
  obtain ⟨⟨dd, freq⟩, region1, henc, h1⟩ := bind_run_eq_ok h
  obtain ⟨prx, region2, hwin, h2⟩ := bind_run_eq_ok h1
  obtain ⟨henc', hregion1⟩ := check_eq_ok henc
  obtain ⟨hwin', hregion2⟩ := check_eq_ok hwin
  rw [hregion2, hregion1] at h2
  obtain ⟨hchain, hdd, hfreq⟩ := encodeRegions_eq_ok henc'
  have hfreq1 : freq.1 = slimFreq c tp.postings := by
    rw [hfreq, slimFreq]
    cases c.hasFreq <;> rfl
  have hfreq2 : freq.2 = if c.hasFreq then rawMeta (slimFreq c tp.postings) else {} := by
    rw [hfreq, slimFreq]
    cases c.hasFreq <;> rfl
  have hfrq : dd.1 ++ freq.1 = slimFrq c tp.postings := by
    rw [hfreq1, hdd]
    rfl
  refine ⟨hchain, prx, hwin', ?_⟩
  rw [hfrq, hfreq2, hdd] at h2
  by_cases hinline : (slimFrq c tp.postings).length ≤ kDefaultInlineThreshold
  · rw [if_pos hinline] at h2 ⊢
    cases h2
    exact ⟨rfl, rfl⟩
  · rw [if_neg hinline] at h2 ⊢
    exact appendSlim_eq_ok (makePrxWindow_nil hwin') h2

end ClosedForms

/-! ## Spans -/

/-- The blocks are as long as their windows' regions together. -/
structure BlockLens (hasFreq : Bool) (wp : WindowedPosting) : Prop where
  dd : (wp.windows.map WindowMeta.ddDiskLen).sum = wp.ddBlock.length
  freq : Format.FrqPrelude.freqTotal hasFreq wp.windows = wp.freqBlock.length

/-- What a pod_ref entry says of its spans, behind `off` bytes of the region. -/
structure SpanOf (c : EntryConfig) (frqBase prxBase : Nat) (e : DictEntry) (off : Nat)
    (prx frq : Bytes) : Prop where
  noPrx : c.hasPrx = false → prx = []
  prxOff : c.hasPrx = true → prxBase + e.prxOffDelta = off
  prxLen : c.hasPrx = true → e.prxLen = prx.length
  frqOff : frqBase + e.frqOffDelta = off + prx.length
  frqLen : e.frqLen = frq.length
  parts : e.enc = .windowed → ∃ prelude wp, buildPrelude c wp.windows = .ok prelude ∧
    BlockLens c.hasFreq wp ∧ frq = prelude ++ wp.ddBlock ++ wp.freqBlock ∧
    e.preludeLen = prelude.length ∧ e.frqDocsLen = prelude.length + wp.ddBlock.length

/-- The bytes an entry stands for in the region: none if it is inline. -/
def EntrySpan (c : EntryConfig) (frqBase prxBase : Nat) (e : DictEntry) (off : Nat)
    (span : Bytes) : Prop :=
  match e.kind with
  | .inline => span = [] ∧ e.frqLen = 0 ∧ e.prxLen = 0
  | .podRef => ∃ prx frq, span = prx ++ frq ∧ SpanOf c frqBase prxBase e off prx frq

variable {z : Zstd} {c : EntryConfig} {tp : Emitted} {frqBase prxBase : Nat} {e e' : DictEntry}
  {region region' : Bytes}

theorem windowedEntry_spans (hfrq : frqBase ≤ region.length) (hprx : prxBase ≤ region.length)
    {vs : List Window} {prelude : Bytes} (h : Windowed z c tp vs prelude) :
    SpanOf c frqBase prxBase (windowedEntry c e frqBase prxBase region.length prelude vs)
      region.length (prxSpan vs) (frqSpan c prelude vs) where
  noPrx hc := List.flatMap_eq_nil_iff.mpr (h.encoded.prx_nil hc)
  prxOff hc := by
    show prxBase + (if c.hasPrx then region.length - prxBase else e.prxOffDelta) = region.length
    rw [if_pos hc]
    omega
  prxLen hc := if_pos hc
  frqOff := by
    show frqBase + (region.length + (prxSpan vs).length - frqBase) = _
    omega
  frqLen := rfl
  parts _ := ⟨prelude, { ddBlock := ddBytes 0 vs, freqBlock := freqBytes c.hasFreq vs
                         windows := rows c 0 0 0 0 vs },
    h.prelude, ⟨sum_ddDiskLen 0 0 0 0 vs, freqTotal_rows 0 0 0 0 vs⟩, by simp [frqSpan], rfl, rfl⟩

theorem slimPodRef_spans (hfrq : frqBase ≤ region.length) (hprx : prxBase ≤ region.length)
    {prx : Bytes} (h : makePrxWindow z c tp.postings = .ok prx) :
    SpanOf c frqBase prxBase (slimPodRef c e tp.postings frqBase prxBase region.length prx)
      region.length prx (slimFrq c tp.postings) where
  noPrx := makePrxWindow_nil h
  prxOff hc := by
    show prxBase + (if c.hasPrx then region.length - prxBase else e.prxOffDelta) = region.length
    rw [if_pos hc]
    omega
  prxLen hc := if_pos hc
  frqOff := by
    show frqBase + (region.length + prx.length - frqBase) = _
    omega
  frqLen := rfl
  parts henc := by cases henc

/-- **An entry's spans**: what building the entry appends is what the entry says. -/
theorem buildEntry_spans (hfrq : frqBase ≤ region.length) (hprx : prxBase ≤ region.length)
    (h : buildEntry z c tp frqBase prxBase region = .ok e region') :
    e.term = tp.postings.term ∧ ∃ span, region' = region ++ span ∧
      EntrySpan c frqBase prxBase e region.length span := by
  unfold buildEntry at h
  by_cases hdf : (entryStats tp.postings).df ≥ kSlimDfThreshold
  · rw [if_pos hdf] at h
    obtain ⟨vs, prelude, hwin, hregion, rfl⟩ := buildWindowedEntry_eq_ok h
    exact ⟨rfl, _, hregion, _, _, rfl, windowedEntry_spans hfrq hprx hwin⟩
  · rw [if_neg hdf] at h
    obtain ⟨_, prx, hwin, hcases⟩ := buildSlimEntry_eq_ok h
    by_cases hinline : (slimFrq c tp.postings).length ≤ kDefaultInlineThreshold
    · rw [if_pos hinline] at hcases
      obtain ⟨hregion, rfl⟩ := hcases
      exact ⟨rfl, [], by rw [hregion, List.append_nil], rfl, rfl, rfl⟩
    · rw [if_neg hinline] at hcases
      obtain ⟨hregion, rfl⟩ := hcases
      exact ⟨rfl, _, hregion, _, _, rfl, slimPodRef_spans hfrq hprx hwin⟩

end Snii.Writer.LogicalIndexWriter
