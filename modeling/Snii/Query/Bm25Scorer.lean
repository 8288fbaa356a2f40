import Mathlib.Tactic.Linarith
import Snii.Query.ScoringQuerySelective
import Snii.Writer.PreludeColumns

/-!
# Scores and the bounds of windows

`bm25_scorer.cpp` over exact rationals, and the bound of a window that the writer
stores as its largest frequency and smallest norm.  The score grows with the frequency
and shrinks with the length that a norm decodes to, so no document of the window scores
above the bound (`windowBound_valid`).
-/

namespace Snii.Query.Bm25Scorer

open Snii.Lib.ByteReader Snii.Common Snii.Query.ScoringQuery
open Snii.Encoding.Compression Snii.Format.FrqPrelude Snii.Writer.SpillRunCodec
open Snii.Writer.LogicalIndexWriter

structure Bm25Params where
  k1 : ℚ
  b : ℚ

/-- A term's inverse document frequency; the logarithm behind it is not modelled. -/
structure ScorerContext where
  idf : ℚ

/-- The context of a term that `df` of `n` documents have, over a logarithm `ln`. -/
def ScorerContext.make (ln : ℚ → ℚ) (n df : Nat) : ScorerContext :=
  { idf := ln (1 + ((n : ℚ) - df + 1 / 2) / (df + 1 / 2)) }

/-- The length a norm byte stands for. -/
def decodeNorm (encoded : Nat) : ℚ := if encoded = 0 then 1 else encoded

def ScorerContext.score (ctx : ScorerContext) (tf encodedNorm : Nat) (avgdl : ℚ)
    (params : Bm25Params) : ℚ :=
  let dl := decodeNorm encodedNorm
  let denom := tf + params.k1 * (1 - params.b + params.b * dl / avgdl)
  ctx.idf * (tf * (params.k1 + 1)) / denom

def ScorerContext.maxScore (ctx : ScorerContext) (maxFreq minNorm : Nat) (avgdl : ℚ)
    (params : Bm25Params) : ℚ := ctx.score maxFreq minNorm avgdl params

/-- The parameters under which the score behaves. -/
structure Sound (ctx : ScorerContext) (avgdl : ℚ) (params : Bm25Params) : Prop where
  idf : 0 ≤ ctx.idf
  k1 : 0 ≤ params.k1
  bNonneg : 0 ≤ params.b
  bLe : params.b ≤ 1
  avgdl : 0 < avgdl

/-! ## Monotonicity -/

theorem decodeNorm_pos (n : Nat) : 0 < decodeNorm n := by
  unfold decodeNorm
  split
  · exact one_pos
  · rename_i hn
    exact_mod_cast Nat.pos_of_ne_zero hn

theorem decodeNorm_mono {m n : Nat} (h : m ≤ n) : decodeNorm m ≤ decodeNorm n := by
  unfold decodeNorm
  by_cases hm : m = 0
  · rw [if_pos hm]
    split
    · exact le_refl 1
    · rename_i hn
      exact_mod_cast Nat.one_le_iff_ne_zero.mpr hn
  · rw [if_neg hm, if_neg (by omega)]
    exact_mod_cast h

variable {ctx : ScorerContext} {avgdl : ℚ} {params : Bm25Params}

/-- What a length adds to the denominator. -/
def penalty (params : Bm25Params) (avgdl dl : ℚ) : ℚ :=
  params.k1 * (1 - params.b + params.b * dl / avgdl)

theorem penalty_nonneg (h : Sound ctx avgdl params) {dl : ℚ} (hdl : 0 < dl) :
    0 ≤ penalty params avgdl dl := by
  have hfirst : 0 ≤ 1 - params.b := by linarith [h.bLe]
  have hsecond : 0 ≤ params.b * dl / avgdl :=
    div_nonneg (mul_nonneg h.bNonneg hdl.le) h.avgdl.le
  exact mul_nonneg h.k1 (add_nonneg hfirst hsecond)

theorem penalty_mono (h : Sound ctx avgdl params) {dl dl' : ℚ} (hle : dl ≤ dl') :
    penalty params avgdl dl ≤ penalty params avgdl dl' := by
  have hratio : params.b * dl / avgdl ≤ params.b * dl' / avgdl :=
    div_le_div_of_nonneg_right (mul_le_mul_of_nonneg_left hle h.bNonneg) h.avgdl.le
  apply mul_le_mul_of_nonneg_left _ h.k1
  linarith

theorem score_eq (tf norm : Nat) : ctx.score tf norm avgdl params =
    ctx.idf * (tf * (params.k1 + 1)) / (tf + penalty params avgdl (decodeNorm norm)) := rfl

/-- **The score** grows with the frequency and shrinks with the length. -/
theorem score_mono (h : Sound ctx avgdl params) {tf tf' norm norm' : Nat} (htf : tf ≤ tf')
    (hnorm : norm' ≤ norm) : ctx.score tf norm avgdl params ≤ ctx.score tf' norm' avgdl params := by
  have hc := penalty_nonneg h (decodeNorm_pos norm')
  have hcc := penalty_mono h (decodeNorm_mono hnorm)
  rw [score_eq, score_eq]
  generalize penalty params avgdl (decodeNorm norm) = c at hcc ⊢
  generalize penalty params avgdl (decodeNorm norm') = c' at hc hcc ⊢
  have hcast : (tf : ℚ) ≤ tf' := by exact_mod_cast htf
  have hpos : 0 ≤ ctx.idf * (params.k1 + 1) := mul_nonneg h.idf (by linarith [h.k1])
  have hzero : (0 : ℚ) ≤ tf := Nat.cast_nonneg tf
  have hzero' : (0 : ℚ) ≤ tf' := Nat.cast_nonneg tf'
  rcases hzero.eq_or_lt with heq | hlt
  · -- a document without an occurrence scores nothing
    rw [← heq, zero_mul, mul_zero, zero_div]
    apply div_nonneg
    · calc (0 : ℚ) ≤ ctx.idf * (params.k1 + 1) * tf' := mul_nonneg hpos hzero'
        _ = ctx.idf * (tf' * (params.k1 + 1)) := by ring
    · exact add_nonneg hzero' hc
  · rw [div_le_div_iff₀ (by linarith) (by linarith)]
    have hcross : (tf : ℚ) * (tf' + c') ≤ tf' * (tf + c) := by
      have hmul : (tf : ℚ) * c' ≤ tf' * c := mul_le_mul hcast hcc hc hzero'
      linarith [mul_comm (tf : ℚ) tf']
    calc ctx.idf * (tf * (params.k1 + 1)) * (tf' + c')
        = ctx.idf * (params.k1 + 1) * (tf * (tf' + c')) := by ring
      _ ≤ ctx.idf * (params.k1 + 1) * (tf' * (tf + c)) := mul_le_mul_of_nonneg_left hcross hpos
      _ = ctx.idf * (tf' * (params.k1 + 1)) * (tf + c) := by ring

/-! ## The stored columns -/

/-- The norm a document is scored with; without norms that is `0`. -/
def scoringNorm (norms : Bytes) (docid : Nat) : Option Nat :=
  if norms = [] then some 0 else norms[docid]?.map UInt8.toNat

theorem le_maxOf {values : List Nat} {x : Nat} (h : x ∈ values) : x ≤ maxOf values := by
  unfold maxOf
  have hfold : ∀ (values : List Nat) (m : Nat),
      m ≤ values.foldl (fun m x => if x > m then x else m) m ∧
        ∀ x ∈ values, x ≤ values.foldl (fun m x => if x > m then x else m) m := by
    intro values
    induction values with
    | nil => exact fun m => ⟨Nat.le_refl m, by simp⟩
    | cons y values ih =>
        intro m
        obtain ⟨hle, hall⟩ := ih (if y > m then y else m)
        rw [List.foldl_cons]
        have hstep : m ≤ (if y > m then y else m) ∧ y ≤ (if y > m then y else m) := by
          split <;> omega
        refine ⟨hstep.1.trans hle, fun x hx => ?_⟩
        rcases List.mem_cons.mp hx with rfl | hx
        · exact hstep.2.trans hle
        · exact hall x hx
  exact (hfold values 0).2 x h

/-- The smallest norm byte of the documents looked at so far. -/
def bestNorm (norms : Bytes) (best : UInt8) (docs : List Nat) : UInt8 :=
  docs.foldl (fun best docid =>
    if docid ≥ norms.length then best
    else if norms.getD docid 0 < best then norms.getD docid 0 else best) best

theorem bestNorm_le (norms : Bytes) (best : UInt8) (docs : List Nat) :
    bestNorm norms best docs ≤ best ∧
      ∀ docid ∈ docs, ∀ n, norms[docid]? = some n → bestNorm norms best docs ≤ n := by
  induction docs generalizing best with
  | nil => exact ⟨le_refl best, by simp⟩
  | cons d docs ih =>
      rw [bestNorm, List.foldl_cons, ← bestNorm]
      by_cases hd : d ≥ norms.length
      · rw [if_pos hd]
        obtain ⟨hle, hall⟩ := ih best
        refine ⟨hle, fun docid hmem n hn => ?_⟩
        rcases List.mem_cons.mp hmem with rfl | hmem
        · rw [List.getElem?_eq_none hd] at hn
          cases hn
        · exact hall docid hmem n hn
      · rw [if_neg hd]
        have hstep : (if norms.getD d 0 < best then norms.getD d 0 else best) ≤ best ∧
            (if norms.getD d 0 < best then norms.getD d 0 else best) ≤ norms.getD d 0 := by
          split
          · rename_i hlt
            exact ⟨hlt.le, le_refl _⟩
          · rename_i hge
            exact ⟨le_refl _, not_lt.mp hge⟩
        obtain ⟨hle, hall⟩ := ih (if norms.getD d 0 < best then norms.getD d 0 else best)
        refine ⟨hle.trans hstep.1, fun docid hmem n hn => ?_⟩
        rcases List.mem_cons.mp hmem with rfl | hmem
        · have hget : norms.getD docid 0 = n := by
            rw [List.getD_eq_getElem?_getD, hn]
            rfl
          rw [← hget]
          exact hle.trans hstep.2
        · exact hall docid hmem n hn

/-- The stored norm is at most every norm of the window; the sentinel `255` is stored as
`0`, which stands for the shortest length. -/
theorem windowMaxNorm_le {norms : Bytes} {docs : List Nat} {docid n : Nat} (hmem : docid ∈ docs)
    (hn : scoringNorm norms docid = some n) : windowMaxNorm norms docs ≤ n := by
  unfold windowMaxNorm
  unfold scoringNorm at hn
  split
  · exact Nat.zero_le n
  · rename_i hne
    rw [if_neg (fun hnil => hne (.inl hnil))] at hn
    obtain ⟨byte, hbyte, rfl⟩ := Option.map_eq_some_iff.mp hn
    have hle := (bestNorm_le norms 0xFF docs).2 docid hmem byte hbyte
    show (if bestNorm norms 0xFF docs = 0xFF then 0 else (bestNorm norms 0xFF docs).toNat) ≤ _
    split
    · exact Nat.zero_le _
    · exact UInt8.le_iff_toNat_le.mp hle

/-- A row of the prelude with the bound that is computed from it. -/
def windowDataOf (ctx : ScorerContext) (avgdl : ℚ) (params : Bm25Params) (m : WindowMeta) :
    WindowData :=
  { winBase := m.winBase, lastDocid := m.lastDocid, docCount := m.docCount
    maxScore := ctx.maxScore m.maxFreq m.maxNorm avgdl params, postings := [] }

theorem rows_getElem? {c : EntryConfig} {vs : List Window} {winBase ddOff freqOff prxOff w : Nat}
    {v : Window} (h : vs[w]? = some v) : ∃ m,
      (rows c winBase ddOff freqOff prxOff vs)[w]? = some m ∧ m.maxFreq = maxOf v.freqs ∧
        m.maxNorm = windowMaxNorm c.norms v.docs ∧ m.docCount = v.docs.length % 2 ^ 32 := by
  induction vs generalizing winBase ddOff freqOff prxOff w with
  | nil => cases h
  | cons u vs ih =>
      cases w with
      | zero =>
          cases h
          exact ⟨_, rfl, rfl, rfl, rfl⟩
      | succ w => exact ih h

/-- Windows that have documents keep their places among the bounds. -/
theorem buildWindowBounds_getElem? {ws : List WindowData} (hne : ∀ d ∈ ws, d.docCount ≠ 0)
    {w : Nat} {d : WindowData} (h : ws[w]? = some d) : ∃ wb,
      (buildWindowBounds ws)[w]? = some wb ∧ wb.lastDocid = d.lastDocid ∧
        wb.maxScore = d.maxScore := by
  have hmap : buildWindowBounds ws = ws.zipIdx.map fun x =>
      { firstDocid := x.1.winBase + (if x.2 = 0 then 0 else 1), lastDocid := x.1.lastDocid
        maxScore := x.1.maxScore, blockMax := true } := by
    rw [buildWindowBounds, ← List.filterMap_eq_map]
    apply List.filterMap_congr
    intro x hx
    have hmem : x.1 ∈ ws := List.fst_mem_of_mem_zipIdx hx
    simp only [if_neg (hne x.1 hmem), Function.comp_apply]
  rw [hmap, List.getElem?_map, List.getElem?_zipIdx, h]
  exact ⟨_, rfl, rfl, rfl⟩

/-! ## Windows of the writer -/

/-- **The bound of a window is valid.**  The prelude of every term the writer lays out in
windows opens, and no document of a window, scored with its own frequency and norm, is
above the bound computed from the window's row. -/
theorem windowBound_valid (hsound : Sound ctx avgdl params) {z : Zstd} {c : EntryConfig}
    {tp : Emitted} {region region' prelude : Bytes} {wp : WindowedPosting} {prxTotal : Nat}
    (hrun : buildWindowedPosting z c tp region = .ok (wp, prxTotal) region')
    (hprelude : buildPrelude c wp.windows = .ok prelude)
    (hparallel : tp.postings.freqs.length = tp.postings.docids.length)
    (hwidths : TermWidths tp.postings)
    (hsize : prxTotal + prelude.length + wp.ddBlock.length + wp.freqBlock.length < 2 ^ 64) :
    ∃ r, FrqPreludeReader.open prelude = .ok r ∧
      ∀ (w : Nat) (docs freqs : List Nat),
        (splitWindows tp.postings.docids tp.postings.freqs)[w]? = some (docs, freqs) →
        ∃ (m : WindowMeta) (wb : WindowBound), r.windows[w]? = some m ∧
          (buildWindowBounds (r.windows.map (windowDataOf ctx avgdl params)))[w]? = some wb ∧
          wb.maxScore = ctx.maxScore m.maxFreq m.maxNorm avgdl params ∧
          ∀ (i docid tf norm : Nat), docs[i]? = some docid → freqs[i]? = some tf →
            scoringNorm c.norms docid = some norm →
            ctx.score tf norm avgdl params ≤ wb.maxScore := by
  obtain ⟨vs, hsplit, hencoded, hchain, _, htotal, rfl⟩ := buildWindowedPosting_rows hrun
  have hwindowed : Windowed z c tp vs prelude := ⟨hsplit, hencoded, hchain, hprelude⟩
  have hwhole : (prxSpan vs ++ frqSpan c prelude vs).length < 2 ^ 64 := by
    simp only [prxSpan, frqSpan, List.length_append] at hsize htotal ⊢
    omega
  refine ⟨_, hwindowed.open_prelude hparallel hwidths hwhole, ?_⟩
  intro w docs freqs hw
  rw [← hsplit, List.getElem?_map] at hw
  obtain ⟨v, hv, hvw⟩ := Option.map_eq_some_iff.mp hw
  cases hvw
  obtain ⟨m, hm, hfreq, hnorm, _⟩ := @rows_getElem? c vs 0 0 0 0 w v hv
  have hdata : ((readerOf (columns c vs)).windows.map (windowDataOf ctx avgdl params))[w]? =
      some (windowDataOf ctx avgdl params m) := by
    rw [List.getElem?_map]
    exact congrArg (Option.map _) hm
  -- every window of the writer has documents, so none is left out of the bounds
  have hcounts : ∀ d ∈ (readerOf (columns c vs)).windows.map (windowDataOf ctx avgdl params),
      d.docCount ≠ 0 := by
    intro d hd
    obtain ⟨row, hrow, rfl⟩ := List.mem_map.mp hd
    obtain ⟨k, hk⟩ := List.mem_iff_getElem?.mp hrow
    have hlt : k < vs.length := by
      rw [← @length_rows c vs 0 0 0 0]
      exact (List.getElem?_eq_some_iff.mp hk).1
    obtain ⟨row', hrow', _, _, hcount⟩ := @rows_getElem? c vs 0 0 0 0 k _
      (List.getElem?_eq_getElem hlt)
    have heq : row = row' := Option.some.inj (hk.symm.trans hrow')
    have hok := hwindowed.windowOk hparallel hwidths _ (List.getElem_mem hlt)
    have hpos := List.length_pos_iff.mpr hok.pos
    have hle := hok.count
    show row.docCount ≠ 0
    rw [heq, hcount, Nat.mod_eq_of_lt (by omega)]
    omega
  obtain ⟨wb, hwb, _, hmax⟩ := buildWindowBounds_getElem? hcounts hdata
  refine ⟨m, wb, hm, hwb, hmax, ?_⟩
  intro i docid tf norm hdoc htf hn
  rw [hmax]
  apply score_mono hsound
  · rw [hfreq]
    exact le_maxOf (List.mem_of_getElem? htf)
  · rw [hnorm]
    exact windowMaxNorm_le (List.mem_of_getElem? hdoc) hn

/-- A term of two documents with their lengths' norms, one of them the sentinel byte. -/
def twoDocs : Emitted := { postings := { docids := [0, 2], freqs := [3, 1] } }

def twoDocsConfig : EntryConfig := { hasFreq := true, hasPrx := false, norms := [7, 9, 255] }

theorem windowBound_valid_twoDocs : ∃ prelude r wb, FrqPreludeReader.open prelude = .ok r ∧
    (buildWindowBounds (r.windows.map (windowDataOf ⟨1⟩ 5 ⟨6 / 5, 3 / 4⟩)))[0]? = some wb ∧
      ScorerContext.score ⟨1⟩ 3 7 5 ⟨6 / 5, 3 / 4⟩ ≤ wb.maxScore ∧
      ScorerContext.score ⟨1⟩ 1 255 5 ⟨6 / 5, 3 / 4⟩ ≤ wb.maxScore := by
  have hsound : Sound ⟨1⟩ 5 ⟨6 / 5, 3 / 4⟩ :=
    ⟨by norm_num, by norm_num, by norm_num, by norm_num, by norm_num⟩
  obtain ⟨r, hopen, hwindows⟩ := windowBound_valid hsound
    (rfl : buildWindowedPosting Zstd.store twoDocsConfig twoDocs [] = .ok (_, _) _) rfl rfl
    (by decide) (by decide)
  obtain ⟨m, wb, _, hwb, _, hscore⟩ := hwindows 0 [0, 2] [3, 1] rfl
  exact ⟨_, r, wb, hopen, hwb, hscore 0 0 3 7 rfl rfl rfl, hscore 1 2 1 255 rfl rfl rfl⟩

end Snii.Query.Bm25Scorer
