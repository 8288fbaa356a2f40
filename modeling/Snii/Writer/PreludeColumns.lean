import Snii.Writer.PostingSpans

/-!
# The prelude of a windowed term

The rows of a windowed term have the widths of the format and tile their blocks, so
the prelude built from them opens to them (`Windowed.open_prelude`).
-/

namespace Snii.Writer.LogicalIndexWriter

open Snii.Lib.ByteReader Snii.Lib.Chunks Snii.Common Snii.Writer.SpillRunCodec
open Snii.Encoding.Compression Snii.Encoding.Crc32c
open Snii.Format.FrqPrelude

variable {z : Zstd} {c : EntryConfig} {tp : Emitted} {vs : List Window} {prelude : Bytes}

/-- A term's numbers have the widths of their types. -/
structure TermWidths (tp : TermPostings) : Prop where
  docids : ∀ d ∈ tp.docids, d < 2 ^ 32
  count : tp.docids.length < 2 ^ 32
  freqs : ∀ f ∈ tp.freqs, f < 2 ^ 32

instance (tp : TermPostings) : Decidable (TermWidths tp) :=
  decidable_of_iff ((∀ d ∈ tp.docids, d < 2 ^ 32) ∧ tp.docids.length < 2 ^ 32 ∧
      ∀ f ∈ tp.freqs, f < 2 ^ 32)
    ⟨fun ⟨hd, hc, hf⟩ => ⟨hd, hc, hf⟩, fun ⟨hd, hc, hf⟩ => ⟨hd, hc, hf⟩⟩

/-! ## The windows of a term -/

def unitOf (tp : TermPostings) : Nat := adaptiveWindowDocs (tp.docids.length % 2 ^ 32)

theorem unitOf_bounds (tp : TermPostings) : 256 ≤ unitOf tp ∧ unitOf tp ≤ 1024 := by
  unfold unitOf adaptiveWindowDocs kAdaptiveWindowDocs
  split
  · omega
  · decide

theorem Windowed.windows (h : Windowed z c tp vs prelude)
    (hlen : tp.postings.freqs.length = tp.postings.docids.length) :
    vs.map Window.docs = chunks (unitOf tp.postings) tp.postings.docids ∧
      vs.map Window.freqs = chunks (unitOf tp.postings) tp.postings.freqs := by
  have hcount : (chunks (unitOf tp.postings) tp.postings.docids).length =
      (chunks (unitOf tp.postings) tp.postings.freqs).length := by
    rw [length_chunks, length_chunks, hlen]
  have hsplit := h.split
  refine ⟨?_, ?_⟩
  · have hfst := congrArg (List.map Prod.fst) hsplit
    rw [List.map_map] at hfst
    exact hfst.trans (List.map_fst_zip (by rw [← unitOf, hcount]))
  · have hsnd := congrArg (List.map Prod.snd) hsplit
    rw [List.map_map] at hsnd
    exact hsnd.trans (List.map_snd_zip (by rw [← unitOf, hcount]))

/-- A window that is not empty, not larger than the unit, and within the widths. -/
structure WindowOk (v : Window) : Prop where
  pos : v.docs ≠ []
  count : v.docs.length ≤ 1024
  lengths : v.freqs.length = v.docs.length
  docs : ∀ d ∈ v.docs, d < 2 ^ 32
  freqs : ∀ f ∈ v.freqs, f < 2 ^ 32

theorem Windowed.windowOk (h : Windowed z c tp vs prelude)
    (hlen : tp.postings.freqs.length = tp.postings.docids.length)
    (hwidths : TermWidths tp.postings) : ∀ v ∈ vs, WindowOk v := by
  intro v hv
  obtain ⟨hdocs, hfreqs⟩ := h.windows hlen
  have hunit := unitOf_bounds tp.postings
  have hd : v.docs ∈ chunks (unitOf tp.postings) tp.postings.docids := by
    rw [← hdocs]
    exact List.mem_map_of_mem hv
  have hf : v.freqs ∈ chunks (unitOf tp.postings) tp.postings.freqs := by
    rw [← hfreqs]
    exact List.mem_map_of_mem hv
  have hbounds := length_mem_chunks (by omega) hd
  refine ⟨List.length_pos_iff.mp hbounds.1, by omega, ?_,
    fun d hd' => hwidths.docids d (mem_of_mem_chunks hd hd'),
    fun f hf' => hwidths.freqs f (mem_of_mem_chunks hf hf')⟩
  -- both lists of windows have the same lengths, window by window
  have hlens : vs.map (fun v => v.freqs.length) = vs.map fun v => v.docs.length := by
    have h1 := congrArg (List.map List.length) hdocs
    have h2 := congrArg (List.map List.length) hfreqs
    rw [List.map_map, map_length_chunks] at h1 h2
    rw [hlen] at h2
    exact h2.trans h1.symm
  exact List.map_inj_left.mp hlens v hv

/-! ## Rows -/

theorem maxOf_lt {values : List Nat} {n : Nat} (hn : 0 < n) (h : ∀ x ∈ values, x < n) :
    maxOf values < n := by
  unfold maxOf
  have hfold : ∀ m, m < n → values.foldl (fun m x => if x > m then x else m) m < n := by
    intro m hm
    induction values generalizing m with
    | nil => exact hm
    | cons x values ih =>
        refine ih (fun y hy => h y (List.mem_cons_of_mem _ hy)) _ ?_
        have hx := h x List.mem_cons_self
        dsimp only
        split <;> assumption
  exact hfold 0 hn

theorem windowMaxNorm_lt (norms : Bytes) (docs : List Nat) : windowMaxNorm norms docs < 256 := by
  unfold windowMaxNorm
  split
  · decide
  · dsimp only
    split
    · decide
    · exact UInt8.toNat_lt _

theorem le_getLastD {winBase : Nat} {docs : List Nat} (hne : docs ≠ [])
    (h : (winBase :: docs).IsChain (· ≤ ·)) : winBase ≤ docs.getLastD 0 := by
  have hpair := List.isChain_iff_pairwise.mp h
  rw [List.pairwise_cons] at hpair
  refine hpair.1 _ ?_
  rw [List.getLastD_eq_getLast?, List.getLast?_eq_some_getLast hne]
  exact List.getLast_mem hne

theorem getLastD_lt {docs : List Nat} (hne : docs ≠ []) (h : ∀ d ∈ docs, d < 2 ^ 32) :
    docs.getLastD 0 < 2 ^ 32 := by
  rw [List.getLastD_eq_getLast?, List.getLast?_eq_some_getLast hne]
  exact h _ (List.getLast_mem hne)

theorem rowsOk_rows {winBase ddOff freqOff prxOff : Nat} (hchain : DocsChain winBase vs)
    (hok : ∀ v ∈ vs, WindowOk v) (hprx : c.hasPrx = false → ∀ v ∈ vs, v.prx = [])
    (hdd : ddOff + (ddBytes winBase vs).length < 2 ^ 64)
    (hfreq : freqOff + (freqBytes c.hasFreq vs).length < 2 ^ 64)
    (hprxLen : prxOff + (prxSpan vs).length < 2 ^ 64) :
    RowsOk c.hasFreq c.hasPrx winBase (rows c winBase ddOff freqOff prxOff vs) := by
  induction vs generalizing winBase ddOff freqOff prxOff with
  | nil => trivial
  | cons v vs ih =>
      have hv := hok v List.mem_cons_self
      rw [ddBytes, List.length_append] at hdd
      rw [freqBytes, List.flatMap_cons, List.length_append, ← freqBytes] at hfreq
      rw [prxSpan, List.flatMap_cons, List.length_append, ← prxSpan] at hprxLen
      have hrest : RowsOk c.hasFreq c.hasPrx v.last (rows c v.last
          (ddOff + (v.ddBytes winBase).length) (freqOff + (v.freqBytes c.hasFreq).length)
          (prxOff + v.prx.length) vs) :=
        ih hchain.2 (fun u hu => hok u (List.mem_cons_of_mem _ hu))
          (fun hc u hu => hprx hc u (List.mem_cons_of_mem _ hu)) (by omega) (by omega) (by omega)
      refine ⟨?_, hrest⟩
      have hcount := hv.count
      have hcrc := crc32c_lt (v.freqBytes c.hasFreq)
      constructor
      case base => rfl
      case mono => exact le_getLastD hv.pos hchain.1
      case last => exact getLastD_lt hv.pos hv.docs
      case docCount => exact Nat.mod_lt _ (by decide)
      case dd =>
        refine ⟨?_, ?_, ?_, crc32c_lt _⟩
        · show ddOff < 2 ^ 64
          omega
        · show (v.ddBytes winBase).length < 2 ^ 64
          omega
        · show (v.ddBytes winBase).length < 2 ^ 64
          omega
      case freq =>
        refine ⟨?_, ?_, ?_, ?_⟩
        · show (if c.hasFreq then freqOff else 0) < 2 ^ 64
          split <;> omega
        · show (v.freqBytes c.hasFreq).length < 2 ^ 64
          omega
        · show (v.freqBytes c.hasFreq).length < 2 ^ 64
          omega
        · show (if c.hasFreq then crc32c (v.freqBytes c.hasFreq) else 0) < 2 ^ 32
          split <;> omega
      case noFreq =>
        intro hc
        simp [Window.row, Window.freqBytes, Window.skeleton, windowSkeleton, hc]
      case prx =>
        refine ⟨?_, ?_⟩
        · show (if c.hasPrx then prxOff else 0) < 2 ^ 64
          split <;> omega
        · show v.prx.length < 2 ^ 64
          omega
      case noPrx =>
        intro hc
        have hnil := hprx hc v List.mem_cons_self
        simp [Window.row, Window.skeleton, hc, hnil]
      case maxFreq => exact maxOf_lt (by decide) hv.freqs
      case maxNorm => exact windowMaxNorm_lt _ _
      case crcs => rfl

theorem tiles_rows (winBase ddOff freqOff prxOff : Nat) :
    Tiles c.hasFreq ddOff freqOff (rows c winBase ddOff freqOff prxOff vs) := by
  induction vs generalizing winBase ddOff freqOff prxOff with
  | nil => trivial
  | cons v vs ih =>
      refine ⟨rfl, fun _ => Nat.le_refl _, fun hc => if_pos hc, ?_⟩
      have hnext : (if c.hasFreq then freqOff + (v.freqBytes c.hasFreq).length else freqOff) =
          freqOff + (v.freqBytes c.hasFreq).length := by
        cases hc : c.hasFreq <;> simp [Window.freqBytes]
      show Tiles c.hasFreq _ (if c.hasFreq then freqOff + (v.freqBytes c.hasFreq).length else freqOff) _
      rw [hnext]
      exact ih _ _ _ _

theorem length_rows (winBase ddOff freqOff prxOff : Nat) :
    (rows c winBase ddOff freqOff prxOff vs).length = vs.length := by
  induction vs generalizing winBase ddOff freqOff prxOff with
  | nil => rfl
  | cons v vs ih => rw [rows, List.length_cons, ih, List.length_cons]

/-- The columns the prelude is built from. -/
def columns (c : EntryConfig) (vs : List Window) : FrqPreludeColumns :=
  { hasFreq := c.hasFreq, hasPrx := c.hasPrx, groupSize := kPreludeGroupSize
    windows := rows c 0 0 0 0 vs }

/-- **The prelude of a windowed term** opens to the term's rows. -/
theorem Windowed.open_prelude (h : Windowed z c tp vs prelude)
    (hlen : tp.postings.freqs.length = tp.postings.docids.length)
    (hwidths : TermWidths tp.postings)
    (hsize : (prxSpan vs ++ frqSpan c prelude vs).length < 2 ^ 64) :
    FrqPreludeReader.open prelude = .ok (readerOf (columns c vs)) := by
  simp only [frqSpan, List.length_append] at hsize
  have hcount : (rows c 0 0 0 0 vs).length ≤ kMaxWindows := by
    by_contra hmany
    have hvalid := h.prelude
    unfold buildPrelude buildFrqPrelude validateInput at hvalid
    rw [if_neg (show ¬ kPreludeGroupSize = 0 by decide), if_pos (Nat.lt_of_not_le hmany)] at hvalid
    cases hvalid
  have hcols : ColumnsOk (columns c vs) := by
    refine ⟨show 0 < kPreludeGroupSize by decide, show kPreludeGroupSize < 2 ^ 32 by decide, hcount,
      ?_, tiles_rows _ _ _ _, ?_, ?_⟩
    · exact rowsOk_rows h.chain (h.windowOk hlen hwidths) h.encoded.prx_nil (by omega) (by omega)
        (by omega)
    · show ((rows c 0 0 0 0 vs).map WindowMeta.ddDiskLen).sum < 2 ^ 64
      rw [sum_ddDiskLen]
      omega
    · show freqTotal c.hasFreq (rows c 0 0 0 0 vs) < 2 ^ 64
      rw [freqTotal_rows]
      omega
  obtain ⟨bytes, hbuild, _, hopen⟩ := open_buildFrqPrelude hcols
  have heq := h.prelude.symm.trans hbuild
  cases heq
  exact hopen

end Snii.Writer.LogicalIndexWriter
