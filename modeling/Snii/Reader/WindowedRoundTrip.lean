import Snii.Reader.TermPositions

/-!
# Windowed postings read back

`read_windowed_posting` over what the writer left for a windowed term: the prelude opens,
the two blocks and the position span are fetched in one round, and the windows decode
one after the other to the term's documents, frequencies and positions
(`readWindowedPosting_ok`).
-/

namespace Snii.Reader

open Snii.Lib.ByteReader Snii.Lib.Aligned Snii.Common Snii.Io.FileReader Snii.Io.BatchRangeFetcher
open Snii.Encoding.Compression Snii.Format.Dict
open Snii.Format.DictBlock (Resolved)
open Snii.Format.FrqPod (FrqRegionMeta encodePforRuns ddPlain)
open Snii.Format.FrqPrelude (WindowMeta FrqPreludeReader readerOf)
open Snii.Format.PrxPod (readPrxWindow)
open Snii.Writer.SpillRunCodec Snii.Writer.LogicalIndexWriter

variable {z : Zstd} {c : EntryConfig} {idx : LogicalIndexReader} {r : Resolved} {vs : List Window}
  {prelude : Bytes} {wantPositions wantFreq : Bool}

/-! ## Carving -/

theorem carve_at {block data : Bytes} {off len : Nat} (h : At block off data)
    (hlen : len = data.length) : carve block off len = .ok data := by
  obtain ⟨pre, post, rfl, rfl⟩ := h
  have hin : inBounds pre.length len (pre ++ (data ++ post)).length = .ok () := by
    simp only [inBounds, List.length_append]
    rw [if_neg (by omega)]
  rw [carve, hin, ok_bind]
  exact subslice_append rfl hlen

/-- The positions of a window that holds them. -/
theorem WindowHolds.decodePositions {prx : Bytes} {docs : List (List Nat)}
    (h : WindowHolds z prx docs) : decodePositions z prx docs.length = .ok docs := by
  have hrun := h.lists []
  rw [List.append_nil] at hrun
  rw [Reader.decodePositions, hrun, ok_bind]
  exact if_neg (not_not_intro rfl)

/-! ## The windows of a posting -/

/-- What the windows decode to, given each window's positions. -/
def decodedAs (wantPositions wantFreq : Bool) (vs : List Window)
    (positions : List (List (List Nat))) : DecodedPosting where
  docids := vs.flatMap Window.docs
  freqs := if wantFreq then vs.flatMap Window.freqs else []
  positions := if wantPositions then positions.flatten else []

/-- **One window** is carved out of the blocks that were read and decodes to itself. -/
theorem decodeWindow_row {dd freq prx : Bytes} {v : Window} {m : WindowMeta}
    (h : RowAt c dd freq prx v m) (hv : WindowOk v) {positions : List (List Nat)}
    (hfreq : wantFreq = true → c.hasFreq = true)
    (hprx : wantPositions = true → c.hasPrx = true ∧
      decodePositions z v.prx v.docs.length = .ok positions) :
    decodeWindow z m dd (if wantFreq then freq else []) (if wantPositions then prx else [])
        wantPositions wantFreq = .ok (decodedAs wantPositions wantFreq [v] [positions]) := by
  have hdd : carve dd m.ddOff m.ddDiskLen = .ok (ddPlain m.winBase v.docs) :=
    carve_at h.ddAt (congrArg FrqRegionMeta.diskLen h.ddMeta)
  have hfreqs : (if wantFreq then
      carve (if wantFreq then freq else []) m.freqOff m.freqDiskLen else .ok []) =
        .ok (if wantFreq then encodePforRuns v.freqs else []) := by
    cases hw : wantFreq with
    | false => rfl
    | true =>
        have hc := hfreq hw
        exact carve_at (h.freqAt hc) (congrArg FrqRegionMeta.diskLen (h.freqMeta hc))
  have hpos : (if wantPositions then
      carve (if wantPositions then prx else []) m.prxOff m.prxLen else .ok []) =
        .ok (if wantPositions then v.prx else []) := by
    cases hw : wantPositions with
    | false => rfl
    | true => exact carve_at (h.prxAt (hprx hw).1) h.prxLen
  have hdecoded := @decodeWindowSlices_row z c dd freq prx v m h hv
    (if wantFreq then encodePforRuns v.freqs else []) (if wantPositions then v.prx else [])
    positions wantPositions wantFreq (fun hw => ⟨hfreq hw, if_pos hw⟩)
    (fun hw => by rw [if_pos hw]; exact (hprx hw).2)
  rw [decodeWindow, hdd, ok_bind, hfreqs, ok_bind, hpos, ok_bind, hdecoded]
  simp [decodedAs]

theorem decodedAs_cons (v : Window) (vs : List Window) (ps : List (List Nat))
    (pss : List (List (List Nat))) :
    (decodedAs wantPositions wantFreq [v] [ps]).append (decodedAs wantPositions wantFreq vs pss) =
      decodedAs wantPositions wantFreq (v :: vs) (ps :: pss) := by
  cases wantPositions <;> cases wantFreq <;> simp [decodedAs, DecodedPosting.append]

theorem DecodedPosting.append_assoc (a b d : DecodedPosting) :
    (a.append b).append d = a.append (b.append d) := by
  simp [DecodedPosting.append, List.append_assoc]

theorem DecodedPosting.empty_append (a : DecodedPosting) : DecodedPosting.append {} a = a := rfl

/-- **The windows in order**: what came before, and then the windows' own. -/
theorem decodeWindows_rows {dd freq prx : Bytes} {ms : List WindowMeta}
    {positions : List (List (List Nat))} (hrows : List.Forall₂ (RowAt c dd freq prx) vs ms)
    (hvs : ∀ v ∈ vs, WindowOk v) (hfreq : wantFreq = true → c.hasFreq = true)
    (hprx : List.Forall₂ (fun v ps => wantPositions = true → c.hasPrx = true ∧
      decodePositions z v.prx v.docs.length = .ok ps) vs positions) (out : DecodedPosting) :
    decodeWindows z dd (if wantFreq then freq else []) (if wantPositions then prx else [])
        wantPositions wantFreq out ms =
      .ok (out.append (decodedAs wantPositions wantFreq vs positions)) := by
  induction hrows generalizing positions out with
  | nil =>
      cases hprx
      cases wantPositions <;> cases wantFreq <;>
        simp [decodeWindows, decodedAs, DecodedPosting.append]
  | @cons v m vs ms hrow _ ih =>
      cases hprx with
      | @cons _ ps _ pss hps hrest =>
          have hhere := @decodeWindow_row z c wantPositions wantFreq dd freq prx v m hrow
            (hvs v List.mem_cons_self) ps hfreq hps
          have hnext := ih (fun u hu => hvs u (List.mem_cons_of_mem _ hu)) hrest
            (out.append (decodedAs wantPositions wantFreq [v] [ps]))
          rw [decodeWindows, hhere, ok_bind, hnext, DecodedPosting.append_assoc, decodedAs_cons]

/-! ## A whole posting -/

theorem WindowedAt.prelude_pos (h : WindowedAt c idx r vs prelude) : 0 < prelude.length := by
  apply List.length_pos_iff.mpr
  intro hnil
  have hopen := h.opens
  rw [hnil] at hopen
  cases hopen

theorem WindowedAt.preludeLen_le (h : WindowedAt c idx r vs prelude) :
    prelude.length ≤ r.entry.frqLen := by
  rw [h.frqLen, frqSpan, List.length_append]
  omega

/-- The prelude is where the entry says. -/
theorem fetchWindowedPrelude_ok (h : WindowedAt c idx r vs prelude) :
    fetchWindowedPrelude idx r.entry r.frqBase = .ok (readerOf (columns c vs)) := by
  have hpos := h.prelude_pos
  have hle := h.preludeLen_le
  obtain ⟨f, hf, hgets⟩ := @fetch_at 0 idx.file
    [⟨preludeAbs idx r.entry r.frqBase, r.entry.preludeLen⟩] [prelude] h.size
    (.cons ⟨h.frqAt.left, h.preludeLen⟩ .nil)
  rw [fetchWindowedPrelude, h.preludeLen, if_neg (by omega), if_neg (by omega), ← h.preludeLen,
    hf, ok_bind, hgets.cons.1, ok_bind, h.opens]

/-- The blocks of the posting with their ranges, in the order of the handles. -/
def blockCells (idx : LogicalIndexReader) (r : Resolved) (c : EntryConfig) (vs : List Window)
    (preludeLen : Nat) (wantPositions wantFreq : Bool) : List (Range × Bytes) :=
  [(⟨preludeAbs idx r.entry r.frqBase + preludeLen, (ddBytes 0 vs).length⟩, ddBytes 0 vs)] ++
    (if wantFreq then [(⟨preludeAbs idx r.entry r.frqBase + preludeLen + (ddBytes 0 vs).length,
      (freqBytes c.hasFreq vs).length⟩, freqBytes c.hasFreq vs)] else []) ++
    if wantPositions then [(⟨prxAbs idx r.entry r.prxBase, r.entry.prxLen⟩, prxSpan vs)] else []

/-- **A whole windowed posting** reads back as its windows, with whatever is asked for. -/
theorem readWindowedPosting_ok (h : WindowedAt c idx r vs prelude)
    {positions : List (List (List Nat))} (hfreq : wantFreq = true → c.hasFreq = true)
    (hprx : wantPositions = true → c.hasPrx = true)
    (hpos : List.Forall₂ (fun v ps => wantPositions = true →
      decodePositions z v.prx v.docs.length = .ok ps) vs positions) :
    readWindowedPosting z idx r wantPositions wantFreq =
      .ok (decodedAs wantPositions wantFreq vs positions) := by
  obtain ⟨hblocks, hdd, hfreqs⟩ := h.blocks
  have hrows : List.Forall₂ (RowAt c (ddBytes 0 vs) (freqBytes c.hasFreq vs) (prxSpan vs)) vs
      (rows c 0 0 0 0 vs) := rows_at h.chain [] [] [] rfl rfl rfl rfl rfl rfl
  have hhas : ¬ (wantPositions = true ∧ (readerOf (columns c vs)).hasPrx = false) := by
    rintro ⟨hw, hfalse⟩
    have hc : (readerOf (columns c vs)).hasPrx = true := hprx hw
    rw [hc] at hfalse
    cases hfalse
  have hcells : ∀ cell ∈ blockCells idx r c vs prelude.length wantPositions wantFreq,
      At idx.file cell.1.offset cell.2 ∧ cell.1.len = cell.2.length := by
    intro cell hcell
    rw [blockCells, List.mem_append, List.mem_append, List.mem_singleton] at hcell
    cases hcell with
    | inl hcell =>
        cases hcell with
        | inl heq =>
            subst heq
            exact ⟨hdd, rfl⟩
        | inr hin =>
            cases hw : wantFreq with
            | false =>
                rw [hw] at hin
                cases hin
            | true =>
                rw [hw, if_pos rfl] at hin
                cases List.mem_singleton.mp hin
                exact ⟨hfreqs, rfl⟩
    | inr hin =>
        cases hw : wantPositions with
        | false =>
            rw [hw] at hin
            cases hin
        | true =>
            rw [hw, if_pos rfl] at hin
            cases List.mem_singleton.mp hin
            exact ⟨h.prxAt (hprx hw), h.prxLen (hprx hw)⟩
  obtain ⟨f, hf, hgets⟩ := @fetch_at 0 idx.file
    ((blockCells idx r c vs prelude.length wantPositions wantFreq).map Prod.fst)
    ((blockCells idx r c vs prelude.length wantPositions wantFreq).map Prod.snd) h.size (by
      rw [List.forall₂_map_left_iff, List.forall₂_map_right_iff, List.forall₂_same]
      exact hcells)
  have hrequests : blockRequests idx r
      { ddBlockOff := preludeAbs idx r.entry r.frqBase + prelude.length
        ddBlockLen := (ddBytes 0 vs).length
        freqBlockOff := preludeAbs idx r.entry r.frqBase + prelude.length + (ddBytes 0 vs).length
        freqBlockLen := (freqBytes c.hasFreq vs).length } wantPositions wantFreq =
      (blockCells idx r c vs prelude.length wantPositions wantFreq).map Prod.fst := by
    cases wantPositions <;> cases wantFreq <;> rfl
  have hddGet : f.get 0 = .ok (ddBytes 0 vs) := by
    exact hgets 0 _ rfl
  have hfreqGet : (if wantFreq then f.get 1 else .ok []) =
      .ok (if wantFreq then freqBytes c.hasFreq vs else []) := by
    cases hw : wantFreq with
    | false => rfl
    | true => exact hgets 1 _ (by rw [hw]; rfl)
  have hprxGet : (if wantPositions then f.get (if wantFreq then 2 else 1) else .ok []) =
      .ok (if wantPositions then prxSpan vs else []) := by
    cases hw : wantPositions with
    | false => rfl
    | true =>
        rw [hw] at hgets
        cases hf : wantFreq with
        | false => exact hgets 1 _ (by rw [hf]; rfl)
        | true => exact hgets 2 _ (by rw [hf]; rfl)
  rw [readWindowedPosting, fetchWindowedPrelude_ok h, ok_bind, if_neg hhas, hblocks, ok_bind,
    hrequests, hf, ok_bind, hddGet, ok_bind, hfreqGet, ok_bind, hprxGet, ok_bind]
  have hwindows := decodeWindows_rows hrows h.windows hfreq
    (hpos.imp fun _ _ hps hw => ⟨hprx hw, hps hw⟩) {}
  rw [show (readerOf (columns c vs)).windows = rows c 0 0 0 0 vs from rfl, hwindows,
    DecodedPosting.empty_append]

end Snii.Reader
