import Snii.Writer.IndexInvariant

/-!
# The posting region is tiled

Taken in term order and resolved against their blocks' bases, the spans of the
pod_ref entries are the posting region from its start to its end.
-/

namespace Snii.Writer.LogicalIndexWriter

open Snii.Lib.ByteReader Snii.Common Snii.Writer.SpillRunCodec
open Snii.Encoding.Compression Snii.Format.Dict Snii.Format.DictBlock Snii.Format.Bsbf

/-- The entries' spans, one behind the other from `off` on, are the bytes. -/
def TilesRegion (c : EntryConfig) : Nat → List Resolved → Bytes → Prop
  | _, [], bytes => bytes = []
  | off, r :: rs, bytes => ∃ span more, bytes = span ++ more ∧
      EntrySpan c r.frqBase r.prxBase r.entry off span ∧ TilesRegion c (off + span.length) rs more

theorem TilesRegion.snoc {c : EntryConfig} {off : Nat} {rs : List Resolved} {bytes span : Bytes}
    {r : Resolved} (h : TilesRegion c off rs bytes)
    (hspan : EntrySpan c r.frqBase r.prxBase r.entry (off + bytes.length) span) :
    TilesRegion c off (rs ++ [r]) (bytes ++ span) := by
  induction rs generalizing off bytes with
  | nil =>
      have hnil : bytes = [] := h
      subst hnil
      exact ⟨span, [], by simp, by simpa using hspan, rfl⟩
  | cons r' rs ih =>
      obtain ⟨first, more, rfl, hfirst, hmore⟩ := h
      refine ⟨first, more ++ span, by simp, hfirst, ih hmore ?_⟩
      rwa [List.length_append, ← Nat.add_assoc] at hspan

theorem Wrote.tiles {env : BuildEnv} {i : SniiIndexInput} {tps : List Emitted}
    {rs : List Resolved} {region : Bytes} (h : Wrote env i tps rs region) :
    TilesRegion i.entryConfig 0 rs region := by
  induction h with
  | nil => rfl
  | snoc _ _ bases base_le built ih =>
      obtain ⟨_, span, rfl, hspan⟩ := buildEntry_spans base_le (bases ▸ base_le) built
      exact ih.snoc (by simpa using hspan)

/-- Tiles of equal bases put the frequencies right behind the positions. -/
theorem TilesRegion.frqOffDelta {c : EntryConfig} {off : Nat} {rs : List Resolved} {bytes : Bytes}
    (h : TilesRegion c off rs bytes) (hprx : c.hasPrx = true) {r : Resolved} (hr : r ∈ rs)
    (hbases : r.prxBase = r.frqBase) (hkind : r.entry.kind = .podRef) :
    r.entry.frqOffDelta = r.entry.prxOffDelta + r.entry.prxLen := by
  induction rs generalizing off bytes with
  | nil => cases hr
  | cons r' rs ih =>
      obtain ⟨span, more, _, hspan, hmore⟩ := h
      rcases List.mem_cons.mp hr with rfl | hr
      · rw [EntrySpan, hkind] at hspan
        obtain ⟨prx, frq, _, hof⟩ := hspan
        have hfrq := hof.frqOff
        have hoff := hof.prxOff hprx
        have hlen := hof.prxLen hprx
        omega
      · exact ih hmore hr

/-- **Tiling.**  Whatever a build accepts, the blocks it cut hold the terms in order,
and the spans of their pod_ref entries, each resolved against its block's bases, are
the posting region: no gap, no overlap, nothing for an inline entry. -/
theorem build_tiles {env : BuildEnv} {i : SniiIndexInput} {w : BuiltIndex} {region : Bytes}
    (h : build env i [] = .ok w region) :
    ∃ blocks : List DictBlockBuilder,
      w.dictBuf.streamInto = dictBytes env blocks ∧ w.blocks = recordsFrom env 0 blocks ∧
      (blocks.flatMap resolve).map (fun r => r.entry.term) =
        i.source.list.map (fun tp => tp.postings.term) ∧
      TilesRegion i.entryConfig 0 (blocks.flatMap resolve) region ∧
      ∀ b ∈ blocks, b.prxBase = b.frqBase ∧ ∀ e ∈ b.entries, i.hasPrx = true → e.kind = .podRef →
        e.frqOffDelta = e.prxOffDelta + e.prxLen := by
  obtain ⟨rfl, blocks, hbuilt⟩ := build_builtFrom h
  have htiles := hbuilt.wrote.tiles
  refine ⟨blocks, hbuilt.dict.streamInto, hbuilt.records, hbuilt.wrote.terms, htiles, ?_⟩
  intro b hb
  have hbases := (hbuilt.shape b hb).2.1
  refine ⟨hbases, fun e he hprx hkind => ?_⟩
  have hmem : (⟨e, b.frqBase, b.prxBase⟩ : Resolved) ∈ blocks.flatMap resolve :=
    List.mem_flatMap.mpr ⟨b, hb, List.mem_map.mpr ⟨e, he, rfl⟩⟩
  exact htiles.frqOffDelta hprx hmem hbases hkind

/-- A positional index of three terms: one inline, one slim, one windowed. -/
def tiledInput : SniiIndexInput :=
  { docCount := 2 ^ 31
    source := .terms
      [{ postings := { term := [97], docids := [1, 5, 2 ^ 26], freqs := [1, 2, 2]
                       positionsFlat := [3, 0, 7, 0, 1] } },
       { postings := { term := [98], docids := (List.range 100).map (· * 2 ^ 25)
                       freqs := List.replicate 100 1, positionsFlat := List.range 100 } },
       { postings := { term := [99], docids := (List.range 520).map (· * 2)
                       freqs := List.replicate 520 1, positionsFlat := List.replicate 520 2 } }] }

def storeEnv : BuildEnv :=
  { zstd := Zstd.store, bsbf := { xxh64 := fun _ => 0, formulaBits := fun _ => 0 }
    overCap := fun _ => false }

theorem build_tiles_tiledInput : ∃ w region, build storeEnv tiledInput [] = .ok w region ∧
    ∃ blocks : List DictBlockBuilder,
      w.dictBuf.streamInto = dictBytes storeEnv blocks ∧
      (blocks.flatMap resolve).map (fun r => r.entry.term) = [[97], [98], [99]] ∧
      TilesRegion tiledInput.entryConfig 0 (blocks.flatMap resolve) region ∧
      ∀ b ∈ blocks, ∀ e ∈ b.entries, e.kind = .podRef →
        e.frqOffDelta = e.prxOffDelta + e.prxLen := by
  have hrun : succeeds (build storeEnv tiledInput []) = true := by decide +kernel
  obtain ⟨w, region, h⟩ := exists_of_succeeds hrun
  obtain ⟨blocks, hdict, _, hterms, htiles, hdelta⟩ := build_tiles h
  exact ⟨w, region, h, blocks, hdict, hterms, htiles, fun b hb e he => (hdelta b hb).2 e he rfl⟩

end Snii.Writer.LogicalIndexWriter
