import Snii.Writer.IndexInvariant
import Snii.Writer.PreludeColumns

/-!
# The widths of entries and blocks

A block that is not too long holds short terms and short inline positions, because
both are written out in it.  With the widths of the postings' types and of the posting
region this gives every field of an entry its width, so the blocks of a built index
read back (`BuiltFrom.blockOk`).
-/

namespace Snii.Format.DictBlock

open Snii.Lib.ByteReader Snii.Lib.Chunks Snii.Encoding.ByteSource Snii.Format.Dict

theorem length_term_le (e : DictEntry) (prev : Bytes) (tier : IndexTier) :
    e.term.length ≤ prev.length + (encodeDictEntry e prev tier).length := by
  have hpre := (take_commonPrefixLen e.term prev).2.2
  rw [encodeDictEntry, putBlob, writeBody, writeTermKey]
  simp only [List.length_append, List.length_drop]
  omega

theorem length_prxBytes_le (e : DictEntry) (prev : Bytes) (tier : IndexTier)
    (hkind : e.kind = .inline) (htier : tierHasStats tier = true) :
    e.prxBytes.length ≤ (encodeDictEntry e prev tier).length := by
  rw [encodeDictEntry, putBlob, writeBody, if_pos hkind, writeInline, if_pos htier, putBlob, putBlob]
  simp only [List.length_append]
  omega

/-- What is written out of an entry is inside its segment. -/
theorem le_segmentBytes (tier : IndexTier) {prev : Bytes} {es : List DictEntry} {e : DictEntry}
    (he : e ∈ es) :
    e.term.length ≤ prev.length + (segmentBytes tier prev es).length ∧
      (e.kind = .inline → tierHasStats tier = true →
        e.prxBytes.length ≤ (segmentBytes tier prev es).length) := by
  induction es generalizing prev with
  | nil => cases he
  | cons x es ih =>
      have hx := length_term_le x prev tier
      rw [segmentBytes, List.length_append]
      rcases List.mem_cons.mp he with rfl | he
      · refine ⟨by omega, fun hkind htier => ?_⟩
        have := length_prxBytes_le e prev tier hkind htier
        omega
      · obtain ⟨hterm, hprx⟩ := @ih x.term he
        refine ⟨by omega, fun hkind htier => ?_⟩
        have := hprx hkind htier
        omega

namespace DictBlockBuilder

theorem le_finish {b : DictBlockBuilder} (hsize : b.finish.length < 2 ^ 32) {e : DictEntry}
    (he : e ∈ b.entries) :
    e.term.length ≤ b.finish.length ∧
      (e.kind = .inline → tierHasStats b.tier = true → e.prxBytes.length ≤ b.finish.length) := by
  rw [← flatten_segments] at he
  obtain ⟨seg, hseg, he⟩ := List.mem_flatten.mp he
  have hin : (segmentBytes b.tier [] seg).length ≤ b.segmentsBytes.flatten.length := by
    exact (List.sublist_flatten_of_mem (List.mem_map.mpr ⟨seg, hseg, rfl⟩)).length_le
  have hall : b.segmentsBytes.flatten.length ≤ b.finish.length := by
    rw [finish_eq hsize, List.length_append, length_covered]
    omega
  obtain ⟨hterm, hprx⟩ := @le_segmentBytes b.tier [] seg e he
  refine ⟨hterm.trans (by rw [List.length_nil]; omega), fun hkind htier => ?_⟩
  have := hprx hkind htier
  omega

end DictBlockBuilder

end Snii.Format.DictBlock

namespace Snii.Writer.LogicalIndexWriter

open Snii.Lib.ByteReader Snii.Common Snii.Writer.SpillRunCodec
open Snii.Encoding.Compression Snii.Encoding.Crc32c Snii.Format.Dict Snii.Format.DictBlock
open Snii.Format.FrqPod (length_ddPlain_le length_encodePforRuns_le)

/-! ## Entries -/

variable {z : Zstd} {c : EntryConfig} {tp : Emitted} {frqBase prxBase : Nat} {e : DictEntry}
  {region region' : Bytes}

/-- The lengths of a slim term's two regions. -/
theorem length_slim_le (hlen : tp.postings.freqs.length = tp.postings.docids.length)
    (hwidths : TermWidths tp.postings) :
    (slimDd tp.postings).length < 2 ^ 40 ∧ (slimFreq c tp.postings).length < 2 ^ 40 := by
  have hcount := hwidths.count
  have h1 := @length_ddPlain_le 0 _ hwidths.docids
  have h2 := length_encodePforRuns_le hwidths.freqs
  refine ⟨by rw [slimDd]; omega, ?_⟩
  rw [slimFreq]
  split
  · omega
  · decide

/-- **Every field of a written entry** has the width of the format, if what the entry
itself carries is short enough. -/
theorem entryOk_of_built (hbuilt : buildEntry z c tp frqBase prxBase region = .ok e region')
    (hlen : tp.postings.freqs.length = tp.postings.docids.length)
    (hwidths : TermWidths tp.postings) (hsize : region'.length < 2 ^ 64)
    (hterm : e.term.length < 2 ^ 32) {tier : IndexTier} (htier : c.hasPrx = tierHasStats tier)
    (hprx : e.kind = .inline → tierHasStats tier = true → e.prxBytes.length < 2 ^ 64) :
    EntryOk tier e := by
  have hmax : maxOf tp.postings.freqs < 2 ^ 64 :=
    Nat.lt_trans (maxOf_lt (by decide) hwidths.freqs) (by decide)
  have h64 : 0 < 2 ^ 64 := Nat.two_pow_pos 64
  have h32 : 0 < 2 ^ 32 := Nat.two_pow_pos 32
  have hdf : tp.postings.docids.length % 2 ^ 32 < 2 ^ 32 := Nat.mod_lt _ (by decide)
  have httf : tp.postings.freqs.sum % 2 ^ 64 < 2 ^ 64 := Nat.mod_lt _ (by decide)
  obtain ⟨hdd, hfreq⟩ := @length_slim_le c tp hlen hwidths
  have hfreqMeta : ((if c.hasFreq then rawMeta (slimFreq c tp.postings) else {}).uncompLen < 2 ^ 64 ∧
      (if c.hasFreq then rawMeta (slimFreq c tp.postings) else {}).crc < 2 ^ 32) ∧
      (if c.hasFreq then rawMeta (slimFreq c tp.postings) else {}).zstd = false := by
    cases c.hasFreq with
    | false => exact ⟨⟨h64, h32⟩, rfl⟩
    | true => exact ⟨⟨Nat.lt_trans hfreq (by decide), crc32c_lt _⟩, rfl⟩
  have hddMeta : (rawMeta (slimDd tp.postings)).uncompLen < 2 ^ 64 ∧
      (rawMeta (slimDd tp.postings)).crc < 2 ^ 32 := ⟨Nat.lt_trans hdd (by decide), crc32c_lt _⟩
  unfold buildEntry at hbuilt
  by_cases hwindowed : (entryStats tp.postings).df ≥ kSlimDfThreshold
  · rw [if_pos hwindowed] at hbuilt
    obtain ⟨vs, prelude, hwin, hregion, rfl⟩ := buildWindowedEntry_eq_ok hbuilt
    have htotal : region.length + (prxSpan vs).length + (frqSpan c prelude vs).length < 2 ^ 64 := by
      rw [hregion] at hsize
      simpa [Nat.add_assoc] using hsize
    have hprelude : prelude.length ≤ (frqSpan c prelude vs).length := by
      rw [frqSpan, List.length_append]
      omega
    refine ⟨hterm, hdf, ⟨httf, hmax⟩, ⟨?_, ?_, ?_⟩, fun _ h => (by cases h), ⟨?_, ?_⟩,
      ⟨h64, h32⟩, ⟨h64, h32⟩, fun _ => rfl, fun h => (by cases h), h64, h64⟩
    · show region.length + (prxSpan vs).length - frqBase < 2 ^ 64
      omega
    · show (frqSpan c prelude vs).length < 2 ^ 64
      omega
    · show prelude.length < 2 ^ 64
      omega
    · show (if c.hasPrx then region.length - prxBase else 0) < 2 ^ 64
      split <;> omega
    · show (if c.hasPrx then (prxSpan vs).length else 0) < 2 ^ 64
      split <;> omega
  · rw [if_neg hwindowed] at hbuilt
    obtain ⟨_, prx, hpositions, hcases⟩ := buildSlimEntry_eq_ok hbuilt
    by_cases hinline : (slimFrq c tp.postings).length ≤ kDefaultInlineThreshold
    · rw [if_pos hinline] at hcases
      obtain ⟨_, rfl⟩ := hcases
      refine ⟨hterm, hdf, ⟨httf, hmax⟩, ⟨h64, h64, h64⟩, fun h => (by cases h),
        ⟨h64, h64⟩, hddMeta, hfreqMeta.1, fun _ => hfreqMeta.2, fun _ => ?_,
        Nat.lt_of_le_of_lt hinline (by decide), ?_⟩
      · show (slimDd tp.postings).length ≤ (slimFrq c tp.postings).length
        rw [slimFrq, List.length_append]
        omega
      · by_cases hstats : tierHasStats tier = true
        · exact hprx rfl hstats
        · show (if c.hasPrx then prx else []).length < 2 ^ 64
          rw [if_neg (htier ▸ hstats)]
          decide
    · rw [if_neg hinline] at hcases
      obtain ⟨hregion, rfl⟩ := hcases
      have htotal : region.length + prx.length + (slimFrq c tp.postings).length < 2 ^ 64 := by
        rw [hregion] at hsize
        simpa [Nat.add_assoc] using hsize
      refine ⟨hterm, hdf, ⟨httf, hmax⟩, ⟨?_, ?_, h64⟩, fun _ _ => ?_, ⟨?_, ?_⟩, hddMeta,
        hfreqMeta.1, fun _ => hfreqMeta.2, fun h => (by cases h), h64, h64⟩
      · show region.length + prx.length - frqBase < 2 ^ 64
        omega
      · show (slimFrq c tp.postings).length < 2 ^ 64
        omega
      · show (slimDd tp.postings).length ≤ (slimFrq c tp.postings).length
        rw [slimFrq, List.length_append]
        omega
      · show (if c.hasPrx then region.length - prxBase else 0) < 2 ^ 64
        split <;> omega
      · show (if c.hasPrx then prx.length else 0) < 2 ^ 64
        split <;> omega

/-! ## A term's share in what was written -/

/-- A term whose entry was built inside the region. -/
structure WroteAt (env : BuildEnv) (i : SniiIndexInput) (region : Bytes) (tp : Emitted)
    (r : Resolved) : Prop where
  term : r.entry.term = tp.postings.term
  valid : validateTerm i.hasPrx tp.postings = .ok ()
  bases : r.prxBase = r.frqBase
  built : ∃ before after more, region = after ++ more ∧ r.frqBase ≤ before.length ∧
    buildEntry env.zstd i.entryConfig tp r.frqBase r.prxBase before = .ok r.entry after

theorem WroteAt.append {env : BuildEnv} {i : SniiIndexInput} {r : Resolved}
    (h : WroteAt env i region tp r) (span : Bytes) : WroteAt env i (region ++ span) tp r := by
  obtain ⟨before, after, more, rfl, hbase, hbuilt⟩ := h.built
  exact ⟨h.term, h.valid, h.bases, before, after, more ++ span, by simp, hbase, hbuilt⟩

theorem WroteAt.lengths {env : BuildEnv} {i : SniiIndexInput} {r : Resolved}
    (h : WroteAt env i region tp r) :
    tp.postings.freqs.length = tp.postings.docids.length := by
  have hvalid := h.valid
  unfold validateTerm at hvalid
  by_contra hne
  rw [if_pos hne] at hvalid
  cases hvalid

/-- A windowed entry is one of a term that is not slim. -/
theorem WroteAt.wide {env : BuildEnv} {i : SniiIndexInput} {r : Resolved}
    (h : WroteAt env i region tp r) (henc : r.entry.enc = .windowed) :
    kSlimDfThreshold ≤ tp.postings.docids.length := by
  obtain ⟨before, after, more, -, -, hbuilt⟩ := h.built
  unfold buildEntry at hbuilt
  by_cases hdf : (entryStats tp.postings).df ≥ kSlimDfThreshold
  · exact Nat.le_trans hdf (Nat.mod_le _ _)
  · rw [if_neg hdf] at hbuilt
    obtain ⟨-, prx, -, hcases⟩ := buildSlimEntry_eq_ok hbuilt
    have hslim : r.entry.enc = .slim := by
      split at hcases
      · rw [hcases.2]
        rfl
      · rw [hcases.2]
        rfl
    rw [hslim] at henc
    cases henc

/-- An entry states the numbers of its term. -/
theorem WroteAt.stats {env : BuildEnv} {i : SniiIndexInput} {r : Resolved}
    (h : WroteAt env i region tp r) : r.entry.df = tp.postings.docids.length % 2 ^ 32 ∧
      r.entry.ttfDelta = tp.postings.freqs.sum % 2 ^ 64 := by
  obtain ⟨before, after, more, -, -, hbuilt⟩ := h.built
  unfold buildEntry at hbuilt
  by_cases hdf : (entryStats tp.postings).df ≥ kSlimDfThreshold
  · rw [if_pos hdf] at hbuilt
    obtain ⟨vs, prelude, -, -, hentry⟩ := buildWindowedEntry_eq_ok hbuilt
    rw [hentry]
    exact ⟨rfl, rfl⟩
  · rw [if_neg hdf] at hbuilt
    obtain ⟨-, prx, -, hcases⟩ := buildSlimEntry_eq_ok hbuilt
    split at hcases
    · rw [hcases.2]
      exact ⟨rfl, rfl⟩
    · rw [hcases.2]
      exact ⟨rfl, rfl⟩

theorem Wrote.each {env : BuildEnv} {i : SniiIndexInput} {tps : List Emitted} {rs : List Resolved}
    (h : Wrote env i tps rs region) : List.Forall₂ (WroteAt env i region) tps rs := by
  induction h with
  | nil => exact .nil
  | @snoc tps rs before after tp r _ valid bases base_le built ih =>
      obtain ⟨hterm, span, rfl, _⟩ := buildEntry_spans base_le (bases ▸ base_le) built
      refine List.rel_append (ih.imp fun tp r hr => hr.append span) ?_
      exact .cons ⟨hterm, valid, bases, before, _, [], by simp, base_le, built⟩ .nil

/-! ## Blocks -/

/-- The tier of an index stores frequencies and positions, or neither. -/
theorem SniiIndexInput.tier_spec (i : SniiIndexInput) :
    i.entryConfig.hasFreq = tierHasStats i.tier ∧ i.entryConfig.hasPrx = tierHasStats i.tier := by
  show i.hasFreq = _ ∧ i.hasPrx = _
  unfold SniiIndexInput.hasFreq SniiIndexInput.hasPrx SniiIndexInput.tier
  cases i.config <;> exact ⟨rfl, rfl⟩

theorem BlockShape.spec {i : SniiIndexInput} {b : DictBlockBuilder} (h : BlockShape i b) :
    b.tier = i.tier ∧ b.hasPositions = i.hasPrx := by
  obtain ⟨_, htier, hpos, _⟩ := DictBlockBuilder.addEntries_spec
    (newBuilder i.tier i.hasPrx b.frqBase b.prxBase) b.entries
  rw [← h.2.2] at htier hpos
  exact ⟨htier, hpos⟩

variable {env : BuildEnv} {w : BuiltIndex} {blocks : List DictBlockBuilder}

theorem BuiltFrom.wroteAt (h : BuiltFrom env w blocks region) {b : DictBlockBuilder}
    (hb : b ∈ blocks) {e : DictEntry} (he : e ∈ b.entries) :
    ∃ tp ∈ w.input.source.list, WroteAt env w.input region tp ⟨e, b.frqBase, b.prxBase⟩ := by
  have hmem : (⟨e, b.frqBase, b.prxBase⟩ : Resolved) ∈ blocks.flatMap resolve :=
    List.mem_flatMap.mpr ⟨b, hb, List.mem_map.mpr ⟨e, he, rfl⟩⟩
  obtain ⟨j, hj, hget⟩ := List.mem_iff_getElem.mp hmem
  have heach := h.wrote.each
  have hj' : j < w.input.source.list.length := by rwa [heach.length_eq]
  exact ⟨_, List.getElem_mem hj', hget ▸ heach.get hj' hj⟩

/-- **The blocks of an index** that are not too long read back. -/
theorem BuiltFrom.blockOk (h : BuiltFrom env w blocks region)
    (hwidths : ∀ tp ∈ w.input.source.list, TermWidths tp.postings)
    (hregion : region.length < 2 ^ 64) {b : DictBlockBuilder} (hb : b ∈ blocks)
    (hsize : b.finish.length < 2 ^ 32) : b.BlockOk := by
  have hshape := h.shape b hb
  have htier := hshape.spec.1
  obtain ⟨e, he⟩ := List.exists_mem_of_ne_nil _ hshape.1
  have hbase : b.frqBase < 2 ^ 64 := by
    obtain ⟨tp, _, hat⟩ := h.wroteAt hb he
    obtain ⟨before, after, more, hsplit, hle, hbuilt⟩ := hat.built
    obtain ⟨_, span, hafter, _⟩ := buildEntry_spans hle (hat.bases ▸ hle) hbuilt
    have hle' : b.frqBase ≤ before.length := hle
    rw [hsplit, hafter] at hregion
    simp only [List.length_append] at hregion
    omega
  refine ⟨?_, hbase, by rwa [hshape.2.1], hsize⟩
  intro x hx
  obtain ⟨tp, htp, hat⟩ := h.wroteAt hb hx
  obtain ⟨before, after, more, hsplit, _, hbuilt⟩ := hat.built
  obtain ⟨hterm, hprx⟩ := DictBlockBuilder.le_finish hsize hx
  rw [hsplit, List.length_append] at hregion
  refine entryOk_of_built hbuilt hat.lengths (hwidths tp htp) (by omega)
    (Nat.lt_of_le_of_lt hterm hsize) ?_ ?_
  · rw [htier]
    exact w.input.tier_spec.2
  · intro hkind hstats
    exact Nat.lt_of_le_of_lt (hprx hkind hstats) (Nat.lt_trans hsize (by decide))

end Snii.Writer.LogicalIndexWriter
