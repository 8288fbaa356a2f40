import Snii.Reader.FilterProbes
import Snii.Reader.PostingRoundTrip
import Snii.Writer.BlockWidths

/-!
# The dictionary of an opened index

`Serves` says that an opened index stands over the bytes a build left in the file.
Such an index finds exactly the written terms (`Serves.lookup`) and enumerates exactly
those with a prefix (`Serves.prefixTerms`).
-/

namespace Snii.Format.DictBlock

open Snii.Lib.ByteReader Snii.Format.Dict

/-! ## Tiers that store the same -/

variable {t t' : IndexTier}

theorem encodeDictEntry_congr (h : tierHasStats t = tierHasStats t') (e : DictEntry)
    (prev : Bytes) : encodeDictEntry e prev t = encodeDictEntry e prev t' := by
  simp only [encodeDictEntry, writeBody, writeStats, writeInline, writePodRef, writeRegionMeta, h]

theorem stored_congr (h : tierHasStats t = tierHasStats t') (e : DictEntry) :
    e.stored t = e.stored t' := by
  simp only [DictEntry.stored, h]

namespace DictBlockBuilder

variable {b : DictBlockBuilder}

theorem encodeEntries_congr (h : tierHasStats t = tierHasStats b.tier) (i size : Nat) (prev : Bytes)
    (es : List DictEntry) :
    DictBlockBuilder.encodeEntries { b with tier := t } i prev size es =
      b.encodeEntries i prev size es := by
  induction es generalizing i size prev with
  | nil => rfl
  | cons e es ih =>
      simp only [encodeEntries, encodeDictEntry_congr h, ih, isAnchor]
      rfl

theorem finish_congr (h : tierHasStats t = tierHasStats b.tier) :
    DictBlockBuilder.finish { b with tier := t } = b.finish := by
  have hentries : DictBlockBuilder.encodeEntries { b with tier := t } 0 []
      (DictBlockBuilder.header { b with tier := t }).length b.entries =
        b.encodeEntries 0 [] b.header.length b.entries := encodeEntries_congr h _ _ _ _
  rw [finish, finish, hentries]
  rfl

theorem BlockOk.withTier (h : BlockOk b) (ht : tierHasStats t = tierHasStats b.tier) :
    BlockOk { b with tier := t } := by
  refine ⟨fun e he => ?_, h.frqBase, h.prxBase, (finish_congr ht).symm ▸ h.size⟩
  have hok := h.entries e he
  exact ⟨hok.term, hok.df, hok.stats, hok.frq, hok.docs, hok.prx, hok.ddMeta, hok.freqMeta,
    fun hn => hok.freqMode (ht ▸ hn), hok.inlineDd, hok.inlineFrq, hok.inlinePrx⟩

/-- A block as a reader of a tier that stores the same opens it. -/
def readerAt (b : DictBlockBuilder) (t : IndexTier) : DictBlockReader :=
  DictBlockBuilder.readerOf { b with tier := t }

theorem openBlock_readerAt (h : BlockOk b) (ht : tierHasStats t = tierHasStats b.tier) :
    openBlock b.finish t b.hasPositions = .ok (b.readerAt t) := by
  rw [← finish_congr ht]
  exact openBlock_finish (h.withTier ht)

theorem decodeAll_readerAt (h : BlockOk b) (ht : tierHasStats t = tierHasStats b.tier) :
    (b.readerAt t).decodeAll = .ok (b.entries.map (DictEntry.stored t)) :=
  decodeAll_readerOf (h.withTier ht)

theorem findTerm_readerAt (h : BlockOk b) (ht : tierHasStats t = tierHasStats b.tier)
    (hsorted : b.entries.Pairwise (·.term < ·.term)) (target : Bytes) :
    (b.readerAt t).findTerm target =
      .ok ((b.entries.find? fun e => decide (e.term = target)).map (DictEntry.stored t)) :=
  findTerm_readerOf (h.withTier ht) hsorted target

end DictBlockBuilder

end Snii.Format.DictBlock

namespace Snii.Reader

open Snii.Lib.ByteReader Snii.Lib.SortedSearch Snii.Common Snii.Io.FileReader
open Snii.Encoding.Compression Snii.Encoding.Crc32c
open Snii.Format.Dict Snii.Format.DictBlock Snii.Format.DictIndex Snii.Format.Bsbf
open Snii.Writer.LogicalIndexWriter

/-- The filter section an opened index keeps, over the filter the build serialized. -/
inductive FilterAt (renv : ReadEnv) (file : Bytes) (terms : List Bytes) :
    Option BsbfSection → Prop
  | none (empty : terms = []) : FilterAt renv file terms none
  | kept (b : BsbfBuilder) (off : Nat) (resident : Option Bytes) (ok : BuilderOk b)
      (held : ∀ t ∈ terms, b.HoldsHash (bsbfHash renv.bsbf t))
      (resident_eq : ∀ bits, resident = some bits → bits = b.bitset)
      (here : At file (off + kBsbfHeaderSize) b.bitset) :
      FilterAt renv file terms (some ⟨b.headerAt off, resident⟩)

/-- The terms a build saw. -/
def termsOf (i : Writer.LogicalIndexWriter.SniiIndexInput) : List Bytes :=
  i.source.list.map fun tp => tp.postings.term

/-- The callers' contract: the terms come in strictly ascending order. -/
def SortedTerms (i : SniiIndexInput) : Prop := (termsOf i).Pairwise (· < ·)

/-- An opened index that stands over the bytes of a build. -/
structure Serves (env : BuildEnv) (renv : ReadEnv) (idx : LogicalIndexReader) (w : BuiltIndex)
    (blocks : List DictBlockBuilder) (region : Bytes) (dictOff : Nat) : Prop where
  built : BuiltFrom env w blocks region
  widths : ∀ tp ∈ w.input.source.list, TermWidths tp.postings
  zstd : renv.zstd = env.zstd
  lossless : env.zstd.Lossless
  tier : tierHasStats idx.tier = tierHasStats w.input.tier
  positions : idx.hasPositions = w.input.hasPrx
  holds : HoldsRegion idx region
  samples : idx.sampleTerms = blocks.map firstTermOf
  refs : idx.blockRefs = w.blocks.map (blockRef dictOff)
  dict : At idx.file dictOff (dictBytes env blocks)
  caps : ∀ b ∈ blocks, b.finish.length ≤ kMaxDictBlockUncompBytes
  filter : FilterAt renv idx.file (termsOf w.input) idx.bsbf

/-- A written entry as the reader returns it: what the tier stores, and the bases that
the block stores; a block without positions stores no base for them. -/
def seen (i : SniiIndexInput) (r : Resolved) : Resolved :=
  ⟨r.entry.stored i.tier, r.frqBase, if i.hasPrx then r.prxBase else 0⟩

/-- The bases that a block's reader gives to the block's entries. -/
theorem readerAt_seen {i : SniiIndexInput} {t : IndexTier} {b : DictBlockBuilder}
    (htier : tierHasStats t = tierHasStats i.tier) (hpos : b.hasPositions = i.hasPrx)
    (e : DictEntry) :
    (⟨e.stored t, (b.readerAt t).frqBase, (b.readerAt t).prxBase⟩ : Resolved) =
      seen i ⟨e, b.frqBase, b.prxBase⟩ := by
  rw [seen, stored_congr htier, ← hpos]
  rfl

variable {env : BuildEnv} {renv : ReadEnv} {idx : LogicalIndexReader} {w : BuiltIndex}
  {blocks : List DictBlockBuilder} {region : Bytes} {dictOff : Nat}

/-! ## The filter -/

/-- **The filter** answers, and never denies a written term. -/
theorem FilterAt.probe {terms : List Bytes} (h : FilterAt renv idx.file terms idx.bsbf)
    (term : Bytes) :
    ∃ maybe, probeBsbf renv idx term = .ok maybe ∧ (term ∈ terms → maybe = true) := by
  generalize hs : idx.bsbf = s at h
  cases h with
  | none hempty =>
      rw [probeBsbf, hs]
      exact ⟨true, rfl, fun _ => rfl⟩
  | kept b off resident hok hheld hres hhere =>
      exact ⟨_, probeBsbf_kept hok hhere hres hs rfl, fun hmem =>
        maybeContains_of_holds (hheld term hmem)⟩

/-! ## Blocks -/

theorem dictBytes_split (bs : List DictBlockBuilder) (k : Nat) :
    dictBytes env bs = dictBytes env (bs.take k) ++ dictBytes env (bs.drop k) := by
  rw [dictBytes, dictBytes, dictBytes, ← List.flatMap_append, List.take_append_drop]

theorem recordsFrom_getElem? (off k : Nat) (bs : List DictBlockBuilder) :
    (recordsFrom env off bs)[k]? =
      bs[k]?.map (recordOf env (off + (dictBytes env (bs.take k)).length)) := by
  induction bs generalizing off k with
  | nil => rfl
  | cons b bs ih =>
      cases k with
      | zero => rfl
      | succ k =>
          rw [recordsFrom, List.getElem?_cons_succ, ih, List.getElem?_cons_succ, List.take_succ_cons,
            dictBytes, dictBytes, List.flatMap_cons, List.length_append, Nat.add_assoc]

theorem length_recordsFrom (off : Nat) (bs : List DictBlockBuilder) :
    (recordsFrom env off bs).length = bs.length := by
  induction bs generalizing off with
  | nil => rfl
  | cons b bs ih => rw [recordsFrom, List.length_cons, ih, List.length_cons]

/-- A block stands in the dictionary behind the blocks before it. -/
theorem at_block {file : Bytes} (h : At file dictOff (dictBytes env blocks)) {k : Nat}
    {b : DictBlockBuilder} (hk : blocks[k]? = some b) :
    At file (dictOff + (dictBytes env (blocks.take k)).length) (diskOf env b) := by
  have hdrop : blocks.drop k = b :: blocks.drop (k + 1) := by
    obtain ⟨hlt, rfl⟩ := List.getElem?_eq_some_iff.mp hk
    exact List.drop_eq_getElem_cons hlt
  rw [dictBytes_split blocks k, hdrop, dictBytes, dictBytes, List.flatMap_cons] at h
  exact h.part

/-- What is stored of a block inflates to the block. -/
theorem inflateBlock_packBlock (hz : renv.zstd = env.zstd) (hlossless : env.zstd.Lossless)
    {b : DictBlockBuilder} (hcap : b.finish.length ≤ kMaxDictBlockUncompBytes) (dictOff off : Nat) :
    inflateBlock renv (blockRef dictOff (recordOf env off b)) (diskOf env b) = .ok b.finish := by
  obtain ⟨comp, hcomp, _, hdec⟩ := hlossless.compress_ok kDictBlockZstdLevel b.finish
  have hpack : packBlock env.zstd b.finish = if comp.length < b.finish.length then
      (comp, kZstd, b.finish.length) else (b.finish, 0, 0) := by
    rw [packBlock, hcomp]
  unfold inflateBlock blockRef recordOf diskOf BlockRef.zstd
  by_cases hlt : comp.length < b.finish.length
  · rw [hpack, if_pos hlt]
    simp only
    rw [if_pos (by decide), if_neg (by omega), hz]
    exact hdec
  · rw [hpack, if_neg hlt]
    simp only
    rw [if_neg (by decide)]

section Serving

variable (h : Serves env renv idx w blocks region dictOff)

include h

theorem Serves.blockOk {b : DictBlockBuilder} (hb : b ∈ blocks) : b.BlockOk := by
  have hregion : region.length < 2 ^ 64 := by
    have := h.holds.here.bound
    have := h.holds.size
    omega
  exact h.built.blockOk h.widths hregion hb (Nat.lt_of_le_of_lt (h.caps b hb) (by decide))

theorem Serves.tier_block {b : DictBlockBuilder} (hb : b ∈ blocks) :
    tierHasStats idx.tier = tierHasStats b.tier := by
  rw [h.tier, (h.built.shape b hb).spec.1]

/-- **Loading** a block of the directory opens the block that the build cut. -/
theorem Serves.loadBlock {k : Nat} {b : DictBlockBuilder} (hk : blocks[k]? = some b) :
    ∃ ref, idx.blockRefs[k]? = some ref ∧ loadBlock renv idx ref = .ok (b.readerAt idx.tier) := by
  have hmem := List.mem_of_getElem? hk
  have hat := at_block h.dict hk
  refine ⟨blockRef dictOff (recordOf env (dictBytes env (blocks.take k)).length b), ?_, ?_⟩
  · rw [h.refs, h.built.records, List.getElem?_map, recordsFrom_getElem?, hk, Nat.zero_add]
    rfl
  · have hread : readAt idx.file (blockRef dictOff
        (recordOf env (dictBytes env (blocks.take k)).length b)).offset (blockRef dictOff
        (recordOf env (dictBytes env (blocks.take k)).length b)).length = .ok (diskOf env b) :=
      hat.readAt rfl
    rw [Reader.loadBlock, hread, ok_bind,
      inflateBlock_packBlock h.zstd h.lossless (h.caps b hmem), ok_bind, h.positions,
      ← (h.built.shape b hmem).spec.2]
    exact DictBlockBuilder.openBlock_readerAt (h.blockOk hmem) (h.tier_block hmem)

/-- The blocks decode, one by one, to what the tier stores of the terms' entries. -/
theorem Serves.decodeBlocks : List.Forall₂ (fun ref b => ∃ br,
      Reader.loadBlock renv idx ref = .ok br ∧
      br.decodeAll = .ok (b.entries.map (DictEntry.stored w.input.tier))) idx.blockRefs blocks := by
  have hlen : idx.blockRefs.length = blocks.length := by
    rw [h.refs, h.built.records, List.length_map, length_recordsFrom]
  refine List.forall₂_of_length_eq_of_get hlen fun k hk hk' => ?_
  obtain ⟨ref, href, hload⟩ := h.loadBlock (List.getElem?_eq_getElem hk')
  obtain ⟨_, rfl⟩ := List.getElem?_eq_some_iff.mp href
  have hmem : blocks[k] ∈ blocks := List.getElem_mem hk'
  refine ⟨_, hload, ?_⟩
  rw [DictBlockBuilder.decodeAll_readerAt (h.blockOk hmem) (h.tier_block hmem)]
  congr 1
  exact List.map_congr_left fun e _ => stored_congr h.tier e

/-- An entry of an opened block, with the bases that the reader gives it. -/
theorem Serves.seen_eq {b : DictBlockBuilder} (hb : b ∈ blocks) (e : DictEntry) :
    (⟨e.stored idx.tier, (b.readerAt idx.tier).frqBase, (b.readerAt idx.tier).prxBase⟩ : Resolved) =
      seen w.input ⟨e, b.frqBase, b.prxBase⟩ :=
  readerAt_seen h.tier (h.built.shape b hb).spec.2 e

/-! ## Lookup -/

theorem Serves.segments_ne_nil : ∀ s ∈ blocks.map resolve, s ≠ [] := by
  intro s hs
  obtain ⟨b, hb, rfl⟩ := List.mem_map.mp hs
  rw [resolve, ne_eq, List.map_eq_nil_iff]
  exact (h.built.shape b hb).1

theorem Serves.heads_eq : idx.sampleTerms = heads (·.entry.term) (blocks.map resolve) := by
  rw [h.samples, heads, List.filterMap_map, ← List.filterMap_eq_map]
  apply List.filterMap_congr
  intro b hb
  obtain ⟨e, es, he⟩ := List.exists_cons_of_ne_nil (h.built.shape b hb).1
  simp [firstTermOf, resolve, he]

variable (hs : SortedTerms w.input)

include hs

theorem Serves.sorted : (blocks.flatMap resolve).Pairwise (·.entry.term < ·.entry.term) := by
  have hterms := hs
  rw [SortedTerms, termsOf, ← h.built.wrote.terms, List.pairwise_map] at hterms
  exact hterms

/-- The block that the sampled terms name is the only one that can hold the target. -/
theorem Serves.locate (target : Bytes) :
    (Format.DictIndex.locate idx.sampleTerms target = none ∧ ∀ r ∈ blocks.flatMap resolve,
      target < r.entry.term) ∨
    ∃ k b, Format.DictIndex.locate idx.sampleTerms target = some k ∧ blocks[k]? = some b ∧
      IsLastLe (heads (·.entry.term) (blocks.map resolve)) target k := by
  have hflat : (blocks.map resolve).flatten.Pairwise (·.entry.term < ·.entry.term) := h.sorted hs
  have hne := h.segments_ne_nil
  rw [h.heads_eq, Format.DictIndex.locate]
  cases hhead : (heads (·.entry.term) (blocks.map resolve)).head? with
  | none => exact .inl ⟨rfl, fun r hr => lt_of_lt_heads hne hflat (by simp [hhead]) hr⟩
  | some first =>
      by_cases hlt : target < first
      · refine .inl ⟨if_pos hlt, fun r hr => lt_of_lt_heads hne hflat ?_ hr⟩
        intro x hx
        rw [hhead, Option.some_inj] at hx
        exact hx ▸ hlt
      · have hlast := upperBound_isLastLe (heads_pairwise hflat) hhead (not_lt.mp hlt)
        obtain ⟨x, hx, -⟩ := hlast.le
        rw [heads_getElem? hne, List.getElem?_map, Option.bind_eq_some_iff] at hx
        obtain ⟨s, hs, -⟩ := hx
        obtain ⟨b, hb, -⟩ := Option.map_eq_some_iff.mp hs
        exact .inr ⟨_, b, if_neg hlt, hb, hlast⟩

theorem Serves.sorted_block {b : DictBlockBuilder} (hb : b ∈ blocks) :
    b.entries.Pairwise (·.term < ·.term) := by
  have hflat : (blocks.map resolve).flatten.Pairwise (·.entry.term < ·.entry.term) := h.sorted hs
  have hseg := (List.pairwise_flatten.mp hflat).1 _ (List.mem_map_of_mem hb)
  rw [resolve, List.pairwise_map] at hseg
  exact hseg

/-- **Lookup** finds a term exactly if it was written, and returns its own entry. -/
theorem Serves.lookup (target : Bytes) :
    lookup renv idx target = .ok (((blocks.flatMap resolve).find? fun r =>
      decide (r.entry.term = target)).map (seen w.input)) := by
  have hp : ∀ r : Resolved, decide (r.entry.term = target) = true → r.entry.term = target :=
    fun _ => of_decide_eq_true
  have hflat : (blocks.map resolve).flatten.Pairwise (·.entry.term < ·.entry.term) := h.sorted hs
  have hnone : (∀ r ∈ blocks.flatMap resolve, r.entry.term ≠ target) →
      (blocks.flatMap resolve).find? (fun r => decide (r.entry.term = target)) = none := by
    intro hall
    rw [List.find?_eq_none]
    exact fun r hr hr' => hall r hr (hp r hr')
  obtain ⟨maybe, hprobe, hmaybe⟩ := h.filter.probe target
  rw [Reader.lookup, hprobe, ok_bind]
  cases maybe with
  | false =>
      have habsent : ∀ r ∈ blocks.flatMap resolve, r.entry.term ≠ target := by
        intro r hr heq
        have hmem : target ∈ termsOf w.input := by
          rw [termsOf, ← h.built.wrote.terms]
          exact List.mem_map.mpr ⟨r, hr, heq⟩
        exact absurd (hmaybe hmem) (by decide)
      rw [hnone habsent]
      rfl
  | true =>
      rw [if_pos rfl]
      rcases h.locate hs target with ⟨hloc, habove⟩ | ⟨k, b, hloc, hb, hlast⟩
      · rw [hloc, hnone fun r hr => ne_of_gt (habove r hr)]
        rfl
      · have hmem := List.mem_of_getElem? hb
        obtain ⟨ref, href, hload⟩ := h.loadBlock hb
        have hget : getBlock idx.blockRefs k = .ok ref := by
          rw [getBlock, href]
        have hseg : (blocks.map resolve)[k]? = some (resolve b) := by
          rw [List.getElem?_map, hb]
          rfl
        have hfind := find?_flatten_eq h.segments_ne_nil hflat hp hlast hseg
        rw [hloc]
        simp only
        rw [hget, ok_bind, hload, ok_bind,
          DictBlockBuilder.findTerm_readerAt (h.blockOk hmem) (h.tier_block hmem)
            (h.sorted_block hs hmem), ok_bind,
          List.flatMap_def, hfind, resolve, List.find?_map, Option.map_map, Option.map_map]
        show Except.ok _ = Except.ok _
        congr 2
        funext e
        exact h.seen_eq hmem e

end Serving

/-! ## Prefixes -/

/-- The scan of one block: the entries with the prefix, and whether the next block is
read; it is not where some entry lies behind the range. -/
theorem takePrefix_spec (pre : Bytes) {es : List DictEntry} (hsorted : es.Pairwise (·.term < ·.term)) :
    (takePrefix pre es).1 = es.filter (fun e => pre.isPrefixOf e.term) ∧
      ((takePrefix pre es).2 = false → ∃ e ∈ es, pre ≤ e.term ∧ ¬ pre <+: e.term) := by
  induction es with
  | nil => exact ⟨rfl, fun hstop => (by cases hstop)⟩
  | cons e es ih =>
      rw [List.pairwise_cons] at hsorted
      obtain ⟨hhits, hstop⟩ := ih hsorted.2
      have hlater : (takePrefix pre es).2 = false →
          ∃ x ∈ e :: es, pre ≤ x.term ∧ ¬ pre <+: x.term := by
        intro hs
        obtain ⟨x, hx, hbehind⟩ := hstop hs
        exact ⟨x, List.mem_cons_of_mem _ hx, hbehind⟩
      by_cases hlt : e.term < pre
      · have hno : ¬ pre <+: e.term := fun hp => absurd (le_of_isPrefix hp) (not_le.mpr hlt)
        rw [takePrefix, if_pos hlt, List.filter_cons_of_neg (by simpa using hno)]
        exact ⟨hhits, hlater⟩
      · by_cases hp : pre.isPrefixOf e.term = true
        · rw [takePrefix, if_neg hlt, if_pos hp, List.filter_cons_of_pos (by simpa using hp), ← hhits]
          exact ⟨rfl, hlater⟩
        · have hle : pre ≤ e.term := not_lt.mp hlt
          have hno : ¬ pre <+: e.term := by simpa using hp
          rw [takePrefix, if_neg hlt, if_neg hp, List.filter_cons_of_neg (by simpa using hp)]
          refine ⟨?_, fun _ => ⟨e, List.mem_cons_self, hle, hno⟩⟩
          symm
          rw [List.filter_eq_nil_iff]
          intro x hx
          have hnone := not_isPrefix_of_lt hle hno (hsorted.1 x hx)
          simpa using hnone

section Serving

variable (h : Serves env renv idx w blocks region dictOff)

include h

section

variable (hs : SortedTerms w.input)

include hs

/-- The scan of the blocks from one on. -/
theorem Serves.prefixBlocks (pre : Bytes) (k : Nat) :
    prefixBlocks renv idx pre (idx.blockRefs.drop k) =
      .ok ((((blocks.drop k).flatMap resolve).filter fun r => pre.isPrefixOf r.entry.term).map
        (seen w.input)) := by
  have hlen : idx.blockRefs.length = blocks.length := by
    rw [h.refs, h.built.records, List.length_map, length_recordsFrom]
  generalize hn : blocks.length - k = n
  induction n generalizing k with
  | zero =>
      rw [List.drop_of_length_le (by omega), List.drop_of_length_le (by omega)]
      rfl
  | succ n ih =>
      have hk : k < blocks.length := by omega
      have hb : blocks[k]? = some blocks[k] := List.getElem?_eq_getElem hk
      have hmem : blocks[k] ∈ blocks := List.getElem_mem hk
      obtain ⟨ref, href, hload⟩ := h.loadBlock hb
      obtain ⟨hk', href'⟩ := List.getElem?_eq_some_iff.mp href
      have hsorted : (blocks[k].entries.map (DictEntry.stored idx.tier)).Pairwise
          (·.term < ·.term) := by
        rw [List.pairwise_map]
        simpa using h.sorted_block hs hmem
      obtain ⟨hhits, hstop⟩ := takePrefix_spec pre hsorted
      have hhere : (takePrefix pre (blocks[k].entries.map (DictEntry.stored idx.tier))).1.map
          (fun e => ({ entry := e, frqBase := (blocks[k].readerAt idx.tier).frqBase
                       prxBase := (blocks[k].readerAt idx.tier).prxBase } : Resolved)) =
          ((resolve blocks[k]).filter fun r => pre.isPrefixOf r.entry.term).map (seen w.input) := by
        rw [hhits, resolve, List.filter_map, List.filter_map, List.map_map, List.map_map]
        have hfilter : (fun e : DictEntry => pre.isPrefixOf e.term) ∘ DictEntry.stored idx.tier =
            (fun r : Resolved => pre.isPrefixOf r.entry.term) ∘
              fun e => ⟨e, blocks[k].frqBase, blocks[k].prxBase⟩ := by
          funext e
          simp
        rw [hfilter]
        apply List.map_congr_left
        intro e _
        exact h.seen_eq hmem e
      rw [List.drop_eq_getElem_cons hk', List.drop_eq_getElem_cons hk, href', Reader.prefixBlocks,
        hload, ok_bind, DictBlockBuilder.decodeAll_readerAt (h.blockOk hmem) (h.tier_block hmem),
        ok_bind]
      simp only [hhere]
      rw [List.flatMap_cons, List.filter_append, List.map_append]
      by_cases hmore : (takePrefix pre (blocks[k].entries.map (DictEntry.stored idx.tier))).2 = true
      · rw [if_pos hmore, ih (k + 1) (by omega)]
        rfl
      · rw [if_neg hmore]
        obtain ⟨x, hx, hle, hno⟩ := hstop (Bool.eq_false_iff.mpr hmore)
        obtain ⟨e, he, rfl⟩ := List.mem_map.mp hx
        have hrest : ((blocks.drop (k + 1)).flatMap resolve).filter
            (fun r => pre.isPrefixOf r.entry.term) = [] := by
          rw [List.filter_eq_nil_iff]
          intro r hr
          have hall := h.sorted hs
          rw [← List.take_append_drop k blocks, List.drop_eq_getElem_cons hk, List.flatMap_append,
            List.flatMap_cons] at hall
          have hlt := (List.pairwise_append.mp (List.pairwise_append.mp hall).2.1).2.2
            ⟨e, blocks[k].frqBase, blocks[k].prxBase⟩ (List.mem_map_of_mem he) r hr
          rw [DictEntry.stored_term] at hle hno
          have hnone := not_isPrefix_of_lt hle hno hlt
          simpa using hnone
        rw [hrest, List.map_nil, List.append_nil]
        rfl

/-- **Enumeration** returns exactly the written terms with the prefix, in order. -/
theorem Serves.prefixTerms (pre : Bytes) :
    prefixTerms renv idx pre = .ok (((blocks.flatMap resolve).filter fun r =>
      pre.isPrefixOf r.entry.term).map (seen w.input)) := by
  have hskip : ∀ k, (∀ r ∈ (blocks.take k).flatMap resolve, r.entry.term < pre) →
      ((blocks.drop k).flatMap resolve).filter (fun r => pre.isPrefixOf r.entry.term) =
        (blocks.flatMap resolve).filter (fun r => pre.isPrefixOf r.entry.term) := by
    intro k hbefore
    have hnil : ((blocks.take k).flatMap resolve).filter
        (fun r => pre.isPrefixOf r.entry.term) = [] := by
      rw [List.filter_eq_nil_iff]
      intro r hr
      have hno : ¬ pre <+: r.entry.term := fun hp =>
        absurd (le_of_isPrefix hp) (not_le.mpr (hbefore r hr))
      simpa using hno
    conv_rhs => rw [← List.take_append_drop k blocks, List.flatMap_append, List.filter_append, hnil,
      List.nil_append]
  rw [Reader.prefixTerms]
  by_cases hempty : pre = []
  · rw [if_pos hempty, h.prefixBlocks hs]
    rfl
  · rw [if_neg hempty, h.prefixBlocks hs]
    rcases h.locate hs pre with ⟨hloc, _⟩ | ⟨k, b, hloc, _, hlast⟩
    · rw [hloc]
      rfl
    · rw [hloc, Option.getD_some, hskip k]
      intro r hr
      rw [List.flatMap_def, List.map_take] at hr
      exact lt_of_mem_take h.segments_ne_nil (h.sorted hs) hlast hr

end

/-! ## Entries -/

/-- **Every entry** of the dictionary leads to the bytes of its term. -/
theorem Serves.entries : List.Forall₂ (fun tp r => r.entry.term = tp.postings.term ∧
    EntryAt env.zstd w.input.entryConfig idx tp (seen w.input r))
    w.input.source.list (blocks.flatMap resolve) := by
  have heach := (List.forall₂_and_left _ _).mpr ⟨h.widths, h.built.wrote.each⟩
  refine heach.imp fun tp r hboth => ?_
  obtain ⟨hwidths, hat⟩ := hboth
  obtain ⟨before, after, more, hsplit, hbase, hbuilt⟩ := hat.built
  rw [hat.bases] at hbuilt
  refine ⟨hat.term, entryAt_of_built h.holds hsplit hbuilt hbase hat.lengths hwidths
    w.input.tier_spec.1 w.input.tier_spec.2 rfl rfl fun hprx => ?_⟩
  have hprx' : w.input.hasPrx = true := hprx
  show (if w.input.hasPrx then r.prxBase else 0) = r.frqBase
  rw [if_pos hprx', hat.bases]

end Serving

end Snii.Reader
