import Snii.Reader.DictionaryLookup
import Snii.Reader.SegmentReader
import Snii.Writer.ContainerLayout

/-!
# A container reads back

A finished container opens (`open_container`), the meta block of each of its indexes is
found by the index's key and reads back (`openIndex_container`), and an index whose
terms fit the format is opened over its own bytes (`openIndex_serves`).
-/

namespace Snii.Reader

open Snii.Lib.ByteReader Snii.Lib.Aligned Snii.Common Snii.Io.FileReader
open Snii.Encoding.Crc32c Snii.Encoding.ByteSource Snii.Encoding.SectionFramer
open Snii.Format.ContainerEnds Snii.Format.TailMeta Snii.Format.Dict Snii.Format.DictBlock
open Snii.Format.DictIndex Snii.Format.Bsbf
open Snii.Format.PerIndexMeta (IndexMeta StatsBlock RegionRef SectionRefs MetaOk openMeta
  openMeta_finish kMaxSuffixLen finishNormsPod)
open Snii.Writer.LogicalIndexWriter Snii.Writer.CompoundWriter

/-- The numbers of an index have the widths of their types and of the format. -/
structure InputOk (i : SniiIndexInput) : Prop where
  indexId : i.indexId < 2 ^ 64
  suffix : i.indexSuffix.length ≤ kMaxSuffixLen
  docCount : i.docCount < 2 ^ 32
  termCount : i.source.list.length < 2 ^ 32
  widths : ∀ tp ∈ i.source.list, TermWidths tp.postings

instance (i : SniiIndexInput) : Decidable (InputOk i) :=
  decidable_of_iff (i.indexId < 2 ^ 64 ∧ i.indexSuffix.length ≤ kMaxSuffixLen ∧
      i.docCount < 2 ^ 32 ∧ i.source.list.length < 2 ^ 32 ∧
      ∀ tp ∈ i.source.list, TermWidths tp.postings)
    ⟨fun ⟨hid, hs, hd, ht, hw⟩ => ⟨hid, hs, hd, ht, hw⟩,
      fun ⟨hid, hs, hd, ht, hw⟩ => ⟨hid, hs, hd, ht, hw⟩⟩

/-- What the widths of the container format ask of a session. -/
structure SessionOk (adds : List AddCall) (file : Bytes) : Prop where
  size : file.length < 2 ^ 64
  count : adds.length < 2 ^ 32
  inputs : ∀ a ∈ adds, InputOk a.input

variable {env : BuildEnv} {renv : ReadEnv} {adds : List AddCall} {file : Bytes}
  {indexes : List (BuiltIndex × Placement)}

/-! ## The calls -/

/-- The calls that succeed. -/
def added (env : BuildEnv) (adds : List AddCall) : List AddCall :=
  adds.filter fun a => (builtOf env a).isSome

theorem builds_of_added (env : BuildEnv) (adds : List AddCall) :
    List.Forall₂ (fun a (b : BuiltIndex × Bytes) =>
        build (AddCall.env env a) a.input [] = .ok b.1 b.2)
      (added env adds) (adds.filterMap (builtOf env)) := by
  unfold added
  induction adds with
  | nil => exact .nil
  | cons a adds ih =>
      cases hbuild : build (a.env env) a.input [] with
      | error e region =>
          have hb : builtOf env a = none := by rw [builtOf, hbuild]
          rw [List.filter_cons_of_neg (by simp [hb]), List.filterMap_cons_none hb]
          exact ih
      | ok w region =>
          have hb : builtOf env a = some (w, region) := by rw [builtOf, hbuild]
          rw [List.filter_cons_of_pos (by simp [hb]), List.filterMap_cons_some hb]
          exact .cons hbuild ih

/-- Calls that fail need not fit the format. -/
theorem sessionOk_added (h : SessionOk adds file) : SessionOk (added env adds) file :=
  ⟨h.size, Nat.lt_of_le_of_lt (List.length_filter_le _ _) h.count, fun a ha =>
    h.inputs a (List.mem_filter.mp ha).1⟩

/-! ## The file -/

theorem mem_builtOf {x : BuiltIndex × Bytes} (hx : x ∈ adds.filterMap (builtOf env)) :
    ∃ a ∈ added env adds, build (a.env env) a.input [] = .ok x.1 x.2 :=
  exists_left_of_mem (builds_of_added env adds) hx

/-- The index behind an entry of the container. -/
theorem built_of_mem (h : Container env adds file indexes) {x : BuiltIndex × Placement}
    (hx : x ∈ indexes) :
    ∃ a ∈ added env adds, ∃ region, build (a.env env) a.input [] = .ok x.1 region ∧
      PlacedAt file x.1 region x.2 := by
  obtain ⟨b, hb, hfst, hat⟩ := exists_left_of_mem h.placed hx
  obtain ⟨a, ha, hbuild⟩ := mem_builtOf hb
  exact ⟨a, ha, b.2, hfst ▸ hbuild, hfst ▸ hat⟩

theorem entriesOk_container (h : Container env adds file indexes)
    (hok : SessionOk (added env adds) file) : EntriesOk (indexes.map metaEntry) := by
  have hinput : ∀ x ∈ indexes, InputOk x.1.input := by
    intro x hx
    obtain ⟨a, ha, region, hbuild, _⟩ := built_of_mem h hx
    rw [(build_builtFrom hbuild).1]
    exact hok.inputs a ha
  obtain ⟨body, tail, _, hfile, _⟩ := h.parts
  refine ⟨?_, ?_, ?_, ?_⟩
  · intro e he
    obtain ⟨x, hx, rfl⟩ := List.mem_map.mp he
    exact (hinput x hx).indexId
  · intro e he
    obtain ⟨x, hx, rfl⟩ := List.mem_map.mp he
    exact Nat.lt_of_le_of_lt (hinput x hx).suffix (by decide)
  · have hlen := h.placed.length_eq
    have hcalls := (builds_of_added env adds).length_eq
    have := hok.count
    rw [List.length_map]
    omega
  · have := hok.size
    rw [hfile] at this
    simp only [List.length_append] at this
    omega

/-- What the segment reader keeps of a container. -/
def segmentOf (file : Bytes) (indexes : List (BuiltIndex × Placement)) : SniiSegmentReader :=
  { file := file
    region := { region := finishRegion (indexes.map metaEntry)
                dir := layoutRefs kHeaderSize (indexes.map metaEntry)
                n := (indexes.map metaEntry).length } }

/-- **Opening** a finished container succeeds. -/
theorem open_container (h : Container env adds file indexes)
    (hok : SessionOk (added env adds) file) :
    SniiSegmentReader.open file = .ok (segmentOf file indexes) := by
  have hentries := entriesOk_container h hok
  have hsize := hok.size
  obtain ⟨body, tail, hbody, hfile, htail, _⟩ := h.parts
  have hlen : file.length = body.length + (finishRegion (indexes.map metaEntry)).length +
      tail.length := by
    rw [hfile]
    simp only [List.length_append]
  obtain ⟨htailLen, hdecode⟩ := decodeTailPointer_encode
    ⟨by show body.length < 2 ^ 64; omega,
     by show (finishRegion (indexes.map metaEntry)).length < 2 ^ 64; omega, Nat.two_pow_pos 64,
     crc32c_lt _, Nat.two_pow_pos 32⟩ htail
  have hhead : readBootstrap file =
      .ok { headerLength := kBootstrapHeaderSize, tailPointerSize := tailPointerSize } := by
    have hat : At file 0 containerHeader := by
      rw [hfile, hbody]
      simp only [List.append_assoc]
      exact ⟨[], _, rfl, rfl⟩
    rw [readBootstrap, hat.readAt length_containerHeader.symm, ok_bind, decode_containerHeader]
  have hfoot : readTail file = .ok
      { metaRegionOffset := body.length
        metaRegionLength := (finishRegion (indexes.map metaEntry)).length, hotOff := 0
        metaRegionChecksum := crc32c (finishRegion (indexes.map metaEntry))
        bootstrapHeaderChecksum := 0 } := by
    have hat : At file (file.length - tailPointerSize) tail := by
      refine ⟨body ++ finishRegion (indexes.map metaEntry), [], by rw [hfile]; simp, ?_⟩
      rw [hlen, htailLen, Nat.add_sub_cancel, List.length_append]
    rw [readTail, if_neg (by omega), hat.readAt htailLen.symm, ok_bind, hdecode]
  have hregion : At file body.length (finishRegion (indexes.map metaEntry)) :=
    ⟨body, tail, by rw [hfile, List.append_assoc], rfl⟩
  have hpos : (finishRegion (indexes.map metaEntry)).length ≠ 0 := by
    have hk : kHeaderSize = 40 := rfl
    rw [length_finishRegion]
    omega
  rw [SniiSegmentReader.open, hhead, ok_bind, hfoot, ok_bind, if_neg hpos]
  simp only
  rw [hregion.readAt rfl, ok_bind, if_neg (by simp), open_finishRegion hentries, ok_bind]
  rfl

/-! ## The meta blocks -/

theorem length_finishMeta_le (h : Container env adds file indexes) {x : BuiltIndex × Placement}
    (hx : x ∈ indexes) : (metaEntry x).bytes.length ≤ file.length := by
  obtain ⟨body, tail, _, hfile, _⟩ := h.parts
  have hin : (metaEntry x).bytes.length ≤ (metaBlocks (indexes.map metaEntry)).length := by
    rw [metaBlocks, List.flatMap_def]
    exact (List.sublist_flatten_of_mem
      (List.mem_map_of_mem (List.mem_map_of_mem hx))).length_le
  rw [hfile]
  simp only [List.length_append, length_finishRegion]
  omega

theorem sectionRefsOk_placed {x : BuiltIndex × Placement} {region : Bytes}
    (h : PlacedAt file x.1 region x.2) (hsize : file.length < 2 ^ 64) :
    Format.PerIndexMeta.SectionRefsOk x.2.sectionRefs := by
  have hpost := h.post.bound
  have hpostLen := h.postLen
  have hdict := h.dict.bound
  have hdictLen := h.dictLen
  have hoffs := h.offs
  have hnorms : x.2.normsLen ≤ file.length := by
    rcases Nat.eq_zero_or_pos x.2.normsLen with hzero | hpos
    · omega
    · have hlen := h.normsLen
      have hbound := (h.norms hpos).bound
      rw [sectionOf] at hlen
      split at hlen
      · rw [List.length_nil] at hlen
        omega
      · omega
  have hbsbf : x.2.bsbfLen ≤ file.length := by
    rcases Nat.eq_zero_or_pos x.2.bsbfLen with hzero | hpos
    · omega
    · have hlen := h.bsbfLen
      have hbound := (h.bsbf hpos).bound
      omega
  refine ⟨⟨?_, ?_⟩, ⟨?_, ?_⟩, ⟨?_, ?_⟩, ⟨Nat.two_pow_pos 64, Nat.two_pow_pos 64⟩, ⟨?_, ?_⟩⟩ <;>
    simp only [Placement.sectionRefs] <;> omega

/-- The two searched sections of a meta block are shorter than the file. -/
theorem payloads_lt (h : Container env adds file indexes) (hsize : file.length < 2 ^ 64)
    {x : BuiltIndex × Placement} (hx : x ∈ indexes) :
    (sampledPayload (x.1.blocks.map BlockRecord.firstTerm)).length < 2 ^ 64 ∧
      (putVarint32 ((x.1.blocks.map (blockRef x.2.dictOff)).length % 2 ^ 32) ++
        (x.1.blocks.map (blockRef x.2.dictOff)).flatMap encodeRef).length < 2 ^ 64 := by
  have hlen := length_finishMeta_le h hx
  have hmeta : (metaEntry x).bytes =
      Format.PerIndexMeta.encodeHeader (x.1.indexMeta x.2.sectionRefs x.2.dictOff) ++
        Format.PerIndexMeta.encodeStatsBlock x.1.stats ++
        finishSampledTermIndex (x.1.blocks.map BlockRecord.firstTerm) ++
        finishDictBlockDirectory (x.1.blocks.map (blockRef x.2.dictOff)) ++
        Format.PerIndexMeta.encodeSectionRefs x.2.sectionRefs := rfl
  have hsampled := length_payload_le SectionType.sampledTermIndex.code
    (sampledPayload (x.1.blocks.map BlockRecord.firstTerm))
  have hdirectory := length_payload_le SectionType.dictBlockDirectory.code
    (putVarint32 ((x.1.blocks.map (blockRef x.2.dictOff)).length % 2 ^ 32) ++
      (x.1.blocks.map (blockRef x.2.dictOff)).flatMap encodeRef)
  rw [hmeta, finishSampledTermIndex, finishDictBlockDirectory] at hlen
  rw [List.length_append, List.length_append, List.length_append, List.length_append] at hlen
  omega

/-- The meta block of an index of the container. -/
theorem openMeta_placed (h : Container env adds file indexes)
    (hok : SessionOk (added env adds) file) {x : BuiltIndex × Placement} (hx : x ∈ indexes) :
    openMeta (metaEntry x).bytes = .ok (x.1.indexMeta x.2.sectionRefs x.2.dictOff) := by
  obtain ⟨a, ha, region, hbuild, hat⟩ := built_of_mem h hx
  obtain ⟨hin, blocks, hbuilt⟩ := build_builtFrom hbuild
  have hinput := hok.inputs a ha
  rw [← hin] at hinput
  have hdoc := hinput.docCount
  have hterms := hinput.termCount
  obtain ⟨hsampled, hdirectory⟩ := payloads_lt h hok.size hx
  apply openMeta_finish
  refine ⟨hinput.indexId, hinput.suffix, ?_, ?_, sectionRefsOk_placed hat hok.size,
    ⟨_, hsampled, rfl⟩, ⟨_, hdirectory, rfl⟩⟩
  · show x.1.metaFlags < 2 ^ 32
    unfold BuiltIndex.metaFlags
    cases x.1.hasBsbf <;> cases x.1.input.hasPrx <;> decide
  · show Format.PerIndexMeta.StatsOk x.1.stats
    rw [hbuilt.stats]
    refine ⟨?_, ?_, ?_, Nat.mod_lt _ (by decide), Nat.two_pow_pos 64⟩ <;> simp only <;> omega

/-! ## Keys -/

/-- The key of an index. -/
def keyOf (i : SniiIndexInput) : Nat × Bytes := (i.indexId, i.indexSuffix)

/-- A key that no index has is not found. -/
theorem openIndex_absent (h : Container env adds file indexes)
    (hok : SessionOk (added env adds) file) {indexId : Nat} {suffix : Bytes}
    (habsent : ∀ x ∈ indexes, keyOf x.1.input ≠ (indexId, suffix)) :
    (segmentOf file indexes).openIndex renv indexId suffix =
      .error (.notFound "segment: logical index not found") := by
  have hnone : findEntry (indexes.map metaEntry) indexId suffix = none := by
    rw [findEntry, List.find?_eq_none]
    intro e he
    obtain ⟨x, hx, rfl⟩ := List.mem_map.mp he
    rw [decide_eq_true_eq]
    exact fun hkey => habsent x hx (Prod.ext hkey.1 hkey.2)
  have hfind := find_finishRegion (entriesOk_container h hok) indexId suffix
  rw [hnone] at hfind
  rw [SniiSegmentReader.openIndex, segmentOf]
  simp only
  rw [hfind]
  rfl

/-- In a container without two indexes of one key, an index is the one its key finds. -/
theorem findEntry_of_nodup (hkeys : (indexes.map fun x => keyOf x.1.input).Nodup)
    {x : BuiltIndex × Placement} (hx : x ∈ indexes) :
    findEntry (indexes.map metaEntry) x.1.input.indexId x.1.input.indexSuffix =
      some (metaEntry x) := by
  rw [findEntry, List.find?_eq_some_iff_append]
  refine ⟨by simp [metaEntry], ?_⟩
  obtain ⟨before, after, rfl⟩ := List.append_of_mem hx
  refine ⟨before.map metaEntry, after.map metaEntry, by simp, ?_⟩
  intro e he
  obtain ⟨y, hy, rfl⟩ := List.mem_map.mp he
  rw [List.map_append, List.map_cons, List.nodup_append] at hkeys
  have hne := hkeys.2.2 _ (List.mem_map_of_mem hy) _ List.mem_cons_self
  rw [Bool.not_eq_true', decide_eq_false_iff_not]
  exact fun hkey => hne (Prod.ext hkey.1 hkey.2)

/-- The index that a key finds is opened. -/
theorem openIndex_present (h : Container env adds file indexes)
    (hok : SessionOk (added env adds) file) {indexId : Nat} {suffix : Bytes}
    {x : BuiltIndex × Placement} (hx : x ∈ indexes)
    (hsome : findEntry (indexes.map metaEntry) indexId suffix = some (metaEntry x)) :
    (segmentOf file indexes).openIndex renv indexId suffix =
      openIndexReader renv file
        (inferTier (decide (x.2.normsLen > 0)) (x.1.input.hasPrx || decide (x.2.normsLen > 0)))
        (x.1.input.hasPrx || decide (x.2.normsLen > 0)) (metaEntry x).bytes := by
  have hfind := find_finishRegion (entriesOk_container h hok) indexId suffix
  rw [hsome] at hfind
  have hflag : (x.1.indexMeta x.2.sectionRefs x.2.dictOff).hasPositions = x.1.input.hasPrx := by
    show decide (x.1.metaFlags &&& Format.PerIndexMeta.kHasPositions ≠ 0) = _
    unfold BuiltIndex.metaFlags
    cases x.1.hasBsbf <;> cases x.1.input.hasPrx <;> rfl
  rw [SniiSegmentReader.openIndex, segmentOf]
  simp only
  rw [hfind, ok_bind]
  simp only [Option.map_some]
  rw [openMeta_placed h hok hx, ok_bind, hflag]
  rfl

/-! ## The caps of the reader -/

/-- The length of a block before compression. -/
def plainLen (r : BlockRecord) : Nat := if r.flags = kZstd then r.uncompLen else r.length

/-- Every dictionary block of the index is within the reader's cap. -/
def WithinCaps (w : BuiltIndex) : Prop := ∀ r ∈ w.blocks, plainLen r ≤ kMaxDictBlockUncompBytes

instance (w : BuiltIndex) : Decidable (WithinCaps w) :=
  inferInstanceAs (Decidable (∀ r ∈ w.blocks, plainLen r ≤ kMaxDictBlockUncompBytes))

/-- The lengths of the blocks fit the format's 32 bits. -/
def WithinWidths (w : BuiltIndex) : Prop := ∀ r ∈ w.blocks, plainLen r < 2 ^ 32

theorem WithinCaps.widths {w : BuiltIndex} (h : WithinCaps w) : WithinWidths w := fun r hr =>
  Nat.lt_of_le_of_lt (h r hr) (by decide)

theorem packBlock_cases (plain : Bytes) : packBlock env.zstd plain = (plain, 0, 0) ∨
    ∃ comp, packBlock env.zstd plain = (comp, kZstd, plain.length) := by
  unfold packBlock
  split
  · split
    · exact .inr ⟨_, rfl⟩
    · exact .inl rfl
  · exact .inl rfl

theorem plainLen_recordOf (off : Nat) (b : DictBlockBuilder) :
    plainLen (recordOf env off b) = b.finish.length := by
  unfold plainLen recordOf diskOf
  rcases @packBlock_cases env b.finish with hraw | ⟨comp, hcomp⟩
  · rw [hraw]
    exact if_neg (show ¬ 0 = kZstd by decide)
  · rw [hcomp]
    exact if_pos rfl

variable {w : BuiltIndex} {blocks : List DictBlockBuilder} {region : Bytes}

theorem finish_of_plainLen {P : Nat → Prop} (h : BuiltFrom env w blocks region)
    (hall : ∀ r ∈ w.blocks, P (plainLen r)) : ∀ b ∈ blocks, P b.finish.length := by
  intro b hb
  obtain ⟨k, hk⟩ := List.mem_iff_getElem?.mp hb
  have hrecord : recordOf env (0 + (dictBytes env (blocks.take k)).length) b ∈ w.blocks := by
    rw [h.records]
    refine List.mem_of_getElem? (i := k) ?_
    rw [recordsFrom_getElem?, hk]
    rfl
  have hlen := hall _ hrecord
  rwa [plainLen_recordOf] at hlen

theorem length_blocks_le (h : BuiltFrom env w blocks region) :
    w.blocks.length ≤ w.input.source.list.length := by
  have hlen := h.wrote.each.length_eq
  have hle : ∀ bs : List DictBlockBuilder, (∀ b ∈ bs, b.entries ≠ []) →
      bs.length ≤ (bs.flatMap resolve).length := by
    intro bs hne
    induction bs with
    | nil => exact Nat.le_refl _
    | cons b bs ih =>
        have hb := List.length_pos_iff.mpr (hne b List.mem_cons_self)
        have hrest := ih fun x hx => hne x (List.mem_cons_of_mem _ hx)
        rw [List.flatMap_cons, List.length_append, List.length_cons, resolve, List.length_map]
        omega
  rw [h.records, length_recordsFrom, hlen]
  exact hle blocks fun b hb => (h.shape b hb).1

theorem firstTerms_eq (h : BuiltFrom env w blocks region) :
    w.blocks.map BlockRecord.firstTerm = blocks.map firstTermOf := by
  have hall : ∀ off (bs : List DictBlockBuilder),
      (recordsFrom env off bs).map BlockRecord.firstTerm = bs.map firstTermOf := by
    intro off bs
    induction bs generalizing off with
    | nil => rfl
    | cons b bs ih =>
        rw [recordsFrom, List.map_cons, List.map_cons, ih]
        rfl
  rw [h.records, hall]

/-- A first term is no longer than its block. -/
theorem length_firstTermOf_lt (h : BuiltFrom env w blocks region) (hwidths : WithinWidths w)
    {b : DictBlockBuilder} (hb : b ∈ blocks) : (firstTermOf b).length < 2 ^ 32 := by
  have hlt := @finish_of_plainLen env w blocks region (· < 2 ^ 32) h hwidths b hb
  obtain ⟨e, es, he⟩ := List.exists_cons_of_ne_nil (h.shape b hb).1
  have hle := (DictBlockBuilder.le_finish hlt (show e ∈ b.entries by simp [he])).1
  have hfirst : firstTermOf b = e.term := by simp [firstTermOf, he]
  rw [hfirst]
  omega

/-! ## Opening an index -/

theorem refOk_block (h : BuiltFrom env w blocks region) {dictOff : Nat}
    (hdict : At file dictOff w.dictBuf.streamInto) (hsize : file.length < 2 ^ 64)
    (hwidths : WithinWidths w) : ∀ ref ∈ w.blocks.map (blockRef dictOff), RefOk ref := by
  intro ref href
  obtain ⟨r, hr, rfl⟩ := List.mem_map.mp href
  rw [h.records] at hr
  obtain ⟨k, hk⟩ := List.mem_iff_getElem?.mp hr
  rw [recordsFrom_getElem?, Option.map_eq_some_iff] at hk
  obtain ⟨b, hb, rfl⟩ := hk
  have hplain := @finish_of_plainLen env w blocks region (· < 2 ^ 32) h hwidths b
    (List.mem_of_getElem? hb)
  have hbound := hdict.bound
  have hdrop : blocks.drop k = b :: blocks.drop (k + 1) := by
    obtain ⟨hlt, rfl⟩ := List.getElem?_eq_some_iff.mp hb
    exact List.drop_eq_getElem_cons hlt
  have hlen : w.dictBuf.streamInto.length = (dictBytes env (blocks.take k)).length +
      ((diskOf env b).length + (dictBytes env (blocks.drop (k + 1))).length) := by
    rw [h.dict.streamInto, dictBytes_split blocks k, List.length_append, hdrop, dictBytes,
      dictBytes, List.flatMap_cons, List.length_append]
    rfl
  have hflags : (packBlock env.zstd b.finish).2.1 < 256 ∧
      (packBlock env.zstd b.finish).2.2 < 2 ^ 64 ∧
      ((Format.FrqPrelude.hasBit (packBlock env.zstd b.finish).2.1 0) = false →
        (packBlock env.zstd b.finish).2.2 = 0) := by
    rcases @packBlock_cases env b.finish with hraw | ⟨comp, hcomp⟩
    · rw [hraw]
      exact ⟨(by decide : 0 < 256), Nat.two_pow_pos 64, fun _ => rfl⟩
    · rw [hcomp]
      have hbit : Format.FrqPrelude.hasBit kZstd 0 ≠ false := by decide
      exact ⟨(by decide : kZstd < 256), Nat.lt_trans hplain (by decide), fun h => absurd h hbit⟩
  refine ⟨?_, ?_, Nat.mod_lt _ (by decide), hflags.1, crc32c_lt _, hflags.2.1, hflags.2.2⟩
  · show dictOff + (0 + (dictBytes env (blocks.take k)).length) < 2 ^ 64
    omega
  · show (diskOf env b).length < 2 ^ 64
    omega

/-- The filter's answer for a term. -/
def filterAnswer (p : BsbfParams) (terms : List Bytes) (term : Bytes) : Bool :=
  if terms.map (bsbfHash p) = [] then true
  else ((terms.map (bsbfHash p)).foldl BsbfBuilder.insert
    (createBsbf p ((terms.map (bsbfHash p)).length % 2 ^ 32))).maybeContains (bsbfHash p term)

/-- The filter section of an index of the container. -/
theorem openBsbf_placed (hp : renv.bsbf = env.bsbf) {terms : List Bytes} {bytes : Bytes}
    (hbuild : buildBsbf env.bsbf (terms.map (bsbfHash env.bsbf)) = .ok bytes) {off len : Nat}
    (hlen : len = bytes.length) (hat : 0 < len → At file off bytes) :
    ∃ s, openBsbf renv file ⟨off, len⟩ = .ok s ∧ FilterAt renv file terms s ∧
      ∀ idx : LogicalIndexReader, idx.file = file → idx.bsbf = s → ∀ term,
        probeBsbf renv idx term = .ok (filterAnswer env.bsbf terms term) := by
  subst hlen
  unfold buildBsbf at hbuild
  unfold filterAnswer
  by_cases hempty : terms.map (bsbfHash env.bsbf) = []
  · rw [if_pos hempty] at hbuild
    cases hbuild
    refine ⟨none, rfl, .none (List.map_eq_nil_iff.mp hempty), fun idx _ hidx term => ?_⟩
    rw [probeBsbf, hidx, if_pos hempty]
  · rw [if_neg hempty] at hbuild
    have hlt : ∀ x ∈ terms.map (bsbfHash env.bsbf), x < 2 ^ 64 := by
      intro x hx
      obtain ⟨t, _, rfl⟩ := List.mem_map.mp hx
      exact bsbfHash_lt _ t
    have hcreate := createBsbf_ok env.bsbf ((terms.map (bsbfHash env.bsbf)).length % 2 ^ 32)
    generalize createBsbf env.bsbf ((terms.map (bsbfHash env.bsbf)).length % 2 ^ 32) = b0
      at hbuild hcreate
    have hok := hcreate.foldl (terms.map (bsbfHash env.bsbf))
    have hheld : ∀ t ∈ terms, ((terms.map (bsbfHash env.bsbf)).foldl BsbfBuilder.insert
        b0).HoldsHash (bsbfHash renv.bsbf t) := by
      intro t ht
      rw [hp]
      exact holdsHash_foldl hcreate hlt (.inl (List.mem_map_of_mem ht))
    rw [serialize_eq hok] at hbuild
    cases hbuild
    have hpos : 0 < (((terms.map (bsbfHash env.bsbf)).foldl BsbfBuilder.insert b0).head ++
        ((terms.map (bsbfHash env.bsbf)).foldl BsbfBuilder.insert b0).bitset).length := by
      rw [List.length_append, length_head]
      exact Nat.lt_of_lt_of_le (by decide) (Nat.le_add_right _ _)
    obtain ⟨resident, hopen, hbits⟩ := @openBsbf_serialized renv file _ hok off (hat hpos)
    have hright := (hat hpos).right
    rw [length_head] at hright
    refine ⟨_, hopen, .kept _ off resident hok hheld hbits hright, fun idx hfile hidx term => ?_⟩
    rw [probeBsbf_kept hok hright hbits hidx hfile, if_neg hempty, hp]

/-- What the reader knows of an index of the container. -/
structure OpensTo (renv : ReadEnv) (file : Bytes) (x : BuiltIndex × Placement)
    (idx : LogicalIndexReader) : Prop where
  file_eq : idx.file = file
  tier : tierHasStats idx.tier = tierHasStats x.1.input.tier
  positions : idx.hasPositions = x.1.input.hasPrx
  indexMeta : idx.indexMeta = x.1.indexMeta x.2.sectionRefs x.2.dictOff
  samples : idx.sampleTerms = x.1.blocks.map BlockRecord.firstTerm
  refs : idx.blockRefs = x.1.blocks.map (blockRef x.2.dictOff)
  filter : FilterAt renv file (termsOf x.1.input) idx.bsbf

/-- What opening an index fixes besides: the tier that is inferred, and the filter's
answers. -/
structure OpensAs (p : BsbfParams) (renv : ReadEnv) (file : Bytes) (x : BuiltIndex × Placement)
    (idx : LogicalIndexReader) : Prop extends OpensTo renv file x idx where
  inferred : idx.tier = inferTier (decide (x.2.normsLen > 0)) x.1.input.hasPrx
  probe : ∀ term, probeBsbf renv idx term = .ok (filterAnswer p (termsOf x.1.input) term)

/-- The norms' length and the flag give the index's positions and a tier that stores
what the index's own does. -/
theorem inferTier_placed (h : BuiltFrom env w blocks region) {p : Placement}
    (hplaced : PlacedAt file w region p) :
    (w.input.hasPrx || decide (p.normsLen > 0)) = w.input.hasPrx ∧
      tierHasStats (inferTier (decide (p.normsLen > 0)) w.input.hasPrx) =
        tierHasStats w.input.tier := by
  have hnorms : decide (p.normsLen > 0) = w.input.hasNorms := by
    rw [hplaced.normsLen, sectionOf, skipNorms, h.norms]
    cases w.input.hasNorms with
    | false => rfl
    | true =>
        have hpos : 0 < (finishNormsPod w.input.encodedNorms).length := by
          rw [finishNormsPod, writeSection, List.length_append, length_putFixed32]
          omega
        have hne : (finishNormsPod w.input.encodedNorms).isEmpty = false := by
          rw [List.isEmpty_eq_false_iff]
          exact List.length_pos_iff.mp hpos
        simpa [hne] using hpos
  rw [hnorms]
  unfold SniiIndexInput.hasNorms SniiIndexInput.hasPrx SniiIndexInput.tier
  cases w.input.config <;> exact ⟨rfl, rfl⟩

/-- **Opening an index** by its key leads to the index. -/
theorem openIndex_opensTo (h : Container env adds file indexes)
    (hok : SessionOk (added env adds) file) (hp : renv.bsbf = env.bsbf) {indexId : Nat}
    {suffix : Bytes} {x : BuiltIndex × Placement} (hx : x ∈ indexes)
    (hfind : findEntry (indexes.map metaEntry) indexId suffix = some (metaEntry x))
    (hwidths : WithinWidths x.1) :
    ∃ idx, (segmentOf file indexes).openIndex renv indexId suffix = .ok idx ∧
      OpensAs env.bsbf renv file x idx := by
  obtain ⟨a, ha, region, hbuild, hplaced⟩ := built_of_mem h hx
  obtain ⟨hin, blocks, hbuilt⟩ := build_builtFrom hbuild
  have hinput := hok.inputs a ha
  rw [← hin] at hinput
  obtain ⟨hpos, htier⟩ := inferTier_placed hbuilt hplaced
  have hcount := Nat.lt_of_le_of_lt (length_blocks_le hbuilt) hinput.termCount
  obtain ⟨hpayload, hpayload'⟩ := payloads_lt h hok.size hx
  have hsampled : openSampledTermIndex (finishSampledTermIndex
      (x.1.blocks.map BlockRecord.firstTerm)) = .ok (x.1.blocks.map BlockRecord.firstTerm) := by
    apply openSampledTermIndex_finish ?_ (by rwa [List.length_map]) hpayload
    intro t ht
    rw [firstTerms_eq hbuilt] at ht
    obtain ⟨b, hb, rfl⟩ := List.mem_map.mp ht
    exact length_firstTermOf_lt hbuilt hwidths hb
  have hdirectory : openDictBlockDirectory (finishDictBlockDirectory
      (x.1.blocks.map (blockRef x.2.dictOff))) = .ok (x.1.blocks.map (blockRef x.2.dictOff)) :=
    openDictBlockDirectory_finish (refOk_block hbuilt hplaced.dict hok.size hwidths)
      (by rwa [List.length_map]) hpayload'
  have hfilter : buildBsbf (a.env env).bsbf ((termsOf x.1.input).map (bsbfHash (a.env env).bsbf)) =
      .ok x.1.bsbfBytes := by
    rw [termsOf, List.map_map]
    exact hbuilt.bsbf
  obtain ⟨s, hopen, hat, hprobe⟩ := @openBsbf_placed (a.env env) renv file hp _ _ hfilter _ _
    hplaced.bsbfLen hplaced.bsbf
  refine ⟨{ file := file, tier := inferTier (decide (x.2.normsLen > 0)) x.1.input.hasPrx
            hasPositions := x.1.input.hasPrx
            indexMeta := x.1.indexMeta x.2.sectionRefs x.2.dictOff
            sampleTerms := x.1.blocks.map BlockRecord.firstTerm
            blockRefs := x.1.blocks.map (blockRef x.2.dictOff), bsbf := s }, ?_,
    ⟨⟨rfl, htier, rfl, rfl, rfl, rfl, hat⟩, rfl, hprobe _ rfl rfl⟩⟩
  rw [openIndex_present h hok hx hfind, hpos, openIndexReader, openMeta_placed h hok hx, ok_bind]
  have hs : (x.1.indexMeta x.2.sectionRefs x.2.dictOff).sampledTermIndex = finishSampledTermIndex
      (x.1.blocks.map BlockRecord.firstTerm) := rfl
  have hd : (x.1.indexMeta x.2.sectionRefs x.2.dictOff).dictBlockDirectory =
      finishDictBlockDirectory (x.1.blocks.map (blockRef x.2.dictOff)) := rfl
  rw [hs, hsampled, ok_bind, hd, hdirectory, ok_bind]
  have hb : (x.1.indexMeta x.2.sectionRefs x.2.dictOff).sectionRefs.bsbf =
      ⟨x.2.bsbfOff, x.2.bsbfLen⟩ := rfl
  rw [hb, hopen, ok_bind]
  rfl

end Snii.Reader
