import Snii.Encoding.SectionFramer

/-!
# Metadata of one index

`per_index_meta.cpp` with `stats_block.cpp` and `norms_pod.cpp`: a checksummed
header and framed sections, of which the statistics and the section references
are required.  The other sections are kept as frames for their own readers.
-/

namespace Snii.Format.PerIndexMeta

open Snii.Lib.ByteReader Snii.Common
open Snii.Encoding.ByteSource Snii.Encoding.SectionFramer Snii.Encoding.Crc32c

/-- The only version that is read. -/
def kMetaFormatVersion : Nat := 1

/-- The cap on the length of an index suffix. -/
def kMaxSuffixLen : Nat := 64 * 1024

/-- The flag bit of an index with positions.  It is not inferred from the posting
region, which a docs-only index has too. -/
def kHasPositions : Nat := 1

/-- The flag bit of an index with a filter. -/
def kHasBsbf : Nat := 2

/-- The statistics of an index, as `build` leaves them. -/
structure StatsBlock where
  docCount : Nat := 0
  indexedDocCount : Nat := 0
  termCount : Nat := 0
  sumTotalTermFreq : Nat := 0
  nullCount : Nat := 0
deriving DecidableEq

/-- Where a section is in the file. -/
structure RegionRef where
  offset : Nat := 0
  length : Nat := 0
deriving DecidableEq

/-- The sections of an index; one that was not written is at `0` with length `0`. -/
structure SectionRefs where
  dictRegion : RegionRef := {}
  postingRegion : RegionRef := {}
  norms : RegionRef := {}
  nullBitmap : RegionRef := {}
  bsbf : RegionRef := {}
deriving DecidableEq

/-! ## Writing -/

/-- The statistics, a varint each. -/
def statsPayload (sb : StatsBlock) : Bytes :=
  putVarint64 sb.docCount ++ putVarint64 sb.indexedDocCount ++ putVarint64 sb.termCount ++
    putVarint64 sb.sumTotalTermFreq ++ putVarint64 sb.nullCount

/-- The statistics in a frame of their type. -/
def encodeStatsBlock (sb : StatsBlock) : Bytes :=
  writeSection SectionType.statsBlock.code (statsPayload sb)

/-- One byte a document; the frame carries the statistics' type. -/
def finishNormsPod (norms : Bytes) : Bytes :=
  writeSection SectionType.statsBlock.code (putVarint64 norms.length ++ norms)

/-- Offset and length. -/
def encodeRegion (r : RegionRef) : Bytes := putVarint64 r.offset ++ putVarint64 r.length

/-- The five references in their order. -/
def sectionRefsPayload (refs : SectionRefs) : Bytes :=
  encodeRegion refs.dictRegion ++ encodeRegion refs.postingRegion ++ encodeRegion refs.norms ++
    encodeRegion refs.nullBitmap ++ encodeRegion refs.bsbf

/-- The references in a frame of their type. -/
def encodeSectionRefs (refs : SectionRefs) : Bytes :=
  writeSection SectionType.sectionRefs.code (sectionRefsPayload refs)

/-- A metadata block: its header, and its sub-sections of which the two of the dictionary
are kept framed. -/
structure IndexMeta where
  indexId : Nat := 0
  indexSuffix : Bytes := []
  flags : Nat := 0
  stats : StatsBlock := {}
  sampledTermIndex : Bytes := []
  dictBlockDirectory : Bytes := []
  sectionRefs : SectionRefs := {}
deriving DecidableEq

/-- The positions flag of the header. -/
def IndexMeta.hasPositions (m : IndexMeta) : Bool := decide (m.flags &&& kHasPositions ≠ 0)

/-- The part of the header that its checksum covers. -/
def headerFields (m : IndexMeta) : Bytes :=
  putFixed16 kMetaFormatVersion ++ putVarint64 m.indexId ++
    putVarint32 (m.indexSuffix.length % 2 ^ 32) ++ m.indexSuffix ++ putFixed32 m.flags

/-- The header with its checksum. -/
def encodeHeader (m : IndexMeta) : Bytes :=
  headerFields m ++ putFixed32 (crc32c (headerFields m))

/-- `PerIndexMetaBuilder::finish`: the header and the four sub-sections. -/
def finishMeta (m : IndexMeta) : Bytes :=
  encodeHeader m ++ encodeStatsBlock m.stats ++ m.sampledTermIndex ++ m.dictBlockDirectory ++
    encodeSectionRefs m.sectionRefs

/-! ## Reading -/

/-- The statistics in the order they were written. -/
def readStats : Source StatsBlock := do
  let docCount ← getVarint64
  let indexedDocCount ← getVarint64
  let termCount ← getVarint64
  let sumTotalTermFreq ← getVarint64
  let nullCount ← getVarint64
  pure { docCount := docCount, indexedDocCount := indexedDocCount, termCount := termCount
         sumTotalTermFreq := sumTotalTermFreq, nullCount := nullCount }

/-- The statistics of a frame, which nothing may follow inside it. -/
def decodeStatsBlock (framed : Bytes) : Result StatsBlock :=
  openSection .statsBlock (.invalidArgument "stats_block: unexpected section type")
    (parseAll readStats "stats_block: trailing bytes in payload") framed

/-- Offset and length. -/
def decodeRegion : Source RegionRef := do
  let offset ← getVarint64
  let length ← getVarint64
  pure { offset := offset, length := length }

/-- The five references. -/
def readSectionRefs : Source SectionRefs := do
  let dictRegion ← decodeRegion
  let postingRegion ← decodeRegion
  let norms ← decodeRegion
  let nullBitmap ← decodeRegion
  let bsbf ← decodeRegion
  pure { dictRegion := dictRegion, postingRegion := postingRegion, norms := norms
         nullBitmap := nullBitmap, bsbf := bsbf }

/-- The references of a payload, which nothing may follow. -/
def decodeSectionRefs (payload : Bytes) : Result SectionRefs :=
  parseAll readSectionRefs "per_index_meta: trailing bytes in section_refs" payload

/-- Index id, suffix and flags. -/
def readHeaderFields : Source (Nat × Bytes × Nat) := do
  let version ← getFixed16
  if version ≠ kMetaFormatVersion then
    throw (.corruption "per_index_meta: unsupported meta_format_version")
  else do
    let indexId ← getVarint64
    let suffixLen ← getVarint32
    let left ← remaining
    if suffixLen > kMaxSuffixLen ∨ suffixLen > left then
      throw (.corruption "per_index_meta: suffix_len exceeds bounds")
    else do
      let suffix ← getBytes suffixLen
      let flags ← getFixed32
      pure (indexId, suffix, flags)

/-- The header, checked against its checksum. -/
def decodeHeader : Source (Nat × Bytes × Nat) := do
  let (fields, covered) ← consumed readHeaderFields
  let stored ← getFixed32
  if crc32c covered ≠ stored then throw (.corruption "per_index_meta: header crc mismatch")
  else pure fields

/-- What the reader has collected: statistics and references are there once seen. -/
structure MetaSections where
  stats : Option StatsBlock := none
  sectionRefs : Option SectionRefs := none
  sampledTermIndex : Bytes := []
  dictBlockDirectory : Bytes := []

/-- One frame into its slot; unknown types are skipped. -/
def dispatchFrame (acc : MetaSections) (sec : FramedSection) (frame : Bytes) :
    Result MetaSections :=
  if sec.type = SectionType.statsBlock.code then do
    let stats ← decodeStatsBlock frame
    .ok { acc with stats := some stats }
  else if sec.type = SectionType.sectionRefs.code then do
    let refs ← decodeSectionRefs sec.payload
    .ok { acc with sectionRefs := some refs }
  else if sec.type = SectionType.sampledTermIndex.code then
    .ok { acc with sampledTermIndex := frame }
  else if sec.type = SectionType.dictBlockDirectory.code then
    .ok { acc with dictBlockDirectory := frame }
  else .ok acc

/-- Frames up to the end of the block; the number of its bytes is fuel enough. -/
def readFrames : Nat → MetaSections → Source MetaSections
  | 0, acc => pure acc
  | fuel + 1, acc => do
      let done ← eof
      if done then pure acc
      else do
        let (sec, frame) ← consumed readSection
        let acc' ← ofResult (dispatchFrame acc sec frame)
        readFrames fuel acc'

/-- `PerIndexMetaReader::open`: statistics and references must be there, the other
sub-sections need not. -/
def openMeta (block : Bytes) : Result IndexMeta := do
  let ((indexId, suffix, flags), rest) ← decodeHeader.run block
  let (acc, _) ← (readFrames rest.length {}).run rest
  match acc.stats, acc.sectionRefs with
  | some stats, some refs =>
      .ok { indexId := indexId, indexSuffix := suffix, flags := flags, stats := stats
            sampledTermIndex := acc.sampledTermIndex
            dictBlockDirectory := acc.dictBlockDirectory, sectionRefs := refs }
  | _, _ => .error (.corruption "per_index_meta: missing required sub-section")

/-! ## Round trip -/

/-- The statistics have the width of the format. -/
def StatsOk (sb : StatsBlock) : Prop :=
  sb.docCount < 2 ^ 64 ∧ sb.indexedDocCount < 2 ^ 64 ∧ sb.termCount < 2 ^ 64 ∧
    sb.sumTotalTermFreq < 2 ^ 64 ∧ sb.nullCount < 2 ^ 64

/-- Both numbers have the width of the format. -/
def RegionOk (r : RegionRef) : Prop := r.offset < 2 ^ 64 ∧ r.length < 2 ^ 64

/-- Every reference does. -/
structure SectionRefsOk (refs : SectionRefs) : Prop where
  dictRegion : RegionOk refs.dictRegion
  postingRegion : RegionOk refs.postingRegion
  norms : RegionOk refs.norms
  nullBitmap : RegionOk refs.nullBitmap
  bsbf : RegionOk refs.bsbf

theorem length_statsPayload (sb : StatsBlock) : (statsPayload sb).length ≤ 50 := by
  have h1 := length_putVarint64_le sb.docCount
  have h2 := length_putVarint64_le sb.indexedDocCount
  have h3 := length_putVarint64_le sb.termCount
  have h4 := length_putVarint64_le sb.sumTotalTermFreq
  have h5 := length_putVarint64_le sb.nullCount
  simp only [statsPayload, List.length_append]
  omega

theorem decodeStatsBlock_encode {sb : StatsBlock} (h : StatsOk sb) :
    decodeStatsBlock (encodeStatsBlock sb) = .ok sb := by
  obtain ⟨h1, h2, h3, h4, h5⟩ := h
  refine openSection_write (Nat.lt_of_le_of_lt (length_statsPayload sb) (by decide))
    (parseAll_of_reads ?_ _)
  rw [statsPayload]
  simp only [List.append_assoc]
  exact (reads_getVarint64 h1).bind ((reads_getVarint64 h2).bind ((reads_getVarint64 h3).bind
    ((reads_getVarint64 h4).bind ((reads_getVarint64 h5).bind_nil (Reads.pure _)))))

theorem reads_region {r : RegionRef} (h : RegionOk r) : Reads decodeRegion (encodeRegion r) r :=
  (reads_getVarint64 h.1).bind ((reads_getVarint64 h.2).bind_nil (Reads.pure r))

theorem decodeSectionRefs_encode {refs : SectionRefs} (h : SectionRefsOk refs) :
    decodeSectionRefs (sectionRefsPayload refs) = .ok refs := by
  refine parseAll_of_reads ?_ _
  rw [sectionRefsPayload]
  simp only [List.append_assoc]
  exact (reads_region h.dictRegion).bind ((reads_region h.postingRegion).bind
    ((reads_region h.norms).bind ((reads_region h.nullBitmap).bind
      ((reads_region h.bsbf).bind_nil (Reads.pure _)))))

theorem length_sectionRefsPayload (refs : SectionRefs) :
    (sectionRefsPayload refs).length ≤ 100 := by
  have hle : ∀ r : RegionRef, (encodeRegion r).length ≤ 20 := by
    intro r
    have h1 := length_putVarint64_le r.offset
    have h2 := length_putVarint64_le r.length
    rw [encodeRegion, List.length_append]
    omega
  have h1 := hle refs.dictRegion
  have h2 := hle refs.postingRegion
  have h3 := hle refs.norms
  have h4 := hle refs.nullBitmap
  have h5 := hle refs.bsbf
  simp only [sectionRefsPayload, List.length_append]
  omega

/-- A metadata block that reads back: its sub-sections are frames of their types. -/
structure MetaOk (m : IndexMeta) : Prop where
  indexId : m.indexId < 2 ^ 64
  suffix : m.indexSuffix.length ≤ kMaxSuffixLen
  flags : m.flags < 2 ^ 32
  stats : StatsOk m.stats
  refs : SectionRefsOk m.sectionRefs
  sampled : ∃ payload, payload.length < 2 ^ 64 ∧
    m.sampledTermIndex = writeSection SectionType.sampledTermIndex.code payload
  directory : ∃ payload, payload.length < 2 ^ 64 ∧
    m.dictBlockDirectory = writeSection SectionType.dictBlockDirectory.code payload

theorem reads_header {m : IndexMeta} (hid : m.indexId < 2 ^ 64)
    (hsuffix : m.indexSuffix.length ≤ kMaxSuffixLen) (hflags : m.flags < 2 ^ 32) :
    Reads decodeHeader (encodeHeader m) (m.indexId, m.indexSuffix, m.flags) := by
  have hcap : kMaxSuffixLen < 2 ^ 32 := by decide
  have hfields : Reads readHeaderFields (headerFields m)
      (m.indexId, m.indexSuffix, m.flags) := by
    rw [headerFields, Nat.mod_eq_of_lt (by omega)]
    simp only [List.append_assoc]
    refine (reads_getFixed16 (by decide)).bind (Reads.if_neg (by simp) ?_)
    refine (reads_getVarint64 hid).bind ((reads_getVarint32 (by omega)).bind
      (reads_remaining_bind ?_))
    intro left hleft
    rw [List.length_append] at hleft
    refine Reads.if_neg (by omega) ?_
    exact (reads_getBytes _).bind ((reads_getFixed32 hflags).bind_nil (Reads.pure _))
  exact hfields.consumed.bind ((reads_getFixed32 (crc32c_lt _)).bind_nil
    (Reads.if_neg (by simp) (Reads.pure _)))

/-- One round of the frame loop. -/
theorem readFrames_section {fuel type : Nat} {payload rest : Bytes} {acc acc' : MetaSections}
    (ht : type < 256) (hp : payload.length < 2 ^ 64)
    (h : dispatchFrame acc { type := type, payload := payload } (writeSection type payload) =
      .ok acc') :
    (readFrames (fuel + 1) acc).run (writeSection type payload ++ rest) =
      (readFrames fuel acc').run rest := by
  have hne : (writeSection type payload ++ rest).isEmpty = false := by
    simp [writeSection, frameBody, putU8]
  have hres : Reads (ofResult (dispatchFrame acc { type := type, payload := payload }
      (writeSection type payload)) : Source MetaSections) [] acc' := Reads.ofResult h
  rw [readFrames, eof_run_bind, hne]
  simp only [Bool.false_eq_true, if_false]
  rw [(reads_section ht hp).consumed.run_bind]
  exact hres.run_bind rest

theorem readFrames_nil (fuel : Nat) (acc : MetaSections) :
    (readFrames fuel acc).run [] = .ok (acc, []) := by
  cases fuel <;> rfl

/-- **Round trip** of the metadata block. -/
theorem openMeta_finish {m : IndexMeta} (h : MetaOk m) : openMeta (finishMeta m) = .ok m := by
  obtain ⟨sampled, hs, hsampled⟩ := h.sampled
  obtain ⟨directory, hd, hdirectory⟩ := h.directory
  have hfuel : ∃ fuel, (encodeStatsBlock m.stats ++ (m.sampledTermIndex ++
      (m.dictBlockDirectory ++ encodeSectionRefs m.sectionRefs))).length = fuel + 4 := by
    refine ⟨_ - 4, (Nat.sub_add_cancel ?_).symm⟩
    simp only [encodeStatsBlock, writeSection, List.length_append, length_putFixed32]
    omega
  obtain ⟨fuel, hfuel⟩ := hfuel
  have hhead := (reads_header h.indexId h.suffix h.flags) (encodeStatsBlock m.stats ++ (m.sampledTermIndex ++
    (m.dictBlockDirectory ++ encodeSectionRefs m.sectionRefs)))
  rw [openMeta, finishMeta]
  simp only [List.append_assoc]
  rw [hhead, ok_bind]
  simp only [hfuel]
  have hs1 : dispatchFrame {} { type := SectionType.statsBlock.code, payload := statsPayload m.stats }
      (encodeStatsBlock m.stats) = .ok { stats := some m.stats } := by
    rw [dispatchFrame, if_pos rfl, decodeStatsBlock_encode h.stats, ok_bind]
  have hs2 : ∀ acc : MetaSections, dispatchFrame acc
      { type := SectionType.sectionRefs.code, payload := sectionRefsPayload m.sectionRefs }
      (encodeSectionRefs m.sectionRefs) = .ok { acc with sectionRefs := some m.sectionRefs } := by
    intro acc
    have hother : SectionType.sectionRefs.code ≠ SectionType.statsBlock.code := by decide
    rw [dispatchFrame, if_neg hother, if_pos rfl, decodeSectionRefs_encode h.refs, ok_bind]
  rw [encodeStatsBlock, readFrames_section SectionType.statsBlock.code_lt
      (Nat.lt_of_le_of_lt (length_statsPayload m.stats) (by decide)) hs1, hsampled,
    readFrames_section SectionType.sampledTermIndex.code_lt hs rfl, hdirectory,
    readFrames_section SectionType.dictBlockDirectory.code_lt hd rfl, encodeSectionRefs,
    ← List.append_nil (writeSection _ (sectionRefsPayload _)),
    readFrames_section SectionType.sectionRefs.code_lt
      (Nat.lt_of_le_of_lt (length_sectionRefsPayload _) (by decide)) (hs2 _),
    readFrames_nil, ok_bind]
  rw [← hsampled, ← hdirectory]

end Snii.Format.PerIndexMeta
