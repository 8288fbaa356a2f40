import Snii.Format.BurstDetection
import Snii.Format.DictBlockSafety
import Snii.Format.MetaSafety
import Snii.Format.PayloadSafety
import Snii.Reader.SegmentReader

/-!
# Opening arbitrary bytes

Whatever bytes a file holds, opening it and its indexes, looking up terms and enumerating
prefixes access nothing outside the buffers that were read, but for the meta region,
whose declared sums may wrap (`segment_blames`).  A filter that is kept in memory has a
whole block for every hash (`openBsbf_safe`).
-/

namespace Snii.Reader

open Snii.Lib.ByteReader Snii.Lib.Blame Snii.Common Snii.Io.FileReader
open Snii.Encoding.Compression Snii.Format Snii.Format.Dict Snii.Format.DictBlock
open Snii.Format.DictIndex Snii.Format.Bsbf Snii.Format.MetaSafety
open Snii.Format.ContainerEnds
open Snii.Format.TailMeta (TailMetaRegionReader)
open Snii.Format.PerIndexMeta (RegionRef)

/-- Some stretch of a file declares a sum that wraps, taken for a meta region. -/
def RegionWraps (file : Bytes) : Prop :=
  ∃ off len, off + len ≤ file.length ∧ ¬ TailMeta.SumsFit ((file.drop off).take len)

variable {env : ReadEnv} {file : Bytes} {idx : LogicalIndexReader}

theorem readAt_ne_outOfBounds (file : Bytes) (off len : Nat) :
    readAt file off len ≠ .error .outOfBounds := by
  rw [readAt]
  split <;> simp

/-! ## The container -/

/-- **Opening a container** blames the meta region alone, and so does every key. -/
theorem segment_blames (hsize : file.length < 2 ^ 64) :
    Blames .outOfBounds (RegionWraps file) (SniiSegmentReader.open file) ∧
      ∀ s, SniiSegmentReader.open file = .ok s → s.file = file ∧ ∀ indexId suffix,
        Blames .outOfBounds (RegionWraps file) (s.region.find indexId suffix) := by
  have hwraps : ∀ {off len region}, readAt file off len = .ok region →
      region.length < 2 ^ 64 ∧ (¬ TailMeta.SumsFit region → RegionWraps file) := by
    intro off len region hread
    obtain ⟨rfl, hle⟩ := readAt_eq_ok hread
    refine ⟨?_, fun hwrap => ⟨off, len, hle, hwrap⟩⟩
    rw [List.length_take, List.length_drop]
    omega
  constructor
  · rw [SniiSegmentReader.open]
    apply Blames.bind (.of_ne (bind_ne_error (readAt_ne_outOfBounds _ _ _) fun _ _ =>
      BurstDetection.decodeBootstrapHeader_ne_outOfBounds _))
    intro _ _
    have htail : readTail file ≠ .error .outOfBounds := by
      rw [readTail]
      split
      · simp
      · exact bind_ne_error (readAt_ne_outOfBounds _ _ _) fun _ _ =>
          BurstDetection.decodeTailPointer_ne_outOfBounds _
    apply Blames.bind (.of_ne htail)
    intro tp _
    apply Blames.ite (fun _ => .error (by simp))
    intro _
    apply Blames.bind (.of_ne (readAt_ne_outOfBounds _ _ _))
    intro region hregion
    obtain ⟨hlen, hcause⟩ := hwraps hregion
    apply Blames.ite (fun _ => .error (by simp))
    intro _
    apply ((region_blames hlen).1.mono hcause).bind
    exact fun r _ => .ok _
  · intro s hs
    obtain ⟨_, -, hs⟩ := bind_eq_ok hs
    obtain ⟨tp, -, hs⟩ := bind_eq_ok hs
    split at hs
    · cases hs
    · obtain ⟨region, hregion, hs⟩ := bind_eq_ok hs
      obtain ⟨hlen, hcause⟩ := hwraps hregion
      split at hs
      · cases hs
      · obtain ⟨r, hr, hs⟩ := bind_eq_ok hs
        cases hs
        exact ⟨rfl, fun indexId suffix => ((region_blames hlen).2 r hr indexId suffix).mono hcause⟩

/-! ## The filter -/

/-- The block of every hash is inside the bits that are kept in memory. -/
def BlocksInside (s : BsbfSection) : Prop :=
  ∀ bits, s.resident = some bits → ∀ hash, hash < 2 ^ 64 →
    bsbfBlockIndex hash s.header.numBlocks * kBsbfBytesPerBlock + kBsbfBytesPerBlock ≤ bits.length

theorem bsbfBlockIndex_le {hash n : Nat} (hhash : hash < 2 ^ 64) (hn : 0 < n) :
    bsbfBlockIndex hash n + 1 ≤ n := by
  rw [bsbfBlockIndex, Nat.succ_le_iff, Nat.div_lt_iff_lt_mul (by decide), Nat.mul_comm]
  apply Nat.mul_lt_mul_of_pos_left _ hn
  rw [Nat.div_lt_iff_lt_mul (by decide)]
  exact hhash

/-- **A filter** is opened inside the bytes that were read, and its blocks are. -/
theorem openBsbf_safe (env : ReadEnv) (file : Bytes) (ref : RegionRef) :
    openBsbf env file ref ≠ .error .outOfBounds ∧
      ∀ s, openBsbf env file ref = .ok (some s) → BlocksInside s := by
  have hbits : ∀ head header, residentBits head header ≠ .error .outOfBounds := by
    intro head header
    rw [residentBits]
    split <;> simp
  rw [openBsbf]
  split
  · split
    · exact ⟨by simp, fun s hs => by cases hs⟩
    · rename_i hlong
      constructor
      · apply bind_ne_error (readAt_ne_outOfBounds _ _ _)
        intro head _
        apply bind_ne_error (parseBsbfHeader_safe _ _).1
        intro header _
        split
        · simp
        · split
          · exact bind_ne_error (hbits _ _) fun bits _ => by simp [pure, Except.pure]
          · simp [pure, Except.pure, bind, Except.bind]
      · intro s hs bits hresident hash hhash
        obtain ⟨head, hhead, hs⟩ := bind_eq_ok hs
        obtain ⟨header, hheader, hs⟩ := bind_eq_ok hs
        obtain ⟨hblocks, hpos⟩ := (parseBsbfHeader_safe _ _).2 header hheader
        split at hs
        · cases hs
        · rename_i hsized
          obtain ⟨found, hfound, hs⟩ := bind_eq_ok hs
          cases hs
          simp only at hresident
          split at hfound
          · rename_i hkept
            rw [if_pos hkept] at hhead
            obtain ⟨rfl, hle⟩ := readAt_eq_ok hhead
            rw [hresident, residentBits] at hfound
            split at hfound
            · cases hfound
            · cases hfound
              have hindex := bsbfBlockIndex_le hhash hpos
              have hfill := Nat.div_mul_le_self header.numBytes kBsbfBytesPerBlock
              have hmul := Nat.mul_le_mul_right kBsbfBytesPerBlock hindex
              rw [hblocks] at hmul
              rw [hblocks, List.length_take, List.length_drop, List.length_take, List.length_drop]
              rw [Nat.succ_mul] at hmul
              omega
          · rw [hresident] at hfound
            cases hfound
  · exact ⟨by simp, fun s hs => by cases hs⟩

/-- **Opening an index** accesses nothing outside. -/
theorem openIndexReader_ne_outOfBounds (env : ReadEnv) (file : Bytes) (tier : IndexTier)
    (hasPositions : Bool) (metaBlock : Bytes) :
    openIndexReader env file tier hasPositions metaBlock ≠ .error .outOfBounds := by
  apply bind_ne_error (openMeta_ne_outOfBounds metaBlock)
  intro m _
  apply bind_ne_error (openSampledTermIndex_ne_outOfBounds _)
  intro samples _
  apply bind_ne_error (openDictBlockDirectory_ne_outOfBounds _)
  intro refs _
  apply bind_ne_error (openBsbf_safe env file _).1
  intro bsbf _
  simp [pure, Except.pure]

/-- **An index of a container**: it is opened over the file, with its filter's blocks
inside. -/
theorem openIndex_blames (hsize : file.length < 2 ^ 64) {s : SniiSegmentReader}
    (hs : SniiSegmentReader.open file = .ok s) (indexId : Nat) (suffix : Bytes) :
    Blames .outOfBounds (RegionWraps file) (s.openIndex env indexId suffix) ∧
      ∀ idx, s.openIndex env indexId suffix = .ok idx → idx.file = file ∧
        ∀ section_, idx.bsbf = some section_ → BlocksInside section_ := by
  obtain ⟨hfile, hfind⟩ := (segment_blames hsize).2 s hs
  rw [SniiSegmentReader.openIndex]
  constructor
  · apply (hfind indexId suffix).bind
    intro found _
    cases found with
    | none => exact .error (by simp)
    | some metaBytes =>
        apply Blames.bind (.of_ne (openMeta_ne_outOfBounds metaBytes))
        exact fun m _ => .of_ne (openIndexReader_ne_outOfBounds _ _ _ _ _)
  · intro idx hidx
    obtain ⟨found, -, hidx⟩ := bind_eq_ok hidx
    cases found with
    | none => cases hidx
    | some metaBytes =>
        obtain ⟨m, -, hidx⟩ := bind_eq_ok hidx
        obtain ⟨m', -, hidx⟩ := bind_eq_ok hidx
        obtain ⟨samples, -, hidx⟩ := bind_eq_ok hidx
        obtain ⟨refs, -, hidx⟩ := bind_eq_ok hidx
        obtain ⟨bsbf, hbsbf, hidx⟩ := bind_eq_ok hidx
        cases hidx
        refine ⟨hfile, fun section_ hsection => ?_⟩
        simp only at hsection
        rw [hsection] at hbsbf
        exact (openBsbf_safe _ _ _).2 section_ hbsbf

/-! ## Terms -/

/-- A block that opens is decoded and searched inside its bytes. -/
theorem opened_ne_outOfBounds {block : Bytes} {tier : IndexTier} {hasPositions : Bool}
    {br : DictBlockReader} (hopen : openBlock block tier hasPositions = .ok br) :
    br.decodeAll ≠ .error .outOfBounds ∧ ∀ target, br.findTerm target ≠ .error .outOfBounds := by
  have h := (openBlock_spec block tier hasPositions).2 br hopen
  exact ⟨h.decodeAll_ne_outOfBounds, h.findTerm_ne_outOfBounds⟩

theorem loadBlock_ne_outOfBounds (env : ReadEnv) (idx : LogicalIndexReader) (ref : BlockRef) :
    loadBlock env idx ref ≠ .error .outOfBounds := by
  have hinflate : ∀ disk, inflateBlock env ref disk ≠ .error .outOfBounds := by
    intro disk
    rw [inflateBlock]
    split
    · split
      · simp
      · exact PayloadArrays.zstdDecompress_ne_outOfBounds _ _ _
    · simp
  apply bind_ne_error (readAt_ne_outOfBounds _ _ _)
  intro disk _
  apply bind_ne_error (hinflate disk)
  exact fun plain _ => (openBlock_spec plain idx.tier idx.hasPositions).1

theorem loaded_ne_outOfBounds {ref : BlockRef} {br : DictBlockReader}
    (h : loadBlock env idx ref = .ok br) :
    br.decodeAll ≠ .error .outOfBounds ∧ ∀ target, br.findTerm target ≠ .error .outOfBounds := by
  obtain ⟨disk, -, h⟩ := bind_eq_ok h
  obtain ⟨plain, -, h⟩ := bind_eq_ok h
  exact opened_ne_outOfBounds h

/-- **A lookup** accesses nothing outside. -/
theorem lookup_ne_outOfBounds (env : ReadEnv) (idx : LogicalIndexReader) (term : Bytes) :
    lookup env idx term ≠ .error .outOfBounds := by
  have hprobe : probeBsbf env idx term ≠ .error .outOfBounds := by
    rw [probeBsbf]
    cases idx.bsbf with
    | none => simp
    | some s =>
        simp only
        cases s.resident with
        | some bits => simp
        | none =>
            exact bind_ne_error (readAt_ne_outOfBounds _ _ _) fun _ _ => by simp
  apply bind_ne_error hprobe
  intro maybe _
  cases maybe with
  | false => simp [pure, Except.pure]
  | true =>
      simp only [if_true]
      cases locate idx.sampleTerms term with
      | none => simp [pure, Except.pure]
      | some ordinal =>
          have hblock : getBlock idx.blockRefs ordinal ≠ .error .outOfBounds := by
            rw [getBlock]
            split <;> simp
          apply bind_ne_error hblock
          intro ref _
          apply bind_ne_error (loadBlock_ne_outOfBounds env idx ref)
          intro br hbr
          apply bind_ne_error ((loaded_ne_outOfBounds hbr).2 term)
          exact fun hit _ => by simp [pure, Except.pure]

/-- **An enumeration** accesses nothing outside. -/
theorem prefixTerms_ne_outOfBounds (env : ReadEnv) (idx : LogicalIndexReader) (pre : Bytes) :
    prefixTerms env idx pre ≠ .error .outOfBounds := by
  rw [prefixTerms]
  induction idx.blockRefs.drop (if pre = [] then 0 else (locate idx.sampleTerms pre).getD 0) with
  | nil => simp [prefixBlocks]
  | cons ref refs ih =>
      rw [prefixBlocks]
      apply bind_ne_error (loadBlock_ne_outOfBounds env idx ref)
      intro br hbr
      apply bind_ne_error (loaded_ne_outOfBounds hbr).1
      intro entries _
      simp only
      split
      · exact bind_ne_error ih fun rest _ => by simp [pure, Except.pure]
      · simp [pure, Except.pure]

end Snii.Reader
