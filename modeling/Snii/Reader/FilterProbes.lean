import Snii.Reader.LogicalIndexReader

/-!
# Probing the filter

The three probes of a filter give one answer: the builder's own, the one over the bits
that an opened index keeps in memory, and the one that reads a single block of the file.
-/

namespace Snii.Reader

open Snii.Lib.ByteReader Snii.Common Snii.Io.FileReader
open Snii.Encoding.Crc32c Snii.Format.Bsbf

variable {renv : ReadEnv} {file : Bytes} {b : BsbfBuilder} {off hash : Nat}

theorem bsbfHash_lt (p : BsbfParams) (t : Bytes) : bsbfHash p t < 2 ^ 64 := Nat.mod_lt _ (by decide)

theorem bsbfBlockContains_take (hash : Nat) (block : Bytes) :
    bsbfBlockContains hash (block.take kBsbfBytesPerBlock) = bsbfBlockContains hash block := by
  unfold bsbfBlockContains
  rw [Bool.eq_iff_iff, List.all_eq_true, List.all_eq_true]
  refine forall₂_congr fun i hi => ?_
  have hlt : i < 8 := List.mem_range.mp hi
  rw [List.drop_take, List.take_take, Nat.min_eq_left (by rw [kBsbfBytesPerBlock]; omega)]

/-- The block of a key is inside the bits. -/
theorem block_in_bitset (h : BuilderOk b) (hh : hash < 2 ^ 64) :
    bsbfBlockIndex hash b.numBlocks * kBsbfBytesPerBlock + kBsbfBytesPerBlock ≤
      b.bitset.length := by
  have hlt := bsbfBlockIndex_lt hh h.blocks.1
  rw [h.length_bitset, h.blocks.2.1, kBsbfBytesPerBlock]
  omega

/-- The probe of one block of the file answers as the builder does. -/
theorem bsbfProbe_serialized (h : BuilderOk b) (hat : At file (off + kBsbfHeaderSize) b.bitset)
    (hh : hash < 2 ^ 64) : bsbfProbe file (b.headerAt off) hash = .ok (b.maybeContains hash) := by
  have hin := block_in_bitset h hh
  have hread : readAt file _ kBsbfBytesPerBlock = .ok (b.blockBytes _) :=
    (hat.slice hin).readAt (by rw [List.length_take, List.length_drop]; omega)
  simp only [bsbfProbe, BsbfHeader.blockOffset, BsbfBuilder.headerAt]
  rw [hread, ok_bind, blockContains_eq h hh]

/-- The bits in memory answer as the builder does. -/
theorem blockContains_resident (h : BuilderOk b) (hh : hash < 2 ^ 64) :
    bsbfBlockContains hash
        (b.bitset.drop (bsbfBlockIndex hash b.numBlocks * kBsbfBytesPerBlock)) =
      b.maybeContains hash := by
  rw [← bsbfBlockContains_take]
  exact blockContains_eq h hh

/-- A lookup's filter step answers as the builder does, in memory or not. -/
theorem probeBsbf_kept (h : BuilderOk b) (hat : At file (off + kBsbfHeaderSize) b.bitset)
    {resident : Option Bytes} (hres : ∀ bits, resident = some bits → bits = b.bitset)
    {idx : LogicalIndexReader} (hidx : idx.bsbf = some ⟨b.headerAt off, resident⟩)
    (hfile : idx.file = file) {term : Bytes} :
    probeBsbf renv idx term = .ok (b.maybeContains (bsbfHash renv.bsbf term)) := by
  have hlt := bsbfHash_lt renv.bsbf term
  rw [probeBsbf, hidx]
  cases resident with
  | none =>
      simp only
      rw [hfile]
      exact bsbfProbe_serialized h hat hlt
  | some bits =>
      rw [hres bits rfl]
      exact congrArg Except.ok (blockContains_resident h hlt)

/-- A filter section reads back, whether it is kept in memory or not. -/
theorem openBsbf_serialized {b : BsbfBuilder} (hb : BuilderOk b) {off : Nat}
    (hat : At file off (b.head ++ b.bitset)) :
    ∃ resident, openBsbf renv file ⟨off, (b.head ++ b.bitset).length⟩ =
        .ok (some ⟨b.headerAt off, resident⟩) ∧
      ∀ bits, resident = some bits → bits = b.bitset := by
  have hhead : b.head.length = kBsbfHeaderSize := length_head b
  have hbits := hb.length_bitset
  have hpos := hb.blocks.1
  have hbytes := hb.blocks.2.1
  have hk : kBsbfHeaderSize = 28 := rfl
  have hlen : (b.head ++ b.bitset).length = kBsbfHeaderSize + b.numBytes := by
    rw [List.length_append, hhead, hbits]
  have htake : (b.head ++ b.bitset).take kBsbfHeaderSize = b.head := by rw [← hhead, List.take_left]
  have hparse := parseBsbfHeader_head hb off
  have hnum : (b.headerAt off).numBytes = (b.head ++ b.bitset).length - kBsbfHeaderSize := by
    rw [hlen, Nat.add_sub_cancel_left]
    rfl
  rw [openBsbf]
  simp only
  rw [if_pos (by omega), if_neg (by omega)]
  by_cases hres : (b.head ++ b.bitset).length ≤ renv.bsbfResidentMaxBytes
  · have hbit : residentBits (b.head ++ b.bitset) (b.headerAt off) = .ok (some b.bitset) := by
      have hdrop : ((b.head ++ b.bitset).drop kBsbfHeaderSize).take (b.headerAt off).numBytes =
          b.bitset := by
        rw [← hhead, List.drop_left]
        exact List.take_of_length_le hbits.le
      rw [residentBits, hdrop]
      exact if_neg fun hne => hne rfl
    refine ⟨some b.bitset, ?_, fun bits hbits => (Option.some.inj hbits).symm⟩
    simp only [hres, decide_true, if_true]
    rw [hat.readAt rfl, ok_bind, htake, hparse, ok_bind, if_neg (not_not.mpr hnum), hbit, ok_bind]
    rfl
  · refine ⟨none, ?_, fun bits hbits => by cases hbits⟩
    simp only [hres, decide_false, Bool.false_eq_true, if_false]
    rw [hat.left.readAt hhead.symm, ok_bind, List.take_of_length_le hhead.le, hparse, ok_bind,
      if_neg (not_not.mpr hnum)]
    rfl

/-- **One filter, three probes.**  After any insertions into a filter of any size the format
allows, its section opens wherever it is placed, every inserted hash is found, and for every
hash the probe of the builder, of the bits in memory and of one block of the file agree. -/
theorem filter_probes_agree {k : Nat} (hlo : 5 ≤ k) (hhi : k ≤ 27) (ndv : Nat) {hashes : List Nat}
    (hh : ∀ x ∈ hashes, x < 2 ^ 64) {b : BsbfBuilder}
    (hb : b = hashes.foldl BsbfBuilder.insert (sizedBsbf (2 ^ k) ndv)) :
    ∃ bytes, b.serialize = .ok bytes ∧ (∀ hash ∈ hashes, b.maybeContains hash = true) ∧
      ∀ file off, At file off bytes → ∃ header,
        parseBsbfHeader (bytes.take kBsbfHeaderSize) off = .ok header ∧
        (∀ hash < 2 ^ 64, bsbfBlockIndex hash header.numBlocks < header.numBlocks ∧
          header.numBlocks * kBsbfBytesPerBlock = b.bitset.length ∧
          bsbfBlockContains hash
            (b.bitset.drop (bsbfBlockIndex hash header.numBlocks * kBsbfBytesPerBlock)) =
              b.maybeContains hash ∧
          bsbfProbe file header hash = .ok (b.maybeContains hash)) ∧
        ∀ env : ReadEnv, ∃ s, openBsbf env file ⟨off, bytes.length⟩ = .ok (some s) ∧
          ∀ idx : LogicalIndexReader, idx.file = file → idx.bsbf = some s →
            ∀ term, probeBsbf env idx term = .ok (b.maybeContains (bsbfHash env.bsbf term)) := by
  have hsized := sizedBsbf_ok hlo hhi ndv
  have hok : BuilderOk b := hb ▸ hsized.foldl hashes
  refine ⟨b.head ++ b.bitset, serialize_eq hok, ?_, ?_⟩
  · intro hash hmem
    rw [hb]
    exact maybeContains_of_holds (holdsHash_foldl hsized hh (.inl hmem))
  · intro file off hat
    have hbits : At file (off + kBsbfHeaderSize) b.bitset := by
      have hright := hat.right
      rwa [length_head] at hright
    refine ⟨b.headerAt off, ?_, ?_, ?_⟩
    · rw [← length_head b, List.take_left]
      exact parseBsbfHeader_head hok off
    · intro hash hlt
      refine ⟨bsbfBlockIndex_lt hlt hok.blocks.1, ?_, blockContains_resident hok hlt,
        bsbfProbe_serialized hok hbits hlt⟩
      rw [hok.length_bitset, hok.blocks.2.1, Nat.mul_comm]
      rfl
    · intro env
      obtain ⟨resident, hopen, hres⟩ := @openBsbf_serialized env file b hok off hat
      exact ⟨_, hopen, fun idx hfile hidx term => probeBsbf_kept hok hbits hres hidx hfile⟩

/-- A filter of eight blocks with three hashes. -/
def eightBlocks : BsbfBuilder :=
  [7, 2 ^ 40 + 3, 2 ^ 63 + 5].foldl BsbfBuilder.insert (sizedBsbf (2 ^ 8) 3)

theorem filter_probes_agree_eightBlocks : ∃ bytes header, eightBlocks.serialize = .ok bytes ∧
    parseBsbfHeader (bytes.take kBsbfHeaderSize) 0 = .ok header ∧ header.numBlocks = 8 ∧
      bsbfProbe bytes header (2 ^ 63 + 5) = .ok true := by
  obtain ⟨bytes, hser, hheld, hplaced⟩ := filter_probes_agree (by decide : 5 ≤ 8)
    (by decide : 8 ≤ 27) 3 (by decide : ∀ x ∈ [7, 2 ^ 40 + 3, 2 ^ 63 + 5], x < 2 ^ 64)
    (rfl : eightBlocks = _)
  obtain ⟨header, hparse, hprobes, _⟩ := hplaced bytes 0 ⟨[], [], by simp, rfl⟩
  obtain ⟨_, hlen, _, hprobe⟩ := hprobes (2 ^ 63 + 5) (by decide)
  refine ⟨bytes, header, hser, hparse, ?_, ?_⟩
  · have hbits : eightBlocks.bitset.length = 256 := by decide +kernel
    rw [hbits, kBsbfBytesPerBlock] at hlen
    omega
  · rw [hprobe, hheld (2 ^ 63 + 5) (by decide)]

end Snii.Reader
