import Snii.Encoding.ByteSource
import Snii.Encoding.Crc32c

/-!
# The two ends of a container

`bootstrap_header.cpp` and `tail_pointer.cpp`: the fixed header at the front of the
file and the fixed footer at its end, each under a checksum of its own.  The footer
says where the meta region is.
-/

namespace Snii.Format.ContainerEnds

open Snii.Lib.ByteReader Snii.Common
open Snii.Encoding.ByteSource Snii.Encoding.Crc32c

/-- `SNII`. -/
def kContainerMagic : Nat := 0x49494E53

/-- `TAIL`. -/
def kTailMagic : Nat := 0x4C494154

/-- The version that is written. -/
def kFormatVersion : Nat := 1

/-- The oldest reader that may read it. -/
def kMinReaderVersion : Nat := 1

/-! ## Bootstrap header -/

/-- The first bytes of a container. -/
structure BootstrapHeader where
  magic : Nat := kContainerMagic
  formatVersion : Nat := kFormatVersion
  minReaderVersion : Nat := kMinReaderVersion
  flags : Nat := 0
  headerLength : Nat := 0
  tailPointerSize : Nat := 0
deriving DecidableEq

/-- Its size is fixed. -/
def kBootstrapHeaderSize : Nat := 4 + 2 + 2 + 4 + 4 + 1 + 4

/-- The part of the header that its checksum covers; the two versions share a word. -/
def encodeFields (h : BootstrapHeader) : Bytes :=
  putFixed32 h.magic ++ putFixed32 ((h.minReaderVersion <<< 16) ||| h.formatVersion) ++
    putFixed32 h.flags ++ putFixed32 kBootstrapHeaderSize ++ putU8 h.tailPointerSize

/-- The header with its checksum. -/
def encodeBootstrapHeader (h : BootstrapHeader) : Bytes :=
  encodeFields h ++ putFixed32 (crc32c (encodeFields h))

/-- The fields in their order: magic, version pair, flags, length, tail pointer size, checksum. -/
def readFields : Source (Nat × Nat × Nat × Nat × Nat × Nat) := do
  let magic ← getFixed32
  let versionPair ← getFixed32
  let flags ← getFixed32
  let headerLength ← getFixed32
  let tailPointerSize ← getU8
  let storedChecksum ← getFixed32
  pure (magic, versionPair, flags, headerLength, tailPointerSize, storedChecksum)

/-- `decode_bootstrap_header`, which refuses containers for newer readers. -/
def decodeBootstrapHeader (data : Bytes) : Result BootstrapHeader :=
  if data.length ≠ kBootstrapHeaderSize then
    .error (.corruption "bootstrap_header: wrong header size")
  else do
    let ((magic, versionPair, flags, headerLength, tailPointerSize, storedChecksum), _) ←
      readFields.run data
    if magic ≠ kContainerMagic then
      .error (.corruption "bootstrap_header: bad container magic")
    else
      let covered ← subslice data 0 (kBootstrapHeaderSize - 4)
      let minReaderVersion := (versionPair >>> 16) &&& 0xFFFF
      if crc32c covered ≠ storedChecksum then
        .error (.corruption "bootstrap_header: checksum mismatch")
      else if minReaderVersion > kFormatVersion then
        .error (.unsupported "bootstrap_header: container requires a newer reader version")
      else
        .ok { magic := magic, formatVersion := versionPair &&& 0xFFFF
              minReaderVersion := minReaderVersion, flags := flags, headerLength := headerLength
              tailPointerSize := tailPointerSize }

/-! ## Tail pointer -/

/-- The last bytes of a container: where the metadata region is, and its checksum. -/
structure TailPointer where
  metaRegionOffset : Nat := 0
  metaRegionLength : Nat := 0
  hotOff : Nat := 0
  metaRegionChecksum : Nat := 0
  bootstrapHeaderChecksum : Nat := 0
deriving DecidableEq

/-- Its size is fixed. -/
def kFixedSize : Nat := 4 + 2 + 3 * 8 + 2 * 4 + 1 + 4

/-- All of it but the checksum. -/
def kChecksumCoverage : Nat := kFixedSize - 4

/-- `tail_pointer_size`. -/
def tailPointerSize : Nat := kFixedSize

/-- The part that the checksum covers, its size included. -/
def serializeCovered (tp : TailPointer) : Bytes :=
  putFixed32 kTailMagic ++ putFixed16 kFormatVersion ++ putFixed64 tp.metaRegionOffset ++
    putFixed64 tp.metaRegionLength ++ putFixed64 tp.hotOff ++ putFixed32 tp.metaRegionChecksum ++
    putFixed32 tp.bootstrapHeaderChecksum ++ putU8 kFixedSize

/-- `encode_tail_pointer`. -/
def encodeTailPointer (tp : TailPointer) : Result Bytes :=
  let covered := serializeCovered tp
  if covered.length ≠ kChecksumCoverage then
    .error (.internal "tail_pointer: covered size mismatch")
  else .ok (covered ++ putFixed32 (crc32c covered))

/-- The end of the footer: its own size and the checksum of what stands before. -/
def readTailChecks (covered : Bytes) (tp : TailPointer) : Source TailPointer := do
  let onDiskSize ← getU8
  if onDiskSize ≠ kFixedSize then throw (.corruption "tail_pointer: embedded size mismatch")
  else do
    let tailChecksum ← getFixed32
    if tailChecksum ≠ crc32c covered then
      throw (.corruption "tail_pointer: tail_checksum mismatch")
    else pure tp

/-- The fields behind the checks of magic, version, size and checksum. -/
def readTailPointer (covered : Bytes) : Source TailPointer := do
  let magic ← getFixed32
  if magic ≠ kTailMagic then throw (.corruption "tail_pointer: bad magic")
  else do
    let _ ← getFixed16
    let metaRegionOffset ← getFixed64
    let metaRegionLength ← getFixed64
    let hotOff ← getFixed64
    let metaRegionChecksum ← getFixed32
    let bootstrapHeaderChecksum ← getFixed32
    readTailChecks covered
      { metaRegionOffset := metaRegionOffset, metaRegionLength := metaRegionLength
        hotOff := hotOff, metaRegionChecksum := metaRegionChecksum
        bootstrapHeaderChecksum := bootstrapHeaderChecksum }

/-- `decode_tail_pointer`. -/
def decodeTailPointer (lastBytes : Bytes) : Result TailPointer :=
  if lastBytes.length ≠ kFixedSize then
    .error (.corruption "tail_pointer: input is not the fixed size")
  else do
    let covered ← subslice lastBytes 0 kChecksumCoverage
    let (tp, _) ← (readTailPointer covered).run lastBytes
    .ok tp

/-! ## Round trips -/

/-- The header of every container. -/
def containerHeader : Bytes := encodeBootstrapHeader { tailPointerSize := tailPointerSize % 2 ^ 8 }

theorem length_containerHeader : containerHeader.length = kBootstrapHeaderSize := by
  decide +kernel

theorem decode_containerHeader : decodeBootstrapHeader containerHeader =
    .ok { headerLength := kBootstrapHeaderSize, tailPointerSize := tailPointerSize } := by
  decide +kernel

/-- The fields have the widths of the format. -/
structure TailPointerOk (tp : TailPointer) : Prop where
  metaRegionOffset : tp.metaRegionOffset < 2 ^ 64
  metaRegionLength : tp.metaRegionLength < 2 ^ 64
  hotOff : tp.hotOff < 2 ^ 64
  metaRegionChecksum : tp.metaRegionChecksum < 2 ^ 32
  bootstrapHeaderChecksum : tp.bootstrapHeaderChecksum < 2 ^ 32

theorem length_serializeCovered (tp : TailPointer) :
    (serializeCovered tp).length = kChecksumCoverage := by
  simp only [serializeCovered, List.length_append, putFixed16, putFixed32, putFixed64, length_leBytes,
    length_putU8]
  rfl

theorem encodeTailPointer_eq (tp : TailPointer) : encodeTailPointer tp =
    .ok (serializeCovered tp ++ putFixed32 (crc32c (serializeCovered tp))) := by
  rw [encodeTailPointer]
  exact if_neg fun hne => hne (length_serializeCovered tp)

theorem reads_tailPointer {tp : TailPointer} (h : TailPointerOk tp) :
    Reads (readTailPointer (serializeCovered tp))
      (serializeCovered tp ++ putFixed32 (crc32c (serializeCovered tp))) tp := by
  have hcrc := crc32c_lt (serializeCovered tp)
  rw [readTailPointer]
  conv =>
    arg 2
    rw [serializeCovered]
  simp only [List.append_assoc]
  apply (reads_getFixed32 (show kTailMagic < 2 ^ 32 by decide)).bind
  apply Reads.if_neg (by simp)
  apply (reads_getFixed16 (show kFormatVersion < 2 ^ 16 by decide)).bind
  apply (reads_getFixed64 h.metaRegionOffset).bind
  apply (reads_getFixed64 h.metaRegionLength).bind
  apply (reads_getFixed64 h.hotOff).bind
  apply (reads_getFixed32 h.metaRegionChecksum).bind
  apply (reads_getFixed32 h.bootstrapHeaderChecksum).bind
  apply (reads_getU8 (show kFixedSize < 256 by decide)).bind
  apply Reads.if_neg (by simp)
  apply (reads_getFixed32 hcrc).bind_nil
  exact Reads.if_neg (by simp) (Reads.pure _)

theorem decodeTailPointer_encode {tp : TailPointer} (h : TailPointerOk tp) {bytes : Bytes}
    (hbytes : encodeTailPointer tp = .ok bytes) :
    bytes.length = tailPointerSize ∧ decodeTailPointer bytes = .ok tp := by
  rw [encodeTailPointer_eq] at hbytes
  cases hbytes
  have hlen : (serializeCovered tp ++ putFixed32 (crc32c (serializeCovered tp))).length =
      kFixedSize := by
    rw [List.length_append, length_serializeCovered, length_putFixed32]
    rfl
  refine ⟨hlen, ?_⟩
  have hcovered : subslice (serializeCovered tp ++ putFixed32 (crc32c (serializeCovered tp))) 0
      kChecksumCoverage = .ok (serializeCovered tp) := by
    rw [subslice, if_neg (by rw [hlen]; decide), List.drop_zero, ← length_serializeCovered tp,
      List.take_left]
  have hread := reads_tailPointer h []
  rw [List.append_nil] at hread
  rw [decodeTailPointer, if_neg (fun hne => hne hlen), hcovered, ok_bind, hread]
  rfl

end Snii.Format.ContainerEnds
