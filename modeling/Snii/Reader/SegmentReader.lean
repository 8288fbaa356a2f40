import Snii.Format.ContainerEnds
import Snii.Format.TailMeta
import Snii.Reader.LogicalIndexReader

/-!
# Opening a container

`snii_segment_reader.cpp`: the header and the tail pointer lead to the meta region,
which leads to each index by its key.  Tier and positions of an index are inferred
from its flags and the length of its norms.
-/

namespace Snii.Reader

open Snii.Lib.ByteReader Snii.Common Snii.Io.FileReader Snii.Encoding.Crc32c
open Snii.Format.ContainerEnds Snii.Format.TailMeta Snii.Format.Dict
open Snii.Format.PerIndexMeta (IndexMeta openMeta)

/-- An opened container. -/
structure SniiSegmentReader where
  file : Bytes
  region : TailMetaRegionReader

/-- The header at the start of the file. -/
def readBootstrap (file : Bytes) : Result BootstrapHeader := do
  let buf ← readAt file 0 kBootstrapHeaderSize
  decodeBootstrapHeader buf

/-- The pointer at its end. -/
def readTail (file : Bytes) : Result TailPointer :=
  if file.length < tailPointerSize then
    .error (.corruption "segment: file smaller than tail pointer")
  else do
    let buf ← readAt file (file.length - tailPointerSize) tailPointerSize
    decodeTailPointer buf

/-- `SniiSegmentReader::open`: header, pointer, metadata region and its checksum. -/
def SniiSegmentReader.open (file : Bytes) : Result SniiSegmentReader := do
  let _ ← readBootstrap file
  let tp ← readTail file
  if tp.metaRegionLength = 0 then .error (.corruption "segment: empty tail meta region")
  else
    let metaRegion ← readAt file tp.metaRegionOffset tp.metaRegionLength
    if crc32c metaRegion ≠ tp.metaRegionChecksum then
      .error (.corruption "segment: meta region checksum mismatch")
    else
      let region ← TailMetaRegionReader.open metaRegion
      .ok { file := file, region := region }

/-- The tier, from what the index has. -/
def inferTier (hasNorms hasPositions : Bool) : IndexTier :=
  if hasNorms then .t3 else if hasPositions then .t2 else .t1

/-- `open_index`: the metadata block under the key, then the index. -/
def SniiSegmentReader.openIndex (env : ReadEnv) (s : SniiSegmentReader) (indexId : Nat)
    (suffix : Bytes) : Result LogicalIndexReader := do
  let found ← s.region.find indexId suffix
  match found with
  | none => .error (.notFound "segment: logical index not found")
  | some metaBytes =>
      let m ← openMeta metaBytes
      let hasNorms := decide (m.sectionRefs.norms.length > 0)
      let hasPositions := m.hasPositions || hasNorms
      openIndexReader env s.file (inferTier hasNorms hasPositions) hasPositions metaBytes

end Snii.Reader
