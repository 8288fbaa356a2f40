import Snii.Format.Bsbf
import Snii.Format.DictBlock
import Snii.Format.DictIndex
import Snii.Format.PerIndexMeta

/-!
# Reading an index

`logical_index_reader.cpp`: opening the metadata of an index, finding a term by the
filter, the sampled terms and one dictionary block, and enumerating a prefix block by
block.  Offsets are 64-bit numbers and wrap.
-/

namespace Snii.Reader

open Snii.Lib.ByteReader Snii.Common Snii.Io.FileReader
open Snii.Encoding.Compression Snii.Encoding.Crc32c
open Snii.Format.Dict Snii.Format.DictBlock Snii.Format.DictIndex Snii.Format.Bsbf
open Snii.Format.PerIndexMeta (IndexMeta RegionRef SectionRefs StatsBlock openMeta)

/-- The cap on an inflated dictionary block. -/
def kMaxDictBlockUncompBytes : Nat := 256 * 1024 * 1024

/-- The libraries, and the size up to which the filter is kept in memory. -/
structure ReadEnv where
  zstd : Zstd
  bsbf : BsbfParams
  bsbfResidentMaxBytes : Nat

/-- A filter: its header, and its bits where they are kept in memory. -/
structure BsbfSection where
  header : BsbfHeader
  resident : Option Bytes

/-- An opened index: its metadata and, over the file, where everything else is. -/
structure LogicalIndexReader where
  file : Bytes
  tier : IndexTier
  hasPositions : Bool
  indexMeta : IndexMeta
  sampleTerms : List Bytes
  blockRefs : List BlockRef
  bsbf : Option BsbfSection

namespace LogicalIndexReader

/-- Its sections. -/
def sectionRefs (idx : LogicalIndexReader) : SectionRefs := idx.indexMeta.sectionRefs

/-- Its statistics. -/
def stats (idx : LogicalIndexReader) : StatsBlock := idx.indexMeta.stats

end LogicalIndexReader

/-! ## Opening -/

/-- The bits of a resident filter, if their checksum is the header's. -/
def residentBits (head : Bytes) (h : BsbfHeader) : Result (Option Bytes) :=
  let bitset := (head.drop kBsbfHeaderSize).take h.numBytes
  if crc32c bitset ≠ h.bitsetCrc then
    .error (.corruption "logical_index: bsbf bitset crc mismatch")
  else .ok (some bitset)

/-- The filter: its header, and its bits where they are to be resident. -/
def openBsbf (env : ReadEnv) (file : Bytes) (ref : RegionRef) : Result (Option BsbfSection) :=
  if ref.length > 0 then
    if ref.length ≤ kBsbfHeaderSize then
      .error (.corruption "logical_index: bsbf section too small")
    else do
      let resident := decide (ref.length ≤ env.bsbfResidentMaxBytes)
      let head ← readAt file ref.offset (if resident then ref.length else kBsbfHeaderSize)
      let header ← parseBsbfHeader (head.take kBsbfHeaderSize) ref.offset
      if header.numBytes ≠ ref.length - kBsbfHeaderSize then
        .error (.corruption "logical_index: bsbf header/section size mismatch")
      else
        let bits ← (if resident then residentBits head header else .ok none)
        pure (some { header := header, resident := bits })
  else .ok none

/-- `LogicalIndexReader::open`. -/
def openIndexReader (env : ReadEnv) (file : Bytes) (tier : IndexTier) (hasPositions : Bool)
    (metaBlock : Bytes) : Result LogicalIndexReader := do
  let m ← openMeta metaBlock
  let sampleTerms ← openSampledTermIndex m.sampledTermIndex
  let blockRefs ← openDictBlockDirectory m.dictBlockDirectory
  let bsbf ← openBsbf env file m.sectionRefs.bsbf
  pure { file := file, tier := tier, hasPositions := hasPositions, indexMeta := m
         sampleTerms := sampleTerms, blockRefs := blockRefs, bsbf := bsbf }

/-! ## Terms -/

/-- The filter's answer: in memory, or from one block of the file. -/
def probeBsbf (env : ReadEnv) (idx : LogicalIndexReader) (term : Bytes) : Result Bool :=
  match idx.bsbf with
  | none => .ok true
  | some s =>
      let hash := bsbfHash env.bsbf term
      match s.resident with
      | some bits =>
          .ok (bsbfBlockContains hash
            (bits.drop (bsbfBlockIndex hash s.header.numBlocks * kBsbfBytesPerBlock)))
      | none => bsbfProbe idx.file s.header hash

/-- The plain bytes of a dictionary block. -/
def inflateBlock (env : ReadEnv) (ref : BlockRef) (disk : Bytes) : Result Bytes :=
  if ref.zstd then
    if ref.uncompLen = 0 ∨ ref.uncompLen > kMaxDictBlockUncompBytes then
      .error (.corruption "dict block: zstd uncomp_len out of range")
    else zstdDecompress env.zstd disk ref.uncompLen
  else .ok disk

/-- A dictionary block, read, inflated and opened. -/
def loadBlock (env : ReadEnv) (idx : LogicalIndexReader) (ref : BlockRef) :
    Result DictBlockReader := do
  let disk ← readAt idx.file ref.offset ref.length
  let plain ← inflateBlock env ref disk
  openBlock plain idx.tier idx.hasPositions

/-- The entry of a term with the bases of its block, if the term is there. -/
def lookup (env : ReadEnv) (idx : LogicalIndexReader) (term : Bytes) : Result (Option Resolved) := do
  let maybe ← probeBsbf env idx term
  if maybe then
    match locate idx.sampleTerms term with
    | none => pure none
    | some ordinal =>
        let ref ← getBlock idx.blockRefs ordinal
        let br ← loadBlock env idx ref
        let hit ← br.findTerm term
        pure (hit.map fun e => { entry := e, frqBase := br.frqBase, prxBase := br.prxBase })
  else pure none

/-- The entries of a block with the prefix; `false` ends the enumeration. -/
def takePrefix (pre : Bytes) : List DictEntry → List DictEntry × Bool
  | [] => ([], true)
  | e :: es =>
      if e.term < pre then takePrefix pre es
      else if pre.isPrefixOf e.term then
        let (hits, more) := takePrefix pre es
        (e :: hits, more)
      else ([], false)

/-- The entries under a prefix, block after block until one ends past it. -/
def prefixBlocks (env : ReadEnv) (idx : LogicalIndexReader) (pre : Bytes) :
    List BlockRef → Result (List Resolved)
  | [] => .ok []
  | ref :: refs => do
      let br ← loadBlock env idx ref
      let entries ← br.decodeAll
      let (hits, more) := takePrefix pre entries
      let here := hits.map fun e =>
        ({ entry := e, frqBase := br.frqBase, prxBase := br.prxBase } : Resolved)
      if more then
        let rest ← prefixBlocks env idx pre refs
        pure (here ++ rest)
      else pure here

/-- `prefix_terms`. -/
def prefixTerms (env : ReadEnv) (idx : LogicalIndexReader) (pre : Bytes) : Result (List Resolved) :=
  let start := if pre = [] then 0 else (locate idx.sampleTerms pre).getD 0
  prefixBlocks env idx pre (idx.blockRefs.drop start)

/-! ## Windows of the posting region -/

/-- The absolute range behind the prelude, if the locator lies in the region. -/
def resolveWindow (ref : RegionRef) (base offDelta totalLen preludeLen : Nat) :
    Result (Nat × Nat) :=
  if preludeLen > totalLen then
    .error (.corruption "logical_index: prelude_len exceeds window len")
  else
    let inRegion := (base + offDelta) % 2 ^ 64
    if inRegion < base then .error (.corruption "logical_index: locator overflow")
    else if inRegion > ref.length ∨ totalLen > ref.length - inRegion then
      .error (.corruption "logical_index: window past posting region")
    else .ok ((ref.offset + inRegion + preludeLen) % 2 ^ 64, totalLen - preludeLen)

/-- An entry's docids and freqs in the file. -/
def resolveFrqWindow (idx : LogicalIndexReader) (e : DictEntry) (frqBase : Nat) :
    Result (Nat × Nat) :=
  resolveWindow idx.sectionRefs.postingRegion frqBase e.frqOffDelta e.frqLen e.preludeLen

/-- An entry's positions in the file. -/
def resolvePrxWindow (idx : LogicalIndexReader) (e : DictEntry) (prxBase : Nat) :
    Result (Nat × Nat) :=
  resolveWindow idx.sectionRefs.postingRegion prxBase e.prxOffDelta e.prxLen 0

end Snii.Reader
