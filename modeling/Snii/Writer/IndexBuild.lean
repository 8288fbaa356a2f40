import Snii.Format.Bsbf
import Snii.Format.DictBlock
import Snii.Format.DictIndex
import Snii.Format.PerIndexMeta
import Snii.Writer.PostingEntry
import Snii.Writer.SpillableByteBuffer

/-!
# Building an index

`LogicalIndexWriter::build` of `logical_index_writer.cpp`: terms pass one by one, their
entries collect in a dictionary block, and a block that reached the target size is
serialized into the dictionary buffer.  The posting region streams out meanwhile.
-/

namespace Snii.Writer.LogicalIndexWriter

open Snii.Lib.ByteReader Snii.Common Snii.Writer.SpillRunCodec
open Snii.Encoding.Compression Snii.Encoding.Crc32c Snii.Format.Dict Snii.Format.DictBlock
open Snii.Format.DictIndex Snii.Format.Bsbf
open Snii.Format.PerIndexMeta (StatsBlock RegionRef SectionRefs IndexMeta finishNormsPod)

/-- The level at which dictionary blocks are compressed. -/
def kDictBlockZstdLevel : Int := 3

/-- The size at which a block is cut where the caller names none. -/
def kDefaultTargetDictBlockBytes : Nat := 64 * 1024

/-- Where the terms come from: a vector, or a drained buffer with the drain's status. -/
inductive TermSource where
  | terms (terms : List Emitted)
  | drained (status : Result Unit) (terms : List Emitted)

/-- What a caller hands over for one index. -/
structure SniiIndexInput where
  indexId : Nat := 0
  indexSuffix : Bytes := []
  config : IndexConfig := .docsPositions
  docCount : Nat := 0
  encodedNorms : Bytes := []
  source : TermSource := .terms []
  targetDictBlockBytes : Nat := 0

/-- The libraries, and the reporter's answer to each append of the dictionary buffer. -/
structure BuildEnv where
  zstd : Zstd
  bsbf : BsbfParams
  overCap : Nat → Bool

namespace SniiIndexInput

/-- The tier of its configuration. -/
def tier (i : SniiIndexInput) : IndexTier := tierOf i.config

/-- Whether positions are kept. -/
def hasPrx (i : SniiIndexInput) : Bool := hasPositions i.config

/-- Whether freqs are kept. -/
def hasFreq (i : SniiIndexInput) : Bool := i.tier ≠ .t1

/-- Whether norms are written. -/
def hasNorms (i : SniiIndexInput) : Bool := hasScoring i.config

/-- The size at which a block is cut. -/
def target (i : SniiIndexInput) : Nat :=
  if i.targetDictBlockBytes ≠ 0 then i.targetDictBlockBytes else kDefaultTargetDictBlockBytes

/-- What the entries need to know of the input. -/
def entryConfig (i : SniiIndexInput) : EntryConfig :=
  { hasFreq := i.hasFreq, hasPrx := i.hasPrx, norms := i.encodedNorms }

end SniiIndexInput

/-! ## Blocks -/

/-- What is kept of a block that was written. -/
structure BlockRecord where
  relOffset : Nat := 0
  length : Nat := 0
  nEntries : Nat := 0
  checksum : Nat := 0
  flags : Nat := 0
  uncompLen : Nat := 0
  firstTerm : Bytes := []

/-- A block as it is stored: compressed if that makes it smaller. -/
def packBlock (z : Zstd) (plain : Bytes) : Bytes × Nat × Nat :=
  match zstdCompress z plain kDictBlockZstdLevel with
  | .ok comp => if comp.length < plain.length then (comp, kZstd, plain.length) else (plain, 0, 0)
  | .error _ => (plain, 0, 0)

/-- The members of the writer that change while terms pass, and the open block. -/
structure WriterState where
  dictBuf : SpillableByteBuffer := {}
  blocks : List BlockRecord := []
  termHashes : List Nat := []
  termCount : Nat := 0
  sumTotalTermFreq : Nat := 0
  block : Option DictBlockBuilder := none
  blockFirstTerm : Bytes := []

/-- Serializes the block into the dictionary buffer and records it. -/
def flushBlock (env : BuildEnv) (block : DictBlockBuilder) (firstTerm : Bytes) (st : WriterState) :
    WriterState :=
  let plain := block.finish
  let (disk, flags, uncompLen) := packBlock env.zstd plain
  let record : BlockRecord :=
    { relOffset := st.dictBuf.size, nEntries := block.nEntries % 2 ^ 32, checksum := crc32c plain
      firstTerm := firstTerm, flags := flags, uncompLen := uncompLen, length := disk.length }
  { st with
    dictBuf := st.dictBuf.appendMove (env.overCap st.blocks.length) disk
    blocks := st.blocks ++ [record] }

/-- The open block; where there is none, a new one whose bases are the region's size. -/
def openBlockAt (i : SniiIndexInput) (term : Bytes) (base : Nat) (st : WriterState) :
    DictBlockBuilder × Bytes :=
  match st.block with
  | some block => (block, st.blockFirstTerm)
  | none => (newBuilder i.tier i.hasPrx base base, term)

/-- The end of `process_term`: the entry joins the block, which may be full. -/
def addToBlock (env : BuildEnv) (i : SniiIndexInput) (block : DictBlockBuilder) (firstTerm : Bytes)
    (e : DictEntry) (st : WriterState) : WriterState :=
  let block := block.addEntry e
  if block.estimatedBytes ≥ i.target then { flushBlock env block firstTerm st with block := none }
  else { st with block := some block, blockFirstTerm := firstTerm }

/-- One term: checks, statistics, its entry into the open block. -/
def processTerm (env : BuildEnv) (i : SniiIndexInput) (st : WriterState) (tp : Emitted) :
    Posting WriterState := do
  check (validateTerm i.hasPrx tp.postings)
  let st := { st with
    termHashes := st.termHashes ++ [bsbfHash env.bsbf tp.postings.term]
    termCount := st.termCount + 1
    sumTotalTermFreq := (st.sumTotalTermFreq + tp.postings.freqs.sum) % 2 ^ 64 }
  let base ← postingSize
  let (block, firstTerm) := openBlockAt i tp.postings.term base st
  let e ← buildEntry env.zstd i.entryConfig tp block.frqBase block.prxBase
  pure (addToBlock env i block firstTerm e st)

/-- The terms one by one, up to the first that fails. -/
def processTerms (env : BuildEnv) (i : SniiIndexInput) : WriterState → List Emitted →
    Posting WriterState
  | st, [] => pure st
  | st, tp :: rest => do
      let st ← processTerm env i st tp
      processTerms env i st rest

/-- The last block, which need not be full. -/
def flushOpen (env : BuildEnv) (st : WriterState) : WriterState :=
  match st.block with
  | some block => { flushBlock env block st.blockFirstTerm st with block := none }
  | none => st

/-- A failed drain is reported before a failed term; what was appended stays. -/
def afterDrain {α : Type} (status : Result Unit) (body : Posting α) : Posting α := fun region =>
  match status, body region with
  | .ok (), r => r
  | .error e, .ok _ region => .error e region
  | .error e, .error _ region => .error e region

/-- The terms of either source. -/
def consumeTerms (env : BuildEnv) (i : SniiIndexInput) : Posting WriterState :=
  match i.source with
  | .terms terms => processTerms env i {} terms
  | .drained status terms => afterDrain status (processTerms env i {} terms)

/-- All terms, then the block left open. -/
def buildBlocks (env : BuildEnv) (i : SniiIndexInput) : Posting WriterState := do
  let st ← consumeTerms env i
  pure (flushOpen env st)

/-! ## The whole build -/

/-- A writer after a successful build. -/
structure BuiltIndex where
  input : SniiIndexInput
  dictBuf : SpillableByteBuffer
  blocks : List BlockRecord
  stats : StatsBlock
  normsSection : Bytes
  bsbfBytes : Bytes

/-- The filter over the terms' hashes; none where there are no terms. -/
def buildBsbf (p : BsbfParams) (hashes : List Nat) : Result Bytes :=
  if hashes = [] then .ok []
  else (hashes.foldl BsbfBuilder.insert (createBsbf p (hashes.length % 2 ^ 32))).serialize

/-- `LogicalIndexWriter::build`: the blocks, the statistics, the norms and the filter. -/
def build (env : BuildEnv) (i : SniiIndexInput) : Posting BuiltIndex := do
  if i.hasNorms ∧ i.encodedNorms.length ≠ i.docCount then
    throw (.invalidArgument "logical_index: norms length must equal doc_count")
  let st ← buildBlocks env i
  let bsbf ← check (buildBsbf env.bsbf st.termHashes)
  pure { input := i, dictBuf := st.dictBuf, blocks := st.blocks
         stats := { docCount := i.docCount, indexedDocCount := i.docCount
                    termCount := st.termCount, sumTotalTermFreq := st.sumTotalTermFreq
                    nullCount := 0 }
         normsSection := if i.hasNorms then finishNormsPod i.encodedNorms else []
         bsbfBytes := bsbf }

/-! ## The index's metadata -/

/-- A block's entry in the directory, at its place in the file. -/
def blockRef (dictRegionOffset : Nat) (b : BlockRecord) : BlockRef :=
  { offset := dictRegionOffset + b.relOffset, length := b.length, nEntries := b.nEntries
    flags := b.flags, checksum := b.checksum, uncompLen := b.uncompLen }

namespace BuiltIndex

/-- Whether there is a filter. -/
def hasBsbf (w : BuiltIndex) : Bool := w.bsbfBytes ≠ []

/-- The flags of the metadata block. -/
def metaFlags (w : BuiltIndex) : Nat :=
  (if w.hasBsbf then Format.PerIndexMeta.kHasBsbf else 0) +
    if w.input.hasPrx then Format.PerIndexMeta.kHasPositions else 0

/-- What `finish_meta` puts into the metadata block. -/
def indexMeta (w : BuiltIndex) (refs : SectionRefs) (dictRegionOffset : Nat) : IndexMeta :=
  { indexId := w.input.indexId, indexSuffix := w.input.indexSuffix, flags := w.metaFlags
    stats := w.stats
    sampledTermIndex := finishSampledTermIndex (w.blocks.map BlockRecord.firstTerm)
    dictBlockDirectory := finishDictBlockDirectory (w.blocks.map (blockRef dictRegionOffset))
    sectionRefs := refs }

/-- `finish_meta`, once the places of the sections are known. -/
def finishMeta (w : BuiltIndex) (refs : SectionRefs) (dictRegionOffset : Nat) : Bytes :=
  Format.PerIndexMeta.finishMeta (w.indexMeta refs dictRegionOffset)

end BuiltIndex

end Snii.Writer.LogicalIndexWriter
