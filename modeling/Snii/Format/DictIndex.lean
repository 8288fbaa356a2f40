import Snii.Encoding.SectionFramer
import Snii.Format.DictBlock

/-!
# Finding a dictionary block

`sampled_term_index.cpp` and `dict_block_directory.cpp`: the first term of every
block, front-coded, and the place of every block in the file.
-/

namespace Snii.Format.DictIndex

open Snii.Lib.ByteReader Snii.Lib.SortedSearch Snii.Common
open Snii.Encoding.ByteSource Snii.Encoding.SectionFramer
open Snii.Format.Dict
open Snii.Format.FrqPrelude (bit hasBit)

/-! ## Sampled terms -/

/-- Terms front-coded one against the other. -/
def encodeKeys : Bytes → List Bytes → Bytes
  | _, [] => []
  | prev, t :: ts => writeTermKey t prev ++ encodeKeys t ts

/-- The first and the last sample, then all samples. -/
def sampledPayload (firstTerms : List Bytes) : Bytes :=
  putVarint32 (firstTerms.length % 2 ^ 32) ++
    match firstTerms.head?, firstTerms.getLast? with
    | some first, some last =>
        writeTermKey first [] ++ writeTermKey last [] ++ encodeKeys [] firstTerms
    | _, _ => []

/-- The first terms of the blocks in a frame of their type. -/
def finishSampledTermIndex (firstTerms : List Bytes) : Bytes :=
  writeSection SectionType.sampledTermIndex.code (sampledPayload firstTerms)

/-- One sampled term. -/
def readSample (prev : Bytes) : Source Bytes :=
  readFrontCoded (.corruption "sampled_term_index: prefix_len exceeds prev_term length") prev

/-- The terms behind `prev`. -/
def readSamples : Nat → Bytes → Source (List Bytes)
  | 0, _ => pure []
  | n + 1, prev => do
      let term ← readSample prev
      let rest ← readSamples n term
      pure (term :: rest)

/-- The samples behind the two bounds, which they must repeat. -/
def readSampledTerms (n : Nat) : Source (List Bytes) := do
  let minTerm ← readSample []
  let maxTerm ← readSample []
  let terms ← readSamples n []
  let done ← eof
  if done = false then
    throw (.corruption "sampled_term_index: payload contains trailing bytes")
  else if terms.head? ≠ some minTerm ∨ terms.getLast? ≠ some maxTerm then
    throw (.corruption "sampled_term_index: min/max inconsistent with sample_terms")
  else pure terms

/-- An empty index holds nothing behind its count. -/
def noSampledTerms : Source (List Bytes) := do
  let done ← eof
  if done = false then
    throw (.corruption "sampled_term_index: empty index contains trailing bytes")
  else pure []

/-- The count, then the terms. -/
def readSampledPayload : Source (List Bytes) := do
  let n ← getVarint32
  if n = 0 then noSampledTerms else readSampledTerms n

/-- The terms of a payload. -/
def parseSampledPayload (payload : Bytes) : Result (List Bytes) := do
  let (terms, _) ← readSampledPayload.run payload
  .ok terms

/-- `SampledTermIndexReader::open`. -/
def openSampledTermIndex (section_ : Bytes) : Result (List Bytes) :=
  openSection .sampledTermIndex
    (.invalidArgument "sampled_term_index: not a kSampledTermIndex section")
    parseSampledPayload section_

/-- The block whose first term is the last one not above the target. -/
def locate (sampleTerms : List Bytes) (target : Bytes) : Option Nat :=
  match sampleTerms.head? with
  | none => none
  | some first => if target < first then none else some (upperBound sampleTerms target - 1)

/-! ## Block directory -/

/-- An entry of the directory: where a dictionary block is and how it is stored. -/
structure BlockRef where
  offset : Nat := 0
  length : Nat := 0
  nEntries : Nat := 0
  flags : Nat := 0
  checksum : Nat := 0
  uncompLen : Nat := 0
deriving DecidableEq

/-- The flag bit of a compressed block. -/
def kZstd : Nat := 1

/-- Whether the block is compressed. -/
def BlockRef.zstd (ref : BlockRef) : Bool := hasBit ref.flags 0

/-- An entry; only a compressed block has a second length. -/
def encodeRef (ref : BlockRef) : Bytes :=
  putVarint64 ref.offset ++ putVarint64 ref.length ++ putVarint32 ref.nEntries ++
    putU8 ref.flags ++ putFixed32 ref.checksum ++
    if ref.zstd then putVarint64 ref.uncompLen else []

/-- The length of a compressed block once inflated. -/
def readUncompLen (flags : Nat) : Source Nat :=
  if hasBit flags 0 then getVarint64 else pure 0

/-- An entry. -/
def decodeRef : Source BlockRef := do
  let offset ← getVarint64
  let length ← getVarint64
  let nEntries ← getVarint32
  let flags ← getU8
  let checksum ← getFixed32
  let uncompLen ← readUncompLen flags
  pure { offset := offset, length := length, nEntries := nEntries, flags := flags
         checksum := checksum, uncompLen := uncompLen }

/-- The directory in a frame of its type. -/
def finishDictBlockDirectory (refs : List BlockRef) : Bytes :=
  writeSection SectionType.dictBlockDirectory.code
    (putVarint32 (refs.length % 2 ^ 32) ++ refs.flatMap encodeRef)

/-- The shortest entry, by which the stated count is checked. -/
def kMinRefBytes : Nat := 8

/-- The entries, as many as stated. -/
def readRefs : Source (List BlockRef) := do
  let n ← getVarint32
  let left ← remaining
  if n > left / kMinRefBytes then
    throw (.corruption "dict_block_directory: n_blocks exceeds payload capacity")
  else readN decodeRef n

/-- `DictBlockDirectoryReader::open`. -/
def openDictBlockDirectory (section_ : Bytes) : Result (List BlockRef) :=
  openSection .dictBlockDirectory
    (.invalidArgument "dict_block_directory: unexpected section type")
    (parseAll readRefs "dict_block_directory: trailing bytes in payload") section_

/-- The entry with an ordinal. -/
def getBlock (refs : List BlockRef) (ordinal : Nat) : Result BlockRef :=
  match refs[ordinal]? with
  | none => .error (.notFound "dict_block_directory: ordinal out of range")
  | some ref => .ok ref

/-! ## Round trips -/

theorem reads_samples {ts : List Bytes} (h : ∀ t ∈ ts, t.length < 2 ^ 32) (prev : Bytes) :
    Reads (readSamples ts.length prev) (encodeKeys prev ts) ts := by
  induction ts generalizing prev with
  | nil => exact Reads.pure []
  | cons t ts ih =>
      have ht := h t List.mem_cons_self
      have hts := ih (fun x hx => h x (List.mem_cons_of_mem _ hx)) t
      exact (reads_frontCoded ht _ prev).bind (hts.bind_nil (Reads.pure _))

theorem openSampledTermIndex_finish {ts : List Bytes} (h : ∀ t ∈ ts, t.length < 2 ^ 32)
    (hcount : ts.length < 2 ^ 32) (hsize : (sampledPayload ts).length < 2 ^ 64) :
    openSampledTermIndex (finishSampledTermIndex ts) = .ok ts := by
  refine openSection_write hsize ?_
  rw [parseSampledPayload, sampledPayload, Nat.mod_eq_of_lt hcount]
  cases hts : ts with
  | nil =>
      have hread := reads_getVarint32 (show 0 < 2 ^ 32 by decide)
      rw [readSampledPayload, List.length_nil, hread.run_bind]
      rfl
  | cons t rest =>
      rw [← hts]
      have hne : ts ≠ [] := by rw [hts]; exact List.cons_ne_nil _ _
      have hhead : ts.head? = some (ts.head hne) := List.head?_eq_some_head hne
      have hlast : ts.getLast? = some (ts.getLast hne) := List.getLast?_eq_some_getLast hne
      have hn : ts.length ≠ 0 := by rw [hts]; simp
      have hfirst := reads_frontCoded (h _ (List.head_mem hne))
        (.corruption "sampled_term_index: prefix_len exceeds prev_term length") []
      have hend := reads_frontCoded (h _ (List.getLast_mem hne))
        (.corruption "sampled_term_index: prefix_len exceeds prev_term length") []
      have hall := reads_samples h []
      simp only [hhead, hlast, List.append_assoc]
      rw [readSampledPayload, (reads_getVarint32 hcount).run_bind, if_neg hn, readSampledTerms,
        readSample, hfirst.run_bind, hend.run_bind, ← List.append_nil (encodeKeys [] ts),
        hall.run_bind, eof_run_bind]
      simp [hhead, hlast]

/-- The fields of a reference have the widths of the format. -/
structure RefOk (ref : BlockRef) : Prop where
  offset : ref.offset < 2 ^ 64
  length : ref.length < 2 ^ 64
  nEntries : ref.nEntries < 2 ^ 32
  flags : ref.flags < 256
  checksum : ref.checksum < 2 ^ 32
  uncompLen : ref.uncompLen < 2 ^ 64
  unset : ref.zstd = false → ref.uncompLen = 0

theorem reads_ref {ref : BlockRef} (h : RefOk ref) : Reads decodeRef (encodeRef ref) ref := by
  rw [encodeRef]
  simp only [List.append_assoc]
  refine (reads_getVarint64 h.offset).bind ((reads_getVarint64 h.length).bind
    ((reads_getVarint32 h.nEntries).bind ((reads_getU8 h.flags).bind
      ((reads_getFixed32 h.checksum).bind ?_))))
  cases hz : ref.zstd with
  | true =>
      rw [BlockRef.zstd] at hz
      rw [readUncompLen, hz]
      exact (reads_getVarint64 h.uncompLen).bind_nil (Reads.pure _)
  | false =>
      have hunset := h.unset hz
      rw [BlockRef.zstd] at hz
      rw [readUncompLen, hz]
      refine (Reads.pure 0).bind ?_
      rw [← hunset]
      exact Reads.pure _

theorem kMinRefBytes_le (ref : BlockRef) : kMinRefBytes ≤ (encodeRef ref).length := by
  have hpos : ∀ v, 0 < (putVarint64 v).length := fun v =>
    List.length_pos_iff.mpr (Encoding.Varint.encodeVarint64_ne_nil v)
  have h1 := hpos ref.offset
  have h2 := hpos ref.length
  have h3 : 0 < (putVarint32 ref.nEntries).length := hpos ref.nEntries
  rw [encodeRef]
  simp only [List.length_append, length_putU8, length_putFixed32, kMinRefBytes]
  omega

theorem openDictBlockDirectory_finish {refs : List BlockRef} (h : ∀ ref ∈ refs, RefOk ref)
    (hcount : refs.length < 2 ^ 32)
    (hsize : (putVarint32 (refs.length % 2 ^ 32) ++ refs.flatMap encodeRef).length < 2 ^ 64) :
    openDictBlockDirectory (finishDictBlockDirectory refs) = .ok refs := by
  have hmin : kMinRefBytes * refs.length ≤ (refs.flatMap encodeRef).length := by
    clear h hcount hsize
    induction refs with
    | nil => exact Nat.le_refl _
    | cons ref refs ih =>
        have hone := kMinRefBytes_le ref
        rw [List.flatMap_cons, List.length_append, List.length_cons, Nat.mul_succ]
        omega
  refine openSection_write hsize ?_
  rw [Nat.mod_eq_of_lt hcount]
  have hall := Reads.readN fun ref href => reads_ref (h ref href)
  refine parseAll_of_reads ((reads_getVarint32 hcount).bind (reads_remaining_bind ?_)) _
  intro left hleft
  refine Reads.if_neg ?_ hall
  rw [Nat.not_lt, Nat.le_div_iff_mul_le (by decide), Nat.mul_comm]
  exact hmin.trans hleft

end Snii.Format.DictIndex
