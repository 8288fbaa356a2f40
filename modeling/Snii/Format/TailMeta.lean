import Snii.Encoding.SectionFramer

/-!
# Tail meta region

`logical_index_directory.cpp` and `tail_meta_region.cpp`: the per-index meta blocks of
a container with the directory that maps `(index_id, suffix)` to them.  What the
builder writes is found again, and a region of arbitrary bytes is never left as long
as the two 64-bit sums that bound a sub-slice do not wrap.
-/

namespace Snii.Format.TailMeta

open Snii.Lib.ByteReader Snii.Common
open Snii.Encoding.ByteSource Snii.Encoding.Crc32c Snii.Encoding.SectionFramer

/-! ## Logical index directory -/

/-- An entry of the directory: the key of an index and where its metadata block is. -/
structure LogicalIndexRef where
  indexId : Nat
  indexSuffix : Bytes
  metaOff : Nat
  metaLen : Nat
deriving DecidableEq

/-- The shortest entry, by which the stated count is checked. -/
def kMinEntryBytes : Nat := 4

/-- An entry of the directory. -/
def encodeEntry (ref : LogicalIndexRef) : Bytes :=
  putVarint64 ref.indexId ++ putVarint32 (ref.indexSuffix.length % 2 ^ 32) ++ ref.indexSuffix ++
    putVarint64 ref.metaOff ++ putVarint64 ref.metaLen

/-- An entry; the suffix must be there. -/
def decodeEntry : Source LogicalIndexRef := do
  let indexId ← getVarint64
  let suffixLen ← getVarint32
  let left ← remaining
  if suffixLen > left then
    throw (.corruption "logical_index_directory: suffix_len exceeds payload")
  else
    let suffix ← getBytes suffixLen
    let metaOff ← getVarint64
    let metaLen ← getVarint64
    pure { indexId := indexId, indexSuffix := suffix, metaOff := metaOff, metaLen := metaLen }

/-- The entries, as many as stated. -/
def readEntries : Source (List LogicalIndexRef) := do
  let nEntries ← getVarint32
  let left ← remaining
  if nEntries > left / kMinEntryBytes then
    throw (.corruption "logical_index_directory: n_entries exceeds payload capacity")
  else readN decodeEntry nEntries

/-- The directory in a frame of its type. -/
def finishDirectory (refs : List LogicalIndexRef) : Bytes :=
  writeSection SectionType.logicalIndexDirectory.code
    (putVarint32 (refs.length % 2 ^ 32) ++ refs.flatMap encodeEntry)

/-- The directory of a frame, which nothing may follow inside it. -/
def openDirectory (framed : Bytes) : Result (List LogicalIndexRef) :=
  openSection .logicalIndexDirectory
    (.invalidArgument "logical_index_directory: unexpected section type")
    (parseAll readEntries "logical_index_directory: trailing bytes in payload") framed

/-- The first entry under the key. -/
def findRef (refs : List LogicalIndexRef) (indexId : Nat) (suffix : Bytes) :
    Option LogicalIndexRef :=
  refs.find? fun ref => ref.indexId = indexId ∧ ref.indexSuffix = suffix

/-! ## The region -/

/-- The version that is written. -/
def kMetaFormatVersion : Nat := 1

/-- The part of the header that its checksum covers. -/
def kHeaderFields : Nat := 36

/-- The header with its checksum. -/
def kHeaderSize : Nat := kHeaderFields + 4

/-- The checksum at the end of the region. -/
def kRegionChecksumSize : Nat := 4

/-- The header of the region. -/
structure TailMetaHeader where
  version : Nat
  flags : Nat
  metaRegionLen : Nat
  nLogicalIndexes : Nat
  directoryOffset : Nat
  directoryLength : Nat
deriving DecidableEq

/-- The header with its checksum. -/
def encodeHeader (h : TailMetaHeader) : Bytes :=
  putFixed32 h.version ++ putFixed32 h.flags ++ putFixed64 h.metaRegionLen ++
    putFixed32 h.nLogicalIndexes ++ putFixed64 h.directoryOffset ++ putFixed64 h.directoryLength

/-- The fields of the header in their order. -/
def readHeader : Source TailMetaHeader := do
  let version ← getFixed32
  let flags ← getFixed32
  let metaRegionLen ← getFixed64
  let n ← getFixed32
  let directoryOffset ← getFixed64
  let directoryLength ← getFixed64
  pure { version := version, flags := flags, metaRegionLen := metaRegionLen
         nLogicalIndexes := n, directoryOffset := directoryOffset
         directoryLength := directoryLength }

/-- A per-index meta block under its key. -/
structure MetaEntry where
  indexId : Nat
  suffix : Bytes
  bytes : Bytes
deriving DecidableEq

/-- The directory entries of blocks laid out from `offset` on. -/
def layoutRefs (offset : Nat) : List MetaEntry → List LogicalIndexRef
  | [] => []
  | e :: es =>
      { indexId := e.indexId, indexSuffix := e.suffix, metaOff := offset
        metaLen := e.bytes.length } :: layoutRefs (offset + e.bytes.length) es

/-- The metadata blocks one after the other. -/
def metaBlocks (entries : List MetaEntry) : Bytes := entries.flatMap MetaEntry.bytes

/-- The header over some metadata blocks and their directory. -/
def regionHeader (entries : List MetaEntry) : TailMetaHeader :=
  let directoryOffset := kHeaderSize + (metaBlocks entries).length
  let directoryLength := (finishDirectory (layoutRefs kHeaderSize entries)).length
  { version := kMetaFormatVersion, flags := 0
    metaRegionLen := directoryOffset + directoryLength + kRegionChecksumSize
    nLogicalIndexes := entries.length % 2 ^ 32
    directoryOffset := directoryOffset, directoryLength := directoryLength }

/-- The region without its trailing checksum. -/
def regionBody (entries : List MetaEntry) : Bytes :=
  let fields := encodeHeader (regionHeader entries)
  fields ++ putFixed32 (crc32c fields) ++ metaBlocks entries ++
    finishDirectory (layoutRefs kHeaderSize entries)

/-- `TailMetaRegionBuilder::finish`. -/
def finishRegion (entries : List MetaEntry) : Bytes :=
  regionBody entries ++ putFixed32 (crc32c (regionBody entries))

/-- An opened region with its directory. -/
structure TailMetaRegionReader where
  region : Bytes
  dir : List LogicalIndexRef
  n : Nat
deriving DecidableEq

/-- `TailMetaRegionReader::open` up to the directory's bounds. -/
def openHeader (region : Bytes) : Result TailMetaHeader :=
  if region.length < kHeaderSize + kRegionChecksumSize then
    .error (.corruption "tail_meta_region: region too short")
  else do
    let covered := region.length - kRegionChecksumSize
    let cs ← subslice region covered kRegionChecksumSize
    let (regionCrc, _) ← getFixed32.run cs
    let body ← subslice region 0 covered
    if crc32c body ≠ regionCrc then
      .error (.corruption "tail_meta_region: meta_region_checksum mismatch")
    else
      let hs ← subslice region 0 kHeaderFields
      let (h, _) ← readHeader.run hs
      let hc ← subslice region kHeaderFields 4
      let (headerCrc, _) ← getFixed32.run hc
      let fields ← subslice region 0 kHeaderFields
      if crc32c fields ≠ headerCrc then
        .error (.corruption "tail_meta_region: header crc mismatch")
      else if h.version ≠ kMetaFormatVersion then
        .error (.unsupported "tail_meta_region: unsupported meta_format_version")
      else if h.metaRegionLen ≠ region.length then
        .error (.corruption "tail_meta_region: declared length mismatch")
      else .ok h

/-- The rest of `open`: the directory's bounds are compared after a 64-bit addition. -/
def openEntries (region : Bytes) (h : TailMetaHeader) : Result TailMetaRegionReader :=
  if (h.directoryOffset + h.directoryLength) % 2 ^ 64 > region.length ∨
      h.directoryOffset < kHeaderSize then
    .error (.corruption "tail_meta_region: directory out of range")
  else do
    let framed ← subslice region h.directoryOffset h.directoryLength
    let dir ← openDirectory framed
    if dir.length % 2 ^ 32 ≠ h.nLogicalIndexes then
      .error (.corruption "tail_meta_region: directory size mismatch")
    else .ok { region := region, dir := dir, n := h.nLogicalIndexes }

/-- Checksum and header, then the directory. -/
def TailMetaRegionReader.open (region : Bytes) : Result TailMetaRegionReader :=
  openHeader region >>= openEntries region

/-- The meta block under a key, if there is one. -/
def TailMetaRegionReader.find (r : TailMetaRegionReader) (indexId : Nat) (suffix : Bytes) :
    Result (Option Bytes) :=
  match findRef r.dir indexId suffix with
  | none => .ok none
  | some ref =>
      if (ref.metaOff + ref.metaLen) % 2 ^ 64 > r.region.length then
        .error (.corruption "tail_meta_region: meta block out of range")
      else (subslice r.region ref.metaOff ref.metaLen).map some

/-! ## Round trip -/

/-- The widths of the format hold an entry. -/
structure RefOk (ref : LogicalIndexRef) : Prop where
  indexId : ref.indexId < 2 ^ 64
  suffix : ref.indexSuffix.length < 2 ^ 32
  metaOff : ref.metaOff < 2 ^ 64
  metaLen : ref.metaLen < 2 ^ 64

/-- A directory entry reads back. -/
theorem reads_entry {ref : LogicalIndexRef} (h : RefOk ref) :
    Reads decodeEntry (encodeEntry ref) ref := by
  rw [encodeEntry, Nat.mod_eq_of_lt h.suffix]
  simp only [List.append_assoc]
  apply (reads_getVarint64 h.indexId).bind
  apply (reads_getVarint32 h.suffix).bind
  apply reads_remaining_bind
  intro left hleft
  apply Reads.if_neg
  · rw [List.length_append] at hleft
    omega
  · exact (reads_getBytes _).bind ((reads_getVarint64 h.metaOff).bind
      ((reads_getVarint64 h.metaLen).bind_nil (Reads.pure _)))

/-- None is shorter than the minimum. -/
theorem kMinEntryBytes_le (ref : LogicalIndexRef) :
    kMinEntryBytes ≤ (encodeEntry ref).length := by
  have hpos : ∀ v, 0 < (putVarint64 v).length := fun v =>
    List.length_pos_iff.mpr (Encoding.Varint.encodeVarint64_ne_nil v)
  have h1 := hpos ref.indexId
  have h2 : 0 < (putVarint32 (ref.indexSuffix.length % 2 ^ 32)).length := hpos _
  have h3 := hpos ref.metaOff
  have h4 := hpos ref.metaLen
  rw [encodeEntry]
  simp only [List.length_append, kMinEntryBytes]
  omega

/-- **The directory** opens to its entries. -/
theorem openDirectory_finish {refs : List LogicalIndexRef} (h : ∀ ref ∈ refs, RefOk ref)
    (hcount : refs.length < 2 ^ 32) (hsize : (finishDirectory refs).length < 2 ^ 64) :
    openDirectory (finishDirectory refs) = .ok refs := by
  have hmin : kMinEntryBytes * refs.length ≤ (refs.flatMap encodeEntry).length := by
    clear h hcount hsize
    induction refs with
    | nil => exact Nat.le_refl _
    | cons ref refs ih =>
        have hone := kMinEntryBytes_le ref
        rw [List.flatMap_cons, List.length_append, List.length_cons, Nat.mul_succ]
        omega
  apply openSection_write
  · rw [finishDirectory, writeSection, frameBody] at hsize
    simp only [List.length_append] at hsize ⊢
    omega
  · rw [Nat.mod_eq_of_lt hcount]
    have hall := Reads.readN fun ref href => reads_entry (h ref href)
    apply parseAll_of_reads
    apply (reads_getVarint32 hcount).bind
    apply reads_remaining_bind
    intro left hleft
    apply Reads.if_neg _ hall
    rw [Nat.not_lt, Nat.le_div_iff_mul_le (by decide), Nat.mul_comm]
    exact hmin.trans hleft

@[simp] theorem length_encodeHeader (h : TailMetaHeader) :
    (encodeHeader h).length = kHeaderFields := rfl

/-- The fields have the widths of the format. -/
structure HeaderOk (h : TailMetaHeader) : Prop where
  version : h.version < 2 ^ 32
  flags : h.flags < 2 ^ 32
  metaRegionLen : h.metaRegionLen < 2 ^ 64
  nLogicalIndexes : h.nLogicalIndexes < 2 ^ 32
  directoryOffset : h.directoryOffset < 2 ^ 64
  directoryLength : h.directoryLength < 2 ^ 64

/-- The header reads back. -/
theorem reads_header {h : TailMetaHeader} (ok : HeaderOk h) :
    Reads readHeader (encodeHeader h) h := by
  rw [encodeHeader]
  simp only [List.append_assoc]
  exact (reads_getFixed32 ok.version).bind ((reads_getFixed32 ok.flags).bind
    ((reads_getFixed64 ok.metaRegionLen).bind ((reads_getFixed32 ok.nLogicalIndexes).bind
      ((reads_getFixed64 ok.directoryOffset).bind
        ((reads_getFixed64 ok.directoryLength).bind_nil (Reads.pure _))))))

/-- Keys of the format's widths, and a region a 64-bit length counts. -/
structure EntriesOk (entries : List MetaEntry) : Prop where
  indexId : ∀ e ∈ entries, e.indexId < 2 ^ 64
  suffix : ∀ e ∈ entries, e.suffix.length < 2 ^ 32
  count : entries.length < 2 ^ 32
  size : (finishRegion entries).length < 2 ^ 64

@[simp] theorem length_layoutRefs (offset : Nat) (entries : List MetaEntry) :
    (layoutRefs offset entries).length = entries.length := by
  induction entries generalizing offset with
  | nil => rfl
  | cons e es ih => rw [layoutRefs, List.length_cons, ih, List.length_cons]

theorem length_finishRegion (entries : List MetaEntry) :
    (finishRegion entries).length = kHeaderSize + (metaBlocks entries).length +
      (finishDirectory (layoutRefs kHeaderSize entries)).length + kRegionChecksumSize := by
  simp only [finishRegion, regionBody, List.length_append, length_encodeHeader, length_putFixed32,
    kHeaderSize, kRegionChecksumSize]

theorem EntriesOk.header {entries : List MetaEntry} (h : EntriesOk entries) :
    HeaderOk (regionHeader entries) := by
  have hsize := h.size
  rw [length_finishRegion] at hsize
  exact {
    version := show kMetaFormatVersion < 2 ^ 32 by decide
    flags := show 0 < 2 ^ 32 by decide
    metaRegionLen := hsize
    nLogicalIndexes := Nat.mod_lt _ (by decide)
    directoryOffset := by simp only [regionHeader]; omega
    directoryLength := by simp only [regionHeader]; omega }

/-- The blocks behind the header stand where the directory says. -/
theorem refOk_layoutRefs {entries : List MetaEntry} {offset : Nat}
    (hid : ∀ e ∈ entries, e.indexId < 2 ^ 64) (hsuffix : ∀ e ∈ entries, e.suffix.length < 2 ^ 32)
    (hsize : offset + (metaBlocks entries).length < 2 ^ 64) :
    ∀ ref ∈ layoutRefs offset entries, RefOk ref := by
  induction entries generalizing offset with
  | nil =>
      intro ref href
      cases href
  | cons e es ih =>
      rw [metaBlocks, List.flatMap_cons, List.length_append] at hsize
      intro ref href
      rcases List.mem_cons.mp href with rfl | href
      · exact {
          indexId := hid e List.mem_cons_self
          suffix := hsuffix e List.mem_cons_self
          metaOff := by simp only; omega
          metaLen := by simp only; omega }
      · apply ih (fun x hx => hid x (List.mem_cons_of_mem _ hx))
          (fun x hx => hsuffix x (List.mem_cons_of_mem _ hx)) _ ref href
        rw [metaBlocks]
        omega

theorem getFixed32_run {v : Nat} (h : v < 2 ^ 32) :
    getFixed32.run (putFixed32 v) = .ok (v, []) := by
  have hread := reads_getFixed32 h []
  rwa [List.append_nil] at hread

/-- A header under its checksum, any blocks, and the checksum of all that. -/
theorem openHeader_framed {h : TailMetaHeader} (ok : HeaderOk h) {tail body : Bytes}
    (hbody : body = encodeHeader h ++ (putFixed32 (crc32c (encodeHeader h)) ++ tail))
    (hversion : h.version = kMetaFormatVersion)
    (hlen : h.metaRegionLen = body.length + kRegionChecksumSize) :
    openHeader (body ++ putFixed32 (crc32c body)) = .ok h := by
  set crc := putFixed32 (crc32c body) with hcrc
  have hsize : (body ++ crc).length = body.length + kRegionChecksumSize := List.length_append
  have hbodyLen : body.length = kHeaderSize + tail.length := by
    rw [hbody]
    simp only [List.length_append, length_encodeHeader, length_putFixed32, kHeaderSize]
    omega
  have hcovered : (body ++ crc).length - kRegionChecksumSize = body.length := by omega
  have hcs : subslice (body ++ crc) body.length kRegionChecksumSize = .ok crc := by
    have hslice := @subslice_append body crc [] _ kRegionChecksumSize rfl rfl
    rwa [List.append_nil] at hslice
  have hall : subslice (body ++ crc) 0 body.length = .ok body :=
    @subslice_append [] body crc _ _ rfl rfl
  have hsplit : body ++ crc = encodeHeader h ++ (putFixed32 (crc32c (encodeHeader h)) ++
      (tail ++ crc)) := by
    rw [hbody]
    simp only [List.append_assoc]
  have hfields : subslice (body ++ crc) 0 kHeaderFields = .ok (encodeHeader h) := by
    rw [hsplit]
    exact @subslice_append [] _ _ _ _ rfl (length_encodeHeader h).symm
  have hstored : subslice (body ++ crc) kHeaderFields 4 =
      .ok (putFixed32 (crc32c (encodeHeader h))) := by
    rw [hsplit]
    exact subslice_append (length_encodeHeader h).symm (length_putFixed32 _).symm
  have hread := reads_header ok []
  rw [List.append_nil] at hread
  rw [openHeader, if_neg (by omega)]
  simp only [hcovered]
  rw [hcs, ok_bind, hcrc, getFixed32_run (crc32c_lt _), ok_bind, ← hcrc, hall, ok_bind]
  simp only [ne_eq, not_true_eq_false, if_false]
  rw [hfields, ok_bind, hread, ok_bind, hstored, ok_bind, getFixed32_run (crc32c_lt _), ok_bind]
  simp only [ok_bind, not_true_eq_false, if_false]
  rw [if_neg (by simp [hversion]), if_neg (by simp [hlen, hsize])]

/-- **The header** of a written region passes its checks. -/
theorem openHeader_finish {entries : List MetaEntry} (h : EntriesOk entries) :
    openHeader (finishRegion entries) = .ok (regionHeader entries) := by
  have hlen := length_finishRegion entries
  apply openHeader_framed h.header
  · simp only [regionBody, List.append_assoc]
    rfl
  · rfl
  · rw [finishRegion, List.length_append, length_putFixed32] at hlen
    simp only [regionHeader, kRegionChecksumSize] at hlen ⊢
    omega

/-- **Round trip**: a finished region opens with the directory of its blocks. -/
theorem open_finishRegion {entries : List MetaEntry} (h : EntriesOk entries) :
    TailMetaRegionReader.open (finishRegion entries) =
      .ok { region := finishRegion entries, dir := layoutRefs kHeaderSize entries
            n := entries.length } := by
  have hlen := length_finishRegion entries
  have hsize := h.size
  rw [hlen] at hsize
  have hslice : subslice (finishRegion entries) (regionHeader entries).directoryOffset
      (regionHeader entries).directoryLength =
      .ok (finishDirectory (layoutRefs kHeaderSize entries)) := by
    rw [finishRegion, regionBody, List.append_assoc]
    apply subslice_append _ rfl
    simp [regionHeader, kHeaderSize, Nat.add_assoc]
  have hrefs := @refOk_layoutRefs entries kHeaderSize h.indexId h.suffix (by omega)
  have hdir := openDirectory_finish hrefs (by rw [length_layoutRefs]; exact h.count) (by omega)
  rw [TailMetaRegionReader.open, openHeader_finish h, ok_bind, openEntries, if_neg, hslice,
    ok_bind, hdir, ok_bind]
  · have hn : (layoutRefs kHeaderSize entries).length % 2 ^ 32 =
        (regionHeader entries).nLogicalIndexes := by
      rw [length_layoutRefs]
      rfl
    rw [if_neg (not_not_intro hn), ← hn, length_layoutRefs, Nat.mod_eq_of_lt h.count]
  · simp only [regionHeader]
    rw [Nat.mod_eq_of_lt (by omega), hlen]
    omega

/-- The entry under a key, over the blocks themselves. -/
def findEntry (entries : List MetaEntry) (indexId : Nat) (suffix : Bytes) : Option MetaEntry :=
  entries.find? fun e => e.indexId = indexId ∧ e.suffix = suffix

/-- The directory finds a block where the layout put it. -/
theorem findRef_layoutRefs (entries : List MetaEntry) (offset indexId : Nat) (suffix : Bytes) :
    (findEntry entries indexId suffix = none ∧
        findRef (layoutRefs offset entries) indexId suffix = none) ∨
      ∃ pre e post ref, entries = pre ++ e :: post ∧ findEntry entries indexId suffix = some e ∧
        findRef (layoutRefs offset entries) indexId suffix = some ref ∧
        ref.metaOff = offset + (metaBlocks pre).length ∧ ref.metaLen = e.bytes.length := by
  induction entries generalizing offset with
  | nil => exact .inl ⟨rfl, rfl⟩
  | cons e es ih =>
      by_cases hkey : e.indexId = indexId ∧ e.suffix = suffix
      · right
        exact ⟨[], e, es, { indexId := e.indexId, indexSuffix := e.suffix, metaOff := offset
                            metaLen := e.bytes.length },
          rfl, by simp [findEntry, hkey], by simp [findRef, layoutRefs, hkey], rfl, rfl⟩
      · have hentry : findEntry (e :: es) indexId suffix = findEntry es indexId suffix := by
          simp [findEntry, hkey]
        have href : findRef (layoutRefs offset (e :: es)) indexId suffix =
            findRef (layoutRefs (offset + e.bytes.length) es) indexId suffix := by
          simp [findRef, layoutRefs, hkey]
        rw [hentry, href]
        rcases ih (offset + e.bytes.length) with hnone | ⟨pre, x, post, ref, rfl, h1, h2, h3, h4⟩
        · exact .inl hnone
        · right
          refine ⟨e :: pre, x, post, ref, rfl, h1, h2, ?_, h4⟩
          rw [h3, metaBlocks, metaBlocks, List.flatMap_cons, List.length_append]
          omega

/-- **Lookup** in a finished region returns the block that was added under the key. -/
theorem find_finishRegion {entries : List MetaEntry} (h : EntriesOk entries) (indexId : Nat)
    (suffix : Bytes) :
    ({ region := finishRegion entries, dir := layoutRefs kHeaderSize entries
       n := entries.length } : TailMetaRegionReader).find indexId suffix =
      .ok ((findEntry entries indexId suffix).map MetaEntry.bytes) := by
  have hlen := length_finishRegion entries
  have hsize := h.size
  rw [hlen] at hsize
  rw [TailMetaRegionReader.find]
  rcases findRef_layoutRefs entries kHeaderSize indexId suffix with
    ⟨h1, h2⟩ | ⟨pre, e, post, ref, hsplit, h1, h2, hoff, hmeta⟩
  · simp [h1, h2]
  · have hblocks : metaBlocks entries = metaBlocks pre ++ (e.bytes ++ metaBlocks post) := by
      simp [metaBlocks, hsplit]
    have hinside : ref.metaOff + ref.metaLen < 2 ^ 64 ∧
        ref.metaOff + ref.metaLen ≤ (finishRegion entries).length := by
      rw [hblocks] at hsize hlen
      simp only [List.length_append] at hsize hlen
      omega
    have hslice : subslice (finishRegion entries) ref.metaOff ref.metaLen = .ok e.bytes := by
      rw [finishRegion, regionBody, hblocks]
      simp only [List.append_assoc]
      rw [← List.append_assoc, ← List.append_assoc]
      apply subslice_append _ hmeta
      simp [hoff, kHeaderSize, Nat.add_assoc]
    simp only [h1, h2]
    rw [Nat.mod_eq_of_lt hinside.1, if_neg (by omega), hslice]
    rfl

/-! ## Arbitrary bytes -/

theorem avoids_decodeEntry : Avoids decodeEntry .outOfBounds := by
  apply avoids_getVarint64.bind
  intro indexId
  apply avoids_getVarint32.bind
  intro suffixLen
  apply avoids_remaining.bind
  intro left
  apply Avoids.ite (Avoids.throw (by simp))
  exact (avoids_getBytes _).bind fun _ => avoids_getVarint64.bind fun _ =>
    avoids_getVarint64.bind fun _ => Avoids.pure _

/-- A directory of any bytes is read inside them. -/
theorem openDirectory_ne_outOfBounds (framed : Bytes) :
    openDirectory framed ≠ .error .outOfBounds := by
  apply openSection_ne_outOfBounds (by simp)
  intro payload
  apply parseAll_ne_outOfBounds
  exact avoids_getVarint32.bind fun n => avoids_remaining.bind fun left =>
    Avoids.ite (Avoids.throw (by simp)) (avoids_decodeEntry.readN n)

theorem subslice_of_le {s : Bytes} {off n : Nat} (h : off + n ≤ s.length) :
    subslice s off n = .ok ((s.drop off).take n) := by
  rw [subslice, if_neg (by omega)]

/-- Every bound of the header is checked before the slice is taken. -/
theorem openHeader_ne_outOfBounds (region : Bytes) : openHeader region ≠ .error .outOfBounds := by
  rw [openHeader]
  split
  · simp
  · rename_i hlong
    simp only [kHeaderSize, kHeaderFields, kRegionChecksumSize] at hlong ⊢
    rw [subslice_of_le (by omega), ok_bind]
    apply bind_ne_error (avoids_getFixed32 _)
    rintro ⟨regionCrc, -⟩ -
    rw [subslice_of_le (by omega), ok_bind]
    simp only
    split
    · simp
    · rw [subslice_of_le (by omega), ok_bind]
      have hheader : Avoids readHeader .outOfBounds :=
        avoids_getFixed32.bind fun _ => avoids_getFixed32.bind fun _ =>
          avoids_getFixed64.bind fun _ => avoids_getFixed32.bind fun _ =>
          avoids_getFixed64.bind fun _ => avoids_getFixed64.bind fun _ => Avoids.pure _
      apply bind_ne_error (hheader _)
      rintro ⟨h, -⟩ -
      simp only
      rw [subslice_of_le (by omega), ok_bind]
      apply bind_ne_error (avoids_getFixed32 _)
      rintro ⟨headerCrc, -⟩ -
      simp only [ok_bind]
      repeat' split
      all_goals simp

/-- A 64-bit sum that is accepted as an end within `size` has not wrapped. -/
def SumFits (size off len : Nat) : Prop := (off + len) % 2 ^ 64 ≤ size → off + len < 2 ^ 64

/-- A bound compared after the addition protects the slice where the sum fits. -/
theorem subslice_ne_iff {s : Bytes} (hs : s.length < 2 ^ 64) {off n : Nat}
    (hend : (off + n) % 2 ^ 64 ≤ s.length) :
    subslice s off n ≠ .error .outOfBounds ↔ off + n < 2 ^ 64 := by
  rw [subslice]
  constructor
  · intro h
    by_contra hwrap
    rw [if_pos (by omega)] at h
    exact h rfl
  · intro hlt
    rw [Nat.mod_eq_of_lt hlt] at hend
    rw [if_neg (by omega)]
    simp

/-- The directory's sum fits, and so does the sum of every entry a key can find. -/
def SumsFit (region : Bytes) : Prop :=
  ∀ h, openHeader region = .ok h → kHeaderSize ≤ h.directoryOffset →
    SumFits region.length h.directoryOffset h.directoryLength ∧
    ∀ dir, openDirectory ((region.drop h.directoryOffset).take h.directoryLength) = .ok dir →
      (h.directoryOffset + h.directoryLength) % 2 ^ 64 ≤ region.length →
      dir.length % 2 ^ 32 = h.nLogicalIndexes →
      ∀ indexId suffix ref, findRef dir indexId suffix = some ref →
        SumFits region.length ref.metaOff ref.metaLen

variable {region : Bytes}

/-- **A lookup** stays inside exactly when the entry's sum fits. -/
theorem find_inside_iff {r : TailMetaRegionReader} (hsize : r.region.length < 2 ^ 64)
    (indexId : Nat) (suffix : Bytes) :
    r.find indexId suffix ≠ .error .outOfBounds ↔
      ∀ ref, findRef r.dir indexId suffix = some ref →
        SumFits r.region.length ref.metaOff ref.metaLen := by
  rw [TailMetaRegionReader.find]
  cases hfind : findRef r.dir indexId suffix with
  | none => simp
  | some ref =>
      simp only [Option.some.injEq, forall_eq']
      by_cases hend : (ref.metaOff + ref.metaLen) % 2 ^ 64 > r.region.length
      · rw [if_pos hend]
        apply iff_of_true (by simp)
        intro hle
        omega
      · rw [if_neg hend]
        have hslice := subslice_ne_iff hsize (Nat.not_lt.mp hend)
        have hmap : (subslice r.region ref.metaOff ref.metaLen).map some ≠ .error .outOfBounds ↔
            subslice r.region ref.metaOff ref.metaLen ≠ .error .outOfBounds := by
          cases subslice r.region ref.metaOff ref.metaLen <;> simp [Except.map]
        rw [hmap, hslice]
        exact ⟨fun hlt _ => hlt, fun hfit => hfit (Nat.not_lt.mp hend)⟩

/-- What `open` returns is the directory of the slice the header names. -/
theorem openEntries_ok {h : TailMetaHeader} {r : TailMetaRegionReader}
    (hopen : openEntries region h = .ok r) :
    kHeaderSize ≤ h.directoryOffset ∧
      (h.directoryOffset + h.directoryLength) % 2 ^ 64 ≤ region.length ∧
      openDirectory ((region.drop h.directoryOffset).take h.directoryLength) = .ok r.dir ∧
      r.dir.length % 2 ^ 32 = h.nLogicalIndexes ∧ r.region = region := by
  rw [openEntries] at hopen
  split at hopen
  · cases hopen
  · rename_i hbounds
    rw [subslice] at hopen
    split at hopen
    · cases hopen
    · rw [ok_bind] at hopen
      cases hdir : openDirectory ((region.drop h.directoryOffset).take h.directoryLength) with
      | error e =>
          rw [hdir] at hopen
          cases hopen
      | ok dir =>
          rw [hdir, ok_bind] at hopen
          split at hopen
          · cases hopen
          · rename_i hcount
            cases hopen
            exact ⟨by omega, by omega, rfl, not_not.mp hcount, rfl⟩

/-- **Opening** stays inside exactly when the directory's sum fits. -/
theorem openEntries_ne_iff (hsize : region.length < 2 ^ 64) (h : TailMetaHeader) :
    openEntries region h ≠ .error .outOfBounds ↔
      (kHeaderSize ≤ h.directoryOffset →
        SumFits region.length h.directoryOffset h.directoryLength) := by
  rw [openEntries]
  by_cases hbounds : (h.directoryOffset + h.directoryLength) % 2 ^ 64 > region.length ∨
      h.directoryOffset < kHeaderSize
  · rw [if_pos hbounds]
    apply iff_of_true (by simp)
    intro hoff hle
    omega
  · rw [if_neg hbounds]
    have hslice := @subslice_ne_iff region hsize h.directoryOffset h.directoryLength (by omega)
    constructor
    · intro hne _ _
      apply hslice.mp
      intro heq
      rw [heq] at hne
      exact hne rfl
    · intro hfit
      have hlt := hfit (by omega) (by omega)
      apply bind_ne_error (hslice.mpr hlt)
      intro framed _
      apply bind_ne_error (openDirectory_ne_outOfBounds framed)
      intro dir _
      split <;> simp

/-- **Safety of the region**: `open` and every later lookup stay inside exactly when
the sums fit. -/
theorem region_inside_iff (hsize : region.length < 2 ^ 64) :
    (TailMetaRegionReader.open region ≠ .error .outOfBounds ∧
      ∀ r, TailMetaRegionReader.open region = .ok r →
        ∀ indexId suffix, r.find indexId suffix ≠ .error .outOfBounds) ↔ SumsFit region := by
  cases hheader : openHeader region with
  | error e =>
      have hopen : TailMetaRegionReader.open region = .error e := by
        rw [TailMetaRegionReader.open, hheader]
        rfl
      have hne := openHeader_ne_outOfBounds region
      rw [hheader] at hne
      apply iff_of_true
      · rw [hopen]
        exact ⟨fun heq => hne (congrArg Except.error (Except.error.inj heq)), fun r hr => by cases hr⟩
      · intro h heq
        rw [hheader] at heq
        cases heq
  | ok h =>
      have hopen : TailMetaRegionReader.open region = openEntries region h := by
        rw [TailMetaRegionReader.open, hheader, ok_bind]
      rw [hopen, openEntries_ne_iff hsize h]
      constructor
      · rintro ⟨hdir, hfind⟩ h' heq hoff
        rw [hheader] at heq
        cases heq
        refine ⟨hdir hoff, ?_⟩
        intro dir hentries hend hcount indexId suffix ref href
        have hlt := hdir hoff hend
        rw [Nat.mod_eq_of_lt hlt] at hend
        have hok : openEntries region h = .ok { region := region, dir := dir
                                                n := h.nLogicalIndexes } := by
          rw [openEntries, if_neg (by rw [Nat.mod_eq_of_lt hlt]; omega), subslice_of_le hend,
            ok_bind, hentries, ok_bind, if_neg (not_not_intro hcount)]
        exact (find_inside_iff hsize indexId suffix).mp (hfind _ hok indexId suffix) ref href
      · intro hfits
        refine ⟨fun hoff => (hfits h hheader hoff).1, ?_⟩
        intro r hr indexId suffix
        obtain ⟨hoff, hend, hentries, hcount, hregion⟩ := openEntries_ok hr
        apply (find_inside_iff (by rw [hregion]; exact hsize) indexId suffix).mpr
        rw [hregion]
        exact (hfits h hheader hoff).2 r.dir hentries hend hcount indexId suffix

/-- A region of 44 bytes whose header puts one byte of directory at 2⁶⁴ - 1. -/
def wrappedRegion : Bytes :=
  let fields := encodeHeader { version := 1, flags := 0, metaRegionLen := 44, nLogicalIndexes := 0
                               directoryOffset := 2 ^ 64 - 1, directoryLength := 1 }
  let body := fields ++ putFixed32 (crc32c fields)
  body ++ putFixed32 (crc32c body)

/-- Opening it reads outside. -/
theorem open_wrappedRegion :
    TailMetaRegionReader.open wrappedRegion = .error .outOfBounds := by
  decide +kernel

/-- A region's entries: one block of three bytes. -/
def oneEntry : List MetaEntry := [⟨7, [116], [1, 2, 3]⟩]

/-- The sums of a region with an entry fit. -/
theorem region_inside_iff_oneEntry :
    TailMetaRegionReader.open (finishRegion oneEntry) ≠ .error .outOfBounds ∧
      SumsFit (finishRegion oneEntry) := by
  have hsize : (finishRegion oneEntry).length < 2 ^ 64 := by decide +kernel
  have hfits : SumsFit (finishRegion oneEntry) := by
    have hopen : TailMetaRegionReader.open (finishRegion oneEntry) =
        .ok { region := finishRegion oneEntry, dir := layoutRefs kHeaderSize oneEntry, n := 1 } := by
      decide +kernel
    apply (region_inside_iff hsize).mp
    rw [hopen]
    refine ⟨by simp, ?_⟩
    intro r hr indexId suffix
    cases hr
    apply (find_inside_iff hsize indexId suffix).mpr
    intro ref href _
    rw [List.mem_singleton.mp (List.mem_of_find?_eq_some href)]
    decide
  exact ⟨((region_inside_iff hsize).mpr hfits).1, hfits⟩

end Snii.Format.TailMeta
