import Snii.Format.DictEntry
import Snii.Lib.SortedSearch

/-!
# Dictionary blocks

`dict_block.cpp`.  A block is a header, the front-coded entries, the offsets of
the anchors (the entries coded without a predecessor, one every `anchorInterval`)
and a checksum.  The reader searches the anchors' terms and scans one segment.
-/

namespace Snii.Format.DictBlock

open Snii.Lib.ByteReader Snii.Lib.Chunks Snii.Lib.SortedSearch Snii.Common
open Snii.Encoding.Varint Snii.Encoding.ByteSource Snii.Encoding.Crc32c
open Snii.Format.Dict

/-- The only version that is read. -/
def kDictBlockFormatVer : Nat := 1

/-- The flag bit of a block with a base for positions. -/
def kHasPositions : Nat := 1

/-- The checksum at the end. -/
def kFooterBytes : Nat := 4

/-- The number of anchors in front of it. -/
def kNAnchorsBytes : Nat := 4

/-- One offset of the anchor table. -/
def kAnchorOffBytes : Nat := 4

/-! ## Builder -/

/-- The builder's estimate of an entry's encoded size. -/
def estimateEntryBytes (e : DictEntry) : Nat :=
  let termLen := varintLen (e.term.length % 2 ^ 32)
  let payload := if e.kind = .inline then 10 + e.frqBytes.length + (10 + e.prxBytes.length)
    else 10 * 5
  let body := termLen + termLen + e.term.length + 1 + 10 + 10 + 10 + payload
  varintLen body + body

/-- The entries of a block and the estimate of their bytes. -/
structure DictBlockBuilder where
  tier : IndexTier
  hasPositions : Bool
  frqBase : Nat
  prxBase : Nat
  anchorInterval : Nat
  anchorIntervalPos : 0 < anchorInterval
  entries : List DictEntry := []
  entriesEst : Nat := 0
  nAnchors : Nat := 0

/-- The constructor; an interval of zero counts as one. -/
def newBuilder (tier : IndexTier) (hasPositions : Bool) (frqBase prxBase : Nat)
    (anchorInterval : Nat := 16) : DictBlockBuilder where
  tier := tier
  hasPositions := hasPositions
  frqBase := frqBase
  prxBase := prxBase
  anchorInterval := if anchorInterval = 0 then 1 else anchorInterval
  anchorIntervalPos := by split <;> omega

/-- The entries added so far. -/
def DictBlockBuilder.nEntries (b : DictBlockBuilder) : Nat := b.entries.length

/-- Every `anchorInterval`th entry is stored with its whole term. -/
def DictBlockBuilder.isAnchor (b : DictBlockBuilder) (index : Nat) : Bool :=
  index % b.anchorInterval = 0

/-- `add_entry`, which keeps the estimate up. -/
def DictBlockBuilder.addEntry (b : DictBlockBuilder) (e : DictEntry) : DictBlockBuilder :=
  { b with
    nAnchors := if b.isAnchor b.nEntries then b.nAnchors + 1 else b.nAnchors
    entriesEst := b.entriesEst + estimateEntryBytes e
    entries := b.entries ++ [e] }

/-- The estimate by which the writer cuts its blocks. -/
def DictBlockBuilder.estimatedBytes (b : DictBlockBuilder) : Nat :=
  let header := varintLen b.nEntries + 2 + varintLen b.frqBase +
    if b.hasPositions then varintLen b.prxBase else 0
  header + b.entriesEst + (b.nAnchors * kAnchorOffBytes + kNAnchorsBytes) + kFooterBytes

/-- Number of entries, version, flags and the bases. -/
def DictBlockBuilder.header (b : DictBlockBuilder) : Bytes :=
  putVarint64 b.nEntries ++ putU8 kDictBlockFormatVer ++
    putU8 (if b.hasPositions then kHasPositions else 0) ++ putVarint64 b.frqBase ++
    if b.hasPositions then putVarint64 b.prxBase else []

/-- The entries from index `i` on, behind `size` bytes: their bytes and the anchors' offsets. -/
def DictBlockBuilder.encodeEntries (b : DictBlockBuilder) (i : Nat) (prev : Bytes) (size : Nat) :
    List DictEntry → Bytes × List Nat
  | [] => ([], [])
  | e :: es =>
      let bytes := encodeDictEntry e (if b.isAnchor i then [] else prev) b.tier
      let (rest, offs) := b.encodeEntries (i + 1) e.term (size + bytes.length) es
      (bytes ++ rest, if b.isAnchor i then size % 2 ^ 32 :: offs else offs)

/-- Header, entries, anchor table, checksum. -/
def DictBlockBuilder.finish (b : DictBlockBuilder) : Bytes :=
  let header := b.header
  let (entries, offs) := b.encodeEntries 0 [] header.length b.entries
  let body := header ++ entries ++ offs.flatMap putFixed32 ++ putFixed32 (offs.length % 2 ^ 32)
  body ++ putFixed32 (crc32c body)

/-! ## Reader -/

/-- An entry with the bases of its block. -/
structure Resolved where
  entry : DictEntry
  frqBase : Nat
  prxBase : Nat
deriving DecidableEq

/-- An opened block with its anchor table. -/
structure DictBlockReader where
  block : Bytes
  tier : IndexTier
  hasPositions : Bool
  frqBase : Nat
  prxBase : Nat
  nEntries : Nat
  anchorOffsets : List Nat
  anchorTerms : List Bytes
deriving DecidableEq

/-- The block without its footer, if the checksum is right. -/
def verifyCrc (block : Bytes) : Result Bytes :=
  if block.length < kFooterBytes + kNAnchorsBytes then
    .error (.corruption "dict_block: block too short to contain footer")
  else do
    let covered ← subslice block 0 (block.length - kFooterBytes)
    let footer ← subslice block (block.length - kFooterBytes) kFooterBytes
    let (stored, _) ← getFixed32.run footer
    if crc32c covered ≠ stored then .error (.corruption "dict_block: crc32c checksum mismatch")
    else .ok covered

/-- The flag byte must agree with the index. -/
def checkFlags (flags : Nat) (hasPositions : Bool) : Result Unit :=
  if FrqPrelude.hasBit flags 0 ≠ hasPositions then
    .error (.invalidArgument "dict_block: has_positions inconsistent with block_flags")
  else .ok ()

/-- The base for positions, in a block that has one. -/
def readPrxBase (hasPositions : Bool) : Source Nat :=
  if hasPositions then getVarint64 else pure 0

/-- Number of entries and the two bases. -/
def readHeader (hasPositions : Bool) : Source (Nat × Nat × Nat) := do
  let n ← getVarint64
  let ver ← getU8
  let flags ← getU8
  if ver ≠ kDictBlockFormatVer then
    throw (.unsupported "dict_block: unsupported entry_format_ver")
  else do
    ofResult (checkFlags flags hasPositions)
    let frqBase ← getVarint64
    let prxBase ← readPrxBase hasPositions
    pure (n, frqBase, prxBase)

/-- Anchors ascend, and the first one is where the entries start. -/
def checkAnchor (entriesBegin : Nat) (prev : Option Nat) (off : Nat) : Result Unit :=
  match prev with
  | none =>
      if off ≠ entriesBegin then
        .error (.corruption "dict_block: first anchor offset is not the start of entries")
      else .ok ()
  | some p =>
      if off ≤ p then .error (.corruption "dict_block: anchor offsets are not strictly increasing")
      else .ok ()

/-- The term of the entry at an anchor. -/
def anchorTerm (covered : Bytes) (tier : IndexTier) (tableBegin off : Nat) : Result Bytes := do
  let slice ← subslice covered off (tableBegin - off)
  let (probe, _) ← (decodeDictEntry [] tier).run slice
  .ok probe.term

/-- An offset of the table and the term of the entry there. -/
def readAnchor (covered : Bytes) (tier : IndexTier) (entriesBegin tableBegin : Nat)
    (prev : Option Nat) : Source (Nat × Bytes) := do
  let off ← getFixed32
  if off ≥ tableBegin then throw (.corruption "dict_block: anchor offset out of range")
  else do
    ofResult (checkAnchor entriesBegin prev off)
    let term ← ofResult (anchorTerm covered tier tableBegin off)
    pure (off, term)

/-- The table; offsets ascend. -/
def readAnchors (covered : Bytes) (tier : IndexTier) (entriesBegin tableBegin : Nat) :
    Nat → Option Nat → Source (List (Nat × Bytes))
  | 0, _ => pure []
  | n + 1, prev => do
      let a ← readAnchor covered tier entriesBegin tableBegin prev
      let rest ← readAnchors covered tier entriesBegin tableBegin n (some a.1)
      pure (a :: rest)

/-- The anchor table: offsets and terms. -/
def readAnchorTable (covered : Bytes) (tier : IndexTier) (entriesBegin : Nat) :
    Result (List (Nat × Bytes)) :=
  if covered.length < kNAnchorsBytes then .error (.corruption "dict_block: missing n_anchors")
  else do
    let tail ← subslice covered (covered.length - kNAnchorsBytes) kNAnchorsBytes
    let (nAnchors, _) ← getFixed32.run tail
    let tableBytes := nAnchors * kAnchorOffBytes
    if covered.length < kNAnchorsBytes + tableBytes ∨
        entriesBegin + tableBytes + kNAnchorsBytes > covered.length then
      .error (.corruption "dict_block: anchor table out of range")
    else do
      let tableBegin := covered.length - kNAnchorsBytes - tableBytes
      let table ← subslice covered tableBegin tableBytes
      let (anchors, _) ← (readAnchors covered tier entriesBegin tableBegin nAnchors none).run table
      .ok anchors

/-- `DictBlockReader::open`: checksum, header, anchor table. -/
def openBlock (block : Bytes) (tier : IndexTier) (hasPositions : Bool) :
    Result DictBlockReader := do
  let covered ← verifyCrc block
  let ((n, frqBase, prxBase), rest) ← (readHeader hasPositions).run covered
  let anchors ← readAnchorTable covered tier (covered.length - rest.length)
  .ok { block := covered, tier := tier, hasPositions := hasPositions, frqBase := frqBase
        prxBase := prxBase, nEntries := n % 2 ^ 32, anchorOffsets := anchors.map Prod.fst
        anchorTerms := anchors.map Prod.snd }

/-- The last anchor whose term is not above the target. -/
def DictBlockReader.locateAnchor (r : DictBlockReader) (target : Bytes) : Option Nat :=
  match r.anchorTerms.head? with
  | none => none
  | some first =>
      if target < first then none
      else some (bisect (leAt r.anchorTerms target) r.anchorTerms.length 0 r.anchorTerms.length)

/-- The next anchor or the start of the anchor table. -/
def DictBlockReader.segEnd (r : DictBlockReader) (a : Nat) : Nat :=
  if a + 1 = r.anchorOffsets.length then
    r.block.length - kNAnchorsBytes - r.anchorOffsets.length * kAnchorOffBytes
  else r.anchorOffsets.getD (a + 1) 0

/-- The bytes of a segment, which must lie in the block. -/
def DictBlockReader.segment (r : DictBlockReader) (a : Nat) : Result Bytes :=
  let segBegin := r.anchorOffsets.getD a 0
  let segEnd := r.segEnd a
  if segEnd < segBegin ∨ segEnd > r.block.length then
    .error (.corruption "dict_block: anchor segment range invalid")
  else subslice r.block segBegin (segEnd - segBegin)

/-- Entries up to the end of the input; the number of its bytes is fuel enough. -/
def decodeEntries (tier : IndexTier) : Nat → Bytes → Source (List DictEntry)
  | 0, _ => pure []
  | fuel + 1, prev => do
      let done ← eof
      if done then pure []
      else do
        let e ← decodeDictEntry prev tier
        let rest ← decodeEntries tier fuel e.term
        pure (e :: rest)

/-- All entries of a segment. -/
def DictBlockReader.decodeSegment (r : DictBlockReader) (a : Nat) : Result (List DictEntry) := do
  let bytes ← r.segment a
  let (entries, _) ← (decodeEntries r.tier bytes.length []).run bytes
  .ok entries

/-- `decode_all` once its `reserve` has succeeded. -/
def DictBlockReader.decodeAll (r : DictBlockReader) : Result (List DictEntry) := do
  let segs ← (List.range r.anchorOffsets.length).mapM r.decodeSegment
  if segs.flatten.length ≠ r.nEntries then
    .error (.corruption "dict_block: decoded entry count mismatch")
  else .ok segs.flatten

/-- The scan stops at the target or at the first larger term. -/
def scanEntries (tier : IndexTier) (target : Bytes) : Nat → Bytes → Source (Option DictEntry)
  | 0, _ => pure none
  | fuel + 1, prev => do
      let done ← eof
      if done then pure none
      else do
        let e ← decodeDictEntry prev tier
        if e.term = target then pure (some e)
        else if e.term > target then pure none
        else scanEntries tier target fuel e.term

/-- The entries of a segment up to the target or beyond it. -/
def DictBlockReader.scanFromAnchor (r : DictBlockReader) (a : Nat) (target : Bytes) :
    Result (Option DictEntry) := do
  let bytes ← r.segment a
  let (hit, _) ← (scanEntries r.tier target bytes.length []).run bytes
  .ok hit

/-- The anchor at or before the target, then its segment. -/
def DictBlockReader.findTerm (r : DictBlockReader) (target : Bytes) :
    Result (Option DictEntry) :=
  match r.locateAnchor target with
  | none => .ok none
  | some a => r.scanFromAnchor a target

/-! ## Segments -/

/-- The entries of one segment, each front-coded against the one before. -/
def segmentBytes (tier : IndexTier) : Bytes → List DictEntry → Bytes
  | _, [] => []
  | prev, e :: es => encodeDictEntry e prev tier ++ segmentBytes tier e.term es

/-- Where each of the pieces starts that follow each other from `off` on. -/
def segOffsets : Nat → List Bytes → List Nat
  | _, [] => []
  | off, s :: ss => off :: segOffsets (off + s.length) ss

@[simp] theorem length_segOffsets (off : Nat) (ss : List Bytes) :
    (segOffsets off ss).length = ss.length := by
  induction ss generalizing off with
  | nil => rfl
  | cons s ss ih => simp [segOffsets, ih]

/-- A segment starts behind those before it. -/
theorem segOffsets_getElem? {ss : List Bytes} {a : Nat} (off : Nat) (ha : a < ss.length) :
    (segOffsets off ss)[a]? = some (off + (ss.take a).flatten.length) := by
  induction ss generalizing off a with
  | nil => simp at ha
  | cons s ss ih =>
      cases a with
      | zero => simp [segOffsets]
      | succ a =>
          rw [segOffsets, List.getElem?_cons_succ, ih _ (Nat.lt_of_succ_lt_succ ha)]
          simp [Nat.add_assoc]

/-- An entry has bytes. -/
theorem encodeDictEntry_ne_nil (e : DictEntry) (prev : Bytes) (tier : IndexTier) :
    encodeDictEntry e prev tier ≠ [] := by
  rw [encodeDictEntry, putBlob]
  exact List.append_ne_nil_of_left_ne_nil (encodeVarint64_ne_nil _) _

/-- So a segment has no more entries than bytes. -/
theorem length_le_segmentBytes (tier : IndexTier) (prev : Bytes) (es : List DictEntry) :
    es.length ≤ (segmentBytes tier prev es).length := by
  induction es generalizing prev with
  | nil => exact Nat.zero_le _
  | cons e es ih =>
      have hpos := List.length_pos_iff.mpr (encodeDictEntry_ne_nil e prev tier)
      have hrest := ih e.term
      rw [segmentBytes, List.length_cons, List.length_append]
      omega

theorem length_flatten_le_segmentBytes (tier : IndexTier) (segs : List (List DictEntry)) :
    segs.flatten.length ≤ (segs.map (segmentBytes tier [])).flatten.length := by
  induction segs with
  | nil => exact Nat.le_refl _
  | cons s segs ih =>
      have hs := length_le_segmentBytes tier [] s
      rw [List.map_cons, List.flatten_cons, List.flatten_cons, List.length_append,
        List.length_append]
      omega

namespace DictBlockBuilder

variable {b : DictBlockBuilder}

/-- Entries that are no anchors continue the segment. -/
theorem encodeEntries_inside {i : Nat} {es : List DictEntry}
    (hes : ∀ j < es.length, b.isAnchor (i + j) = false) (prev : Bytes) (size : Nat)
    (rest : List DictEntry) : ∃ prev', b.encodeEntries i prev size (es ++ rest) =
      let r := b.encodeEntries (i + es.length) prev'
        (size + (segmentBytes b.tier prev es).length) rest
      (segmentBytes b.tier prev es ++ r.1, r.2) := by
  induction es generalizing i prev size with
  | nil => exact ⟨prev, rfl⟩
  | cons e es ih =>
      have hanchor : b.isAnchor i = false := hes 0 (by simp)
      have hinside : ∀ j < es.length, b.isAnchor (i + 1 + j) = false := by
        intro j hj
        have := hes (j + 1) (by simpa using hj)
        rwa [← Nat.add_assoc, Nat.add_right_comm] at this
      obtain ⟨prev', hrest⟩ := ih hinside e.term (size + (encodeDictEntry e prev b.tier).length)
      refine ⟨prev', ?_⟩
      rw [List.cons_append, encodeEntries, hanchor]
      simp only [Bool.false_eq_true, if_false]
      rw [hrest]
      simp only [segmentBytes, List.length_cons, List.length_append, List.append_assoc]
      rw [Nat.add_right_comm i 1, Nat.add_assoc i, ← Nat.add_assoc size]

/-- An anchor opens a segment. -/
theorem encodeEntries_segment {i : Nat} {es : List DictEntry} (hi : b.isAnchor i = true)
    (hne : es ≠ []) (hes : es.length ≤ b.anchorInterval) (prev : Bytes) (size : Nat)
    (rest : List DictEntry) : ∃ prev', b.encodeEntries i prev size (es ++ rest) =
      let r := b.encodeEntries (i + es.length) prev'
        (size + (segmentBytes b.tier [] es).length) rest
      (segmentBytes b.tier [] es ++ r.1, size % 2 ^ 32 :: r.2) := by
  cases es with
  | nil => exact absurd rfl hne
  | cons e es =>
      have hinside : ∀ j < es.length, b.isAnchor (i + 1 + j) = false := by
        intro j hj
        rw [List.length_cons] at hes
        rw [isAnchor, decide_eq_true_eq] at hi
        rw [isAnchor, decide_eq_false_iff_not, Nat.add_assoc, Nat.add_mod, hi, Nat.zero_add,
          Nat.mod_mod, Nat.mod_eq_of_lt (show 1 + j < b.anchorInterval by omega)]
        omega
      obtain ⟨prev', hrest⟩ := encodeEntries_inside hinside e.term
        (size + (encodeDictEntry e [] b.tier).length) rest
      refine ⟨prev', ?_⟩
      rw [List.cons_append, encodeEntries, hi]
      simp only [if_true]
      rw [hrest]
      simp only [segmentBytes, List.length_cons, List.length_append, List.append_assoc]
      rw [Nat.add_right_comm i 1, Nat.add_assoc i, ← Nat.add_assoc size]

/-- The entries from one anchor to the next. -/
def segments (b : DictBlockBuilder) : List (List DictEntry) := chunks b.anchorInterval b.entries

/-- The builder's loop writes the segments one after the other. -/
theorem encodeEntries_eq {i : Nat} (hi : b.isAnchor i = true) (prev : Bytes) (size : Nat)
    (es : List DictEntry) :
    b.encodeEntries i prev size es =
      (((chunks b.anchorInterval es).map (segmentBytes b.tier [])).flatten,
        (segOffsets size ((chunks b.anchorInterval es).map (segmentBytes b.tier []))).map
          (· % 2 ^ 32)) := by
  induction es using chunks_induction b.anchorIntervalPos generalizing i prev size with
  | nil => rw [chunks_nil b.anchorIntervalPos]; rfl
  | step es hne ih =>
      have htake : es.take b.anchorInterval ≠ [] := by
        have := b.anchorIntervalPos
        simp [hne]
        omega
      obtain ⟨prev', hrest⟩ := encodeEntries_segment hi htake (List.length_take_le _ _) prev size
        (es.drop b.anchorInterval)
      rw [List.take_append_drop] at hrest
      rw [hrest, chunks_of_ne_nil b.anchorIntervalPos hne]
      by_cases hlast : es.drop b.anchorInterval = []
      · rw [hlast, chunks_nil b.anchorIntervalPos]
        rfl
      · have hfull : (es.take b.anchorInterval).length = b.anchorInterval := by
          rw [List.drop_eq_nil_iff] at hlast
          rw [List.length_take]
          omega
        have hnext : b.isAnchor (i + (es.take b.anchorInterval).length) = true := by
          rw [isAnchor, decide_eq_true_eq] at hi ⊢
          rw [hfull, Nat.add_mod_right, hi]
        rw [ih hnext]
        rfl

end DictBlockBuilder

section Segment

variable {tier : IndexTier} {prev : Bytes} {es : List DictEntry}

/-- The body of an entry that is stored has a 64-bit length. -/
theorem writeBody_lt {e : DictEntry} (h : (encodeDictEntry e prev tier).length < 2 ^ 64) :
    (writeBody e prev tier).length < 2 ^ 64 := by
  rw [encodeDictEntry, putBlob, List.length_append] at h
  omega

/-- **A segment** decodes to its entries. -/
theorem decodeEntries_segment (hok : ∀ e ∈ es, EntryOk tier e)
    (hlen : (segmentBytes tier prev es).length < 2 ^ 64) {fuel : Nat} (hfuel : es.length ≤ fuel) :
    (decodeEntries tier fuel prev).run (segmentBytes tier prev es) =
      .ok (es.map (DictEntry.stored tier), []) := by
  induction es generalizing prev fuel with
  | nil => cases fuel <;> rfl
  | cons e es ih =>
      cases fuel with
      | zero => simp at hfuel
      | succ fuel =>
          rw [segmentBytes, List.length_append] at hlen
          have hread := reads_dictEntry (hok e List.mem_cons_self)
            (writeBody_lt (show (encodeDictEntry e prev tier).length < 2 ^ 64 by omega))
          have hrest := ih (fun x hx => hok x (List.mem_cons_of_mem _ hx))
            (show (segmentBytes tier e.term es).length < 2 ^ 64 by omega)
            (Nat.le_of_succ_le_succ hfuel)
          have hne : (encodeDictEntry e prev tier ++ segmentBytes tier e.term es).isEmpty = false := by
            simp [encodeDictEntry_ne_nil]
          rw [decodeEntries, segmentBytes, eof_run_bind, hne]
          simp only [Bool.false_eq_true, if_false]
          rw [hread.run_bind, DictEntry.stored_term, StateT.run_bind, hrest]
          rfl

/-- The scan of a sorted segment finds the target's entry. -/
theorem scanEntries_segment (hok : ∀ e ∈ es, EntryOk tier e)
    (hlen : (segmentBytes tier prev es).length < 2 ^ 64) {fuel : Nat} (hfuel : es.length ≤ fuel)
    (hsorted : es.Pairwise (·.term < ·.term)) (target : Bytes) :
    ∃ rest, (scanEntries tier target fuel prev).run (segmentBytes tier prev es) =
      .ok ((es.find? fun e => decide (e.term = target)).map (DictEntry.stored tier), rest) := by
  induction es generalizing prev fuel with
  | nil => exact ⟨[], by cases fuel <;> rfl⟩
  | cons e es ih =>
      cases fuel with
      | zero => simp at hfuel
      | succ fuel =>
          rw [segmentBytes, List.length_append] at hlen
          have hread := reads_dictEntry (hok e List.mem_cons_self)
            (writeBody_lt (show (encodeDictEntry e prev tier).length < 2 ^ 64 by omega))
          have hne : (encodeDictEntry e prev tier ++ segmentBytes tier e.term es).isEmpty = false := by
            simp [encodeDictEntry_ne_nil]
          rw [List.pairwise_cons] at hsorted
          rw [scanEntries, segmentBytes, eof_run_bind, hne]
          simp only [Bool.false_eq_true, if_false]
          rw [hread.run_bind, DictEntry.stored_term]
          by_cases heq : e.term = target
          · refine ⟨segmentBytes tier e.term es, ?_⟩
            rw [if_pos heq, List.find?_cons_of_pos (by simpa using heq)]
            rfl
          · rw [if_neg heq, List.find?_cons_of_neg (by simpa using heq)]
            by_cases hgt : e.term > target
            · have hnone : es.find? (fun e => decide (e.term = target)) = none := by
                rw [List.find?_eq_none]
                intro x hx
                simpa using ne_of_gt (lt_trans hgt (hsorted.1 x hx))
              refine ⟨segmentBytes tier e.term es, ?_⟩
              rw [if_pos hgt, hnone]
              rfl
            · rw [if_neg hgt]
              exact ih (fun x hx => hok x (List.mem_cons_of_mem _ hx))
                (show (segmentBytes tier e.term es).length < 2 ^ 64 by omega)
                (Nat.le_of_succ_le_succ hfuel) hsorted.2

/-- Whatever the scan of a segment finds, in whatever order, is stored in it. -/
theorem scanEntries_stored (hok : ∀ e ∈ es, EntryOk tier e)
    (hlen : (segmentBytes tier prev es).length < 2 ^ 64) {fuel : Nat} {target rest : Bytes}
    {hit : DictEntry} (hscan : (scanEntries tier target fuel prev).run (segmentBytes tier prev es) =
      .ok (some hit, rest)) : hit ∈ es.map (DictEntry.stored tier) := by
  induction es generalizing prev fuel with
  | nil =>
      cases fuel with
      | zero => cases hscan
      | succ fuel => cases hscan
  | cons e es ih =>
      cases fuel with
      | zero => cases hscan
      | succ fuel =>
          rw [segmentBytes, List.length_append] at hlen
          have hread := reads_dictEntry (hok e List.mem_cons_self)
            (writeBody_lt (show (encodeDictEntry e prev tier).length < 2 ^ 64 by omega))
          have hne : (encodeDictEntry e prev tier ++ segmentBytes tier e.term es).isEmpty = false := by
            simp [encodeDictEntry_ne_nil]
          rw [scanEntries, segmentBytes, eof_run_bind, hne] at hscan
          simp only [Bool.false_eq_true, if_false] at hscan
          rw [hread.run_bind, DictEntry.stored_term] at hscan
          rw [List.map_cons]
          by_cases heq : e.term = target
          · rw [if_pos heq] at hscan
            cases hscan
            exact List.mem_cons_self
          · rw [if_neg heq] at hscan
            by_cases hgt : e.term > target
            · rw [if_pos hgt] at hscan
              cases hscan
            · rw [if_neg hgt] at hscan
              apply List.mem_cons_of_mem
              exact ih (fun x hx => hok x (List.mem_cons_of_mem _ hx)) (by omega) hscan

end Segment

section Anchors

variable {tier : IndexTier} {covered pre table : Bytes}

/-- The entry at an anchor gives its term. -/
theorem anchorTerm_segment {e : DictEntry} {rest : Bytes} (hok : EntryOk tier e)
    (hlen : (encodeDictEntry e [] tier).length < 2 ^ 64)
    (hcov : covered = pre ++ ((encodeDictEntry e [] tier ++ rest) ++ table)) {tableBegin : Nat}
    (htable : tableBegin = pre.length + (encodeDictEntry e [] tier ++ rest).length) :
    anchorTerm covered tier tableBegin pre.length = .ok e.term := by
  have hslice : subslice covered pre.length (tableBegin - pre.length) =
      .ok (encodeDictEntry e [] tier ++ rest) := by
    rw [hcov]
    exact subslice_append rfl (by omega)
  have hread := reads_dictEntry hok (writeBody_lt hlen) rest
  rw [anchorTerm, hslice, ok_bind, hread, ok_bind]
  exact congrArg Except.ok (DictEntry.stored_term tier e)

/-- The anchor table reads back with the first term of each segment. -/
theorem reads_anchors {segs : List (List DictEntry)} (hne : ∀ s ∈ segs, s ≠ [])
    (hok : ∀ s ∈ segs, ∀ e ∈ s, EntryOk tier e) {entriesBegin : Nat} {prev : Option Nat}
    (hfirst : prev = none → pre.length = entriesBegin) (hprev : ∀ p, prev = some p → p < pre.length)
    (hcov : covered = pre ++ ((segs.map (segmentBytes tier [])).flatten ++ table))
    (hsize : covered.length < 2 ^ 32) {tableBegin : Nat}
    (htable : tableBegin = pre.length + (segs.map (segmentBytes tier [])).flatten.length) :
    Reads (readAnchors covered tier entriesBegin tableBegin segs.length prev)
      ((segOffsets pre.length (segs.map (segmentBytes tier []))).flatMap putFixed32)
      ((segOffsets pre.length (segs.map (segmentBytes tier []))).zip (heads DictEntry.term segs)) := by
  induction segs generalizing pre prev with
  | nil => exact Reads.pure []
  | cons s segs ih =>
      cases s with
      | nil => exact absurd rfl (hne [] List.mem_cons_self)
      | cons e es =>
          have hpos := List.length_pos_iff.mpr (encodeDictEntry_ne_nil e [] tier)
          have hbytes : segmentBytes tier [] (e :: es) =
              encodeDictEntry e [] tier ++ segmentBytes tier e.term es := rfl
          rw [List.map_cons, List.flatten_cons] at hcov htable
          have htotal := congrArg List.length hcov
          simp only [List.length_append] at htotal
          rw [hbytes, List.length_append] at htotal
          have hlt : pre.length < tableBegin := by
            rw [htable, hbytes]
            simp only [List.length_append]
            omega
          have hcheck : checkAnchor entriesBegin prev pre.length = .ok () := by
            cases prev with
            | none => rw [checkAnchor, if_neg (by simp [hfirst rfl])]
            | some p => rw [checkAnchor, if_neg (Nat.not_le.mpr (hprev p rfl))]
          have hterm : anchorTerm covered tier tableBegin pre.length = .ok e.term := by
            rw [hbytes, List.append_assoc (encodeDictEntry e [] tier)] at hcov htable
            exact anchorTerm_segment (hok _ List.mem_cons_self e List.mem_cons_self) (by omega) hcov
              htable
          have hrest := @ih (pre ++ segmentBytes tier [] (e :: es))
            (fun x hx => hne x (List.mem_cons_of_mem _ hx))
            (fun x hx => hok x (List.mem_cons_of_mem _ hx)) (some pre.length) (by simp)
            (by
              intro p hp
              rw [← Option.some_inj.mp hp, List.length_append, hbytes, List.length_append]
              omega)
            (by rw [hcov]; simp only [List.append_assoc])
            (by rw [htable]; simp only [List.length_append]; omega)
          rw [List.length_append] at hrest
          rw [List.map_cons, segOffsets, List.flatMap_cons, List.length_cons, readAnchors]
          refine Reads.bind (x := (pre.length, e.term)) ?_ (hrest.bind_nil (Reads.pure _))
          refine (reads_getFixed32 (by omega)).bind_nil (Reads.if_neg (by omega) ?_)
          exact (Reads.ofResult hcheck).bind ((Reads.ofResult hterm).bind_nil (Reads.pure _))

end Anchors

/-! ## Opening a block -/

namespace DictBlockBuilder

variable {b : DictBlockBuilder}

/-- The segments as they are stored. -/
def segmentsBytes (b : DictBlockBuilder) : List Bytes := b.segments.map (segmentBytes b.tier [])

/-- Where the segments begin. -/
def anchorOffsets (b : DictBlockBuilder) : List Nat := segOffsets b.header.length b.segmentsBytes

/-- The block without its checksum. -/
def covered (b : DictBlockBuilder) : Bytes :=
  b.header ++ b.segmentsBytes.flatten ++ b.anchorOffsets.flatMap putFixed32 ++
    putFixed32 b.anchorOffsets.length

/-- A block that reads back: entries of the format's widths, offsets of 32 bits. -/
structure BlockOk (b : DictBlockBuilder) : Prop where
  entries : ∀ e ∈ b.entries, EntryOk b.tier e
  frqBase : b.frqBase < 2 ^ 64
  prxBase : b.prxBase < 2 ^ 64
  size : b.finish.length < 2 ^ 32

/-- The segments are the entries, cut. -/
theorem flatten_segments : b.segments.flatten = b.entries := flatten_chunks b.anchorIntervalPos _

/-- No segment is empty. -/
theorem segments_ne_nil : ∀ s ∈ b.segments, s ≠ [] := by
  intro s hs
  exact List.length_pos_iff.mp (length_mem_chunks b.anchorIntervalPos hs).1

theorem length_segmentsBytes : b.segmentsBytes.length = b.segments.length := List.length_map _

private theorem length_flatMap_putFixed32 (offs : List Nat) :
    (offs.flatMap putFixed32).length = 4 * offs.length := by
  induction offs with
  | nil => rfl
  | cons o offs ih =>
      rw [List.flatMap_cons, List.length_append, ih, length_putFixed32, List.length_cons]
      omega

theorem length_covered : b.covered.length =
    b.header.length + b.segmentsBytes.flatten.length + 4 * b.segments.length + 4 := by
  rw [covered, List.length_append, List.length_append, List.length_append,
    length_flatMap_putFixed32, anchorOffsets, length_segOffsets, length_segmentsBytes,
    length_putFixed32]

/-- A block of 32-bit size is its covered bytes and their checksum. -/
theorem finish_eq (hsize : b.finish.length < 2 ^ 32) :
    b.finish = b.covered ++ putFixed32 (crc32c b.covered) := by
  have hentries : b.encodeEntries 0 [] b.header.length b.entries = (b.segmentsBytes.flatten,
      (segOffsets b.header.length b.segmentsBytes).map (· % 2 ^ 32)) :=
    b.encodeEntries_eq (by simp [isAnchor]) [] b.header.length b.entries
  rw [finish, hentries] at hsize ⊢
  simp only [List.length_append, List.length_map, length_segOffsets, length_putFixed32,
    length_flatMap_putFixed32] at hsize
  have hoffs : (segOffsets b.header.length b.segmentsBytes).map (· % 2 ^ 32) = b.anchorOffsets := by
    rw [anchorOffsets]
    conv_rhs => rw [← List.map_id (segOffsets b.header.length b.segmentsBytes)]
    refine List.map_congr_left fun x hx => ?_
    obtain ⟨a, ha⟩ := List.mem_iff_getElem?.mp hx
    have hlt : a < b.segmentsBytes.length := by
      rw [← length_segOffsets b.header.length]
      exact (List.getElem?_eq_some_iff.mp ha).1
    rw [segOffsets_getElem? _ hlt, Option.some_inj] at ha
    have htake : (b.segmentsBytes.take a).flatten.length ≤ b.segmentsBytes.flatten.length := by
      conv_rhs => rw [← List.take_append_drop a b.segmentsBytes, List.flatten_append,
        List.length_append]
      exact Nat.le_add_right _ _
    rw [← ha, id, Nat.mod_eq_of_lt (by omega)]
  have hcount : b.anchorOffsets.length % 2 ^ 32 = b.anchorOffsets.length := by
    rw [anchorOffsets, length_segOffsets, Nat.mod_eq_of_lt (by omega)]
  simp only [hoffs, hcount]
  rfl

/-- What the reader knows of the block. -/
def readerOf (b : DictBlockBuilder) : DictBlockReader where
  block := b.covered
  tier := b.tier
  hasPositions := b.hasPositions
  frqBase := b.frqBase
  prxBase := if b.hasPositions then b.prxBase else 0
  nEntries := b.entries.length
  anchorOffsets := b.anchorOffsets
  anchorTerms := heads DictEntry.term b.segments

theorem finish_length (hsize : b.finish.length < 2 ^ 32) :
    b.finish.length = b.covered.length + 4 := by
  rw [finish_eq hsize, List.length_append, length_putFixed32]

/-- And its checksum holds. -/
theorem verifyCrc_finish (hsize : b.finish.length < 2 ^ 32) :
    verifyCrc b.finish = .ok b.covered := by
  have hlen := finish_length hsize
  have hcov := b.length_covered
  have hcrc := crc32c_lt b.covered
  have hbody : subslice b.finish 0 (b.finish.length - kFooterBytes) = .ok b.covered := by
    rw [hlen, finish_eq hsize, kFooterBytes, Nat.add_sub_cancel]
    exact subslice_append (a := []) rfl rfl
  have hfooter : subslice b.finish (b.finish.length - kFooterBytes) kFooterBytes =
      .ok (putFixed32 (crc32c b.covered)) := by
    rw [hlen, finish_eq hsize, kFooterBytes, Nat.add_sub_cancel,
      ← List.append_nil (b.covered ++ putFixed32 _), List.append_assoc]
    exact subslice_append rfl (length_putFixed32 _).symm
  have hread := reads_getFixed32 hcrc []
  rw [List.append_nil] at hread
  rw [verifyCrc, if_neg (by simp only [hlen, hcov, kFooterBytes, kNAnchorsBytes]; omega), hbody,
    ok_bind, hfooter, ok_bind, hread, ok_bind]
  simp

theorem reads_header (hn : b.entries.length < 2 ^ 64) (hfrq : b.frqBase < 2 ^ 64)
    (hprx : b.prxBase < 2 ^ 64) :
    Reads (readHeader b.hasPositions) b.header
      (b.entries.length, b.frqBase, if b.hasPositions then b.prxBase else 0) := by
  rw [header]
  simp only [List.append_assoc]
  refine (reads_getVarint64 hn).bind ((reads_getU8 (by decide)).bind ?_)
  cases b.hasPositions with
  | true =>
      refine (reads_getU8 (by decide)).bind (Reads.if_neg (by simp) ?_)
      exact (Reads.ofResult rfl).bind ((reads_getVarint64 hfrq).bind
        ((reads_getVarint64 hprx).bind_nil (Reads.pure _)))
  | false =>
      refine (reads_getU8 (by decide)).bind (Reads.if_neg (by simp) ?_)
      exact (Reads.ofResult rfl).bind ((reads_getVarint64 hfrq).bind
        ((Reads.pure _).bind (Reads.pure _)))

/-- Header, segments, anchor offsets, their number. -/
theorem covered_eq : b.covered = b.header ++ (b.segmentsBytes.flatten ++
    (b.anchorOffsets.flatMap putFixed32 ++ putFixed32 b.anchorOffsets.length)) := by
  simp only [covered, List.append_assoc]

theorem length_anchorOffsets : b.anchorOffsets.length = b.segments.length := by
  rw [anchorOffsets, length_segOffsets, length_segmentsBytes]

theorem length_heads : (heads DictEntry.term b.segments).length = b.segments.length := by
  have hne := @segments_ne_nil b
  generalize b.segments = segs at hne ⊢
  induction segs with
  | nil => rfl
  | cons s segs ih =>
      cases s with
      | nil => exact absurd rfl (hne [] List.mem_cons_self)
      | cons e es =>
          exact congrArg Nat.succ (ih fun x hx => hne x (List.mem_cons_of_mem _ hx))

/-- **The anchor table** of a written block: offsets and first terms. -/
theorem readAnchorTable_covered (hok : ∀ e ∈ b.entries, EntryOk b.tier e)
    (hsize : b.covered.length < 2 ^ 32) :
    readAnchorTable b.covered b.tier b.header.length =
      .ok (b.anchorOffsets.zip (heads DictEntry.term b.segments)) := by
  have hlen := b.length_covered
  have hcount := b.length_anchorOffsets
  have htail : subslice b.covered (b.covered.length - kNAnchorsBytes) kNAnchorsBytes =
      .ok (putFixed32 b.anchorOffsets.length) := by
    rw [hlen, kNAnchorsBytes, Nat.add_sub_cancel, covered, ← List.append_nil (_ ++ putFixed32 _),
      List.append_assoc]
    refine subslice_append ?_ (length_putFixed32 _).symm
    rw [List.length_append, List.length_append, length_flatMap_putFixed32, hcount]
  have htable : subslice b.covered
      (b.covered.length - kNAnchorsBytes - b.segments.length * kAnchorOffBytes)
      (b.segments.length * kAnchorOffBytes) = .ok (b.anchorOffsets.flatMap putFixed32) := by
    rw [hlen, kNAnchorsBytes, kAnchorOffBytes, Nat.add_sub_cancel, Nat.mul_comm, Nat.add_sub_cancel,
      covered, List.append_assoc]
    refine subslice_append List.length_append.symm ?_
    rw [length_flatMap_putFixed32, hcount, Nat.mul_comm]
  have hcountRead := reads_getFixed32 (show b.anchorOffsets.length < 2 ^ 32 by omega) []
  rw [List.append_nil] at hcountRead
  have hentries : ∀ s ∈ b.segments, ∀ e ∈ s, EntryOk b.tier e := fun s hs e he =>
    hok e (mem_of_mem_chunks hs he)
  have hbegin : b.covered.length - kNAnchorsBytes - b.segments.length * kAnchorOffBytes =
      b.header.length + b.segmentsBytes.flatten.length := by
    simp only [hlen, kNAnchorsBytes, kAnchorOffBytes]
    omega
  have hread := @reads_anchors b.tier b.covered b.header _ b.segments segments_ne_nil hentries
    b.header.length none (fun _ => rfl) (by simp) covered_eq hsize _ hbegin []
  rw [List.append_nil] at hread
  rw [readAnchorTable, if_neg (by simp only [hlen, kNAnchorsBytes]; omega), htail, ok_bind,
    hcountRead, ok_bind]
  simp only [hcount]
  rw [if_neg (by simp only [hlen, kNAnchorsBytes, kAnchorOffBytes]; omega), htable, ok_bind]
  exact congrArg (fun r : Result _ => r >>= fun p => .ok p.1) hread

/-- **Round trip** of a block's header and anchors. -/
theorem openBlock_finish (h : BlockOk b) :
    openBlock b.finish b.tier b.hasPositions = .ok b.readerOf := by
  have hlen := finish_length h.size
  have hsize := h.size
  have hcov := b.length_covered
  have hentries : b.entries.length < 2 ^ 32 := by
    have hflat : b.entries.length ≤ b.segmentsBytes.flatten.length := by
      rw [← flatten_segments]
      exact length_flatten_le_segmentBytes b.tier b.segments
    omega
  have hheader := (reads_header (by omega) h.frqBase h.prxBase)
    (b.segmentsBytes.flatten ++
      (b.anchorOffsets.flatMap putFixed32 ++ putFixed32 b.anchorOffsets.length))
  rw [← covered_eq] at hheader
  have hbegin : b.covered.length - (b.segmentsBytes.flatten ++
      (b.anchorOffsets.flatMap putFixed32 ++ putFixed32 b.anchorOffsets.length)).length =
        b.header.length := by
    rw [covered_eq, List.length_append, Nat.add_sub_cancel]
  have hzip : b.anchorOffsets.length = (heads DictEntry.term b.segments).length := by
    rw [length_anchorOffsets, length_heads]
  rw [openBlock, verifyCrc_finish h.size, ok_bind, hheader, ok_bind]
  simp only [hbegin]
  rw [readAnchorTable_covered h.entries (by omega), ok_bind, List.map_fst_zip hzip.le,
    List.map_snd_zip hzip.ge, Nat.mod_eq_of_lt hentries]
  rfl

/-- The offset of an anchor. -/
theorem getD_anchorOffsets {a : Nat} (ha : a < b.segments.length) :
    b.anchorOffsets.getD a 0 = b.header.length + (b.segmentsBytes.take a).flatten.length := by
  rw [List.getD_eq_getElem?_getD, anchorOffsets,
    segOffsets_getElem? _ (by rwa [length_segmentsBytes]), Option.getD_some]

/-- The reader finds each segment's bytes. -/
theorem segment_readerOf {a : Nat} {seg : List DictEntry} (ha : b.segments[a]? = some seg) :
    b.readerOf.segment a = .ok (segmentBytes b.tier [] seg) := by
  obtain ⟨hlt, hseg⟩ := List.getElem?_eq_some_iff.mp ha
  have hlt' : a < b.segmentsBytes.length := by rwa [length_segmentsBytes]
  have hget : b.segmentsBytes[a] = segmentBytes b.tier [] seg := by
    simp only [segmentsBytes, List.getElem_map, hseg]
  have hsplit : b.segmentsBytes.flatten = (b.segmentsBytes.take a).flatten ++
      (segmentBytes b.tier [] seg ++ (b.segmentsBytes.drop (a + 1)).flatten) := by
    conv_lhs => rw [← List.take_append_drop a b.segmentsBytes, List.drop_eq_getElem_cons hlt', hget]
    rw [List.flatten_append, List.flatten_cons]
  have hnext : (b.segmentsBytes.take (a + 1)).flatten.length =
      (b.segmentsBytes.take a).flatten.length + (segmentBytes b.tier [] seg).length := by
    rw [List.take_succ_eq_append_getElem hlt', List.flatten_append, List.length_append, hget,
      List.flatten_singleton]
  have hcov := b.length_covered
  have hend : b.readerOf.segEnd a = b.header.length +
      (b.segmentsBytes.take a).flatten.length + (segmentBytes b.tier [] seg).length := by
    rw [DictBlockReader.segEnd]
    show (if a + 1 = b.anchorOffsets.length then
      b.covered.length - kNAnchorsBytes - b.anchorOffsets.length * kAnchorOffBytes
      else b.anchorOffsets.getD (a + 1) 0) = _
    rw [length_anchorOffsets]
    by_cases hlast : a + 1 = b.segments.length
    · rw [if_pos hlast, hcov, kNAnchorsBytes, kAnchorOffBytes, Nat.add_sub_cancel, Nat.mul_comm,
        Nat.add_sub_cancel, Nat.add_assoc, ← hnext, hlast, ← length_segmentsBytes,
        List.take_length]
    · rw [if_neg hlast, getD_anchorOffsets (by omega), hnext, Nat.add_assoc]
  have htotal := congrArg List.length hsplit
  simp only [List.length_append] at htotal
  have hbegin : b.readerOf.anchorOffsets.getD a 0 =
      b.header.length + (b.segmentsBytes.take a).flatten.length := getD_anchorOffsets hlt
  have hblock : b.readerOf.block = (b.header ++ (b.segmentsBytes.take a).flatten) ++
      (segmentBytes b.tier [] seg ++ ((b.segmentsBytes.drop (a + 1)).flatten ++
        (b.anchorOffsets.flatMap putFixed32 ++ putFixed32 b.anchorOffsets.length))) := by
    show b.covered = _
    rw [covered_eq, hsplit]
    simp only [List.append_assoc]
  have hlen : b.readerOf.block.length = b.covered.length := rfl
  rw [DictBlockReader.segment, hend, hbegin]
  simp only [Nat.add_sub_cancel_left]
  rw [if_neg (by rw [hlen, hcov]; omega), hblock]
  exact subslice_append List.length_append.symm rfl

theorem segmentBytes_lt (h : BlockOk b) {seg : List DictEntry} (hseg : seg ∈ b.segments) :
    (segmentBytes b.tier [] seg).length < 2 ^ 64 := by
  have hsize := h.size
  have hlen := finish_length h.size
  have hcov := b.length_covered
  have hle : (segmentBytes b.tier [] seg).length ≤ b.segmentsBytes.flatten.length :=
    (List.sublist_flatten_of_mem (List.mem_map_of_mem hseg)).length_le
  omega

/-- The reader decodes each segment. -/
theorem decodeSegment_readerOf (h : BlockOk b) {a : Nat} {seg : List DictEntry}
    (ha : b.segments[a]? = some seg) :
    b.readerOf.decodeSegment a = .ok (seg.map (DictEntry.stored b.tier)) := by
  have hmem := List.mem_of_getElem? ha
  have hread := decodeEntries_segment (fun e he => h.entries e (mem_of_mem_chunks hmem he))
    (segmentBytes_lt h hmem) (length_le_segmentBytes b.tier [] seg)
  rw [DictBlockReader.decodeSegment, segment_readerOf ha, ok_bind]
  exact congrArg (fun r : Result _ => r >>= fun p => .ok p.1) hread

/-- **Round trip** of a block's entries. -/
theorem decodeAll_readerOf (h : BlockOk b) :
    b.readerOf.decodeAll = .ok (b.entries.map (DictEntry.stored b.tier)) := by
  have hstep : ∀ a ∈ List.range b.segments.length, b.readerOf.decodeSegment a =
      .ok ((b.segments.getD a []).map (DictEntry.stored b.tier)) := by
    intro a ha
    have hlt := List.mem_range.mp ha
    rw [List.getD_eq_getElem?_getD, List.getElem?_eq_getElem hlt]
    exact decodeSegment_readerOf h (List.getElem?_eq_getElem hlt)
  have hall : (List.range b.segments.length).map (fun a =>
      (b.segments.getD a []).map (DictEntry.stored b.tier)) =
        b.segments.map (List.map (DictEntry.stored b.tier)) := by
    refine List.ext_getElem (by simp) ?_
    intro a ha ha'
    simp only [List.length_map] at ha'
    simp only [List.getElem_map, List.getElem_range, List.getD_eq_getElem?_getD,
      List.getElem?_eq_getElem ha', Option.getD_some]
  have hcount : b.readerOf.anchorOffsets.length = b.segments.length := length_anchorOffsets
  have hflat : (b.segments.map (List.map (DictEntry.stored b.tier))).flatten =
      b.entries.map (DictEntry.stored b.tier) := by
    rw [← List.map_flatten, flatten_segments]
  rw [DictBlockReader.decodeAll, hcount, mapM_ok hstep, ok_bind, hall, hflat]
  refine if_neg ?_
  rw [List.length_map]
  exact fun hne => hne rfl

/-- **Lookup**: the anchor search and the scan find the entry of the term, if there is one. -/
theorem findTerm_readerOf (h : BlockOk b) (hsorted : b.entries.Pairwise (·.term < ·.term))
    (target : Bytes) :
    b.readerOf.findTerm target =
      .ok ((b.entries.find? fun e => decide (e.term = target)).map (DictEntry.stored b.tier)) := by
  have hterms : b.readerOf.anchorTerms = heads DictEntry.term b.segments := rfl
  have hflat : b.segments.flatten.Pairwise (·.term < ·.term) := by rwa [flatten_segments]
  have hp : ∀ e : DictEntry, decide (e.term = target) = true → e.term = target := fun _ =>
    of_decide_eq_true
  rw [DictBlockReader.findTerm, DictBlockReader.locateAnchor, hterms, ← flatten_segments]
  cases hhead : (heads DictEntry.term b.segments).head? with
  | none =>
      rw [find?_flatten_eq_none segments_ne_nil hflat hp (by simp [hhead])]
      rfl
  | some first =>
      by_cases hlt : target < first
      · have hfirst : ∀ x, (heads DictEntry.term b.segments).head? = some x → target < x := by
          intro x hx
          rw [hhead, Option.some_inj] at hx
          exact hx ▸ hlt
        simp only [if_pos hlt]
        rw [find?_flatten_eq_none segments_ne_nil hflat hp hfirst]
        rfl
      · have hlast := bisect_isLastLe (heads_pairwise hflat) hhead (not_lt.mp hlt)
        simp only [if_neg hlt]
        generalize bisect (leAt (heads DictEntry.term b.segments) target)
          (heads DictEntry.term b.segments).length 0
          (heads DictEntry.term b.segments).length = a at hlast ⊢
        obtain ⟨x, hx, -⟩ := hlast.le
        rw [heads_getElem? segments_ne_nil, Option.bind_eq_some_iff] at hx
        obtain ⟨seg, hseg, -⟩ := hx
        have hmem := List.mem_of_getElem? hseg
        obtain ⟨rest, hscan⟩ := scanEntries_segment
          (fun e he => h.entries e (mem_of_mem_chunks hmem he)) (segmentBytes_lt h hmem)
          (length_le_segmentBytes b.tier [] seg) ((List.pairwise_flatten.mp hflat).1 seg hmem)
          target
        rw [find?_flatten_eq segments_ne_nil hflat hp hlast hseg, DictBlockReader.scanFromAnchor,
          segment_readerOf hseg, ok_bind]
        exact congrArg (fun r : Result _ => r >>= fun p => .ok p.1) hscan

/-! ## Blocks the builder makes -/

/-- Adding entries appends them and changes nothing that is written besides. -/
theorem addEntries_spec (b : DictBlockBuilder) (es : List DictEntry) :
    (es.foldl addEntry b).entries = b.entries ++ es ∧ (es.foldl addEntry b).tier = b.tier ∧
      (es.foldl addEntry b).hasPositions = b.hasPositions ∧
      (es.foldl addEntry b).frqBase = b.frqBase ∧ (es.foldl addEntry b).prxBase = b.prxBase := by
  induction es generalizing b with
  | nil => simp
  | cons e es ih =>
      obtain ⟨h1, h2, h3, h4, h5⟩ := ih (b.addEntry e)
      rw [List.foldl_cons]
      refine ⟨?_, h2, h3, h4, h5⟩
      rw [h1, addEntry, List.append_assoc, List.singleton_append]

/-- **Round trip of a block**: it opens with its bases, decodes to its entries, and
the anchor search with the scan is a linear search. -/
theorem openBlock_addEntries {tier : IndexTier} {hasPositions : Bool} {frqBase prxBase : Nat}
    {es : List DictEntry} (anchorInterval : Nat) (hsorted : es.Pairwise (·.term < ·.term))
    (hok : ∀ e ∈ es, EntryOk tier e) (hfrq : frqBase < 2 ^ 64) (hprx : prxBase < 2 ^ 64)
    (hsize : (es.foldl addEntry
      (newBuilder tier hasPositions frqBase prxBase anchorInterval)).finish.length < 2 ^ 32) :
    ∃ r, openBlock (es.foldl addEntry
          (newBuilder tier hasPositions frqBase prxBase anchorInterval)).finish tier
          hasPositions = .ok r ∧
      r.frqBase = frqBase ∧ (hasPositions = true → r.prxBase = prxBase) ∧
      r.decodeAll = .ok (es.map (DictEntry.stored tier)) ∧
      (∀ e ∈ es, r.findTerm e.term = .ok (some (e.stored tier))) ∧
      ∀ target, (∀ e ∈ es, e.term ≠ target) → r.findTerm target = .ok none := by
  set b := es.foldl addEntry (newBuilder tier hasPositions frqBase prxBase anchorInterval) with hb
  obtain ⟨hes, htier, hpos, hf, hp⟩ :=
    addEntries_spec (newBuilder tier hasPositions frqBase prxBase anchorInterval) es
  rw [← hb] at hes htier hpos hf hp
  have hes' : b.entries = es := hes
  have htier' : b.tier = tier := htier
  have hpos' : b.hasPositions = hasPositions := hpos
  have hf' : b.frqBase = frqBase := hf
  have hp' : b.prxBase = prxBase := hp
  have hblock : BlockOk b := by
    refine ⟨?_, by rwa [hf'], by rwa [hp'], hsize⟩
    rw [hes', htier']
    exact hok
  have hfind := findTerm_readerOf hblock (by rwa [hes'])
  have hopen := openBlock_finish hblock
  have hall := decodeAll_readerOf hblock
  rw [htier', hpos'] at hopen
  rw [hes', htier'] at hall
  refine ⟨b.readerOf, hopen, hf', ?_, hall, ?_, ?_⟩
  · intro hon
    show (if b.hasPositions then b.prxBase else 0) = prxBase
    rw [hpos', hon, if_pos rfl, hp']
  · intro e he
    rw [hfind, hes', htier']
    have hfound : es.find? (fun x => decide (x.term = e.term)) = some e := by
      rw [List.find?_eq_some_iff_append]
      obtain ⟨before, after, rfl⟩ := List.append_of_mem he
      refine ⟨by simp, before, after, rfl, ?_⟩
      intro x hx
      rw [List.pairwise_append] at hsorted
      have hlt := hsorted.2.2 x hx e List.mem_cons_self
      simpa using ne_of_lt hlt
    rw [hfound]
    rfl
  · intro target hne
    rw [hfind, hes']
    have hnone : es.find? (fun x => decide (x.term = target)) = none := by
      rw [List.find?_eq_none]
      intro x hx
      simpa using hne x hx
    rw [hnone]
    rfl

/-- An inline, a slim and a windowed entry; the last starts a new anchor. -/
def threeEntries : List DictEntry :=
  [{ term := [97], df := 1, kind := .inline, inlineDdDiskLen := 1, frqBytes := [3], prxBytes := [1, 2] },
    { term := [97, 98], df := 2, ttfDelta := 1, maxFreq := 2, frqOffDelta := 4, frqLen := 9
      frqDocsLen := 5, prxLen := 4 },
    { term := [97, 99], df := 600, enc := .windowed, hasSb := true, frqOffDelta := 13, frqLen := 700
      preludeLen := 40, prxLen := 600 }]

theorem openBlock_addEntries_threeEntries :
    ∃ r, openBlock (threeEntries.foldl addEntry (newBuilder .t2 true 5 7 2)).finish .t2 true =
        .ok r ∧
      r.frqBase = 5 ∧ (true = true → r.prxBase = 7) ∧
      r.decodeAll = .ok (threeEntries.map (DictEntry.stored .t2)) ∧
      (∀ e ∈ threeEntries, r.findTerm e.term = .ok (some (e.stored .t2))) ∧
      ∀ target, (∀ e ∈ threeEntries, e.term ≠ target) → r.findTerm target = .ok none := by
  refine openBlock_addEntries 2 (by decide) ?_ (by decide) (by decide) (by decide +kernel)
  intro e he
  simp only [threeEntries, List.mem_cons, List.not_mem_nil, or_false] at he
  rcases he with rfl | rfl | rfl <;>
    exact ⟨by decide, by decide, by decide, by decide, by decide, by decide, by decide, by decide,
      by decide, by decide, by decide, by decide⟩

end DictBlockBuilder

end Snii.Format.DictBlock
