import Snii.Format.FrqPrelude

/-!
# Dictionary entries

`dict_entry.cpp`.  An entry is a term, front-coded against the previous one, its
statistics and where its postings are: in the entry (`inline`), or in the posting
region (`podRef`), as one window (`slim`) or behind a prelude (`windowed`).  What
is stored depends on the index tier; `DictEntry.stored` is the part of an entry
that the format keeps.
-/

namespace Snii.Format.Dict

open Snii.Lib.ByteReader Snii.Common
open Snii.Encoding.ByteSource
open Snii.Format.FrqPod (FrqRegionMeta)
open Snii.Format.FrqPrelude (bit hasBit bits_decode)

/-- What an index was built to answer. -/
inductive IndexConfig where
  | docsOnly
  | docsPositions
  | docsPositionsScoring
  | positionsOffsets
deriving DecidableEq

/-- How much an entry stores: docids only, statistics and positions, or norms as well. -/
inductive IndexTier where
  | t1
  | t2
  | t3
deriving DecidableEq

/-- `tier_of`: scoring and offsets are both stored at the highest tier. -/
def tierOf : IndexConfig → IndexTier
  | .docsOnly => .t1
  | .docsPositions => .t2
  | _ => .t3

/-- Every configuration but the docs-only one keeps positions. -/
def hasPositions (cfg : IndexConfig) : Bool := cfg ≠ .docsOnly

/-- Only the scoring configuration writes norms. -/
def hasScoring (cfg : IndexConfig) : Bool := cfg = .docsPositionsScoring

/-- Whether the postings stand in the posting region or in the entry itself. -/
inductive DictEntryKind where
  | podRef
  | inline
deriving DecidableEq

/-- One window, or several behind a prelude. -/
inductive DictEntryEnc where
  | slim
  | windowed
deriving DecidableEq

/-- A dictionary entry with the fields of all kinds; those of the other kinds keep their
defaults. -/
structure DictEntry where
  term : Bytes := []
  kind : DictEntryKind := .podRef
  enc : DictEntryEnc := .slim
  hasSb : Bool := false
  df : Nat := 0
  ttfDelta : Nat := 0
  maxFreq : Nat := 0
  frqOffDelta : Nat := 0
  frqLen : Nat := 0
  preludeLen : Nat := 0
  frqDocsLen : Nat := 0
  prxOffDelta : Nat := 0
  prxLen : Nat := 0
  ddMeta : FrqRegionMeta := {}
  freqMeta : FrqRegionMeta := {}
  inlineDdDiskLen : Nat := 0
  frqBytes : Bytes := []
  prxBytes : Bytes := []
deriving DecidableEq

/-! ## Encoding -/

/-- The flag byte: kind, encoding and whether the prelude has super-blocks. -/
def packFlags (e : DictEntry) : Nat :=
  bit (e.kind = .inline) 0 + bit (e.enc = .windowed) 1 + bit e.hasSb 2

/-- The compare loop, for `lim` bytes at most. -/
def commonPrefixLoop : Nat → Bytes → Bytes → Nat
  | lim + 1, a :: as, b :: bs => if a = b then commonPrefixLoop lim as bs + 1 else 0
  | _, _, _ => 0

/-- The limit is kept in 32 bits. -/
def commonPrefixLen (term prev : Bytes) : Nat :=
  commonPrefixLoop (min term.length prev.length % 2 ^ 32) term prev

/-- The tiers above the first keep statistics, freqs and positions. -/
def tierHasStats (tier : IndexTier) : Bool := tier ≠ .t1

/-- A term front-coded against the one before it. -/
def writeTermKey (term prev : Bytes) : Bytes :=
  let pre := commonPrefixLen term prev
  let suffix := term.drop pre
  putVarint32 pre ++ putVarint32 (suffix.length % 2 ^ 32) ++ suffix

/-- The document frequency, and at tiers with statistics the two numbers behind it. -/
def writeStats (e : DictEntry) (tier : IndexTier) : Bytes :=
  putVarint32 e.df ++
    if tierHasStats tier then putVarint64 e.ttfDelta ++ putVarint64 e.maxFreq else []

/-- Which of the two regions are compressed. -/
def packWinMode (e : DictEntry) : Nat := bit e.ddMeta.zstd 0 + bit e.freqMeta.zstd 1

/-- Length and, where asked for, checksum of a region. -/
def writeRegion (m : FrqRegionMeta) (storeCrc : Bool) : Bytes :=
  putVarint64 m.uncompLen ++ if storeCrc then putFixed32 m.crc else []

/-- The two regions' metadata; the second one only at tiers with statistics. -/
def writeRegionMeta (e : DictEntry) (tier : IndexTier) (storeCrc : Bool) : Bytes :=
  putU8 (packWinMode e) ++ writeRegion e.ddMeta storeCrc ++
    if tierHasStats tier then writeRegion e.freqMeta storeCrc else []

/-- Where the postings are: offsets from the bases of the block, and lengths. -/
def writePodRef (e : DictEntry) (tier : IndexTier) : Bytes :=
  putVarint64 e.frqOffDelta ++ putVarint64 e.frqLen ++
    (if e.enc = .windowed then putVarint64 e.preludeLen
     else putVarint64 e.frqDocsLen ++ writeRegionMeta e tier true) ++
    if tierHasStats tier then putVarint64 e.prxOffDelta ++ putVarint64 e.prxLen else []

/-- A byte string behind its length. -/
def putBlob (bytes : Bytes) : Bytes := putVarint64 bytes.length ++ bytes

/-- The postings themselves, without checksums, for the block has one. -/
def writeInline (e : DictEntry) (tier : IndexTier) : Bytes :=
  putBlob e.frqBytes ++ putVarint64 e.inlineDdDiskLen ++ writeRegionMeta e tier false ++
    if tierHasStats tier then putBlob e.prxBytes else []

/-- An entry without its length: term key, flags, statistics, locator. -/
def writeBody (e : DictEntry) (prev : Bytes) (tier : IndexTier) : Bytes :=
  writeTermKey e.term prev ++ putU8 (packFlags e) ++ writeStats e tier ++
    if e.kind = .inline then writeInline e tier else writePodRef e tier

/-- An entry behind its length, so that a reader can skip it. -/
def encodeDictEntry (e : DictEntry) (prev : Bytes) (tier : IndexTier) : Bytes :=
  putBlob (writeBody e prev tier)

/-! ## Decoding -/

/-- A front-coded term; `tooLong` is the status for a shared part longer than `prev`. -/
def readFrontCoded (tooLong : Status) (prev : Bytes) : Source Bytes := do
  let pre ← getVarint32
  let suffixLen ← getVarint32
  if pre > prev.length then throw tooLong
  else do
    let suffix ← getBytes suffixLen
    pure (prev.take pre ++ suffix)

/-- The term, from the part shared with `prev` and its own rest. -/
def readTermKey (prev : Bytes) : Source Bytes :=
  readFrontCoded (.corruption "dict_entry: prefix_len exceeds prev_term length") prev

/-- `df`, `ttf_delta` and `max_freq`; a tier without statistics reads zeros for the last two. -/
def readStats (tier : IndexTier) : Source (Nat × Nat × Nat) := do
  let df ← getVarint32
  if tierHasStats tier then do
    let ttf ← getVarint64
    let maxFreq ← getVarint64
    pure (df, ttf, maxFreq)
  else pure (df, 0, 0)

/-- The metadata of a region whose length on disk is known from elsewhere. -/
def readRegion (zstd hasCrc : Bool) (diskLen : Nat) : Source FrqRegionMeta := do
  let uncompLen ← getVarint64
  if hasCrc then do
    let crc ← getFixed32
    pure { zstd := zstd, uncompLen := uncompLen, diskLen := diskLen, crc := crc, verifyCrc := true }
  else pure { zstd := zstd, uncompLen := uncompLen, diskLen := diskLen, verifyCrc := false }

/-- The two region metadata of a single-window entry. -/
def readRegionMeta (tier : IndexTier) (hasCrc : Bool) (ddDiskLen freqDiskLen : Nat) :
    Source (FrqRegionMeta × FrqRegionMeta) := do
  let mode ← getU8
  if mode / 4 ≠ 0 then throw (.corruption "dict_entry: unknown win_mode bits")
  else do
    let dd ← readRegion (hasBit mode 0) hasCrc ddDiskLen
    if tierHasStats tier then do
      let freq ← readRegion (hasBit mode 1) hasCrc freqDiskLen
      pure (dd, freq)
    else if hasBit mode 1 then throw (.corruption "dict_entry: freq mode set without freq tier")
    else pure (dd, {})

/-- Offset and length of the positions, at tiers that have them. -/
def readPrxRef (tier : IndexTier) : Source (Nat × Nat) :=
  if tierHasStats tier then do
    let off ← getVarint64
    let len ← getVarint64
    pure (off, len)
  else pure (0, 0)

/-- The locator of an entry in the posting region; a slim one states how its two regions
share the bytes. -/
def readPodRef (tier : IndexTier) (e : DictEntry) : Source DictEntry := do
  let frqOffDelta ← getVarint64
  let frqLen ← getVarint64
  if e.enc = .windowed then do
    let preludeLen ← getVarint64
    let (prxOff, prxLen) ← readPrxRef tier
    pure { e with frqOffDelta := frqOffDelta, frqLen := frqLen, preludeLen := preludeLen
                  prxOffDelta := prxOff, prxLen := prxLen }
  else do
    let frqDocsLen ← getVarint64
    if frqDocsLen > frqLen then throw (.corruption "dict_entry: frq_docs_len exceeds frq_len")
    else do
      let (dd, freq) ← readRegionMeta tier true frqDocsLen (frqLen - frqDocsLen)
      let (prxOff, prxLen) ← readPrxRef tier
      pure { e with frqOffDelta := frqOffDelta, frqLen := frqLen, frqDocsLen := frqDocsLen
                    ddMeta := dd, freqMeta := freq, prxOffDelta := prxOff, prxLen := prxLen }

/-- A byte string behind its length. -/
def readByteBlob : Source Bytes := do
  let len ← getVarint64
  getBytes len

/-- The inline positions, at tiers that have them. -/
def readPrxBytes (tier : IndexTier) : Source Bytes :=
  if tierHasStats tier then readByteBlob else pure []

/-- The postings of an inline entry, cut into their two regions. -/
def readInline (tier : IndexTier) (e : DictEntry) : Source DictEntry := do
  let frqBytes ← readByteBlob
  let ddLen ← getVarint64
  if ddLen > frqBytes.length then
    throw (.corruption "dict_entry: inline_dd_disk_len exceeds frq_bytes")
  else do
    let (dd, freq) ← readRegionMeta tier false ddLen (frqBytes.length - ddLen)
    let prxBytes ← readPrxBytes tier
    pure { e with frqBytes := frqBytes, inlineDdDiskLen := ddLen, ddMeta := dd, freqMeta := freq
                  prxBytes := prxBytes }

/-- By the entry's kind. -/
def readLocator (tier : IndexTier) (e : DictEntry) : Source DictEntry :=
  if e.kind = .inline then readInline tier e else readPodRef tier e

/-- An entry without its length; unknown flag bits are ignored. -/
def readBody (prev : Bytes) (tier : IndexTier) : Source DictEntry := do
  let term ← readTermKey prev
  let flags ← getU8
  let (df, ttf, maxFreq) ← readStats tier
  readLocator tier
    { term := term, kind := if hasBit flags 0 then .inline else .podRef
      enc := if hasBit flags 1 then .windowed else .slim, hasSb := hasBit flags 2
      df := df, ttfDelta := ttf, maxFreq := maxFreq }

/-- The length of the body, which must be there. -/
def readEntryLen : Source Nat := do
  let total ← getVarint64
  let left ← remaining
  if total > left then throw (.corruption "dict_entry: entry_len out of range") else pure total

/-- An entry, whose body must have the stated length. -/
def decodeDictEntry (prev : Bytes) (tier : IndexTier) : Source DictEntry := do
  let total ← readEntryLen
  let (e, body) ← consumed (readBody prev tier)
  if body.length ≠ total then
    throw (.corruption "dict_entry: body length does not match entry_len")
  else pure e

/-- Skips an entry without decoding its body. -/
def skipDictEntry : Source Unit := do
  let total ← readEntryLen
  let _ ← getBytes total
  pure ()

/-! ## What is stored -/

/-- A region's metadata as read back. -/
def storedRegion (m : FrqRegionMeta) (hasCrc : Bool) (diskLen : Nat) : FrqRegionMeta :=
  { zstd := m.zstd, uncompLen := m.uncompLen, diskLen := diskLen
    crc := if hasCrc then m.crc else 0, verifyCrc := hasCrc }

/-- The part of an entry that the format keeps at a tier. -/
def DictEntry.stored (tier : IndexTier) (e : DictEntry) : DictEntry :=
  let base : DictEntry :=
    { term := e.term, kind := e.kind, enc := e.enc, hasSb := e.hasSb, df := e.df
      ttfDelta := if tierHasStats tier then e.ttfDelta else 0
      maxFreq := if tierHasStats tier then e.maxFreq else 0 }
  match e.kind, e.enc with
  | .inline, _ =>
      { base with
        frqBytes := e.frqBytes, inlineDdDiskLen := e.inlineDdDiskLen
        ddMeta := storedRegion e.ddMeta false e.inlineDdDiskLen
        freqMeta := if tierHasStats tier then
            storedRegion e.freqMeta false (e.frqBytes.length - e.inlineDdDiskLen) else {}
        prxBytes := if tierHasStats tier then e.prxBytes else [] }
  | .podRef, .windowed =>
      { base with
        frqOffDelta := e.frqOffDelta, frqLen := e.frqLen, preludeLen := e.preludeLen
        prxOffDelta := if tierHasStats tier then e.prxOffDelta else 0
        prxLen := if tierHasStats tier then e.prxLen else 0 }
  | .podRef, .slim =>
      { base with
        frqOffDelta := e.frqOffDelta, frqLen := e.frqLen, frqDocsLen := e.frqDocsLen
        ddMeta := storedRegion e.ddMeta true e.frqDocsLen
        freqMeta := if tierHasStats tier then
            storedRegion e.freqMeta true (e.frqLen - e.frqDocsLen) else {}
        prxOffDelta := if tierHasStats tier then e.prxOffDelta else 0
        prxLen := if tierHasStats tier then e.prxLen else 0 }

@[simp] theorem DictEntry.stored_enc (tier : IndexTier) (e : DictEntry) :
    (e.stored tier).enc = e.enc := by
  cases hk : e.kind <;> cases he : e.enc <;> simp only [DictEntry.stored, hk, he]

@[simp] theorem DictEntry.stored_term (tier : IndexTier) (e : DictEntry) :
    (e.stored tier).term = e.term := by
  rw [DictEntry.stored]
  cases e.kind <;> cases e.enc <;> rfl

/-- The numbers of a term that a tier keeps. -/
theorem DictEntry.stored_stats (tier : IndexTier) (e : DictEntry) :
    (e.stored tier).df = e.df ∧
      (e.stored tier).ttfDelta = if tierHasStats tier then e.ttfDelta else 0 := by
  rw [DictEntry.stored]
  cases e.kind <;> cases e.enc <;> exact ⟨rfl, rfl⟩

/-! ## Round trip -/

/-- An entry whose fields have the widths of their types and whose lengths agree. -/
structure WellFormed (e : DictEntry) : Prop where
  df : e.df < 2 ^ 32
  stats : e.ttfDelta < 2 ^ 64 ∧ e.maxFreq < 2 ^ 64
  frq : e.frqOffDelta < 2 ^ 64 ∧ e.frqLen < 2 ^ 64 ∧ e.preludeLen < 2 ^ 64
  docs : e.kind = .podRef → e.enc = .slim → e.frqDocsLen ≤ e.frqLen
  prx : e.prxOffDelta < 2 ^ 64 ∧ e.prxLen < 2 ^ 64
  ddMeta : e.ddMeta.uncompLen < 2 ^ 64 ∧ e.ddMeta.crc < 2 ^ 32
  freqMeta : e.freqMeta.uncompLen < 2 ^ 64 ∧ e.freqMeta.crc < 2 ^ 32
  inlineDd : e.kind = .inline → e.inlineDdDiskLen ≤ e.frqBytes.length
  inlineFrq : e.frqBytes.length < 2 ^ 64
  inlinePrx : e.prxBytes.length < 2 ^ 64

/-- Region metadata stands in the entry itself unless a prelude holds it. -/
def HasRegionMeta (e : DictEntry) : Prop := e.kind = .inline ∨ e.enc = .slim

/-- What an entry must satisfy to be read back behind `prev`: 32 bits hold the length of
what its term does not share with `prev`, and a tier without freqs has no compressed ones. -/
structure Storable (tier : IndexTier) (prev : Bytes) (e : DictEntry) : Prop where
  suffix : (e.term.drop (commonPrefixLen e.term prev)).length < 2 ^ 32
  freqMode : tierHasStats tier = false → HasRegionMeta e → e.freqMeta.zstd = false

/-- An entry whose fields have the widths of the format and whose lengths agree. -/
structure EntryOk (tier : IndexTier) (e : DictEntry) : Prop where
  term : e.term.length < 2 ^ 32
  df : e.df < 2 ^ 32
  stats : e.ttfDelta < 2 ^ 64 ∧ e.maxFreq < 2 ^ 64
  frq : e.frqOffDelta < 2 ^ 64 ∧ e.frqLen < 2 ^ 64 ∧ e.preludeLen < 2 ^ 64
  docs : e.kind = .podRef → e.enc = .slim → e.frqDocsLen ≤ e.frqLen
  prx : e.prxOffDelta < 2 ^ 64 ∧ e.prxLen < 2 ^ 64
  ddMeta : e.ddMeta.uncompLen < 2 ^ 64 ∧ e.ddMeta.crc < 2 ^ 32
  freqMeta : e.freqMeta.uncompLen < 2 ^ 64 ∧ e.freqMeta.crc < 2 ^ 32
  freqMode : tierHasStats tier = false → e.freqMeta.zstd = false
  inlineDd : e.kind = .inline → e.inlineDdDiskLen ≤ e.frqBytes.length
  inlineFrq : e.frqBytes.length < 2 ^ 64
  inlinePrx : e.prxBytes.length < 2 ^ 64

variable {tier : IndexTier} {e : DictEntry} {prev : Bytes}

theorem EntryOk.wellFormed (h : EntryOk tier e) : WellFormed e :=
  ⟨h.df, h.stats, h.frq, h.docs, h.prx, h.ddMeta, h.freqMeta, h.inlineDd, h.inlineFrq,
    h.inlinePrx⟩

/-- What fits the format can be stored behind any term. -/
theorem EntryOk.storable (h : EntryOk tier e) (prev : Bytes) : Storable tier prev e := by
  refine ⟨?_, fun htier _ => h.freqMode htier⟩
  have hterm := h.term
  rw [List.length_drop]
  omega

theorem take_commonPrefixLoop (lim : Nat) (term prev : Bytes) :
    prev.take (commonPrefixLoop lim term prev) = term.take (commonPrefixLoop lim term prev) ∧
      commonPrefixLoop lim term prev ≤ term.length ∧
      commonPrefixLoop lim term prev ≤ prev.length ∧ commonPrefixLoop lim term prev ≤ lim := by
  fun_induction commonPrefixLoop lim term prev with
  | case1 lim a as bs ih =>
      obtain ⟨htake, hle, hle', hlim⟩ := ih
      rw [List.take_succ_cons, List.take_succ_cons, htake]
      exact ⟨rfl, Nat.succ_le_succ hle, Nat.succ_le_succ hle', Nat.succ_le_succ hlim⟩
  | case2 => exact ⟨rfl, Nat.zero_le _, Nat.zero_le _, Nat.zero_le _⟩
  | case3 => exact ⟨rfl, Nat.zero_le _, Nat.zero_le _, Nat.zero_le _⟩

/-- The common part is common. -/
theorem take_commonPrefixLen (term prev : Bytes) :
    prev.take (commonPrefixLen term prev) = term.take (commonPrefixLen term prev) ∧
      commonPrefixLen term prev ≤ term.length ∧ commonPrefixLen term prev ≤ prev.length := by
  obtain ⟨htake, hle, hle', _⟩ :=
    take_commonPrefixLoop (min term.length prev.length % 2 ^ 32) term prev
  exact ⟨htake, hle, hle'⟩

theorem commonPrefixLen_lt (term prev : Bytes) : commonPrefixLen term prev < 2 ^ 32 := by
  have hlim := (take_commonPrefixLoop (min term.length prev.length % 2 ^ 32) term prev).2.2.2
  exact Nat.lt_of_le_of_lt hlim (Nat.mod_lt _ (Nat.two_pow_pos 32))

/-- A front-coded term whose suffix has a length of 32 bits. -/
theorem reads_frontCoded_suffix {term prev : Bytes}
    (hsuffix : (term.drop (commonPrefixLen term prev)).length < 2 ^ 32) (tooLong : Status) :
    Reads (readFrontCoded tooLong prev) (writeTermKey term prev) term := by
  obtain ⟨htake, hle, hle'⟩ := take_commonPrefixLen term prev
  rw [writeTermKey, List.append_assoc, Nat.mod_eq_of_lt hsuffix]
  refine (reads_getVarint32 (commonPrefixLen_lt term prev)).bind
    ((reads_getVarint32 hsuffix).bind ?_)
  refine Reads.if_neg (by omega) ((reads_getBytes _).bind_nil ?_)
  rw [htake, List.take_append_drop]
  exact Reads.pure _

/-- **A front-coded term** reads back behind the same term. -/
theorem reads_frontCoded {term : Bytes} (hterm : term.length < 2 ^ 32) (tooLong : Status)
    (prev : Bytes) : Reads (readFrontCoded tooLong prev) (writeTermKey term prev) term := by
  apply reads_frontCoded_suffix
  rw [List.length_drop]
  omega

theorem reads_stats (h : WellFormed e) :
    Reads (readStats tier) (writeStats e tier)
      (e.df, if tierHasStats tier then e.ttfDelta else 0,
        if tierHasStats tier then e.maxFreq else 0) := by
  refine (reads_getVarint32 h.df).bind ?_
  cases htier : tierHasStats tier with
  | true =>
      exact (reads_getVarint64 h.stats.1).bind ((reads_getVarint64 h.stats.2).bind_nil
        (Reads.pure _))
  | false => exact Reads.pure _

/-- A region's description reads back as it is stored. -/
theorem reads_region {m : FrqRegionMeta} (hlen : m.uncompLen < 2 ^ 64) (hcrc : m.crc < 2 ^ 32)
    (hasCrc : Bool) (diskLen : Nat) :
    Reads (readRegion m.zstd hasCrc diskLen) (writeRegion m hasCrc)
      (storedRegion m hasCrc diskLen) := by
  refine (reads_getVarint64 hlen).bind ?_
  cases hasCrc with
  | true => exact (reads_getFixed32 hcrc).bind_nil (Reads.pure _)
  | false => exact Reads.pure _

theorem reads_regionMeta (h : WellFormed e)
    (hmode : tierHasStats tier = false → e.freqMeta.zstd = false) (hasCrc : Bool)
    (ddLen freqLen : Nat) :
    Reads (readRegionMeta tier hasCrc ddLen freqLen) (writeRegionMeta e tier hasCrc)
      (storedRegion e.ddMeta hasCrc ddLen,
        if tierHasStats tier then storedRegion e.freqMeta hasCrc freqLen else {}) := by
  obtain ⟨hdd, hfreq, hsmall⟩ := bits_decode e.ddMeta.zstd e.freqMeta.zstd
  rw [writeRegionMeta, List.append_assoc]
  refine (reads_getU8 (show packWinMode e < 256 from Nat.lt_trans hsmall (by decide))).bind ?_
  refine Reads.if_neg (by rw [packWinMode]; omega) ?_
  rw [packWinMode, hdd, hfreq]
  refine (reads_region h.ddMeta.1 h.ddMeta.2 hasCrc ddLen).bind ?_
  cases htier : tierHasStats tier with
  | true => exact (reads_region h.freqMeta.1 h.freqMeta.2 hasCrc freqLen).bind_nil (Reads.pure _)
  | false =>
      exact Reads.if_neg (by simp) (Reads.if_neg (by rw [hmode htier]; simp) (Reads.pure _))

theorem reads_blob {bytes : Bytes} (h : bytes.length < 2 ^ 64) :
    Reads readByteBlob (putBlob bytes) bytes :=
  (reads_getVarint64 h).bind (reads_getBytes bytes)

theorem reads_prxRef (h : WellFormed e) :
    Reads (readPrxRef tier)
      (if tierHasStats tier then putVarint64 e.prxOffDelta ++ putVarint64 e.prxLen else [])
      (if tierHasStats tier then e.prxOffDelta else 0,
        if tierHasStats tier then e.prxLen else 0) := by
  rw [readPrxRef]
  cases tierHasStats tier with
  | true =>
      exact (reads_getVarint64 h.prx.1).bind ((reads_getVarint64 h.prx.2).bind_nil (Reads.pure _))
  | false => exact Reads.pure _

/-- The flags byte gives the three flags back. -/
theorem hasBit_packFlags (e : DictEntry) :
    hasBit (packFlags e) 0 = decide (e.kind = .inline) ∧
      hasBit (packFlags e) 1 = decide (e.enc = .windowed) ∧ hasBit (packFlags e) 2 = e.hasSb ∧
      packFlags e < 256 := by
  rw [packFlags]
  cases e.kind <;> cases e.enc <;> cases e.hasSb <;> decide

/-- What an entry's key, flags and statistics read back as. -/
def DictEntry.head (tier : IndexTier) (e : DictEntry) : DictEntry :=
  { term := e.term, kind := e.kind, enc := e.enc, hasSb := e.hasSb, df := e.df
    ttfDelta := if tierHasStats tier then e.ttfDelta else 0
    maxFreq := if tierHasStats tier then e.maxFreq else 0 }

/-- The bytes of an inline entry read back. -/
theorem reads_inline (h : WellFormed e) (hs : Storable tier prev e) (hkind : e.kind = .inline) :
    Reads (readInline tier (e.head tier)) (writeInline e tier) (e.stored tier) := by
  have hdd := h.inlineDd hkind
  have hfrq := h.inlineFrq
  have hprx : Reads (readPrxBytes tier) (if tierHasStats tier then putBlob e.prxBytes else [])
      (if tierHasStats tier then e.prxBytes else []) := by
    rw [readPrxBytes]
    cases tierHasStats tier with
    | true => exact reads_blob h.inlinePrx
    | false => exact Reads.pure _
  simp only [writeInline, List.append_assoc]
  refine (reads_blob hfrq).bind ((reads_getVarint64 (by omega)).bind (Reads.if_neg (by omega) ?_))
  have hmode := fun htier => hs.freqMode htier (Or.inl hkind)
  refine (reads_regionMeta h hmode false _ _).bind (hprx.bind_nil ?_)
  simp only [DictEntry.stored, DictEntry.head, hkind]
  exact Reads.pure _

/-- The spans of the other entries read back. -/
theorem reads_podRef (h : WellFormed e) (hs : Storable tier prev e) (hkind : e.kind = .podRef) :
    Reads (readPodRef tier (e.head tier)) (writePodRef e tier) (e.stored tier) := by
  obtain ⟨hoff, hlen, hprelude⟩ := h.frq
  simp only [writePodRef, List.append_assoc]
  refine (reads_getVarint64 hoff).bind ((reads_getVarint64 hlen).bind ?_)
  cases henc : e.enc with
  | windowed =>
      refine Reads.if_pos henc ?_
      refine (reads_getVarint64 hprelude).bind ((reads_prxRef h).bind_nil ?_)
      simp only [DictEntry.stored, DictEntry.head, hkind, henc]
      exact Reads.pure _
  | slim =>
      have hdocs := h.docs hkind henc
      refine Reads.if_neg (by rw [DictEntry.head, henc]; decide) ?_
      rw [if_neg (by decide), List.append_assoc]
      refine (reads_getVarint64 (by omega)).bind (Reads.if_neg (by omega) ?_)
      have hmode := fun htier => hs.freqMode htier (Or.inr henc)
      refine (reads_regionMeta h hmode true _ _).bind ((reads_prxRef h).bind_nil ?_)
      simp only [DictEntry.stored, DictEntry.head, hkind, henc]
      exact Reads.pure _

/-- The bytes of the locator, by kind. -/
def writeLocator (e : DictEntry) (tier : IndexTier) : Bytes :=
  if e.kind = .inline then writeInline e tier else writePodRef e tier

/-- Key, flags and statistics are read before the locator. -/
theorem run_readBody (h : WellFormed e)
    (hsuffix : (e.term.drop (commonPrefixLen e.term prev)).length < 2 ^ 32) (more : Bytes) :
    (readBody prev tier).run (writeBody e prev tier ++ more) =
      (readLocator tier (e.head tier)).run (writeLocator e tier ++ more) := by
  obtain ⟨h0, h1, h2, hsmall⟩ := hasBit_packFlags e
  have hhead : ({ term := e.term, kind := if hasBit (packFlags e) 0 then .inline else .podRef
                  enc := if hasBit (packFlags e) 1 then .windowed else .slim
                  hasSb := hasBit (packFlags e) 2, df := e.df
                  ttfDelta := if tierHasStats tier then e.ttfDelta else 0
                  maxFreq := if tierHasStats tier then e.maxFreq else 0 } : DictEntry) =
      e.head tier := by
    rw [h0, h1, h2, DictEntry.head]
    cases e.kind <;> cases e.enc <;> rfl
  rw [readBody, writeBody, List.append_assoc, List.append_assoc, List.append_assoc, readTermKey,
    (reads_frontCoded_suffix hsuffix _).run_bind, (reads_getU8 hsmall).run_bind,
    (reads_stats h).run_bind, writeLocator]
  simp only
  rw [hhead]

/-- **The body** reads back as the tier stores it. -/
theorem reads_body (h : WellFormed e) (hs : Storable tier prev e) :
    Reads (readBody prev tier) (writeBody e prev tier) (e.stored tier) := by
  intro more
  rw [run_readBody h hs.suffix, readLocator, writeLocator]
  cases hkind : e.kind with
  | inline =>
      rw [if_pos (show (e.head tier).kind = .inline from hkind), if_pos rfl]
      exact reads_inline h hs hkind more
  | podRef =>
      have hhead : ¬ (e.head tier).kind = .inline := by
        rw [DictEntry.head, hkind]
        decide
      rw [if_neg hhead, if_neg (by decide)]
      exact reads_podRef h hs hkind more

/-- The length that stands before a body, and room for the body behind it. -/
theorem readEntryLen_run {body : Bytes} (h : body.length < 2 ^ 64) (rest : Bytes) :
    readEntryLen.run (putBlob body ++ rest) = .ok (body.length, body ++ rest) := by
  have hlen : readEntryLen.run (putVarint64 body.length ++ (body ++ rest)) =
      (if body.length > (body ++ rest).length then
        Except.error (.corruption "dict_entry: entry_len out of range")
      else .ok (body.length, body ++ rest)) := by
    have hget := reads_getVarint64 h (body ++ rest)
    rw [readEntryLen, StateT.run_bind, hget]
    show (if body.length > (body ++ rest).length then throw _ else pure _ : Source Nat).run _ = _
    split <;> rfl
  rw [putBlob, List.append_assoc, hlen, if_neg (by simp)]

/-- **Round trip**: an entry that can be stored reads back as its stored part. -/
theorem reads_storable (h : WellFormed e) (hs : Storable tier prev e)
    (hlen : (writeBody e prev tier).length < 2 ^ 64) :
    Reads (decodeDictEntry prev tier) (encodeDictEntry e prev tier) (e.stored tier) := by
  intro rest
  have hbody := (reads_body h hs).consumed rest
  rw [decodeDictEntry, StateT.run_bind, encodeDictEntry, readEntryLen_run hlen, ok_bind,
    StateT.run_bind, hbody, ok_bind]
  simp only [ne_eq, not_true_eq_false, if_false]
  rfl

/-- **An entry** reads back as the tier stores it. -/
theorem reads_dictEntry (h : EntryOk tier e) (hlen : (writeBody e prev tier).length < 2 ^ 64) :
    Reads (decodeDictEntry prev tier) (encodeDictEntry e prev tier) (e.stored tier) :=
  reads_storable h.wellFormed (h.storable prev) hlen

/-- Skipping an entry ends where decoding it does. -/
theorem reads_skipDictEntry (hlen : (writeBody e prev tier).length < 2 ^ 64) :
    Reads skipDictEntry (encodeDictEntry e prev tier) () := by
  intro rest
  have hget := (reads_getBytes (writeBody e prev tier)) rest
  rw [skipDictEntry, StateT.run_bind, encodeDictEntry, readEntryLen_run hlen, ok_bind,
    StateT.run_bind, hget]
  rfl

end Snii.Format.Dict
