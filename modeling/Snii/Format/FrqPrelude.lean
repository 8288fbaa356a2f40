import Snii.Format.FrqPod

/-!
# The window directory

`frq_prelude.cpp`.  A windowed posting starts with a directory of its windows in
two levels: super-blocks of `G` windows with their last docids, and for each
window where its regions lie.  The checksum covers the header and the super-block
level.  Offsets and lengths are 64-bit; sub-slices are taken with `subslice`, an
error when the range is not inside the slice.
-/

namespace Snii.Format.FrqPrelude

open Snii.Lib.ByteReader Snii.Lib.Chunks Snii.Common
open Snii.Encoding.ByteSource Snii.Encoding.Crc32c

/-- The cap on the windows of a prelude. -/
def kMaxWindows : Nat := 2 ^ 24

/-- The row of a window: its documents, and its three regions in their blocks. -/
structure WindowMeta where
  lastDocid : Nat := 0
  winBase : Nat := 0
  docCount : Nat := 0
  ddZstd : Bool := false
  ddOff : Nat := 0
  ddDiskLen : Nat := 0
  ddUncompLen : Nat := 0
  crcDd : Nat := 0
  freqZstd : Bool := false
  freqOff : Nat := 0
  freqDiskLen : Nat := 0
  freqUncompLen : Nat := 0
  crcFreq : Nat := 0
  prxOff : Nat := 0
  prxLen : Nat := 0
  maxFreq : Nat := 0
  maxNorm : Nat := 0
  verifyCrc : Bool := true
deriving DecidableEq

/-- What a prelude is built from. -/
structure FrqPreludeColumns where
  hasFreq : Bool := true
  hasPrx : Bool := false
  groupSize : Nat := 64
  windows : List WindowMeta

/-! ## Building -/

/-- In 64 bits, as the source rounds up. -/
def ceilDiv (a b : Nat) : Nat := (a + b - 1) % 2 ^ 64 / b

/-- A flag's bit. -/
def bit (b : Bool) (k : Nat) : Nat := if b then 2 ^ k else 0

/-- Whether a bit is set. -/
def hasBit (v k : Nat) : Bool := v / 2 ^ k % 2 == 1

/-- The flag byte. -/
def makeFlags (hasFreq hasPrx : Bool) : Nat := bit hasFreq 0 + bit hasPrx 1

/-- Which regions of a window are compressed; the freq bit needs freqs. -/
def makeWinMode (m : WindowMeta) (hasFreq : Bool) : Nat :=
  bit m.ddZstd 0 + bit (hasFreq && m.freqZstd) 1

/-- What the builder refuses. -/
def validateInput (cols : FrqPreludeColumns) : Result Unit :=
  if cols.groupSize = 0 then .error (.invalidArgument "frq_prelude: group_size must be >= 1")
  else if cols.windows.length > kMaxWindows then
    .error (.invalidArgument "frq_prelude: window count exceeds cap")
  else if ¬ (cols.windows.map WindowMeta.lastDocid).IsChain (· ≤ ·) then
    .error (.invalidArgument "frq_prelude: last_docid not monotonic")
  else .ok ()

/-- A row; its last docid is stored as the difference from the row before. -/
def encodeWindowRow (hasFreq hasPrx : Bool) (prevLast : Nat) (m : WindowMeta) : Bytes :=
  putVarint64 (m.lastDocid - prevLast) ++ putVarint64 m.docCount ++
    putU8 (makeWinMode m hasFreq) ++
    putVarint64 m.ddOff ++ putVarint64 m.ddDiskLen ++ putVarint64 m.ddUncompLen ++
    putFixed32 m.crcDd ++
    (if hasFreq then
      putVarint64 m.freqOff ++ putVarint64 m.freqDiskLen ++ putVarint64 m.freqUncompLen ++
        putFixed32 m.crcFreq
    else []) ++
    (if hasPrx then putVarint64 m.prxOff ++ putVarint64 m.prxLen else []) ++
    putVarint64 m.maxFreq ++ putU8 m.maxNorm

/-- The rows of consecutive windows, each relative to the one before. -/
def encodeRows (hasFreq hasPrx : Bool) : Nat → List WindowMeta → Bytes
  | _, [] => []
  | prevLast, m :: ms =>
      encodeWindowRow hasFreq hasPrx prevLast m ++ encodeRows hasFreq hasPrx m.lastDocid ms

/-- The last docid after a group of windows. -/
def lastOf (prevLast : Nat) (ms : List WindowMeta) : Nat :=
  (ms.getLast?.map WindowMeta.lastDocid).getD prevLast

/-- The rows of one group and the last docid of the last of them. -/
structure SuperBlock where
  block : Bytes
  lastDocid : Nat

/-- A super-block for each group. -/
def encodeSuperBlocks (hasFreq hasPrx : Bool) : Nat → List (List WindowMeta) → List SuperBlock
  | _, [] => []
  | prevLast, g :: gs =>
      { block := encodeRows hasFreq hasPrx prevLast g, lastDocid := lastOf prevLast g } ::
        encodeSuperBlocks hasFreq hasPrx (lastOf prevLast g) gs

/-- The directory: last docid, offset and length of every super-block. -/
def encodeSuperBlockDir : Nat → Nat → List SuperBlock → Bytes
  | _, _, [] => []
  | prevLast, blockOff, sb :: sbs =>
      putVarint64 (sb.lastDocid - prevLast) ++ putVarint64 blockOff ++
        putVarint64 sb.block.length ++
        encodeSuperBlockDir sb.lastDocid (blockOff + sb.block.length) sbs

/-- Header, directory, checksum over both, then the rows. -/
def buildFrqPrelude (cols : FrqPreludeColumns) : Result Bytes := do
  validateInput cols
  let blocks := encodeSuperBlocks cols.hasFreq cols.hasPrx 0 (chunks cols.groupSize cols.windows)
  let dir := encodeSuperBlockDir 0 0 blocks
  let covered := putU8 (makeFlags cols.hasFreq cols.hasPrx) ++ putVarint64 cols.windows.length ++
    putVarint64 cols.groupSize ++ putVarint64 blocks.length ++ putVarint64 dir.length ++ dir
  pure (covered ++ putFixed32 (crc32c covered) ++ blocks.flatMap SuperBlock.block)

/-! ## Opening -/

/-- The header as read. -/
structure Header where
  hasFreq : Bool
  hasPrx : Bool
  n : Nat
  groupSize : Nat
  nSuper : Nat
  sbdirLen : Nat

/-- The checksum behind header and directory.  The two lengths are added in 64 bits. -/
def verifyCoveredCrc (prelude : Bytes) (headerEnd sbdirLen : Nat) : Result Unit := do
  let covered := (headerEnd + sbdirLen) % 2 ^ 64
  if (covered + 4) % 2 ^ 64 > prelude.length then
    .error (.corruption "frq_prelude: buffer too short for crc region")
  else
    let crcBytes ← subslice prelude covered 4
    let (stored, _) ← getFixed32.run crcBytes
    let bytes ← subslice prelude 0 covered
    if crc32c bytes ≠ stored then .error (.corruption "frq_prelude: crc32c mismatch") else .ok ()

/-- The header; the number of groups must be what the two counts give. -/
def parseHeader : Source Header := do
  let flags ← getU8
  let n ← getVarint64
  let groupSize ← getVarint64
  let nSuper ← getVarint64
  let sbdirLen ← getVarint64
  if n > kMaxWindows ∨ nSuper > kMaxWindows then
    throw (.corruption "frq_prelude: window count exceeds sane cap")
  else if groupSize = 0 then throw (.corruption "frq_prelude: group_size is zero")
  else if nSuper ≠ ceilDiv n groupSize then
    throw (.corruption "frq_prelude: n_super inconsistent with N/G")
  else
    pure { hasFreq := hasBit flags 0, hasPrx := hasBit flags 1, n := n, groupSize := groupSize
           nSuper := nSuper, sbdirLen := sbdirLen }

/-- A row of the directory. -/
structure SbDirRow where
  lastDocid : Nat
  blockOff : Nat
  blockLen : Nat

/-- The rows of the super-block level and the length of the window level. -/
def readSbDirRows : Nat → Nat → Nat → Source (List SbDirRow × Nat)
  | 0, _, expectOff => pure ([], expectOff)
  | s + 1, prevLast, expectOff => do
      let ldd ← getVarint64
      let blockOff ← getVarint64
      let blockLen ← getVarint64
      let lastDocid := (prevLast + ldd) % 2 ^ 64
      if lastDocid < prevLast ∨ blockOff ≠ expectOff then
        throw (.corruption "frq_prelude: super-block dir inconsistent")
      else do
        let (rows, len) ← readSbDirRows s lastDocid ((expectOff + blockLen) % 2 ^ 64)
        pure ({ lastDocid := lastDocid, blockOff := blockOff, blockLen := blockLen } :: rows, len)

/-- The directory, which its rows must fill. -/
def decodeSuperBlockDir (dir : Bytes) (h : Header) : Result (List SbDirRow × Nat) :=
  parseAll (readSbDirRows h.nSuper 0 0) "frq_prelude: super-block dir has trailing bytes" dir

/-- Refuses unknown bits, and a compressed freq region where there are no freqs. -/
def checkWinMode (mode : Nat) (hasFreq : Bool) : Result Unit :=
  if mode / 4 ≠ 0 then .error (.corruption "frq_prelude: unknown win_mode bits")
  else if ¬ hasFreq ∧ hasBit mode 1 then
    .error (.corruption "frq_prelude: freq mode set without has_freq")
  else .ok ()

/-- Offset, lengths and checksum of the freq region, when there is one. -/
def readFreqLocator (hasFreq : Bool) : Source (Nat × Nat × Nat × Nat) :=
  if hasFreq then do
    let off ← getVarint64
    let diskLen ← getVarint64
    let uncompLen ← getVarint64
    let crc ← getFixed32
    pure (off, diskLen, uncompLen, crc)
  else pure (0, 0, 0, 0)

/-- Offset and length of the position window, when there is one. -/
def readPrxLocator (hasPrx : Bool) : Source (Nat × Nat) :=
  if hasPrx then do
    let off ← getVarint64
    let len ← getVarint64
    pure (off, len)
  else pure (0, 0)

/-- A row behind the last docid of the one before. -/
def decodeWindowRow (hasFreq hasPrx : Bool) (prevLast : Nat) : Source WindowMeta := do
  let ldd ← getVarint64
  let docCount ← getVarint64
  let mode ← getU8
  StateT.lift (checkWinMode mode hasFreq)
  let ddOff ← getVarint64
  let ddDiskLen ← getVarint64
  let ddUncompLen ← getVarint64
  let crcDd ← getFixed32
  let (freqOff, freqDiskLen, freqUncompLen, crcFreq) ← readFreqLocator hasFreq
  let (prxOff, prxLen) ← readPrxLocator hasPrx
  let maxFreq ← getVarint64
  let maxNorm ← getU8
  pure { lastDocid := (prevLast + ldd) % 2 ^ 32, winBase := prevLast
         docCount := docCount % 2 ^ 32, ddZstd := hasBit mode 0
         ddOff := ddOff, ddDiskLen := ddDiskLen, ddUncompLen := ddUncompLen, crcDd := crcDd
         freqZstd := hasFreq && hasBit mode 1
         freqOff := freqOff, freqDiskLen := freqDiskLen, freqUncompLen := freqUncompLen
         crcFreq := crcFreq, prxOff := prxOff, prxLen := prxLen
         maxFreq := maxFreq % 2 ^ 32, maxNorm := maxNorm }

/-- The rows of a super-block. -/
def readRows (hasFreq hasPrx : Bool) : Nat → Nat → Source (List WindowMeta)
  | 0, _ => pure []
  | n + 1, prevLast => do
      let m ← decodeWindowRow hasFreq hasPrx prevLast
      let ms ← readRows hasFreq hasPrx n m.lastDocid
      pure (m :: ms)

/-- One super-block's windows; the last docid must be the one its row states. -/
def decodeOneBlock (block : Bytes) (h : Header) (sbLastDocid rowCount prevLast : Nat) :
    Result (List WindowMeta) := do
  let ms ← parseAll (readRows h.hasFreq h.hasPrx rowCount prevLast)
    "frq_prelude: window block has trailing bytes" block
  if lastOf prevLast ms ≠ sbLastDocid then
    .error (.corruption "frq_prelude: window block last docid mismatch")
  else .ok ms

/-- The super-blocks one after the other, each at its offset in the window region. -/
def decodeBlocks (windowRegion : Bytes) (h : Header) :
    Nat → Nat → List SbDirRow → Result (List WindowMeta)
  | _, _, [] => .ok []
  | already, prevLast, r :: rows =>
      if (r.blockOff + r.blockLen) % 2 ^ 64 > windowRegion.length ∨
          (r.blockOff + r.blockLen) % 2 ^ 64 < r.blockOff then
        .error (.corruption "frq_prelude: window block out of region")
      else do
        let block ← subslice windowRegion r.blockOff r.blockLen
        let ms ← decodeOneBlock block h r.lastDocid (min h.groupSize (h.n - already)) prevLast
        let rest ← decodeBlocks windowRegion h (already + ms.length) (lastOf prevLast ms) rows
        pure (ms ++ rest)

/-- All rows, as many as the header says. -/
def decodeAllBlocks (windowRegion : Bytes) (h : Header) (dir : List SbDirRow) :
    Result (List WindowMeta) := do
  let windows ← decodeBlocks windowRegion h 0 0 dir
  if windows.length ≠ h.n then
    .error (.corruption "frq_prelude: decoded window count mismatch")
  else .ok windows

/-- Regions must tile their blocks; returns the blocks' lengths. -/
def validateRegionLayout (hasFreq : Bool) : Nat → Nat → List WindowMeta → Result (Nat × Nat)
  | ddExpect, freqExpect, [] => .ok (ddExpect, freqExpect)
  | ddExpect, freqExpect, m :: ms =>
      if m.ddOff ≠ ddExpect then .error (.corruption "frq_prelude: dd region not contiguous")
      else if m.ddDiskLen > m.ddUncompLen ∧ ¬ m.ddZstd then
        .error (.corruption "frq_prelude: raw dd region length inconsistent")
      else if (ddExpect + m.ddDiskLen) % 2 ^ 64 < ddExpect then
        .error (.corruption "frq_prelude: dd block length overflow")
      else if hasFreq ∧ m.freqOff ≠ freqExpect then
        .error (.corruption "frq_prelude: freq region not contiguous")
      else if hasFreq ∧ (freqExpect + m.freqDiskLen) % 2 ^ 64 < freqExpect then
        .error (.corruption "frq_prelude: freq block length overflow")
      else validateRegionLayout hasFreq ((ddExpect + m.ddDiskLen) % 2 ^ 64)
        (if hasFreq then (freqExpect + m.freqDiskLen) % 2 ^ 64 else freqExpect) ms

/-- An opened prelude. -/
structure FrqPreludeReader where
  hasFreq : Bool
  hasPrx : Bool
  groupSize : Nat
  nSuper : Nat
  ddBlockLen : Nat
  freqBlockLen : Nat
  sbLastDocid : List Nat
  windows : List WindowMeta
deriving DecidableEq

/-- Checks header, checksum, directory and rows, and that the regions lie behind each
other. -/
def FrqPreludeReader.open (prelude : Bytes) : Result FrqPreludeReader := do
  let (h, rest) ← parseHeader.run prelude
  let headerEnd := prelude.length - rest.length
  verifyCoveredCrc prelude headerEnd h.sbdirLen
  if (headerEnd + h.sbdirLen) % 2 ^ 64 > prelude.length then
    .error (.corruption "frq_prelude: sbdir_len past buffer")
  else
    let dir ← subslice prelude headerEnd h.sbdirLen
    let (rows, windowRegionLen) ← decodeSuperBlockDir dir h
    let regionStart := (headerEnd + h.sbdirLen + 4) % 2 ^ 64
    if (regionStart + windowRegionLen) % 2 ^ 64 > prelude.length then
      .error (.corruption "frq_prelude: window region past buffer")
    else
      let windowRegion ← subslice prelude regionStart windowRegionLen
      let windows ← decodeAllBlocks windowRegion h rows
      let (ddBlockLen, freqBlockLen) ← validateRegionLayout h.hasFreq 0 0 windows
      pure { hasFreq := h.hasFreq, hasPrx := h.hasPrx, groupSize := h.groupSize % 2 ^ 32
             nSuper := h.nSuper, ddBlockLen := ddBlockLen, freqBlockLen := freqBlockLen
             sbLastDocid := rows.map SbDirRow.lastDocid, windows := windows }

/-- One row. -/
def FrqPreludeReader.window (r : FrqPreludeReader) (w : Nat) : Result WindowMeta :=
  match r.windows[w]? with
  | none => .error (.invalidArgument "frq_prelude: window index out of range")
  | some m => .ok m

/-- Super-block by binary search, then window by window inside it. -/
def FrqPreludeReader.locateWindow (r : FrqPreludeReader) (docid : Nat) : Option Nat :=
  match r.windows.getLast? with
  | none => none
  | some last =>
      if docid > last.lastDocid then none
      else
        let sb := (r.sbLastDocid.takeWhile (· < docid)).length
        let lo := sb * r.groupSize
        ((r.windows.drop lo).take r.groupSize).findIdx? (docid ≤ ·.lastDocid) |>.map (lo + ·)

/-! ## Rows -/

/-- A window whose row reads back: it starts where the previous one ended, its fields
have the widths of the format, and those the format does not store are unset. -/
structure RowOk (hasFreq hasPrx : Bool) (prevLast : Nat) (m : WindowMeta) : Prop where
  base : m.winBase = prevLast
  mono : prevLast ≤ m.lastDocid
  last : m.lastDocid < 2 ^ 32
  docCount : m.docCount < 2 ^ 32
  dd : m.ddOff < 2 ^ 64 ∧ m.ddDiskLen < 2 ^ 64 ∧ m.ddUncompLen < 2 ^ 64 ∧ m.crcDd < 2 ^ 32
  freq : m.freqOff < 2 ^ 64 ∧ m.freqDiskLen < 2 ^ 64 ∧ m.freqUncompLen < 2 ^ 64 ∧
    m.crcFreq < 2 ^ 32
  noFreq : hasFreq = false →
    m.freqZstd = false ∧ m.freqOff = 0 ∧ m.freqDiskLen = 0 ∧ m.freqUncompLen = 0 ∧ m.crcFreq = 0
  prx : m.prxOff < 2 ^ 64 ∧ m.prxLen < 2 ^ 64
  noPrx : hasPrx = false → m.prxOff = 0 ∧ m.prxLen = 0
  maxFreq : m.maxFreq < 2 ^ 32
  maxNorm : m.maxNorm < 256
  crcs : m.verifyCrc = true

/-- The rows of consecutive windows. -/
def RowsOk (hasFreq hasPrx : Bool) : Nat → List WindowMeta → Prop
  | _, [] => True
  | prevLast, m :: ms => RowOk hasFreq hasPrx prevLast m ∧ RowsOk hasFreq hasPrx m.lastDocid ms

variable {hasFreq hasPrx : Bool} {prevLast : Nat} {m : WindowMeta} {ms : List WindowMeta}

/-- Two flag bits are told apart. -/
theorem bits_decode (a b : Bool) :
    hasBit (bit a 0 + bit b 1) 0 = a ∧ hasBit (bit a 0 + bit b 1) 1 = b ∧
      bit a 0 + bit b 1 < 4 := by
  cases a <;> cases b <;> decide

/-- A written mode byte passes its check. -/
theorem checkWinMode_makeWinMode : checkWinMode (makeWinMode m hasFreq) hasFreq = .ok () := by
  obtain ⟨_, hfreq, hhigh⟩ := bits_decode m.ddZstd (hasFreq && m.freqZstd)
  rw [checkWinMode, makeWinMode, if_neg (by omega), hfreq, if_neg]
  cases hasFreq <;> simp

theorem reads_freqLocator (h : RowOk hasFreq hasPrx prevLast m) :
    Reads (readFreqLocator hasFreq)
      (if hasFreq then putVarint64 m.freqOff ++ putVarint64 m.freqDiskLen ++
        putVarint64 m.freqUncompLen ++ putFixed32 m.crcFreq else [])
      (m.freqOff, m.freqDiskLen, m.freqUncompLen, m.crcFreq) := by
  cases hasFreq with
  | true =>
      obtain ⟨h1, h2, h3, h4⟩ := h.freq
      simp only [readFreqLocator, if_true, List.append_assoc]
      exact (reads_getVarint64 h1).bind ((reads_getVarint64 h2).bind ((reads_getVarint64 h3).bind
        ((reads_getFixed32 h4).bind_nil (Reads.pure _))))
  | false =>
      obtain ⟨_, h1, h2, h3, h4⟩ := h.noFreq rfl
      rw [h1, h2, h3, h4]
      exact Reads.pure _

theorem reads_prxLocator (h : RowOk hasFreq hasPrx prevLast m) :
    Reads (readPrxLocator hasPrx)
      (if hasPrx then putVarint64 m.prxOff ++ putVarint64 m.prxLen else [])
      (m.prxOff, m.prxLen) := by
  cases hasPrx with
  | true =>
      simp only [readPrxLocator, if_true]
      exact (reads_getVarint64 h.prx.1).bind ((reads_getVarint64 h.prx.2).bind_nil (Reads.pure _))
  | false =>
      obtain ⟨h1, h2⟩ := h.noPrx rfl
      rw [h1, h2]
      exact Reads.pure _

/-- **A row** reads back as its window. -/
theorem reads_windowRow (h : RowOk hasFreq hasPrx prevLast m) :
    Reads (decodeWindowRow hasFreq hasPrx prevLast) (encodeWindowRow hasFreq hasPrx prevLast m)
      m := by
  have hlast := h.last
  obtain ⟨hddBit, hfreqBit, hsmall⟩ := bits_decode m.ddZstd (hasFreq && m.freqZstd)
  obtain ⟨hdd1, hdd2, hdd3, hdd4⟩ := h.dd
  have hcheck : Reads (StateT.lift (checkWinMode (makeWinMode m hasFreq) hasFreq) : Source Unit)
      [] () := by
    rw [checkWinMode_makeWinMode]
    exact fun _ => rfl
  refine Reads.congr ((reads_getVarint64 (show m.lastDocid - prevLast < 2 ^ 64 by omega)).bind
    ((reads_getVarint64 (Nat.lt_trans h.docCount (by decide))).bind
    ((reads_getU8 (Nat.lt_trans hsmall (by decide))).bind
    (hcheck.bind ((reads_getVarint64 hdd1).bind ((reads_getVarint64 hdd2).bind
    ((reads_getVarint64 hdd3).bind ((reads_getFixed32 hdd4).bind ((reads_freqLocator h).bind
    ((reads_prxLocator h).bind ((reads_getVarint64 (Nat.lt_trans h.maxFreq (by decide))).bind
    ((reads_getU8 h.maxNorm).bind_nil (Reads.pure _)))))))))))))
    (by simp only [encodeWindowRow, makeWinMode, List.append_assoc, List.nil_append]) ?_
  have hfreqZstd : (hasFreq && (hasFreq && m.freqZstd)) = m.freqZstd := by
    cases hasFreq with
    | true => simp
    | false => simp [(h.noFreq rfl).1]
  obtain rfl := h.base
  rw [hddBit, hfreqBit, hfreqZstd, Nat.add_sub_cancel' h.mono, Nat.mod_eq_of_lt hlast,
    Nat.mod_eq_of_lt h.docCount, Nat.mod_eq_of_lt h.maxFreq, ← h.crcs]

/-- **The rows** read back, each from the last docid of the one before. -/
theorem reads_rows (h : RowsOk hasFreq hasPrx prevLast ms) :
    Reads (readRows hasFreq hasPrx ms.length prevLast) (encodeRows hasFreq hasPrx prevLast ms)
      ms := by
  induction ms generalizing prevLast with
  | nil => exact Reads.pure []
  | cons m ms ih =>
      exact (reads_windowRow h.1).bind ((ih h.2).bind_nil (Reads.pure _))

theorem lastOf_cons : lastOf prevLast (m :: ms) = lastOf m.lastDocid ms := by
  rw [lastOf, lastOf]
  cases ms with
  | nil => rfl
  | cons x xs => rw [List.getLast?_cons_cons, List.getLast?_eq_some_getLast (by simp)]; rfl

theorem rowsOk_append {xs ys : List WindowMeta} :
    RowsOk hasFreq hasPrx prevLast (xs ++ ys) ↔
      RowsOk hasFreq hasPrx prevLast xs ∧ RowsOk hasFreq hasPrx (lastOf prevLast xs) ys := by
  induction xs generalizing prevLast with
  | nil => simp [RowsOk, lastOf]
  | cons m xs ih => simp only [List.cons_append, RowsOk, ih, lastOf_cons, and_assoc]

/-- Rows never step back. -/
theorem RowsOk.le_lastOf (h : RowsOk hasFreq hasPrx prevLast ms) : prevLast ≤ lastOf prevLast ms := by
  induction ms generalizing prevLast with
  | nil => exact Nat.le_refl _
  | cons m ms ih =>
      rw [lastOf_cons]
      exact Nat.le_trans h.1.mono (ih h.2)

/-- Their docids have 32 bits. -/
theorem RowsOk.lastOf_lt (h : RowsOk hasFreq hasPrx prevLast ms) (hprev : prevLast < 2 ^ 32) :
    lastOf prevLast ms < 2 ^ 32 := by
  induction ms generalizing prevLast with
  | nil => exact hprev
  | cons m ms ih =>
      rw [lastOf_cons]
      exact ih h.2 h.1.last

/-! ## Super-blocks -/

/-- The super-block rows of blocks laid out from an offset on. -/
def dirRows : Nat → List SuperBlock → List SbDirRow
  | _, [] => []
  | off, sb :: sbs =>
      { lastDocid := sb.lastDocid, blockOff := off, blockLen := sb.block.length } ::
        dirRows (off + sb.block.length) sbs

theorem map_lastDocid_dirRows (off : Nat) (sbs : List SuperBlock) :
    (dirRows off sbs).map SbDirRow.lastDocid = sbs.map SuperBlock.lastDocid := by
  induction sbs generalizing off with
  | nil => rfl
  | cons sb sbs ih => rw [dirRows, List.map_cons, List.map_cons, ih]

/-- **The super-block level** reads back. -/
theorem reads_superBlockDir {gs : List (List WindowMeta)}
    (h : RowsOk hasFreq hasPrx prevLast gs.flatten) (hprev : prevLast < 2 ^ 32) {off : Nat}
    (hoff : off + ((encodeSuperBlocks hasFreq hasPrx prevLast gs).flatMap
      SuperBlock.block).length < 2 ^ 64) :
    Reads (readSbDirRows (encodeSuperBlocks hasFreq hasPrx prevLast gs).length prevLast off)
      (encodeSuperBlockDir prevLast off (encodeSuperBlocks hasFreq hasPrx prevLast gs))
      (dirRows off (encodeSuperBlocks hasFreq hasPrx prevLast gs),
        off + ((encodeSuperBlocks hasFreq hasPrx prevLast gs).flatMap
          SuperBlock.block).length) := by
  induction gs generalizing prevLast off with
  | nil => exact Reads.pure _
  | cons g gs ih =>
      rw [List.flatten_cons, rowsOk_append] at h
      have hmono := h.1.le_lastOf
      have hlt := h.1.lastOf_lt hprev
      rw [encodeSuperBlocks, List.flatMap_cons, List.length_append] at hoff
      rw [encodeSuperBlocks, List.length_cons, readSbDirRows, encodeSuperBlockDir, dirRows,
        List.flatMap_cons, List.length_append]
      have hsum : (prevLast + (lastOf prevLast g - prevLast)) % 2 ^ 64 = lastOf prevLast g := by
        rw [Nat.add_sub_cancel' hmono, Nat.mod_eq_of_lt (by omega)]
      have hnext : (off + (encodeRows hasFreq hasPrx prevLast g).length) % 2 ^ 64 =
          off + (encodeRows hasFreq hasPrx prevLast g).length :=
        Nat.mod_eq_of_lt (by simp only at hoff; omega)
      have hrest := @ih (lastOf prevLast g) h.2 hlt
        (off + (encodeRows hasFreq hasPrx prevLast g).length) (by simp only at hoff; omega)
      simp only at hoff ⊢
      simp only [List.append_assoc]
      refine (reads_getVarint64 (by omega)).bind ((reads_getVarint64 (by omega)).bind
        ((reads_getVarint64 (by omega)).bind ?_))
      simp only [hsum, hnext]
      refine Reads.if_neg (by simp [hmono]) (hrest.bind_nil ?_)
      rw [Nat.add_assoc]
      exact Reads.pure _

/-- The blocks one after the other are the rows of all windows. -/
theorem flatMap_block (gs : List (List WindowMeta)) :
    (encodeSuperBlocks hasFreq hasPrx prevLast gs).flatMap SuperBlock.block =
      encodeRows hasFreq hasPrx prevLast gs.flatten := by
  have happ : ∀ (xs ys : List WindowMeta) (p : Nat), encodeRows hasFreq hasPrx p (xs ++ ys) =
      encodeRows hasFreq hasPrx p xs ++ encodeRows hasFreq hasPrx (lastOf p xs) ys := by
    intro xs
    induction xs with
    | nil => exact fun ys p => rfl
    | cons m xs ih =>
        intro ys p
        rw [List.cons_append, encodeRows, ih, encodeRows, List.append_assoc, lastOf_cons]
  induction gs generalizing prevLast with
  | nil => rfl
  | cons g gs ih => rw [encodeSuperBlocks, List.flatMap_cons, ih, List.flatten_cons, happ]

theorem length_encodeSuperBlocks (gs : List (List WindowMeta)) :
    (encodeSuperBlocks hasFreq hasPrx prevLast gs).length = gs.length := by
  induction gs generalizing prevLast with
  | nil => rfl
  | cons g gs ih => rw [encodeSuperBlocks, List.length_cons, ih, List.length_cons]

/-- **The window level** reads back, block by block. -/
theorem decodeBlocks_ok {h : Header} (hg : 0 < h.groupSize) {ws : List WindowMeta}
    (hrows : RowsOk h.hasFreq h.hasPrx prevLast ws) {already : Nat}
    (hleft : h.n - already = ws.length) {pre region : Bytes}
    (hregion : region = pre ++ encodeRows h.hasFreq h.hasPrx prevLast ws)
    (hsize : region.length < 2 ^ 64) :
    decodeBlocks region h already prevLast
      (dirRows pre.length (encodeSuperBlocks h.hasFreq h.hasPrx prevLast
        (chunks h.groupSize ws))) = .ok ws := by
  induction ws using chunks_induction hg generalizing prevLast already pre with
  | nil => rw [chunks_nil hg]; rfl
  | step ws hne ih =>
      have hsplit : ws = ws.take h.groupSize ++ ws.drop h.groupSize :=
        (List.take_append_drop _ _).symm
      rw [hsplit] at hrows
      obtain ⟨hhead, htail⟩ := rowsOk_append.mp hrows
      have hblocks := @flatMap_block h.hasFreq h.hasPrx prevLast
        [ws.take h.groupSize, ws.drop h.groupSize]
      simp only [encodeSuperBlocks, List.flatMap_cons, List.flatMap_nil, List.append_nil,
        List.flatten_cons, List.flatten_nil, ← hsplit] at hblocks
      rw [← hblocks] at hregion
      have hlen : (encodeRows h.hasFreq h.hasPrx prevLast (ws.take h.groupSize)).length +
          pre.length ≤ region.length := by
        rw [hregion]
        simp only [List.length_append]
        omega
      have hcount : min h.groupSize (h.n - already) = (ws.take h.groupSize).length := by
        rw [hleft, List.length_take]
      have hone : decodeOneBlock (encodeRows h.hasFreq h.hasPrx prevLast (ws.take h.groupSize)) h
          (lastOf prevLast (ws.take h.groupSize)) (min h.groupSize (h.n - already)) prevLast =
            .ok (ws.take h.groupSize) := by
        rw [decodeOneBlock, hcount, parseAll_of_reads (reads_rows hhead), ok_bind, if_neg (by simp)]
      have hrest := @ih (lastOf prevLast (ws.take h.groupSize)) htail
        (already + (ws.take h.groupSize).length)
        (by rw [List.length_drop, List.length_take]; omega)
        (pre ++ encodeRows h.hasFreq h.hasPrx prevLast (ws.take h.groupSize))
        (by rw [hregion, List.append_assoc])
      rw [List.length_append] at hrest
      rw [chunks_of_ne_nil hg hne, encodeSuperBlocks, dirRows, decodeBlocks]
      simp only
      rw [if_neg (by rw [Nat.mod_eq_of_lt (by omega)]; omega), hregion,
        subslice_append rfl rfl, ok_bind, hone, ok_bind, ← hregion, hrest, ok_bind]
      exact congrArg Except.ok hsplit.symm

/-! ## The region layout -/

/-- Regions that tile their blocks from the given offsets on. -/
def Tiles (hasFreq : Bool) : Nat → Nat → List WindowMeta → Prop
  | _, _, [] => True
  | dd, freq, m :: ms =>
      m.ddOff = dd ∧ (m.ddZstd = false → m.ddDiskLen ≤ m.ddUncompLen) ∧
        (hasFreq = true → m.freqOff = freq) ∧
        Tiles hasFreq (dd + m.ddDiskLen) (if hasFreq then freq + m.freqDiskLen else freq) ms

/-- The freq block's length: none without frequencies. -/
def freqTotal (hasFreq : Bool) (ms : List WindowMeta) : Nat :=
  if hasFreq then (ms.map WindowMeta.freqDiskLen).sum else 0

/-- Regions that tile the blocks pass the layout check. -/
theorem validateRegionLayout_ok {dd freq : Nat} (h : Tiles hasFreq dd freq ms)
    (hdd : dd + (ms.map WindowMeta.ddDiskLen).sum < 2 ^ 64)
    (hfreq : freq + freqTotal hasFreq ms < 2 ^ 64) :
    validateRegionLayout hasFreq dd freq ms =
      .ok (dd + (ms.map WindowMeta.ddDiskLen).sum, freq + freqTotal hasFreq ms) := by
  induction ms generalizing dd freq with
  | nil => simp [validateRegionLayout, freqTotal]
  | cons m ms ih =>
      obtain ⟨hoff, hraw, hfoff, hrest⟩ := h
      rw [List.map_cons, List.sum_cons] at hdd ⊢
      have hraw' : ¬ (m.ddDiskLen > m.ddUncompLen ∧ ¬ m.ddZstd = true) := by
        rintro ⟨hgt, hz⟩
        have := hraw (by simpa using hz)
        omega
      rw [validateRegionLayout, if_neg (by simpa using hoff), if_neg hraw',
        Nat.mod_eq_of_lt (show dd + m.ddDiskLen < 2 ^ 64 by omega), if_neg (by omega)]
      cases hasFreq with
      | true =>
          simp only [freqTotal, if_true, List.map_cons, List.sum_cons] at hfreq hrest ⊢
          rw [if_neg (by simp [hfoff rfl]),
            Nat.mod_eq_of_lt (show freq + m.freqDiskLen < 2 ^ 64 by omega), if_neg (by simp),
            ih hrest (by omega) (by simp only [freqTotal, if_true]; omega)]
          simp only [freqTotal, if_true, Nat.add_assoc]
      | false =>
          have htotal : freqTotal false (m :: ms) = freqTotal false ms := rfl
          rw [htotal] at hfreq ⊢
          simp only [Bool.false_eq_true, false_and, if_false] at hrest ⊢
          rw [ih hrest (by omega) hfreq, Nat.add_assoc]

/-! ## Sizes -/

/-- A row takes 150 bytes at most. -/
theorem length_encodeWindowRow_le : (encodeWindowRow hasFreq hasPrx prevLast m).length ≤ 150 := by
  have h := length_putVarint64_le
  have hf : (if hasFreq then putVarint64 m.freqOff ++ putVarint64 m.freqDiskLen ++
      putVarint64 m.freqUncompLen ++ putFixed32 m.crcFreq else []).length ≤ 34 := by
    have h1 := h m.freqOff
    have h2 := h m.freqDiskLen
    have h3 := h m.freqUncompLen
    cases hasFreq with
    | true => simp only [if_true, List.length_append, length_putFixed32]; omega
    | false => simp
  have hp : (if hasPrx then putVarint64 m.prxOff ++ putVarint64 m.prxLen else []).length ≤ 20 := by
    have h1 := h m.prxOff
    have h2 := h m.prxLen
    cases hasPrx with
    | true => simp only [if_true, List.length_append]; omega
    | false => simp
  have h1 := h (m.lastDocid - prevLast)
  have h2 := h m.docCount
  have h3 := h m.ddOff
  have h4 := h m.ddDiskLen
  have h5 := h m.ddUncompLen
  have h6 := h m.maxFreq
  rw [encodeWindowRow]
  simp only [List.length_append, length_putU8, length_putFixed32]
  omega

theorem length_encodeRows_le : (encodeRows hasFreq hasPrx prevLast ms).length ≤ 150 * ms.length := by
  induction ms generalizing prevLast with
  | nil => simp [encodeRows]
  | cons m ms ih =>
      have hrow := @length_encodeWindowRow_le hasFreq hasPrx prevLast m
      have hrest := @ih m.lastDocid
      rw [encodeRows, List.length_append, List.length_cons]
      omega

/-- A directory row takes 30 bytes at most. -/
theorem length_encodeSuperBlockDir_le (off : Nat) (sbs : List SuperBlock) :
    (encodeSuperBlockDir prevLast off sbs).length ≤ 30 * sbs.length := by
  induction sbs generalizing prevLast off with
  | nil => simp [encodeSuperBlockDir]
  | cons sb sbs ih =>
      have h1 := length_putVarint64_le (sb.lastDocid - prevLast)
      have h2 := length_putVarint64_le off
      have h3 := length_putVarint64_le sb.block.length
      have hrest := @ih sb.lastDocid (off + sb.block.length)
      rw [encodeSuperBlockDir]
      simp only [List.length_append, List.length_cons]
      omega

/-! ## The round trip -/

/-- The columns of a prelude that reads back. -/
structure ColumnsOk (cols : FrqPreludeColumns) : Prop where
  groupPos : 0 < cols.groupSize
  groupLt : cols.groupSize < 2 ^ 32
  count : cols.windows.length ≤ kMaxWindows
  rows : RowsOk cols.hasFreq cols.hasPrx 0 cols.windows
  tiles : Tiles cols.hasFreq 0 0 cols.windows
  ddLen : (cols.windows.map WindowMeta.ddDiskLen).sum < 2 ^ 64
  freqLen : freqTotal cols.hasFreq cols.windows < 2 ^ 64

theorem RowsOk.isChain (h : RowsOk hasFreq hasPrx prevLast ms) :
    (prevLast :: ms.map WindowMeta.lastDocid).IsChain (· ≤ ·) := by
  induction ms generalizing prevLast with
  | nil => exact List.IsChain.singleton _
  | cons m ms ih =>
      rw [List.map_cons, List.isChain_cons_cons]
      exact ⟨h.1.mono, ih h.2⟩

/-- What can be stored passes the builder's check. -/
theorem validateInput_ok {cols : FrqPreludeColumns} (h : ColumnsOk cols) :
    validateInput cols = .ok () := by
  have hpos := h.groupPos
  have hcount := h.count
  have hchain : (cols.windows.map WindowMeta.lastDocid).IsChain (· ≤ ·) := h.rows.isChain.of_cons
  rw [validateInput, if_neg (by omega), if_neg (by omega), if_neg (not_not.mpr hchain)]

/-- The reader a prelude opens to. -/
def readerOf (cols : FrqPreludeColumns) : FrqPreludeReader :=
  { hasFreq := cols.hasFreq, hasPrx := cols.hasPrx, groupSize := cols.groupSize
    nSuper := (chunks cols.groupSize cols.windows).length
    ddBlockLen := (cols.windows.map WindowMeta.ddDiskLen).sum
    freqBlockLen := freqTotal cols.hasFreq cols.windows
    sbLastDocid := (encodeSuperBlocks cols.hasFreq cols.hasPrx 0
      (chunks cols.groupSize cols.windows)).map SuperBlock.lastDocid
    windows := cols.windows }

/-- **The header** reads back with its counts checked. -/
theorem reads_header {hasFreq hasPrx : Bool} {n g k d : Nat} (hn : n ≤ kMaxWindows) (hg : 0 < g)
    (hg32 : g < 2 ^ 32) (hk : k = (n + g - 1) / g) (hd : d < 2 ^ 64) :
    Reads parseHeader (putU8 (makeFlags hasFreq hasPrx) ++ putVarint64 n ++ putVarint64 g ++
        putVarint64 k ++ putVarint64 d)
      { hasFreq := hasFreq, hasPrx := hasPrx, n := n, groupSize := g, nSuper := k
        sbdirLen := d } := by
  obtain ⟨hf, hp, hsmall⟩ := bits_decode hasFreq hasPrx
  have hmax : kMaxWindows < 2 ^ 32 := by decide
  have hkn : k ≤ n := by
    rw [hk]
    refine Nat.le_of_lt_succ (Nat.div_lt_of_lt_mul ?_)
    have : g * 1 ≤ g * (n + 1) := Nat.mul_le_mul_left g (by omega)
    have : n + g - 1 < g + g * n := by
      have : n ≤ g * n := Nat.le_mul_of_pos_left n hg
      omega
    rw [Nat.mul_succ]
    omega
  have hceil : ceilDiv n g = k := by
    rw [ceilDiv, Nat.mod_eq_of_lt (by omega), hk]
  simp only [List.append_assoc]
  refine (reads_getU8 (show makeFlags hasFreq hasPrx < 256 from Nat.lt_trans hsmall (by decide))).bind
    ((reads_getVarint64 (by omega)).bind ((reads_getVarint64 (by omega)).bind
      ((reads_getVarint64 (by omega)).bind ((reads_getVarint64 hd).bind_nil ?_))))
  refine Reads.if_neg (by omega) (Reads.if_neg (by omega) (Reads.if_neg (by rw [hceil]; simp) ?_))
  rw [makeFlags, hf, hp]
  exact Reads.pure _

/-- The checksum behind header and directory covers both. -/
theorem verifyCoveredCrc_framed {hdr dir rows : Bytes} (hsize : hdr.length + dir.length + 4 < 2 ^ 64) :
    verifyCoveredCrc (hdr ++ dir ++ putFixed32 (crc32c (hdr ++ dir)) ++ rows) hdr.length dir.length =
      .ok () := by
  have hcrcLen : (putFixed32 (crc32c (hdr ++ dir))).length = 4 := length_putFixed32 _
  have hcrcRead : getFixed32.run (putFixed32 (crc32c (hdr ++ dir))) = .ok (crc32c (hdr ++ dir), []) := by
    have := reads_getFixed32 (crc32c_lt (hdr ++ dir)) []
    rwa [List.append_nil] at this
  have hsplit : hdr ++ dir ++ putFixed32 (crc32c (hdr ++ dir)) ++ rows =
      (hdr ++ dir) ++ (putFixed32 (crc32c (hdr ++ dir)) ++ rows) := List.append_assoc _ _ _
  have hstored : subslice (hdr ++ dir ++ putFixed32 (crc32c (hdr ++ dir)) ++ rows)
      (hdr.length + dir.length) 4 = .ok (putFixed32 (crc32c (hdr ++ dir))) := by
    rw [hsplit]
    exact subslice_append (List.length_append).symm hcrcLen.symm
  have hcovered : subslice (hdr ++ dir ++ putFixed32 (crc32c (hdr ++ dir)) ++ rows) 0
      (hdr.length + dir.length) = .ok (hdr ++ dir) := by
    rw [hsplit, ← List.nil_append (hdr ++ dir ++ _)]
    exact subslice_append rfl (List.length_append).symm
  have htotal : hdr.length + dir.length + 4 ≤
      (hdr ++ dir ++ putFixed32 (crc32c (hdr ++ dir)) ++ rows).length := by
    simp only [List.length_append, hcrcLen]
    omega
  simp only [verifyCoveredCrc]
  rw [Nat.mod_eq_of_lt (show hdr.length + dir.length < 2 ^ 64 by omega), Nat.mod_eq_of_lt hsize,
    if_neg (by omega), hstored, ok_bind, hcrcRead, ok_bind, hcovered, ok_bind, if_neg (by simp)]

/-- One byte and four varints. -/
theorem length_header_le (flags n groupSize nSuper sbdirLen : Nat) :
    (putU8 flags ++ putVarint64 n ++ putVarint64 groupSize ++ putVarint64 nSuper ++
      putVarint64 sbdirLen).length ≤ 41 := by
  have h1 := length_putVarint64_le n
  have h2 := length_putVarint64_le groupSize
  have h3 := length_putVarint64_le nSuper
  have h4 := length_putVarint64_le sbdirLen
  simp only [List.length_append, length_putU8]
  omega

/-- **Round trip**: a prelude opens to its own windows. -/
theorem open_buildFrqPrelude {cols : FrqPreludeColumns} (h : ColumnsOk cols) :
    ∃ bytes, buildFrqPrelude cols = .ok bytes ∧ bytes.length < 2 ^ 32 ∧
      FrqPreludeReader.open bytes = .ok (readerOf cols) := by
  set gs := chunks cols.groupSize cols.windows with hgs
  set blocks := encodeSuperBlocks cols.hasFreq cols.hasPrx 0 gs with hblocks
  set dir := encodeSuperBlockDir 0 0 blocks with hdir
  set hdr := putU8 (makeFlags cols.hasFreq cols.hasPrx) ++ putVarint64 cols.windows.length ++
    putVarint64 cols.groupSize ++ putVarint64 blocks.length ++ putVarint64 dir.length with hhdr
  set crc := putFixed32 (crc32c (hdr ++ dir)) with hcrc
  have hcount := h.count
  have hmax : kMaxWindows = 16777216 := by decide
  have hgroups : blocks.length = gs.length := length_encodeSuperBlocks gs
  have hgsLen : gs.length = (cols.windows.length + cols.groupSize - 1) / cols.groupSize :=
    length_chunks _ _
  have hgsLe : gs.length ≤ cols.windows.length := length_chunks_le h.groupPos _
  have hflat : gs.flatten = cols.windows := flatten_chunks h.groupPos _
  have hrows : RowsOk cols.hasFreq cols.hasPrx 0 gs.flatten := by rw [hflat]; exact h.rows
  have hregion : blocks.flatMap SuperBlock.block =
      encodeRows cols.hasFreq cols.hasPrx 0 cols.windows := by rw [hblocks, flatMap_block, hflat]
  have hregionLen := @length_encodeRows_le cols.hasFreq cols.hasPrx 0 cols.windows
  have hdirLen : dir.length ≤ 30 * blocks.length := length_encodeSuperBlockDir_le 0 blocks
  have hhdrLen : hdr.length ≤ 41 := length_header_le _ _ _ _ _
  have hcrcLen : crc.length = 4 := by rw [hcrc, length_putFixed32]
  refine ⟨hdr ++ dir ++ crc ++ encodeRows cols.hasFreq cols.hasPrx 0 cols.windows, ?_, ?_, ?_⟩
  · rw [buildFrqPrelude, validateInput_ok h, ok_bind]
    simp only [← hgs, ← hblocks, ← hdir, hregion, ← hhdr, ← hcrc]
    rfl
  · simp only [List.length_append]
    omega
  · have hheader := @reads_header cols.hasFreq cols.hasPrx _ _ _ dir.length hcount h.groupPos
      h.groupLt (hgroups.trans hgsLen) (by omega)
    rw [← hhdr] at hheader
    have hassoc : hdr ++ dir ++ crc ++ encodeRows cols.hasFreq cols.hasPrx 0 cols.windows =
        hdr ++ (dir ++ (crc ++ encodeRows cols.hasFreq cols.hasPrx 0 cols.windows)) := by simp
    have hlast : hdr ++ dir ++ crc ++ encodeRows cols.hasFreq cols.hasPrx 0 cols.windows =
        (hdr ++ dir ++ crc) ++ (encodeRows cols.hasFreq cols.hasPrx 0 cols.windows ++ []) := by simp
    have htotal : (hdr ++ dir ++ crc ++ encodeRows cols.hasFreq cols.hasPrx 0 cols.windows).length =
        hdr.length + dir.length + 4 +
          (encodeRows cols.hasFreq cols.hasPrx 0 cols.windows).length := by
      simp only [List.length_append, hcrcLen]
    have hverify := @verifyCoveredCrc_framed hdr dir
      (encodeRows cols.hasFreq cols.hasPrx 0 cols.windows) (by omega)
    rw [← hcrc] at hverify
    generalize hpre : hdr ++ dir ++ crc ++ encodeRows cols.hasFreq cols.hasPrx 0 cols.windows =
      prelude at *
    have hend : prelude.length - (dir ++ (crc ++
        encodeRows cols.hasFreq cols.hasPrx 0 cols.windows)).length = hdr.length := by
      simp only [htotal, List.length_append, hcrcLen]
      omega
    have hdirRead := @reads_superBlockDir _ _ _ _ hrows (show 0 < 2 ^ 32 by decide) 0
      (by rw [flatMap_block, hflat]; omega)
    rw [← hblocks, ← hdir, hregion, Nat.zero_add] at hdirRead
    have hwindows := @decodeBlocks_ok 0
      { hasFreq := cols.hasFreq, hasPrx := cols.hasPrx, n := cols.windows.length
        groupSize := cols.groupSize, nSuper := blocks.length, sbdirLen := dir.length }
      h.groupPos cols.windows h.rows 0 (by simp) [] _ rfl
      (by simp only [List.nil_append]; omega)
    simp only [List.nil_append, List.length_nil, ← hgs, ← hblocks] at hwindows
    have hlayout := validateRegionLayout_ok h.tiles (by rw [Nat.zero_add]; exact h.ddLen)
      (by rw [Nat.zero_add]; exact h.freqLen)
    rw [Nat.zero_add, Nat.zero_add] at hlayout
    have hrun := hheader (dir ++ (crc ++ encodeRows cols.hasFreq cols.hasPrx 0 cols.windows))
    rw [← hassoc] at hrun
    rw [FrqPreludeReader.open, hrun, ok_bind]
    simp only [hend]
    rw [hverify, ok_bind, Nat.mod_eq_of_lt (show hdr.length + dir.length < 2 ^ 64 by omega),
      if_neg (by omega)]
    have hdirSlice : subslice prelude hdr.length dir.length = .ok dir := by
      rw [hassoc]
      exact subslice_append rfl rfl
    have hregionSlice : subslice prelude (hdr.length + dir.length + 4)
        (encodeRows cols.hasFreq cols.hasPrx 0 cols.windows).length =
          .ok (encodeRows cols.hasFreq cols.hasPrx 0 cols.windows) := by
      rw [hlast]
      exact subslice_append (by simp only [List.length_append, hcrcLen]) rfl
    rw [hdirSlice, ok_bind, decodeSuperBlockDir, parseAll_of_reads hdirRead, ok_bind]
    simp only
    rw [Nat.mod_eq_of_lt (show hdr.length + dir.length + 4 < 2 ^ 64 by omega),
      Nat.mod_eq_of_lt (show hdr.length + dir.length + 4 +
        (encodeRows cols.hasFreq cols.hasPrx 0 cols.windows).length < 2 ^ 64 by omega),
      if_neg (by omega), hregionSlice, ok_bind, decodeAllBlocks, hwindows, ok_bind,
      if_neg (by simp), ok_bind, hlayout, ok_bind, Nat.mod_eq_of_lt h.groupLt,
      map_lastDocid_dirRows, hgroups]
    rfl

end Snii.Format.FrqPrelude
