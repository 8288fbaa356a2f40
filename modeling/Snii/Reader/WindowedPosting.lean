import Snii.Format.FrqPrelude
import Snii.Format.PrxPod
import Snii.Io.BatchRangeFetcher
import Snii.Reader.LogicalIndexReader

/-!
# Reading a windowed posting

`windowed_posting.cpp`: the prelude of a windowed entry, the ranges of its windows
inside the two blocks and the position span, and the decoding of one window or of the
whole posting.
-/

namespace Snii.Reader

open Snii.Lib.ByteReader Snii.Common Snii.Io.BatchRangeFetcher
open Snii.Encoding.Compression Snii.Format.Dict
open Snii.Format.DictBlock (Resolved)
open Snii.Format.FrqPod (FrqRegionMeta decodeDdRegion decodeFreqRegion)
open Snii.Format.PrxPod (readPrxWindow)
open Snii.Format.FrqPrelude (WindowMeta FrqPreludeReader)

/-- Reads of one term's windows are joined over gaps up to this. -/
def kSameTermCoalesceGap : Nat := 16 * 1024

/-- Where the prelude of a windowed entry starts in the file. -/
def preludeAbs (idx : LogicalIndexReader) (e : DictEntry) (frqBase : Nat) : Nat :=
  (idx.sectionRefs.postingRegion.offset + frqBase + e.frqOffDelta) % 2 ^ 64

/-- Where the positions of an entry start in the file. -/
def prxAbs (idx : LogicalIndexReader) (e : DictEntry) (prxBase : Nat) : Nat :=
  (idx.sectionRefs.postingRegion.offset + prxBase + e.prxOffDelta) % 2 ^ 64

/-- A range within a section of the given length; written so that nothing wraps. -/
def inBounds (off len total : Nat) : Result Unit :=
  if off > total ∨ len > total - off then
    .error (.corruption "windowed_posting: range out of section")
  else .ok ()

/-- Where the two blocks behind a prelude are in the file. -/
structure BlockGeometry where
  ddBlockOff : Nat
  ddBlockLen : Nat
  freqBlockOff : Nat
  freqBlockLen : Nat

/-- The two blocks.  Their offsets are sums in 64 bits that nothing compares with the
posting region. -/
def resolveBlocks (idx : LogicalIndexReader) (e : DictEntry) (frqBase : Nat)
    (prelude : FrqPreludeReader) : Result BlockGeometry :=
  if e.preludeLen > e.frqLen then
    .error (.corruption "windowed_posting: prelude_len exceeds frq_len")
  else
    let frqWindowStart := (preludeAbs idx e frqBase + e.preludeLen) % 2 ^ 64
    let frqRegionLen := e.frqLen - e.preludeLen
    if prelude.ddBlockLen > frqRegionLen ∨
        prelude.freqBlockLen > frqRegionLen - prelude.ddBlockLen then
      .error (.corruption "windowed_posting: blocks exceed frq region")
    else
      .ok { ddBlockOff := frqWindowStart, ddBlockLen := prelude.ddBlockLen
            freqBlockOff := (frqWindowStart + prelude.ddBlockLen) % 2 ^ 64
            freqBlockLen := prelude.freqBlockLen }

/-- Reads and opens the prelude of a windowed entry. -/
def fetchWindowedPrelude (idx : LogicalIndexReader) (e : DictEntry) (frqBase : Nat) :
    Result FrqPreludeReader :=
  if e.preludeLen = 0 then
    .error (.corruption "windowed_posting: windowed entry has no prelude")
  else if e.preludeLen > e.frqLen then
    .error (.corruption "windowed_posting: prelude_len exceeds frq_len")
  else do
    let fetched ← fetch idx.file 0 [⟨preludeAbs idx e frqBase, e.preludeLen⟩]
    let bytes ← fetched.get 0
    FrqPreludeReader.open bytes

/-- The three ranges of a window in the file. -/
structure WindowAbsRange where
  dd : Range := ⟨0, 0⟩
  freq : Range := ⟨0, 0⟩
  prx : Range := ⟨0, 0⟩

/-- A window's freqs, where they are asked for. -/
def freqRange (g : BlockGeometry) (m : WindowMeta) (wantFreq : Bool) : Result Range :=
  if wantFreq then do
    inBounds m.freqOff m.freqDiskLen g.freqBlockLen
    pure ⟨(g.freqBlockOff + m.freqOff) % 2 ^ 64, m.freqDiskLen⟩
  else .ok ⟨0, 0⟩

/-- A window's positions, where they are asked for. -/
def prxRange (idx : LogicalIndexReader) (e : DictEntry) (prxBase : Nat)
    (prelude : FrqPreludeReader) (m : WindowMeta) (wantPositions : Bool) : Result Range :=
  if wantPositions then
    if prelude.hasPrx = false then
      .error (.corruption "windowed_posting: positions requested but prelude has none")
    else do
      inBounds m.prxOff m.prxLen e.prxLen
      pure ⟨(prxAbs idx e prxBase + m.prxOff) % 2 ^ 64, m.prxLen⟩
  else .ok ⟨0, 0⟩

/-- `windowed_window_range`. -/
def windowedWindowRange (idx : LogicalIndexReader) (r : Resolved) (prelude : FrqPreludeReader)
    (w : Nat) (wantPositions wantFreq : Bool) : Result WindowAbsRange := do
  let g ← resolveBlocks idx r.entry r.frqBase prelude
  let m ← prelude.window w
  inBounds m.ddOff m.ddDiskLen g.ddBlockLen
  let freq ← freqRange g m wantFreq
  let prx ← prxRange idx r.entry r.prxBase prelude m wantPositions
  pure { dd := ⟨(g.ddBlockOff + m.ddOff) % 2 ^ 64, m.ddDiskLen⟩, freq := freq, prx := prx }

/-! ## Decoding -/

/-- How a window's docids are stored. -/
def ddMetaOf (m : WindowMeta) : FrqRegionMeta :=
  { zstd := m.ddZstd, uncompLen := m.ddUncompLen, diskLen := m.ddDiskLen, crc := m.crcDd
    verifyCrc := m.verifyCrc }

/-- How a window's freqs are stored. -/
def freqMetaOf (m : WindowMeta) : FrqRegionMeta :=
  { zstd := m.freqZstd, uncompLen := m.freqUncompLen, diskLen := m.freqDiskLen, crc := m.crcFreq
    verifyCrc := m.verifyCrc }

/-- What was decoded of a posting; what was not asked for stays empty. -/
structure DecodedPosting where
  docids : List Nat := []
  freqs : List Nat := []
  positions : List (List Nat) := []
deriving DecidableEq

/-- A window's positions: one list a document. -/
def decodePositions (z : Zstd) (prxWindow : Bytes) (docCount : Nat) : Result (List (List Nat)) := do
  let (positions, _) ← (readPrxWindow z).run prxWindow
  if positions.length ≠ docCount then
    .error (.corruption "windowed_posting: prx/frq doc-count mismatch")
  else .ok positions

/-- A window from the bytes of its regions. -/
def decodeWindowSlices (z : Zstd) (m : WindowMeta) (ddRegion freqRegion prxWindow : Bytes)
    (wantPositions wantFreq : Bool) : Result DecodedPosting := do
  let docids ← decodeDdRegion z ddRegion (ddMetaOf m) m.winBase
  if docids.length ≠ m.docCount then
    .error (.corruption "windowed_posting: frq doc_count mismatch")
  else
    let freqs ←
      (if wantFreq then decodeFreqRegion z freqRegion (freqMetaOf m) m.docCount else .ok [])
    let positions ←
      (if wantPositions then decodePositions z prxWindow docids.length else .ok [])
    pure { docids := docids, freqs := freqs, positions := positions }

/-! ## The whole posting -/

/-- A region of a window inside the block that holds it. -/
def carve (block : Bytes) (off len : Nat) : Result Bytes := do
  inBounds off len block.length
  subslice block off len

/-- A window from the bytes of the whole blocks. -/
def decodeWindow (z : Zstd) (m : WindowMeta) (ddBlock freqBlock prxRegion : Bytes)
    (wantPositions wantFreq : Bool) : Result DecodedPosting := do
  let dd ← carve ddBlock m.ddOff m.ddDiskLen
  let freq ← (if wantFreq then carve freqBlock m.freqOff m.freqDiskLen else .ok [])
  let prx ← (if wantPositions then carve prxRegion m.prxOff m.prxLen else .ok [])
  decodeWindowSlices z m dd freq prx wantPositions wantFreq

/-- The documents of a later window behind the others. -/
def DecodedPosting.append (a b : DecodedPosting) : DecodedPosting :=
  { docids := a.docids ++ b.docids, freqs := a.freqs ++ b.freqs
    positions := a.positions ++ b.positions }

/-- All windows, in order. -/
def decodeWindows (z : Zstd) (ddBlock freqBlock prxRegion : Bytes) (wantPositions wantFreq : Bool) :
    DecodedPosting → List WindowMeta → Result DecodedPosting
  | out, [] => .ok out
  | out, m :: ms => do
      let window ← decodeWindow z m ddBlock freqBlock prxRegion wantPositions wantFreq
      decodeWindows z ddBlock freqBlock prxRegion wantPositions wantFreq (out.append window) ms

/-- The ranges `FetchBlocks` asks for, in the order of their handles. -/
def blockRequests (idx : LogicalIndexReader) (r : Resolved) (g : BlockGeometry)
    (wantPositions wantFreq : Bool) : List Range :=
  [⟨g.ddBlockOff, g.ddBlockLen⟩] ++
    (if wantFreq then [⟨g.freqBlockOff, g.freqBlockLen⟩] else []) ++
    if wantPositions then [⟨prxAbs idx r.entry r.prxBase, r.entry.prxLen⟩] else []

/-- `read_windowed_posting`, in one batch behind the prelude. -/
def readWindowedPosting (z : Zstd) (idx : LogicalIndexReader) (r : Resolved)
    (wantPositions wantFreq : Bool) : Result DecodedPosting := do
  let prelude ← fetchWindowedPrelude idx r.entry r.frqBase
  if wantPositions ∧ prelude.hasPrx = false then
    .error (.corruption "windowed_posting: positions requested but prelude has none")
  else
    let g ← resolveBlocks idx r.entry r.frqBase prelude
    let fetched ← fetch idx.file 0 (blockRequests idx r g wantPositions wantFreq)
    let ddBlock ← fetched.get 0
    let freqBlock ← (if wantFreq then fetched.get 1 else .ok [])
    let prxRegion ←
      (if wantPositions then fetched.get (if wantFreq then 2 else 1) else .ok [])
    decodeWindows z ddBlock freqBlock prxRegion wantPositions wantFreq {} prelude.windows

end Snii.Reader
