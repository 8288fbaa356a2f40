import Snii.Format.DictEntry
import Snii.Format.FrqPrelude
import Snii.Format.PrxPod
import Snii.Writer.LogicalIndexWriter

/-!
# A term's entry and its spans

`build_entry` of `logical_index_writer.cpp`.  A term becomes a dictionary entry, and
unless that entry is inline its bytes go to the index's posting region: positions
first, then frequencies.  The region is the state of `Posting`; it streams straight
into the container, so what was appended stays there when a later step fails.
-/

namespace Snii.Writer.LogicalIndexWriter

open Snii.Lib.ByteReader Snii.Lib.Chunks Snii.Common Snii.Writer.SpillRunCodec
open Snii.Encoding.Compression Snii.Format.Dict
open Snii.Format.FrqPod (FrqRegionMeta buildDdRegion buildFreqRegion kFrqBaseUnit)
open Snii.Format.PrxPod (buildPrxWindowFlat)
open Snii.Format.FrqPrelude (WindowMeta FrqPreludeColumns buildFrqPrelude)

/-- The level at which a region is compressed when it is long enough. -/
def kAutoZstd : Int := -1

/-- The level at which it never is. -/
def kRawFrqRegion : Int := 0

/-- The rows of a super-block. -/
def kPreludeGroupSize : Nat := 64

/-- From this document frequency on windows are larger. -/
def kAdaptiveWindowDfThreshold : Nat := 8192

/-- The documents of a larger window. -/
def kAdaptiveWindowDocs : Nat := 1024

/-- Shorter postings go into the entry. -/
def kDefaultInlineThreshold : Nat := 256

/-- A step of the writer; the state is the posting region written so far. -/
abbrev Posting (α : Type) := RunM Bytes α

/-- `posting_size()`: the bytes appended since the index's region began. -/
def postingSize : Posting Nat := do
  let region ← get
  pure region.length

/-- Bytes behind the posting region. -/
def appendPosting (bytes : Bytes) : Posting Unit := modify (· ++ bytes)

/-- A step that can fail and writes nothing. -/
def check {α : Type} : Result α → Posting α
  | .ok a => pure a
  | .error e => throw e

/-! ## Windows -/

/-- The documents of a window, by the frequency of the term. -/
def adaptiveWindowDocs (df : Nat) : Nat :=
  if df ≥ kAdaptiveWindowDfThreshold then kAdaptiveWindowDocs else kFrqBaseUnit

/-- The largest value, `0` for none. -/
def maxOf (values : List Nat) : Nat := values.foldl (fun m x => if x > m then x else m) 0

/-- The smallest norm byte of the documents that have one; `0` where there is none. -/
def windowMaxNorm (norms : Bytes) (docs : List Nat) : Nat :=
  if norms = [] ∨ docs = [] then 0
  else
    let best := docs.foldl (fun best docid =>
      if docid ≥ norms.length then best
      else if norms.getD docid 0 < best then norms.getD docid 0 else best) (0xFF : UInt8)
    if best = 0xFF then 0 else best.toNat

/-- The regions of one window; the frequencies' is empty where the tier has none. -/
def encodeRegions (z : Zstd) (docids freqs : List Nat) (winBase : Nat) (hasFreq : Bool) :
    Result ((Bytes × FrqRegionMeta) × (Bytes × FrqRegionMeta)) := do
  let dd ← buildDdRegion z docids winBase kRawFrqRegion
  if hasFreq then
    let freq ← buildFreqRegion z freqs kRawFrqRegion
    pure (dd, freq)
  else pure (dd, ([], {}))

/-- `LayoutWindowRegions`: the window's place in the blocks built so far. -/
def layoutWindowRegions (m : WindowMeta) (ddMeta freqMeta : FrqRegionMeta) (hasFreq : Bool)
    (ddOff freqOff : Nat) : WindowMeta :=
  let m := { m with
    ddZstd := ddMeta.zstd, ddOff := ddOff, ddDiskLen := ddMeta.diskLen
    ddUncompLen := ddMeta.uncompLen, crcDd := ddMeta.crc }
  if hasFreq then
    { m with
      freqZstd := freqMeta.zstd, freqOff := freqOff, freqDiskLen := freqMeta.diskLen
      freqUncompLen := freqMeta.uncompLen, crcFreq := freqMeta.crc }
  else m

/-- What the entry builders read of the writer's configuration. -/
structure EntryConfig where
  hasFreq : Bool
  hasPrx : Bool
  norms : Bytes

/-- A window's positions: what the pump delivers next, or a range of the flat buffer.
`posOff` positions went to the windows before. -/
def windowPositions (tp : Emitted) (posOff winPos : Nat) : Result (List Nat) :=
  if tp.postings.streamed then .ok ((tp.pulled.drop posOff).take winPos)
  else if posOff + winPos > tp.postings.positionsFlat.length then .error .outOfBounds
  else .ok ((tp.postings.positionsFlat.drop posOff).take winPos)

/-- One window's skeleton. -/
def windowSkeleton (norms : Bytes) (winBase : Nat) (docs freqs : List Nat) : WindowMeta :=
  { lastDocid := docs.getLastD 0, winBase := winBase, docCount := docs.length % 2 ^ 32
    maxFreq := maxOf freqs, maxNorm := windowMaxNorm norms docs }

/-- Pass 1 of `BuildWindowedPosting`: the windows' skeletons; each window's positions
are appended to the region as soon as they are encoded. -/
def prxPass (z : Zstd) (c : EntryConfig) (tp : Emitted) :
    (winBase posOff prxTotal : Nat) → List (List Nat × List Nat) → Posting (List WindowMeta × Nat)
  | _, _, prxTotal, [] => pure ([], prxTotal)
  | winBase, posOff, prxTotal, (docs, freqs) :: rest => do
      let m := windowSkeleton c.norms winBase docs freqs
      if c.hasPrx then
        let pos ← check (windowPositions tp posOff freqs.sum)
        let bytes ← check (buildPrxWindowFlat z pos freqs kAutoZstd)
        appendPosting bytes
        let (ms, total) ←
          prxPass z c tp m.lastDocid (posOff + freqs.sum) (prxTotal + bytes.length) rest
        pure ({ m with prxOff := prxTotal, prxLen := bytes.length } :: ms, total)
      else
        let (ms, total) ← prxPass z c tp m.lastDocid (posOff + freqs.sum) prxTotal rest
        pure (m :: ms, total)

/-- The grouped layout of a windowed term. -/
structure WindowedPosting where
  ddBlock : Bytes := []
  freqBlock : Bytes := []
  windows : List WindowMeta := []

/-- Pass 2: the regions of the windows, grouped into the two blocks. -/
def frqPass (z : Zstd) (hasFreq : Bool) :
    Nat → WindowedPosting → List ((List Nat × List Nat) × WindowMeta) → Result WindowedPosting
  | _, out, [] => .ok out
  | winBase, out, ((docs, freqs), m) :: rest => do
      let (dd, freq) ← encodeRegions z docs freqs winBase hasFreq
      let m := layoutWindowRegions m dd.2 freq.2 hasFreq out.ddBlock.length out.freqBlock.length
      frqPass z hasFreq m.lastDocid
        { ddBlock := out.ddBlock ++ dd.1
          freqBlock := if hasFreq then out.freqBlock ++ freq.1 else out.freqBlock
          windows := out.windows ++ [m] } rest

/-- The documents of a term, window by window, each with its frequencies. -/
def splitWindows (docids freqs : List Nat) : List (List Nat × List Nat) :=
  let unit := adaptiveWindowDocs (docids.length % 2 ^ 32)
  (chunks unit docids).zip (chunks unit freqs)

/-- `BuildWindowedPosting`, with the number of position bytes it appended. -/
def buildWindowedPosting (z : Zstd) (c : EntryConfig) (tp : Emitted) :
    Posting (WindowedPosting × Nat) := do
  let windows := splitWindows tp.postings.docids tp.postings.freqs
  let (skeletons, prxTotal) ← prxPass z c tp 0 0 0 windows
  let wp ← check (frqPass z c.hasFreq 0 {} (windows.zip skeletons))
  pure (wp, prxTotal)

/-- `BuildPrelude`. -/
def buildPrelude (c : EntryConfig) (windows : List WindowMeta) : Result Bytes :=
  buildFrqPrelude { hasFreq := c.hasFreq, hasPrx := c.hasPrx, groupSize := kPreludeGroupSize
                    windows := windows }

/-! ## Entries -/

/-- `build_windowed_entry`: positions, prelude, docids, freqs. -/
def buildWindowedEntry (z : Zstd) (c : EntryConfig) (tp : Emitted) (frqBase prxBase : Nat)
    (e : DictEntry) : Posting DictEntry := do
  let prxOff ← postingSize
  let (wp, prxTotal) ← buildWindowedPosting z c tp
  let prelude ← check (buildPrelude c wp.windows)
  let frqOff ← postingSize
  appendPosting prelude
  appendPosting wp.ddBlock
  appendPosting wp.freqBlock
  let frqEnd ← postingSize
  pure { e with
    kind := .podRef, enc := .windowed, hasSb := true, preludeLen := prelude.length
    frqDocsLen := prelude.length + wp.ddBlock.length
    frqOffDelta := frqOff - frqBase, frqLen := frqEnd - frqOff
    prxOffDelta := if c.hasPrx then prxOff - prxBase else e.prxOffDelta
    prxLen := if c.hasPrx then prxTotal else e.prxLen }

/-- The end of `build_slim_entry` for a term that is not inline: positions first. -/
def appendSlim (c : EntryConfig) (frqBase prxBase : Nat) (e : DictEntry) (prxWin frqWin : Bytes) :
    Posting DictEntry := do
  let e ← if c.hasPrx then do
      let prxOff ← postingSize
      appendPosting prxWin
      let prxEnd ← postingSize
      pure { e with prxOffDelta := prxOff - prxBase, prxLen := prxEnd - prxOff }
    else pure e
  let frqOff ← postingSize
  appendPosting frqWin
  let frqEnd ← postingSize
  pure { e with frqOffDelta := frqOff - frqBase, frqLen := frqEnd - frqOff }

/-- The single window of a slim term's positions, which always come from the flat buffer. -/
def makePrxWindow (z : Zstd) (c : EntryConfig) (tp : TermPostings) : Result Bytes :=
  if c.hasPrx then buildPrxWindowFlat z tp.positionsFlat tp.freqs kAutoZstd else .ok []

/-- `build_slim_entry`: inline, or positions and then docids and freqs. -/
def buildSlimEntry (z : Zstd) (c : EntryConfig) (tp : Emitted) (frqBase prxBase : Nat)
    (e : DictEntry) : Posting DictEntry := do
  let (dd, freq) ←
    check (encodeRegions z tp.postings.docids tp.postings.freqs 0 c.hasFreq)
  let frqWin := dd.1 ++ freq.1
  let prxWin ← check (makePrxWindow z c tp.postings)
  let e := { e with enc := .slim, ddMeta := dd.2, freqMeta := freq.2 }
  if frqWin.length ≤ kDefaultInlineThreshold then
    pure { e with
      kind := .inline, inlineDdDiskLen := dd.2.diskLen, frqBytes := frqWin
      prxBytes := if c.hasPrx then prxWin else e.prxBytes }
  else
    appendSlim c frqBase prxBase { e with kind := .podRef, frqDocsLen := dd.2.diskLen }
      prxWin frqWin

/-- The entry before its postings are encoded. -/
def entryStats (tp : TermPostings) : DictEntry :=
  { term := tp.term, df := tp.docids.length % 2 ^ 32, ttfDelta := tp.freqs.sum % 2 ^ 64
    maxFreq := maxOf tp.freqs }

/-- By the term's document frequency. -/
def buildEntry (z : Zstd) (c : EntryConfig) (tp : Emitted) (frqBase prxBase : Nat) :
    Posting DictEntry :=
  let e := entryStats tp.postings
  if e.df ≥ kSlimDfThreshold then buildWindowedEntry z c tp frqBase prxBase e
  else buildSlimEntry z c tp frqBase prxBase e

/-! ## Running a step -/

theorem postingSize_run (region : Bytes) : postingSize region = .ok region.length region := rfl

theorem check_eq_ok {α : Type} {r : Result α} {region region' : Bytes} {a : α}
    (h : check r region = .ok a region') : r = .ok a ∧ region' = region := by
  cases r with
  | error e => cases h
  | ok b =>
      cases h
      exact ⟨rfl, rfl⟩

end Snii.Writer.LogicalIndexWriter
