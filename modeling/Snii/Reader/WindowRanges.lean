import Snii.Format.FrqPreludeLocate
import Snii.Reader.WindowedPosting

/-!
# Planned reads and the posting region

The ranges of a flat entry are checked against the posting region.  The ranges of a
window are checked against the entry's own lengths only, and where the entry lies is
never compared with the region: `plannedInside_iff` says for which entries the ranges
stay inside all the same.
-/

namespace Snii.Reader

open Snii.Lib.ByteReader Snii.Common
open Snii.Format.Dict Snii.Format.FrqPrelude
open Snii.Format.DictBlock (Resolved)
open Snii.Format.PerIndexMeta (RegionRef)
open Snii.Io.BatchRangeFetcher (Range)

/-- A range inside the region, as integers; an empty range is anywhere. -/
def InsideRegion (ref : RegionRef) (off len : Nat) : Prop :=
  len = 0 ∨ ref.offset ≤ off ∧ off + len ≤ ref.offset + ref.length

/-- Whatever a planning function answers lies inside the posting region, for every accepted
prelude, every window and every choice of regions. -/
structure PlannedInside (idx : LogicalIndexReader) (r : Resolved) : Prop where
  frqWindow : ∀ off len, resolveFrqWindow idx r.entry r.frqBase = .ok (off, len) →
    InsideRegion idx.sectionRefs.postingRegion off len
  prxWindow : ∀ off len, resolvePrxWindow idx r.entry r.prxBase = .ok (off, len) →
    InsideRegion idx.sectionRefs.postingRegion off len
  windowRange : ∀ bytes prelude, FrqPreludeReader.open bytes = .ok prelude →
    ∀ w wantPositions wantFreq range,
      windowedWindowRange idx r prelude w wantPositions wantFreq = .ok range →
      InsideRegion idx.sectionRefs.postingRegion range.dd.offset range.dd.len ∧
      InsideRegion idx.sectionRefs.postingRegion range.freq.offset range.freq.len ∧
      InsideRegion idx.sectionRefs.postingRegion range.prx.offset range.prx.len

/-- The spans of an entry, where its base and delta put them, are inside the region: the frq
span behind the prelude, and the prx span. -/
def SpansInside (idx : LogicalIndexReader) (r : Resolved) : Prop :=
  InsideRegion idx.sectionRefs.postingRegion
      ((preludeAbs idx r.entry r.frqBase + r.entry.preludeLen) % 2 ^ 64)
      (r.entry.frqLen - r.entry.preludeLen) ∧
    InsideRegion idx.sectionRefs.postingRegion (prxAbs idx r.entry r.prxBase) r.entry.prxLen

variable {idx : LogicalIndexReader} {r : Resolved} {ref : RegionRef}

/-! ## Flat entries -/

/-- A flat locator that is accepted lies inside the region. -/
theorem resolveWindow_inside (href : ref.offset + ref.length < 2 ^ 64)
    {base offDelta totalLen preludeLen off len : Nat}
    (h : resolveWindow ref base offDelta totalLen preludeLen = .ok (off, len)) :
    InsideRegion ref off len := by
  rw [resolveWindow] at h
  split at h
  · cases h
  · simp only at h
    split at h
    · cases h
    · split at h
      · cases h
      · cases h
        right
        rw [Nat.mod_eq_of_lt (by omega)]
        omega

/-! ## Windows -/

theorem inBounds_inv {off len total : Nat} (h : inBounds off len total = .ok ()) :
    off + len ≤ total := by
  rw [inBounds] at h
  split at h
  · cases h
  · omega

/-- A part of a span that is inside the region. -/
theorem InsideRegion.part (href : ref.offset + ref.length < 2 ^ 64) {start total off len : Nat}
    (h : InsideRegion ref start total) (hin : off + len ≤ total) :
    InsideRegion ref ((start + off) % 2 ^ 64) len := by
  rcases h with h | h
  · left
    omega
  · right
    rw [Nat.mod_eq_of_lt (by omega)]
    omega

/-- What a successful answer for a window has checked. -/
theorem windowedWindowRange_inv {prelude : FrqPreludeReader} {w : Nat}
    {wantPositions wantFreq : Bool} {range : WindowAbsRange}
    (h : windowedWindowRange idx r prelude w wantPositions wantFreq = .ok range) :
    r.entry.preludeLen ≤ r.entry.frqLen ∧
    prelude.ddBlockLen + prelude.freqBlockLen ≤ r.entry.frqLen - r.entry.preludeLen ∧
    ∃ (start : Nat) (m : WindowMeta),
      start = (preludeAbs idx r.entry r.frqBase + r.entry.preludeLen) % 2 ^ 64 ∧
      m.ddOff + m.ddDiskLen ≤ prelude.ddBlockLen ∧
      range.dd = ⟨(start + m.ddOff) % 2 ^ 64, m.ddDiskLen⟩ ∧
      (range.freq.len = 0 ∨ m.freqOff + m.freqDiskLen ≤ prelude.freqBlockLen ∧
        range.freq =
          ⟨((start + prelude.ddBlockLen) % 2 ^ 64 + m.freqOff) % 2 ^ 64, m.freqDiskLen⟩) ∧
      (range.prx.len = 0 ∨ m.prxOff + m.prxLen ≤ r.entry.prxLen ∧
        range.prx = ⟨(prxAbs idx r.entry r.prxBase + m.prxOff) % 2 ^ 64, m.prxLen⟩) := by
  obtain ⟨g, hg, h⟩ := bind_eq_ok h
  obtain ⟨m, _, h⟩ := bind_eq_ok h
  obtain ⟨⟨⟩, hdd, h⟩ := bind_eq_ok h
  obtain ⟨freq, hfreq, h⟩ := bind_eq_ok h
  obtain ⟨prx, hprx, h⟩ := bind_eq_ok h
  cases h
  rw [resolveBlocks] at hg
  split at hg
  · cases hg
  · simp only at hg
    split at hg
    · cases hg
    · cases hg
      refine ⟨by omega, by omega, _, m, rfl, inBounds_inv hdd, rfl, ?_, ?_⟩
      · rw [freqRange] at hfreq
        split at hfreq
        · obtain ⟨⟨⟩, hin, hfreq⟩ := bind_eq_ok hfreq
          cases hfreq
          exact .inr ⟨inBounds_inv hin, rfl⟩
        · cases hfreq
          exact .inl rfl
      · rw [prxRange] at hprx
        split at hprx
        · split at hprx
          · cases hprx
          · obtain ⟨⟨⟩, hin, hprx⟩ := bind_eq_ok hprx
            cases hprx
            exact .inr ⟨inBounds_inv hin, rfl⟩
        · cases hprx
          exact .inl rfl

theorem windowRange_inside (href : idx.sectionRefs.postingRegion.offset +
      idx.sectionRefs.postingRegion.length < 2 ^ 64) (hspans : SpansInside idx r)
    {prelude : FrqPreludeReader} {w : Nat} {wantPositions wantFreq : Bool}
    {range : WindowAbsRange}
    (h : windowedWindowRange idx r prelude w wantPositions wantFreq = .ok range) :
    InsideRegion idx.sectionRefs.postingRegion range.dd.offset range.dd.len ∧
      InsideRegion idx.sectionRefs.postingRegion range.freq.offset range.freq.len ∧
      InsideRegion idx.sectionRefs.postingRegion range.prx.offset range.prx.len := by
  obtain ⟨_, hblocks, start, m, rfl, hdd, hddRange, hfreq, hprx⟩ := windowedWindowRange_inv h
  obtain ⟨hfrqSpan, hprxSpan⟩ := hspans
  refine ⟨?_, ?_, ?_⟩
  · rw [hddRange]
    exact hfrqSpan.part href (by simp only; omega)
  · rcases hfreq with hzero | ⟨hin, hrange⟩
    · exact .inl hzero
    · rw [hrange, Nat.mod_add_mod, Nat.add_assoc]
      exact hfrqSpan.part href (by simp only; omega)
  · rcases hprx with hzero | ⟨hin, hrange⟩
    · exact .inl hzero
    · rw [hrange]
      exact hprxSpan.part href hin

/-- One window whose dd region is its whole block and whose positions are the whole span. -/
def wholeSpan (ddLen prxLen : Nat) : FrqPreludeColumns where
  hasFreq := false
  hasPrx := true
  groupSize := 1
  windows := [{ ddDiskLen := ddLen, ddUncompLen := ddLen, prxLen := prxLen }]

theorem columnsOk_wholeSpan {ddLen prxLen : Nat} (hdd : ddLen < 2 ^ 64) (hprx : prxLen < 2 ^ 64) :
    ColumnsOk (wholeSpan ddLen prxLen) where
  groupPos := Nat.one_pos
  groupLt := (by decide : 1 < 2 ^ 32)
  count := (by decide : 1 ≤ kMaxWindows)
  rows := by
    refine ⟨?_, trivial⟩
    constructor
    case base => rfl
    case mono => exact Nat.le_refl 0
    case last => exact Nat.two_pow_pos 32
    case docCount => exact Nat.two_pow_pos 32
    case dd => exact ⟨Nat.two_pow_pos 64, hdd, hdd, Nat.two_pow_pos 32⟩
    case freq =>
      exact ⟨Nat.two_pow_pos 64, Nat.two_pow_pos 64, Nat.two_pow_pos 64, Nat.two_pow_pos 32⟩
    case noFreq => exact fun _ => ⟨rfl, rfl, rfl, rfl, rfl⟩
    case prx => exact ⟨Nat.two_pow_pos 64, hprx⟩
    case noPrx =>
      intro h
      cases h
    case maxFreq => exact Nat.two_pow_pos 32
    case maxNorm => exact (by decide : 0 < 256)
    case crcs => rfl
  tiles := ⟨rfl, fun _ => Nat.le_refl _, fun _ => rfl, trivial⟩
  ddLen := hdd
  freqLen := Nat.two_pow_pos 64

/-- An accepted prelude whose only window is all there is behind the entry's prelude. -/
theorem windowedWindowRange_wholeSpan {ddLen : Nat} (hle : r.entry.preludeLen ≤ r.entry.frqLen)
    (hdd : ddLen = r.entry.frqLen - r.entry.preludeLen) :
    windowedWindowRange idx r (readerOf (wholeSpan ddLen r.entry.prxLen)) 0 true false =
      .ok { dd := ⟨(preludeAbs idx r.entry r.frqBase + r.entry.preludeLen) % 2 ^ 64, ddLen⟩
            prx := ⟨prxAbs idx r.entry r.prxBase, r.entry.prxLen⟩ } := by
  have hblocks : resolveBlocks idx r.entry r.frqBase (readerOf (wholeSpan ddLen r.entry.prxLen)) =
      .ok { ddBlockOff := (preludeAbs idx r.entry r.frqBase + r.entry.preludeLen) % 2 ^ 64
            ddBlockLen := ddLen
            freqBlockOff :=
              ((preludeAbs idx r.entry r.frqBase + r.entry.preludeLen) % 2 ^ 64 + ddLen) % 2 ^ 64
            freqBlockLen := 0 } := by
    have hddBlock : (readerOf (wholeSpan ddLen r.entry.prxLen)).ddBlockLen = ddLen := rfl
    have hfreqBlock : (readerOf (wholeSpan ddLen r.entry.prxLen)).freqBlockLen = 0 := rfl
    rw [resolveBlocks, if_neg (by omega)]
    simp only [hddBlock, hfreqBlock]
    rw [if_neg (by omega)]
  have hbounds : ∀ len, inBounds 0 len len = .ok () := by
    intro len
    rw [inBounds, if_neg (by omega)]
  have hprx : prxRange idx r.entry r.prxBase (readerOf (wholeSpan ddLen r.entry.prxLen))
      { ddDiskLen := ddLen, ddUncompLen := ddLen, prxLen := r.entry.prxLen } true =
        .ok ⟨prxAbs idx r.entry r.prxBase, r.entry.prxLen⟩ := by
    have hmod : prxAbs idx r.entry r.prxBase % 2 ^ 64 = prxAbs idx r.entry r.prxBase :=
      Nat.mod_mod _ _
    have hhas : ¬ (readerOf (wholeSpan ddLen r.entry.prxLen)).hasPrx = false := Bool.true_eq_false.mp
    rw [prxRange, if_pos rfl, if_neg hhas]
    simp only
    rw [hbounds, ok_bind, Nat.add_zero, hmod]
    rfl
  rw [windowedWindowRange, hblocks, ok_bind]
  show (inBounds 0 ddLen ddLen >>= fun _ => _) = _
  rw [hbounds, ok_bind]
  show (prxRange idx r.entry r.prxBase (readerOf (wholeSpan ddLen r.entry.prxLen))
      { ddDiskLen := ddLen, ddUncompLen := ddLen, prxLen := r.entry.prxLen } true >>= _) = _
  rw [hprx, ok_bind, Nat.add_zero, Nat.mod_mod]
  rfl

/-- **When planned reads stay inside the posting region**: exactly for the entries whose
prelude is longer than the frq span, which are rejected, or whose spans are inside it. -/
theorem plannedInside_iff (href : idx.sectionRefs.postingRegion.offset +
      idx.sectionRefs.postingRegion.length < 2 ^ 64)
    (hfrqLen : r.entry.frqLen < 2 ^ 64) (hprxLen : r.entry.prxLen < 2 ^ 64) :
    PlannedInside idx r ↔ r.entry.frqLen < r.entry.preludeLen ∨ SpansInside idx r := by
  constructor
  · intro hplanned
    rcases Nat.lt_or_ge r.entry.frqLen r.entry.preludeLen with hlt | hle
    · exact .inl hlt
    · right
      have hdd : r.entry.frqLen - r.entry.preludeLen < 2 ^ 64 := by omega
      obtain ⟨bytes, _, _, hopen⟩ := open_buildFrqPrelude (columnsOk_wholeSpan hdd hprxLen)
      obtain ⟨hddInside, _, hprxInside⟩ := hplanned.windowRange bytes _ hopen 0 true false _
        (windowedWindowRange_wholeSpan hle rfl)
      exact ⟨hddInside, hprxInside⟩
  · intro hcond
    refine ⟨fun off len h => resolveWindow_inside href h,
      fun off len h => resolveWindow_inside href h, ?_⟩
    intro bytes prelude _ w wantPositions wantFreq range h
    rcases hcond with hlt | hspans
    · have hle := (windowedWindowRange_inv h).1
      omega
    · exact windowRange_inside href hspans h

/-- An index whose posting region is the hundred bytes from 1000 on. -/
def hundredBytes : LogicalIndexReader where
  file := []
  tier := .t1
  hasPositions := false
  indexMeta := { sectionRefs := { postingRegion := ⟨1000, 100⟩ } }
  sampleTerms := []
  blockRefs := []
  bsbf := none

/-- A windowed entry of thirty bytes, twenty of them the prelude, at the given delta. -/
def thirtyBytesAt (delta : Nat) : Resolved :=
  ⟨{ enc := .windowed, frqOffDelta := delta, frqLen := 30, preludeLen := 20 }, 0, 0⟩

instance (ref : RegionRef) (off len : Nat) : Decidable (InsideRegion ref off len) :=
  inferInstanceAs (Decidable (_ ∨ _ ∧ _))

instance (idx : LogicalIndexReader) (r : Resolved) : Decidable (SpansInside idx r) :=
  inferInstanceAs (Decidable (_ ∧ _))

theorem plannedInside_iff_thirtyBytes : PlannedInside hundredBytes (thirtyBytesAt 70) :=
  (plannedInside_iff (by decide) (by decide) (by decide)).mpr (by decide)

/-- The entry lies behind the region; its window is planned there. -/
theorem windowRange_not_inside : ¬ PlannedInside hundredBytes (thirtyBytesAt 5000) := by
  intro hplanned
  obtain ⟨bytes, _, _, hopen⟩ := open_buildFrqPrelude
    (columnsOk_wholeSpan (by decide : 10 < 2 ^ 64) (by decide : 0 < 2 ^ 64))
  have hrange := @windowedWindowRange_wholeSpan hundredBytes (thirtyBytesAt 5000) 10 (by decide) rfl
  obtain ⟨hdd, _⟩ := hplanned.windowRange bytes _ hopen 0 true false _ hrange
  revert hdd
  decide

end Snii.Reader
