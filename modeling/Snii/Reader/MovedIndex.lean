import Snii.Reader.PostingRoundTrip

/-!
# One index at two places

Two files may hold the same posting region at different offsets.  What a reader of the
one file plans and reads of an entry is then what the reader of the other does, moved:
the ranges hold the same bytes, and whatever is decoded from them is the same, errors
included.
-/

namespace Snii.Reader

open Snii.Lib.ByteReader Snii.Lib.Agreement Snii.Common Snii.Io.FileReader
open Snii.Io.BatchRangeFetcher Snii.Encoding.Compression Snii.Format.Dict
open Snii.Format.DictBlock (Resolved)
open Snii.Format.FrqPrelude (WindowMeta FrqPreludeReader)

/-- Two readers over one posting region, each with the region at a place of its own. -/
structure SameRegion (idx idx' : LogicalIndexReader) (region : Bytes) : Prop where
  here : HoldsRegion idx region
  there : HoldsRegion idx' region

/-- The spans of an entry lie in a posting region of the length. -/
structure SpansIn (len : Nat) (r : Resolved) : Prop where
  prelude : r.entry.preludeLen ≤ r.entry.frqLen
  frq : r.frqBase + r.entry.frqOffDelta + r.entry.frqLen ≤ len
  prx : r.prxBase + r.entry.prxOffDelta + r.entry.prxLen ≤ len

variable {idx idx' : LogicalIndexReader} {region : Bytes} {r : Resolved}

/-! ## Ranges -/

theorem SameRegion.sameBytes (h : SameRegion idx idx' region) {x n o o' : Nat}
    (hin : x + n ≤ region.length) (ho : o = idx.sectionRefs.postingRegion.offset + x)
    (ho' : o' = idx'.sectionRefs.postingRegion.offset + x) :
    SameBytes idx.file idx'.file ⟨o, n⟩ ⟨o', n⟩ := by
  have hlen : n = ((region.drop x).take n).length := by
    rw [List.length_take, List.length_drop]
    omega
  subst ho ho'
  exact ⟨_, ⟨h.here.here.slice hin, hlen⟩, h.there.here.slice hin, hlen⟩

theorem HoldsRegion.end_lt (h : HoldsRegion idx region) :
    idx.sectionRefs.postingRegion.offset + region.length < 2 ^ 64 := by
  have hbound := h.bound
  rwa [h.len] at hbound

theorem preludeAbs_eq (h : HoldsRegion idx region) (hr : SpansIn region.length r) :
    preludeAbs idx r.entry r.frqBase =
      idx.sectionRefs.postingRegion.offset + (r.frqBase + r.entry.frqOffDelta) := by
  have hend := h.end_lt
  have hfrq := hr.frq
  rw [preludeAbs, Nat.mod_eq_of_lt (by omega), Nat.add_assoc]

theorem prxAbs_eq (h : HoldsRegion idx region) (hr : SpansIn region.length r) :
    prxAbs idx r.entry r.prxBase =
      idx.sectionRefs.postingRegion.offset + (r.prxBase + r.entry.prxOffDelta) := by
  have hend := h.end_lt
  have hprx := hr.prx
  rw [prxAbs, Nat.mod_eq_of_lt (by omega), Nat.add_assoc]

/-- **A flat locator** is resolved to the same bytes, or refused alike. -/
theorem resolveWindow_moved (h : SameRegion idx idx' region)
    (base offDelta totalLen preludeLen : Nat) :
    SameOutcome (fun p p' => p.2 = p'.2 ∧ ∀ n, n ≤ p.2 →
        SameBytes idx.file idx'.file ⟨p.1, n⟩ ⟨p'.1, n⟩)
      (resolveWindow idx.sectionRefs.postingRegion base offDelta totalLen preludeLen)
      (resolveWindow idx'.sectionRefs.postingRegion base offDelta totalLen preludeLen) := by
  have hend := h.here.end_lt
  have hend' := h.there.end_lt
  rw [resolveWindow, resolveWindow, h.here.len, h.there.len]
  apply SameOutcome.ite (fun _ => .error _)
  intro hle
  apply SameOutcome.ite (fun _ => .error _)
  intro _
  apply SameOutcome.ite (fun _ => .error _)
  intro hin
  apply SameOutcome.ok
  refine ⟨rfl, fun n hn => ?_⟩
  apply h.sameBytes (x := (base + offDelta) % 2 ^ 64 + preludeLen)
  · simp only at hn
    omega
  · rw [Nat.add_assoc, Nat.mod_eq_of_lt (by omega)]
  · rw [Nat.add_assoc, Nat.mod_eq_of_lt (by omega)]

/-- A check of one range against one length. -/
theorem inBounds_same (off len : Nat) {total total' : Nat} (htotal : total = total') :
    SameOutcome (fun _ _ => off + len ≤ total) (inBounds off len total)
      (inBounds off len total') := by
  rw [inBounds, inBounds, ← htotal]
  apply SameOutcome.ite (fun _ => .error _)
  intro hin
  apply SameOutcome.ok
  omega

/-! ## Windowed postings -/

/-- The prelude of an entry is read alike. -/
theorem fetchWindowedPrelude_moved (h : SameRegion idx idx' region)
    (hr : SpansIn region.length r) :
    fetchWindowedPrelude idx r.entry r.frqBase = fetchWindowedPrelude idx' r.entry r.frqBase := by
  have hfrq := hr.frq
  rw [fetchWindowedPrelude, fetchWindowedPrelude]
  apply SameOutcome.eq
  apply SameOutcome.ite (fun _ => .error _)
  intro _
  apply SameOutcome.ite (fun _ => .error _)
  intro hle
  have hrange := h.sameBytes (n := r.entry.preludeLen) (by omega) (preludeAbs_eq h.here hr)
    (preludeAbs_eq h.there hr)
  apply (fetch_same h.here.size h.there.size (.cons hrange .nil) 0).bind
  intro f f' hf
  rw [hf 0]
  exact .refl _

/-- The two blocks of one posting, in two regions that start at the offsets. -/
structure MovedBlocks (off off' len : Nat) (g g' : BlockGeometry) : Prop where
  ddLen : g.ddBlockLen = g'.ddBlockLen
  freqLen : g.freqBlockLen = g'.freqBlockLen
  place : ∃ x, (g.ddBlockOff = off + x ∧ g'.ddBlockOff = off' + x) ∧
    (g.freqBlockOff = off + (x + g.ddBlockLen) ∧ g'.freqBlockOff = off' + (x + g.ddBlockLen)) ∧
    x + g.ddBlockLen + g.freqBlockLen ≤ len

theorem resolveBlocks_moved (h : SameRegion idx idx' region) (hr : SpansIn region.length r)
    (prelude : FrqPreludeReader) :
    SameOutcome (MovedBlocks idx.sectionRefs.postingRegion.offset
        idx'.sectionRefs.postingRegion.offset region.length)
      (resolveBlocks idx r.entry r.frqBase prelude)
      (resolveBlocks idx' r.entry r.frqBase prelude) := by
  have hend := h.here.end_lt
  have hend' := h.there.end_lt
  have hfrq := hr.frq
  rw [resolveBlocks, resolveBlocks, preludeAbs_eq h.here hr, preludeAbs_eq h.there hr]
  apply SameOutcome.ite (fun _ => .error _)
  intro hle
  apply SameOutcome.ite (fun _ => .error _)
  intro hblocks
  apply SameOutcome.ok
  refine ⟨rfl, rfl, r.frqBase + r.entry.frqOffDelta + r.entry.preludeLen, ⟨?_, ?_⟩, ⟨?_, ?_⟩, ?_⟩
  · rw [Nat.mod_eq_of_lt (by omega), Nat.add_assoc]
  · rw [Nat.mod_eq_of_lt (by omega), Nat.add_assoc]
  · simp only
    rw [Nat.mod_eq_of_lt (by omega : _ + r.entry.preludeLen < 2 ^ 64), Nat.mod_eq_of_lt (by omega)]
    omega
  · simp only
    rw [Nat.mod_eq_of_lt (by omega : _ + r.entry.preludeLen < 2 ^ 64), Nat.mod_eq_of_lt (by omega)]
    omega
  · simp only
    omega

/-- What is planned of a window. -/
structure MovedRange (file file' : Bytes) (a a' : WindowAbsRange) : Prop where
  dd : SameBytes file file' a.dd a'.dd
  freq : SameBytes file file' a.freq a'.freq
  prx : SameBytes file file' a.prx a'.prx

theorem freqRange_moved (h : SameRegion idx idx' region) {g g' : BlockGeometry}
    (hg : MovedBlocks idx.sectionRefs.postingRegion.offset
      idx'.sectionRefs.postingRegion.offset region.length g g') (m : WindowMeta)
    (wantFreq : Bool) :
    SameOutcome (SameBytes idx.file idx'.file) (freqRange g m wantFreq)
      (freqRange g' m wantFreq) := by
  have hend := h.here.end_lt
  have hend' := h.there.end_lt
  obtain ⟨x, -, ⟨hoff, hoff'⟩, hin⟩ := hg.place
  rw [freqRange, freqRange]
  apply SameOutcome.ite _ (fun _ => .ok (sameBytes_empty _ _))
  intro _
  apply (inBounds_same _ _ hg.freqLen).bind
  intro _ _ hfreq
  apply SameOutcome.ok
  apply h.sameBytes (x := x + g.ddBlockLen + m.freqOff) (by omega)
  · rw [hoff, Nat.mod_eq_of_lt (by omega), Nat.add_assoc]
  · rw [hoff', Nat.mod_eq_of_lt (by omega), Nat.add_assoc]

theorem prxRange_moved (h : SameRegion idx idx' region) (hr : SpansIn region.length r)
    (prelude : FrqPreludeReader) (m : WindowMeta) (wantPositions : Bool) :
    SameOutcome (SameBytes idx.file idx'.file)
      (prxRange idx r.entry r.prxBase prelude m wantPositions)
      (prxRange idx' r.entry r.prxBase prelude m wantPositions) := by
  have hend := h.here.end_lt
  have hend' := h.there.end_lt
  have hprx := hr.prx
  rw [prxRange, prxRange, prxAbs_eq h.here hr, prxAbs_eq h.there hr]
  apply SameOutcome.ite _ (fun _ => .ok (sameBytes_empty _ _))
  intro _
  apply SameOutcome.ite (fun _ => .error _)
  intro _
  apply (inBounds_same _ _ rfl).bind
  intro _ _ hin
  apply SameOutcome.ok
  apply h.sameBytes (x := r.prxBase + r.entry.prxOffDelta + m.prxOff) (by omega)
  · rw [Nat.mod_eq_of_lt (by omega), Nat.add_assoc]
  · rw [Nat.mod_eq_of_lt (by omega), Nat.add_assoc]

/-- **The ranges of a window** hold the same bytes. -/
theorem windowedWindowRange_moved (h : SameRegion idx idx' region)
    (hr : SpansIn region.length r) (prelude : FrqPreludeReader) (w : Nat)
    (wantPositions wantFreq : Bool) :
    SameOutcome (MovedRange idx.file idx'.file)
      (windowedWindowRange idx r prelude w wantPositions wantFreq)
      (windowedWindowRange idx' r prelude w wantPositions wantFreq) := by
  have hend := h.here.end_lt
  have hend' := h.there.end_lt
  apply (resolveBlocks_moved h hr prelude).bind
  intro g g' hg
  apply (SameOutcome.refl _).bind
  intro m _ hm
  subst hm
  apply (inBounds_same _ _ hg.ddLen).bind
  intro _ _ hdd
  apply (freqRange_moved h hg m wantFreq).bind
  intro freq freq' hfreq
  apply (prxRange_moved h hr prelude m wantPositions).bind
  intro prx prx' hprx
  obtain ⟨x, ⟨hoff, hoff'⟩, -, hin⟩ := hg.place
  apply SameOutcome.ok
  refine ⟨?_, hfreq, hprx⟩
  apply h.sameBytes (x := x + m.ddOff) (by omega)
  · rw [hoff, Nat.mod_eq_of_lt (by omega), Nat.add_assoc]
  · rw [hoff', Nat.mod_eq_of_lt (by omega), Nat.add_assoc]

theorem blockRequests_moved (h : SameRegion idx idx' region) (hr : SpansIn region.length r)
    {g g' : BlockGeometry} (hg : MovedBlocks idx.sectionRefs.postingRegion.offset
      idx'.sectionRefs.postingRegion.offset region.length g g') (wantPositions wantFreq : Bool) :
    List.Forall₂ (SameBytes idx.file idx'.file) (blockRequests idx r g wantPositions wantFreq)
      (blockRequests idx' r g' wantPositions wantFreq) := by
  have hprx := hr.prx
  obtain ⟨x, ⟨hdd, hdd'⟩, ⟨hfreq, hfreq'⟩, hin⟩ := hg.place
  have hddBytes : SameBytes idx.file idx'.file ⟨g.ddBlockOff, g.ddBlockLen⟩
      ⟨g'.ddBlockOff, g'.ddBlockLen⟩ := by
    rw [← hg.ddLen]
    exact h.sameBytes (by omega) hdd hdd'
  have hfreqBytes : SameBytes idx.file idx'.file ⟨g.freqBlockOff, g.freqBlockLen⟩
      ⟨g'.freqBlockOff, g'.freqBlockLen⟩ := by
    rw [← hg.freqLen]
    exact h.sameBytes (by omega) hfreq hfreq'
  have hprxBytes := h.sameBytes (n := r.entry.prxLen) (by omega) (prxAbs_eq h.here hr)
    (prxAbs_eq h.there hr)
  rw [blockRequests, blockRequests]
  apply List.rel_append
  · apply List.rel_append (.cons hddBytes .nil)
    cases wantFreq with
    | false => exact .nil
    | true => exact .cons hfreqBytes .nil
  · cases wantPositions with
    | false => exact .nil
    | true => exact .cons hprxBytes .nil

/-- **A whole windowed posting** is read alike, whatever is asked for. -/
theorem readWindowedPosting_moved (z : Zstd) (h : SameRegion idx idx' region)
    (hr : SpansIn region.length r) (wantPositions wantFreq : Bool) :
    readWindowedPosting z idx r wantPositions wantFreq =
      readWindowedPosting z idx' r wantPositions wantFreq := by
  rw [readWindowedPosting, readWindowedPosting, fetchWindowedPrelude_moved h hr]
  apply (SameOutcome.refl _).bind_eq
  intro prelude _ hprelude
  subst hprelude
  apply SameOutcome.eq
  apply SameOutcome.ite (fun _ => .error _)
  intro _
  apply (resolveBlocks_moved h hr prelude).bind
  intro g g' hg
  apply (fetch_same h.here.size h.there.size
    (blockRequests_moved h hr hg wantPositions wantFreq) 0).bind
  intro f f' hf
  rw [hf 0, hf 1, hf (if wantFreq then 2 else 1)]
  exact .refl _

end Snii.Reader
