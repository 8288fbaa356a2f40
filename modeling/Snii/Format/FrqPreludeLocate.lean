import Snii.Format.FrqPrelude
import Snii.Lib.SortedSearch

/-!
# Locating a window

The window that may hold a document is the first whose last docid reaches it.  The
reader finds it by the super-blocks' last docids and a scan inside one super-block
(`locateWindow_of_grouped`), in every prelude that was built (`prelude_roundTrip`).
-/

namespace Snii.Format.FrqPrelude

open Snii.Lib.ByteReader Snii.Lib.Chunks Snii.Lib.SortedSearch Snii.Common
open Snii.Encoding.ByteSource

/-- The first window whose last docid reaches the docid. -/
def firstReaching (ms : List WindowMeta) (docid : Nat) : Option Nat :=
  ms.findIdx? fun m => decide (docid ≤ m.lastDocid)

theorem pairwise_reaching {ms : List WindowMeta} (docid : Nat)
    (h : (ms.map WindowMeta.lastDocid).Pairwise (· ≤ ·)) :
    ms.Pairwise fun a b =>
      decide (docid ≤ a.lastDocid) = true → decide (docid ≤ b.lastDocid) = true := by
  refine (List.pairwise_map.mp h).imp fun hab ha => ?_
  rw [decide_eq_true_eq] at ha ⊢
  omega

theorem takeWhile_lasts (lasts : List WindowMeta) (docid : Nat) :
    ((lasts.map WindowMeta.lastDocid).takeWhile fun l => decide (l < docid)).length =
      (lasts.takeWhile fun m => !decide (docid ≤ m.lastDocid)).length := by
  rw [List.takeWhile_map, List.length_map]
  congr 2
  funext m
  rw [Function.comp_apply, ← decide_not, decide_eq_decide]
  omega

/-- **The two-level search** is the linear one, when the windows' last docids ascend and the
super-blocks are of the reader's group size. -/
theorem locateWindow_of_grouped {r : FrqPreludeReader} {groups : List (List WindowMeta)}
    {lasts : List WindowMeta} (hwin : r.windows = groups.flatten)
    (hgroups : Grouped r.groupSize groups lasts)
    (hsb : r.sbLastDocid = lasts.map WindowMeta.lastDocid)
    (hsorted : (r.windows.map WindowMeta.lastDocid).Pairwise (· ≤ ·)) (docid : Nat) :
    r.locateWindow docid = firstReaching r.windows docid := by
  have hmono := pairwise_reaching docid hsorted
  rw [FrqPreludeReader.locateWindow]
  cases hlast : r.windows.getLast? with
  | none =>
      rw [List.getLast?_eq_none_iff.mp hlast]
      rfl
  | some last =>
      by_cases hbig : docid > last.lastDocid
      · simp only [hbig, if_true]
        symm
        exact findIdx?_eq_none_of_last hlast hmono (by simpa using hbig)
      · simp only [hbig, if_false]
        rw [hwin] at hmono
        rw [firstReaching, hwin, ← hgroups.findIdx? hmono, hsb, takeWhile_lasts]

/-! ## What the format stores of a window -/

/-- A window without the fields that the format does not store. -/
def WindowMeta.kept (hasFreq hasPrx : Bool) (m : WindowMeta) : WindowMeta :=
  { m with
    winBase := 0, verifyCrc := true, freqZstd := hasFreq && m.freqZstd
    freqOff := if hasFreq then m.freqOff else 0
    freqDiskLen := if hasFreq then m.freqDiskLen else 0
    freqUncompLen := if hasFreq then m.freqUncompLen else 0
    crcFreq := if hasFreq then m.crcFreq else 0
    prxOff := if hasPrx then m.prxOff else 0, prxLen := if hasPrx then m.prxLen else 0 }

/-- The windows as they read back: each starts where the one before ended. -/
def storedRows (hasFreq hasPrx : Bool) : Nat → List WindowMeta → List WindowMeta
  | _, [] => []
  | prevLast, m :: ms =>
      { m.kept hasFreq hasPrx with winBase := prevLast } :: storedRows hasFreq hasPrx m.lastDocid ms

def storedColumns (cols : FrqPreludeColumns) : FrqPreludeColumns :=
  { cols with windows := storedRows cols.hasFreq cols.hasPrx 0 cols.windows }

variable {hasFreq hasPrx : Bool} {prevLast : Nat} {m : WindowMeta} {ms : List WindowMeta}

theorem kept_storedRows : (storedRows hasFreq hasPrx prevLast ms).map (WindowMeta.kept hasFreq hasPrx) =
    ms.map (WindowMeta.kept hasFreq hasPrx) := by
  induction ms generalizing prevLast with
  | nil => rfl
  | cons m ms ih =>
      rw [storedRows, List.map_cons, List.map_cons, ih]
      cases hasFreq <;> cases hasPrx <;> rfl

theorem lastDocids_storedRows : (storedRows hasFreq hasPrx prevLast ms).map WindowMeta.lastDocid =
    ms.map WindowMeta.lastDocid := by
  induction ms generalizing prevLast with
  | nil => rfl
  | cons m ms ih =>
      rw [storedRows, List.map_cons, List.map_cons, ih]
      rfl

theorem encodeRows_kept : encodeRows hasFreq hasPrx prevLast (ms.map (WindowMeta.kept hasFreq hasPrx)) =
    encodeRows hasFreq hasPrx prevLast ms := by
  induction ms generalizing prevLast with
  | nil => rfl
  | cons m ms ih =>
      have hrow : encodeWindowRow hasFreq hasPrx prevLast (m.kept hasFreq hasPrx) =
          encodeWindowRow hasFreq hasPrx prevLast m := by
        cases hasFreq <;> cases hasPrx <;> rfl
      rw [List.map_cons, encodeRows, encodeRows, hrow]
      congr 1
      exact ih

theorem lastOf_kept :
    lastOf prevLast (ms.map (WindowMeta.kept hasFreq hasPrx)) = lastOf prevLast ms := by
  rw [lastOf, lastOf, List.getLast?_map, Option.map_map]
  rfl

theorem encodeSuperBlocks_kept (gs : List (List WindowMeta)) :
    encodeSuperBlocks hasFreq hasPrx prevLast (gs.map (List.map (WindowMeta.kept hasFreq hasPrx))) =
      encodeSuperBlocks hasFreq hasPrx prevLast gs := by
  induction gs generalizing prevLast with
  | nil => rfl
  | cons g gs ih =>
      rw [List.map_cons, encodeSuperBlocks, encodeSuperBlocks, encodeRows_kept, lastOf_kept, ih]

/-- The bytes depend on what is stored. -/
theorem buildFrqPrelude_stored (cols : FrqPreludeColumns) :
    buildFrqPrelude (storedColumns cols) = buildFrqPrelude cols := by
  have hlasts : (storedColumns cols).windows.map WindowMeta.lastDocid =
      cols.windows.map WindowMeta.lastDocid := lastDocids_storedRows
  have hlen : (storedColumns cols).windows.length = cols.windows.length := by
    have hmap := congrArg List.length hlasts
    rwa [List.length_map, List.length_map] at hmap
  have hblocks : encodeSuperBlocks (storedColumns cols).hasFreq (storedColumns cols).hasPrx 0
        (chunks (storedColumns cols).groupSize (storedColumns cols).windows) =
      encodeSuperBlocks cols.hasFreq cols.hasPrx 0 (chunks cols.groupSize cols.windows) := by
    rw [← encodeSuperBlocks_kept, ← chunks_map]
    show encodeSuperBlocks cols.hasFreq cols.hasPrx 0 (chunks _ ((storedRows cols.hasFreq cols.hasPrx 0 cols.windows).map
      (WindowMeta.kept cols.hasFreq cols.hasPrx))) = _
    rw [kept_storedRows, chunks_map, encodeSuperBlocks_kept]
    rfl
  have hvalid : validateInput (storedColumns cols) = validateInput cols := by
    rw [validateInput, validateInput, hlen, hlasts]
    rfl
  rw [buildFrqPrelude, buildFrqPrelude, hvalid, hblocks, hlen]
  rfl

/-! ## The round trip -/

/-- The fields of a window have the widths of their types. -/
structure WindowMeta.Widths (m : WindowMeta) : Prop where
  last : m.lastDocid < 2 ^ 32
  docCount : m.docCount < 2 ^ 32
  dd : m.ddOff < 2 ^ 64 ∧ m.ddDiskLen < 2 ^ 64 ∧ m.ddUncompLen < 2 ^ 64 ∧ m.crcDd < 2 ^ 32
  freq : m.freqOff < 2 ^ 64 ∧ m.freqDiskLen < 2 ^ 64 ∧ m.freqUncompLen < 2 ^ 64 ∧
    m.crcFreq < 2 ^ 32
  prx : m.prxOff < 2 ^ 64 ∧ m.prxLen < 2 ^ 64
  maxFreq : m.maxFreq < 2 ^ 32
  maxNorm : m.maxNorm < 256

theorem rowsOk_storedRows (hwidths : ∀ m ∈ ms, m.Widths)
    (hchain : (prevLast :: ms.map WindowMeta.lastDocid).IsChain (· ≤ ·)) :
    RowsOk hasFreq hasPrx prevLast (storedRows hasFreq hasPrx prevLast ms) := by
  induction ms generalizing prevLast with
  | nil => trivial
  | cons m ms ih =>
      rw [List.map_cons, List.isChain_cons_cons] at hchain
      have hm := hwidths m List.mem_cons_self
      refine ⟨?_, ih (fun x hx => hwidths x (List.mem_cons_of_mem _ hx)) hchain.2⟩
      obtain ⟨hf1, hf2, hf3, hf4⟩ := hm.freq
      obtain ⟨hp1, hp2⟩ := hm.prx
      constructor
      case base => rfl
      case mono => exact hchain.1
      case last => exact hm.last
      case docCount => exact hm.docCount
      case dd => exact hm.dd
      case freq =>
        cases hasFreq with
        | true => exact ⟨hf1, hf2, hf3, hf4⟩
        | false =>
            exact ⟨Nat.two_pow_pos 64, Nat.two_pow_pos 64, Nat.two_pow_pos 64, Nat.two_pow_pos 32⟩
      case noFreq =>
        rintro rfl
        exact ⟨rfl, rfl, rfl, rfl, rfl⟩
      case prx =>
        cases hasPrx with
        | true => exact ⟨hp1, hp2⟩
        | false => exact ⟨Nat.two_pow_pos 64, Nat.two_pow_pos 64⟩
      case noPrx =>
        rintro rfl
        exact ⟨rfl, rfl⟩
      case maxFreq => exact hm.maxFreq
      case maxNorm => exact hm.maxNorm
      case crcs => rfl

theorem tiles_storedRows {dd freq : Nat} (h : Tiles hasFreq dd freq ms) :
    Tiles hasFreq dd freq (storedRows hasFreq hasPrx prevLast ms) := by
  induction ms generalizing prevLast dd freq with
  | nil => trivial
  | cons m ms ih =>
      obtain ⟨hdd, hraw, hfreq, hrest⟩ := h
      cases hasFreq with
      | true => exact ⟨hdd, hraw, hfreq, ih hrest⟩
      | false => exact ⟨hdd, hraw, fun hf => (by cases hf), ih hrest⟩

theorem sum_ddDiskLen_storedRows : ((storedRows hasFreq hasPrx prevLast ms).map
    WindowMeta.ddDiskLen).sum = (ms.map WindowMeta.ddDiskLen).sum := by
  induction ms generalizing prevLast with
  | nil => rfl
  | cons m ms ih =>
      rw [storedRows, List.map_cons, List.map_cons, List.sum_cons, List.sum_cons, ih]
      rfl

theorem freqTotal_storedRows : freqTotal hasFreq (storedRows hasFreq hasPrx prevLast ms) =
    freqTotal hasFreq ms := by
  unfold freqTotal
  cases hasFreq with
  | false => rfl
  | true =>
      induction ms generalizing prevLast with
      | nil => rfl
      | cons m ms ih =>
          have hrest := @ih m.lastDocid
          rw [if_pos rfl, if_pos rfl] at hrest ⊢
          rw [storedRows, List.map_cons, List.map_cons, List.sum_cons, List.sum_cons, hrest]
          rfl

theorem sbLastDocid_eq (gs : List (List WindowMeta)) (hne : ∀ g ∈ gs, g ≠ []) :
    (encodeSuperBlocks hasFreq hasPrx prevLast gs).map SuperBlock.lastDocid =
      (gs.filterMap List.getLast?).map WindowMeta.lastDocid := by
  induction gs generalizing prevLast with
  | nil => rfl
  | cons g gs ih =>
      have hlast := List.getLast?_eq_some_getLast (hne g List.mem_cons_self)
      rw [encodeSuperBlocks, List.map_cons, List.filterMap_cons_some hlast, List.map_cons,
        ih fun x hx => hne x (List.mem_cons_of_mem _ hx)]
      simp only [lastOf, hlast, Option.map_some, Option.getD_some]

/-- The reader of a prelude finds windows as a linear scan does. -/
theorem locateWindow_readerOf {cols : FrqPreludeColumns} (hg : 0 < cols.groupSize)
    (hsorted : (cols.windows.map WindowMeta.lastDocid).Pairwise (· ≤ ·)) (docid : Nat) :
    (readerOf cols).locateWindow docid = firstReaching cols.windows docid := by
  have hne : ∀ g ∈ chunks cols.groupSize cols.windows, g ≠ [] := fun g hmem =>
    List.length_pos_iff.mp (length_mem_chunks hg hmem).1
  exact locateWindow_of_grouped (r := readerOf cols) (flatten_chunks hg _).symm
    (grouped_chunks hg cols.windows) (sbLastDocid_eq _ hne) hsorted docid

theorem validateInput_inv {cols : FrqPreludeColumns} (h : validateInput cols = .ok ()) :
    0 < cols.groupSize ∧ cols.windows.length ≤ kMaxWindows ∧
      (cols.windows.map WindowMeta.lastDocid).IsChain (· ≤ ·) := by
  rw [validateInput] at h
  split at h
  · cases h
  · split at h
    · cases h
    · split at h
      · cases h
      · exact ⟨by omega, by omega, by rwa [not_not] at *⟩

theorem isChain_zero {xs : List Nat} (h : xs.IsChain (· ≤ ·)) : (0 :: xs).IsChain (· ≤ ·) := by
  cases xs with
  | nil => exact List.IsChain.singleton 0
  | cons x xs => exact List.isChain_cons_cons.mpr ⟨Nat.zero_le x, h⟩

theorem firstReaching_congr {ms ns : List WindowMeta}
    (h : ms.map WindowMeta.lastDocid = ns.map WindowMeta.lastDocid) (docid : Nat) :
    firstReaching ms docid = firstReaching ns docid := by
  have hmap : ∀ xs : List WindowMeta, firstReaching xs docid =
      (xs.map WindowMeta.lastDocid).findIdx? fun l => decide (docid ≤ l) := by
    intro xs
    rw [List.findIdx?_map]
    rfl
  rw [hmap, hmap, h]

/-- **Prelude round trip.**  Whatever windows the builder accepts, if their regions tile
the blocks, open gives back what the format stores of them, and locating agrees with a
linear scan. -/
theorem prelude_roundTrip (cols : FrqPreludeColumns) (haccept : validateInput cols = .ok ())
    (hgroup : cols.groupSize < 2 ^ 32) (hwidths : ∀ m ∈ cols.windows, m.Widths)
    (htiles : Tiles cols.hasFreq 0 0 cols.windows)
    (hdd : (cols.windows.map WindowMeta.ddDiskLen).sum < 2 ^ 64)
    (hfreq : freqTotal cols.hasFreq cols.windows < 2 ^ 64) :
    ∃ bytes r, buildFrqPrelude cols = .ok bytes ∧ FrqPreludeReader.open bytes = .ok r ∧
      r.hasFreq = cols.hasFreq ∧ r.hasPrx = cols.hasPrx ∧
      r.windows = storedRows cols.hasFreq cols.hasPrx 0 cols.windows ∧
      r.ddBlockLen = (cols.windows.map WindowMeta.ddDiskLen).sum ∧
      r.freqBlockLen = freqTotal cols.hasFreq cols.windows ∧
      ∀ docid, r.locateWindow docid = firstReaching cols.windows docid := by
  obtain ⟨hpos, hcount, hchain⟩ := validateInput_inv haccept
  have hsorted := List.isChain_iff_pairwise.mp hchain
  have hlasts : (storedColumns cols).windows.map WindowMeta.lastDocid =
      cols.windows.map WindowMeta.lastDocid := lastDocids_storedRows
  have hok : ColumnsOk (storedColumns cols) :=
    { groupPos := hpos
      groupLt := hgroup
      count := by rw [← List.length_map WindowMeta.lastDocid, hlasts, List.length_map]; exact hcount
      rows := rowsOk_storedRows hwidths (isChain_zero hchain)
      tiles := tiles_storedRows htiles
      ddLen := sum_ddDiskLen_storedRows.trans_lt hdd
      freqLen := freqTotal_storedRows.trans_lt hfreq }
  obtain ⟨bytes, hbuild, _, hopen⟩ := open_buildFrqPrelude hok
  rw [buildFrqPrelude_stored] at hbuild
  refine ⟨bytes, readerOf (storedColumns cols), hbuild, hopen, rfl, rfl, rfl,
    sum_ddDiskLen_storedRows, freqTotal_storedRows, fun docid => ?_⟩
  rw [← hlasts] at hsorted
  rw [locateWindow_readerOf hok.groupPos hsorted]
  exact firstReaching_congr hlasts docid

/-- Three windows in super-blocks of two, the regions of the second compressed. -/
def threeWindows : FrqPreludeColumns :=
  { hasFreq := true, hasPrx := true, groupSize := 2
    windows :=
      [{ lastDocid := 9, docCount := 4, ddDiskLen := 5, ddUncompLen := 5, crcDd := 77
         freqDiskLen := 2, freqUncompLen := 2, prxLen := 11, maxFreq := 3, maxNorm := 12 },
       { lastDocid := 300, docCount := 8, ddZstd := true, ddOff := 5, ddDiskLen := 20
         ddUncompLen := 9, freqZstd := true, freqOff := 2, freqDiskLen := 6, freqUncompLen := 40
         prxOff := 11, prxLen := 7, maxFreq := 200, maxNorm := 255 },
       { lastDocid := 70000, docCount := 1, ddOff := 25, ddDiskLen := 3, ddUncompLen := 3
         freqOff := 8, freqDiskLen := 1, freqUncompLen := 1, prxOff := 18, prxLen := 2
         maxFreq := 1 }] }

instance (m : WindowMeta) : Decidable m.Widths :=
  decidable_of_iff (m.lastDocid < 2 ^ 32 ∧ m.docCount < 2 ^ 32 ∧
      (m.ddOff < 2 ^ 64 ∧ m.ddDiskLen < 2 ^ 64 ∧ m.ddUncompLen < 2 ^ 64 ∧ m.crcDd < 2 ^ 32) ∧
      (m.freqOff < 2 ^ 64 ∧ m.freqDiskLen < 2 ^ 64 ∧ m.freqUncompLen < 2 ^ 64 ∧
        m.crcFreq < 2 ^ 32) ∧
      (m.prxOff < 2 ^ 64 ∧ m.prxLen < 2 ^ 64) ∧ m.maxFreq < 2 ^ 32 ∧ m.maxNorm < 256)
    ⟨fun ⟨h1, h2, h3, h4, h5, h6, h7⟩ => ⟨h1, h2, h3, h4, h5, h6, h7⟩,
      fun h => ⟨h.last, h.docCount, h.dd, h.freq, h.prx, h.maxFreq, h.maxNorm⟩⟩

theorem prelude_roundTrip_threeWindows :
    ∃ bytes r, buildFrqPrelude threeWindows = .ok bytes ∧ FrqPreludeReader.open bytes = .ok r ∧
      r.windows.map WindowMeta.winBase = [0, 9, 300] ∧ r.ddBlockLen = 28 ∧ r.freqBlockLen = 9 ∧
      r.locateWindow 10 = some 1 := by
  have htiles : Tiles threeWindows.hasFreq 0 0 threeWindows.windows :=
    ⟨rfl, by decide, fun _ => rfl, rfl, by decide, fun _ => rfl, rfl, by decide, fun _ => rfl,
      trivial⟩
  obtain ⟨bytes, r, hbuild, hopen, _, _, hwindows, hdd, hfreq, hlocate⟩ :=
    prelude_roundTrip threeWindows (by decide) (by decide) (by decide) htiles (by decide)
      (by decide)
  refine ⟨bytes, r, hbuild, hopen, ?_, hdd, hfreq, hlocate 10⟩
  rw [hwindows]
  decide

end Snii.Format.FrqPrelude
