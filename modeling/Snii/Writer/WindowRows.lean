import Snii.Writer.PostingEntry

/-!
# The rows of a windowed term

Both passes of `BuildWindowedPosting` in one closed form: a term's windows, each with
its encoded positions (`Window`), determine the two blocks and the rows of the prelude
(`ddBytes`, `freqBytes`, `rows`), and `buildWindowedPosting_rows` says that this is
what the passes leave.
-/

namespace Snii.Writer.LogicalIndexWriter

open Snii.Lib.ByteReader Snii.Lib.Chunks Snii.Common Snii.Writer.SpillRunCodec
open Snii.Encoding.Compression Snii.Encoding.Crc32c Snii.Format.Dict
open Snii.Format.FrqPod
open Snii.Format.PrxPod (buildPrxWindowFlat)
open Snii.Format.FrqPrelude (WindowMeta)

/-- A window of a term with its encoded positions. -/
structure Window where
  docs : List Nat
  freqs : List Nat
  prx : Bytes

namespace Window

/-- Its last docid. -/
def last (v : Window) : Nat := v.docs.getLastD 0

/-- Its row before the regions are laid out. -/
def skeleton (c : EntryConfig) (winBase prxOff : Nat) (v : Window) : WindowMeta :=
  { windowSkeleton c.norms winBase v.docs v.freqs with
    prxOff := if c.hasPrx then prxOff else 0, prxLen := v.prx.length }

/-- Its docid region. -/
def ddBytes (winBase : Nat) (v : Window) : Bytes := ddPlain winBase v.docs

/-- Its freq region, where freqs are kept. -/
def freqBytes (hasFreq : Bool) (v : Window) : Bytes :=
  if hasFreq then encodePforRuns v.freqs else []

/-- The window's row in the prelude. -/
def row (c : EntryConfig) (winBase ddOff freqOff prxOff : Nat) (v : Window) : WindowMeta :=
  { v.skeleton c winBase prxOff with
    ddOff := ddOff, ddDiskLen := (v.ddBytes winBase).length
    ddUncompLen := (v.ddBytes winBase).length, crcDd := crc32c (v.ddBytes winBase)
    freqOff := if c.hasFreq then freqOff else 0, freqDiskLen := (v.freqBytes c.hasFreq).length
    freqUncompLen := (v.freqBytes c.hasFreq).length
    crcFreq := if c.hasFreq then crc32c (v.freqBytes c.hasFreq) else 0 }

end Window

/-- The rows before the regions are laid out. -/
def skeletons (c : EntryConfig) : Nat → Nat → List Window → List WindowMeta
  | _, _, [] => []
  | winBase, prxOff, v :: vs =>
      v.skeleton c winBase prxOff :: skeletons c v.last (prxOff + v.prx.length) vs

def ddBytes : Nat → List Window → Bytes
  | _, [] => []
  | winBase, v :: vs => v.ddBytes winBase ++ ddBytes v.last vs

def freqBytes (hasFreq : Bool) (vs : List Window) : Bytes := vs.flatMap (Window.freqBytes hasFreq)

/-- The rows as the prelude has them. -/
def rows (c : EntryConfig) : Nat → Nat → Nat → Nat → List Window → List WindowMeta
  | _, _, _, _, [] => []
  | winBase, ddOff, freqOff, prxOff, v :: vs =>
      v.row c winBase ddOff freqOff prxOff ::
        rows c v.last (ddOff + (v.ddBytes winBase).length)
          (freqOff + (v.freqBytes c.hasFreq).length) (prxOff + v.prx.length) vs

/-- Each window's docids ascend from the one before. -/
def DocsChain : Nat → List Window → Prop
  | _, [] => True
  | winBase, v :: vs => (winBase :: v.docs).IsChain (· ≤ ·) ∧ DocsChain v.last vs

/-- The windows' positions encode what the term supplies, from `posOff` on. -/
def PrxEncoded (z : Zstd) (c : EntryConfig) (tp : Emitted) : Nat → List Window → Prop
  | _, [] => True
  | posOff, v :: vs =>
      (c.hasPrx = true → ∃ pos, windowPositions tp posOff v.freqs.sum = .ok pos ∧
        buildPrxWindowFlat z pos v.freqs kAutoZstd = .ok v.prx) ∧
      (c.hasPrx = false → v.prx = []) ∧ PrxEncoded z c tp (posOff + v.freqs.sum) vs

theorem PrxEncoded.prx_nil {z : Zstd} {c : EntryConfig} {tp : Emitted} {posOff : Nat}
    {vs : List Window} (h : PrxEncoded z c tp posOff vs) (hprx : c.hasPrx = false) :
    ∀ v ∈ vs, v.prx = [] := by
  induction vs generalizing posOff with
  | nil => simp
  | cons v vs ih =>
      intro u hu
      rcases List.mem_cons.mp hu with rfl | hu
      · exact h.2.1 hprx
      · exact ih h.2.2 u hu

/-- Its documents and their freqs. -/
def Window.split (v : Window) : List Nat × List Nat := (v.docs, v.freqs)

variable {z : Zstd} {c : EntryConfig} {tp : Emitted} {region region' : Bytes}

/-! ## Pass 1 -/

theorem prxPass_rows {winBase posOff prxTotal total : Nat} {ws : List (List Nat × List Nat)}
    {ms : List WindowMeta}
    (h : prxPass z c tp winBase posOff prxTotal ws region = .ok (ms, total) region') :
    ∃ vs : List Window, vs.map Window.split = ws ∧ PrxEncoded z c tp posOff vs ∧
      ms = skeletons c winBase prxTotal vs ∧ region' = region ++ vs.flatMap Window.prx ∧
      total = prxTotal + (vs.flatMap Window.prx).length := by
  induction ws generalizing winBase posOff prxTotal region ms with
  | nil =>
      cases h
      exact ⟨[], rfl, trivial, rfl, by simp, rfl⟩
  | cons w ws ih =>
      unfold prxPass at h
      cases hprx : c.hasPrx with
      | true =>
          rw [hprx, if_pos rfl] at h
          obtain ⟨pos, region1, hpos, h1⟩ := bind_run_eq_ok h
          obtain ⟨bytes, region2, hbytes, h2⟩ := bind_run_eq_ok h1
          obtain ⟨_, _, happ, h3⟩ := bind_run_eq_ok h2
          obtain ⟨⟨ms', total'⟩, _, hrest, h4⟩ := bind_run_eq_ok h3
          cases h4
          rw [(check_eq_ok hbytes).2, (check_eq_ok hpos).2] at happ
          cases happ
          obtain ⟨vs, hws, henc, hms, hregion, htotal⟩ := ih hrest
          refine ⟨⟨w.1, w.2, bytes⟩ :: vs, by rw [List.map_cons, hws]; rfl, ⟨fun _ => ?_, ?_, henc⟩,
            ?_, by simp [hregion], ?_⟩
          · exact ⟨pos, (check_eq_ok hpos).1, (check_eq_ok hbytes).1⟩
          · intro hfalse
            rw [hprx] at hfalse
            cases hfalse
          · rw [skeletons, Window.skeleton, hprx, if_pos rfl, hms]
            rfl
          · rw [htotal, List.flatMap_cons, List.length_append, Nat.add_assoc]
      | false =>
          rw [hprx, if_neg (by decide)] at h
          obtain ⟨⟨ms', total'⟩, _, hrest, h1⟩ := bind_run_eq_ok h
          cases h1
          obtain ⟨vs, hws, henc, hms, hregion, htotal⟩ := ih hrest
          refine ⟨⟨w.1, w.2, []⟩ :: vs, by rw [List.map_cons, hws]; rfl, ⟨?_, fun _ => rfl, henc⟩,
            ?_, by simp [hregion], by simp [htotal]⟩
          · intro htrue
            rw [hprx] at htrue
            cases htrue
          · rw [skeletons, Window.skeleton, hprx, if_neg (by decide), hms]
            rfl

/-! ## Pass 2 -/

/-- The metadata of a region stored as it is. -/
def rawMeta (plain : Bytes) : FrqRegionMeta :=
  { uncompLen := plain.length, diskLen := plain.length, crc := crc32c plain }

theorem encodeRegions_eq_ok {docs freqs : List Nat} {winBase : Nat} {hasFreq : Bool}
    {dd freq : Bytes × FrqRegionMeta}
    (h : encodeRegions z docs freqs winBase hasFreq = .ok (dd, freq)) :
    (winBase :: docs).IsChain (· ≤ ·) ∧
      dd = (ddPlain winBase docs, rawMeta (ddPlain winBase docs)) ∧
      freq = if hasFreq then (encodePforRuns freqs, rawMeta (encodePforRuns freqs)) else ([], {}) := by
  unfold encodeRegions buildDdRegion buildFreqRegion at h
  obtain ⟨dd', hdd, h1⟩ := bind_eq_ok h
  obtain ⟨_, hvalid, hdd1⟩ := bind_eq_ok hdd
  rw [kRawFrqRegion, emitRegion_raw] at hdd1
  cases hdd1
  have hchain := (validateDocs_iff docs winBase).mp hvalid
  cases hasFreq with
  | true =>
      rw [if_pos rfl, kRawFrqRegion, emitRegion_raw] at h1
      cases h1
      exact ⟨hchain, rfl, rfl⟩
  | false =>
      cases h1
      exact ⟨hchain, rfl, rfl⟩

theorem layoutWindowRegions_skeleton (winBase prxOff ddOff freqOff : Nat) (v : Window)
    {dd freq : Bytes × FrqRegionMeta}
    (h : encodeRegions z v.docs v.freqs winBase c.hasFreq = .ok (dd, freq)) :
    layoutWindowRegions (v.skeleton c winBase prxOff) dd.2 freq.2 c.hasFreq ddOff freqOff =
        v.row c winBase ddOff freqOff prxOff ∧
      dd.1 = v.ddBytes winBase ∧ freq.1 = v.freqBytes c.hasFreq := by
  obtain ⟨_, rfl, rfl⟩ := encodeRegions_eq_ok h
  unfold layoutWindowRegions Window.row Window.freqBytes Window.ddBytes
  cases c.hasFreq <;> exact ⟨rfl, rfl, rfl⟩

theorem frqPass_rows {winBase prxOff : Nat} {out wp : WindowedPosting} {vs : List Window}
    (h : frqPass z c.hasFreq winBase out
      ((vs.map Window.split).zip (skeletons c winBase prxOff vs)) = .ok wp) :
    DocsChain winBase vs ∧
      wp = { ddBlock := out.ddBlock ++ ddBytes winBase vs
             freqBlock := out.freqBlock ++ freqBytes c.hasFreq vs
             windows := out.windows ++
               rows c winBase out.ddBlock.length out.freqBlock.length prxOff vs } := by
  induction vs generalizing winBase prxOff out with
  | nil =>
      cases h
      exact ⟨trivial, by simp [ddBytes, freqBytes, rows]⟩
  | cons v vs ih =>
      rw [List.map_cons, skeletons, List.zip_cons_cons, Window.split, frqPass] at h
      obtain ⟨⟨dd, freq⟩, henc, h1⟩ := bind_eq_ok h
      obtain ⟨hrow, hdd, hfreq⟩ := layoutWindowRegions_skeleton winBase prxOff out.ddBlock.length
        out.freqBlock.length v henc
      simp only [hrow] at h1
      change frqPass z c.hasFreq v.last _ _ = _ at h1
      obtain ⟨hchain, hwp⟩ := ih h1
      refine ⟨⟨(encodeRegions_eq_ok henc).1, hchain⟩, ?_⟩
      rw [hwp, hdd, hfreq]
      have hblock : (if c.hasFreq then out.freqBlock ++ v.freqBytes c.hasFreq else out.freqBlock) =
          out.freqBlock ++ v.freqBytes c.hasFreq := by
        cases hc : c.hasFreq <;> simp [Window.freqBytes]
      simp only [hblock, ddBytes, freqBytes, rows, List.flatMap_cons, List.append_assoc,
        List.length_append, List.singleton_append]

/-- **Both passes**: the windows of the term, each with its positions encoded in place. -/
theorem buildWindowedPosting_rows {wp : WindowedPosting} {total : Nat}
    (h : buildWindowedPosting z c tp region = .ok (wp, total) region') :
    ∃ vs : List Window,
      vs.map Window.split = splitWindows tp.postings.docids tp.postings.freqs ∧
      PrxEncoded z c tp 0 vs ∧ DocsChain 0 vs ∧
      region' = region ++ vs.flatMap Window.prx ∧ total = (vs.flatMap Window.prx).length ∧
      wp = { ddBlock := ddBytes 0 vs, freqBlock := freqBytes c.hasFreq vs
             windows := rows c 0 0 0 0 vs } := by
  unfold buildWindowedPosting at h
  obtain ⟨⟨ms, total'⟩, region1, hpass, h1⟩ := bind_run_eq_ok h
  obtain ⟨wp', region2, hfrq, h2⟩ := bind_run_eq_ok h1
  cases h2
  obtain ⟨hfrq', hregion⟩ := check_eq_ok hfrq
  obtain ⟨vs, hws, henc, hms, hregion1, htotal⟩ := prxPass_rows hpass
  rw [← hws, hms] at hfrq'
  obtain ⟨hchain, hwp⟩ := frqPass_rows hfrq'
  exact ⟨vs, hws, henc, hchain, by rw [hregion, hregion1], by simpa using htotal,
    by simpa using hwp⟩

/-! ## Lengths -/

theorem sum_ddDiskLen (winBase ddOff freqOff prxOff : Nat) (vs : List Window) :
    ((rows c winBase ddOff freqOff prxOff vs).map WindowMeta.ddDiskLen).sum =
      (ddBytes winBase vs).length := by
  induction vs generalizing winBase ddOff freqOff prxOff with
  | nil => rfl
  | cons v vs ih =>
      rw [rows, List.map_cons, List.sum_cons, ih, ddBytes, List.length_append]
      rfl

theorem sum_freqDiskLen (winBase ddOff freqOff prxOff : Nat) (vs : List Window) :
    ((rows c winBase ddOff freqOff prxOff vs).map WindowMeta.freqDiskLen).sum =
      (freqBytes c.hasFreq vs).length := by
  induction vs generalizing winBase ddOff freqOff prxOff with
  | nil => rfl
  | cons v vs ih =>
      rw [rows, List.map_cons, List.sum_cons, ih, freqBytes, freqBytes, List.flatMap_cons,
        List.length_append]
      rfl

theorem freqTotal_rows (winBase ddOff freqOff prxOff : Nat) (vs : List Window) :
    Format.FrqPrelude.freqTotal c.hasFreq (rows c winBase ddOff freqOff prxOff vs) =
      (freqBytes c.hasFreq vs).length := by
  unfold Format.FrqPrelude.freqTotal
  cases hc : c.hasFreq with
  | true => rw [if_pos rfl, sum_freqDiskLen, hc]
  | false => simp [freqBytes, Window.freqBytes]

end Snii.Writer.LogicalIndexWriter
