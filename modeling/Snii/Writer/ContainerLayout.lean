import Mathlib.Data.List.Perm.Basic
import Snii.Io.FileReader
import Snii.Lib.Aligned
import Snii.Writer.CompoundWriter
import Snii.Writer.IndexInvariant

/-!
# The layout of a container

A session appends a chunk for each call, also for one that fails; the calls that
succeed leave an index with its place.  `layout` computes these places from the
chunks, and `finish_layout` says what the finished file is: header, chunks, norms,
filters, meta region and tail pointer, with every section where its index says.
-/

namespace Snii.Writer.CompoundWriter

open Snii.Lib.ByteReader Snii.Lib.Aligned Snii.Common Snii.Io.FileReader Snii.Encoding.Crc32c
open Snii.Format.ContainerEnds
open Snii.Format.PerIndexMeta (RegionRef SectionRefs)
open Snii.Format.TailMeta (MetaEntry finishRegion)
open Snii.Writer.LogicalIndexWriter

/-! ## Ascending ranges -/

/-- Ranges one behind the other from `start` on, none beyond `stop`. -/
def Ascend : Nat → List RegionRef → Nat → Prop
  | start, [], stop => start ≤ stop
  | start, r :: rs, stop => start ≤ r.offset ∧ Ascend (r.offset + r.length) rs stop

/-- Rows of regions in a row. -/
theorem Ascend.append {start mid stop : Nat} {rs ss : List RegionRef} (h : Ascend start rs mid)
    (h' : Ascend mid ss stop) : Ascend start (rs ++ ss) stop := by
  induction rs generalizing start with
  | nil =>
      have hle : start ≤ mid := h
      cases ss with
      | nil => exact Nat.le_trans hle h'
      | cons s ss => exact ⟨Nat.le_trans hle h'.1, h'.2⟩
  | cons r rs ih => exact ⟨h.1, ih h.2⟩

theorem Ascend.le {start stop : Nat} {rs : List RegionRef} (h : Ascend start rs stop) :
    start ≤ stop := by
  induction rs generalizing start with
  | nil => exact h
  | cons r rs ih =>
      have := ih h.2
      have := h.1
      omega

/-- A region of a row is inside it. -/
theorem Ascend.bounds {start stop : Nat} {rs : List RegionRef} (h : Ascend start rs stop)
    {r : RegionRef} (hr : r ∈ rs) : start ≤ r.offset ∧ r.offset + r.length ≤ stop := by
  induction rs generalizing start with
  | nil => cases hr
  | cons s rs ih =>
      rcases List.mem_cons.mp hr with rfl | hr
      · exact ⟨h.1, h.2.le⟩
      · have := ih h.2 hr
        have := h.1
        omega

/-- Ranges in ascending order do not overlap. -/
theorem Ascend.pairwise {start stop : Nat} {rs : List RegionRef} (h : Ascend start rs stop) :
    rs.Pairwise fun r s => r.offset + r.length ≤ s.offset := by
  induction rs generalizing start with
  | nil => exact .nil
  | cons r rs ih => exact .cons (fun s hs => (h.2.bounds hs).1) (ih h.2)

theorem Ascend.filter {start stop : Nat} {rs : List RegionRef} (h : Ascend start rs stop)
    (p : RegionRef → Bool) : Ascend start (rs.filter p) stop := by
  induction rs generalizing start with
  | nil => exact h
  | cons r rs ih =>
      have hrest := ih h.2
      rw [List.filter_cons]
      split
      · exact ⟨h.1, hrest⟩
      · have hle := h.1
        cases hfilter : rs.filter p with
        | nil =>
            have := (hfilter ▸ hrest : Ascend _ [] stop).le
            exact (show start ≤ stop by omega)
        | cons s ss =>
            rw [hfilter] at hrest
            have hs := hrest.1
            exact ⟨by omega, hrest.2⟩

/-! ## The calls of a session -/

variable {env : BuildEnv}

/-- What a call appends to the output. -/
def chunk (env : BuildEnv) (a : AddCall) : Bytes :=
  match build (a.env env) a.input [] with
  | .error _ region => region
  | .ok w region => region ++ w.dictBuf.streamInto

/-- What an add returns. -/
def statusOf (env : BuildEnv) (a : AddCall) : Result Unit :=
  match build (a.env env) a.input [] with
  | .error e _ => .error e
  | .ok _ _ => .ok ()

/-- The place of an index whose regions start at `off`. -/
def placeAt (off : Nat) (w : BuiltIndex) (region : Bytes) : Placement :=
  { postOff := off, postLen := region.length, dictOff := off + region.length
    dictLen := w.dictBuf.streamInto.length }

/-- The indexes of a session with their places; the output had `off` bytes before. -/
def layout (env : BuildEnv) : Nat → List AddCall → List (BuiltIndex × Placement)
  | _, [] => []
  | off, a :: rest =>
      let later := layout env (off + (chunk env a).length) rest
      match build (a.env env) a.input [] with
      | .error _ _ => later
      | .ok w region => (w, placeAt off w region) :: later

/-- The bootstrap header is written once. -/
theorem ensureBootstrap_of_written {c : SniiCompoundWriter} (hb : c.bootstrapWritten = true) :
    ensureBootstrap c = c := if_pos hb

theorem ensureBootstrap_flags (c : SniiCompoundWriter) :
    (ensureBootstrap c).bootstrapWritten = true ∧ (ensureBootstrap c).finished = c.finished := by
  unfold ensureBootstrap
  split
  · exact ⟨‹_›, rfl⟩
  · exact ⟨rfl, rfl⟩

/-- **An add** behind the header: its regions are appended and recorded. -/
theorem addLogicalIndex_started {a : AddCall} {c : SniiCompoundWriter}
    (hb : c.bootstrapWritten = true) (hf : c.finished = false) :
    addLogicalIndex env a c = (statusOf env a,
      { c with out := c.out ++ chunk env a
               indexes := c.indexes ++ layout env c.out.length [a] }) := by
  rw [addLogicalIndex, if_neg (by simp [hf]), ensureBootstrap_of_written hb, statusOf, chunk]
  simp only [layout]
  cases build (a.env env) a.input [] with
  | error e region => simp
  | ok w region => simp [placeAt]

theorem layout_cons (off : Nat) (a : AddCall) (rest : List AddCall) :
    layout env off (a :: rest) = layout env off [a] ++
      layout env (off + (chunk env a).length) rest := by
  simp only [layout]
  cases build (a.env env) a.input [] <;> simp

/-- **The adds** behind the header, one after the other. -/
theorem addAll_started (adds : List AddCall) {c : SniiCompoundWriter}
    (hb : c.bootstrapWritten = true) (hf : c.finished = false) :
    addAll env c adds = (adds.map (statusOf env),
      { c with out := c.out ++ adds.flatMap (chunk env)
               indexes := c.indexes ++ layout env c.out.length adds }) := by
  induction adds generalizing c with
  | nil => simp [addAll, layout]
  | cons a adds ih =>
      rw [addAll, addLogicalIndex_started hb hf]
      simp only
      rw [@ih { c with out := c.out ++ chunk env a
                       indexes := c.indexes ++ layout env c.out.length [a] } hb hf]
      simp only [List.length_append, List.flatMap_cons, List.map_cons, List.append_assoc,
        ← layout_cons]

/-- The first add that gets so far writes the header. -/
theorem addAll_bootstrap (adds : List AddCall) {c : SniiCompoundWriter} (hf : c.finished = false) :
    (addAll env c adds).1 = (addAll env (ensureBootstrap c) adds).1 ∧
      ensureBootstrap (addAll env c adds).2 = (addAll env (ensureBootstrap c) adds).2 := by
  obtain ⟨hstarted, hsame⟩ := ensureBootstrap_flags c
  have htwice := ensureBootstrap_of_written hstarted
  have hopen := hsame.trans hf
  cases adds with
  | nil => exact ⟨rfl, rfl⟩
  | cons a adds =>
      have hfirst : addLogicalIndex env a c = addLogicalIndex env a (ensureBootstrap c) := by
        rw [addLogicalIndex, addLogicalIndex, htwice, if_neg (by simp [hf]), if_neg (by simp [hopen])]
      have hall : addAll env c (a :: adds) = addAll env (ensureBootstrap c) (a :: adds) := by
        rw [addAll, addAll, hfirst]
      rw [hall]
      refine ⟨rfl, ?_⟩
      rw [addAll_started _ hstarted hopen]
      exact ensureBootstrap_of_written hstarted

/-- **The calls**: their statuses, and the output and the indexes they leave behind the
header. -/
theorem addAll_eq (adds : List AddCall) :
    (addAll env {} adds).1 = adds.map (statusOf env) ∧
      ensureBootstrap (addAll env {} adds).2 =
        { out := containerHeader ++ adds.flatMap (chunk env), bootstrapWritten := true
          indexes := layout env containerHeader.length adds } := by
  obtain ⟨hstatus, hstate⟩ := @addAll_bootstrap env adds {} rfl
  rw [hstatus, hstate]
  have hstart : ensureBootstrap {} = { out := containerHeader, bootstrapWritten := true } := rfl
  rw [hstart, addAll_started adds rfl rfl]
  exact ⟨rfl, rfl⟩

/-- No add finishes the container. -/
theorem addAll_finished (adds : List AddCall) {c : SniiCompoundWriter} (hf : c.finished = false) :
    (addAll env c adds).2.finished = false := by
  induction adds generalizing c with
  | nil => exact hf
  | cons a adds ih =>
      rw [addAll]
      apply ih
      rw [addLogicalIndex, if_neg (by simp [hf])]
      have hopen := (ensureBootstrap_flags c).2.trans hf
      cases build (a.env env) a.input [] <;> exact hopen

/-! ## The places of the regions -/

/-- The index of a call that succeeds, with its posting region. -/
def builtOf (env : BuildEnv) (a : AddCall) : Option (BuiltIndex × Bytes) :=
  match build (a.env env) a.input [] with
  | .error _ _ => none
  | .ok w region => some (w, region)

/-- The regions of an index are in the file where its place says. -/
structure RegionsAt (file : Bytes) (w : BuiltIndex) (region : Bytes) (p : Placement) : Prop where
  post : At file p.postOff region
  postLen : p.postLen = region.length
  dict : At file p.dictOff w.dictBuf.streamInto
  dictLen : p.dictLen = w.dictBuf.streamInto.length
  noNorms : p.normsOff = 0 ∧ p.normsLen = 0
  noBsbf : p.bsbfOff = 0 ∧ p.bsbfLen = 0

/-- The regions are where the placement says. -/
theorem regionsAt_placeAt (out : Bytes) (w : BuiltIndex) (region : Bytes) :
    RegionsAt (out ++ (region ++ w.dictBuf.streamInto)) w region (placeAt out.length w region) where
  post := ⟨out, w.dictBuf.streamInto, rfl, rfl⟩
  postLen := rfl
  dict := ⟨out ++ region, [], by simp, by simp [placeAt]⟩
  dictLen := rfl
  noNorms := ⟨rfl, rfl⟩
  noBsbf := ⟨rfl, rfl⟩

/-- More bytes behind them change nothing. -/
theorem RegionsAt.extend {file region : Bytes} {w : BuiltIndex} {p : Placement}
    (h : RegionsAt file w region p) (more : Bytes) : RegionsAt (file ++ more) w region p :=
  ⟨h.post.extend more, h.postLen, h.dict.extend more, h.dictLen, h.noNorms, h.noBsbf⟩

/-- Every added index has its regions in the file. -/
theorem layout_regionsAt (out : Bytes) (adds : List AddCall) :
    List.Forall₂ (fun (x : BuiltIndex × Bytes) y =>
        y.1 = x.1 ∧ RegionsAt (out ++ adds.flatMap (chunk env)) x.1 x.2 y.2)
      (adds.filterMap (builtOf env)) (layout env out.length adds) := by
  induction adds generalizing out with
  | nil => exact .nil
  | cons a adds ih =>
      have hrest := ih (out ++ chunk env a)
      rw [List.length_append, List.append_assoc] at hrest
      rw [List.flatMap_cons]
      cases hbuild : build (a.env env) a.input [] with
      | error e region =>
          simp only [layout, hbuild]
          rw [List.filterMap_cons_none (by rw [builtOf, hbuild])]
          exact hrest
      | ok w region =>
          have hchunk : chunk env a = region ++ w.dictBuf.streamInto := by rw [chunk, hbuild]
          have hplaced := (regionsAt_placeAt out w region).extend (adds.flatMap (chunk env))
          rw [← hchunk, List.append_assoc] at hplaced
          simp only [layout, hbuild]
          rw [List.filterMap_cons_some (by rw [builtOf, hbuild])]
          exact .cons ⟨rfl, hplaced⟩ hrest

/-- Posting region and dictionary. -/
def Placement.regions (p : Placement) : List RegionRef :=
  [p.sectionRefs.postingRegion, p.sectionRefs.dictRegion]

/-- The regions of the adds do not overlap. -/
theorem layout_ascend (off : Nat) (adds : List AddCall) :
    Ascend off ((layout env off adds).flatMap fun x => x.2.regions)
      (off + (adds.flatMap (chunk env)).length) := by
  induction adds generalizing off with
  | nil => exact Nat.le_refl _
  | cons a adds ih =>
      have hrest := ih (off + (chunk env a).length)
      rw [Nat.add_assoc, ← List.length_append] at hrest
      rw [List.flatMap_cons]
      cases hbuild : build (a.env env) a.input [] with
      | error e region =>
          simp only [layout, hbuild]
          exact @Ascend.append off _ _ [] _ (Nat.le_add_right _ _) hrest
      | ok w region =>
          simp only [layout, hbuild]
          rw [List.flatMap_cons]
          refine Ascend.append ⟨Nat.le_refl _, Nat.le_refl _, ?_⟩ hrest
          show off + region.length + w.dictBuf.streamInto.length ≤ _
          rw [chunk, hbuild, List.length_append, Nat.add_assoc]

/-! ## The sections behind the regions -/

section Sections

variable {skip : BuiltIndex → Bool} {bytes : BuiltIndex → Bytes}
  {place : Placement → Nat → Nat → Placement}

/-- What a pass did with one index. -/
inductive SectionPlaced (skip : BuiltIndex → Bool) (bytes : BuiltIndex → Bytes)
    (place : Placement → Nat → Nat → Placement) (file : Bytes) :
    BuiltIndex × Placement → BuiltIndex × Placement → Prop
  | skipped (w : BuiltIndex) (p : Placement) (h : skip w = true) :
      SectionPlaced skip bytes place file (w, p) (w, p)
  | written (w : BuiltIndex) (p : Placement) (off : Nat) (h : skip w = false)
      (here : At file off (bytes w)) :
      SectionPlaced skip bytes place file (w, p) (w, place p off (bytes w).length)

theorem SectionPlaced.extend {file : Bytes} {x y : BuiltIndex × Placement}
    (h : SectionPlaced skip bytes place file x y) (more : Bytes) :
    SectionPlaced skip bytes place (file ++ more) x y := by
  cases h with
  | skipped w p h => exact .skipped w p h
  | written w p off h here => exact .written w p off h (here.extend more)

/-- The bytes that a pass appends for one index. -/
def sectionOf (skip : BuiltIndex → Bool) (bytes : BuiltIndex → Bytes) (w : BuiltIndex) : Bytes :=
  if skip w then [] else bytes w

/-- **One pass over the indexes** appends their sections and records where. -/
theorem writeSections_spec (out : Bytes) (xs : List (BuiltIndex × Placement)) :
    (writeSections skip bytes place out xs).1 =
        out ++ (xs.map Prod.fst).flatMap (sectionOf skip bytes) ∧
      List.Forall₂ (SectionPlaced skip bytes place
        (out ++ (xs.map Prod.fst).flatMap (sectionOf skip bytes))) xs
        (writeSections skip bytes place out xs).2 := by
  induction xs generalizing out with
  | nil => exact ⟨by simp [writeSections], .nil⟩
  | cons x xs ih =>
      obtain ⟨w, p⟩ := x
      rw [List.map_cons, List.flatMap_cons]
      cases hskip : skip w with
      | true =>
          obtain ⟨hout, hplaced⟩ := ih out
          simp only [writeSections, hskip, if_true, sectionOf, List.nil_append]
          exact ⟨hout, .cons (.skipped w p hskip) hplaced⟩
      | false =>
          obtain ⟨hout, hplaced⟩ := ih (out ++ bytes w)
          simp only [writeSections, hskip, Bool.false_eq_true, if_false, sectionOf]
          rw [List.append_assoc] at hout hplaced
          refine ⟨hout, .cons (.written w p out.length hskip ?_) hplaced⟩
          exact ⟨out, _, rfl, rfl⟩

/-- The sections of a pass follow each other. -/
theorem writeSections_ascend {ref : Placement → RegionRef}
    (href : ∀ p off len, ref (place p off len) = ⟨off, len⟩) (out : Bytes)
    (xs : List (BuiltIndex × Placement)) :
    Ascend out.length (((writeSections skip bytes place out xs).2.filter fun x => !skip x.1).map
        fun x => ref x.2) (writeSections skip bytes place out xs).1.length := by
  induction xs generalizing out with
  | nil => exact Nat.le_refl _
  | cons x xs ih =>
      obtain ⟨w, p⟩ := x
      cases hskip : skip w with
      | true =>
          simp only [writeSections, hskip, if_true]
          rw [List.filter_cons_of_neg (by simp [hskip])]
          exact ih out
      | false =>
          have hrest := ih (out ++ bytes w)
          rw [List.length_append] at hrest
          simp only [writeSections, hskip, Bool.false_eq_true, if_false]
          rw [List.filter_cons_of_pos (by simp [hskip]), List.map_cons, href]
          exact ⟨Nat.le_refl _, hrest⟩

end Sections

/-! ## The finished file -/

/-- The indexes without norms. -/
def skipNorms (w : BuiltIndex) : Bool := !w.input.hasNorms || w.normsSection.isEmpty

/-- The indexes without a filter. -/
def skipBsbf (w : BuiltIndex) : Bool := !w.hasBsbf

/-- All sections of an index are in the file where its place says. -/
structure PlacedAt (file : Bytes) (w : BuiltIndex) (region : Bytes) (p : Placement) : Prop where
  post : At file p.postOff region
  postLen : p.postLen = region.length
  dict : At file p.dictOff w.dictBuf.streamInto
  dictLen : p.dictLen = w.dictBuf.streamInto.length
  normsLen : p.normsLen = (sectionOf skipNorms BuiltIndex.normsSection w).length
  norms : 0 < p.normsLen → At file p.normsOff w.normsSection
  bsbfLen : p.bsbfLen = w.bsbfBytes.length
  bsbf : 0 < p.bsbfLen → At file p.bsbfOff w.bsbfBytes
  offs : p.normsOff ≤ file.length ∧ p.bsbfOff ≤ file.length

/-- More bytes behind an index change nothing. -/
theorem PlacedAt.extend {file region : Bytes} {w : BuiltIndex} {p : Placement}
    (h : PlacedAt file w region p) (more : Bytes) : PlacedAt (file ++ more) w region p :=
  ⟨h.post.extend more, h.postLen, h.dict.extend more, h.dictLen, h.normsLen,
    fun hn => (h.norms hn).extend more, h.bsbfLen, fun hb => (h.bsbf hb).extend more, by
      have := h.offs
      rw [List.length_append]
      omega⟩

theorem sectionOf_bsbf (w : BuiltIndex) : sectionOf skipBsbf BuiltIndex.bsbfBytes w = w.bsbfBytes := by
  unfold sectionOf skipBsbf BuiltIndex.hasBsbf
  cases hb : w.bsbfBytes <;> simp

/-- The two passes complete the place of an index. -/
theorem placedAt_of_passes {file region : Bytes} {w : BuiltIndex} {x y z : BuiltIndex × Placement}
    (hx : x.1 = w) (hregions : RegionsAt file w region x.2)
    (hnorms : SectionPlaced skipNorms BuiltIndex.normsSection
      (fun p off len => { p with normsOff := off, normsLen := len }) file x y)
    (hbsbf : SectionPlaced skipBsbf BuiltIndex.bsbfBytes
      (fun p off len => { p with bsbfOff := off, bsbfLen := len }) file y z) :
    z.1 = w ∧ PlacedAt file w region z.2 := by
  subst hx
  have hempty : ∀ w, skipBsbf w = true → w.bsbfBytes = [] := by
    intro w h
    rw [← sectionOf_bsbf, sectionOf, if_pos h]
  have hle : ∀ off data, At file off data → off ≤ file.length := by
    intro off data hat
    have := hat.bound
    omega
  cases hnorms with
  | skipped w p hs =>
      have hlen : 0 = (sectionOf skipNorms BuiltIndex.normsSection w).length := by
        rw [sectionOf, if_pos hs]
        rfl
      have hoff : p.normsOff ≤ file.length := hregions.noNorms.1 ▸ Nat.zero_le _
      have hnone : 0 < p.normsLen → At file p.normsOff w.normsSection := fun h =>
        absurd hregions.noNorms.2 (Nat.ne_of_gt h)
      cases hbsbf with
      | skipped _ _ hs' =>
          refine ⟨rfl, hregions.post, hregions.postLen, hregions.dict, hregions.dictLen,
            hregions.noNorms.2.trans hlen, hnone, ?_, ?_, hoff, ?_⟩
          · rw [hempty w hs']
            exact hregions.noBsbf.2
          · exact fun h => absurd hregions.noBsbf.2 (Nat.ne_of_gt h)
          · exact hregions.noBsbf.1 ▸ Nat.zero_le _
      | written _ _ off hs' here =>
          exact ⟨rfl, hregions.post, hregions.postLen, hregions.dict, hregions.dictLen,
            hregions.noNorms.2.trans hlen, hnone, rfl, fun _ => here, hoff, hle _ _ here⟩
  | written w p off hs here =>
      have hlen : w.normsSection.length = (sectionOf skipNorms BuiltIndex.normsSection w).length := by
        rw [sectionOf, if_neg (by simp [hs])]
      cases hbsbf with
      | skipped _ _ hs' =>
          refine ⟨rfl, hregions.post, hregions.postLen, hregions.dict, hregions.dictLen, hlen,
            fun _ => here, ?_, ?_, hle _ _ here, ?_⟩
          · rw [hempty w hs']
            exact hregions.noBsbf.2
          · exact fun h => absurd hregions.noBsbf.2 (Nat.ne_of_gt h)
          · exact hregions.noBsbf.1.trans_le (Nat.zero_le _)
      | written _ _ off' hs' here' =>
          exact ⟨rfl, hregions.post, hregions.postLen, hregions.dict, hregions.dictLen, hlen,
            fun _ => here, rfl, fun _ => here', hle _ _ here, hle _ _ here'⟩

/-- A section that was written. -/
def nonEmpty (r : RegionRef) : Bool := decide (0 < r.length)

/-- The non-empty sections of an index. -/
def Placement.sections (p : Placement) : List RegionRef :=
  [p.sectionRefs.postingRegion, p.sectionRefs.dictRegion, p.sectionRefs.norms,
    p.sectionRefs.bsbf].filter nonEmpty

/-- What a finished session left. -/
structure Container (env : BuildEnv) (adds : List AddCall) (file : Bytes)
    (indexes : List (BuiltIndex × Placement)) : Prop where
  placed : List.Forall₂ (fun (x : BuiltIndex × Bytes) y => y.1 = x.1 ∧ PlacedAt file x.1 x.2 y.2)
    (adds.filterMap (builtOf env)) indexes
  parts : ∃ body tail, body = containerHeader ++ adds.flatMap (chunk env) ++
      (indexes.map Prod.fst).flatMap (sectionOf skipNorms BuiltIndex.normsSection) ++
      (indexes.map Prod.fst).flatMap BuiltIndex.bsbfBytes ∧
    file = body ++ finishRegion (indexes.map metaEntry) ++ tail ∧
    encodeTailPointer
      { metaRegionOffset := body.length
        metaRegionLength := (finishRegion (indexes.map metaEntry)).length, hotOff := 0
        metaRegionChecksum := crc32c (finishRegion (indexes.map metaEntry))
        bootstrapHeaderChecksum := 0 } = .ok tail ∧
    ∃ ranges, ranges.Perm (indexes.flatMap fun x => x.2.sections) ∧
      Ascend kBootstrapHeaderSize ranges body.length

/-- The sections that a pass wrote are the non-empty ones. -/
private theorem filter_sections {skip : BuiltIndex → Bool} {ref : Placement → RegionRef}
    {xs : List (BuiltIndex × Placement)}
    (h : ∀ x ∈ xs, (!skip x.1) = nonEmpty (ref x.2)) :
    (xs.filter fun x => !skip x.1).map (fun x => ref x.2) =
      (xs.map fun x => ref x.2).filter nonEmpty := by
  rw [List.filter_map]
  congr 1
  exact List.filter_congr h

/-- The sections of all indexes, region by region. -/
private theorem sections_perm (xs : List (BuiltIndex × Placement)) :
    ((xs.flatMap fun x => x.2.regions).filter nonEmpty ++
      ((xs.map fun x => x.2.sectionRefs.norms).filter nonEmpty ++
        (xs.map fun x => x.2.sectionRefs.bsbf).filter nonEmpty)).Perm
      (xs.flatMap fun x => x.2.sections) := by
  rw [← List.filter_append, ← List.filter_append]
  have hsplit : (xs.flatMap fun x => x.2.sections) = (xs.flatMap fun x => x.2.regions ++
      ([x.2.sectionRefs.norms] ++ [x.2.sectionRefs.bsbf])).filter nonEmpty := by
    rw [List.filter_flatMap]
    rfl
  rw [hsplit]
  apply List.Perm.filter
  refine List.Perm.trans ?_ (List.flatMap_append_perm _ _ _)
  apply List.Perm.append_left
  refine List.Perm.trans ?_ (List.flatMap_append_perm _ _ _)
  rw [List.map_eq_flatMap, List.map_eq_flatMap]

/-- Norms are left out exactly where their region is empty. -/
theorem skipNorms_eq {file region : Bytes} {x : BuiltIndex × Placement}
    (h : PlacedAt file x.1 region x.2) : (!skipNorms x.1) = nonEmpty x.2.sectionRefs.norms := by
  show _ = decide (0 < x.2.normsLen)
  rw [h.normsLen, sectionOf]
  cases hs : skipNorms x.1 with
  | true => rfl
  | false =>
      have hne : x.1.normsSection ≠ [] := by
        rw [skipNorms, Bool.or_eq_false_iff] at hs
        simpa using hs.2
      simpa using List.length_pos_iff.mpr hne

theorem skipBsbf_eq {file region : Bytes} {x : BuiltIndex × Placement}
    (h : PlacedAt file x.1 region x.2) : (!skipBsbf x.1) = nonEmpty x.2.sectionRefs.bsbf := by
  show _ = decide (0 < x.2.bsbfLen)
  rw [h.bsbfLen, skipBsbf, BuiltIndex.hasBsbf]
  cases x.1.bsbfBytes <;> simp

/-- Where the norms are. -/
def placeNorms (p : Placement) (off len : Nat) : Placement :=
  { p with normsOff := off, normsLen := len }

/-- Where the filter is. -/
def placeBsbf (p : Placement) (off len : Nat) : Placement := { p with bsbfOff := off, bsbfLen := len }

/-- `write_norms` is two passes. -/
theorem writeNorms_eq (base : Bytes) (places : List (BuiltIndex × Placement)) :
    writeNorms base places = writeSections skipBsbf BuiltIndex.bsbfBytes placeBsbf
      (writeSections skipNorms BuiltIndex.normsSection placeNorms base places).1
      (writeSections skipNorms BuiltIndex.normsSection placeNorms base places).2 := rfl

/-- The two passes of `write_norms` over the indexes of a session. -/
theorem writeNorms_spec {base : Bytes} {places : List (BuiltIndex × Placement)}
    {built : List (BuiltIndex × Bytes)}
    (hregions : List.Forall₂ (fun (x : BuiltIndex × Bytes) y =>
      y.1 = x.1 ∧ RegionsAt base x.1 x.2 y.2) built places) {start : Nat}
    (hascend : Ascend start (places.flatMap fun x => x.2.regions) base.length)
    {out : Bytes} {indexes : List (BuiltIndex × Placement)}
    (hrun : writeNorms base places = (out, indexes)) :
    out = base ++ (indexes.map Prod.fst).flatMap (sectionOf skipNorms BuiltIndex.normsSection) ++
        (indexes.map Prod.fst).flatMap BuiltIndex.bsbfBytes ∧
      List.Forall₂ (fun (x : BuiltIndex × Bytes) y => y.1 = x.1 ∧ PlacedAt out x.1 x.2 y.2) built
        indexes ∧
      ∃ ranges, ranges.Perm (indexes.flatMap fun x => x.2.sections) ∧
        Ascend start ranges out.length := by
  obtain ⟨hout1, hmid⟩ := @writeSections_spec skipNorms BuiltIndex.normsSection placeNorms base places
  have hascend1 := @writeSections_ascend skipNorms BuiltIndex.normsSection placeNorms
    (fun p => p.sectionRefs.norms) (fun p off len => rfl) base places
  rw [writeNorms_eq] at hrun
  generalize writeSections skipNorms BuiltIndex.normsSection placeNorms base places = r1 at *
  obtain ⟨out1, mid⟩ := r1
  simp only at hout1 hmid hascend1 hrun
  obtain ⟨hout2, hlast⟩ := @writeSections_spec skipBsbf BuiltIndex.bsbfBytes placeBsbf out1 mid
  have hascend2 := @writeSections_ascend skipBsbf BuiltIndex.bsbfBytes placeBsbf
    (fun p => p.sectionRefs.bsbf) (fun p off len => rfl) out1 mid
  rw [hrun] at hout2 hlast hascend2
  simp only at hout2 hlast hascend2
  rw [← hout1] at hmid
  rw [← hout2] at hlast
  -- neither pass changes an index, nor the places that the other one sets
  have hfst1 : places.map Prod.fst = mid.map Prod.fst :=
    map_eq_of_forall₂ (fun a b h => by cases h <;> rfl) hmid
  have hfst2 : mid.map Prod.fst = indexes.map Prod.fst :=
    map_eq_of_forall₂ (fun a b h => by cases h <;> rfl) hlast
  have hregions1 : places.map (fun x => x.2.regions) = mid.map (fun x => x.2.regions) :=
    map_eq_of_forall₂ (fun a b h => by cases h <;> rfl) hmid
  have hregions2 : mid.map (fun x => x.2.regions) = indexes.map (fun x => x.2.regions) :=
    map_eq_of_forall₂ (fun a b h => by cases h <;> rfl) hlast
  have hnorms2 : mid.map (fun x => (x.1, x.2.sectionRefs.norms)) =
      indexes.map (fun x => (x.1, x.2.sectionRefs.norms)) :=
    map_eq_of_forall₂ (fun a b h => by cases h <;> rfl) hlast
  have hbytes : out = base ++ ((indexes.map Prod.fst).flatMap
      (sectionOf skipNorms BuiltIndex.normsSection) ++
      (indexes.map Prod.fst).flatMap BuiltIndex.bsbfBytes) := by
    rw [hout2, hout1, hfst1, hfst2, List.append_assoc]
    congr 3
    funext w
    exact sectionOf_bsbf w
  have hplaced : List.Forall₂ (fun (x : BuiltIndex × Bytes) y =>
      y.1 = x.1 ∧ PlacedAt out x.1 x.2 y.2) built indexes := by
    refine forall₂_chain ?_ (forall₂_chain (T := fun x y => ∃ z : BuiltIndex × Placement,
      z.1 = x.1 ∧ RegionsAt out x.1 x.2 z.2 ∧ SectionPlaced skipNorms BuiltIndex.normsSection
        placeNorms out z y) ?_ hregions hmid) hlast
    · rintro x y z ⟨z', hz', hat, hn⟩ hb
      exact placedAt_of_passes hz' hat hn hb
    · rintro x y z ⟨hx, hat⟩ hn
      refine ⟨y, hx, ?_, ?_⟩
      · rw [hbytes]
        exact hat.extend _
      · rw [hout2]
        exact hn.extend _
  have heach : ∀ x ∈ indexes, ∃ region, PlacedAt out x.1 region x.2 := by
    intro x hx
    obtain ⟨b, _, hb, hat⟩ := exists_left_of_mem hplaced hx
    exact ⟨b.2, hb ▸ hat⟩
  have hregionsEq : (places.flatMap fun x => x.2.regions) = indexes.flatMap fun x => x.2.regions := by
    rw [List.flatMap_def, List.flatMap_def, hregions1, hregions2]
  have hnormsEq : ((mid.filter fun x => !skipNorms x.1).map fun x => x.2.sectionRefs.norms) =
      (indexes.map fun x => x.2.sectionRefs.norms).filter nonEmpty := by
    have hall := congrArg (fun qs : List (BuiltIndex × RegionRef) =>
      (qs.filter fun q => !skipNorms q.1).map Prod.snd) hnorms2
    simp only [List.filter_map, List.map_map] at hall
    refine Eq.trans hall (@filter_sections skipNorms (fun p => p.sectionRefs.norms) indexes
      fun x hx => ?_)
    obtain ⟨region, hat⟩ := heach x hx
    exact skipNorms_eq hat
  have hbsbfEq : ((indexes.filter fun x => !skipBsbf x.1).map fun x => x.2.sectionRefs.bsbf) =
      (indexes.map fun x => x.2.sectionRefs.bsbf).filter nonEmpty := by
    refine @filter_sections skipBsbf (fun p => p.sectionRefs.bsbf) indexes fun x hx => ?_
    obtain ⟨region, hat⟩ := heach x hx
    exact skipBsbf_eq hat
  refine ⟨by rw [hbytes, List.append_assoc], hplaced, _, sections_perm indexes, ?_⟩
  rw [hregionsEq] at hascend
  rw [hnormsEq] at hascend1
  rw [hbsbfEq] at hascend2
  exact (hascend.filter nonEmpty).append (hascend1.append hascend2)

/-- **Finishing** a session succeeds, and leaves its container. -/
theorem finish_container (adds : List AddCall) :
    (finish (addAll env {} adds).2).1 = .ok () ∧
      Container env adds (finish (addAll env {} adds).2).2.out
        (finish (addAll env {} adds).2).2.indexes := by
  have hopen := @addAll_finished env adds {} rfl
  have hstate := (@addAll_eq env adds).2
  have hboot : ensureBootstrap { (addAll env {} adds).2 with finished := true } =
      { ensureBootstrap (addAll env {} adds).2 with finished := true } := by
    unfold ensureBootstrap
    simp only
    split <;> rfl
  have hascend := @layout_ascend env containerHeader.length adds
  rw [← List.length_append, length_containerHeader] at hascend
  have hregions := @layout_regionsAt env containerHeader adds
  rw [length_containerHeader] at hregions
  rw [finish, if_neg (by simp [hopen]), hboot, hstate, length_containerHeader]
  simp only
  cases hrun : writeNorms (containerHeader ++ adds.flatMap (chunk env))
      (layout env kBootstrapHeaderSize adds) with
  | mk out indexes =>
      obtain ⟨hout, hplaced, hranges⟩ := writeNorms_spec hregions hascend hrun
      simp only [writeTail, encodeTailPointer_eq, ok_bind]
      refine ⟨trivial, ?_, out, _, hout, rfl, encodeTailPointer_eq _, hranges⟩
      refine hplaced.imp fun x y hat => ⟨hat.1, ?_⟩
      rw [List.append_assoc]
      exact hat.2.extend _

end Snii.Writer.CompoundWriter
