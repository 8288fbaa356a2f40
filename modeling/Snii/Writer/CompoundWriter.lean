import Snii.Format.ContainerEnds
import Snii.Format.TailMeta
import Snii.Writer.IndexBuild

/-!
# The container

`snii_compound_writer.cpp`: the indexes of a container one after the other, each with
its posting region and its dictionary, then the norms and the filters, the meta region
and the tail pointer.  Every offset is the size of the output at that moment.  A build
that fails leaves the posting bytes it had appended.
-/

namespace Snii.Writer.CompoundWriter

open Snii.Lib.ByteReader Snii.Common Snii.Encoding.Crc32c
open Snii.Format.ContainerEnds
open Snii.Format.PerIndexMeta (RegionRef SectionRefs)
open Snii.Format.TailMeta (MetaEntry finishRegion)
open Snii.Writer.LogicalIndexWriter

/-- Where the sections of an index are; a section that was not written is at `0`. -/
structure Placement where
  postOff : Nat := 0
  postLen : Nat := 0
  dictOff : Nat := 0
  dictLen : Nat := 0
  normsOff : Nat := 0
  normsLen : Nat := 0
  bsbfOff : Nat := 0
  bsbfLen : Nat := 0

/-- The writer: its output, its two flags, and the indexes with their places. -/
structure SniiCompoundWriter where
  out : Bytes := []
  bootstrapWritten : Bool := false
  finished : Bool := false
  indexes : List (BuiltIndex × Placement) := []

/-- The header, once. -/
def ensureBootstrap (c : SniiCompoundWriter) : SniiCompoundWriter :=
  if c.bootstrapWritten then c
  else { c with bootstrapWritten := true, out := c.out ++ containerHeader }

/-- An index to add, and the reporter's answers while it is built. -/
structure AddCall where
  overCap : Nat → Bool
  input : SniiIndexInput

/-- The environment of a build, with the reporter's answers of this call. -/
def AddCall.env (env : BuildEnv) (a : AddCall) : BuildEnv := { env with overCap := a.overCap }

/-- `add_logical_index`: posting region, then dictionary. -/
def addLogicalIndex (env : BuildEnv) (a : AddCall) (c : SniiCompoundWriter) :
    Result Unit × SniiCompoundWriter :=
  if c.finished then (.error (.internal "compound: add after finish"), c)
  else
    let c := ensureBootstrap c
    match build (a.env env) a.input [] with
    | .error e region => (.error e, { c with out := c.out ++ region })
    | .ok w region =>
        let dict := w.dictBuf.streamInto
        let p : Placement :=
          { postOff := c.out.length, postLen := region.length
            dictOff := c.out.length + region.length, dictLen := dict.length }
        (.ok (), { c with out := c.out ++ region ++ dict, indexes := c.indexes ++ [(w, p)] })

/-! ## Finishing -/

/-- One pass of `write_norms` over the indexes: a section of each that has one. -/
def writeSections (skip : BuiltIndex → Bool) (bytes : BuiltIndex → Bytes)
    (place : Placement → Nat → Nat → Placement) :
    Bytes → List (BuiltIndex × Placement) → Bytes × List (BuiltIndex × Placement)
  | out, [] => (out, [])
  | out, (w, p) :: rest =>
      if skip w then
        let (out', rest') := writeSections skip bytes place out rest
        (out', (w, p) :: rest')
      else
        let (out', rest') := writeSections skip bytes place (out ++ bytes w) rest
        (out', (w, place p out.length (bytes w).length) :: rest')

/-- The norms of every index that has them. -/
def writeNormsPods : Bytes → List (BuiltIndex × Placement) → Bytes × List (BuiltIndex × Placement) :=
  writeSections (fun w => !w.input.hasNorms || w.normsSection.isEmpty) BuiltIndex.normsSection
    fun p off len => { p with normsOff := off, normsLen := len }

/-- The filters. -/
def writeBsbfs : Bytes → List (BuiltIndex × Placement) → Bytes × List (BuiltIndex × Placement) :=
  writeSections (fun w => !w.hasBsbf) BuiltIndex.bsbfBytes
    fun p off len => { p with bsbfOff := off, bsbfLen := len }

/-- `write_norms`: the norms of all indexes, then their filters. -/
def writeNorms (out : Bytes) (indexes : List (BuiltIndex × Placement)) :
    Bytes × List (BuiltIndex × Placement) :=
  let (out, indexes) := writeNormsPods out indexes
  writeBsbfs out indexes

/-- The references of an index; there is no section for nulls. -/
def Placement.sectionRefs (p : Placement) : SectionRefs :=
  { dictRegion := ⟨p.dictOff, p.dictLen⟩, postingRegion := ⟨p.postOff, p.postLen⟩
    norms := ⟨p.normsOff, p.normsLen⟩, nullBitmap := ⟨0, 0⟩, bsbf := ⟨p.bsbfOff, p.bsbfLen⟩ }

/-- The metadata block of an index under its key. -/
def metaEntry (x : BuiltIndex × Placement) : MetaEntry :=
  { indexId := x.1.input.indexId, suffix := x.1.input.indexSuffix
    bytes := x.1.finishMeta x.2.sectionRefs x.2.dictOff }

/-- `write_tail`: the metadata region and the pointer to it. -/
def writeTail (out : Bytes) (indexes : List (BuiltIndex × Placement)) : Result Bytes := do
  let region := finishRegion (indexes.map metaEntry)
  let tail ← encodeTailPointer
    { metaRegionOffset := out.length, metaRegionLength := region.length, hotOff := 0
      metaRegionChecksum := crc32c region, bootstrapHeaderChecksum := 0 }
  .ok (out ++ region ++ tail)

/-- `finish`, which sets the flag whatever comes after. -/
def finish (c : SniiCompoundWriter) : Result Unit × SniiCompoundWriter :=
  if c.finished then (.error (.internal "compound: finish called twice"), c)
  else
    let c := ensureBootstrap { c with finished := true }
    let (out, indexes) := writeNorms c.out c.indexes
    match writeTail out indexes with
    | .error e => (.error e, { c with out := out, indexes := indexes })
    | .ok out => (.ok (), { c with out := out, indexes := indexes })

/-- The calls of a session, with what each returned. -/
def addAll (env : BuildEnv) :
    SniiCompoundWriter → List AddCall → List (Result Unit) × SniiCompoundWriter
  | c, [] => ([], c)
  | c, a :: rest =>
      let (status, c) := addLogicalIndex env a c
      let (statuses, c) := addAll env c rest
      (status :: statuses, c)

end Snii.Writer.CompoundWriter
