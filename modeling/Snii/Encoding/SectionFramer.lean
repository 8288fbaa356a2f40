import Snii.Encoding.ByteSource
import Snii.Encoding.Crc32c

/-!
# Framed sections

`section_framer.cpp`: a section is its type, the length of its payload, the
payload and a checksum over all three.
-/

namespace Snii.Encoding.SectionFramer

open Snii.Lib.ByteReader Snii.Common
open Snii.Encoding.ByteSource Snii.Encoding.Crc32c

inductive SectionType where
  | statsBlock
  | sampledTermIndex
  | dictBlockDirectory
  | xFilter
  | sectionRefs
  | perIndexMetaHeader
  | logicalIndexDirectory
  | tailMetaHeader
  | featureBits
deriving DecidableEq

/-- The type's byte in a frame. -/
def SectionType.code : SectionType → Nat
  | .statsBlock => 1
  | .sampledTermIndex => 2
  | .dictBlockDirectory => 3
  | .xFilter => 4
  | .sectionRefs => 5
  | .perIndexMetaHeader => 6
  | .logicalIndexDirectory => 7
  | .tailMetaHeader => 8
  | .featureBits => 9

theorem SectionType.code_lt (t : SectionType) : t.code < 256 := by
  cases t <;> decide

def frameBody (type : Nat) (payload : Bytes) : Bytes :=
  putU8 type ++ putVarint64 payload.length ++ payload

def writeSection (type : Nat) (payload : Bytes) : Bytes :=
  frameBody type payload ++ putFixed32 (crc32c (frameBody type payload))

theorem length_payload_le (type : Nat) (payload : Bytes) :
    payload.length ≤ (writeSection type payload).length := by
  rw [writeSection, frameBody]
  simp only [List.length_append]
  omega

theorem length_writeSection_le (type : Nat) (payload : Bytes) :
    (writeSection type payload).length ≤ payload.length + 15 := by
  have hlen := length_putVarint64_le payload.length
  simp only [writeSection, frameBody, List.length_append, length_putU8, length_putFixed32]
  omega

structure FramedSection where
  type : Nat
  payload : Bytes
deriving DecidableEq

def readFrameBody : Source FramedSection := do
  let type ← getU8
  let len ← getVarint64
  let payload ← getBytes len
  pure { type := type, payload := payload }

def readSection : Source FramedSection := do
  let (sec, framed) ← consumed readFrameBody
  let stored ← getFixed32
  if crc32c framed ≠ stored then throw (.corruption "section crc mismatch")
  else pure sec

theorem reads_section {type : Nat} {payload : Bytes} (ht : type < 256)
    (hp : payload.length < 2 ^ 64) :
    Reads readSection (writeSection type payload) { type := type, payload := payload } := by
  have hbody : Reads readFrameBody (frameBody type payload)
      { type := type, payload := payload } := by
    rw [frameBody, List.append_assoc]
    exact (reads_getU8 ht).bind ((reads_getVarint64 hp).bind
      ((reads_getBytes payload).bind_nil (Reads.pure _)))
  exact hbody.consumed.bind ((reads_getFixed32 (crc32c_lt _)).bind_nil
    (Reads.if_neg (by simp) (Reads.pure _)))

/-- A section of one type, and nothing behind its payload. -/
def openSection {α : Type} (type : SectionType) (wrongType : Status) (parse : Bytes → Result α)
    (section_ : Bytes) : Result α := do
  let (sec, _) ← readSection.run section_
  if sec.type ≠ type.code then .error wrongType else parse sec.payload

theorem openSection_write {α : Type} {type : SectionType} {wrongType : Status}
    {parse : Bytes → Result α} {payload : Bytes} {x : α} (hp : payload.length < 2 ^ 64)
    (h : parse payload = .ok x) :
    openSection type wrongType parse (writeSection type.code payload) = .ok x := by
  have hread := reads_section type.code_lt hp []
  rw [List.append_nil] at hread
  rw [openSection, hread, ok_bind]
  simp only [ne_eq, not_true_eq_false, if_false]
  exact h

/-! ## Frames -/

/-- The bytes of a frame, whichever way its length is written. -/
inductive Frame (sec : FramedSection) : Bytes → Prop where
  | mk {type len crc : Bytes} : Reads getU8 type sec.type →
      Reads getVarint64 len sec.payload.length →
      Reads getFixed32 crc (crc32c (type ++ (len ++ sec.payload))) →
      Frame sec (type ++ (len ++ sec.payload) ++ crc)

theorem frame_writeSection {type : Nat} {payload : Bytes} (ht : type < 256)
    (hp : payload.length < 2 ^ 64) :
    Frame { type := type, payload := payload } (writeSection type payload) := by
  have hframe : Frame { type := type, payload := payload }
      (putU8 type ++ (putVarint64 payload.length ++ payload) ++
        putFixed32 (crc32c (putU8 type ++ (putVarint64 payload.length ++ payload)))) :=
    Frame.mk (reads_getU8 ht) (reads_getVarint64 hp) (reads_getFixed32 (crc32c_lt _))
  rwa [← List.append_assoc (putU8 type)] at hframe

theorem reads_frame {sec : FramedSection} {frame : Bytes} (h : Frame sec frame) :
    Reads readSection frame sec := by
  obtain ⟨htype, hlen, hcrc⟩ := h
  have hbody : Reads readFrameBody _ sec :=
    htype.bind (hlen.bind ((reads_getBytes sec.payload).bind_nil (Reads.pure _)))
  exact hbody.consumed.bind (hcrc.bind_nil (Reads.if_neg (by simp) (Reads.pure _)))

/-- **A section that is read** is a frame. -/
theorem frame_of_run {bs rest : Bytes} {sec : FramedSection}
    (h : readSection.run bs = .ok (sec, rest)) : ∃ frame, bs = frame ++ rest ∧ Frame sec frame := by
  have hprefixed : Prefixed readFrameBody :=
    prefixed_getU8.bind fun _ => prefixed_getVarint64.bind fun len =>
      (prefixed_getBytes len).bind fun _ => Prefixed.pure _
  obtain ⟨⟨sec', framed⟩, mid, hconsumed, hcheck⟩ := run_bind_eq_ok.mp h
  obtain ⟨stored, rest', hstored, hresult⟩ := run_bind_eq_ok.mp hcheck
  change (if crc32c framed ≠ stored then throw (.corruption "section crc mismatch")
    else pure sec' : Source FramedSection).run rest' = _ at hresult
  obtain ⟨rfl, hframed⟩ := run_consumed hprefixed hconsumed
  change Reads readFrameBody framed sec' at hframed
  by_cases hcrc : crc32c framed ≠ stored
  · rw [if_pos hcrc] at hresult
    cases hresult
  · rw [if_neg hcrc] at hresult
    cases hresult
    obtain ⟨crc, rfl, hcrcReads⟩ := prefixed_getFixed32 _ _ _ hstored
    rw [← not_not.mp hcrc] at hcrcReads
    obtain ⟨t, b1, htype, hrun⟩ := run_bind_eq_ok.mp (hframed [])
    obtain ⟨n, b2, hlen, hrun⟩ := run_bind_eq_ok.mp hrun
    obtain ⟨payload, b3, hbytes, hpure⟩ := run_bind_eq_ok.mp hrun
    cases hpure
    obtain ⟨type, htypeBytes, htypeReads⟩ := prefixed_getU8 _ _ _ htype
    obtain ⟨len, hlenBytes, hlenReads⟩ := prefixed_getVarint64 _ _ _ hlen
    obtain ⟨hpayload, hlength⟩ := getBytes_inv hbytes
    have hbody : framed = type ++ (len ++ payload) := by
      rw [List.append_nil] at htypeBytes hpayload
      rw [htypeBytes, hlenBytes, hpayload]
    rw [← hlength] at hlenReads
    change Reads getFixed32 crc (crc32c framed) at hcrcReads
    refine ⟨framed ++ crc, (List.append_assoc _ _ _).symm, ?_⟩
    rw [hbody] at hcrcReads ⊢
    exact Frame.mk htypeReads hlenReads hcrcReads

theorem avoids_readSection : Avoids readSection .outOfBounds := by
  have hbody : Avoids readFrameBody .outOfBounds :=
    avoids_getU8.bind fun _ => avoids_getVarint64.bind fun len =>
      (avoids_getBytes len).bind fun _ => Avoids.pure _
  exact hbody.consumed.bind fun _ => avoids_getFixed32.bind fun _ =>
    Avoids.ite (Avoids.throw (by simp)) (Avoids.pure _)

theorem openSection_ne_outOfBounds {α : Type} {type : SectionType} {wrongType : Status}
    {parse : Bytes → Result α} (htype : wrongType ≠ .outOfBounds)
    (hparse : ∀ payload, parse payload ≠ .error .outOfBounds) (framed : Bytes) :
    openSection type wrongType parse framed ≠ .error .outOfBounds := by
  apply bind_ne_error (avoids_readSection framed)
  rintro ⟨sec, rest⟩ -
  simp only
  split
  · intro h
    exact htype (Except.error.inj h)
  · exact hparse _

end Snii.Encoding.SectionFramer
