import Snii.Format.PerIndexMeta

/-!
# Norms of an index

The reader of `norms_pod.cpp`: one byte a document, behind their number.  An opened
section carries as many bytes as it counts, so a checked access stays inside them; what
the writer stores is read back byte for byte (`openNormsPod_finish`), and nothing opens but a
frame of that shape (`openNormsPod_iff`).
-/

namespace Snii.Format.NormsPod

open Snii.Lib.ByteReader Snii.Common
open Snii.Encoding.ByteSource Snii.Encoding.SectionFramer
open Snii.Format.PerIndexMeta (finishNormsPod)

/-- An opened section: one byte for each document. -/
structure NormsPodReader where
  docCount : Nat
  norms : Bytes
  counted : norms.length = docCount
deriving DecidableEq

/-- The type of the frame is not looked at, nor what stands behind it. -/
def openNormsPod (framed : Bytes) : Result NormsPodReader := do
  let (sec, _) ← readSection.run framed
  let (docCount, rest) ← getVarint64.run sec.payload
  if docCount > 4294967295 then .error (.corruption "norms POD doc_count overflows uint32")
  else if counted : rest.length = docCount then
    .ok { docCount := docCount, norms := rest, counted := counted }
  else .error (.corruption "norms POD length mismatch")

def NormsPodReader.tryEncodedNorm (r : NormsPodReader) (docid : Nat) : Result UInt8 :=
  if h : docid < r.docCount then .ok (r.norms.get ⟨docid, r.counted ▸ h⟩)
  else .error (.invalidArgument "norms: docid out of range")

/-! ## Access -/

/-- The norm of a document as a checked access gives it. -/
def normAt (norms : Bytes) (docid : Nat) : Result UInt8 :=
  match norms[docid]? with
  | some norm => .ok norm
  | none => .error (.invalidArgument "norms: docid out of range")

theorem tryEncodedNorm_eq (r : NormsPodReader) (docid : Nat) :
    r.tryEncodedNorm docid = normAt r.norms docid := by
  rw [NormsPodReader.tryEncodedNorm, normAt]
  by_cases h : docid < r.docCount
  · have hlt : docid < r.norms.length := r.counted ▸ h
    rw [dif_pos h, List.getElem?_eq_getElem hlt]
    rfl
  · have hle : r.norms.length ≤ docid := by
      rw [r.counted]
      exact Nat.not_lt.mp h
    rw [dif_neg h, List.getElem?_eq_none hle]

/-! ## Round trip -/

/-- **What the writer stores** is read back, one byte a document. -/
theorem openNormsPod_finish {norms : Bytes} (h : norms.length < 2 ^ 32) :
    openNormsPod (finishNormsPod norms) =
      .ok { docCount := norms.length, norms := norms, counted := rfl } := by
  have hlen := length_putVarint64_le norms.length
  have hpayload : (putVarint64 norms.length ++ norms).length < 2 ^ 64 := by
    rw [List.length_append]
    omega
  have hread := reads_section SectionType.statsBlock.code_lt hpayload []
  have hcount := reads_getVarint64 (show norms.length < 2 ^ 64 by omega) norms
  rw [List.append_nil] at hread
  rw [openNormsPod, finishNormsPod, hread, ok_bind]
  simp only
  rw [hcount, ok_bind]
  simp only
  rw [if_neg (by omega)]
  exact dif_pos trivial

/-- **What opens** is a frame of any type whose payload counts the norms and holds them,
with anything behind it. -/
theorem openNormsPod_iff {framed : Bytes} {r : NormsPodReader} :
    openNormsPod framed = .ok r ↔ r.docCount < 2 ^ 32 ∧
      ∃ frame rest sec count, framed = frame ++ rest ∧ Frame sec frame ∧
        sec.payload = count ++ r.norms ∧ Reads getVarint64 count r.docCount := by
  constructor
  · intro h
    rw [openNormsPod] at h
    obtain ⟨⟨sec, rest⟩, hsec, h1⟩ := bind_eq_ok h
    obtain ⟨⟨docCount, norms⟩, hcount, h2⟩ := bind_eq_ok h1
    obtain ⟨frame, rfl, hframe⟩ := frame_of_run hsec
    obtain ⟨count, hsplit, hreads⟩ := prefixed_getVarint64 _ _ _ hcount
    by_cases hbig : docCount > 4294967295
    · simp only [if_pos hbig] at h2
      cases h2
    · by_cases hlen : norms.length = docCount
      · simp only [if_neg hbig, dif_pos hlen] at h2
        cases h2
        exact ⟨by simp only; omega, frame, rest, sec, count, rfl, hframe, hsplit, hreads⟩
      · simp only [if_neg hbig, dif_neg hlen] at h2
        cases h2
  · rintro ⟨hsmall, frame, rest, sec, count, rfl, hframe, hsplit, hreads⟩
    have hcount := hreads r.norms
    rw [← hsplit] at hcount
    rw [openNormsPod, reads_frame hframe rest, ok_bind]
    simp only
    rw [hcount, ok_bind]
    simp only
    rw [if_neg (by omega), dif_pos r.counted]

end Snii.Format.NormsPod
