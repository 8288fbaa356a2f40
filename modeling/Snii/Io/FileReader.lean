import Snii.Common.Status

/-!
# File access

`local_file.cpp`: a positioned read returns the bytes asked for or fails when they
are not all there.  `At file off data` says that a file holds given bytes at an
offset.
-/

namespace Snii.Io.FileReader

open Snii.Lib.ByteReader Snii.Common

def readAt (file : Bytes) (off len : Nat) : Result Bytes :=
  if off > file.length ∨ len > file.length - off then
    .error (.corruption "read_at past end of file")
  else .ok ((file.drop off).take len)

theorem readAt_eq_ok {file data : Bytes} {off len : Nat} (h : readAt file off len = .ok data) :
    data = (file.drop off).take len ∧ off + len ≤ file.length := by
  unfold readAt at h
  by_cases hbad : off > file.length ∨ len > file.length - off
  · rw [if_pos hbad] at h
    cases h
  · rw [if_neg hbad] at h
    cases h
    exact ⟨rfl, by omega⟩

/-- The file holds `data` at `off`. -/
def At (file : Bytes) (off : Nat) (data : Bytes) : Prop :=
  ∃ pre post, file = pre ++ (data ++ post) ∧ pre.length = off

variable {file : Bytes} {off : Nat} {data a b c : Bytes}

theorem At.bound (h : At file off data) : off + data.length ≤ file.length := by
  obtain ⟨pre, post, rfl, rfl⟩ := h
  simp only [List.length_append]
  omega

/-- A part of what stands at an offset stands at its own offset. -/
theorem At.part (h : At file off (a ++ (b ++ c))) : At file (off + a.length) b := by
  obtain ⟨pre, post, rfl, rfl⟩ := h
  exact ⟨pre ++ a, c ++ post, by simp, by simp⟩

theorem At.left (h : At file off (a ++ b)) : At file off a := by
  obtain ⟨pre, post, rfl, rfl⟩ := h
  exact ⟨pre, b ++ post, by simp, rfl⟩

theorem At.right (h : At file off (a ++ b)) : At file (off + a.length) b := by
  obtain ⟨pre, post, rfl, rfl⟩ := h
  exact ⟨pre ++ a, post, by simp, by simp⟩

theorem At.extend (h : At file off data) (more : Bytes) : At (file ++ more) off data := by
  obtain ⟨pre, post, rfl, rfl⟩ := h
  exact ⟨pre, post ++ more, by simp, rfl⟩

/-- What is appended stands at the end. -/
theorem at_append (file data : Bytes) : At (file ++ data) file.length data :=
  ⟨file, [], by simp, rfl⟩

/-- What stands inside what stands in the file. -/
theorem At.trans {pos : Nat} (h : At file off data) (hin : At data pos a) : At file (off + pos) a := by
  obtain ⟨pre, post, rfl, rfl⟩ := hin
  exact h.part

/-- A range of what stands in the file. -/
theorem At.slice {pos len : Nat} (h : At file off data) (hin : pos + len ≤ data.length) :
    At file (off + pos) ((data.drop pos).take len) := by
  apply h.trans
  refine ⟨data.take pos, data.drop (pos + len), ?_, by rw [List.length_take]; omega⟩
  rw [← List.drop_drop, List.take_append_drop, List.take_append_drop]

/-- **Reading** where the file holds the data returns the data. -/
theorem At.readAt (h : At file off data) {len : Nat} (hlen : len = data.length) :
    readAt file off len = .ok data := by
  have hbound := h.bound
  obtain ⟨pre, post, rfl, rfl⟩ := h
  rw [FileReader.readAt, if_neg (by omega), List.drop_left, hlen, List.take_left]

end Snii.Io.FileReader
