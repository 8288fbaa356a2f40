import Snii.Lib.Chunks
import Snii.Common.Status

/-!
# The tiered append buffer

`spillable_byte_buffer.h`.  Bytes are kept as one chunk an append until a cap is
reached; then they move to a temp file, and later appends go there.  Whether the cap
is reached is the environment's answer (`overCap`), the temp file returns what was
written to it.
-/

namespace Snii.Writer

open Snii.Lib.ByteReader Snii.Lib.Chunks

structure SpillableByteBuffer where
  chunks : List Bytes := []
  ramBytes : Nat := 0
  spilled : Bool := false
  temp : Bytes := []
  spilledBytes : Nat := 0

namespace SpillableByteBuffer

def kChunk : Nat := 2 ^ 20

def size (b : SpillableByteBuffer) : Nat := if b.spilled then b.spilledBytes else b.ramBytes

def spillToDisk (b : SpillableByteBuffer) : SpillableByteBuffer :=
  { b with
    temp := (b.chunks.filter fun c => !c.isEmpty).flatten, spilledBytes := b.ramBytes, chunks := []
    spilled := true }

/-- `append_move`; `overCap` is the answer to the check that ends a resident append. -/
def appendMove (overCap : Bool) (b : SpillableByteBuffer) (v : Bytes) : SpillableByteBuffer :=
  if b.spilled then { b with temp := b.temp ++ v, spilledBytes := b.spilledBytes + v.length }
  else
    let b := if v = [] then b
      else { b with ramBytes := b.ramBytes + v.length, chunks := b.chunks ++ [v] }
    if overCap then b.spillToDisk else b

/-- The bytes `stream_into` appends to the output, in order. -/
def streamInto (b : SpillableByteBuffer) : Bytes :=
  if b.spilled then
    (List.range ((b.spilledBytes + kChunk - 1) / kChunk)).flatMap fun i =>
      (b.temp.drop (i * kChunk)).take (min kChunk (b.spilledBytes - i * kChunk))
  else (b.chunks.filter fun c => !c.isEmpty).flatten

/-- The buffer holds the bytes, wherever they are. -/
structure Holds (b : SpillableByteBuffer) (bytes : Bytes) : Prop where
  ram : b.spilled = false → b.chunks.flatten = bytes ∧ b.ramBytes = bytes.length
  disk : b.spilled = true → b.temp = bytes ∧ b.spilledBytes = bytes.length

theorem holds_empty : Holds {} [] where
  ram _ := ⟨rfl, rfl⟩
  disk h := by cases h

variable {b : SpillableByteBuffer} {bytes : Bytes}

theorem Holds.size (h : Holds b bytes) : b.size = bytes.length := by
  rw [SpillableByteBuffer.size]
  cases hs : b.spilled with
  | false => simpa using (h.ram hs).2
  | true => simpa using (h.disk hs).2

/-- **An append** adds the bytes at the end, whether or not it spills. -/
theorem Holds.appendMove (h : Holds b bytes) (overCap : Bool) (v : Bytes) :
    Holds (b.appendMove overCap v) (bytes ++ v) := by
  rw [SpillableByteBuffer.appendMove]
  cases hs : b.spilled with
  | true =>
      have hdisk := h.disk hs
      refine ⟨fun hram => ?_, fun _ => ?_⟩
      · simp at hram
      · simp [hdisk.1, hdisk.2]
  | false =>
      have hram := h.ram hs
      by_cases hv : v = []
      · subst hv
        cases overCap with
        | false => exact ⟨fun _ => by simpa using hram, fun hd => by simp [hs] at hd⟩
        | true =>
            refine ⟨fun hd => by simp [spillToDisk] at hd, fun _ => ?_⟩
            simp only [Bool.false_eq_true, if_false, if_true, spillToDisk,
              List.flatten_filter_not_isEmpty]
            simpa using hram
      · cases overCap with
        | false => exact ⟨fun _ => by simp [hv, hram.1, hram.2], fun hd => by simp [hv] at hd⟩
        | true =>
            refine ⟨fun hd => by simp [spillToDisk] at hd, fun _ => ?_⟩
            simp only [Bool.false_eq_true, if_false, if_true, spillToDisk,
              List.flatten_filter_not_isEmpty]
            simp [hv, hram.1, hram.2]

/-- **Streaming** reproduces the bytes, from memory or in windows from the file. -/
theorem Holds.streamInto (h : Holds b bytes) : b.streamInto = bytes := by
  rw [SpillableByteBuffer.streamInto]
  cases hs : b.spilled with
  | false => simpa [List.flatten_filter_not_isEmpty] using (h.ram hs).1
  | true =>
      have hdisk := h.disk hs
      rw [if_pos rfl, hdisk.1, hdisk.2, List.flatMap_def]
      refine Eq.trans (congrArg List.flatten ?_) (flatten_chunks (show 0 < kChunk by decide) bytes)
      refine List.map_congr_left fun i _ => ?_
      rw [← List.length_drop, ← List.take_take, List.take_length]

end SpillableByteBuffer

end Snii.Writer
