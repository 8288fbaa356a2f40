import Snii.Writer.SpillRunCodec

/-!
# The index writer

`logical_index_writer.cpp`: the writer takes a term's postings, checks them and
lays them out in the index file.
-/

namespace Snii.Writer.LogicalIndexWriter

open Snii.Lib.ByteReader Snii.Common Snii.Writer.SpillRunCodec

/-- Strict order of neighbouring docids. -/
def docidsAscend : List Nat → Bool
  | a :: b :: rest => if b ≤ a then false else docidsAscend (b :: rest)
  | _ => true

/-- The writer's check of a term; `hasPrx` says that the tier stores positions. -/
def validateTerm (hasPrx : Bool) (tp : TermPostings) : Result Unit :=
  if tp.freqs.length ≠ tp.docids.length then
    .error (.invalidArgument "logical_index: freqs length must equal docids")
  else if hasPrx ∧ tp.freqs.sum ≠ (if tp.streamed then tp.posTotal else tp.positionsFlat.length) then
    .error (.invalidArgument "logical_index: positions count must equal sum(freqs)")
  else if docidsAscend tp.docids = false then
    .error (.invalidArgument "logical_index: docids must be strictly ascending")
  else .ok ()

theorem docidsAscend_iff (docids : List Nat) :
    docidsAscend docids = true ↔ docids.Pairwise (· < ·) := by
  rw [← List.isChain_iff_pairwise]
  induction docids with
  | nil => simp [docidsAscend]
  | cons a rest ih =>
      cases rest with
      | nil => simp [docidsAscend]
      | cons b rest =>
          rw [docidsAscend, List.isChain_cons_cons]
          by_cases hle : b ≤ a
          · simp [hle, Nat.not_lt.mpr hle]
          · rw [if_neg hle, ih]
            simp [Nat.lt_of_not_le hle]

end Snii.Writer.LogicalIndexWriter
