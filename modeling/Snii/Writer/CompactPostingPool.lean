import Mathlib.Tactic.IntervalCases
import Snii.Lib.ByteReader

/-!
# The posting arena

`compact_posting_pool.cpp`: byte chains sliced out of fixed-size blocks.  A
slice is a payload region whose size depends on its level, followed by a
four-byte forward pointer that is zero in the chain's last slice.  Memory is a
function of the absolute offset, zero where nothing was written; a block starts
zeroed and slices never cross a block.  `none` is the overflow exception.
-/

namespace Snii.Writer.CompactPostingPool

open Snii.Lib.ByteReader

/-- Memory comes in blocks of this size. -/
def kBlockSize : Nat := 32768

/-- A slice ends with the offset of the next one. -/
def kPtrBytes : Nat := 4

/-- The payload of a slice, by its level. -/
def kSliceSizes : List Nat :=
  [5, 8, 12, 18, 27, 40, 60, 90, 135, 202, 303, 455, 683, 1024, 1536, 2304]

/-- The level of the slice behind one of a level; the last one stays. -/
def kNextLevel : List Nat := [1, 2, 3, 4, 5, 6, 7, 8, 9, 10, 11, 12, 13, 14, 15, 15]

/-- Payload capacity of a slice of the given level. -/
def sliceSize (level : Nat) : Nat := kSliceSizes.getD level 0

/-- The level of the slice that follows. -/
def nextLevel (level : Nat) : Nat := kNextLevel.getD level 0

/-- The arena as one array of bytes, with what is handed out of it. -/
structure Pool where
  mem : Nat → UInt8 := fun _ => 0
  nBlocks : Nat := 0
  nextOffset : Nat := 0
  payloadBytes : Nat := 0

namespace Pool

/-- The bytes of its blocks. -/
def arenaBytes (p : Pool) : Nat := p.nBlocks * kBlockSize

/-- Overwrites the bytes from an offset on. -/
def store (mem : Nat → UInt8) (off : Nat) (bs : Bytes) : Nat → UInt8 := fun a =>
  if off ≤ a ∧ a < off + bs.length then bs.getD (a - off) 0 else mem a

/-- There is no tail block, or the run does not fit in what is left of it. -/
def NeedBlock (p : Pool) (bytes : Nat) : Prop :=
  ¬ p.nextOffset / kBlockSize < p.nBlocks ∨ p.nextOffset % kBlockSize + bytes > kBlockSize

instance (p : Pool) (bytes : Nat) : Decidable (p.NeedBlock bytes) := by
  unfold NeedBlock; infer_instance

/-- Bytes that do not cross a block; offsets are kept in 32 bits, and there is no run
beyond them. -/
def allocRun (p : Pool) (bytes : Nat) : Option (Pool × Nat) :=
  let runStart := if p.NeedBlock bytes then p.nBlocks * kBlockSize else p.nextOffset
  if runStart + bytes > 4294967295 then none
  else if p.NeedBlock bytes then
    some ({ p with nBlocks := p.nBlocks + 1, nextOffset := runStart + bytes }, runStart)
  else some ({ p with nextOffset := runStart + bytes }, runStart)

/-- A slice of the given level: its first payload offset and its end. -/
def allocSlice (p : Pool) (level : Nat) : Option (Pool × Nat × Nat) := do
  let (p, first) ← p.allocRun (sliceSize level + kPtrBytes)
  let sliceEnd := first + sliceSize level
  some ({ p with mem := store p.mem sliceEnd [0, 0, 0, 0] }, first, sliceEnd)

/-- The offset behind a slice. -/
def readPtr (p : Pool) (sliceEnd : Nat) : Nat :=
  leValue [p.mem sliceEnd, p.mem (sliceEnd + 1), p.mem (sliceEnd + 2), p.mem (sliceEnd + 3)]

/-- Links a slice to the next one. -/
def writePtr (p : Pool) (sliceEnd nextHead : Nat) : Pool :=
  { p with mem := store p.mem sliceEnd (leBytes 4 nextHead) }

end Pool

/-- A chain's append position.  The level of the current slice, which the source
keeps next to this record to save space, is part of it here. -/
structure SliceWriter where
  cur : Nat := 0
  sliceEnd : Nat := 0
  level : Nat := 0
deriving DecidableEq

/-- A first slice. -/
def startChain (p : Pool) : Option (Pool × SliceWriter × Nat) := do
  let (p, head, sliceEnd) ← p.allocSlice 0
  some (p, { cur := head, sliceEnd := sliceEnd, level := 0 }, head)

/-- The append position with room for one byte: a full slice is extended by a
larger one and linked to it. -/
def growChain (p : Pool) (w : SliceWriter) : Option (Pool × SliceWriter) :=
  if w.cur = w.sliceEnd then do
    let level := nextLevel w.level
    let (p, newHead, newEnd) ← p.allocSlice level
    some (p.writePtr w.sliceEnd newHead, { cur := newHead, sliceEnd := newEnd, level := level })
  else some (p, w)

/-- One byte, in the next slice where this one is full. -/
def appendByte (p : Pool) (w : SliceWriter) (value : UInt8) : Option (Pool × SliceWriter) := do
  let (p, w) ← growChain p w
  some ({ p with mem := Pool.store p.mem w.cur [value], payloadBytes := p.payloadBytes + 1 },
    { w with cur := w.cur + 1 })

/-! ## Reading a chain -/

/-- A reader of one chain: its place in a slice and the payload bytes left. -/
structure Cursor where
  cur : Nat
  sliceEnd : Nat
  level : Nat
  budget : Nat

/-- At the head of a chain of `budget` bytes. -/
def cursor (head budget : Nat) : Cursor :=
  { cur := head, sliceEnd := head + sliceSize 0, level := 0, budget := budget }

def Cursor.hasNext (p : Pool) (c : Cursor) : Bool :=
  if c.budget = 0 then false
  else if c.cur = c.sliceEnd then p.readPtr c.sliceEnd ≠ 0
  else true

/-- The byte under the cursor, and the cursor behind it. -/
def Cursor.take (p : Pool) (c : Cursor) : UInt8 × Cursor :=
  (p.mem c.cur, { c with cur := c.cur + 1, budget := c.budget - 1 })

def Cursor.next (p : Pool) (c : Cursor) : UInt8 × Cursor :=
  if c.budget = 0 then (0, c)
  else if c.cur = c.sliceEnd then
    let nextHead := p.readPtr c.sliceEnd
    if nextHead = 0 then (0, { c with budget := 0 })
    else
      let level := nextLevel c.level
      Cursor.take p { c with cur := nextHead, sliceEnd := nextHead + sliceSize level,
                             level := level }
  else Cursor.take p c

/-! ## Allocation -/

theorem sliceSize_pos {level : Nat} (h : level < 16) : 0 < sliceSize level := by
  unfold sliceSize kSliceSizes
  interval_cases level <;> decide

theorem sliceSize_le (level : Nat) : sliceSize level ≤ 2304 := by
  by_cases h : level < 16
  · unfold sliceSize kSliceSizes
    interval_cases level <;> decide
  · have : kSliceSizes.length ≤ level := by simpa [kSliceSizes] using h
    simp [sliceSize, List.getElem?_eq_none this]

theorem nextLevel_lt (level : Nat) : nextLevel level < 16 := by
  by_cases h : level < 16
  · unfold nextLevel kNextLevel
    interval_cases level <;> decide
  · have : kNextLevel.length ≤ level := by simpa [kNextLevel] using h
    simp [nextLevel, List.getElem?_eq_none this]

/-- The bump pointer lies in the last block or right after it, and nothing
beyond it was written. -/
structure Pool.WF (p : Pool) : Prop where
  inBlocks : p.nextOffset ≤ p.arenaBytes
  tailBlock : p.arenaBytes < p.nextOffset + kBlockSize ∨ p.nBlocks = 0
  zeroAbove : ∀ a, p.nextOffset ≤ a → p.mem a = 0

theorem Pool.WF.empty : ({} : Pool).WF where
  inBlocks := by simp [arenaBytes]
  tailBlock := Or.inr rfl
  zeroAbove := fun _ _ => rfl

/-- What an allocated run is: a fresh range inside one block. -/
theorem Pool.allocRun_spec {p p' : Pool} {bytes off : Nat} (hp : p.WF) (hpos : 0 < bytes)
    (hfit : bytes ≤ kBlockSize) (h : p.allocRun bytes = some (p', off)) :
    p'.WF ∧ p'.mem = p.mem ∧ p.nextOffset ≤ off ∧ off + bytes = p'.nextOffset ∧
      off + bytes < 2 ^ 32 ∧ p'.nBlocks ≤ p.nBlocks + 1 ∧ p'.payloadBytes = p.payloadBytes ∧
      off / kBlockSize = (off + bytes - 1) / kBlockSize := by
  obtain ⟨hin, htail, hzero⟩ := hp
  unfold allocRun at h
  simp only [arenaBytes, kBlockSize] at h hin htail hfit ⊢
  by_cases hneed : p.NeedBlock bytes
  · simp only [if_pos hneed] at h
    split at h
    · simp at h
    · simp only [Option.some.injEq, Prod.mk.injEq] at h
      obtain ⟨rfl, rfl⟩ := h
      refine ⟨⟨?_, ?_, ?_⟩, rfl, hin, rfl, by omega, Nat.le_refl _, rfl, by omega⟩
      · simp only [arenaBytes, kBlockSize]
        omega
      · left
        simp only [arenaBytes, kBlockSize]
        omega
      · intro a (ha : p.nBlocks * 32768 + bytes ≤ a)
        exact hzero a (by omega)
  · simp only [if_neg hneed] at h
    simp only [NeedBlock, kBlockSize] at hneed
    split at h
    · simp at h
    · simp only [Option.some.injEq, Prod.mk.injEq] at h
      obtain ⟨rfl, rfl⟩ := h
      refine ⟨⟨?_, ?_, ?_⟩, rfl, Nat.le_refl _, rfl, by omega, Nat.le_succ _, rfl, by omega⟩
      · simp only [arenaBytes, kBlockSize]
        omega
      · simp only [arenaBytes, kBlockSize]
        omega
      · intro a (ha : p.nextOffset + bytes ≤ a)
        exact hzero a (by omega)

/-- The blocks that fit below the offset limit. -/
def maxBlocks : Nat := 131071

/-- A run fits while a further block keeps the arena below the offset limit. -/
theorem Pool.allocRun_isSome {p : Pool} {bytes : Nat} (hp : p.WF) (hfit : bytes ≤ kBlockSize)
    (hroom : p.nBlocks < maxBlocks) : (p.allocRun bytes).isSome := by
  have hin := hp.inBlocks
  simp only [arenaBytes, kBlockSize, maxBlocks] at hin hfit hroom
  unfold allocRun
  simp only [kBlockSize]
  by_cases hneed : p.NeedBlock bytes
  · simp only [if_pos hneed]
    rw [if_neg (by omega)]
    rfl
  · simp only [if_neg hneed]
    rw [if_neg (by omega)]
    rfl

/-! ## Stores -/

theorem Pool.store_at {mem : Nat → UInt8} {off i : Nat} {bs : Bytes} (h : i < bs.length) :
    store mem off bs (off + i) = bs.getD i 0 := by
  rw [store, if_pos (by omega)]
  congr 1
  omega

theorem Pool.readPtr_congr {p q : Pool} {e : Nat} (h : ∀ a, e ≤ a → a < e + 4 → q.mem a = p.mem a) :
    q.readPtr e = p.readPtr e := by
  unfold readPtr
  rw [h e (by omega) (by omega), h (e + 1) (by omega) (by omega), h (e + 2) (by omega) (by omega),
    h (e + 3) (by omega) (by omega)]

/-- A pointer reads back. -/
theorem Pool.readPtr_of_store {p : Pool} {e v : Nat} (hv : v < 2 ^ 32)
    (h : ∀ i < 4, p.mem (e + i) = (leBytes 4 v).getD i 0) : p.readPtr e = v := by
  have hlist : [p.mem e, p.mem (e + 1), p.mem (e + 2), p.mem (e + 3)] = leBytes 4 v := by
    have h0 := h 0 (by omega)
    have h1 := h 1 (by omega)
    have h2 := h 2 (by omega)
    have h3 := h 3 (by omega)
    rw [Nat.add_zero] at h0
    rw [h0, h1, h2, h3]
    rfl
  rw [readPtr, hlist, leValue_leBytes (by simpa using hv)]

end Snii.Writer.CompactPostingPool
