import Mathlib.Data.List.Sort
import Snii.Io.BatchRangeFetcher

/-!
# Metered reads

`metered_file_reader.cpp`: a reader that keeps a cache of fixed blocks and counts what a
remote store would have served.  A single read and a batch each count their missing blocks
in a loop of their own.  The inner reader is a parameter; the counters are 64-bit.
-/

namespace Snii.Io.Metered

open Snii.Lib.ByteReader Snii.Common
open Snii.Io.BatchRangeFetcher (Range)

/-- The reader behind the cache. -/
structure Inner where
  size : Nat
  readAt : Nat → Nat → Result Bytes
  readBatch : List Range → Result (List Bytes)

/-- The five counters, of 64 bits each. -/
structure IoMetrics where
  readAtCalls : Nat := 0
  serialRounds : Nat := 0
  rangeGets : Nat := 0
  remoteBytes : Nat := 0
  totalRequestBytes : Nat := 0
deriving DecidableEq

/-- `resident` is the set of cached blocks. -/
structure MeteredFileReader where
  inner : Inner
  blockSize : Nat
  resident : List Nat := []
  metrics : IoMetrics := {}

/-- Counters and cache start over. -/
def MeteredFileReader.resetMetrics (m : MeteredFileReader) : MeteredFileReader :=
  { m with resident := [], metrics := {} }

/-! ## Counters -/

/-- Calls of `read_at`, one for each range of a batch. -/
def IoMetrics.addCalls (s : IoMetrics) (n : Nat) : IoMetrics :=
  { s with readAtCalls := (s.readAtCalls + n) % 2 ^ 64 }

/-- A round of requests that go out together. -/
def IoMetrics.addRound (s : IoMetrics) : IoMetrics :=
  { s with serialRounds := (s.serialRounds + 1) % 2 ^ 64 }

/-- A request for consecutive blocks. -/
def IoMetrics.addGet (s : IoMetrics) : IoMetrics :=
  { s with rangeGets := (s.rangeGets + 1) % 2 ^ 64 }

/-- Bytes of blocks that were not resident. -/
def IoMetrics.addRemote (s : IoMetrics) (n : Nat) : IoMetrics :=
  { s with remoteBytes := (s.remoteBytes + n) % 2 ^ 64 }

/-- Bytes that were asked for. -/
def IoMetrics.addRequest (s : IoMetrics) (n : Nat) : IoMetrics :=
  { s with totalRequestBytes := (s.totalRequestBytes + n) % 2 ^ 64 }

/-! ## Single reads -/

/-- First and last block of a range that is not empty. -/
def blockRange (offset len blockSize : Nat) : Nat × Nat :=
  (offset / blockSize, (offset + len - 1) / blockSize)

/-- The blocks a range touches, in order. -/
def rangeBlocks (offset len blockSize : Nat) : List Nat :=
  let (first, last) := blockRange offset len blockSize
  List.range' first (last + 1 - first)

/-- What is refused before anything is counted. -/
def MeteredFileReader.validateRange (m : MeteredFileReader) (offset len : Nat) : Result Unit :=
  if m.blockSize = 0 then .error (.invalidArgument "metered: zero block size")
  else if offset > m.inner.size ∨ len > m.inner.size - offset then
    .error (.corruption "metered: read range past end")
  else .ok ()

/-- Bytes of a block inside the file. -/
def MeteredFileReader.blockBytes (m : MeteredFileReader) (b : Nat) : Nat :=
  min m.blockSize (m.inner.size - b * m.blockSize)

/-- The loop of a single read: `inRun` says that the block before was missing too. -/
structure Scan where
  resident : List Nat
  metrics : IoMetrics
  anyMiss : Bool
  inRun : Bool

/-- One block of a read: a request begins where the run of missing blocks does. -/
def accountStep (m : MeteredFileReader) (s : Scan) (b : Nat) : Scan :=
  if b ∈ s.resident then { s with inRun := false }
  else
    let metrics := s.metrics.addRemote (m.blockBytes b)
    { resident := b :: s.resident
      metrics := if s.inRun then metrics else metrics.addGet
      anyMiss := true
      inRun := true }

/-- The blocks of a range become resident; says whether any was missing. -/
def MeteredFileReader.accountBlocks (m : MeteredFileReader) (offset len : Nat) :
    MeteredFileReader × Bool :=
  if len = 0 then (m, false)
  else
    let s := (rangeBlocks offset len m.blockSize).foldl (accountStep m)
      { resident := m.resident, metrics := m.metrics, anyMiss := false, inRun := false }
    ({ m with resident := s.resident, metrics := s.metrics }, s.anyMiss)

/-- `read_at`. -/
def MeteredFileReader.readAt (m : MeteredFileReader) (offset len : Nat) :
    MeteredFileReader × Result Bytes :=
  match m.validateRange offset len with
  | .error e => (m, .error e)
  | .ok _ =>
      let m := { m with metrics := (m.metrics.addCalls 1).addRequest len }
      let (m, anyMiss) := m.accountBlocks offset len
      let m := if anyMiss then { m with metrics := m.metrics.addRound } else m
      (m, m.inner.readAt offset len)

/-! ## Batches -/

/-- `std::unique`: of neighbours that are equal one stays. -/
def unique : List Nat → List Nat
  | a :: b :: rest => if a = b then unique (b :: rest) else a :: unique (b :: rest)
  | rest => rest

/-- The loop of a batch: `prevMiss` is the last missing block, if there was one. -/
structure BatchScan where
  resident : List Nat
  metrics : IoMetrics
  anyMiss : Bool
  prevMiss : Nat
  havePrev : Bool

/-- One block of a batch. -/
def batchStep (m : MeteredFileReader) (s : BatchScan) (b : Nat) : BatchScan :=
  if b ∈ s.resident then s
  else
    let metrics := s.metrics.addRemote (m.blockBytes b)
    { resident := b :: s.resident
      metrics := if ¬ s.havePrev ∨ b ≠ s.prevMiss + 1 then metrics.addGet else metrics
      anyMiss := true
      prevMiss := b
      havePrev := true }

/-- Every range of a batch is checked before anything is counted. -/
def MeteredFileReader.validateRanges (m : MeteredFileReader) : List Range → Result Unit
  | [] => .ok ()
  | r :: rest => do
      m.validateRange r.offset r.len
      m.validateRanges rest

/-- The blocks of a batch, each once and in order. -/
def batchBlocks (blockSize : Nat) (ranges : List Range) : List Nat :=
  unique ((ranges.flatMap fun r =>
    if r.len = 0 then [] else rangeBlocks r.offset r.len blockSize).mergeSort fun a b => a ≤ b)

/-- `read_batch`: one round for all ranges. -/
def MeteredFileReader.readBatch (m : MeteredFileReader) (ranges : List Range) :
    MeteredFileReader × Result (List Bytes) :=
  match m.validateRanges ranges with
  | .error e => (m, .error e)
  | .ok _ =>
      let metrics := ranges.foldl (fun s r => s.addRequest r.len) m.metrics
      let metrics := metrics.addCalls ranges.length
      let s := (batchBlocks m.blockSize ranges).foldl (batchStep m)
        { resident := m.resident, metrics := metrics, anyMiss := false, prevMiss := 0
          havePrev := false }
      let metrics := if s.anyMiss then s.metrics.addRound else s.metrics
      ({ m with resident := s.resident, metrics := metrics }, m.inner.readBatch ranges)

/-! ## Calls -/

/-- What a caller can ask. -/
inductive Call where
  | readAt (offset len : Nat)
  | readBatch (ranges : List Range)
deriving DecidableEq

/-- The state after a call, whatever the inner reader answers. -/
def MeteredFileReader.step (m : MeteredFileReader) : Call → MeteredFileReader
  | .readAt offset len => (m.readAt offset len).1
  | .readBatch ranges => (m.readBatch ranges).1

/-- The state after a sequence of calls. -/
def MeteredFileReader.run (m : MeteredFileReader) (calls : List Call) : MeteredFileReader :=
  calls.foldl MeteredFileReader.step m

end Snii.Io.Metered
