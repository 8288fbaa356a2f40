import Mathlib.Data.Int.Init
import Snii.Writer.SpillableByteBuffer
import Snii.Writer.SpimiTermBuffer

/-!
# The build memory reporter

`memory_reporter.h`, and what `spimi_term_buffer.cpp` and `spillable_byte_buffer.h`
report to it: every buffer of a writer mirrors its resident bytes as signed deltas
into one shared counter, whose total decides in turn when a buffer spills.

A call is cut where it reports, so that calls of other buffers (a drain's callback
appending to the dictionary, another thread) may come in between: `Phase` says where
a term buffer stands in its call.  The capacity of the slot index, and whether the
files can be opened and written, are the surroundings' answers.  The counter is a
whole number: resident bytes stay far below its 64 bits.
-/

namespace Snii.Writer

open Snii.Lib.ByteReader Snii.Common Snii.Writer.SpillRunCodec
open SpimiTermBuffer (Buffer)

/-- The shared counter.  `mirrored` says that a `consume_release` function is
attached, `consumed` holds the deltas passed to it. -/
structure MemoryReporter where
  capBytes : Nat
  mirrored : Bool
  current : Int := 0
  consumed : List Int := []

namespace MemoryReporter

def report (r : MemoryReporter) (delta : Int) : MemoryReporter :=
  { r with current := r.current + delta
           consumed := if r.mirrored then r.consumed ++ [delta] else r.consumed }

/-- The cap is compared as a signed 64-bit number. -/
def overCap (r : MemoryReporter) : Bool :=
  r.capBytes ≠ 0 && decide (Int.bmod r.capBytes (2 ^ 64) ≤ r.current)

/-- What a buffer may do to the counter when its own figure goes from `c` to `c'`. -/
def Books (r : MemoryReporter) (c : Int) (r' : MemoryReporter) (c' : Int) : Prop :=
  (r' = r ∧ c' = c) ∨ r' = r.report (c' - c)

end MemoryReporter

/-! ## The term buffer -/

/-- Where a term buffer stands: between calls; behind a token's report, before the
cap check; in the loop of an in-memory drain; before the flush and before the
release of the slot index of a merging drain. -/
inductive Phase where
  | idle
  | gate
  | emitting
  | flushing
  | freeing
deriving DecidableEq

/-- A term buffer with `reported_resident_`. -/
structure TermAccount where
  buffer : Buffer
  reportedResident : Int := 0
  phase : Phase := .idle

/-- The two overloads of `add_token`. -/
inductive TermRef where
  | id (termId : Nat)
  | text (term : Bytes)

/-- One `add_token` call.  `left` is what an overflow of the arena leaves of the
buffer. -/
structure TokenCall where
  term : TermRef
  docid : Nat
  pos : Nat
  slotCapacity : Nat
  left : Buffer

namespace TermAccount

open SpimiTermBuffer

def reportArenaDelta (slotCapacity : Nat) (r : MemoryReporter) (a : TermAccount) :
    MemoryReporter × TermAccount :=
  if a.buffer.hasReporter then
    let now : Int := residentBytes { slotCapacity := slotCapacity } a.buffer
    (r.report (now - a.reportedResident), { a with reportedResident := now })
  else (r, a)

/-- `add_token` up to `accumulate`: the rejected call's buffer, or the buffer and the
id that `accumulate` is called with. -/
def admitToken (b : Buffer) : TermRef → Buffer ⊕ (Buffer × Nat)
  | .id termId =>
      if termId ≥ b.slotOf.length then
        .inl (latch b (.invalidArgument "spimi: term_id out of vocab range"))
      else .inr (b, termId)
  | .text term =>
      if b.ownedVocab = false then
        .inl (latch b
          (.invalidArgument "spimi: add_token(string_view) requires owned-vocab mode"))
      else if b.vocab.contains term then .inr (b, b.vocab.idxOf term)
      else .inr ({ b with vocab := b.vocab ++ [term], slotOf := b.slotOf ++ [0] }, b.vocab.length)

/-- A token up to its report.  A rejected one, or one the arena has no room for,
reports nothing. -/
def addToken (r : MemoryReporter) (a : TermAccount) (call : TokenCall) :
    MemoryReporter × TermAccount :=
  match admitToken a.buffer call.term with
  | .inl b => (r, { a with buffer := b })
  | .inr (b, termId) =>
      match appendTo b termId call.docid call.pos with
      | none => (r, { a with buffer := { call.left with hasReporter := a.buffer.hasReporter } })
      | some b => reportArenaDelta call.slotCapacity r { a with buffer := b, phase := .gate }

/-- `spill_to_run`: the report stands at the end of `drain_to_writer`, so a spill that
finds no space or cannot open its run does not report, and one whose write or close
fails does. -/
def spillToRun (slotCapacity : Nat) (env : SpillEnv) (r : MemoryReporter) (a : TermAccount) :
    Result Unit × MemoryReporter × TermAccount :=
  let (st, b) := SpimiTermBuffer.spillToRun env a.buffer
  if env.hasSpace && env.opens then
    (st, reportArenaDelta slotCapacity r { a with buffer := b })
  else (st, r, { a with buffer := b })

/-- The rest of `accumulate`: the cap check on the reporter's total, and the spill. -/
def spillOverCap (slotCapacity : Nat) (env : SpillEnv) (r : MemoryReporter) (a : TermAccount) :
    MemoryReporter × TermAccount :=
  let a := { a with phase := .idle }
  if spillGate { overCap := r.overCap, slotCapacity := slotCapacity, spill := env } a.buffer &&
      a.buffer.spillStatus.isNone then
    match spillToRun slotCapacity env r a with
    | (.ok (), r, a) => (r, a)
    | (.error s, r, a) => (r, { a with buffer := { a.buffer with spillStatus := some s } })
  else (r, a)

/-- A drain up to its first term: a second one is turned away, by `finalize_sorted`
with a latched error. -/
def beginDrain (finalize : Bool) (a : TermAccount) : TermAccount :=
  if a.buffer.drained then
    if finalize then
      { a with buffer :=
          latch a.buffer (.internal "spimi: already drained (single-drain contract)") }
    else a
  else
    { a with buffer := { a.buffer with drained := true }
             phase := if a.buffer.runs = [] ∧ a.buffer.spillStatus = none then .emitting
               else .flushing }

/-- The end of `drain_sorted`: the arena and the slot index are freed. -/
def endDrainSorted (r : MemoryReporter) (a : TermAccount) : MemoryReporter × TermAccount :=
  reportArenaDelta 0 r
    { a with buffer := (drainSorted (fun _ => []) false a.buffer).2, phase := .idle }

/-- The flush of `merge_runs`; an error, an earlier one included, ends the drain. -/
def flushResident (slotCapacity : Nat) (env : SpillEnv) (r : MemoryReporter) (a : TermAccount) :
    MemoryReporter × TermAccount :=
  let (r, a) := if a.buffer.touchedIds = [] then (r, a) else
    match spillToRun slotCapacity env r a with
    | (.ok (), r, a) => (r, a)
    | (.error s, r, a) => (r, { a with buffer := latch a.buffer s })
  (r, { a with phase := if a.buffer.spillStatus = none then .freeing else .idle })

/-- The release of the slot index in `merge_runs`.  The merge that follows reports
nothing; `failed` is the error that `finalize_sorted` latches when it fails. -/
def freeSlotIndex (failed : Option Status) (r : MemoryReporter) (a : TermAccount) :
    MemoryReporter × TermAccount :=
  reportArenaDelta 0 r
    { a with buffer := { a.buffer with slots := [], freeSlots := [], slotOf := []
                                       spillStatus := a.buffer.spillStatus.or failed }
             phase := .idle }

/-- The destructor's report. -/
def destroy (r : MemoryReporter) (a : TermAccount) : MemoryReporter :=
  if a.buffer.hasReporter && decide (a.reportedResident ≠ 0) then r.report (-a.reportedResident)
  else r

end TermAccount

/-- The next piece of a call on a term buffer. -/
inductive TermStep where
  | addToken (call : TokenCall)
  | spillOverCap (slotCapacity : Nat) (env : SpillEnv)
  | beginDrain (finalize : Bool)
  | endDrainSorted
  | flushResident (slotCapacity : Nat) (env : SpillEnv)
  | freeSlotIndex (failed : Option Status)

/-- A piece that does not follow the phase is not run. -/
def TermAccount.step (r : MemoryReporter) (a : TermAccount) : TermStep → MemoryReporter × TermAccount
  | .addToken call => if a.phase = .idle then a.addToken r call else (r, a)
  | .spillOverCap cap env => if a.phase = .gate then a.spillOverCap cap env r else (r, a)
  | .beginDrain finalize => if a.phase = .idle then (r, a.beginDrain finalize) else (r, a)
  | .endDrainSorted => if a.phase = .emitting then a.endDrainSorted r else (r, a)
  | .flushResident cap env => if a.phase = .flushing then a.flushResident cap env r else (r, a)
  | .freeSlotIndex failed => if a.phase = .freeing then a.freeSlotIndex failed r else (r, a)

/-! ## The byte buffer -/

/-- A tiered byte buffer; `atGate` says that an append stands before its cap check. -/
structure BytesAccount where
  buffer : SpillableByteBuffer := {}
  capBytes : Nat
  hasReporter : Bool
  atGate : Bool := false

namespace BytesAccount

/-- `append` and `append_move` up to the cap check; `written` is whether the temp file
of a spilled buffer takes the bytes. -/
def append (r : MemoryReporter) (a : BytesAccount) (v : Bytes) (written : Bool) :
    MemoryReporter × BytesAccount :=
  let b := a.buffer
  if b.spilled then
    if written then
      (r, { a with buffer :=
              { b with temp := b.temp ++ v, spilledBytes := b.spilledBytes + v.length } })
    else (r, a)
  else if v = [] then (r, { a with atGate := true })
  else
    (if a.hasReporter then r.report v.length else r,
      { a with buffer := { b with ramBytes := b.ramBytes + v.length, chunks := b.chunks ++ [v] }
               atGate := true })

def overCap (r : MemoryReporter) (a : BytesAccount) : Bool :=
  a.hasReporter && r.overCap || decide (a.capBytes ≤ a.buffer.ramBytes)

/-- The cap check and `spill_to_disk`; `written` is whether the temp file is opened and
takes the chunks. -/
def spillOverCap (r : MemoryReporter) (a : BytesAccount) (written : Bool) :
    MemoryReporter × BytesAccount :=
  if a.overCap r && written then
    (if a.hasReporter then r.report (-(a.buffer.ramBytes : Int)) else r,
      { a with buffer := a.buffer.spillToDisk, atGate := false })
  else (r, { a with atGate := false })

def destroy (r : MemoryReporter) (a : BytesAccount) : MemoryReporter :=
  if a.hasReporter && !a.buffer.spilled && decide (0 < a.buffer.ramBytes) then
    r.report (-(a.buffer.ramBytes : Int))
  else r

end BytesAccount

/-- The next piece of a call on a byte buffer. -/
inductive BytesStep where
  | append (v : Bytes) (written : Bool)
  | spillOverCap (written : Bool)

def BytesAccount.step (r : MemoryReporter) (a : BytesAccount) :
    BytesStep → MemoryReporter × BytesAccount
  | .append v written => if a.atGate then (r, a) else a.append r v written
  | .spillOverCap written => if a.atGate then a.spillOverCap r written else (r, a)

end Snii.Writer
