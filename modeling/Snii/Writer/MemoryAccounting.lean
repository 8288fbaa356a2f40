import Snii.Lib.Ledger
import Snii.Writer.MemoryReporter

/-!
# Memory accounting

Any number of buffers share one reporter.  In every interleaving of their calls the
counter is the sum of what the live buffers last reported, each of which is at least
zero, and the deltas mirrored so far add up to it; once every buffer is gone the
counter is back at zero.

Every piece of a call either leaves the counter and the buffer's own figure alone or
reports exactly the change of that figure (`Books`).  The balance follows from this
alone.
-/

namespace Snii.Writer

open Snii.Lib.ByteReader Snii.Lib.Ledger Snii.Common Snii.Writer.SpillRunCodec
open SpimiTermBuffer (Buffer)

/-! ## What a buffer operation keeps -/

namespace SpimiTermBuffer

private theorem appendTo_hasReporter {b b' : Buffer} {termId docid pos : Nat}
    (h : appendTo b termId docid pos = some b') : b'.hasReporter = b.hasReporter := by
  simp only [appendTo, Option.map_eq_some_iff] at h
  obtain ⟨x, -, rfl⟩ := h
  simp only [termSlot]
  split
  · simp
  · split <;> simp

private theorem takeTerms_hasReporter (ids : List Nat) (b : Buffer) :
    (takeTerms b ids).2.hasReporter = b.hasReporter := by
  induction ids generalizing b with
  | nil => rfl
  | cons id ids ih =>
      simp only [takeTerms, ih, takeTerm, releaseTerm]
      split <;> rfl

private theorem spillToRun_hasReporter (env : SpillEnv) (b : Buffer) :
    (spillToRun env b).2.hasReporter = b.hasReporter := by
  rw [spillToRun]
  split
  · rfl
  split
  · rfl
  have hkept : (drainToWriter env b {}).2.2.hasReporter = b.hasReporter :=
    takeTerms_hasReporter (sortedIds b) b
  split
  case _ heq => simpa [heq] using hkept
  case _ heq => simpa [heq] using hkept

private theorem drainSorted_hasReporter (plan : TermPostings → List Nat) (allowStream : Bool)
    (b : Buffer) : (drainSorted plan allowStream b).2.hasReporter = b.hasReporter :=
  takeTerms_hasReporter (sortedIds b) b

end SpimiTermBuffer

/-! ## One piece of a call -/

namespace MemoryReporter

/-- Nothing reported, nothing owed. -/
theorem Books.refl (r : MemoryReporter) (c : Int) : Books r c r c := .inl ⟨rfl, rfl⟩

/-- A report of the change brings the books up to date. -/
theorem Books.report (r : MemoryReporter) (c c' : Int) : Books r c (r.report (c' - c)) c' :=
  .inr rfl

end MemoryReporter

open MemoryReporter (Books)

/-- A term buffer's figure is a number of bytes, and zero without a reporter. -/
structure TermAccount.Ok (a : TermAccount) : Prop where
  nonneg : 0 ≤ a.reportedResident
  detached : a.buffer.hasReporter = false → a.reportedResident = 0

/-- A piece of a call books what it changes. -/
structure TermAccount.Kept (r : MemoryReporter) (a : TermAccount) (r' : MemoryReporter)
    (a' : TermAccount) : Prop where
  books : Books r a.reportedResident r' a'.reportedResident
  ok : a'.Ok

namespace TermAccount

variable {r : MemoryReporter} {a : TermAccount}

/-- A change that keeps the reporter and the figure. -/
theorem Kept.of_eq (h : a.Ok) {a' : TermAccount}
    (hreported : a'.reportedResident = a.reportedResident)
    (hreporter : a'.buffer.hasReporter = a.buffer.hasReporter) : Kept r a r a' where
  books := .inl ⟨rfl, hreported⟩
  ok := ⟨hreported ▸ h.nonneg, fun hd => hreported.trans (h.detached (hreporter ▸ hd))⟩

/-- The figure follows the report, whatever the buffer was changed to before it. -/
theorem reportArenaDelta_kept (h : a.Ok) {a' : TermAccount} (slotCapacity : Nat)
    (hreported : a'.reportedResident = a.reportedResident)
    (hreporter : a'.buffer.hasReporter = a.buffer.hasReporter) :
    Kept r a (a'.reportArenaDelta slotCapacity r).1 (a'.reportArenaDelta slotCapacity r).2 := by
  rw [reportArenaDelta]
  cases hattached : a'.buffer.hasReporter with
  | false => exact Kept.of_eq h hreported hreporter
  | true =>
      constructor
      · rw [← hreported]
        exact Books.report r _ _
      · constructor
        · exact Int.natCast_nonneg _
        · intro hd
          simp [hattached] at hd

/-- Later changes of the buffer that keep the figure may follow a kept piece. -/
theorem Kept.andThen {r' : MemoryReporter} {a' a'' : TermAccount} (h : Kept r a r' a')
    (hreported : a''.reportedResident = a'.reportedResident)
    (hreporter : a''.buffer.hasReporter = a'.buffer.hasReporter) : Kept r a r' a'' where
  books := hreported ▸ h.books
  ok := (Kept.of_eq (r := r') h.ok hreported hreporter).ok

private theorem admitToken_hasReporter (b : Buffer) (t : TermRef) :
    (∀ b', admitToken b t = .inl b' → b'.hasReporter = b.hasReporter) ∧
      ∀ b' id, admitToken b t = .inr (b', id) → b'.hasReporter = b.hasReporter := by
  constructor
  · intro b' h
    cases t <;> simp only [admitToken] at h <;> split at h
    · cases h; rfl
    · cases h
    · cases h; rfl
    · split at h <;> cases h
  · intro b' id h
    cases t <;> simp only [admitToken] at h <;> split at h
    · cases h
    · cases h; rfl
    · cases h
    · split at h <;> cases h <;> rfl

/-- Adding a token keeps the books. -/
theorem addToken_kept (h : a.Ok) (call : TokenCall) :
    Kept r a (a.addToken r call).1 (a.addToken r call).2 := by
  have haccepted := admitToken_hasReporter a.buffer call.term
  rw [addToken]
  split
  case _ b heq => exact Kept.of_eq h rfl (haccepted.1 b heq)
  case _ b id heq =>
      split
      case _ => exact Kept.of_eq h rfl rfl
      case _ b' happend =>
          apply reportArenaDelta_kept h
          · rfl
          · exact (SpimiTermBuffer.appendTo_hasReporter happend).trans (haccepted.2 b id heq)

/-- A spill keeps the books, failed or not. -/
theorem spillToRun_kept (h : a.Ok) (slotCapacity : Nat) (env : SpillEnv) :
    Kept r a (a.spillToRun slotCapacity env r).2.1 (a.spillToRun slotCapacity env r).2.2 := by
  have hreporter := SpimiTermBuffer.spillToRun_hasReporter env a.buffer
  rw [spillToRun]
  dsimp only
  split
  · exact reportArenaDelta_kept h slotCapacity rfl hreporter
  · exact Kept.of_eq h rfl hreporter

/-- The gate keeps the books. -/
theorem spillOverCap_kept (h : a.Ok) (slotCapacity : Nat) (env : SpillEnv) :
    Kept r a (a.spillOverCap slotCapacity env r).1 (a.spillOverCap slotCapacity env r).2 := by
  rw [spillOverCap]
  have hidle : TermAccount.Ok { a with phase := .idle } := ⟨h.nonneg, h.detached⟩
  have hspill := spillToRun_kept (r := r) hidle slotCapacity env
  dsimp only
  split
  · split
    case _ heq =>
        rw [heq] at hspill
        exact ⟨hspill.books, hspill.ok⟩
    case _ r' a' heq =>
        rw [heq] at hspill
        have hkept : Kept r a r' a' := ⟨hspill.books, hspill.ok⟩
        exact hkept.andThen rfl rfl
  · exact Kept.of_eq h rfl rfl

/-- A drain that begins reports nothing. -/
theorem beginDrain_kept (h : a.Ok) (finalize : Bool) : Kept r a r (a.beginDrain finalize) := by
  rw [beginDrain]
  split
  · split
    · exact Kept.of_eq h rfl rfl
    · exact Kept.of_eq h rfl rfl
  · exact Kept.of_eq h rfl rfl

/-- A drain that ends reports what it freed. -/
theorem endDrainSorted_kept (h : a.Ok) :
    Kept r a (a.endDrainSorted r).1 (a.endDrainSorted r).2 :=
  reportArenaDelta_kept h 0 rfl
    (SpimiTermBuffer.drainSorted_hasReporter (fun _ => []) false a.buffer)

/-- The flush before a merge keeps the books. -/
theorem flushResident_kept (h : a.Ok) (slotCapacity : Nat) (env : SpillEnv) :
    Kept r a (a.flushResident slotCapacity env r).1 (a.flushResident slotCapacity env r).2 := by
  have hspill := spillToRun_kept (r := r) h slotCapacity env
  by_cases htouched : a.buffer.touchedIds = []
  · simp only [flushResident, if_pos htouched]
    exact Kept.of_eq h rfl rfl
  · simp only [flushResident, if_neg htouched]
    cases hrun : a.spillToRun slotCapacity env r with
    | mk st rest =>
        rw [hrun] at hspill
        cases st with
        | ok _ => exact hspill.andThen rfl rfl
        | error _ => exact hspill.andThen rfl rfl

/-- **One piece of a call on a term buffer** books what it changes. -/
theorem step_kept (h : a.Ok) (s : TermStep) : Kept r a (a.step r s).1 (a.step r s).2 := by
  cases s <;> simp only [step] <;> split
  · exact addToken_kept h _
  · exact Kept.of_eq h rfl rfl
  · exact spillOverCap_kept h _ _
  · exact Kept.of_eq h rfl rfl
  · exact beginDrain_kept h _
  · exact Kept.of_eq h rfl rfl
  · exact endDrainSorted_kept h
  · exact Kept.of_eq h rfl rfl
  · exact flushResident_kept h _ _
  · exact Kept.of_eq h rfl rfl
  · exact reportArenaDelta_kept h 0 rfl rfl
  · exact Kept.of_eq h rfl rfl

/-- The destructor takes back the whole figure. -/
theorem destroy_books (h : a.Ok) : Books r a.reportedResident (a.destroy r) 0 := by
  rw [destroy]
  cases hattached : a.buffer.hasReporter with
  | false =>
      rw [h.detached hattached]
      exact Books.refl r 0
  | true =>
      by_cases hzero : a.reportedResident = 0
      · rw [hzero]
        exact Books.refl r 0
      · have hreport := Books.report r a.reportedResident 0
        simpa [hzero] using hreport

end TermAccount

/-! ## Whole calls

The pieces of a call, run one after the other, change the buffer as the call does;
the cap check's answer is then the reporter's. -/

namespace TermAccount

variable {r : MemoryReporter} {a : TermAccount}

@[simp] theorem reportArenaDelta_buffer (slotCapacity : Nat) (a : TermAccount) :
    (a.reportArenaDelta slotCapacity r).2.buffer = a.buffer := by
  rw [reportArenaDelta]
  split <;> rfl

@[simp] theorem reportArenaDelta_phase (slotCapacity : Nat) (a : TermAccount) :
    (a.reportArenaDelta slotCapacity r).2.phase = a.phase := by
  rw [reportArenaDelta]
  split <;> rfl

/-- `add_token` on the buffer alone, by either overload. -/
def tokenCall (env : SpimiTermBuffer.TokenEnv) (b : Buffer) (call : TokenCall) : Option Buffer :=
  match call.term with
  | .id termId => SpimiTermBuffer.addToken env b termId call.docid call.pos
  | .text term => SpimiTermBuffer.addTokenString env b term call.docid call.pos

private theorem tokenCall_eq (env : SpimiTermBuffer.TokenEnv) (b : Buffer) (call : TokenCall) :
    tokenCall env b call = match admitToken b call.term with
      | .inl b => some b
      | .inr (b, termId) => SpimiTermBuffer.accumulate env b termId call.docid call.pos := by
  cases hterm : call.term with
  | id termId =>
      simp only [tokenCall, hterm, admitToken, SpimiTermBuffer.addToken]
      split <;> rfl
  | text term =>
      simp only [tokenCall, hterm, admitToken, SpimiTermBuffer.addTokenString, List.contains_iff_mem]
      split
      · rfl
      · split <;> rfl

private theorem spillToRun_buffer (slotCapacity : Nat) (env : SpillEnv) (r : MemoryReporter)
    (a : TermAccount) :
    ∃ r' a', a.spillToRun slotCapacity env r =
        ((SpimiTermBuffer.spillToRun env a.buffer).1, r', a') ∧
      a'.buffer = (SpimiTermBuffer.spillToRun env a.buffer).2 := by
  simp only [spillToRun]
  split
  · exact ⟨_, _, rfl, reportArenaDelta_buffer _ _⟩
  · exact ⟨_, _, rfl, rfl⟩

/-- The gate decides as `maybe_spill` does under the reporter's answer. -/
theorem spillOverCap_buffer (slotCapacity : Nat) (env : SpillEnv) (r : MemoryReporter)
    (a : TermAccount) :
    (a.spillOverCap slotCapacity env r).2.buffer = SpimiTermBuffer.maybeSpill
      { overCap := r.overCap, slotCapacity := slotCapacity, spill := env } a.buffer := by
  obtain ⟨r', a', hrun, hbuffer⟩ :=
    spillToRun_buffer slotCapacity env r { a with phase := .idle }
  simp only [spillOverCap, SpimiTermBuffer.maybeSpill]
  split
  · rw [hrun]
    cases hspill : SpimiTermBuffer.spillToRun env a.buffer with
    | mk st b =>
        rw [hspill] at hbuffer
        cases st with
        | ok _ => exact hbuffer
        | error s => simp only [hbuffer]
  · rfl

/-- A token: its report, then the check on the total that the report left. -/
theorem token_buffer (hidle : a.phase = .idle) (call : TokenCall) (slotCapacity : Nat)
    (env : SpillEnv) {b : Buffer}
    (hcall : tokenCall { overCap := (a.step r (.addToken call)).1.overCap
                         slotCapacity := slotCapacity, spill := env } a.buffer call = some b) :
    ((a.step r (.addToken call)).2.step (a.step r (.addToken call)).1
      (.spillOverCap slotCapacity env)).2.buffer = b := by
  rw [tokenCall_eq] at hcall
  simp only [step, if_pos hidle] at hcall ⊢
  rw [addToken] at hcall ⊢
  cases haccepted : admitToken a.buffer call.term with
  | inl b' =>
      simp only [haccepted, Option.some.injEq] at hcall ⊢
      simp [hidle, hcall]
  | inr x =>
      simp only [haccepted] at hcall ⊢
      cases happend : SpimiTermBuffer.appendTo x.1 x.2 call.docid call.pos with
      | none => simp [SpimiTermBuffer.accumulate, happend] at hcall
      | some b' =>
          simp only [SpimiTermBuffer.accumulate, happend, Option.map_some,
            Option.some.injEq] at hcall ⊢
          rw [if_pos (by simp), spillOverCap_buffer, reportArenaDelta_buffer]
          exact hcall

/-- The buffer behind the flush of a merging drain. -/
def flushed (env : SpillEnv) (b : Buffer) : Buffer :=
  if b.touchedIds = [] then b else
    match SpimiTermBuffer.spillToRun env b with
    | (.ok (), b) => b
    | (.error s, b) => SpimiTermBuffer.latch b s

private theorem mergeAll_eq (env : SpimiTermBuffer.DrainEnv) (plan : TermPostings → List Nat)
    (allowStream : Bool) (b : Buffer) :
    SpimiTermBuffer.mergeAll env plan allowStream b =
      match (flushed env.spill b).spillStatus with
      | some s => some (.error s, [], flushed env.spill b)
      | none =>
          let b := { flushed env.spill b with slots := [], freeSlots := [], slotOf := [] }
          (mergeRuns { vocab := b.vocab, hasPositions := b.hasPositions, plan := plan
                       allowStream := allowStream } env.readSize b.runs).map
            fun r => (r.1, r.2, b) := rfl

/-- The account flushes as the buffer does. -/
theorem flushResident_buffer (slotCapacity : Nat) (env : SpillEnv) (r : MemoryReporter)
    (a : TermAccount) :
    (a.flushResident slotCapacity env r).2.buffer = flushed env a.buffer := by
  obtain ⟨r', a', hrun, hbuffer⟩ := spillToRun_buffer slotCapacity env r a
  by_cases htouched : a.buffer.touchedIds = []
  · simp only [flushResident, flushed, if_pos htouched]
  · simp only [flushResident, flushed, if_neg htouched, hrun]
    cases hspill : SpimiTermBuffer.spillToRun env a.buffer with
    | mk st b =>
        rw [hspill] at hbuffer
        cases st with
        | ok _ => exact hbuffer
        | error s => simp only [hbuffer]

/-- The pieces of a drain, in the order they can run; those that do not follow the
phase fall away. -/
def drainPieces (finalize : Bool) (slotCapacity : Nat) (env : SpillEnv) (failed : Option Status) :
    List TermStep :=
  [.beginDrain finalize, .endDrainSorted, .flushResident slotCapacity env, .freeSlotIndex failed]

/-- The steps of one call. -/
def steps (x : MemoryReporter × TermAccount) (pieces : List TermStep) :
    MemoryReporter × TermAccount :=
  pieces.foldl (fun x s => x.2.step x.1 s) x

private theorem freeSlotIndex_buffer (failed : Option Status) (a : TermAccount) :
    (a.freeSlotIndex failed r).2.buffer =
      { a.buffer with slots := [], freeSlots := [], slotOf := []
                      spillStatus := a.buffer.spillStatus.or failed } :=
  reportArenaDelta_buffer 0 _

/-- A merging drain from its flush on.  An error before the merge is latched already. -/
private theorem merge_buffer (hphase : a.phase = .flushing) (env : SpimiTermBuffer.DrainEnv)
    (plan : TermPostings → List Nat) (allowStream : Bool) (slotCapacity : Nat)
    (failed : Option Status) {res : Result Unit × List Emitted × Buffer}
    (h : SpimiTermBuffer.mergeAll env plan allowStream a.buffer = some res) :
    (steps (r, a) [.flushResident slotCapacity env.spill, .freeSlotIndex failed]).2.buffer =
      { res.2.2 with spillStatus := res.2.2.spillStatus.or failed } := by
  have hflush := flushResident_buffer slotCapacity env.spill r a
  have hnext : (a.flushResident slotCapacity env.spill r).2.phase =
      if (a.flushResident slotCapacity env.spill r).2.buffer.spillStatus = none then .freeing
      else .idle := rfl
  simp only [steps, List.foldl_cons, List.foldl_nil, step, if_pos hphase]
  rw [mergeAll_eq] at h
  rw [hflush] at hnext
  cases hstatus : (flushed env.spill a.buffer).spillStatus with
  | some s =>
      simp only [hstatus, Option.some.injEq] at h
      rw [hstatus, if_neg (by simp)] at hnext
      rw [hnext, if_neg (by decide), ← h, hflush, hstatus, Option.some_or, ← hstatus]
  | none =>
      simp only [hstatus, Option.map_eq_some_iff] at h
      obtain ⟨x, -, rfl⟩ := h
      rw [hstatus, if_pos rfl] at hnext
      rw [hnext, if_pos rfl, freeSlotIndex_buffer, hflush, hstatus]

/-- Pieces that do not follow the phase fall away. -/
private theorem steps_idle (hphase : a.phase = .idle) (slotCapacity : Nat) (env : SpillEnv)
    (failed : Option Status) :
    steps (r, a) [.flushResident slotCapacity env, .freeSlotIndex failed] = (r, a) := by
  simp [steps, step, hphase]

/-- A drain, from its first check on: turned away, in memory, or merging. -/
private theorem drain_buffer (hidle : a.phase = .idle) (finalize : Bool) (slotCapacity : Nat)
    (env : SpillEnv) (failed : Option Status) :
    (steps (r, a) (drainPieces finalize slotCapacity env failed)).2.buffer =
      if a.buffer.drained then (a.beginDrain finalize).buffer
      else if a.buffer.runs = [] ∧ a.buffer.spillStatus = none then
        (SpimiTermBuffer.drainSorted (fun _ => []) false { a.buffer with drained := true }).2
      else (steps (r, a.beginDrain finalize)
        [.flushResident slotCapacity env, .freeSlotIndex failed]).2.buffer := by
  have hbegin : steps (r, a) (drainPieces finalize slotCapacity env failed) =
      steps ((a.beginDrain finalize).step r .endDrainSorted)
        [.flushResident slotCapacity env, .freeSlotIndex failed] := by
    simp only [steps, drainPieces, List.foldl_cons, List.foldl_nil, step, if_pos hidle]
  rw [hbegin]
  cases hdrained : a.buffer.drained with
  | true =>
      have hphase : (a.beginDrain finalize).phase = .idle := by
        cases finalize <;> simp [beginDrain, hdrained, hidle]
      simp only [step, hphase, reduceCtorEq, if_false, if_true]
      rw [steps_idle hphase]
  | false =>
      simp only [Bool.false_eq_true, if_false]
      split
      case _ hmem =>
          have hphase : (a.beginDrain finalize).phase = .emitting := by
            simp [beginDrain, hdrained, hmem]
          simp only [step, hphase, if_true]
          rw [steps_idle (by simp [endDrainSorted]), endDrainSorted, reportArenaDelta_buffer]
          simp [beginDrain, hdrained]
      case _ hmem =>
          have hphase : (a.beginDrain finalize).phase = .flushing := by
            simp only [beginDrain, hdrained, Bool.false_eq_true, if_false, if_neg hmem]
          simp only [step, hphase, reduceCtorEq, if_false]

/-- A streaming drain. -/
theorem forEachTermSorted_buffer (hidle : a.phase = .idle) (env : SpimiTermBuffer.DrainEnv)
    (plan : TermPostings → List Nat) (slotCapacity : Nat)
    {res : Result Unit × List Emitted × Buffer}
    (h : SpimiTermBuffer.forEachTermSorted env plan a.buffer = some res) :
    (steps (r, a) (drainPieces false slotCapacity env.spill none)).2.buffer = res.2.2 := by
  rw [drain_buffer hidle]
  rw [SpimiTermBuffer.forEachTermSorted] at h
  cases hdrained : a.buffer.drained with
  | true =>
      simp only [hdrained, if_true, Option.some.injEq] at h
      simp [beginDrain, hdrained, ← h]
  | false =>
      simp only [hdrained, Bool.false_eq_true, if_false] at h ⊢
      split
      case _ hmem =>
          rw [if_pos hmem, Option.some.injEq] at h
          rw [← h]
          rfl
      case _ hmem =>
          rw [if_neg hmem] at h
          have hstart : (a.beginDrain false).phase = .flushing ∧
              (a.beginDrain false).buffer = { a.buffer with drained := true } := by
            simp only [beginDrain, hdrained, Bool.false_eq_true, if_false, if_neg hmem, and_self]
          rw [merge_buffer hstart.1 env plan true slotCapacity none (hstart.2 ▸ h), Option.or_none]

/-- A retaining drain, for the error its merge ends with, if any. -/
theorem finalizeSorted_buffer (hidle : a.phase = .idle) (env : SpimiTermBuffer.DrainEnv)
    (slotCapacity : Nat) {res : List Emitted × Buffer}
    (h : SpimiTermBuffer.finalizeSorted env a.buffer = some res) :
    ∃ failed, (steps (r, a) (drainPieces true slotCapacity env.spill failed)).2.buffer = res.2 := by
  simp only [drain_buffer hidle]
  rw [SpimiTermBuffer.finalizeSorted] at h
  cases hdrained : a.buffer.drained with
  | true =>
      simp only [hdrained, if_true, Option.some.injEq] at h
      exact ⟨none, by simp [beginDrain, hdrained, ← h]⟩
  | false =>
      simp only [hdrained, Bool.false_eq_true, if_false] at h ⊢
      split
      case _ hmem =>
          rw [if_pos hmem, Option.some.injEq] at h
          exact ⟨none, congrArg Prod.snd h⟩
      case _ hmem =>
          rw [if_neg hmem, Option.map_eq_some_iff] at h
          obtain ⟨⟨st, out, b⟩, hmerge, hres⟩ := h
          have hstart : (a.beginDrain true).phase = .flushing ∧
              (a.beginDrain true).buffer = { a.buffer with drained := true } := by
            simp only [beginDrain, hdrained, Bool.false_eq_true, if_false, if_neg hmem, and_self]
          have hsteps := fun failed => merge_buffer (r := r) hstart.1 env (fun _ => []) false
            slotCapacity failed (hstart.2 ▸ hmerge)
          cases st with
          | ok _ =>
              have hb : b = res.2 := congrArg Prod.snd hres
              exact ⟨none, by rw [hsteps none, Option.or_none, ← hb]⟩
          | error s =>
              have hb : SpimiTermBuffer.latch b s = res.2 := congrArg Prod.snd hres
              exact ⟨some s, by rw [hsteps (some s), ← hb, SpimiTermBuffer.latch]⟩

end TermAccount

/-! ## One piece of an append -/

namespace BytesAccount

/-- The bytes of the resident chunks, as far as they are reported. -/
def reportedResident (a : BytesAccount) : Int :=
  if a.hasReporter then (a.buffer.chunks.map List.length).sum else 0

/-- `ram_bytes_` counts the resident chunks, and none is left behind a spill; only a
resident append reaches the cap check. -/
structure Ok (a : BytesAccount) : Prop where
  resident : a.buffer.spilled = false → (a.buffer.chunks.map List.length).sum = a.buffer.ramBytes
  spilled : a.buffer.spilled = true → a.buffer.chunks = []
  atGate : a.atGate = true → a.buffer.spilled = false

/-- What a step of a byte buffer keeps. -/
structure Kept (r : MemoryReporter) (a : BytesAccount) (r' : MemoryReporter)
    (a' : BytesAccount) : Prop where
  books : Books r a.reportedResident r' a'.reportedResident
  ok : a'.Ok

variable {r : MemoryReporter} {a : BytesAccount}

/-- Appending bytes reports their growth. -/
theorem append_kept (h : a.Ok) (hidle : a.atGate = false) (v : Bytes) (written : Bool) :
    Kept r a (a.append r v written).1 (a.append r v written).2 := by
  cases hspilled : a.buffer.spilled with
  | true =>
      cases written with
      | true =>
          simp only [append, hspilled, if_true]
          exact ⟨Books.refl r _, fun hram => by simp at hram, fun _ => h.spilled hspilled,
            fun hgate => by simp [hidle] at hgate⟩
      | false =>
          simp only [append, hspilled, if_true, Bool.false_eq_true, if_false]
          exact ⟨Books.refl r _, h⟩
  | false =>
      by_cases hempty : v = []
      · simp only [append, hspilled, Bool.false_eq_true, if_false, if_pos hempty]
        exact ⟨Books.refl r _, h.resident, h.spilled, fun _ => hspilled⟩
      · simp only [append, hspilled, Bool.false_eq_true, if_false, if_neg hempty]
        constructor
        · cases hattached : a.hasReporter with
          | false => exact .inl ⟨rfl, by simp [reportedResident, hattached]⟩
          | true => exact .inr (by simp [reportedResident, hattached])
        · constructor
          · intro _
            simp [h.resident hspilled]
          · intro hdisk
            simp at hdisk
          · intro _
            rfl

theorem spillOverCap_kept (h : a.Ok) (hgate : a.atGate = true) (written : Bool) :
    Kept r a (a.spillOverCap r written).1 (a.spillOverCap r written).2 := by
  have hbytes := h.resident (h.atGate hgate)
  rw [spillOverCap]
  split
  · constructor
    · cases hattached : a.hasReporter with
      | false => exact .inl ⟨rfl, by simp [reportedResident, hattached]⟩
      | true =>
          right
          simp [reportedResident, hattached, SpillableByteBuffer.spillToDisk, hbytes]
    · constructor
      · intro hram
        simp [SpillableByteBuffer.spillToDisk] at hram
      · intro _
        rfl
      · intro hd
        simp at hd
  · exact ⟨Books.refl r _, h.resident, h.spilled, fun hd => by simp at hd⟩

/-- **One piece of an append** books what it changes. -/
theorem step_kept (h : a.Ok) (s : BytesStep) : Kept r a (a.step r s).1 (a.step r s).2 := by
  cases s with
  | append v written =>
      simp only [step]
      split
      · exact ⟨Books.refl r _, h⟩
      case _ hidle => exact append_kept h (by simpa using hidle) v written
  | spillOverCap written =>
      simp only [step]
      split
      case _ hgate => exact spillOverCap_kept h hgate written
      case _ => exact ⟨Books.refl r _, h⟩

private theorem spillOverCap_buffer (r : MemoryReporter) (a : BytesAccount) :
    (a.spillOverCap r true).2.buffer =
      if a.overCap r then a.buffer.spillToDisk else a.buffer := by
  rw [spillOverCap, Bool.and_true]
  split <;> rfl

/-- An append whose temp file takes the bytes is `append_move` at the answer of the cap
check. -/
theorem append_buffer (hidle : a.atGate = false) (v : Bytes) :
    ((a.step r (.append v true)).2.step (a.step r (.append v true)).1
        (.spillOverCap true)).2.buffer =
      a.buffer.appendMove ((a.step r (.append v true)).2.overCap (a.step r (.append v true)).1)
        v := by
  cases hspilled : a.buffer.spilled with
  | true => simp [step, append, hidle, hspilled, SpillableByteBuffer.appendMove]
  | false =>
      by_cases hempty : v = []
      · simp only [step, append, hidle, hspilled, Bool.false_eq_true, if_false, if_pos hempty,
          if_true, spillOverCap_buffer, SpillableByteBuffer.appendMove]
      · simp only [step, append, hidle, hspilled, Bool.false_eq_true, if_false, if_neg hempty,
          if_true, spillOverCap_buffer, SpillableByteBuffer.appendMove]

/-- A destroyed buffer takes back what it reported. -/
theorem destroy_books (h : a.Ok) : Books r a.reportedResident (a.destroy r) 0 := by
  rw [destroy]
  cases hattached : a.hasReporter with
  | false =>
      left
      simp [reportedResident, hattached]
  | true =>
      cases hspilled : a.buffer.spilled with
      | true =>
          left
          simp [reportedResident, hattached, h.spilled hspilled]
      | false =>
          have hbytes := h.resident hspilled
          by_cases hzero : a.buffer.ramBytes = 0
          · left
            simp [reportedResident, hattached, hbytes, hzero]
          · right
            have hpos : 0 < a.buffer.ramBytes := Nat.pos_of_ne_zero hzero
            simp [reportedResident, hattached, hbytes, hpos]

end BytesAccount

/-! ## All buffers of a writer -/

/-- A live buffer. -/
inductive Account where
  | term (a : TermAccount)
  | bytes (a : BytesAccount)

/-- The resident bytes the buffer last reported. -/
def Account.lastReported : Account → Int
  | .term a => a.reportedResident
  | .bytes a => a.reportedResident

/-- The invariant of either kind of buffer. -/
def Account.Ok : Account → Prop
  | .term a => a.Ok
  | .bytes a => a.Ok

/-- What was last reported is never negative. -/
theorem Account.Ok.nonneg {a : Account} (h : a.Ok) : 0 ≤ a.lastReported := by
  cases a with
  | term a => exact TermAccount.Ok.nonneg h
  | bytes a =>
      simp only [Account.lastReported, BytesAccount.reportedResident]
      split
      · exact Int.natCast_nonneg _
      · exact le_refl 0

/-- The reporter and the buffers made so far; a destroyed one is `none`. -/
structure Accounts where
  reporter : MemoryReporter
  objects : List (Option Account) := []

/-- What may happen next, to any buffer. -/
inductive Event where
  | newBorrowed (vocab : List Bytes) (hasPositions : Bool) (spillThresholdBytes : Nat)
      (hasReporter : Bool) (slotCapacity : Nat)
  | newInterning (hasPositions : Bool) (spillThresholdBytes : Nat) (hasReporter : Bool)
  | newBytes (capBytes : Nat) (hasReporter : Bool)
  | term (i : Nat) (s : TermStep)
  | bytes (i : Nat) (s : BytesStep)
  | destroy (i : Nat)

namespace Accounts

/-- No buffers. -/
def start (capBytes : Nat) (mirrored : Bool) : Accounts :=
  { reporter := { capBytes := capBytes, mirrored := mirrored } }

/-- A new buffer and its report. -/
def add (w : Accounts) (x : MemoryReporter × Account) : Accounts :=
  { reporter := x.1, objects := w.objects ++ [some x.2] }

/-- One event.  The constructor over a borrowed vocabulary reports the slot index at
once.  An event for a buffer that is not there changes nothing. -/
def step (w : Accounts) : Event → Accounts
  | .newBorrowed vocab hasPositions threshold hasReporter slotCapacity =>
      let b := Buffer.borrowed vocab hasPositions threshold hasReporter
      let (r, a) := TermAccount.reportArenaDelta slotCapacity w.reporter { buffer := b }
      w.add (r, .term a)
  | .newInterning hasPositions threshold hasReporter =>
      w.add (w.reporter, .term { buffer := Buffer.interning hasPositions threshold hasReporter })
  | .newBytes capBytes hasReporter =>
      w.add (w.reporter, .bytes { capBytes := capBytes, hasReporter := hasReporter })
  | .term i s =>
      match w.objects[i]? with
      | some (some (.term a)) =>
          let (r, a) := a.step w.reporter s
          { reporter := r, objects := w.objects.set i (some (.term a)) }
      | _ => w
  | .bytes i s =>
      match w.objects[i]? with
      | some (some (.bytes a)) =>
          let (r, a) := a.step w.reporter s
          { reporter := r, objects := w.objects.set i (some (.bytes a)) }
      | _ => w
  | .destroy i =>
      match w.objects[i]? with
      | some (some (.term a)) =>
          { reporter := a.destroy w.reporter, objects := w.objects.set i none }
      | some (some (.bytes a)) =>
          { reporter := a.destroy w.reporter, objects := w.objects.set i none }
      | _ => w

/-- Events one after the other. -/
def run (w : Accounts) (events : List Event) : Accounts := events.foldl step w

/-- The counter is the balance of the live buffers, and so are the mirrored deltas. -/
structure Balanced (w : Accounts) : Prop where
  total : w.reporter.current = balance Account.lastReported w.objects
  live : ∀ a, some a ∈ w.objects → a.Ok
  mirror : w.reporter.consumed.sum = if w.reporter.mirrored then w.reporter.current else 0

variable {w : Accounts}

/-- Before any event the books balance. -/
theorem balanced_start (capBytes : Nat) (mirrored : Bool) : Balanced (start capBytes mirrored) where
  total := rfl
  live a h := by simp [start] at h
  mirror := by cases mirrored <;> rfl

private theorem Books.current {r r' : MemoryReporter} {c c' : Int} (h : Books r c r' c') :
    r'.current = r.current + (c' - c) := by
  cases h with
  | inl h => simp [h.1, h.2]
  | inr h => simp [h, MemoryReporter.report]

private theorem Books.mirror {r r' : MemoryReporter} {c c' : Int} (h : Books r c r' c')
    (hmirror : r.consumed.sum = if r.mirrored then r.current else 0) :
    r'.consumed.sum = if r'.mirrored then r'.current else 0 := by
  cases h with
  | inl h => rw [h.1, hmirror]
  | inr h =>
      rw [h, MemoryReporter.report]
      cases hm : r.mirrored with
      | false => simpa [hm] using hmirror
      | true =>
          rw [hm] at hmirror
          simpa using hmirror

/-- Replacing an object keeps the balance when the replacement is booked. -/
theorem Balanced.set (h : Balanced w) {i : Nat} {e e' : Option Account} {r' : MemoryReporter}
    (hi : w.objects[i]? = some e)
    (hbooks : Books w.reporter (amountOf Account.lastReported e) r'
      (amountOf Account.lastReported e'))
    (hok : ∀ a, e' = some a → a.Ok) :
    Balanced { reporter := r', objects := w.objects.set i e' } where
  total := by
    rw [Books.current hbooks, balance_set _ hi, h.total]
  live a ha := by
    cases List.mem_or_eq_of_mem_set ha with
    | inl hold => exact h.live a hold
    | inr hnew => exact hok a hnew.symm
  mirror := Books.mirror hbooks h.mirror

/-- So does a new object that books its first figure. -/
theorem Balanced.add (h : Balanced w) {x : MemoryReporter × Account}
    (hbooks : Books w.reporter 0 x.1 x.2.lastReported) (hok : x.2.Ok) : Balanced (w.add x) where
  total := by
    simp only [Accounts.add, balance_append, balance_cons, balance_nil, amountOf_some,
      Books.current hbooks, h.total]
    omega
  live a ha := by
    cases List.mem_append.mp ha with
    | inl hold => exact h.live a hold
    | inr hnew =>
        have heq : a = x.2 := by simpa using hnew
        exact heq ▸ hok
  mirror := Books.mirror hbooks h.mirror

/-- **One event** keeps the balance. -/
theorem Balanced.step (h : Balanced w) (e : Event) : Balanced (w.step e) := by
  cases e with
  | newBorrowed vocab hasPositions threshold hasReporter slotCapacity =>
      have hnew : TermAccount.Ok
          { buffer := Buffer.borrowed vocab hasPositions threshold hasReporter } :=
        ⟨le_refl 0, fun _ => rfl⟩
      have hkept := TermAccount.reportArenaDelta_kept (r := w.reporter) hnew slotCapacity rfl rfl
      exact h.add hkept.books hkept.ok
  | newInterning hasPositions threshold hasReporter =>
      apply h.add
      · exact Books.refl w.reporter 0
      · exact ⟨le_refl 0, fun _ => rfl⟩
  | newBytes capBytes hasReporter =>
      apply h.add
      · left
        simp [Account.lastReported, BytesAccount.reportedResident]
      · exact ⟨fun _ => rfl, fun _ => rfl, fun _ => rfl⟩
  | term i s =>
      simp only [Accounts.step]
      split
      case _ a hi =>
          have hkept := TermAccount.step_kept (r := w.reporter)
            (h.live (.term a) (List.mem_of_getElem? hi)) s
          apply h.set hi
          · exact hkept.books
          · intro _ heq
            exact Option.some.inj heq ▸ hkept.ok
      case _ => exact h
  | bytes i s =>
      simp only [Accounts.step]
      split
      case _ a hi =>
          have hkept := BytesAccount.step_kept (r := w.reporter)
            (h.live (.bytes a) (List.mem_of_getElem? hi)) s
          apply h.set hi
          · exact hkept.books
          · intro _ heq
            exact Option.some.inj heq ▸ hkept.ok
      case _ => exact h
  | destroy i =>
      simp only [Accounts.step]
      split
      case _ a hi =>
          apply h.set hi
          · exact TermAccount.destroy_books (h.live (.term a) (List.mem_of_getElem? hi))
          · intro _ hnone
            cases hnone
      case _ a hi =>
          apply h.set hi
          · exact BytesAccount.destroy_books (h.live (.bytes a) (List.mem_of_getElem? hi))
          · intro _ hnone
            cases hnone
      case _ => exact h

/-- **Every run** keeps the balance. -/
theorem Balanced.run (h : Balanced w) (events : List Event) : Balanced (w.run events) := by
  induction events generalizing w with
  | nil => exact h
  | cons e events ih => exact ih (h.step e)

/-- **Memory accounting balances**: after any events the counter is the sum of what the
live buffers last reported, none of which is negative; with no buffer left it is back
at its start and the mirrored deltas cancel. -/
theorem accounts_balance (capBytes : Nat) (mirrored : Bool) (events : List Event) :
    let w := (start capBytes mirrored).run events
    w.reporter.current = balance Account.lastReported w.objects ∧
      (∀ a, some a ∈ w.objects → 0 ≤ a.lastReported) ∧
      ((∀ e ∈ w.objects, e = none) →
        w.reporter.current = (start capBytes mirrored).reporter.current ∧
          w.reporter.consumed.sum = 0) := by
  intro w
  have h : Balanced w := (balanced_start capBytes mirrored).run events
  apply And.intro h.total
  apply And.intro (fun a ha => (h.live a ha).nonneg)
  intro hclosed
  have hzero : w.reporter.current = 0 := h.total.trans (balance_of_closed _ hclosed)
  apply And.intro hzero
  rw [h.mirror, hzero, ite_self]

/-- Over the cap the byte buffer's spill fails and the term buffer's succeeds. -/
def failedSpill : List Event :=
  [.newBorrowed [[97]] true 0 true 1, .newBytes 1000000 true,
    .term 0 (.addToken { term := .id 0, docid := 3, pos := 1, slotCapacity := 1
                         left := Buffer.interning true 0 true }),
    .bytes 1 (.append [1, 2, 3] true), .bytes 1 (.spillOverCap false), .term 0 (.spillOverCap 1 {}),
    .destroy 0, .destroy 1]

theorem accounts_balance_failedSpill :
    ((start 32000 true).run failedSpill).reporter.consumed = [4, 32768, 3, -32768, -4, -3] ∧
      ((start 32000 true).run failedSpill).reporter.current = 0 ∧
      ((start 32000 true).run failedSpill).reporter.consumed.sum = 0 := by
  apply And.intro (by decide +kernel)
  have hclosed : ∀ e ∈ ((start 32000 true).run failedSpill).objects, e = none := by
    have hall : ((start 32000 true).run failedSpill).objects.all Option.isNone = true := by
      decide +kernel
    simpa using hall
  exact (accounts_balance 32000 true failedSpill).2.2 hclosed

end Accounts

end Snii.Writer
