import Snii.Writer.MergeRecords
import Snii.Writer.SlotPoolRuns

/-!
# The drain contract

A run of `add_token` calls is followed by any sequence of drains.  A call fails when it
is refused or when the spill it starts fails; the status is latched exactly when some
call has failed (`Latches`).  From then on every drain emits nothing and reports an
error; without a failed call the first drain is the only one that can emit.
-/

namespace Snii.Writer.SpimiTermBuffer

open Snii.Lib.ByteReader Snii.Common Snii.Writer.SpillRunCodec

/-! ## Failed calls -/

/-- The call is refused, or starts a spill that fails. -/
def AddCall.Fails (b : Buffer) (c : AddCall) : Prop :=
  c.token b = none ∨ ∃ t b1 s, c.token b = some t ∧
    appendTo (c.interned b) t.termId t.docid t.pos = some b1 ∧
    (spillGate c.env b1 && b1.spillStatus.isNone) = true ∧ (spillToRun c.env.spill b1).1 = .error s

/-- Some call of the run fails. -/
def SomeFails : Buffer → List AddCall → Prop
  | _, [] => False
  | b, c :: calls => c.Fails b ∨ ∃ b', c.run b = some b' ∧ SomeFails b' calls

/-! ## Drains -/

/-- One drain, with what the surroundings answer and how the callback pulls. -/
inductive DrainCall where
  | forEachTermSorted (env : DrainEnv) (plan : TermPostings → List Nat)
  | finalizeSorted (env : DrainEnv)

/-- The terms a drain emitted, the status it reports (`none` is `OK`): the one returned
by `for_each_term_sorted`, or `status()` after `finalize_sorted`; and the buffer after it. -/
structure DrainResult where
  emitted : List Emitted
  report : Option Status
  after : Buffer

def statusOf : Result Unit → Option Status
  | .ok () => none
  | .error s => some s

def DrainCall.run (b : Buffer) : DrainCall → Option DrainResult
  | .forEachTermSorted env plan => (Snii.Writer.SpimiTermBuffer.forEachTermSorted env plan b).map
      fun r => ⟨r.2.1, statusOf r.1, r.2.2⟩
  | .finalizeSorted env => (Snii.Writer.SpimiTermBuffer.finalizeSorted env b).map
      fun r => ⟨r.1, r.2.spillStatus, r.2⟩

def runDrains : Buffer → List DrainCall → Option (List DrainResult)
  | _, [] => some []
  | b, d :: drains => (d.run b).bind fun r => (runDrains r.after drains).map (r :: ·)

/-- The drain emits nothing and reports an error. -/
def DrainResult.Suppressed (r : DrainResult) : Prop := r.emitted = [] ∧ r.report ≠ none

/-! ## The latch -/

variable {b b' : Buffer}

theorem takeTerms_frame (ids : List Nat) (b : Buffer) :
    (takeTerms b ids).2.spillStatus = b.spillStatus ∧ (takeTerms b ids).2.drained = b.drained := by
  induction ids generalizing b with
  | nil => exact ⟨rfl, rfl⟩
  | cons id ids ih =>
      have hone : (releaseTerm b id).spillStatus = b.spillStatus ∧
          (releaseTerm b id).drained = b.drained := by
        unfold releaseTerm
        by_cases hslot : b.slotOf.getD id 0 = 0
        · rw [if_pos hslot]
          exact ⟨rfl, rfl⟩
        · rw [if_neg hslot]
          exact ⟨rfl, rfl⟩
      have hrest := ih (releaseTerm b id)
      exact ⟨hrest.1.trans hone.1, hrest.2.trans hone.2⟩

theorem spillToRun_frame (env : SpillEnv) (b : Buffer) :
    (spillToRun env b).2.spillStatus = b.spillStatus ∧
      (spillToRun env b).2.drained = b.drained := by
  rcases spillToRun_cases env b with ⟨s, heq⟩ | ⟨r, file, heq⟩
  · rw [heq]
    exact ⟨rfl, rfl⟩
  · rw [heq]
    exact takeTerms_frame (sortedIds b) b

theorem appendTo_frame {termId docid pos : Nat} (h : appendTo b termId docid pos = some b') :
    b'.spillStatus = b.spillStatus ∧ b'.drained = b.drained := by
  have hslot : (termSlot b termId).2.2.spillStatus = b.spillStatus ∧
      (termSlot b termId).2.2.drained = b.drained := by
    unfold termSlot
    by_cases henc : b.slotOf.getD termId 0 ≠ 0
    · simp only [if_pos henc, and_self]
    · simp only [if_neg henc]
      cases b.freeSlots <;> exact ⟨rfl, rfl⟩
  have hclaimed : (claimed b termId).spillStatus = b.spillStatus ∧
      (claimed b termId).drained = b.drained := by
    unfold claimed
    by_cases hnew : (termSlot b termId).2.1 = true
    · rw [if_pos hnew]
      exact hslot
    · rw [if_neg hnew]
      exact hslot
  rw [appendTo_eq, Option.map_eq_some_iff] at h
  obtain ⟨r, -, rfl⟩ := h
  exact hclaimed

/-- A spill latches its error, when it is started and fails. -/
theorem maybeSpill_status (env : TokenEnv) (b : Buffer) :
    ((maybeSpill env b).spillStatus ≠ none ↔ b.spillStatus ≠ none ∨
      ((spillGate env b && b.spillStatus.isNone) = true ∧
        ∃ s, (spillToRun env.spill b).1 = .error s)) ∧
      (maybeSpill env b).drained = b.drained := by
  obtain ⟨hstatus, hdrained⟩ := spillToRun_frame env.spill b
  unfold maybeSpill
  by_cases hgate : (spillGate env b && b.spillStatus.isNone) = true
  · have hnone : b.spillStatus = none := by
      simp only [Bool.and_eq_true, Option.isNone_iff_eq_none] at hgate
      exact hgate.2
    rw [if_pos hgate]
    generalize spillToRun env.spill b = spilled at hstatus hdrained ⊢
    obtain ⟨r, b1⟩ := spilled
    cases r with
    | ok u =>
        refine ⟨iff_of_false (not_not.mpr (hstatus.trans hnone)) ?_, hdrained⟩
        simp [hnone]
    | error s => exact ⟨iff_of_true (Option.some_ne_none s) (Or.inr ⟨hgate, s, rfl⟩), hdrained⟩
  · rw [if_neg hgate]
    simp [hgate]

/-- The status is latched when it was, or when the call fails. -/
theorem AddCall.run_status {c : AddCall} (h : c.run b = some b') :
    (b'.spillStatus ≠ none ↔ b.spillStatus ≠ none ∨ c.Fails b) ∧ b'.drained = b.drained := by
  cases htok : c.token b with
  | none =>
      obtain ⟨s, heq⟩ := AddCall.run_of_refused htok
      rw [heq, Option.some.injEq] at h
      subst h
      have hfails : c.Fails b := Or.inl htok
      refine ⟨iff_of_true ?_ (Or.inr hfails), rfl⟩
      cases hst : b.spillStatus <;> simp [latch, hst]
  | some t =>
      have hinterned : (c.interned b).spillStatus = b.spillStatus ∧
          (c.interned b).drained = b.drained := by
        cases c with
        | byId => exact ⟨rfl, rfl⟩
        | byString => rw [AddCall.interned]; split <;> exact ⟨rfl, rfl⟩
      rw [AddCall.run_of_token htok, accumulate, Option.map_eq_some_iff] at h
      obtain ⟨b1, happ, rfl⟩ := h
      obtain ⟨hstatus, hdrained⟩ := appendTo_frame happ
      obtain ⟨hspill, hkept⟩ := maybeSpill_status c.env b1
      refine ⟨?_, hkept.trans (hdrained.trans hinterned.2)⟩
      rw [hspill, hstatus, hinterned.1]
      apply or_congr_right
      rw [AddCall.Fails, htok]
      simp [happ, hstatus, hinterned.1]

/-- **The latch**: after a run the status is an error exactly when some call failed. -/
theorem runAdds_status {calls : List AddCall} (h : runAdds b calls = some b') :
    (b'.spillStatus ≠ none ↔ b.spillStatus ≠ none ∨ SomeFails b calls) ∧
      b'.drained = b.drained := by
  induction calls generalizing b with
  | nil =>
      cases h
      exact ⟨by simp [SomeFails], rfl⟩
  | cons c calls ih =>
      obtain ⟨b1, hstep, hrest⟩ := Option.bind_eq_some_iff.mp h
      obtain ⟨hlatch, hdrained⟩ := AddCall.run_status hstep
      obtain ⟨hlatch', hdrained'⟩ := ih hrest
      refine ⟨?_, hdrained'.trans hdrained⟩
      rw [hlatch', hlatch, or_assoc, SomeFails]
      simp [hstep]

/-! ## One drain -/

/-- The buffer after `merge_runs` has flushed what is resident. -/
def flushed (env : SpillEnv) (b : Buffer) : Buffer :=
  if b.touchedIds = [] then b else
    match spillToRun env b with
    | (.ok (), b) => b
    | (.error s, b) => latch b s

/-- `merge_runs` after the flush. -/
def mergeFlushed (env : DrainEnv) (plan : TermPostings → List Nat) (allowStream : Bool)
    (b : Buffer) : Option (Result Unit × List Emitted × Buffer) :=
  match b.spillStatus with
  | some s => some (.error s, [], b)
  | none =>
      let b := { b with slots := [], freeSlots := [], slotOf := [] }
      (mergeRuns { vocab := b.vocab, hasPositions := b.hasPositions, plan := plan
                   allowStream := allowStream } env.readSize b.runs).map
        fun r => (r.1, r.2, b)

theorem mergeAll_eq (env : DrainEnv) (plan : TermPostings → List Nat) (allowStream : Bool)
    (b : Buffer) :
    mergeAll env plan allowStream b = mergeFlushed env plan allowStream (flushed env.spill b) :=
  rfl

/-- A flush keeps a latched error and the flag. -/
theorem flushed_frame (env : SpillEnv) (b : Buffer) :
    (b.spillStatus ≠ none → (flushed env b).spillStatus ≠ none) ∧
      (flushed env b).drained = b.drained := by
  obtain ⟨hstatus, hdrained⟩ := spillToRun_frame env b
  unfold flushed
  by_cases htouched : b.touchedIds = []
  · rw [if_pos htouched]
    exact ⟨id, rfl⟩
  · rw [if_neg htouched]
    generalize spillToRun env b = spilled at hstatus hdrained ⊢
    obtain ⟨r, b1⟩ := spilled
    cases r with
    | ok u => exact ⟨fun h => by rw [← hstatus] at h; exact h, hdrained⟩
    | error s =>
        refine ⟨fun _ => ?_, hdrained⟩
        cases hst : b1.spillStatus <;> simp [latch, hst]

/-- A merge over a latched error returns it and emits nothing. -/
theorem mergeFlushed_latched (env : DrainEnv) (plan : TermPostings → List Nat)
    (allowStream : Bool) (h : b.spillStatus ≠ none) :
    ∃ s, mergeFlushed env plan allowStream b = some (.error s, [], b) := by
  obtain ⟨s, hs⟩ := Option.ne_none_iff_exists'.mp h
  unfold mergeFlushed
  rw [hs]
  exact ⟨s, rfl⟩

/-- A merge returns. -/
theorem mergeFlushed_returns (env : DrainEnv) (plan : TermPostings → List Nat)
    (allowStream : Bool) (b : Buffer) :
    ∃ r, mergeFlushed env plan allowStream b = some r ∧ r.2.2.drained = b.drained := by
  unfold mergeFlushed
  cases hst : b.spillStatus with
  | some s => exact ⟨_, rfl, rfl⟩
  | none =>
      obtain ⟨r, hr⟩ := Option.isSome_iff_exists.mp (mergeRuns_isSome
        { vocab := b.vocab, hasPositions := b.hasPositions, plan := plan
          allowStream := allowStream } env.readSize b.runs)
      exact ⟨_, Option.map_eq_some_iff.mpr ⟨r, hr, rfl⟩, rfl⟩

/-- The buffer once a drain has begun. -/
def begun (b : Buffer) : Buffer := { b with drained := true }

/-- A drained buffer refuses. -/
theorem forEachTermSorted_of_drained (env : DrainEnv) (plan : TermPostings → List Nat)
    (h : b.drained = true) :
    ∃ s, forEachTermSorted env plan b = some (.error s, [], b) :=
  ⟨_, if_pos h⟩

/-- `for_each_term_sorted` in memory, or over runs. -/
theorem forEachTermSorted_eq (env : DrainEnv) (plan : TermPostings → List Nat)
    (h : b.drained = false) :
    forEachTermSorted env plan b =
      if b.runs = [] ∧ b.spillStatus = none then some (.ok (), drainSorted plan true (begun b))
      else mergeFlushed env plan true (flushed env.spill (begun b)) := by
  unfold forEachTermSorted
  rw [if_neg (by rw [h]; exact Bool.false_ne_true)]
  rfl

/-- What `finalize_sorted` keeps of a merge: the terms, and an error in the status. -/
def latchReturned (r : Result Unit × List Emitted × Buffer) : List Emitted × Buffer :=
  match r with
  | (.ok (), out, b) => (out, b)
  | (.error s, out, b) => (out, latch b s)

/-- A drained buffer latches an error. -/
theorem finalizeSorted_of_drained (env : DrainEnv) (h : b.drained = true) :
    ∃ s, finalizeSorted env b = some ([], latch b s) :=
  ⟨_, if_pos h⟩

/-- `finalize_sorted` in memory, or over runs. -/
theorem finalizeSorted_eq (env : DrainEnv) (h : b.drained = false) :
    finalizeSorted env b =
      if b.runs = [] ∧ b.spillStatus = none then
        some (drainSorted (fun _ => []) false (begun b))
      else (mergeFlushed env (fun _ => []) false (flushed env.spill (begun b))).map
        latchReturned := by
  unfold finalizeSorted
  rw [if_neg (by rw [h]; exact Bool.false_ne_true)]
  rfl

/-- A latched status is an error. -/
theorem latch_status (b : Buffer) (s : Status) : (latch b s).spillStatus ≠ none := by
  cases hst : b.spillStatus <;> simp [latch, hst]

theorem drainSorted_drained (plan : TermPostings → List Nat) (allowStream : Bool) (b : Buffer) :
    (drainSorted plan allowStream b).2.drained = b.drained :=
  (takeTerms_frame (sortedIds b) b).2

theorem latchReturned_drained (r : Result Unit × List Emitted × Buffer) :
    (latchReturned r).2.drained = r.2.2.drained := by
  obtain ⟨st, out, b⟩ := r
  cases st <;> rfl

/-- The terms are taken out under the given ids. -/
theorem takeTerms_ids (ids : List Nat) (b : Buffer) :
    (takeTerms b ids).1.map Prod.fst = ids := by
  induction ids generalizing b with
  | nil => rfl
  | cons id ids ih =>
      show id :: (takeTerms (releaseTerm b id) ids).1.map Prod.fst = id :: ids
      rw [ih]

/-- Decoding names the term. -/
theorem toPostings_term (p : CompactPostingPool.Pool) (hasPositions : Bool) (term : Bytes) (t : Term)
    (allowStream : Bool) : (toPostings p hasPositions term t allowStream).term = term := by
  unfold toPostings
  dsimp only
  repeat' split
  all_goals rfl

/-- The terms that an in-memory drain of the buffer emits, in their order. -/
def touchedTerms (b : Buffer) : List Bytes := (sortedIds b).map fun id => b.vocab.getD id []

/-- A drain in memory emits one term for each id that was added to. -/
theorem drainSorted_terms (plan : TermPostings → List Nat) (allowStream : Bool) (b : Buffer) :
    (drainSorted plan allowStream b).1.map (·.postings.term) = touchedTerms b := by
  rw [touchedTerms, ← takeTerms_ids (sortedIds b) b, List.map_map]
  unfold drainSorted
  dsimp only
  rw [List.map_map]
  apply List.map_congr_left
  intro e _
  exact toPostings_term _ _ _ _ _

/-- **A first drain in memory** reports `OK` and emits the terms. -/
theorem DrainCall.run_memory (d : DrainCall) (hdrained : b.drained = false)
    (hstatus : b.spillStatus = none) (hruns : b.runs = []) :
    ∃ r, d.run b = some r ∧ r.report = none ∧
      r.emitted.map (·.postings.term) = touchedTerms b := by
  cases d with
  | forEachTermSorted env plan =>
      rw [DrainCall.run, forEachTermSorted_eq env plan hdrained, if_pos ⟨hruns, hstatus⟩]
      exact ⟨_, rfl, rfl, drainSorted_terms plan true (begun b)⟩
  | finalizeSorted env =>
      rw [DrainCall.run, finalizeSorted_eq env hdrained, if_pos ⟨hruns, hstatus⟩]
      exact ⟨_, rfl, (takeTerms_frame _ (begun b)).1.trans hstatus,
        drainSorted_terms (fun _ => []) false (begun b)⟩

/-- **Every drain returns**, and from then on the buffer counts as drained. -/
theorem DrainCall.run_returns (d : DrainCall) (b : Buffer) :
    ∃ r, d.run b = some r ∧ r.after.drained = true := by
  have hmerge : ∀ (env : DrainEnv) (plan : TermPostings → List Nat) (allowStream : Bool),
      ∃ r, mergeFlushed env plan allowStream (flushed env.spill (begun b)) = some r ∧
        r.2.2.drained = true := by
    intro env plan allowStream
    obtain ⟨r, hr, hdrained⟩ :=
      mergeFlushed_returns env plan allowStream (flushed env.spill (begun b))
    exact ⟨r, hr, hdrained.trans (flushed_frame env.spill (begun b)).2⟩
  cases hdrained : b.drained with
  | true =>
      cases d with
      | forEachTermSorted env plan =>
          obtain ⟨s, heq⟩ := forEachTermSorted_of_drained env plan hdrained
          exact ⟨_, by rw [DrainCall.run, heq]; rfl, hdrained⟩
      | finalizeSorted env =>
          obtain ⟨s, heq⟩ := finalizeSorted_of_drained env hdrained
          exact ⟨_, by rw [DrainCall.run, heq]; rfl, hdrained⟩
  | false =>
      cases d with
      | forEachTermSorted env plan =>
          rw [DrainCall.run, forEachTermSorted_eq env plan hdrained]
          by_cases hmemory : b.runs = [] ∧ b.spillStatus = none
          · rw [if_pos hmemory]
            exact ⟨_, rfl, drainSorted_drained plan true (begun b)⟩
          · rw [if_neg hmemory]
            obtain ⟨r, hr, hd⟩ := hmerge env plan true
            exact ⟨_, by rw [hr]; rfl, hd⟩
      | finalizeSorted env =>
          rw [DrainCall.run, finalizeSorted_eq env hdrained]
          by_cases hmemory : b.runs = [] ∧ b.spillStatus = none
          · rw [if_pos hmemory]
            exact ⟨_, rfl, drainSorted_drained (fun _ => []) false (begun b)⟩
          · rw [if_neg hmemory]
            obtain ⟨r, hr, hd⟩ := hmerge env (fun _ => []) false
            exact ⟨_, by rw [hr]; rfl, (latchReturned_drained r).trans hd⟩

/-- **A drain after the first one, or over a latched error**, emits nothing, reports an
error and keeps the error latched. -/
theorem DrainCall.run_suppressed (d : DrainCall)
    (h : b.drained = true ∨ b.spillStatus ≠ none) :
    ∃ r, d.run b = some r ∧ r.Suppressed ∧ r.after.drained = true ∧
      (b.spillStatus ≠ none → r.after.spillStatus ≠ none) := by
  cases hdrained : b.drained with
  | true =>
      cases d with
      | forEachTermSorted env plan =>
          obtain ⟨s, heq⟩ := forEachTermSorted_of_drained env plan hdrained
          exact ⟨_, by rw [DrainCall.run, heq]; rfl, ⟨rfl, Option.some_ne_none s⟩, hdrained, id⟩
      | finalizeSorted env =>
          obtain ⟨s, heq⟩ := finalizeSorted_of_drained env hdrained
          exact ⟨_, by rw [DrainCall.run, heq]; rfl, ⟨rfl, latch_status b s⟩, hdrained,
            fun _ => latch_status b s⟩
  | false =>
      have hlatched : b.spillStatus ≠ none :=
        h.resolve_left (by rw [hdrained]; exact Bool.false_ne_true)
      have hmemory : ¬ (b.runs = [] ∧ b.spillStatus = none) := fun hm => hlatched hm.2
      have hkept : ∀ env, (flushed env (begun b)).spillStatus ≠ none ∧
          (flushed env (begun b)).drained = true :=
        fun env => ⟨(flushed_frame env (begun b)).1 hlatched, (flushed_frame env (begun b)).2⟩
      cases d with
      | forEachTermSorted env plan =>
          obtain ⟨hst, hd⟩ := hkept env.spill
          obtain ⟨s, hs⟩ := mergeFlushed_latched env plan true hst
          rw [DrainCall.run, forEachTermSorted_eq env plan hdrained, if_neg hmemory, hs]
          exact ⟨_, rfl, ⟨rfl, Option.some_ne_none s⟩, hd, fun _ => hst⟩
      | finalizeSorted env =>
          obtain ⟨hst, hd⟩ := hkept env.spill
          obtain ⟨s, hs⟩ := mergeFlushed_latched env (fun _ => []) false hst
          rw [DrainCall.run, finalizeSorted_eq env hdrained, if_neg hmemory, hs]
          exact ⟨_, rfl, ⟨rfl, latch_status _ s⟩, hd, fun _ => latch_status _ s⟩

/-! ## Any sequence of drains -/

/-- **Drains over a drained buffer, or over a latched error**, are all suppressed. -/
theorem runDrains_suppressed (drains : List DrainCall)
    (h : b.drained = true ∨ b.spillStatus ≠ none) :
    ∃ rs, runDrains b drains = some rs ∧ (∀ r ∈ rs, r.Suppressed) ∧
      (b.spillStatus ≠ none → ∀ r ∈ rs, r.after.spillStatus ≠ none) := by
  induction drains generalizing b with
  | nil => exact ⟨[], rfl, by simp, by simp⟩
  | cons d drains ih =>
      obtain ⟨r, hr, hsupp, hdrained, hstatus⟩ := d.run_suppressed h
      obtain ⟨rs, hrs, hall, hstatuses⟩ := ih (Or.inl hdrained)
      refine ⟨r :: rs, ?_, ?_, ?_⟩
      · rw [runDrains, hr, Option.bind_some, hrs, Option.map_some]
      · exact List.forall_mem_cons.mpr ⟨hsupp, hall⟩
      · intro hb
        exact List.forall_mem_cons.mpr ⟨hstatus hb, hstatuses (hstatus hb)⟩

/-- One result a drain. -/
theorem length_runDrains {drains : List DrainCall} {rs : List DrainResult}
    (h : runDrains b drains = some rs) : rs.length = drains.length := by
  induction drains generalizing b rs with
  | nil =>
      cases h
      rfl
  | cons d drains ih =>
      obtain ⟨r, -, hrest⟩ := Option.bind_eq_some_iff.mp h
      obtain ⟨rs', hrs', rfl⟩ := Option.map_eq_some_iff.mp hrest
      rw [List.length_cons, List.length_cons, ih hrs']

/-- A new buffer has no error and is not drained. -/
theorem Constructed.clean (h : Constructed b) : b.spillStatus = none ∧ b.drained = false := by
  cases h <;> exact ⟨rfl, rfl⟩

/-- **A failed call suppresses all output.**  After any run of `add_token` calls every
sequence of drains returns.  If a call was refused or a spill failed, the status is
latched, and every drain emits nothing, reports an error and leaves it latched;
otherwise the first drain meets an undrained buffer whose status is `OK`, and if nothing
was spilled it reports `OK` and emits every term that was added to; the later drains emit
nothing and report an error. -/
theorem drains_after_run {start : Buffer} {calls : List AddCall} (hstart : Constructed start)
    (hrun : runAdds start calls = some b) (drains : List DrainCall) :
    ∃ rs, runDrains b drains = some rs ∧ rs.length = drains.length ∧
      (SomeFails start calls → b.spillStatus ≠ none ∧
        ∀ r ∈ rs, r.Suppressed ∧ r.after.spillStatus ≠ none) ∧
      (¬ SomeFails start calls → (∀ r ∈ rs.tail, r.Suppressed) ∧
        b.spillStatus = none ∧ b.drained = false ∧ rs.head? = drains.head?.bind (·.run b) ∧
        ∀ r ∈ rs.head?, b.runs = [] →
          r.report = none ∧ r.emitted.map (·.postings.term) = touchedTerms b) := by
  obtain ⟨hlatch, hundrained⟩ := runAdds_status hrun
  rw [hstart.clean.1] at hlatch
  by_cases hfails : SomeFails start calls
  · have hst : b.spillStatus ≠ none := hlatch.mpr (Or.inr hfails)
    obtain ⟨rs, hrs, hall, hstatuses⟩ := runDrains_suppressed drains (Or.inr hst)
    exact ⟨rs, hrs, length_runDrains hrs,
      fun _ => ⟨hst, fun r hr => ⟨hall r hr, hstatuses hst r hr⟩⟩, fun hnot => absurd hfails hnot⟩
  · have hst : b.spillStatus = none := by
      by_contra hne
      cases hlatch.mp hne with
      | inl hstart => exact hstart rfl
      | inr hsome => exact hfails hsome
    have hopen : b.drained = false := hundrained.trans hstart.clean.2
    cases drains with
    | nil =>
        exact ⟨[], rfl, rfl, fun h => absurd h hfails,
          fun _ => ⟨by simp, hst, hopen, rfl, by simp⟩⟩
    | cons d drains =>
        obtain ⟨r, hr, hdrained⟩ := d.run_returns b
        obtain ⟨rs, hrs, hall, -⟩ := runDrains_suppressed drains (Or.inl hdrained)
        have hwhole : runDrains b (d :: drains) = some (r :: rs) := by
          rw [runDrains, hr, Option.bind_some, hrs, Option.map_some]
        refine ⟨r :: rs, hwhole, length_runDrains hwhole, fun h => absurd h hfails,
          fun _ => ⟨hall, hst, hopen, hr.symm, ?_⟩⟩
        intro r' hr' hruns
        cases hr'
        obtain ⟨r', hrun', hreport, hemitted⟩ := d.run_memory hopen hst hruns
        rw [hr] at hrun'
        cases hrun'
        exact ⟨hreport, hemitted⟩

/-- An id outside the vocabulary, then a good token, then two drains. -/
theorem drains_after_run_rejected :
    ∃ b rs, runAdds (.borrowed [[97]] true 0 false) [.byId 5 0 0 {}, .byId 0 1 2 {}] = some b ∧
      runDrains b [.forEachTermSorted {} fun _ => [], .finalizeSorted {}] = some rs ∧
      rs.length = 2 ∧ ∀ r ∈ rs, r.emitted = [] ∧ r.report ≠ none ∧ r.after.spillStatus ≠ none := by
  obtain ⟨b, hrun⟩ : ∃ b, runAdds (.borrowed [[97]] true 0 false)
      [.byId 5 0 0 {}, .byId 0 1 2 {}] = some b :=
    Option.isSome_iff_exists.mp (by decide)
  obtain ⟨rs, hrs, hlen, hfailed, -⟩ := drains_after_run (Constructed.borrowed _ _ _ _) hrun
    [.forEachTermSorted {} fun _ => [], .finalizeSorted {}]
  have hfails : SomeFails (.borrowed [[97]] true 0 false) [.byId 5 0 0 {}, .byId 0 1 2 {}] :=
    Or.inl (Or.inl (by decide))
  exact ⟨b, rs, hrun, hrs, hlen, fun r hr =>
    ⟨((hfailed hfails).2 r hr).1.1, ((hfailed hfails).2 r hr).1.2, ((hfailed hfails).2 r hr).2⟩⟩

end Snii.Writer.SpimiTermBuffer
