import Snii.Io.MeteredRuns
import Snii.Lib.Requests

/-!
# Reads as requests

A computation over a file as the calls that it makes to its reader: single reads and
batches.  The same computation runs over the bytes of a file and over a metered reader of
that file, whatever its cache holds; the metered one ends in the state that its calls lead
to, with the same result (`serves_metered`).  A call is at most one serial round
(`rounds_of_calls`), and none where all of its blocks are resident (`warm_calls`).
-/

namespace Snii.Io.Requests

open Snii.Lib.ByteReader Snii.Lib.Aligned Snii.Lib.Requests Snii.Lib.Runs
open Snii.Common Snii.Io.FileReader Snii.Io.BatchRangeFetcher Snii.Io.Metered

/-- What a reader answers to a call. -/
abbrev Answer : Call → Type
  | .readAt _ _ => Bytes
  | .readBatch _ => List Bytes

abbrev Reading (α : Type) := Program Call Answer Status α

/-- `FileReader::read_at`. -/
def readAtOnce (off len : Nat) : Reading Bytes := Program.request (Call.readAt off len)

/-- `BatchRangeFetcher::fetch`: nothing is read where nothing was added. -/
def fetchOnce (gap : Nat) (reqs : List Range) : Reading Fetched :=
  if reqs = [] then pure { reqs := [], places := [], phys := [] }
  else do
    let (segs, places) ← Program.lift (sweep gap [] [] (inOrder reqs))
    let phys ← (Program.request (Call.readBatch segs) : Reading (List Bytes))
    pure { reqs := reqs, places := places, phys := phys }

/-! ## Over a file -/

/-- The default `read_batch` reads one range after the other. -/
def fileAnswer (file : Bytes) : ∀ c, Result (Answer c)
  | .readAt off len => readAt file off len
  | .readBatch ranges => ranges.mapM fun r => readAt file r.offset r.len

variable {file : Bytes} {gap : Nat} {reqs : List Range} {α : Type}

@[simp] theorem run_readAtOnce (file : Bytes) (off len : Nat) :
    (readAtOnce off len).run (fileAnswer file) = readAt file off len :=
  Program.run_request (Call.readAt off len)

@[simp] theorem run_fetchOnce (file : Bytes) (gap : Nat) (reqs : List Range) :
    (fetchOnce gap reqs).run (fileAnswer file) = fetch file gap reqs := by
  rw [fetchOnce]
  by_cases hnil : reqs = []
  · have hsorted : inOrder [] = [] := by simp [inOrder]
    rw [if_pos hnil, hnil, fetch, hsorted]
    rfl
  · rw [if_neg hnil, fetch, Program.run_bind, Program.run_lift]
    congr 1
    funext x
    rw [Program.run_bind, Program.run_request]
    rfl

/-! ## Over a metered reader -/

/-- The file as the reader behind the cache. -/
def innerOf (file : Bytes) : Inner where
  size := file.length
  readAt := readAt file
  readBatch ranges := ranges.mapM fun r => readAt file r.offset r.len

def meteredAnswer (m : MeteredFileReader) : ∀ c, MeteredFileReader × Result (Answer c)
  | .readAt off len => m.readAt off len
  | .readBatch ranges => m.readBatch ranges

/-- A metered reader of the file, in any state of its cache and counters. -/
structure Over (file : Bytes) (m : MeteredFileReader) : Prop where
  inner : m.inner = innerOf file
  blockSize : 0 < m.blockSize
  counters : m.metrics.Bounded

variable {m : MeteredFileReader}

theorem fst_meteredAnswer (m : MeteredFileReader) (c : Call) : (meteredAnswer m c).1 = m.step c := by
  cases c <;> rfl

theorem Over.step (h : Over file m) (c : Call) : Over file (m.step c) := by
  have heffect := step_effect h.blockSize c
  exact ⟨heffect.inner.trans h.inner, heffect.blockSize ▸ h.blockSize,
    step_bounded c h.counters⟩

theorem Over.run (h : Over file m) (calls : List Call) : Over file (m.run calls) := by
  induction calls generalizing m with
  | nil => exact h
  | cons c calls ih => exact ih (h.step c)

/-- A call that is not accepted fails over the file too. -/
theorem fileAnswer_rejected {c : Call} (h : ¬ c.Accepted file.length) (a : Answer c) :
    fileAnswer file c ≠ .ok a := by
  intro hans
  apply h
  cases c with
  | readAt off len =>
      intro r hr
      rw [List.mem_singleton.mp hr]
      exact (readAt_eq_ok hans).2
  | readBatch ranges =>
      intro r hr
      obtain ⟨bs, -, hbs⟩ := exists_right_of_mem (mapM_eq_ok hans) hr
      exact (readAt_eq_ok hbs).2

theorem snd_readAt {off len : Nat} (h : m.validateRange off len = .ok ()) :
    (m.readAt off len).2 = m.inner.readAt off len := by
  rw [MeteredFileReader.readAt, h]
  simp only [MeteredFileReader.accountBlocks]
  split <;> split <;> rfl

theorem snd_readBatch {ranges : List Range} (h : m.validateRanges ranges = .ok ()) :
    (m.readBatch ranges).2 = m.inner.readBatch ranges := by
  rw [MeteredFileReader.readBatch, h]

theorem snd_meteredAnswer (h : Over file m) {c : Call} (haccept : c.Accepted file.length) :
    (meteredAnswer m c).2 = fileAnswer file c := by
  have hsize : m.inner.size = file.length := by rw [h.inner, innerOf]
  rw [← hsize] at haccept
  cases c with
  | readAt off len =>
      have hvalid := (validateRange_iff h.blockSize).mpr (haccept _ (List.mem_singleton_self _))
      exact (snd_readAt hvalid).trans (by rw [h.inner]; rfl)
  | readBatch ranges =>
      have hvalid := (validateRanges_iff h.blockSize ranges).mpr haccept
      exact (snd_readBatch hvalid).trans (by rw [h.inner]; rfl)

theorem meteredAnswer_rejected (h : Over file m) {c : Call} (hreject : ¬ c.Accepted file.length)
    (a : Answer c) : (meteredAnswer m c).2 ≠ .ok a := by
  have hsize : m.inner.size = file.length := by rw [h.inner, innerOf]
  rw [← hsize] at hreject
  intro hans
  cases c with
  | readAt off len =>
      have hbad : m.validateRange off len ≠ .ok () := by
        rw [Ne, validateRange_iff h.blockSize]
        intro hle
        apply hreject
        intro r hr
        rw [List.mem_singleton.mp hr]
        exact hle
      rw [meteredAnswer, MeteredFileReader.readAt] at hans
      cases hv : m.validateRange off len with
      | error e =>
          rw [hv] at hans
          cases hans
      | ok u => exact hbad hv
  | readBatch ranges =>
      have hbad : m.validateRanges ranges ≠ .ok () := by
        rw [Ne, validateRanges_iff h.blockSize]
        exact hreject
      rw [meteredAnswer, MeteredFileReader.readBatch] at hans
      cases hv : m.validateRanges ranges with
      | error e =>
          rw [hv] at hans
          cases hans
      | ok u => exact hbad hv

/-- **A metered reader** answers as the file does, and stays one. -/
theorem serves_metered (file : Bytes) :
    Program.Serves (fileAnswer file) meteredAnswer (Over file) where
  keeps m c h := by
    rw [fst_meteredAnswer]
    exact h.step c
  agrees m c h a := by
    by_cases haccept : c.Accepted file.length
    · rw [snd_meteredAnswer h haccept]
    · constructor
      · exact fun hans => absurd hans (meteredAnswer_rejected h haccept a)
      · exact fun hans => absurd hans (fileAnswer_rejected haccept a)

/-! ## What calls cost -/

/-- Calls at one round each. -/
def eachCall (_ : Call) : Nat := 1

theorem cost_eachCall (query : Reading α) (answer : ∀ c, Result (Answer c)) :
    query.cost answer eachCall = (query.asked answer).length := by
  unfold eachCall
  rw [Program.cost, List.map_const', List.sum_replicate_nat, Nat.mul_one]

theorem calls_readAtOnce (off len : Nat) :
    (readAtOnce off len).cost (fileAnswer file) eachCall ≤ 1 :=
  Program.cost_request_le (Call.readAt off len)

theorem calls_fetchOnce (gap : Nat) (reqs : List Range) :
    (fetchOnce gap reqs).cost (fileAnswer file) eachCall ≤ 1 := by
  rw [fetchOnce]
  split
  · exact Program.cost_pure_le _
  · apply Program.cost_lift_bind_le
    intro x _
    apply Program.cost_bind_free_le (Program.cost_request_le (Call.readBatch x.1))
    exact fun phys => Program.cost_pure_le _

/-- What a sequence of calls has done to the cache and the counters, `k` rounds of it. -/
structure Spent (m m' : MeteredFileReader) (calls : List Call) (k : Nat) : Prop where
  inner : m'.inner = m.inner
  blockSize : m'.blockSize = m.blockSize
  resident : ∀ b, b ∈ m'.resident ↔
    b ∈ m.resident ∨ b ∈ touchedBy m.inner.size m.blockSize calls
  rounds : m'.metrics.serialRounds ≡ m.metrics.serialRounds + k [MOD 2 ^ 64]

theorem mem_touchedBy_cons {size blockSize b : Nat} {c : Call} {calls : List Call} :
    b ∈ touchedBy size blockSize (c :: calls) ↔
      b ∈ c.blocks size blockSize ∨ b ∈ touchedBy size blockSize calls := by
  rw [mem_touchedBy, mem_touchedBy, List.exists_mem_cons_iff]

/-- **A sequence of calls** is at most one round a call. -/
theorem run_spent (hbs : 0 < m.blockSize) (calls : List Call) :
    ∃ k ≤ calls.length, Spent m (m.run calls) calls k := by
  induction calls generalizing m with
  | nil =>
      refine ⟨0, Nat.le_refl 0, rfl, rfl, fun b => ?_, Nat.ModEq.refl _⟩
      simp [MeteredFileReader.run, mem_touchedBy]
  | cons c calls ih =>
      have heffect := step_effect hbs c
      have hbs' : 0 < (m.step c).blockSize := heffect.blockSize ▸ hbs
      obtain ⟨k, hk, hspent⟩ := ih hbs'
      have hinner := hspent.inner.trans heffect.inner
      have hblock := hspent.blockSize.trans heffect.blockSize
      have hround : ∃ j ≤ 1, (m.step c).metrics.serialRounds ≡
          m.metrics.serialRounds + j [MOD 2 ^ 64] := by
        refine ⟨_, ?_, heffect.rounds⟩
        split <;> omega
      obtain ⟨j, hj, hrounds⟩ := hround
      refine ⟨k + j, ?_, hinner, hblock, fun b => ?_, ?_⟩
      · rw [List.length_cons]
        exact Nat.add_le_add hk hj
      · have hres := hspent.resident b
        rw [heffect.inner, heffect.blockSize] at hres
        change b ∈ ((m.step c).run calls).resident ↔ _
        rw [hres, heffect.resident, mem_touchedBy_cons, or_assoc]
      · rw [Nat.add_comm k j, ← Nat.add_assoc]
        exact hspent.rounds.trans (hrounds.add_right k)

/-- The counters of the remote store. -/
structure SameRemote (s s' : IoMetrics) : Prop where
  rounds : s'.serialRounds = s.serialRounds
  gets : s'.rangeGets = s.rangeGets
  remote : s'.remoteBytes = s.remoteBytes

theorem SameRemote.trans {s s' s'' : IoMetrics} (h : SameRemote s s') (h' : SameRemote s' s'') :
    SameRemote s s'' :=
  ⟨h'.rounds.trans h.rounds, h'.gets.trans h.gets, h'.remote.trans h.remote⟩

theorem warm_step (hbs : 0 < m.blockSize) (hbound : m.metrics.Bounded) {c : Call}
    (hwarm : ∀ b ∈ c.blocks m.inner.size m.blockSize, b ∈ m.resident) :
    SameRemote m.metrics (m.step c).metrics := by
  have heffect := step_effect hbs c
  have hbound' := step_bounded c hbound
  have hnone : c.blocks m.inner.size m.blockSize \ m.resident.toFinset = ∅ := by
    rw [Finset.sdiff_eq_empty_iff_subset]
    exact fun b hb => List.mem_toFinset.mpr (hwarm b hb)
  have hrounds := heffect.rounds
  have hgets := heffect.gets
  have hremote := heffect.remote
  rw [hnone] at hrounds hgets hremote
  simp only [Finset.not_nonempty_empty, if_false, Nat.add_zero, Finset.sum_empty] at hrounds hremote
  rw [runs_empty, Nat.add_zero] at hgets
  exact ⟨hrounds.eq_of_lt_of_lt hbound'.rounds hbound.rounds,
    hgets.eq_of_lt_of_lt hbound'.gets hbound.gets,
    hremote.eq_of_lt_of_lt hbound'.remote hbound.remote⟩

/-- **Calls whose blocks are resident** cost the remote store nothing. -/
theorem warm_calls (hbs : 0 < m.blockSize) (hbound : m.metrics.Bounded) {calls : List Call}
    (hwarm : ∀ b ∈ touchedBy m.inner.size m.blockSize calls, b ∈ m.resident) :
    SameRemote m.metrics (m.run calls).metrics := by
  induction calls generalizing m with
  | nil => exact ⟨rfl, rfl, rfl⟩
  | cons c calls ih =>
      have heffect := step_effect hbs c
      have hfirst := warm_step hbs hbound fun b hb => hwarm b (mem_touchedBy_cons.mpr (.inl hb))
      apply hfirst.trans
      apply ih (heffect.blockSize ▸ hbs) (step_bounded c hbound)
      rw [heffect.inner, heffect.blockSize]
      intro b hb
      rw [heffect.resident]
      exact .inl (hwarm b (mem_touchedBy_cons.mpr (.inr hb)))

/-! ## The bytes that are read -/

/-- The bytes of a range are of the kind. -/
def Inside (D : Nat → Prop) (r : Range) : Prop := ∀ b, r.offset ≤ b → b < r.stop → D b

variable {D : Nat → Prop} {file' : Bytes}

/-- Requests in one stretch of the kind. -/
structure Stretch (D : Nat → Prop) (lo hi : Nat) (reqs : List Range) : Prop where
  kind : ∀ b, lo ≤ b → b < hi → D b
  within : ∀ r ∈ reqs, lo ≤ r.offset ∧ r.stop ≤ hi

theorem Stretch.inside {lo hi : Nat} (h : Stretch D lo hi reqs) : ∀ r ∈ reqs, Inside D r := by
  intro r hr b hb hb'
  obtain ⟨hlo, hhi⟩ := h.within r hr
  exact h.kind b (hlo.trans hb) (Nat.lt_of_lt_of_le hb' hhi)

end Snii.Io.Requests
