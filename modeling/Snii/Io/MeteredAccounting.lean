import Mathlib.Algebra.BigOperators.Group.Finset.Basic
import Mathlib.Algebra.Order.BigOperators.Group.Finset
import Mathlib.Data.Finset.Sort
import Mathlib.Data.Nat.ModEq
import Mathlib.Order.Interval.Finset.Nat
import Snii.Io.MeteredFileReader
import Snii.Lib.Runs

/-!
# Accounting of one metered call

A call touches the blocks of the bytes it asks for, and only those that are not resident
count (`step_effect`).  The loop of a single read and the loop of a batch are both scans of
blocks in ascending order; what they count as runs are the maximal runs of missing blocks.
-/

namespace Snii.Io.Metered

open Snii.Lib.ByteReader Snii.Lib.Runs Snii.Common
open Snii.Io.BatchRangeFetcher (Range)

/-! ## What a call touches -/

/-- The blocks of the bytes of a range. -/
def touched (blockSize : ℕ) (r : Range) : Finset ℕ :=
  (Finset.Ico r.offset (r.offset + r.len)).image (· / blockSize)

def Call.ranges : Call → List Range
  | .readAt offset len => [⟨offset, len⟩]
  | .readBatch ranges => ranges

/-- Every range of the call lies inside the file. -/
def Call.Accepted (size : ℕ) (c : Call) : Prop := ∀ r ∈ c.ranges, r.offset + r.len ≤ size

instance decidableAccepted (size : ℕ) (c : Call) : Decidable (c.Accepted size) :=
  inferInstanceAs (Decidable (∀ r ∈ c.ranges, r.offset + r.len ≤ size))

/-- The blocks that a call touches, if it is accepted. -/
def Call.blocks (size blockSize : ℕ) (c : Call) : Finset ℕ :=
  if c.Accepted size then c.ranges.toFinset.biUnion (touched blockSize) else ∅

/-- The bytes that a call asks for, if it is accepted. -/
def Call.bytes (size : ℕ) (c : Call) : ℕ :=
  if c.Accepted size then (c.ranges.map Range.len).sum else 0

/-- The blocks touched by a sequence of calls. -/
def touchedBy (size blockSize : ℕ) (calls : List Call) : Finset ℕ :=
  calls.toFinset.biUnion (Call.blocks size blockSize)

/-- The blocks that call `k` is the first to touch. -/
def newBlocks (size blockSize : ℕ) (calls : List Call) (k : ℕ) : Finset ℕ :=
  touchedBy size blockSize (calls.take (k + 1)) \ touchedBy size blockSize (calls.take k)

theorem mem_touchedBy {size blockSize b : ℕ} {calls : List Call} :
    b ∈ touchedBy size blockSize calls ↔ ∃ c ∈ calls, b ∈ c.blocks size blockSize := by
  simp [touchedBy]

/-! ## Blocks of a range -/

theorem mem_touched {blockSize b : ℕ} {r : Range} (hbs : 0 < blockSize) (hlen : r.len ≠ 0) :
    b ∈ touched blockSize r ↔
      r.offset / blockSize ≤ b ∧ b ≤ (r.offset + r.len - 1) / blockSize := by
  rw [touched, Finset.mem_image]
  constructor
  · rintro ⟨i, hi, rfl⟩
    have hi := Finset.mem_Ico.mp hi
    exact ⟨Nat.div_le_div_right hi.1, Nat.div_le_div_right (by omega)⟩
  · rintro ⟨hlo, hhi⟩
    -- the first byte of the range or of the block, whichever comes later
    refine ⟨max r.offset (b * blockSize), Finset.mem_Ico.mpr ⟨Nat.le_max_left _ _, ?_⟩, ?_⟩
    · have := (Nat.le_div_iff_mul_le hbs).mp hhi
      omega
    · apply (Nat.div_eq_iff hbs).mpr
      have hlt : r.offset < (b + 1) * blockSize := (Nat.div_lt_iff_lt_mul hbs).mp (by omega)
      rw [Nat.add_mul, Nat.one_mul] at hlt
      omega

theorem mem_rangeBlocks {offset len blockSize b : ℕ} :
    b ∈ rangeBlocks offset len blockSize ↔
      offset / blockSize ≤ b ∧ b ≤ (offset + len - 1) / blockSize := by
  rw [rangeBlocks, blockRange]
  simp only
  rw [List.mem_range'_1]
  omega

theorem pairwise_rangeBlocks (offset len blockSize : ℕ) :
    (rangeBlocks offset len blockSize).Pairwise (· < ·) := List.pairwise_lt_range'

/-! ## Blocks of a batch -/

theorem mem_unique {b : ℕ} (l : List ℕ) : b ∈ unique l ↔ b ∈ l := by
  induction l with
  | nil => exact Iff.rfl
  | cons a l ih =>
      cases l with
      | nil => exact Iff.rfl
      | cons c l =>
          rw [unique]
          by_cases hac : a = c
          · rw [if_pos hac, ih, hac]
            simp
          · rw [if_neg hac, List.mem_cons, ih, List.mem_cons (a := b) (b := a)]

/-- Of a sorted list each element stays once. -/
theorem pairwise_unique {l : List ℕ} (h : l.Pairwise (· ≤ ·)) :
    (unique l).Pairwise (· < ·) := by
  induction l with
  | nil => exact List.Pairwise.nil
  | cons a l ih =>
      cases l with
      | nil => exact List.pairwise_singleton _ _
      | cons c l =>
          obtain ⟨ha, hl⟩ := List.pairwise_cons.mp h
          rw [unique]
          by_cases hac : a = c
          · rw [if_pos hac]
            exact ih hl
          · rw [if_neg hac]
            refine List.pairwise_cons.mpr ⟨fun b hb => ?_, ih hl⟩
            have hc := ha c List.mem_cons_self
            rcases List.mem_cons.mp ((mem_unique _).mp hb) with rfl | hb
            · omega
            · have := (List.pairwise_cons.mp hl).1 b hb
              omega

theorem pairwise_batchBlocks (blockSize : ℕ) (ranges : List Range) :
    (batchBlocks blockSize ranges).Pairwise (· < ·) := by
  apply pairwise_unique
  have hsort := @List.pairwise_mergeSort ℕ (fun a b => decide (a ≤ b))
    (fun a b c hab hbc => by simp only [decide_eq_true_eq] at *; omega)
    (fun a b => by simp only [Bool.or_eq_true, decide_eq_true_eq]; omega)
    (ranges.flatMap fun r => if r.len = 0 then [] else rangeBlocks r.offset r.len blockSize)
  exact hsort.imp fun h => by simpa using h

theorem mem_batchBlocks {blockSize b : ℕ} (hbs : 0 < blockSize) (ranges : List Range) :
    b ∈ batchBlocks blockSize ranges ↔ ∃ r ∈ ranges, b ∈ touched blockSize r := by
  rw [batchBlocks, mem_unique, List.mem_mergeSort, List.mem_flatMap]
  apply exists_congr
  intro r
  apply and_congr_right
  intro _
  by_cases hlen : r.len = 0
  · rw [if_pos hlen, touched, hlen]
    simp
  · rw [if_neg hlen, mem_rangeBlocks, mem_touched hbs hlen]

/-! ## Scans -/

variable {m : MeteredFileReader}

/-- The blocks of a scan that are not resident yet. -/
def misses (resident bs : List ℕ) : List ℕ := bs.filter fun b => b ∉ resident

/-- What a scan with the given missing blocks and run starts adds to the counters. -/
structure Counted (m : MeteredFileReader) (missing : List ℕ) (starts : ℕ) (s s' : IoMetrics) :
    Prop where
  rounds : s'.serialRounds = s.serialRounds
  requests : s'.totalRequestBytes = s.totalRequestBytes
  remote : s'.remoteBytes ≡ s.remoteBytes + (missing.map m.blockBytes).sum [MOD 2 ^ 64]
  gets : s'.rangeGets ≡ s.rangeGets + starts [MOD 2 ^ 64]

theorem Counted.refl (s : IoMetrics) : Counted m [] 0 s s :=
  ⟨rfl, rfl, Nat.ModEq.refl _, Nat.ModEq.refl _⟩

theorem misses_cons_resident {resident bs : List ℕ} {b : ℕ} (h : b ∈ resident) :
    misses resident (b :: bs) = misses resident bs := by
  rw [misses, List.filter_cons, if_neg (by simpa using h)]
  rfl

/-- A block that becomes resident is not met again in an ascending scan. -/
theorem misses_cons_missing {resident bs : List ℕ} {b : ℕ} (h : b ∉ resident)
    (hasc : ∀ c ∈ bs, b < c) :
    misses resident (b :: bs) = b :: misses (b :: resident) bs := by
  rw [misses, List.filter_cons, if_pos (by simpa using h)]
  congr 1
  apply List.filter_congr
  intro c hc
  have := hasc c hc
  apply decide_eq_decide.mpr
  rw [List.mem_cons, not_or]
  exact ⟨fun hres => ⟨by omega, hres⟩, fun hres => hres.2⟩

/-- A missing block fetched, and what the rest of the scan adds. -/
theorem Counted.cons {missing : List ℕ} {b starts : ℕ} {s s' : IoMetrics} (newRun : Bool)
    (h : Counted m missing starts
      (if newRun then (s.addRemote (m.blockBytes b)).addGet else s.addRemote (m.blockBytes b)) s') :
    Counted m (b :: missing) ((if newRun then 1 else 0) + starts) s s' := by
  cases newRun with
  | true =>
      refine ⟨h.rounds, h.requests, ?_, ?_⟩
      · rw [List.map_cons, List.sum_cons, ← Nat.add_assoc]
        exact h.remote.trans ((Nat.mod_modEq _ _).add_right _)
      · rw [if_pos rfl, ← Nat.add_assoc]
        exact h.gets.trans ((Nat.mod_modEq _ _).add_right _)
  | false =>
      refine ⟨h.rounds, h.requests, ?_, ?_⟩
      · rw [List.map_cons, List.sum_cons, ← Nat.add_assoc]
        exact h.remote.trans ((Nat.mod_modEq _ _).add_right _)
      · rw [if_neg (by simp), Nat.zero_add]
        exact h.gets

theorem accountStep_missing {s : Scan} {b : ℕ} (h : b ∉ s.resident) :
    accountStep m s b =
      { resident := b :: s.resident
        metrics := if !s.inRun then (s.metrics.addRemote (m.blockBytes b)).addGet
          else s.metrics.addRemote (m.blockBytes b)
        anyMiss := true
        inRun := true } := by
  rw [accountStep, if_neg h]
  cases s.inRun <;> rfl

theorem batchStep_missing {s : BatchScan} {b : ℕ} (h : b ∉ s.resident) :
    batchStep m s b =
      { resident := b :: s.resident
        metrics := if decide (¬ s.havePrev ∨ b ≠ s.prevMiss + 1) then
            (s.metrics.addRemote (m.blockBytes b)).addGet
          else s.metrics.addRemote (m.blockBytes b)
        anyMiss := true
        prevMiss := b
        havePrev := true } := by
  rw [batchStep, if_neg h]
  simp only [decide_eq_true_eq]

/-- **The loop of a single read.**  `prev` is the last missing block before the loop. -/
theorem accountLoop_spec (n first : ℕ) (s : Scan) (prev : Option ℕ)
    (hrun : s.inRun = true ↔ prev.map (· + 1) = some first) (hprev : ∀ p ∈ prev, p < first) :
    (∀ b, b ∈ ((List.range' first n).foldl (accountStep m) s).resident ↔
      b ∈ s.resident ∨ b ∈ List.range' first n) ∧
    Counted m (misses s.resident (List.range' first n))
      (runStarts prev (misses s.resident (List.range' first n))) s.metrics
      ((List.range' first n).foldl (accountStep m) s).metrics ∧
    (((List.range' first n).foldl (accountStep m) s).anyMiss = true ↔
      s.anyMiss = true ∨ misses s.resident (List.range' first n) ≠ []) := by
  induction n generalizing first s prev with
  | zero => exact ⟨by simp, Counted.refl _, by simp [misses]⟩
  | succ n ih =>
      rw [List.range'_succ, List.foldl_cons]
      by_cases hres : first ∈ s.resident
      · have hstep : accountStep m s first = { s with inRun := false } := by
          rw [accountStep, if_pos hres]
        rw [hstep, misses_cons_resident hres]
        obtain ⟨hmem, hcount, hmiss⟩ := ih (first + 1) { s with inRun := false } prev
          (by
            constructor
            · intro h
              cases h
            · intro h
              obtain ⟨p, hp, heq⟩ := Option.map_eq_some_iff.mp h
              have := hprev p hp
              omega)
          (fun p hp => Nat.lt_succ_of_lt (hprev p hp))
        refine ⟨fun b => ?_, hcount, hmiss⟩
        rw [hmem, List.mem_cons]
        constructor
        · exact fun h => h.imp_right Or.inr
        · rintro (h | rfl | h)
          · exact Or.inl h
          · exact Or.inl hres
          · exact Or.inr h
      · have hasc : ∀ c ∈ List.range' (first + 1) n, first < c := fun c hc =>
          (List.mem_range'_1.mp hc).1
        obtain ⟨hmem, hcount, hmiss⟩ := ih (first + 1)
          { resident := first :: s.resident
            metrics := if !s.inRun then (s.metrics.addRemote (m.blockBytes first)).addGet
              else s.metrics.addRemote (m.blockBytes first)
            anyMiss := true
            inRun := true } (some first) ⟨fun _ => rfl, fun _ => rfl⟩ (fun p hp => by
              cases hp
              exact Nat.lt_succ_self first)
        rw [accountStep_missing hres, misses_cons_missing hres hasc]
        refine ⟨fun b => ?_, ?_, ?_⟩
        · rw [hmem, List.mem_cons, List.mem_cons]
          tauto
        · have hstart : (if prev.map (· + 1) = some first then 0 else 1) =
              if !s.inRun then 1 else 0 := by
            cases hin : s.inRun with
            | true => rw [if_pos (hrun.mp hin), Bool.not_true, if_neg Bool.false_ne_true]
            | false =>
                rw [if_neg (fun h => by rw [hrun.mpr h] at hin; cases hin), Bool.not_false,
                  if_pos rfl]
          rw [runStarts, hstart]
          exact hcount.cons _
        · rw [hmiss]
          exact ⟨fun _ => Or.inr (List.cons_ne_nil _ _), fun _ => Or.inl rfl⟩

/-- **The loop of a batch.** -/
theorem batchLoop_spec {bs : List ℕ} (hasc : bs.Pairwise (· < ·)) (s : BatchScan) :
    (∀ b, b ∈ (bs.foldl (batchStep m) s).resident ↔ b ∈ s.resident ∨ b ∈ bs) ∧
    Counted m (misses s.resident bs)
      (runStarts (if s.havePrev then some s.prevMiss else none) (misses s.resident bs)) s.metrics
      (bs.foldl (batchStep m) s).metrics ∧
    ((bs.foldl (batchStep m) s).anyMiss = true ↔
      s.anyMiss = true ∨ misses s.resident bs ≠ []) := by
  induction bs generalizing s with
  | nil => exact ⟨by simp, Counted.refl _, by simp [misses]⟩
  | cons b bs ih =>
      obtain ⟨hb, hasc⟩ := List.pairwise_cons.mp hasc
      rw [List.foldl_cons]
      by_cases hres : b ∈ s.resident
      · obtain ⟨hmem, hcount, hmiss⟩ := ih hasc s
        rw [batchStep, if_pos hres, misses_cons_resident hres]
        refine ⟨fun c => ?_, hcount, hmiss⟩
        rw [hmem, List.mem_cons]
        constructor
        · exact fun h => h.imp_right Or.inr
        · rintro (h | rfl | h)
          · exact Or.inl h
          · exact Or.inl hres
          · exact Or.inr h
      · obtain ⟨hmem, hcount, hmiss⟩ := ih hasc
          { resident := b :: s.resident
            metrics := if decide (¬ s.havePrev ∨ b ≠ s.prevMiss + 1) then
                (s.metrics.addRemote (m.blockBytes b)).addGet
              else s.metrics.addRemote (m.blockBytes b)
            anyMiss := true
            prevMiss := b
            havePrev := true }
        rw [batchStep_missing hres, misses_cons_missing hres hb]
        refine ⟨fun c => ?_, ?_, ?_⟩
        · rw [hmem, List.mem_cons, List.mem_cons]
          tauto
        · have hstart : (if (if s.havePrev then some s.prevMiss else none).map (· + 1) = some b
              then 0 else 1) = if decide (¬ s.havePrev ∨ b ≠ s.prevMiss + 1) then 1 else 0 := by
            cases hprev : s.havePrev with
            | false => simp
            | true =>
                by_cases heq : b = s.prevMiss + 1
                · simp [heq]
                · simp [heq, Ne.symm heq]
          rw [runStarts, hstart]
          exact hcount.cons _
        · rw [hmiss]
          exact ⟨fun _ => Or.inr (List.cons_ne_nil _ _), fun _ => Or.inl rfl⟩

/-! ## One call -/

/-- What a call that touches the given blocks and asks for so many bytes does: only the
blocks that are not resident count. -/
structure Effect (m m' : MeteredFileReader) (blocks : Finset ℕ) (bytes : ℕ) : Prop where
  inner : m'.inner = m.inner
  blockSize : m'.blockSize = m.blockSize
  resident : ∀ b, b ∈ m'.resident ↔ b ∈ m.resident ∨ b ∈ blocks
  remote : m'.metrics.remoteBytes ≡ m.metrics.remoteBytes +
    ∑ b ∈ blocks \ m.resident.toFinset, m.blockBytes b [MOD 2 ^ 64]
  gets : m'.metrics.rangeGets ≡ m.metrics.rangeGets +
    runs (blocks \ m.resident.toFinset) [MOD 2 ^ 64]
  rounds : m'.metrics.serialRounds ≡ m.metrics.serialRounds +
    (if (blocks \ m.resident.toFinset).Nonempty then 1 else 0) [MOD 2 ^ 64]
  requests : m'.metrics.totalRequestBytes ≡ m.metrics.totalRequestBytes + bytes [MOD 2 ^ 64]

theorem Effect.refl (m : MeteredFileReader) : Effect m m ∅ 0 where
  inner := rfl
  blockSize := rfl
  resident b := by simp
  remote := by simp [Nat.ModEq]
  gets := by simp [Nat.ModEq]
  rounds := by simp [Nat.ModEq]
  requests := Nat.ModEq.refl _

theorem toFinset_misses (resident : List ℕ) {bs : List ℕ} {blocks : Finset ℕ}
    (hbs : ∀ b, b ∈ bs ↔ b ∈ blocks) :
    (misses resident bs).toFinset = blocks \ resident.toFinset := by
  ext b
  rw [List.mem_toFinset, misses, List.mem_filter, Finset.mem_sdiff, List.mem_toFinset, hbs]
  simp

/-- An ascending scan of the blocks, followed by the round of a call that missed any. -/
theorem Effect.of_scan {blocks : Finset ℕ} {bytes : ℕ} {bs resident : List ℕ}
    {start s : IoMetrics} {anyMiss : Bool} (hasc : bs.Pairwise (· < ·))
    (hbs : ∀ b, b ∈ bs ↔ b ∈ blocks) (hres : ∀ b, b ∈ resident ↔ b ∈ m.resident ∨ b ∈ bs)
    (hcount : Counted m (misses m.resident bs) (runStarts none (misses m.resident bs)) start s)
    (hmiss : anyMiss = true ↔ misses m.resident bs ≠ [])
    (hremote : start.remoteBytes = m.metrics.remoteBytes)
    (hgets : start.rangeGets = m.metrics.rangeGets)
    (hrounds : start.serialRounds = m.metrics.serialRounds)
    (hrequests : start.totalRequestBytes ≡ m.metrics.totalRequestBytes + bytes [MOD 2 ^ 64]) :
    Effect m { m with resident := resident, metrics := if anyMiss then s.addRound else s }
      blocks bytes := by
  have hmisses := toFinset_misses m.resident hbs
  have hmissAsc : (misses m.resident bs).Pairwise (· < ·) := hasc.filter _
  have hnodup : (misses m.resident bs).Nodup := hmissAsc.imp fun h => Nat.ne_of_lt h
  have hremote' : s.remoteBytes ≡ m.metrics.remoteBytes +
      ∑ b ∈ blocks \ m.resident.toFinset, m.blockBytes b [MOD 2 ^ 64] := by
    rw [← hmisses, List.sum_toFinset _ hnodup, ← hremote]
    exact hcount.remote
  have hgets' : s.rangeGets ≡ m.metrics.rangeGets + runs (blocks \ m.resident.toFinset)
      [MOD 2 ^ 64] := by
    rw [← hmisses, ← runStarts_none hmissAsc, ← hgets]
    exact hcount.gets
  have hrequests' : s.totalRequestBytes ≡ m.metrics.totalRequestBytes + bytes [MOD 2 ^ 64] := by
    rw [hcount.requests]
    exact hrequests
  have hnonempty : misses m.resident bs ≠ [] ↔ (blocks \ m.resident.toFinset).Nonempty := by
    rw [← hmisses, List.toFinset_nonempty_iff]
  have hresident : ∀ b, b ∈ resident ↔ b ∈ m.resident ∨ b ∈ blocks := fun b => by rw [hres, hbs]
  cases hany : anyMiss with
  | true =>
      refine ⟨rfl, rfl, hresident, hremote', hgets', ?_, hrequests'⟩
      rw [if_pos (hnonempty.mp (hmiss.mp hany)), ← hrounds, ← hcount.rounds]
      exact Nat.mod_modEq _ _
  | false =>
      have hnot : ¬ (blocks \ m.resident.toFinset).Nonempty := fun h => by
        rw [hmiss.mpr (hnonempty.mpr h)] at hany
        cases hany
      refine ⟨rfl, rfl, hresident, hremote', hgets', ?_, hrequests'⟩
      rw [if_neg hnot, Nat.add_zero, ← hrounds, ← hcount.rounds]
      exact Nat.ModEq.refl _

theorem validateRange_iff (hbs : 0 < m.blockSize) {offset len : ℕ} :
    m.validateRange offset len = .ok () ↔ offset + len ≤ m.inner.size := by
  rw [MeteredFileReader.validateRange, if_neg (Nat.ne_of_gt hbs)]
  by_cases hbad : offset > m.inner.size ∨ len > m.inner.size - offset
  · rw [if_pos hbad]
    constructor
    · intro h
      cases h
    · omega
  · rw [if_neg hbad]
    exact ⟨fun _ => by omega, fun _ => rfl⟩

theorem validateRanges_iff (hbs : 0 < m.blockSize) (ranges : List Range) :
    m.validateRanges ranges = .ok () ↔ ∀ r ∈ ranges, r.offset + r.len ≤ m.inner.size := by
  induction ranges with
  | nil => simp [MeteredFileReader.validateRanges]
  | cons r ranges ih =>
      rw [MeteredFileReader.validateRanges, List.forall_mem_cons, ← ih, ← validateRange_iff hbs]
      cases hr : m.validateRange r.offset r.len with
      | error e =>
          constructor
          · intro h
            cases h
          · rintro ⟨h, -⟩
            cases h
      | ok u =>
          rw [ok_bind]
          exact ⟨fun h => ⟨rfl, h⟩, fun h => h.2⟩

/-- **A rejected call changes nothing.** -/
theorem step_rejected (hbs : 0 < m.blockSize) {c : Call} (h : ¬ c.Accepted m.inner.size) :
    m.step c = m := by
  cases c with
  | readAt offset len =>
      have hbad : m.validateRange offset len ≠ .ok () := by
        rw [Ne, validateRange_iff hbs]
        simpa [Call.Accepted, Call.ranges] using h
      rw [MeteredFileReader.step, MeteredFileReader.readAt]
      cases hv : m.validateRange offset len with
      | error e => rfl
      | ok u => exact absurd hv hbad
  | readBatch ranges =>
      have hbad : m.validateRanges ranges ≠ .ok () := by
        rw [Ne, validateRanges_iff hbs]
        exact h
      rw [MeteredFileReader.step, MeteredFileReader.readBatch]
      cases hv : m.validateRanges ranges with
      | error e => rfl
      | ok u => exact absurd hv hbad

/-- The scan of a single read that is not empty. -/
def MeteredFileReader.readScan (m : MeteredFileReader) (offset len : ℕ) : Scan :=
  (rangeBlocks offset len m.blockSize).foldl
    (accountStep { m with metrics := (m.metrics.addCalls 1).addRequest len })
    { resident := m.resident, metrics := (m.metrics.addCalls 1).addRequest len
      anyMiss := false, inRun := false }

theorem readAt_scan (hbs : 0 < m.blockSize) {offset len : ℕ} (hlen : len ≠ 0)
    (h : offset + len ≤ m.inner.size) :
    (m.readAt offset len).1 =
      { m with
        resident := (m.readScan offset len).resident
        metrics := if (m.readScan offset len).anyMiss then (m.readScan offset len).metrics.addRound
          else (m.readScan offset len).metrics } := by
  rw [MeteredFileReader.readAt, (validateRange_iff hbs).mpr h]
  simp only [MeteredFileReader.accountBlocks, if_neg hlen]
  show (if (m.readScan offset len).anyMiss then _ else _) = _
  cases hany : (m.readScan offset len).anyMiss <;> rfl

theorem readAt_effect (hbs : 0 < m.blockSize) {offset len : ℕ}
    (h : offset + len ≤ m.inner.size) :
    Effect m (m.readAt offset len).1 (touched m.blockSize ⟨offset, len⟩) len := by
  by_cases hlen : len = 0
  · have hstate : (m.readAt offset len).1 =
        { m with metrics := (m.metrics.addCalls 1).addRequest len } := by
      rw [MeteredFileReader.readAt, (validateRange_iff hbs).mpr h]
      simp only [MeteredFileReader.accountBlocks, if_pos hlen]
      rfl
    have hnone : touched m.blockSize ⟨offset, len⟩ = ∅ := by simp [touched, hlen]
    have hrefl := Effect.refl m
    rw [hstate, hnone]
    exact ⟨rfl, rfl, hrefl.resident, hrefl.remote, hrefl.gets, hrefl.rounds, Nat.mod_modEq _ _⟩
  · obtain ⟨hmem, hcount, hmiss⟩ := @accountLoop_spec
      { m with metrics := (m.metrics.addCalls 1).addRequest len }
      ((offset + len - 1) / m.blockSize + 1 - offset / m.blockSize) (offset / m.blockSize)
      { resident := m.resident, metrics := (m.metrics.addCalls 1).addRequest len
        anyMiss := false, inRun := false } none (by simp) (by simp)
    have hcounted : Counted m (misses m.resident (rangeBlocks offset len m.blockSize))
        (runStarts none (misses m.resident (rangeBlocks offset len m.blockSize)))
        ((m.metrics.addCalls 1).addRequest len) (m.readScan offset len).metrics :=
      ⟨hcount.rounds, hcount.requests, hcount.remote, hcount.gets⟩
    rw [readAt_scan hbs hlen h]
    apply Effect.of_scan (pairwise_rangeBlocks offset len m.blockSize)
    · exact fun b => by rw [mem_rangeBlocks, mem_touched hbs hlen]
    · exact hmem
    · exact hcounted
    · exact hmiss.trans (or_iff_right Bool.false_ne_true)
    · rfl
    · rfl
    · rfl
    · exact Nat.mod_modEq _ _

/-- The requests of a batch, added one by one. -/
theorem foldl_addRequest (ranges : List Range) (s : IoMetrics) :
    (ranges.foldl (fun s r => s.addRequest r.len) s).remoteBytes = s.remoteBytes ∧
    (ranges.foldl (fun s r => s.addRequest r.len) s).rangeGets = s.rangeGets ∧
    (ranges.foldl (fun s r => s.addRequest r.len) s).serialRounds = s.serialRounds ∧
    (ranges.foldl (fun s r => s.addRequest r.len) s).totalRequestBytes ≡
      s.totalRequestBytes + (ranges.map Range.len).sum [MOD 2 ^ 64] := by
  induction ranges generalizing s with
  | nil => exact ⟨rfl, rfl, rfl, Nat.ModEq.refl _⟩
  | cons r ranges ih =>
      obtain ⟨hremote, hgets, hrounds, hrequests⟩ := ih (s.addRequest r.len)
      refine ⟨hremote, hgets, hrounds, ?_⟩
      rw [List.map_cons, List.sum_cons, ← Nat.add_assoc]
      exact hrequests.trans ((Nat.mod_modEq _ _).add_right _)

theorem readBatch_effect (hbs : 0 < m.blockSize) {ranges : List Range}
    (h : ∀ r ∈ ranges, r.offset + r.len ≤ m.inner.size) :
    Effect m (m.readBatch ranges).1 (ranges.toFinset.biUnion (touched m.blockSize))
      (ranges.map Range.len).sum := by
  obtain ⟨hremote, hgets, hrounds, hrequests⟩ := foldl_addRequest ranges m.metrics
  obtain ⟨hmem, hcount, hmiss⟩ := @batchLoop_spec m _ (pairwise_batchBlocks m.blockSize ranges)
    { resident := m.resident
      metrics := (ranges.foldl (fun s r => s.addRequest r.len) m.metrics).addCalls ranges.length
      anyMiss := false, prevMiss := 0, havePrev := false }
  rw [MeteredFileReader.readBatch, (validateRanges_iff hbs ranges).mpr h]
  apply Effect.of_scan (pairwise_batchBlocks m.blockSize ranges)
  · intro b
    rw [mem_batchBlocks hbs]
    simp
  · exact hmem
  · exact hcount
  · exact hmiss.trans (or_iff_right Bool.false_ne_true)
  · exact hremote
  · exact hgets
  · exact hrounds
  · exact hrequests

/-- **One call**, accepted or not. -/
theorem step_effect (hbs : 0 < m.blockSize) (c : Call) :
    Effect m (m.step c) (c.blocks m.inner.size m.blockSize) (c.bytes m.inner.size) := by
  rw [Call.blocks, Call.bytes]
  by_cases haccept : c.Accepted m.inner.size
  · rw [if_pos haccept, if_pos haccept]
    cases c with
    | readAt offset len =>
        have heffect := readAt_effect hbs (haccept _ (List.mem_singleton_self _))
        have hblocks : (Call.readAt offset len).ranges.toFinset.biUnion (touched m.blockSize) =
            touched m.blockSize ⟨offset, len⟩ := by simp [Call.ranges]
        rw [hblocks]
        exact heffect
    | readBatch ranges => exact readBatch_effect hbs haccept
  · rw [if_neg haccept, if_neg haccept, step_rejected hbs haccept]
    exact Effect.refl m

end Snii.Io.Metered
