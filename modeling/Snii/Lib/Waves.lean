import Mathlib.Algebra.Ring.Nat

/-!
# Tasks in waves

Tasks are started in waves of a given width: a task starts once the tasks of the earlier
waves have ended, and ends at once or with an answer.  Within a wave they start and end in
any order.  In whatever order they do, no more of them run than the wave is wide
(`running_le`), they are never stuck (`exists_step`) and need two steps each
(`length_le`), and each ends as it would alone (`run_ended`).
-/

namespace Snii.Lib.Waves

/-- Where a task stands: in front of its start, in front of its answer, or at its end. -/
inductive Task (A B C : Type) where
  | queued (a : A)
  | running (b : B)
  | ended (c : C)

/-- How tasks go: the width of a wave, what a start leads to, and what an answer does. -/
structure Rules (A B C E : Type) where
  width : Nat
  start : A → B ⊕ C
  finish : B → E → C

/-- A task is taken up, or answered. -/
inductive Event (E : Type) where
  | start (i : Nat)
  | answer (i : Nat) (e : E)

variable {A B C E : Type}

namespace Task

/-- Whether the task was answered. -/
def hasEnded : Task A B C → Bool
  | ended _ => true
  | _ => false

/-- Whether the task waits for its answer. -/
def isRunning : Task A B C → Bool
  | running _ => true
  | _ => false

/-- Whether the task was not taken up. -/
def isQueued : Task A B C → Bool
  | queued _ => true
  | _ => false

/-- The steps a task has left. -/
def left : Task A B C → Nat
  | queued _ => 2
  | running _ => 1
  | ended _ => 0

end Task

/-- What the tasks ended with, once all have. -/
def outcomes : List (Task A B C) → Option (List C)
  | [] => some []
  | .ended c :: ts => (outcomes ts).map (c :: ·)
  | _ :: _ => none

namespace Rules

/-- A task behind its start. -/
def launch (r : Rules A B C E) (a : A) : Task A B C :=
  match r.start a with
  | .inl b => .running b
  | .inr c => .ended c

/-- What a task ends with when it runs alone. -/
def alone (r : Rules A B C E) (a : A) (e : E) : C :=
  match r.start a with
  | .inl b => r.finish b e
  | .inr c => c

/-- The first task of the wave. -/
def waveOf (r : Rules A B C E) (i : Nat) : Nat := i / r.width * r.width

/-- One event; there is none for a task it does not fit. -/
def step (r : Rules A B C E) (ts : List (Task A B C)) : Event E → Option (List (Task A B C))
  | .start i =>
      match ts[i]? with
      | some (.queued a) =>
          if (ts.take (r.waveOf i)).all Task.hasEnded then some (ts.set i (r.launch a)) else none
      | _ => none
  | .answer i e =>
      match ts[i]? with
      | some (.running b) => some (ts.set i (.ended (r.finish b e)))
      | _ => none

/-- Events one after the other. -/
def run (r : Rules A B C E) : List (Task A B C) → List (Event E) → Option (List (Task A B C))
  | ts, [] => some ts
  | ts, ev :: evs =>
      match r.step ts ev with
      | none => none
      | some ts => run r ts evs

end Rules

variable {r : Rules A B C E} {ts ts' : List (Task A B C)} {ev : Event E} {evs : List (Event E)}

/-! ## A step -/

theorem waveOf_le (r : Rules A B C E) (i : Nat) : r.waveOf i ≤ i := Nat.div_mul_le_self i r.width

/-- What an event does to its task. -/
inductive Moves (r : Rules A B C E) : Event E → Nat → Task A B C → Task A B C → Prop where
  | start (i : Nat) (a : A) : Moves r (.start i) i (.queued a) (r.launch a)
  | answer (i : Nat) (b : B) (e : E) :
      Moves r (.answer i e) i (.running b) (.ended (r.finish b e))

/-- **A step** moves one task, which is no later than the first wave with a task left. -/
theorem step_moves (h : r.step ts ev = some ts') : ∃ i t t', Moves r ev i t t' ∧
    ts[i]? = some t ∧ ts' = ts.set i t' ∧
      (t.isQueued = true → ∀ j < r.waveOf i, ∀ u, ts[j]? = some u → u.hasEnded = true) := by
  cases ev with
  | start i =>
      rw [Rules.step] at h
      split at h
      · rename_i a htask
        split at h
        · rename_i hearlier
          cases h
          refine ⟨i, .queued a, r.launch a, .start i a, htask, rfl, fun _ j hj u hu => ?_⟩
          apply List.all_eq_true.mp hearlier
          apply List.mem_of_getElem? (i := j)
          rw [List.getElem?_take_of_lt hj]
          exact hu
        · cases h
      · cases h
  | answer i e =>
      rw [Rules.step] at h
      split at h
      · rename_i b htask
        cases h
        exact ⟨i, .running b, _, .answer i b e, htask, rfl, fun hq => by cases hq⟩
      · cases h

theorem Moves.not_ended {i : Nat} {t t' : Task A B C} (h : Moves r ev i t t') :
    t.hasEnded = false := by
  cases h <;> rfl

theorem Moves.left_lt {i : Nat} {t t' : Task A B C} (h : Moves r ev i t t') :
    t'.left < t.left := by
  cases h with
  | start i a =>
      rw [Rules.launch]
      split
      · exact Nat.one_lt_two
      · exact Nat.zero_lt_two
  | answer i b e => exact Nat.one_pos

theorem getElem?_set_task {i j : Nat} {t t' u : Task A B C} (ht : ts[i]? = some t)
    (h : (ts.set i t')[j]? = some u) : (j = i ∧ u = t') ∨ (j ≠ i ∧ ts[j]? = some u) := by
  by_cases hji : j = i
  · rw [hji, List.getElem?_set_self (List.getElem?_eq_some_iff.mp ht).1] at h
    exact .inl ⟨hji, (Option.some.inj h).symm⟩
  · rw [List.getElem?_set_ne (Ne.symm hji)] at h
    exact .inr ⟨hji, h⟩

/-! ## Waves -/

/-- Behind the start of a task, the earlier waves have ended. -/
def InWaves (r : Rules A B C E) (ts : List (Task A B C)) : Prop :=
  ∀ i t, ts[i]? = some t → t.isQueued = false →
    ∀ j < r.waveOf i, ∀ u, ts[j]? = some u → u.hasEnded = true

theorem inWaves_queued (r : Rules A B C E) (as : List A) : InWaves r (as.map .queued) := by
  intro i t ht hq
  rw [List.getElem?_map] at ht
  obtain ⟨a, -, rfl⟩ := Option.map_eq_some_iff.mp ht
  cases hq

theorem InWaves.step (h : InWaves r ts) (hstep : r.step ts ev = some ts') : InWaves r ts' := by
  obtain ⟨k, t, t', hmoves, hk, rfl, hguard⟩ := step_moves hstep
  have hended := hmoves.not_ended
  intro i u hu hq j hj v hv
  have hji : j < i := lt_of_lt_of_le hj (waveOf_le r i)
  have hearlier : ∀ x, ts[j]? = some x → x.hasEnded = true := by
    cases getElem?_set_task hk hu with
    | inl hself =>
        rw [hself.1] at hj
        cases htq : t.isQueued with
        | true => exact hguard htq j hj
        | false => exact h k t hk htq j hj
    | inr hother => exact h i u hother.2 hq j hj
  cases getElem?_set_task hk hv with
  | inl hself =>
      -- the task that moves has not ended, so it is in no earlier wave
      rw [hself.1] at hearlier
      rw [hearlier t hk] at hended
      cases hended
  | inr hother => exact hearlier v hother.2

theorem Task.not_running_of_ended {t : Task A B C} (h : t.hasEnded = true) :
    t.isRunning = false := by
  cases t with
  | ended c => rfl
  | queued a => rfl
  | running b => cases h

theorem Task.not_queued_of_running {t : Task A B C} (h : t.isRunning = true) :
    t.isQueued = false := by
  cases t with
  | running b => rfl
  | queued a => cases h
  | ended c => rfl

/-- Where a task runs, nothing runs in front of its wave. -/
theorem InWaves.front (h : InWaves r ts) {i : Nat} {t : Task A B C} (ht : ts[i]? = some t)
    (hrun : t.isRunning = true) : (ts.take (r.waveOf i)).countP Task.isRunning = 0 := by
  apply List.countP_eq_zero.mpr
  intro u hu
  obtain ⟨j, hj⟩ := List.mem_iff_getElem?.mp hu
  have hlt : j < r.waveOf i := by
    have hlen := (List.getElem?_eq_some_iff.mp hj).1
    rw [List.length_take] at hlen
    omega
  rw [List.getElem?_take_of_lt hlt] at hj
  have hended := h i t ht (Task.not_queued_of_running hrun) j hlt u hj
  rw [Task.not_running_of_ended hended]
  exact Bool.false_ne_true

/-- Nor behind it. -/
theorem InWaves.back (hpos : 0 < r.width) (h : InWaves r ts) {i : Nat} {t : Task A B C}
    (ht : ts[i]? = some t) (hrun : t.isRunning = true) :
    (ts.drop (r.waveOf i + r.width)).countP Task.isRunning = 0 := by
  apply List.countP_eq_zero.mpr
  intro u hu hrun'
  obtain ⟨j, hj⟩ := List.mem_iff_getElem?.mp hu
  rw [List.getElem?_drop] at hj
  have hnext : r.waveOf i + r.width = (i / r.width + 1) * r.width := by
    rw [Rules.waveOf, Nat.succ_mul]
  have hin : i < r.waveOf i + r.width := by
    rw [hnext, ← Nat.div_lt_iff_lt_mul hpos]
    exact Nat.lt_succ_self _
  have hlater : r.waveOf i + r.width ≤ r.waveOf (r.waveOf i + r.width + j) := by
    rw [hnext, Rules.waveOf]
    apply Nat.mul_le_mul_right
    rw [Nat.le_div_iff_mul_le hpos]
    exact Nat.le_add_right _ _
  have hended := h _ u hj (Task.not_queued_of_running hrun') i (lt_of_lt_of_le hin hlater) t ht
  rw [Task.not_running_of_ended hended] at hrun
  cases hrun

/-- **A wave** is all that runs. -/
theorem running_le (hpos : 0 < r.width) (h : InWaves r ts) :
    (ts.filter Task.isRunning).length ≤ r.width := by
  rw [← List.countP_eq_length_filter]
  by_cases hsome : ∃ t ∈ ts, t.isRunning = true
  · obtain ⟨t, ht, hrun⟩ := hsome
    obtain ⟨i, hi⟩ := List.mem_iff_getElem?.mp ht
    have hsplit : ts = ts.take (r.waveOf i) ++
        ((ts.drop (r.waveOf i)).take r.width ++ ts.drop (r.waveOf i + r.width)) := by
      rw [← List.drop_drop, List.take_append_drop, List.take_append_drop]
    rw [hsplit, List.countP_append, List.countP_append, h.front hi hrun, h.back hpos hi hrun,
      Nat.zero_add, Nat.add_zero]
    apply Nat.le_trans List.countP_le_length
    rw [List.length_take]
    exact Nat.min_le_left _ _
  · have hzero : ts.countP Task.isRunning = 0 :=
      List.countP_eq_zero.mpr fun t ht hrun => hsome ⟨t, ht, hrun⟩
    rw [hzero]
    exact Nat.zero_le _

/-! ## Progress -/

/-- **A list of tasks** with one left has a step: a start, or any answer. -/
theorem exists_step (h : ∃ t ∈ ts, t.hasEnded = false) :
    ∃ i, (r.step ts (.start i)).isSome ∨ ∀ e, (r.step ts (.answer i e)).isSome := by
  have hlt : ts.findIdx (fun t => !t.hasEnded) < ts.length := by
    apply List.findIdx_lt_length.mpr
    simpa using h
  have hfirst : (!ts[ts.findIdx fun t => !t.hasEnded].hasEnded) = true :=
    List.findIdx_getElem (w := hlt)
  have hbefore : (ts.take (r.waveOf (ts.findIdx fun t => !t.hasEnded))).all Task.hasEnded =
      true := by
    rw [List.all_eq_true]
    intro u hu
    obtain ⟨j, hj, rfl⟩ := List.mem_take_iff_getElem.mp hu
    have hle := waveOf_le r (ts.findIdx fun t => !t.hasEnded)
    have hlt' : j < ts.findIdx fun t => !t.hasEnded := by omega
    have hnot := List.not_of_lt_findIdx hlt'
    simpa using hnot
  have htask := List.getElem?_eq_getElem hlt
  refine ⟨ts.findIdx fun t => !t.hasEnded, ?_⟩
  cases hcase : ts[ts.findIdx fun t => !t.hasEnded] with
  | queued a =>
      rw [hcase] at htask
      apply Or.inl
      rw [Rules.step, htask]
      simp only
      rw [if_pos hbefore]
      rfl
  | running b =>
      rw [hcase] at htask
      apply Or.inr
      intro e
      rw [Rules.step, htask]
      rfl
  | ended c =>
      rw [hcase] at hfirst
      cases hfirst

/-- The steps that the tasks have left. -/
def stepsLeft (ts : List (Task A B C)) : Nat := (ts.map Task.left).sum

theorem stepsLeft_set {i : Nat} {t t' : Task A B C} (h : ts[i]? = some t) :
    stepsLeft (ts.set i t') + t.left = stepsLeft ts + t'.left := by
  induction ts generalizing i with
  | nil => cases h
  | cons u ts ih =>
      unfold stepsLeft at ih ⊢
      cases i with
      | zero =>
          cases h
          simp only [List.set_cons_zero, List.map_cons, List.sum_cons]
          omega
      | succ i =>
          have hrest := ih h
          simp only [List.set_cons_succ, List.map_cons, List.sum_cons]
          omega

theorem stepsLeft_lt (h : r.step ts ev = some ts') : stepsLeft ts' < stepsLeft ts := by
  obtain ⟨i, t, t', hmoves, hi, rfl, -⟩ := step_moves h
  have hset := @stepsLeft_set A B C ts i t t' hi
  have hlt := hmoves.left_lt
  omega

theorem stepsLeft_queued (as : List A) :
    stepsLeft (as.map (Task.queued : A → Task A B C)) = 2 * as.length := by
  induction as with
  | nil => rfl
  | cons a as ih =>
      rw [stepsLeft] at ih ⊢
      rw [List.map_cons, List.map_cons, List.sum_cons, ih, List.length_cons, Task.left]
      omega

/-- **A run** is no longer than the steps that were left. -/
theorem length_le (h : r.run ts evs = some ts') : evs.length + stepsLeft ts' ≤ stepsLeft ts := by
  induction evs generalizing ts with
  | nil =>
      cases h
      exact Nat.le_of_eq (Nat.zero_add _)
  | cons ev evs ih =>
      rw [Rules.run] at h
      split at h
      · cases h
      · rename_i ts1 hstep
        have hrest := ih h
        have hlt := stepsLeft_lt hstep
        rw [List.length_cons]
        omega

theorem InWaves.run (h : InWaves r ts) (hrun : r.run ts evs = some ts') : InWaves r ts' := by
  induction evs generalizing ts with
  | nil =>
      cases hrun
      exact h
  | cons ev evs ih =>
      rw [Rules.run] at hrun
      split at hrun
      · cases hrun
      · rename_i ts1 hstep
        exact ih (h.step hstep) hrun

/-! ## Outcomes -/

/-- Every answer among the events is the given one of its task. -/
def Consistent (answers : Nat → E) (evs : List (Event E)) : Prop :=
  ∀ i e, Event.answer i e ∈ evs → e = answers i

/-- A task on its way to where its answer leads. -/
inductive Stage (r : Rules A B C E) (a : A) (e : E) : Task A B C → Prop where
  | queued : Stage r a e (.queued a)
  | running (b : B) (h : r.start a = .inl b) : Stage r a e (.running b)
  | ended : Stage r a e (.ended (r.alone a e))

/-- The tasks on their way. -/
structure Underway (r : Rules A B C E) (answers : Nat → E) (as : List A)
    (ts : List (Task A B C)) : Prop where
  length : ts.length = as.length
  stage : ∀ i a t, as[i]? = some a → ts[i]? = some t → Stage r a (answers i) t

variable {answers : Nat → E} {as : List A}

theorem underway_queued (r : Rules A B C E) (answers : Nat → E) (as : List A) :
    Underway r answers as (as.map .queued) := by
  refine ⟨List.length_map _, fun i a t ha ht => ?_⟩
  rw [List.getElem?_map, ha] at ht
  cases ht
  exact .queued

theorem Stage.ended_eq {a : A} {e : E} {t : Task A B C} {c : C} (h : Stage r a e t)
    (ht : t = .ended c) : c = r.alone a e := by
  cases h with
  | queued => cases ht
  | running b hstart => cases ht
  | ended => exact (Task.ended.inj ht).symm

theorem Stage.move {i : Nat} {a : A} {t t' : Task A B C} (h : Stage r a (answers i) t)
    (hmoves : Moves r ev i t t') (hans : Consistent answers [ev]) :
    Stage r a (answers i) t' := by
  cases hmoves with
  | start i a' =>
      cases h
      rw [Rules.launch]
      split
      · rename_i b hstart
        exact .running b hstart
      · rename_i c hstart
        have halone : r.alone a (answers i) = c := by rw [Rules.alone, hstart]
        rw [← halone]
        exact .ended
  | answer i b e =>
      cases h with
      | running b hstart =>
          have halone : r.alone a (answers i) = r.finish b e := by
            rw [Rules.alone, hstart, hans i e (List.mem_singleton_self _)]
          rw [← halone]
          exact .ended

theorem Underway.step (h : Underway r answers as ts) (hans : Consistent answers [ev])
    (hstep : r.step ts ev = some ts') : Underway r answers as ts' := by
  obtain ⟨i, t, t', hmoves, hi, rfl, -⟩ := step_moves hstep
  refine ⟨by rw [List.length_set, h.length], fun j a u ha hu => ?_⟩
  cases getElem?_set_task hi hu with
  | inl hself =>
      rw [hself.1] at ha ⊢
      rw [hself.2]
      exact (h.stage i a t ha hi).move hmoves hans
  | inr hother => exact h.stage j a u ha hother.2

theorem Underway.run (h : Underway r answers as ts) (hans : Consistent answers evs)
    (hrun : r.run ts evs = some ts') : Underway r answers as ts' := by
  induction evs generalizing ts with
  | nil =>
      cases hrun
      exact h
  | cons ev evs ih =>
      rw [Rules.run] at hrun
      split at hrun
      · cases hrun
      · rename_i ts1 hstep
        have hone : Consistent answers [ev] := fun i e hmem => by
          rw [List.mem_singleton] at hmem
          exact hans i e (hmem ▸ List.mem_cons_self)
        exact ih (h.step hone hstep) (fun i e hmem => hans i e (List.mem_cons_of_mem ev hmem)) hrun

theorem outcomes_eq {cs : List C} (h : outcomes ts = some cs) : ts = cs.map .ended := by
  induction ts generalizing cs with
  | nil =>
      cases h
      rfl
  | cons t ts ih =>
      cases t with
      | queued a => cases h
      | running b => cases h
      | ended c =>
          rw [outcomes, Option.map_eq_some_iff] at h
          obtain ⟨rest, hrest, rfl⟩ := h
          rw [List.map_cons, ← ih hrest]

theorem exists_outcomes (h : ∀ t ∈ ts, t.hasEnded = true) : ∃ cs, outcomes ts = some cs := by
  induction ts with
  | nil => exact ⟨[], rfl⟩
  | cons t ts ih =>
      obtain ⟨hhead, htail⟩ := List.forall_mem_cons.mp h
      obtain ⟨cs, hcs⟩ := ih htail
      cases t with
      | queued a => cases hhead
      | running b => cases hhead
      | ended c => exact ⟨c :: cs, by rw [outcomes, hcs, Option.map_some]⟩

/-- **A run that ends** leaves each task as it would have ended alone. -/
theorem run_ended {cs : List C} (hans : Consistent answers evs)
    (hrun : r.run (as.map .queued) evs = some ts) (hcs : outcomes ts = some cs) :
    cs = as.zipIdx.map fun x => r.alone x.1 (answers x.2) := by
  have hway := (underway_queued r answers as).run hans hrun
  rw [outcomes_eq hcs] at hway
  have hlength : cs.length = as.length := by rw [← hway.length, List.length_map]
  apply List.ext_getElem?
  intro i
  rw [List.getElem?_map, List.getElem?_zipIdx]
  cases ha : as[i]? with
  | none =>
      have hle := List.getElem?_eq_none_iff.mp ha
      rw [List.getElem?_eq_none_iff.mpr (by omega)]
      rfl
  | some a =>
      have hlt := (List.getElem?_eq_some_iff.mp ha).1
      have hc : cs[i]? = some cs[i] := List.getElem?_eq_getElem (by omega)
      have hstage := hway.stage i a (.ended cs[i]) ha (by rw [List.getElem?_map, hc]; rfl)
      rw [hc, hstage.ended_eq rfl, Nat.zero_add]
      rfl

theorem ended_final {i : Nat} {t : Task A B C} (hi : ts[i]? = some t) (ht : t.hasEnded = true)
    (hrun : r.run ts evs = some ts') (e : E) : Event.answer i e ∉ evs := by
  induction evs generalizing ts with
  | nil => exact List.not_mem_nil
  | cons ev evs ih =>
      rw [Rules.run] at hrun
      split at hrun
      · cases hrun
      · rename_i ts1 hstep
        obtain ⟨k, u, u', hmoves, hk, rfl, -⟩ := step_moves hstep
        have hended := hmoves.not_ended
        have hne : k ≠ i := by
          rintro rfl
          rw [hk] at hi
          cases hi
          rw [ht] at hended
          cases hended
        have hstays : (ts.set k u')[i]? = some t := by
          rw [List.getElem?_set_ne hne]
          exact hi
        intro hmem
        cases List.mem_cons.mp hmem with
        | inl hnow =>
            rw [← hnow] at hmoves
            cases hmoves
            exact hne rfl
        | inr hlater => exact ih hstays hrun hlater

/-- **A task is answered once**, so the answers of a run are a function of the task. -/
theorem exists_answers (e₀ : E) (hrun : r.run ts evs = some ts') :
    ∃ answers, Consistent answers evs := by
  induction evs generalizing ts with
  | nil => exact ⟨fun _ => e₀, fun i e hmem => absurd hmem List.not_mem_nil⟩
  | cons ev evs ih =>
      rw [Rules.run] at hrun
      split at hrun
      · cases hrun
      · rename_i ts1 hstep
        obtain ⟨answers, hlater⟩ := ih hrun
        cases ev with
        | start i =>
            refine ⟨answers, fun j e hmem => ?_⟩
            cases List.mem_cons.mp hmem with
            | inl hnow => cases hnow
            | inr hin => exact hlater j e hin
        | answer i e =>
            obtain ⟨k, t, t', hmoves, hk, rfl, -⟩ := step_moves hstep
            cases hmoves with
            | answer i b e =>
                have hset : (ts.set i (.ended (r.finish b e)))[i]? =
                    some (.ended (r.finish b e)) :=
                  List.getElem?_set_self (List.getElem?_eq_some_iff.mp hk).1
                refine ⟨fun j => if j = i then e else answers j, fun j e' hmem => ?_⟩
                cases List.mem_cons.mp hmem with
                | inl hnow =>
                    cases hnow
                    exact (if_pos rfl).symm
                | inr hin =>
                    have hne : j ≠ i := by
                      rintro rfl
                      exact ended_final hset rfl hrun e' hin
                    show e' = if j = i then e else answers j
                    rw [if_neg hne]
                    exact hlater j e' hin

/-- The answers of a run are as the events were, also where a task was not answered. -/
theorem Consistent.given {P : E → Prop} {e₀ : E} (hans : Consistent answers evs)
    (hevs : ∀ i e, Event.answer i e ∈ evs → P e) (he₀ : P e₀) :
    ∃ answers', Consistent answers' evs ∧ ∀ i, P (answers' i) := by
  classical
  refine ⟨fun i => if Event.answer i (answers i) ∈ evs then answers i else e₀,
    fun i e hmem => ?_, fun i => ?_⟩
  · have heq := hans i e hmem
    rw [heq] at hmem
    rw [heq]
    exact (if_pos hmem).symm
  · by_cases hmem : Event.answer i (answers i) ∈ evs
    · show P (if Event.answer i (answers i) ∈ evs then answers i else e₀)
      rw [if_pos hmem]
      exact hevs i (answers i) hmem
    · show P (if Event.answer i (answers i) ∈ evs then answers i else e₀)
      rw [if_neg hmem]
      exact he₀

/-- **Whatever the answers**, there is an order in which all tasks end. -/
theorem exists_run (r : Rules A B C E) (answers : Nat → E) (ts : List (Task A B C)) :
    ∃ evs ts' cs, Consistent answers evs ∧ r.run ts evs = some ts' ∧ outcomes ts' = some cs := by
  by_cases hleft : ∃ t ∈ ts, t.hasEnded = false
  · have hstep : ∃ ev ts1, Consistent answers [ev] ∧ r.step ts ev = some ts1 := by
      obtain ⟨i, hmove⟩ := @exists_step A B C E r ts hleft
      cases hmove with
      | inl hstart =>
          obtain ⟨ts1, hts1⟩ := Option.isSome_iff_exists.mp hstart
          exact ⟨.start i, ts1, fun j e hmem => (nomatch List.mem_singleton.mp hmem), hts1⟩
      | inr hanswer =>
          obtain ⟨ts1, hts1⟩ := Option.isSome_iff_exists.mp (hanswer (answers i))
          refine ⟨.answer i (answers i), ts1, fun j e hmem => ?_, hts1⟩
          cases List.mem_singleton.mp hmem
          rfl
    obtain ⟨ev, ts1, hone, hts1⟩ := hstep
    have hlt := stepsLeft_lt hts1
    obtain ⟨evs, ts', cs, hans, hrun, hcs⟩ := exists_run r answers ts1
    refine ⟨ev :: evs, ts', cs, fun i e hmem => ?_, ?_, hcs⟩
    · cases List.mem_cons.mp hmem with
      | inl hnow => exact hone i e (hnow ▸ List.mem_singleton_self _)
      | inr hin => exact hans i e hin
    · rw [Rules.run, hts1]
      exact hrun
  · have hall : ∀ t ∈ ts, t.hasEnded = true := by
      intro t ht
      cases hended : t.hasEnded with
      | true => rfl
      | false => exact absurd ⟨t, ht, hended⟩ hleft
    obtain ⟨cs, hcs⟩ := exists_outcomes hall
    exact ⟨[], ts, cs, fun i e hmem => absurd hmem List.not_mem_nil, rfl, hcs⟩
termination_by stepsLeft ts

end Snii.Lib.Waves
