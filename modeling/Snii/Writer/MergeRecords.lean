import Mathlib.Logic.Relation
import Snii.Writer.MergeUnchecked
import Snii.Writer.MergeRuns

/-!
# The records merged together

`MergeRuns` takes, round by round, those of the runs' next records that have the least
term, in run order, and merges them into one term.  Which records meet in a round is a
matter of the files alone (`rounds`): neither the sizes of the reads nor what a callback
pulls has a say.  The merge rejects bad runs exactly when the records of every round fit
together.
-/

namespace Snii.Writer.SpillRunCodec

open Snii.Lib.ByteReader Snii.Common

/-! ## Rounds -/

/-- The next record of each run, in run order. -/
def nextHeads (files : List RunFile) : List FileRecord := files.filterMap fun f => f.records.head?

/-- No run's next record has a smaller term. -/
def isLeast (vocab : List Bytes) (files : List RunFile) (x : FileRecord) : Bool :=
  (nextHeads files).all fun y => !decide (vocab.getD y.termId [] < vocab.getD x.termId [])

/-- The records merged next. -/
def nextRecords (vocab : List Bytes) (files : List RunFile) : List FileRecord :=
  (nextHeads files).filter (isLeast vocab files)

/-- The files behind the records merged next. -/
def behindNext (vocab : List Bytes) (files : List RunFile) : List RunFile :=
  files.map fun f => if f.records.head?.any (isLeast vocab files) then f.tail else f

/-- The groups of records merged one after the other, up to the first defect of a file. -/
def rounds (vocab : List Bytes) : Nat → List RunFile → List (List FileRecord)
  | 0, _ => []
  | fuel + 1, files =>
      if RunFile.broken ∈ files ∨ nextRecords vocab files = [] then []
      else nextRecords vocab files :: rounds vocab fuel (behindNext vocab files)

/-- How many records the files have left. -/
def recordCount (files : List RunFile) : Nat := (files.map fun f => f.records.length).sum

@[simp] theorem RunFile.records_tail (f : RunFile) : f.tail.records = f.records.tail := rfl

/-- The records behind the chosen heads and the chosen heads are all records. -/
theorem recordCount_behind (p : FileRecord → Bool) (files : List RunFile) :
    recordCount (files.map fun f => if f.records.head?.any p then f.tail else f) +
      ((nextHeads files).filter p).length = recordCount files := by
  induction files with
  | nil => rfl
  | cons f files ih =>
      rw [recordCount, nextHeads] at ih ⊢
      rw [recordCount] at ih ⊢
      rw [List.map_cons, List.map_cons, List.map_cons, List.sum_cons, List.sum_cons]
      cases hrec : f.records with
      | nil =>
          rw [List.filterMap_cons_none (by rw [hrec]; rfl)]
          simp only [List.head?_nil, Option.any_none, Bool.false_eq_true, if_false, hrec]
          omega
      | cons x later =>
          rw [List.filterMap_cons_some (b := x) (by rw [hrec]; rfl)]
          by_cases hp : p x = true
          · simp only [List.head?_cons, Option.any_some, hp, if_true, RunFile.records_tail, hrec,
              List.tail_cons, List.filter_cons_of_pos, List.length_cons]
            omega
          · simp only [List.head?_cons, Option.any_some, hp, Bool.false_eq_true, if_false, hrec,
              not_false_eq_true, List.filter_cons_of_neg, List.length_cons]
            omega

/-- Every round uses up records. -/
theorem recordCount_lt {vocab : List Bytes} {files : List RunFile}
    (h : nextRecords vocab files ≠ []) : recordCount (behindNext vocab files) < recordCount files := by
  have hcount := recordCount_behind (isLeast vocab files) files
  have hpos := List.length_pos_iff.mpr h
  rw [nextRecords] at hpos
  rw [behindNext]
  omega

/-- A round breaks no file and mends none. -/
theorem clean_behindNext (vocab : List Bytes) (files : List RunFile) :
    (∀ f ∈ behindNext vocab files, f.clean = true) ↔ ∀ f ∈ files, f.clean = true := by
  rw [behindNext, List.forall_mem_map]
  refine forall₂_congr fun f _ => ?_
  split <;> rfl

/-! ## The state of the loop -/

abbrev LoopState := List HeapItem × List RunReader

/-- The loop's state: sound readers, and an ordered heap of distinct runs whose loaded
records have ids of the vocabulary.  `todo` are the runs to be moved on. -/
structure LoopOk (cfg : MergeConfig) (todo : List Nat) (heap : List HeapItem)
    (rs : List RunReader) : Prop where
  sound : SoundReaders cfg.hasPositions rs
  items : ∀ it ∈ heap, it.termId < cfg.vocab.length ∧ ∃ r, rs[it.run]? = some r ∧
    r.exhausted = false ∧ r.posRemaining = r.posCount ∧ r.currentId = it.termId
  live : ∀ i ∈ todo, ∃ r, rs[i]? = some r ∧ r.exhausted = false
  nodup : (todo ++ heap.map HeapItem.run).Nodup
  sorted : heap.Pairwise (heapLe cfg.vocab)

/-- What a run's reader has still to read. -/
def remainingAt (n : Nat) (rs : List RunReader) (i : Nat) : RunFile :=
  (rs[i]?.map (RunReader.remaining n)).getD RunFile.ended

/-- What the merge has still to take from a run. -/
def fileAt (n : Nat) (heap : List HeapItem) (rs : List RunReader) (i : Nat) : RunFile :=
  if i ∈ heap.map HeapItem.run then remainingAt n rs i else RunFile.ended

def filesOf (n : Nat) (heap : List HeapItem) (rs : List RunReader) : List RunFile :=
  (List.range rs.length).map (fileAt n heap rs)

/-- The reader stands at the first record of what remains. -/
theorem RunReader.head?_remaining (n : Nat) (r : RunReader) :
    (r.remaining n).records.head? = some r.fileRecord := by
  rw [RunReader.remaining, RunReader.fileRecord, RunFile.cons]
  cases decide r.Complete <;> rfl

/-- Behind the record: what is later, or a broken file. -/
theorem RunReader.tail_remaining (n : Nat) (r : RunReader) :
    (r.remaining n).tail = if r.Complete then r.later n else RunFile.broken := by
  rw [RunReader.remaining, RunFile.cons]
  by_cases hc : r.Complete
  · rw [decide_eq_true hc, if_pos rfl, if_pos hc]
    rfl
  · rw [decide_eq_false hc, if_neg hc]
    rfl

theorem remaining_ne_broken (n : Nat) (r : RunReader) : r.remaining n ≠ RunFile.broken := by
  intro h
  have hhead := r.head?_remaining n
  rw [h] at hhead
  cases hhead

variable {cfg : MergeConfig} {rs rs' : List RunReader} {heap : List HeapItem} {group : List Nat}

theorem remainingAt_eq {i : Nat} {r : RunReader} (hr : rs[i]? = some r) (n : Nat) :
    remainingAt n rs i = r.remaining n := by
  rw [remainingAt, hr]
  rfl

/-- Another reader's file is not touched. -/
theorem remainingAt_set_ne {i j : Nat} (h : i ≠ j) (n : Nat) (r : RunReader) :
    remainingAt n (rs.set i r) j = remainingAt n rs j := by
  rw [remainingAt, List.getElem?_set_ne h, remainingAt]

theorem fileAt_set_ne {i j : Nat} (h : i ≠ j) (n : Nat) (r : RunReader) :
    fileAt n heap (rs.set i r) j = fileAt n heap rs j := by
  rw [fileAt, remainingAt_set_ne h, fileAt]

theorem mem_runs_pushItem {vocab : List Bytes} {id i j : Nat} :
    j ∈ (pushItem vocab ⟨id, i⟩ heap).map HeapItem.run ↔ j = i ∨ j ∈ heap.map HeapItem.run := by
  rw [((pushItem_perm vocab ⟨id, i⟩ heap).map HeapItem.run).mem_iff, List.map_cons, List.mem_cons]

/-- Nor is it by another reader's heap item. -/
theorem fileAt_push_ne {vocab : List Bytes} {id i j : Nat} (h : i ≠ j) (n : Nat) :
    fileAt n (pushItem vocab ⟨id, i⟩ heap) rs j = fileAt n heap rs j := by
  rw [fileAt, fileAt]
  simp only [mem_runs_pushItem, Ne.symm h, false_or]

/-- No run of a sound state is broken: a defect ends the merge when it is met. -/
theorem LoopOk.not_broken {todo : List Nat} (h : LoopOk cfg todo heap rs) (n : Nat) :
    RunFile.broken ∉ filesOf n heap rs := by
  intro hmem
  obtain ⟨i, -, hi⟩ := List.mem_map.mp hmem
  rw [fileAt] at hi
  split at hi
  · rename_i hrun
    obtain ⟨it, hit, rfl⟩ := List.mem_map.mp hrun
    obtain ⟨-, r, hr, -⟩ := h.items it hit
    rw [remainingAt_eq hr] at hi
    exact remaining_ne_broken n r hi
  · cases hi

/-- A group's readers moving among their positions change nothing that is still to come. -/
theorem Shifted.remainingAt_eq (h : Shifted group rs rs') (n i : Nat) :
    remainingAt n rs' i = remainingAt n rs i := by
  rw [remainingAt, remainingAt]
  rcases Nat.lt_or_ge i rs.length with hlt | hge
  · obtain ⟨r', hr', hmoved⟩ := h.moved i rs[i] (List.getElem?_eq_getElem hlt)
    rw [hr', List.getElem?_eq_getElem hlt, Option.map_some, Option.map_some, hmoved.remaining_eq]
  · rw [List.getElem?_eq_none hge, List.getElem?_eq_none (by rw [h.length]; exact hge)]

/-- A sound reader may take a sound reader's place. -/
theorem SoundReaders.set {hasPositions : Bool} {i : Nat} {r : RunReader}
    (h : SoundReaders hasPositions rs)
    (hr : InputAt r.input r.input.unread ∧ r.docids.length = r.freqs.length ∧
      r.hasPositions = hasPositions) : SoundReaders hasPositions (rs.set i r) := by
  intro x hx
  rcases List.mem_or_eq_of_mem_set hx with hx | rfl
  · exact h x hx
  · exact hr

theorem LoopOk.set {i : Nat} {todo : List Nat} {r : RunReader} (h : LoopOk cfg (i :: todo) heap rs)
    (hr : InputAt r.input r.input.unread ∧ r.docids.length = r.freqs.length ∧
      r.hasPositions = cfg.hasPositions) : LoopOk cfg todo heap (rs.set i r) := by
  have hnodup := h.nodup
  rw [List.cons_append, List.nodup_cons] at hnodup
  have hother : ∀ j ∈ todo ++ heap.map HeapItem.run, (rs.set i r)[j]? = rs[j]? := by
    intro j hj
    apply List.getElem?_set_ne
    rintro rfl
    exact hnodup.1 hj
  exact {
    sound := h.sound.set hr
    items := by
      intro it hit
      rw [hother _ (List.mem_append_right _ (List.mem_map_of_mem hit))]
      exact h.items it hit
    live := by
      intro j hj
      rw [hother j (List.mem_append_left _ hj)]
      exact h.live j (List.mem_cons_of_mem _ hj)
    nodup := hnodup.2
    sorted := h.sorted }

/-- A reader that stands at a record may be pushed. -/
theorem LoopOk.push {i : Nat} {todo : List Nat} {r : RunReader} (h : LoopOk cfg todo heap rs)
    (hi : i ∉ todo ++ heap.map HeapItem.run) (hid : r.currentId < cfg.vocab.length)
    (hr : rs[i]? = some r) (hlive : r.exhausted = false) (hrem : r.posRemaining = r.posCount) :
    LoopOk cfg todo (pushItem cfg.vocab ⟨r.currentId, i⟩ heap) rs where
  sound := h.sound
  items := by
    intro it hit
    rcases List.mem_cons.mp ((pushItem_perm _ _ _).mem_iff.mp hit) with rfl | hit
    · exact ⟨hid, r, hr, hlive, hrem, rfl⟩
    · exact h.items it hit
  live := h.live
  nodup := by
    have hperm := ((pushItem_perm cfg.vocab ⟨r.currentId, i⟩ heap).map HeapItem.run).append_left todo
    rw [hperm.nodup_iff]
    exact List.perm_middle.nodup_iff.mpr (List.nodup_cons.mpr ⟨hi, h.nodup⟩)
  sorted := pushItem_sorted _ h.sorted

/-! ## Moving on -/

/-- What moving a group on comes to: its runs stand at their next records or have left the
merge, or one of them has no record to be read. -/
inductive Advanced (cfg : MergeConfig) (todo : List Nat) (heap : List HeapItem)
    (rs : List RunReader) : EStateM.Result Status (List RunReader) (List HeapItem) → Prop
  | moved {heap' : List HeapItem} {rs' : List RunReader} (ok : LoopOk cfg [] heap' rs')
      (length : rs'.length = rs.length)
      (files : ∀ i, fileAt cfg.vocab.length heap' rs' i =
        if i ∈ todo then (remainingAt cfg.vocab.length rs i).tail
        else fileAt cfg.vocab.length heap rs i) :
      Advanced cfg todo heap rs (.ok heap' rs')
  | failed {s : Status} {rs' : List RunReader} (reported : s.Reported)
      (broken : ∃ i ∈ todo, (remainingAt cfg.vocab.length rs i).tail = RunFile.broken) :
      Advanced cfg todo heap rs (.error s rs')

/-- One run moved on, then the others. -/
theorem Advanced.cons {i : Nat} {todo : List Nat} {heap' : List HeapItem} {r : RunReader}
    {result : EStateM.Result Status (List RunReader) (List HeapItem)} (hi : i ∉ todo)
    (hthis : fileAt cfg.vocab.length heap' (rs.set i r) i = (remainingAt cfg.vocab.length rs i).tail)
    (hothers : ∀ j, i ≠ j →
      fileAt cfg.vocab.length heap' (rs.set i r) j = fileAt cfg.vocab.length heap rs j)
    (h : Advanced cfg todo heap' (rs.set i r) result) : Advanced cfg (i :: todo) heap rs result := by
  cases h with
  | moved ok length files =>
      refine Advanced.moved ok (length.trans List.length_set) fun j => ?_
      rw [files]
      by_cases hj : i = j
      · subst hj
        rw [if_neg hi, if_pos List.mem_cons_self, hthis]
      · rw [remainingAt_set_ne hj, hothers j hj]
        simp only [List.mem_cons, Ne.symm hj, false_or]
  | failed reported broken =>
      obtain ⟨j, hj, htail⟩ := broken
      rw [remainingAt_set_ne (by rintro rfl; exact hi hj)] at htail
      exact Advanced.failed reported ⟨j, List.mem_cons_of_mem _ hj, htail⟩

/-- **Advancing the readers of a group** leaves each behind its record, or fails. -/
theorem advanceAll_run {todo : List Nat} (h : LoopOk cfg todo heap rs) :
    Advanced cfg todo heap rs (advanceAll cfg.vocab todo heap rs) := by
  induction todo generalizing heap rs with
  | nil => exact Advanced.moved h rfl fun i => rfl
  | cons i todo ih =>
      obtain ⟨r, hr, hlive⟩ := h.live i List.mem_cons_self
      obtain ⟨hinput, hlen, hflag⟩ := h.sound r (List.mem_of_getElem? hr)
      have hnodup := h.nodup
      rw [List.cons_append, List.nodup_cons] at hnodup
      have hnotTodo : i ∉ todo := fun hi => hnodup.1 (List.mem_append_left _ hi)
      have hnotHeap : i ∉ heap.map HeapItem.run := fun hi => hnodup.1 (List.mem_append_right _ hi)
      have hi : i < rs.length := (List.getElem?_eq_some_iff.mp hr).1
      have htail : (remainingAt cfg.vocab.length rs i).tail =
          if r.Complete then r.later cfg.vocab.length else RunFile.broken := by
        rw [remainingAt_eq hr, r.tail_remaining]
      rw [advanceAll]
      rcases RunReader.advance_run hinput cfg.vocab.length with
        ⟨i2, hadv, hend, hdone, hlater⟩ | ⟨x, rest, i2, hadv, hin, hdocs, hdone, hlater⟩ |
        ⟨s, r', hadv, hs, hlater⟩
      · -- the run has ended
        set r' : RunReader := { r with input := i2, posRemaining := 0, exhausted := true } with hr'
        rw [bind_ok (onReader_ok hr hadv), bind_ok (onReader_get (List.getElem?_set_self hi))]
        simp only [hr', if_true]
        refine Advanced.cons hnotTodo ?_ (fun j hj => fileAt_set_ne hj _ _)
          (ih (h.set (r := r') ⟨hend.self, hlen, hflag⟩))
        rw [htail, if_pos hdone, hlater, fileAt, if_neg hnotHeap]
      · -- a record is loaded
        have hload : InputAt (r.load i2 x).input (r.load i2 x).input.unread := hin.self
        have hloop := h.set (r := r.load i2 x) ⟨hload, hdocs, hflag⟩
        have hget : (rs.set i (r.load i2 x))[i]? = some (r.load i2 x) := List.getElem?_set_self hi
        have hexh : (r.load i2 x).exhausted = false := hlive
        rw [bind_ok (onReader_ok hr hadv), bind_ok (onReader_get hget), hexh]
        simp only [Bool.false_eq_true, if_false]
        by_cases hid : x.termId < cfg.vocab.length
        · rw [if_neg (show ¬ (r.load i2 x).currentId ≥ cfg.vocab.length from Nat.not_le.mpr hid)]
          refine Advanced.cons hnotTodo ?_ (fun j hj => ?_)
            (ih (hloop.push hnodup.1 hid hget hexh rfl))
          · rw [htail, if_pos hdone, hlater, if_pos hid, fileAt,
              if_pos (mem_runs_pushItem.mpr (.inl rfl)), remainingAt_eq hget]
          · rw [fileAt_push_ne hj, fileAt_set_ne hj]
        · rw [if_pos (show (r.load i2 x).currentId ≥ cfg.vocab.length from Nat.not_lt.mp hid)]
          refine Advanced.failed (corruption_reported _) ⟨i, List.mem_cons_self, ?_⟩
          rw [htail, if_pos hdone, hlater, if_neg hid]
      · rw [bind_error (onReader_error hr hadv)]
        refine Advanced.failed hs ⟨i, List.mem_cons_self, ?_⟩
        rw [htail]
        split
        · rename_i hdone
          exact hlater hdone
        · rfl

/-! ## Opening -/

theorem LoopOk.front {r : RunReader} (h : LoopOk cfg [] heap rs)
    (hr : InputAt r.input r.input.unread ∧ r.docids.length = r.freqs.length ∧
      r.hasPositions = cfg.hasPositions) : LoopOk cfg [] heap (rs ++ [r]) where
  sound := by
    intro x hx
    rcases List.mem_append.mp hx with hx | hx
    · exact h.sound x hx
    · obtain rfl := List.mem_singleton.mp hx
      exact hr
  items := by
    intro it hit
    obtain ⟨hid, x, hx, hrest⟩ := h.items it hit
    refine ⟨hid, x, ?_, hrest⟩
    rw [List.getElem?_append_left (List.getElem?_eq_some_iff.mp hx).1]
    exact hx
  live := by simp
  nodup := h.nodup
  sorted := h.sorted

/-- The heap names readers there are. -/
theorem LoopOk.run_lt (h : LoopOk cfg [] heap rs) {i : Nat} (hi : i ∈ heap.map HeapItem.run) :
    i < rs.length := by
  obtain ⟨it, hit, rfl⟩ := List.mem_map.mp hi
  obtain ⟨-, r, hr, -⟩ := h.items it hit
  exact (List.getElem?_eq_some_iff.mp hr).1

/-- A reader opened behind the others: the files before it stay. -/
theorem filesOf_append {n : Nat} (h : ∀ i ∈ heap.map HeapItem.run, i < rs.length) (r : RunReader) :
    filesOf n heap (rs ++ [r]) = filesOf n heap rs ++ [RunFile.ended] := by
  have hlast : fileAt n heap (rs ++ [r]) rs.length = RunFile.ended := by
    rw [fileAt, if_neg]
    exact fun hmem => Nat.lt_irrefl _ (h _ hmem)
  rw [filesOf, List.length_append, List.length_singleton, List.range_succ, List.map_append,
    List.map_singleton, hlast, filesOf]
  congr 1
  refine List.map_congr_left fun i hi => ?_
  rw [fileAt, fileAt, remainingAt, remainingAt, List.getElem?_append_left (List.mem_range.mp hi)]

theorem filesOf_append_push {n id : Nat} {vocab : List Bytes} (r : RunReader) :
    filesOf n (pushItem vocab ⟨id, rs.length⟩ heap) (rs ++ [r]) =
      filesOf n heap rs ++ [r.remaining n] := by
  have hlast : fileAt n (pushItem vocab ⟨id, rs.length⟩ heap) (rs ++ [r]) rs.length =
      r.remaining n := by
    have hget : (rs ++ [r])[rs.length]? = some r := by simp
    rw [fileAt, if_pos (mem_runs_pushItem.mpr (.inl rfl)), remainingAt_eq hget]
  rw [filesOf, List.length_append, List.length_singleton, List.range_succ, List.map_append,
    List.map_singleton, hlast, filesOf]
  congr 1
  refine List.map_congr_left fun i hi => ?_
  have hlt := List.mem_range.mp hi
  rw [fileAt_push_ne (Nat.ne_of_gt hlt), fileAt, fileAt, remainingAt, remainingAt,
    List.getElem?_append_left hlt]

/-- **Opening** the runs: what is to be merged is what the files hold, or one of them does
not start with a record. -/
theorem openRuns_run (readSize : Nat → Nat) (files : List Bytes) (h : LoopOk cfg [] heap rs) :
    (∃ heap' rs', openRuns cfg.vocab cfg.hasPositions readSize files rs.length heap =
          .ok (heap', rs') ∧ LoopOk cfg [] heap' (rs ++ rs') ∧
        filesOf cfg.vocab.length heap' (rs ++ rs') =
          filesOf cfg.vocab.length heap rs ++ files.map (runFile cfg.vocab.length)) ∨
      ∃ s, openRuns cfg.vocab cfg.hasPositions readSize files rs.length heap = .error s ∧
        s.Reported ∧ RunFile.broken ∈ files.map (runFile cfg.vocab.length) := by
  induction files generalizing heap rs with
  | nil => exact .inl ⟨heap, [], rfl, by simpa using h, by simp⟩
  | cons file files ih =>
      set r0 := RunReader.opened file readSize cfg.hasPositions with hr0
      have hin0 : InputAt r0.input r0.input.unread :=
        ⟨Nat.le_refl _, by simp [hr0, RunReader.opened], rfl, Nat.le_refl _⟩
      have hdone0 : r0.Complete := Nat.zero_le _
      have hlater0 : r0.later cfg.vocab.length = runFile cfg.vocab.length file := rfl
      have hlt : ∀ i ∈ heap.map HeapItem.run, i < rs.length := fun i hi => h.run_lt hi
      have hlen : ∀ r : RunReader, (rs ++ [r]).length = rs.length + 1 := by simp
      rw [openRuns, ← hr0, List.map_cons]
      rcases RunReader.advance_run hin0 cfg.vocab.length with
        ⟨i2, hadv, hend, -, hlater⟩ | ⟨x, rest, i2, hadv, hin, hdocs, -, hlater⟩ |
        ⟨s, r', hadv, hs, hlater⟩
      · rw [hlater0] at hlater
        have hrec := ih (h.front (r := { r0 with input := i2, posRemaining := 0, exhausted := true })
          ⟨hend.self, rfl, rfl⟩)
        rw [hlen, filesOf_append hlt] at hrec
        rw [hadv]
        simp only [not_true_eq_false, false_and, if_false, if_true, hlater]
        rcases hrec with ⟨heap', rs', h1, h2, h3⟩ | ⟨s, h1, h2, h3⟩
        · rw [h1, ok_bind]
          refine .inl ⟨heap', _, rfl, ?_, ?_⟩
          · simpa only [List.append_assoc, List.singleton_append] using h2
          · simpa only [List.append_assoc, List.singleton_append] using h3
        · rw [h1]
          exact .inr ⟨s, rfl, h2, List.mem_cons_of_mem _ h3⟩
      · rw [hlater0] at hlater
        have hexh : (r0.load i2 x).exhausted = false := rfl
        have hloop := h.front (r := r0.load i2 x) ⟨hin.self, hdocs, rfl⟩
        rw [hadv]
        simp only [hexh, Bool.false_eq_true, not_false_eq_true, true_and, if_false]
        by_cases hid : x.termId < cfg.vocab.length
        · have hnew : rs.length ∉ [] ++ heap.map HeapItem.run := fun hmem =>
            Nat.lt_irrefl _ (hlt _ hmem)
          have hrec := ih (hloop.push hnew hid (by simp) hexh rfl)
          rw [hlen, filesOf_append_push] at hrec
          rw [if_neg (show ¬ (r0.load i2 x).currentId ≥ cfg.vocab.length from Nat.not_le.mpr hid),
            hlater, if_pos hid]
          rcases hrec with ⟨heap', rs', h1, h2, h3⟩ | ⟨s, h1, h2, h3⟩
          · rw [h1, ok_bind]
            refine .inl ⟨heap', _, rfl, ?_, ?_⟩
            · simpa only [List.append_assoc, List.singleton_append] using h2
            · simpa only [List.append_assoc, List.singleton_append] using h3
          · rw [h1]
            exact .inr ⟨s, rfl, h2, List.mem_cons_of_mem _ h3⟩
        · rw [if_pos (show (r0.load i2 x).currentId ≥ cfg.vocab.length from Nat.not_lt.mp hid)]
          refine .inr ⟨_, rfl, corruption_reported _, ?_⟩
          rw [hlater, if_neg hid]
          exact List.mem_cons_self
      · rw [hadv]
        rw [hlater0] at hlater
        refine .inr ⟨s, rfl, hs, ?_⟩
        rw [hlater hdone0]
        exact List.mem_cons_self

/-! ## One round -/

/-- The runs whose records are merged next. -/
def groupOf (cfg : MergeConfig) : List HeapItem → List Nat
  | [] => []
  | top :: heap => ((top :: heap).takeWhile fun item =>
      cfg.vocab.getD item.termId [] = cfg.vocab.getD top.termId []).map HeapItem.run

/-- The runs that wait for a later round. -/
def restOf (cfg : MergeConfig) : List HeapItem → List HeapItem
  | [] => []
  | top :: heap => (top :: heap).dropWhile fun item =>
      cfg.vocab.getD item.termId [] = cfg.vocab.getD top.termId []

variable {top : HeapItem}

/-- The top of the heap has the least term. -/
theorem LoopOk.top_le (h : LoopOk cfg [] (top :: heap) rs) {it : HeapItem}
    (hit : it ∈ top :: heap) : cfg.vocab.getD top.termId [] ≤ cfg.vocab.getD it.termId [] := by
  rcases List.mem_cons.mp hit with rfl | hit
  · exact le_refl _
  · exact heapLe_strings ((List.pairwise_cons.mp h.sorted).1 it hit)

/-- The readers at the top item's term. -/
theorem LoopOk.groupOf_eq (h : LoopOk cfg [] (top :: heap) rs) :
    groupOf cfg (top :: heap) = ((top :: heap).filter fun item =>
      decide (cfg.vocab.getD item.termId [] = cfg.vocab.getD top.termId [])).map HeapItem.run := by
  have hfront : (top :: heap).Pairwise fun a b =>
      decide (cfg.vocab.getD b.termId [] = cfg.vocab.getD top.termId []) = true →
        decide (cfg.vocab.getD a.termId [] = cfg.vocab.getD top.termId []) = true := by
    refine h.sorted.imp_of_mem fun {a b} ha _ hab hb => ?_
    have hb' := of_decide_eq_true hb
    exact decide_eq_true (le_antisymm (hb' ▸ heapLe_strings hab) (h.top_le ha))
  rw [groupOf, (takeWhile_eq_filter hfront).1]

/-- A group of the heap is ready to be merged. -/
theorem LoopOk.groupOf_ready (h : LoopOk cfg [] (top :: heap) rs) :
    Fresh rs (groupOf cfg (top :: heap)) ∧ (groupOf cfg (top :: heap)).Nodup := by
  have hsub : (groupOf cfg (top :: heap)).Sublist ((top :: heap).map HeapItem.run) :=
    (List.takeWhile_sublist _).map _
  refine ⟨?_, hsub.nodup h.nodup⟩
  intro i hi
  obtain ⟨it, hit, rfl⟩ := List.mem_map.mp (hsub.subset hi)
  obtain ⟨-, r, hr, -, hrem, -⟩ := h.items it hit
  exact ⟨r, hr, hrem⟩

/-- The runs of a group stand in run order. -/
theorem LoopOk.groupOf_ascending (h : LoopOk cfg [] (top :: heap) rs) :
    (groupOf cfg (top :: heap)).Pairwise (· < ·) := by
  have hnodup := h.groupOf_ready.2
  rw [h.groupOf_eq] at hnodup ⊢
  rw [List.Nodup, List.pairwise_map] at hnodup
  rw [List.pairwise_map]
  have hsorted := (h.sorted.filter fun item =>
    decide (cfg.vocab.getD item.termId [] = cfg.vocab.getD top.termId [])).and hnodup
  refine hsorted.imp_of_mem fun {a b} ha hb ⟨hab, hne⟩ => ?_
  have ha' := of_decide_eq_true (List.mem_filter.mp ha).2
  have hb' := of_decide_eq_true (List.mem_filter.mp hb).2
  rcases hab with hlt | ⟨-, hle⟩
  · rw [ha', hb'] at hlt
    exact absurd hlt (lt_irrefl _)
  · exact Nat.lt_of_le_of_ne hle hne

/-- The next record of a run. -/
theorem head?_fileAt (n i : Nat) : (fileAt n heap rs i).records.head? =
    if i ∈ heap.map HeapItem.run then rs[i]?.map RunReader.fileRecord else none := by
  rw [fileAt]
  split
  · rw [remainingAt]
    cases rs[i]? with
    | none => rfl
    | some r => exact r.head?_remaining n
  · rfl

/-- The next heads are those of the files the heap names. -/
theorem nextHeads_filesOf (n : Nat) : nextHeads (filesOf n heap rs) =
    (List.range rs.length).filterMap fun i => (fileAt n heap rs i).records.head? := by
  rw [nextHeads, filesOf, List.filterMap_map]
  rfl

/-- They are the records the heap's readers stand at. -/
theorem LoopOk.mem_nextHeads (h : LoopOk cfg [] heap rs) (n : Nat) {x : FileRecord} :
    x ∈ nextHeads (filesOf n heap rs) ↔
      ∃ it ∈ heap, ∃ r, rs[it.run]? = some r ∧ r.currentId = it.termId ∧ x = r.fileRecord := by
  rw [nextHeads_filesOf, List.mem_filterMap]
  constructor
  · rintro ⟨i, -, hx⟩
    rw [head?_fileAt] at hx
    split at hx
    · rename_i hrun
      obtain ⟨it, hit, rfl⟩ := List.mem_map.mp hrun
      obtain ⟨-, r, hr, -, -, hid⟩ := h.items it hit
      rw [hr] at hx
      exact ⟨it, hit, r, hr, hid, (Option.some.inj hx).symm⟩
    · cases hx
  · rintro ⟨it, hit, r, hr, -, rfl⟩
    refine ⟨it.run, List.mem_range.mpr (List.getElem?_eq_some_iff.mp hr).1, ?_⟩
    rw [head?_fileAt, if_pos (List.mem_map_of_mem hit), hr]
    rfl

/-- A record of the heap has the least term when its run is in the group. -/
theorem LoopOk.isLeast_iff (h : LoopOk cfg [] (top :: heap) rs) (n : Nat) {it : HeapItem}
    (hit : it ∈ top :: heap) {r : RunReader} (hr : rs[it.run]? = some r) :
    isLeast cfg.vocab (filesOf n (top :: heap) rs) r.fileRecord = true ↔
      cfg.vocab.getD it.termId [] = cfg.vocab.getD top.termId [] := by
  obtain ⟨-, r', hr', -, -, hid⟩ := h.items it hit
  rw [hr] at hr'
  cases hr'
  have hterm : cfg.vocab.getD r.fileRecord.termId [] = cfg.vocab.getD it.termId [] := by rw [← hid]; rfl
  rw [isLeast, List.all_eq_true]
  simp only [hterm, Bool.not_eq_true', decide_eq_false_iff_not]
  constructor
  · intro hleast
    obtain ⟨-, x, hx, -, -, hxid⟩ := h.items top List.mem_cons_self
    have hnot := hleast x.fileRecord ((h.mem_nextHeads n).mpr
      ⟨top, List.mem_cons_self, x, hx, hxid, rfl⟩)
    have htop : cfg.vocab.getD x.fileRecord.termId [] = cfg.vocab.getD top.termId [] := by
      rw [← hxid]; rfl
    rw [htop] at hnot
    exact le_antisymm (not_lt.mp hnot) (h.top_le hit)
  · intro heq y hy
    obtain ⟨it', hit', x, -, hxid, rfl⟩ := (h.mem_nextHeads n).mp hy
    have hx : cfg.vocab.getD x.fileRecord.termId [] = cfg.vocab.getD it'.termId [] := by
      rw [← hxid]; rfl
    rw [hx, heq]
    exact not_lt.mpr (h.top_le hit')

theorem LoopOk.mem_groupOf (h : LoopOk cfg [] (top :: heap) rs) {it : HeapItem}
    (hit : it ∈ top :: heap) : it.run ∈ groupOf cfg (top :: heap) ↔
      cfg.vocab.getD it.termId [] = cfg.vocab.getD top.termId [] := by
  have hnodup := h.nodup
  rw [List.nil_append] at hnodup
  rw [h.groupOf_eq, List.mem_map]
  constructor
  · rintro ⟨it', hit', hrun⟩
    obtain ⟨hmem, hterm⟩ := List.mem_filter.mp hit'
    have heq : it' = it := List.inj_on_of_nodup_map hnodup hmem hit hrun
    exact heq ▸ of_decide_eq_true hterm
  · intro hterm
    exact ⟨it, List.mem_filter.mpr ⟨hit, decide_eq_true hterm⟩, rfl⟩

/-- The runs not in the group wait. -/
theorem mem_restOf {i : Nat} (hi : i ∉ groupOf cfg (top :: heap)) :
    i ∈ (restOf cfg (top :: heap)).map HeapItem.run ↔ i ∈ (top :: heap).map HeapItem.run := by
  have hsplit : (top :: heap).map HeapItem.run = groupOf cfg (top :: heap) ++
      (restOf cfg (top :: heap)).map HeapItem.run := by
    rw [groupOf, restOf, ← List.map_append, List.takeWhile_append_dropWhile]
  rw [hsplit, List.mem_append, or_iff_right hi]

/-- **The group is the least heads**: a reader is in it exactly if its head is least. -/
theorem LoopOk.any_isLeast (h : LoopOk cfg [] (top :: heap) rs) (n i : Nat) :
    (fileAt n (top :: heap) rs i).records.head?.any
        (isLeast cfg.vocab (filesOf n (top :: heap) rs)) = true ↔
      i ∈ groupOf cfg (top :: heap) := by
  rw [head?_fileAt]
  by_cases hrun : i ∈ (top :: heap).map HeapItem.run
  · obtain ⟨it, hit, rfl⟩ := List.mem_map.mp hrun
    obtain ⟨-, r, hr, -⟩ := h.items it hit
    rw [if_pos hrun, hr, h.mem_groupOf hit, ← h.isLeast_iff n hit hr]
    rfl
  · rw [if_neg hrun]
    refine iff_of_false (by simp) fun hmem => hrun ?_
    rw [h.groupOf_eq] at hmem
    exact (List.filter_sublist.map _).subset hmem

/-- **The records of a round**: the group the heap gives is what the files say. -/
theorem LoopOk.nextRecords_eq (h : LoopOk cfg [] (top :: heap) rs) (n : Nat) :
    nextRecords cfg.vocab (filesOf n (top :: heap) rs) =
      members rs (groupOf cfg (top :: heap)) := by
  have hgroup : groupOf cfg (top :: heap) =
      (List.range rs.length).filter fun i => decide (i ∈ groupOf cfg (top :: heap)) := by
    refine h.groupOf_ascending.eq_of_mem_iff (List.pairwise_lt_range.filter _) fun i => ?_
    rw [List.mem_filter, List.mem_range, decide_eq_true_eq, iff_and_self]
    intro hi
    obtain ⟨r, hr, -⟩ := h.groupOf_ready.1 i hi
    exact (List.getElem?_eq_some_iff.mp hr).1
  rw [nextRecords, nextHeads_filesOf, List.filter_filterMap, members]
  conv_rhs => rw [hgroup, List.filterMap_filter]
  refine List.filterMap_congr fun i _ => ?_
  have hany := h.any_isLeast n i
  have hhead := @head?_fileAt rs (top :: heap) n i
  by_cases hi : i ∈ groupOf cfg (top :: heap)
  · have hrun : i ∈ (top :: heap).map HeapItem.run := by
      rw [h.groupOf_eq] at hi
      exact (List.filter_sublist.map _).subset hi
    have hleast := hany.mpr hi
    rw [if_pos hrun] at hhead
    rw [decide_eq_true hi, if_pos rfl]
    rw [hhead] at hleast ⊢
    cases hr : rs[i]? with
    | none => rfl
    | some r =>
        rw [hr] at hleast
        exact Option.filter_some_pos hleast
  · rw [decide_eq_false hi]
    simp only [Bool.false_eq_true, if_false]
    cases hx : (fileAt n (top :: heap) rs i).records.head? with
    | none => rfl
    | some x =>
        rw [hx] at hany
        exact Option.filter_some_neg (Bool.eq_false_iff.mpr fun hleast => hi (hany.mp hleast))

/-- What is behind the least heads, reader by reader. -/
theorem LoopOk.behindNext_eq (h : LoopOk cfg [] (top :: heap) rs) (n : Nat) :
    behindNext cfg.vocab (filesOf n (top :: heap) rs) = (List.range rs.length).map fun i =>
      if i ∈ groupOf cfg (top :: heap) then (remainingAt n rs i).tail
      else fileAt n (top :: heap) rs i := by
  have hleast := h.any_isLeast n
  rw [behindNext]
  generalize isLeast cfg.vocab (filesOf n (top :: heap) rs) = p at hleast ⊢
  rw [filesOf, List.map_map]
  refine List.map_congr_left fun i _ => ?_
  have hany := hleast i
  rw [Function.comp_apply]
  by_cases hi : i ∈ groupOf cfg (top :: heap)
  · have hrun : i ∈ (top :: heap).map HeapItem.run := by
      rw [h.groupOf_eq] at hi
      exact (List.filter_sublist.map _).subset hi
    rw [if_pos (hany.mpr hi), if_pos hi, fileAt, if_pos hrun]
  · rw [if_neg fun hp => hi (hany.mp hp), if_neg hi]

/-- The records of a group have as many freqs as docids. -/
theorem members_sound {hasPositions : Bool} (hrs : SoundReaders hasPositions rs) :
    ∀ x ∈ members rs group, x.docids.length = x.freqs.length := by
  intro x hx
  obtain ⟨i, -, hi⟩ := List.mem_filterMap.mp hx
  obtain ⟨r, hr, rfl⟩ := Option.map_eq_some_iff.mp hi
  exact (hrs r (List.mem_of_getElem? hr)).2.1

/-- The state between a term's emission and the next records. -/
theorem LoopOk.shifted (h : LoopOk cfg [] (top :: heap) rs)
    (hshift : Shifted (groupOf cfg (top :: heap)) rs rs') :
    LoopOk cfg (groupOf cfg (top :: heap)) (restOf cfg (top :: heap)) rs' := by
  have hsplit : top :: heap = ((top :: heap).takeWhile fun item =>
      cfg.vocab.getD item.termId [] = cfg.vocab.getD top.termId []) ++ restOf cfg (top :: heap) :=
    List.takeWhile_append_dropWhile.symm
  have hnodup := h.nodup
  rw [List.nil_append, hsplit, List.map_append] at hnodup
  have hsorted := h.sorted
  rw [hsplit] at hsorted
  refine ⟨hshift.sound h.sound, ?_, ?_, hnodup, (List.pairwise_append.mp hsorted).2.1⟩
  · intro it hit
    have hmem : it ∈ top :: heap := by rw [hsplit]; exact List.mem_append_right _ hit
    obtain ⟨hid, r, hr, hrest⟩ := h.items it hmem
    refine ⟨hid, r, ?_, hrest⟩
    rw [hshift.others]
    · exact hr
    · intro htaken
      exact (List.nodup_append.mp hnodup).2.2 _ htaken _ (List.mem_map_of_mem hit) rfl
  · intro i hi
    obtain ⟨it, hit, rfl⟩ := List.mem_map.mp hi
    have hmem : it ∈ top :: heap := by rw [hsplit]; exact List.mem_append_left _ hit
    obtain ⟨-, r, hr, hlive, -⟩ := h.items it hmem
    obtain ⟨r', hr', hmoved⟩ := hshift.moved _ r hr
    exact ⟨r', hr', hmoved.exhausted.trans hlive⟩

/-- The records merged have as many positions as their freqs say. -/
def Balanced (cfg : MergeConfig) (g : List FileRecord) : Prop :=
  cfg.hasPositions = true → availablePositions cfg g = (foldDocs {} g).freqs.sum

/-- The records can be copied into one term. -/
def Fits (cfg : MergeConfig) (g : List FileRecord) : Prop := ¬ Overfull cfg g ∧ ¬ Misfit cfg g

/-- A term as the writer needs it. -/
def Emitted.Agrees (hasPositions : Bool) (e : Emitted) : Prop :=
  e.postings.freqs.length = e.postings.docids.length ∧
    (hasPositions = true → e.available = e.postings.freqs.sum)

/-- The state after one term, where the loop goes on. -/
def mergeStep (cfg : MergeConfig) (s : LoopState) : Option LoopState :=
  match s.1 with
  | [] => none
  | top :: heap =>
      let term := cfg.vocab.getD top.termId []
      let same := fun item : HeapItem => cfg.vocab.getD item.termId [] = term
      let matching := ((top :: heap).takeWhile same).map HeapItem.run
      match emitTerm cfg term matching s.2 with
      | .ok (_, none) readers =>
          match advanceAll cfg.vocab matching ((top :: heap).dropWhile same) readers with
          | .ok heap readers => some (heap, readers)
          | .error _ _ => none
      | _ => none

/-- What one round of the loop comes to. -/
inductive Round (cfg : MergeConfig) (heap : List HeapItem) (rs : List RunReader) : Prop
  | next (e : Emitted) (heap' : List HeapItem) (rs' : List RunReader)
      (loop : ∀ fuel, mergeLoop cfg (fuel + 1) heap rs =
        (mergeLoop cfg fuel heap' rs').map fun r => (r.1, e :: r.2))
      (step : mergeStep cfg (heap, rs) = some (heap', rs')) (ok : LoopOk cfg [] heap' rs')
      (fits : Fits cfg (nextRecords cfg.vocab (filesOf cfg.vocab.length heap rs)))
      (agrees : e.Agrees cfg.hasPositions ↔
        Balanced cfg (nextRecords cfg.vocab (filesOf cfg.vocab.length heap rs)))
      (files : filesOf cfg.vocab.length heap' rs' =
        behindNext cfg.vocab (filesOf cfg.vocab.length heap rs))
  | stop (s : Status) (es : List Emitted)
      (loop : ∀ fuel, mergeLoop cfg (fuel + 1) heap rs = some (.error s, es))
      (step : mergeStep cfg (heap, rs) = none)
      (reported : s.Reported ↔ Fits cfg (nextRecords cfg.vocab (filesOf cfg.vocab.length heap rs)))
      (broken : s.Reported →
        RunFile.broken ∈ behindNext cfg.vocab (filesOf cfg.vocab.length heap rs))

/-- A record whose positions are cut short breaks its file. -/
theorem LoopOk.broken_of_cut (h : LoopOk cfg [] (top :: heap) rs) (n : Nat)
    (hcut : ∃ x ∈ members rs (groupOf cfg (top :: heap)), x.complete = false) :
    RunFile.broken ∈ behindNext cfg.vocab (filesOf n (top :: heap) rs) := by
  obtain ⟨x, hx, hshort⟩ := hcut
  obtain ⟨i, hi, hix⟩ := List.mem_filterMap.mp hx
  obtain ⟨r, hr, rfl⟩ := Option.map_eq_some_iff.mp hix
  rw [h.behindNext_eq, List.mem_map]
  refine ⟨i, List.mem_range.mpr (List.getElem?_eq_some_iff.mp hr).1, ?_⟩
  rw [if_pos hi, remainingAt_eq hr, r.tail_remaining, if_neg (of_decide_eq_false hshort)]

/-- A round that has emitted its term. -/
theorem round_emitted (h : LoopOk cfg [] (top :: heap) rs) {e : Emitted}
    (hemit : emitTerm cfg (cfg.vocab.getD top.termId []) (groupOf cfg (top :: heap)) rs =
      .ok (e, none) rs') (hshift : Shifted (groupOf cfg (top :: heap)) rs rs')
    (hfits : Fits cfg (nextRecords cfg.vocab (filesOf cfg.vocab.length (top :: heap) rs)))
    (hagrees : e.Agrees cfg.hasPositions ↔
      Balanced cfg (nextRecords cfg.vocab (filesOf cfg.vocab.length (top :: heap) rs))) :
    Round cfg (top :: heap) rs := by
  have hbehind := h.behindNext_eq cfg.vocab.length
  have hadvance := advanceAll_run (h.shifted hshift)
  generalize hadv : advanceAll cfg.vocab (groupOf cfg (top :: heap)) (restOf cfg (top :: heap)) rs' =
    moved at hadvance
  rw [groupOf] at hemit
  rw [groupOf, restOf] at hadv
  cases hadvance with
  | @moved heap2 rs2 ok length files =>
      refine Round.next e heap2 rs2 (fun fuel => ?_) ?_ ok hfits hagrees ?_
      · simp only [mergeLoop, hemit, hadv]
      · simp only [mergeStep, hemit, hadv]
      · rw [hbehind, filesOf, length, hshift.length]
        refine List.map_congr_left fun i _ => ?_
        rw [files i, hshift.remainingAt_eq]
        by_cases hi : i ∈ groupOf cfg (top :: heap)
        · rw [if_pos hi, if_pos hi]
        · rw [if_neg hi, if_neg hi, fileAt, fileAt, hshift.remainingAt_eq]
          simp only [mem_restOf hi]
  | @failed s rs2 reported broken =>
      refine Round.stop s [e] (fun fuel => ?_) ?_ (iff_of_true reported hfits) fun _ => ?_
      · simp only [mergeLoop, hemit, hadv]
      · simp only [mergeStep, hemit, hadv]
      · obtain ⟨i, hi, htail⟩ := broken
        rw [hshift.remainingAt_eq] at htail
        obtain ⟨r, hr, -⟩ := h.groupOf_ready.1 i hi
        rw [hbehind, List.mem_map]
        exact ⟨i, List.mem_range.mpr (List.getElem?_eq_some_iff.mp hr).1, by rw [if_pos hi, htail]⟩

/-- **One round** from a sound state. -/
theorem round_run (h : LoopOk cfg [] (top :: heap) rs) : Round cfg (top :: heap) rs := by
  obtain ⟨hfresh, hnodup⟩ := h.groupOf_ready
  have hrecords := h.nextRecords_eq cfg.vocab.length
  have hcut := h.broken_of_cut cfg.vocab.length
  have houtside : ¬ Status.outOfBounds.Reported := fun hs => hs.1 rfl
  have hthrown : ¬ Status.thrown.Reported := fun hs => hs.2 rfl
  have hemission := emitTerm_run (cfg.vocab.getD top.termId []) h.sound hfresh hnodup
  generalize hemit : emitTerm cfg (cfg.vocab.getD top.termId []) (groupOf cfg (top :: heap)) rs =
    result at hemission
  cases hemission with
  | @emitted e rs1 shift docs available fits granted =>
      refine round_emitted h hemit shift (by rw [hrecords]; exact ⟨granted, fits⟩) ?_
      have hlen := @length_foldDocs {} _ rfl (@members_sound rs (groupOf cfg (top :: heap)) _ h.sound)
      rw [hrecords, Emitted.Agrees, Balanced, docs.1, docs.2]
      constructor
      · rintro ⟨-, hsum⟩ hp
        rw [← available hp]
        exact hsum hp
      · intro hbal
        refine ⟨hlen.symm, fun hp => ?_⟩
        rw [available hp]
        exact hbal hp
  | misfit misfit granted =>
      refine Round.stop .outOfBounds [] (fun fuel => ?_) ?_ ?_ fun hs => absurd hs houtside
      · rw [groupOf] at hemit
        simp only [mergeLoop, hemit]
      · rw [groupOf] at hemit
        simp only [mergeStep, hemit]
      · rw [hrecords]
        exact iff_of_false houtside fun hfits => hfits.2 misfit
  | overfull overfull =>
      refine Round.stop .thrown [] (fun fuel => ?_) ?_ ?_ fun hs => absurd hs hthrown
      · rw [groupOf] at hemit
        simp only [mergeLoop, hemit]
      · rw [groupOf] at hemit
        simp only [mergeStep, hemit]
      · rw [hrecords]
        exact iff_of_false hthrown fun hfits => hfits.1 overfull
  | @failed s rs1 reported cut fits granted =>
      refine Round.stop s [] (fun fuel => ?_) ?_ ?_ fun _ => hcut cut
      · rw [groupOf] at hemit
        simp only [mergeLoop, hemit]
      · rw [groupOf] at hemit
        simp only [mergeStep, hemit]
      · rw [hrecords]
        exact iff_of_true reported ⟨granted, fits⟩
  | @cutShort e s rs1 reported cut fits granted =>
      refine Round.stop s [e] (fun fuel => ?_) ?_ ?_ fun _ => hcut cut
      · rw [groupOf] at hemit
        simp only [mergeLoop, hemit]
      · rw [groupOf] at hemit
        simp only [mergeStep, hemit]
      · rw [hrecords]
        exact iff_of_true reported ⟨granted, fits⟩

/-! ## The loop -/

/-- What the loop returns, said of the files alone. -/
structure LoopResult (cfg : MergeConfig) (files : List RunFile) (groups : List (List FileRecord))
    (st : Result Unit) (es : List Emitted) : Prop where
  reported : (∀ s, st = .error s → s.Reported) ↔ ∀ g ∈ groups, Fits cfg g
  ok : st = .ok () ↔ (∀ f ∈ files, f.clean = true) ∧ ∀ g ∈ groups, Fits cfg g
  agrees : st = .ok () →
    ((∀ e ∈ es, e.Agrees cfg.hasPositions) ↔ ∀ g ∈ groups, Balanced cfg g)

/-- No round of broken files. -/
theorem rounds_broken {vocab : List Bytes} {fuel : Nat} {files : List RunFile}
    (h : RunFile.broken ∈ files) : rounds vocab fuel files = [] := by
  cases fuel with
  | zero => rfl
  | succ fuel => rw [rounds, if_pos (.inl h)]

theorem not_clean_of_broken {files : List RunFile} (h : RunFile.broken ∈ files) :
    ¬ ∀ f ∈ files, f.clean = true := fun hall => absurd (hall _ h) (by decide)

/-- **The loop** from a sound state, with a round for every record at most. -/
theorem mergeLoop_run {fuel fuel' : Nat} (h : LoopOk cfg [] heap rs)
    (hfuel : recordCount (filesOf cfg.vocab.length heap rs) < fuel)
    (hfuel' : recordCount (filesOf cfg.vocab.length heap rs) < fuel') :
    ∃ st es, mergeLoop cfg fuel heap rs = some (st, es) ∧
      LoopResult cfg (filesOf cfg.vocab.length heap rs)
        (rounds cfg.vocab fuel' (filesOf cfg.vocab.length heap rs)) st es := by
  induction fuel generalizing fuel' heap rs with
  | zero => omega
  | succ fuel ih =>
      obtain ⟨fuel', rfl⟩ : ∃ f, fuel' = f + 1 := ⟨fuel' - 1, by omega⟩
      cases heap with
      | nil =>
          have hended : ∀ f ∈ filesOf cfg.vocab.length [] rs, f = RunFile.ended := by
            intro f hf
            obtain ⟨i, -, rfl⟩ := List.mem_map.mp hf
            rfl
          have hnone : nextRecords cfg.vocab (filesOf cfg.vocab.length [] rs) = [] := by
            have hheads : nextHeads (filesOf cfg.vocab.length [] rs) = [] := by
              rw [nextHeads, List.filterMap_eq_nil_iff]
              intro f hf
              rw [hended f hf]
              rfl
            rw [nextRecords, hheads, List.filter_nil]
          refine ⟨.ok (), [], rfl, ?_⟩
          rw [rounds, if_pos (.inr hnone)]
          refine ⟨by simp, iff_of_true rfl ⟨fun f hf => ?_, by simp⟩, by simp⟩
          rw [hended f hf]
          rfl
      | cons top heap =>
          have hnot := h.not_broken cfg.vocab.length
          have hsome : nextRecords cfg.vocab (filesOf cfg.vocab.length (top :: heap) rs) ≠ [] := by
            rw [h.nextRecords_eq]
            obtain ⟨r, hr, -⟩ := h.groupOf_ready.1 top.run
              ((h.mem_groupOf List.mem_cons_self).mpr rfl)
            intro hnil
            have hmem : r.fileRecord ∈ members rs (groupOf cfg (top :: heap)) :=
              List.mem_filterMap.mpr ⟨top.run, (h.mem_groupOf List.mem_cons_self).mpr rfl, by
                rw [hr]; rfl⟩
            rw [hnil] at hmem
            cases hmem
          have hless := recordCount_lt hsome
          rw [rounds, if_neg (not_or.mpr ⟨hnot, hsome⟩)]
          have hclean := clean_behindNext cfg.vocab (filesOf cfg.vocab.length (top :: heap) rs)
          cases round_run h with
          | next e heap' rs' loop step ok fits agrees files =>
              rw [← files] at hless hclean ⊢
              obtain ⟨st, es, hloop, hres⟩ := @ih rs' heap' fuel' ok (by omega) (by omega)
              refine ⟨st, e :: es, by rw [loop, hloop]; rfl, ?_, ?_, fun hst => ?_⟩
              · rw [hres.reported, List.forall_mem_cons, and_iff_right fits]
              · rw [hres.ok, hclean, List.forall_mem_cons, and_iff_right fits]
              · rw [List.forall_mem_cons, List.forall_mem_cons, hres.agrees hst, agrees]
          | stop s es loop step reported broken =>
              refine ⟨.error s, es, loop fuel, ?_, ?_, by simp⟩
              · rw [List.forall_mem_cons, ← reported]
                constructor
                · intro hs
                  have hrep := hs s rfl
                  rw [rounds_broken (broken hrep)]
                  exact ⟨hrep, by simp⟩
                · rintro ⟨hrep, -⟩ s' hs'
                  cases hs'
                  exact hrep
              · refine iff_of_false (by simp) ?_
                rintro ⟨hall, hfit⟩
                have hrep := reported.mpr (hfit _ List.mem_cons_self)
                exact not_clean_of_broken (broken hrep) (hclean.mpr hall)

/-! ## The whole merge -/

/-- The loop starts with no reader. -/
theorem loopOk_empty (cfg : MergeConfig) : LoopOk cfg [] [] [] :=
  ⟨by simp [SoundReaders], by simp, by simp, by simp, List.Pairwise.nil⟩

theorem recordCount_runFiles (n : Nat) (runs : List Bytes) :
    recordCount (runs.map (runFile n)) ≤ (runs.map List.length).sum := by
  rw [recordCount, List.map_map]
  exact List.sum_le_sum fun bs _ => length_records_le n bs

/-- What the merge returns, said of the files alone; `fuel` rounds are enough for them. -/
theorem mergeRuns_run (cfg : MergeConfig) (readSize : Nat → Nat) (runs : List Bytes) {fuel : Nat}
    (hfuel : recordCount (runs.map (runFile cfg.vocab.length)) < fuel) :
    ∃ st es, mergeRuns cfg readSize runs = some (st, es) ∧
      LoopResult cfg (runs.map (runFile cfg.vocab.length))
        (rounds cfg.vocab fuel (runs.map (runFile cfg.vocab.length))) st es := by
  have hcount := recordCount_runFiles cfg.vocab.length runs
  rw [mergeRuns]
  rcases openRuns_run readSize runs (loopOk_empty cfg) with
    ⟨heap, rs, hopen, hok, hfiles⟩ | ⟨s, hopen, hs, hbroken⟩
  · rw [List.nil_append] at hok hfiles
    rw [show filesOf cfg.vocab.length [] [] = [] from rfl, List.nil_append] at hfiles
    rw [← hfiles] at hfuel hcount ⊢
    rw [show ([] : List RunReader).length = 0 from rfl] at hopen
    rw [hopen]
    exact mergeLoop_run hok (by omega) hfuel
  · rw [show ([] : List RunReader).length = 0 from rfl] at hopen
    rw [hopen]
    refine ⟨.error s, [], rfl, ?_, ?_, by simp⟩
    · rw [rounds_broken hbroken]
      refine iff_of_true ?_ (by simp)
      rintro s' hs'
      cases hs'
      exact hs
    · exact iff_of_false (by simp) fun hall => not_clean_of_broken hbroken hall.1

/-- **The merge ends** on any files: the bound on the number of terms is enough. -/
theorem mergeRuns_isSome (cfg : MergeConfig) (readSize : Nat → Nat) (runs : List Bytes) :
    (mergeRuns cfg readSize runs).isSome := by
  obtain ⟨st, es, hmerge, -⟩ := mergeRuns_run cfg readSize runs (Nat.lt_succ_self _)
  rw [hmerge]
  rfl

/-- The states the loop passes through. -/
def Visits (cfg : MergeConfig) : LoopState → LoopState → Prop :=
  Relation.ReflTransGen fun s t => mergeStep cfg s = some t

/-- Ids, runs and first freqs that the loop looks up are there. -/
def IndexesInside (cfg : MergeConfig) (t : LoopState) : Prop :=
  ∀ it ∈ t.1, it.termId < cfg.vocab.length ∧
    ∃ r, t.2[it.run]? = some r ∧ r.docids.length = r.freqs.length

theorem LoopOk.indexesInside (h : LoopOk cfg [] heap rs) : IndexesInside cfg (heap, rs) := by
  intro it hit
  obtain ⟨hid, r, hr, -⟩ := h.items it hit
  exact ⟨hid, r, hr, (h.sound r (List.mem_of_getElem? hr)).2.1⟩

/-- Every state the loop passes through is sound. -/
theorem LoopOk.visits {s t : LoopState} (h : LoopOk cfg [] s.1 s.2) (hvisits : Visits cfg s t) :
    LoopOk cfg [] t.1 t.2 := by
  induction hvisits with
  | refl => exact h
  | @tail u t hvisits hstep ih =>
      obtain ⟨heap, rs⟩ := u
      cases heap with
      | nil => cases hstep
      | cons top heap =>
          cases round_run ih with
          | next e heap' rs' loop step ok fits agrees files =>
              rw [step] at hstep
              cases hstep
              exact ok
          | stop s es loop step reported broken =>
              rw [step] at hstep
              cases hstep

/-- The merge ends, stays inside its vectors, throws nothing, and returns an error or has
emitted terms the writer can use. -/
def RejectsBadRuns (cfg : MergeConfig) (readSize : Nat → Nat) (runs : List Bytes) : Prop :=
  ∃ st es, mergeRuns cfg readSize runs = some (st, es) ∧ (∀ s, st = .error s → s.Reported) ∧
    (∀ heap rs, openRuns cfg.vocab cfg.hasPositions readSize runs 0 [] = .ok (heap, rs) →
      ∀ t, Visits cfg (heap, rs) t → IndexesInside cfg t) ∧
    (st = .ok () → ∀ e ∈ es, e.Agrees cfg.hasPositions)

/-- The groups of records that meet in the rounds of a merge of these files. -/
def groupsOf (vocab : List Bytes) (runs : List Bytes) : List (List FileRecord) :=
  rounds vocab (recordCount (runs.map (runFile vocab.length)) + 1)
    (runs.map (runFile vocab.length))

/-- In every group the positions to be copied can be reserved and no boundary document takes
more positions than its record has; and if the files have no defect, the records of a group
have as many positions as their freqs add up to. -/
def RunsFit (cfg : MergeConfig) (runs : List Bytes) : Prop :=
  ∀ g ∈ groupsOf cfg.vocab runs, ¬ Overfull cfg g ∧ ¬ Misfit cfg g ∧
    ((∀ run ∈ runs, (runFile cfg.vocab.length run).clean = true) → Balanced cfg g)

/-- **Merging arbitrary bytes**: bad runs are rejected exactly when the records that meet
fit together, however the files are read and positions are pulled. -/
theorem mergeRuns_rejects_iff (cfg : MergeConfig) (readSize : Nat → Nat) (runs : List Bytes) :
    RejectsBadRuns cfg readSize runs ↔ RunsFit cfg runs := by
  obtain ⟨st, es, hmerge, hres⟩ := mergeRuns_run cfg readSize runs (Nat.lt_succ_self _)
  have hclean : (∀ f ∈ runs.map (runFile cfg.vocab.length), f.clean = true) ↔
      ∀ run ∈ runs, (runFile cfg.vocab.length run).clean = true := List.forall_mem_map
  constructor
  · rintro ⟨st', es', heq, hreported, -, hagrees⟩ g hg
    rw [hmerge] at heq
    cases heq
    have hfits := hres.reported.mp hreported
    refine ⟨(hfits g hg).1, (hfits g hg).2, fun hall => ?_⟩
    have hst := hres.ok.mpr ⟨hclean.mpr hall, hfits⟩
    exact (hres.agrees hst).mp (hagrees hst) g hg
  · intro hfit
    refine ⟨st, es, hmerge, hres.reported.mpr fun g hg => ⟨(hfit g hg).1, (hfit g hg).2.1⟩, ?_, ?_⟩
    · intro heap rs hopen t ht
      rcases openRuns_run readSize runs (loopOk_empty cfg) with
        ⟨heap', rs', hopen', hok, -⟩ | ⟨s, hopen', -⟩
      · rw [show ([] : List RunReader).length = 0 from rfl, hopen] at hopen'
        cases hopen'
        exact (LoopOk.visits (s := (heap, rs)) hok ht).indexesInside
      · rw [show ([] : List RunReader).length = 0 from rfl, hopen] at hopen'
        cases hopen'
    · intro hst
      have hall := hclean.mp (hres.ok.mp hst).1
      exact (hres.agrees hst).mpr fun g hg => (hfit g hg).2.2 hall

/-- One term `t`, with positions, on a machine that grants every reserve up to `max_size()`. -/
def oneTerm : MergeConfig where
  vocab := ["t".toUTF8.toList]
  hasPositions := true
  plan := fun _ => []
  allowStream := true
  room := some kMaxPositions

/-- Document 5 ends the first run with one position and starts the second with freq 3
and one position. -/
def splicedRuns : List Bytes :=
  [encodeRecord 0 { docids := [5], freqs := [1], positionsFlat := [0] },
   encodeRecord 0 { docids := [5], freqs := [3], positionsFlat := [1] }]

/-- A document with freq 2 and no positions. -/
def shortRuns : List Bytes := [encodeRecord 0 { docids := [5], freqs := [2] }]

/-- A document with freq 1 and a stated 2^62 positions. -/
def hugeRuns : List Bytes :=
  [Encoding.Varint.encodeVarint64 0 ++ Encoding.Varint.encodeVarint64 1 ++ appendRawU32 [5] ++
    appendRawU32 [1] ++ Encoding.Varint.encodeVarint64 (2 ^ 62)]

/-- The first merge copies past the end of a vector, the second one returns `OK`, the third
one throws. -/
theorem bad_runs_not_rejected :
    ¬ RejectsBadRuns oneTerm (fun n => n) splicedRuns ∧
      ¬ RejectsBadRuns oneTerm (fun n => n) shortRuns ∧
      ¬ RejectsBadRuns oneTerm (fun n => n) hugeRuns := by
  have hspliced : mergeRuns oneTerm (fun n => n) splicedRuns = some (.error .outOfBounds, []) := by
    decide +kernel
  have hshort : mergeRuns oneTerm (fun n => n) shortRuns =
      some (.ok (), [{ postings := { term := "t".toUTF8.toList, docids := [5], freqs := [2] } }]) := by
    decide +kernel
  have hhuge : mergeRuns oneTerm (fun n => n) hugeRuns = some (.error .thrown, []) := by
    decide +kernel
  refine ⟨?_, ?_, ?_⟩
  · rintro ⟨st, es, heq, hreported, -⟩
    rw [hspliced] at heq
    cases heq
    exact (hreported _ rfl).1 rfl
  · rintro ⟨st, es, heq, -, -, hagrees⟩
    rw [hshort] at heq
    cases heq
    have havail := (hagrees rfl _ List.mem_cons_self).2 rfl
    simp [Emitted.available] at havail
  · rintro ⟨st, es, heq, hreported, -⟩
    rw [hhuge] at heq
    cases heq
    exact (hreported _ rfl).2 rfl

end Snii.Writer.SpillRunCodec
