import Snii.Io.BatchRangeFetcher
import Snii.Lib.Blame
import Snii.Lib.Waves

/-!
# Reads from an object store

The reader of `s3_object_store.cpp` over what the store answers: a `GetObject` is sent the
first bytes of its range or fails.  A batch is read by tasks of their own, sixteen at a
time, which start and are answered in any order.  Whatever the order, a batch returns what
its ranges read one after the other would return under the same answers, and that is the
bytes of the object or an error of the store (`readBatch_sound`).
-/

namespace Snii.Io.S3ObjectStore

open Snii.Lib.Blame Snii.Lib.ByteReader Snii.Lib.Waves Snii.Common
open Snii.Io.BatchRangeFetcher (Range)

/-- What `GetObject` answers to a range. -/
inductive GetAnswer where
  | sent (n : Nat)
  | failed (message : String)

/-- The reader, whose size is that of the object when it was opened. -/
structure S3FileReader where
  isOpen : Bool := true
  objectKey : String
  size : Nat

def kMaxConcurrent : Nat := 16

/-- `std::vector::resize`. -/
def resize {α : Type} (fill : α) (xs : List α) (n : Nat) : List α :=
  xs.take n ++ List.replicate (n - xs.length) fill

/-! ## One range -/

/-- `read_at` up to its request: the range and the buffer, or what it ends with. -/
def beginRead (r : S3FileReader) (x : Range × Bytes) : (Range × Bytes) ⊕ (Bytes × Result Unit) :=
  if r.isOpen = false then .inr (x.2, .error (.ioError "read_at on unopened S3 object"))
  else if x.1.offset > r.size ∨ x.1.len > r.size - x.1.offset then
    .inr (x.2, .error (.corruption "read_at past end of object"))
  else
    let buf := resize 0 x.2 x.1.len
    if x.1.len = 0 then .inr (buf, .ok ()) else .inl (x.1, buf)

/-- `read_at` behind its request: what was sent is in front of the rest of the buffer. -/
def endRead (object : Bytes) (r : S3FileReader) (x : Range × Bytes) :
    GetAnswer → Bytes × Result Unit
  | .failed message =>
      (x.2, .error (.ioError ("GetObject(" ++ r.objectKey ++ "): " ++ message)))
  | .sent n =>
      let got := ((object.drop x.1.offset).take x.1.len).take n
      (got ++ x.2.drop got.length,
        if got.length ≠ x.1.len then
          .error (.corruption "GetObject returned fewer bytes than requested")
        else .ok ())

/-- The reads of a batch as tasks. -/
def batchRules (object : Bytes) (r : S3FileReader) :
    Rules (Range × Bytes) (Range × Bytes) (Bytes × Result Unit) GetAnswer where
  width := kMaxConcurrent
  start := beginRead r
  finish := endRead object r

/-- What a caller takes from a read: the buffer, unless it failed. -/
def resultOf (c : Bytes × Result Unit) : Result Bytes := c.2.map fun _ => c.1

def readAt (object : Bytes) (r : S3FileReader) (a : GetAnswer) (x : Range × Bytes) :
    Result Bytes :=
  resultOf ((batchRules object r).alone x a)

/-! ## A batch -/

/-- The ranges with the buffers they are read into. -/
def reads (ranges : List Range) (outs : List Bytes) : List (Range × Bytes) :=
  ranges.zip (resize [] outs ranges.length)

/-- `first_err` behind the statuses of the batch. -/
def firstErr (first : Result Unit) : List (Result Unit) → Result Unit
  | [] => first
  | s :: rest => firstErr (match first with | .ok () => s | .error e => .error e) rest

/-- A batch under a sequence of starts and answers; there is no result before the last
task has ended. -/
def readBatch (object : Bytes) (r : S3FileReader) (ranges : List Range) (outs : List Bytes)
    (events : List (Event GetAnswer)) : Option (Result (List Bytes)) := do
  let tasks ← (batchRules object r).run ((reads ranges outs).map .queued) events
  let cs ← outcomes tasks
  some ((firstErr (.ok ()) (cs.map Prod.snd)).map fun _ => cs.map Prod.fst)

/-- The default `read_batch` over the same answers: one range after the other. -/
def readEach (object : Bytes) (r : S3FileReader) (ranges : List Range) (outs : List Bytes)
    (answers : Nat → GetAnswer) : Result (List Bytes) :=
  (reads ranges outs).zipIdx.mapM fun x => readAt object r (answers x.2) x.1

variable {object : Bytes} {r : S3FileReader} {ranges : List Range} {outs : List Bytes}

theorem firstErr_error (e : Status) (statuses : List (Result Unit)) :
    firstErr (.error e) statuses = .error e := by
  induction statuses with
  | nil => rfl
  | cons s rest ih => exact ih

/-- **The statuses in request order** are those of a loop that stops at the first error. -/
theorem firstErr_mapM (cs : List (Bytes × Result Unit)) :
    ((firstErr (.ok ()) (cs.map Prod.snd)).map fun _ => cs.map Prod.fst) = cs.mapM resultOf := by
  induction cs with
  | nil => rfl
  | cons c cs ih =>
      obtain ⟨buf, status⟩ := c
      have hstep : firstErr (.ok ()) (status :: cs.map Prod.snd) =
          firstErr status (cs.map Prod.snd) := rfl
      rw [List.mapM_cons, ← ih, List.map_cons, List.map_cons, hstep]
      cases status with
      | error e =>
          simp only [firstErr_error]
          rfl
      | ok u =>
          simp only [resultOf]
          cases firstErr (.ok ()) (cs.map Prod.snd) <;> rfl

theorem mapM_alone (answers : Nat → GetAnswer) :
    ((reads ranges outs).zipIdx.map fun x =>
        (batchRules object r).alone x.1 (answers x.2)).mapM resultOf =
      readEach object r ranges outs answers := by
  rw [List.mapM_map]
  rfl

/-- **A batch in any order** is its ranges one after the other. -/
theorem readBatch_eq {answers : Nat → GetAnswer} {events : List (Event GetAnswer)}
    {result : Result (List Bytes)} (hans : Consistent answers events)
    (h : readBatch object r ranges outs events = some result) :
    result = readEach object r ranges outs answers := by
  obtain ⟨tasks, hrun, h⟩ := Option.bind_eq_some_iff.mp h
  obtain ⟨cs, hcs, h⟩ := Option.bind_eq_some_iff.mp h
  cases h
  rw [firstErr_mapM, run_ended hans hrun hcs, mapM_alone]

/-- The answers of a run that ends are a function of the range. -/
theorem readEach_of_readBatch {events : List (Event GetAnswer)} {result : Result (List Bytes)}
    (h : readBatch object r ranges outs events = some result) :
    ∃ answers, Consistent answers events ∧ result = readEach object r ranges outs answers := by
  obtain ⟨tasks, hrun, -⟩ := Option.bind_eq_some_iff.mp h
  obtain ⟨answers, hans⟩ := exists_answers (.sent 0) hrun
  exact ⟨answers, hans, readBatch_eq hans h⟩

/-- **Some order** reads the batch, whatever the answers. -/
theorem exists_readBatch (object : Bytes) (r : S3FileReader) (ranges : List Range)
    (outs : List Bytes) (answers : Nat → GetAnswer) : ∃ events, Consistent answers events ∧
      readBatch object r ranges outs events = some (readEach object r ranges outs answers) := by
  obtain ⟨events, tasks, cs, hans, hrun, hcs⟩ :=
    exists_run (batchRules object r) answers ((reads ranges outs).map .queued)
  refine ⟨events, hans, ?_⟩
  rw [readBatch, hrun, Option.bind_eq_bind, Option.bind_some, hcs, Option.bind_eq_bind,
    Option.bind_some, firstErr_mapM, run_ended hans hrun hcs, mapM_alone]

/-! ## What is read -/

/-- A failure that the store is to blame for. -/
def StoreFault (r : S3FileReader) (e : Status) : Prop :=
  (∃ message, e = .ioError ("GetObject(" ++ r.objectKey ++ "): " ++ message)) ∨
    e = .corruption "GetObject returned fewer bytes than requested"

/-- The reader was opened on the object. -/
structure Over (object : Bytes) (r : S3FileReader) : Prop where
  isOpen : r.isOpen = true
  size : r.size = object.length

theorem resize_zero {α : Type} (fill : α) (xs : List α) : resize fill xs 0 = [] := by
  rw [resize, List.take_zero, Nat.zero_sub, List.replicate_zero, List.nil_append]

theorem length_resize {α : Type} (fill : α) (xs : List α) (n : Nat) :
    (resize fill xs n).length = n := by
  rw [resize, List.length_append, List.length_take, List.length_replicate]
  omega

theorem readAt_inr {x : Range × Bytes} {c : Bytes × Result Unit} {a : GetAnswer}
    (h : beginRead r x = .inr c) : readAt object r a x = resultOf c := by
  have hstart : (batchRules object r).start x = .inr c := h
  rw [readAt, Rules.alone, hstart]

theorem readAt_inl {x b : Range × Bytes} {a : GetAnswer} (h : beginRead r x = .inl b) :
    readAt object r a x = resultOf (endRead object r b a) := by
  have hstart : (batchRules object r).start x = .inl b := h
  rw [readAt, Rules.alone, hstart]
  rfl

/-- A range past the end is refused without a request. -/
theorem readAt_past (h : Over object r) {x : Range × Bytes} (hpast : object.length < x.1.stop)
    (a : GetAnswer) : readAt object r a x = .error (.corruption "read_at past end of object") := by
  have hstop : x.1.stop = x.1.offset + x.1.len := rfl
  have hbegin : beginRead r x =
      .inr (x.2, .error (.corruption "read_at past end of object")) := by
    rw [beginRead, if_neg (by rw [h.isOpen]; decide), h.size, if_pos (by omega)]
  rw [readAt_inr hbegin]
  rfl

/-- **A range inside the object** is read, or the store has failed or sent too little. -/
theorem readAt_inside (h : Over object r) {x : Range × Bytes} (hin : x.1.stop ≤ object.length)
    (a : GetAnswer) :
    readAt object r a x = .ok ((object.drop x.1.offset).take x.1.len) ∨
      (∃ e, readAt object r a x = .error e ∧ StoreFault r e) ∧
        ∀ n, a = .sent n → n < object.length := by
  have hstop : x.1.stop = x.1.offset + x.1.len := rfl
  have hlen : ((object.drop x.1.offset).take x.1.len).length = x.1.len := by
    rw [List.length_take, List.length_drop]
    omega
  have hbegin : beginRead r x = if x.1.len = 0 then .inr (resize 0 x.2 x.1.len, .ok ())
      else .inl (x.1, resize 0 x.2 x.1.len) := by
    rw [beginRead, if_neg (by rw [h.isOpen]; decide), h.size, if_neg (by omega)]
  by_cases hzero : x.1.len = 0
  · rw [if_pos hzero, hzero, resize_zero] at hbegin
    rw [readAt_inr hbegin, hzero, List.take_zero]
    exact .inl rfl
  · rw [if_neg hzero] at hbegin
    rw [readAt_inl hbegin]
    cases a with
    | failed message => exact .inr ⟨⟨_, rfl, .inl ⟨message, rfl⟩⟩, fun n hn => nomatch hn⟩
    | sent n =>
        by_cases hall : x.1.len ≤ n
        · have hgot : ((object.drop x.1.offset).take x.1.len).take n =
              (object.drop x.1.offset).take x.1.len :=
            List.take_of_length_le (by rw [hlen]; exact hall)
          have hbuf : (resize 0 x.2 x.1.len).drop x.1.len = [] :=
            List.drop_of_length_le (Nat.le_of_eq (length_resize _ _ _))
          apply Or.inl
          simp only [endRead, hgot, hlen, hbuf, List.append_nil]
          rw [if_neg fun hne => hne rfl]
          rfl
        · have hshort : (((object.drop x.1.offset).take x.1.len).take n).length ≠ x.1.len := by
            rw [List.length_take, hlen]
            omega
          apply Or.inr
          simp only [endRead]
          rw [if_pos hshort]
          refine ⟨⟨_, rfl, .inr rfl⟩, fun m hm => ?_⟩
          cases hm
          omega

theorem readAt_ok (h : Over object r) {x : Range × Bytes} {a : GetAnswer} {data : Bytes}
    (hok : readAt object r a x = .ok data) :
    FileReader.readAt object x.1.offset x.1.len = .ok data := by
  have hstop : x.1.stop = x.1.offset + x.1.len := rfl
  by_cases hin : x.1.stop ≤ object.length
  · rw [FileReader.readAt, if_neg (by omega), ← hok]
    cases readAt_inside h hin a with
    | inl hread => exact hread.symm
    | inr hfault =>
        obtain ⟨⟨e, he, -⟩, -⟩ := hfault
        rw [hok] at he
        cases he
  · rw [readAt_past h (by omega)] at hok
    cases hok

/-- What a read fails with. -/
def ReadFault (object : Bytes) (r : S3FileReader) (ranges : List Range) (e : Status) : Prop :=
  StoreFault r e ∨
    e = .corruption "read_at past end of object" ∧ ∃ x ∈ ranges, object.length < x.stop

/-- Ranges inside the object leave the store to blame. -/
theorem ReadFault.inside {e : Status} (h : ReadFault object r ranges e)
    (hin : ∀ x ∈ ranges, x.stop ≤ object.length) : StoreFault r e := by
  cases h with
  | inl hstore => exact hstore
  | inr hpast =>
      obtain ⟨-, x, hx, hlt⟩ := hpast
      exact absurd (hin x hx) (Nat.not_le_of_lt hlt)

theorem readAt_error (h : Over object r) {x : Range × Bytes} (hx : x.1 ∈ ranges) {a : GetAnswer}
    {e : Status} (herr : readAt object r a x = .error e) : ReadFault object r ranges e := by
  by_cases hin : x.1.stop ≤ object.length
  · cases readAt_inside h hin a with
    | inl hread =>
        rw [hread] at herr
        cases herr
    | inr hfault =>
        obtain ⟨⟨e', he, hstore⟩, -⟩ := hfault
        rw [herr] at he
        cases he
        exact .inl hstore
  · rw [readAt_past h (by omega)] at herr
    cases herr
    exact .inr ⟨rfl, x.1, hx, by omega⟩

/-! ## What a batch is read as -/

theorem ranges_of_reads (ranges : List Range) (outs : List Bytes) :
    (reads ranges outs).zipIdx.map (fun x => x.1.1) = ranges := by
  have hfst : (reads ranges outs).map Prod.fst = ranges :=
    List.map_fst_zip (Nat.le_of_eq (length_resize _ _ _).symm)
  have hcompose : (fun x : (Range × Bytes) × Nat => x.1.1) = Prod.fst ∘ Prod.fst := rfl
  rw [hcompose, ← List.map_map, List.zipIdx_map_fst]
  exact hfst

/-- The ranges read from the bytes of the object. -/
def readPlain (object : Bytes) (ranges : List Range) : Result (List Bytes) :=
  ranges.mapM fun x => FileReader.readAt object x.offset x.len

theorem readPlain_eq (outs : List Bytes) : readPlain object ranges =
    (reads ranges outs).zipIdx.mapM fun x => FileReader.readAt object x.1.1.offset x.1.1.len := by
  conv_lhs => rw [readPlain, ← ranges_of_reads ranges outs, List.mapM_map]
  rfl

theorem readEach_ok (h : Over object r) {answers : Nat → GetAnswer} {got : List Bytes}
    (hok : readEach object r ranges outs answers = .ok got) :
    readPlain object ranges = .ok got := by
  rw [readPlain_eq outs]
  apply mapM_of_forall₂
  exact (mapM_eq_ok hok).imp fun x data hread => readAt_ok h hread

theorem readEach_error (h : Over object r) {answers : Nat → GetAnswer} {e : Status}
    (herr : readEach object r ranges outs answers = .error e) :
    ReadFault object r ranges e := by
  have hblames : Blames e (ReadFault object r ranges e)
      (readEach object r ranges outs answers) := by
    apply Blames.mapM
    intro x hx
    refine ⟨fun hread => readAt_error h ?_ hread⟩
    have hmem := List.mem_map_of_mem (f := fun x : (Range × Bytes) × Nat => x.1.1) hx
    rwa [ranges_of_reads] at hmem
  exact hblames.imp herr

/-- A store that sends its whole object is to blame for nothing. -/
theorem readEach_willing (h : Over object r) {answers : Nat → GetAnswer}
    (hin : ∀ x ∈ ranges, x.stop ≤ object.length)
    (hsent : ∀ i, ∃ n, answers i = .sent n ∧ object.length ≤ n) :
    readEach object r ranges outs answers = readPlain object ranges := by
  have hone : ∀ x ∈ (reads ranges outs).zipIdx,
      readAt object r (answers x.2) x.1 = .ok ((object.drop x.1.1.offset).take x.1.1.len) ∧
        FileReader.readAt object x.1.1.offset x.1.1.len =
          .ok ((object.drop x.1.1.offset).take x.1.1.len) := by
    intro x hx
    have hmem := List.mem_map_of_mem (f := fun x : (Range × Bytes) × Nat => x.1.1) hx
    rw [ranges_of_reads] at hmem
    have hstop : x.1.1.stop = x.1.1.offset + x.1.1.len := rfl
    have hstop' := hin _ hmem
    refine ⟨?_, by rw [FileReader.readAt, if_neg (by omega)]⟩
    cases readAt_inside h hstop' (answers x.2) with
    | inl hread => exact hread
    | inr hfault =>
        obtain ⟨n, hn, hle⟩ := hsent x.2
        have hlt := hfault.2 n hn
        omega
  rw [readPlain_eq outs, readEach, mapM_ok fun x hx => (hone x hx).1,
    mapM_ok fun x hx => (hone x hx).2]

/-- **A batch from the store.**  In every order of starts and answers no more than sixteen
requests are in flight, no range takes more than two steps, and some step is left until
every task has ended.  The batch then returns what its ranges read one after the other
return under the same answers, each set of answers has such an order, and what is returned
is the bytes of the object, or an error of the store or of a range past its end; a store
that sends the whole object causes none. -/
theorem readBatch_sound (h : Over object r) (ranges : List Range) (outs : List Bytes) :
    (∀ events tasks,
      (batchRules object r).run ((reads ranges outs).map .queued) events = some tasks →
        (tasks.filter Task.isRunning).length ≤ kMaxConcurrent ∧
        events.length ≤ 2 * ranges.length ∧
        ((∃ t ∈ tasks, t.hasEnded = false) →
          ∃ i, ((batchRules object r).step tasks (.start i)).isSome ∨
            ∀ a, ((batchRules object r).step tasks (.answer i a)).isSome)) ∧
      (∀ events result, readBatch object r ranges outs events = some result →
        ∃ answers, Consistent answers events ∧
          result = readEach object r ranges outs answers) ∧
      ∀ answers, (∃ events, Consistent answers events ∧
          readBatch object r ranges outs events = some (readEach object r ranges outs answers)) ∧
        (∀ got, readEach object r ranges outs answers = .ok got →
          readPlain object ranges = .ok got) ∧
        (∀ e, readEach object r ranges outs answers = .error e → ReadFault object r ranges e) ∧
        ((∀ x ∈ ranges, x.stop ≤ object.length) →
          (∀ i, ∃ n, answers i = .sent n ∧ object.length ≤ n) →
            readEach object r ranges outs answers = readPlain object ranges) := by
  refine ⟨fun events tasks hrun => ⟨?_, ?_, exists_step⟩,
    fun events result => readEach_of_readBatch, fun answers =>
      ⟨exists_readBatch object r ranges outs answers, fun got => readEach_ok h,
        fun e => readEach_error h, readEach_willing h⟩⟩
  · have hpos : 0 < (batchRules object r).width := Nat.succ_pos 15
    exact running_le hpos ((inWaves_queued _ _).run hrun)
  · have hlength : (reads ranges outs).length = ranges.length := by
      rw [reads, List.length_zip, length_resize, Nat.min_self]
    have hle := length_le hrun
    rw [stepsLeft_queued, hlength] at hle
    omega

/-- A store that sends everything has an order in which three ranges are read. -/
theorem readBatch_sound_threeRanges : ∃ events,
    readBatch [7, 8, 9] { objectKey := "index", size := 3 } [⟨0, 2⟩, ⟨2, 1⟩, ⟨1, 0⟩] [] events =
      some (.ok [[7, 8], [9], []]) := by
  have hover : Over [7, 8, 9] { objectKey := "index", size := 3 } := ⟨rfl, rfl⟩
  obtain ⟨-, -, hanswers⟩ := readBatch_sound hover [⟨0, 2⟩, ⟨2, 1⟩, ⟨1, 0⟩] []
  obtain ⟨⟨events, -, hread⟩, -, -, hwilling⟩ := hanswers fun _ => .sent 3
  have hplain := hwilling (by decide) fun _ => ⟨3, rfl, Nat.le_refl 3⟩
  rw [hplain] at hread
  exact ⟨events, hread⟩

end Snii.Io.S3ObjectStore
