import Snii.Io.FileReader

/-!
# Local files

`local_file.cpp` over what the operating system answers: a call reads or writes a part of
what it is asked for, is interrupted, or fails.  The writer keeps a buffer in front of the
file; whatever the answers are, the file and the buffer hold the bytes that were handed
over, in order, until a call fails (`appendAll_ok`, `appendAll_error`).  A read
returns the bytes of the file at its range or an error (`readAt_sound`).
-/

namespace Snii.Io.LocalFile

open Snii.Lib.ByteReader Snii.Common

/-- What `write` or `pread` answers: a number of bytes, `EINTR`, or another `errno`. -/
inductive Answer where
  | moved (n : Nat)
  | interrupted
  | failed (message : String)
deriving DecidableEq

/-- The size of the buffer. -/
def kBufCapacity : Nat := 256 * 1024

/-- The writer and what the file holds; the buffer is within its capacity. -/
structure LocalFileWriter where
  isOpen : Bool := true
  bytesWritten : Nat := 0
  buf : Bytes := []
  disk : Bytes := []
  fits : buf.length ≤ kBufCapacity := by decide

/-- What a call leaves: its status, the writer, and the answers not used up. -/
abbrev Out := Result Unit × LocalFileWriter × List Answer

/-! ## Writing -/

/-- The loop of `write_all`; there is no result when the system answers no more. -/
def writeAll : List Answer → Bytes → Bytes → Option (Result Unit × Bytes × List Answer)
  | answers, disk, [] => some (.ok (), disk, answers)
  | [], _, _ :: _ => none
  | .moved n :: answers, disk, b :: data =>
      writeAll answers (disk ++ (b :: data).take n) ((b :: data).drop n)
  | .interrupted :: answers, disk, b :: data => writeAll answers disk (b :: data)
  | .failed message :: answers, disk, _ :: _ => some (.error (.ioError message), disk, answers)

/-- Writes the buffer, which a failure leaves as it was. -/
def flushBuffer (answers : List Answer) (w : LocalFileWriter) : Option Out :=
  match writeAll answers w.disk w.buf with
  | none => none
  | some (.ok (), disk, rest) =>
      some (.ok (), { w with buf := [], disk := disk, fits := Nat.zero_le _ }, rest)
  | some (.error e, disk, rest) => some (.error e, { w with disk := disk }, rest)

/-- A span as large as the buffer, written past it. -/
def writeSpan (answers : List Answer) (data : Bytes) (w : LocalFileWriter) : Option Out :=
  match writeAll answers w.disk data with
  | none => none
  | some (.ok (), disk, rest) =>
      some (.ok (), { w with
        disk := disk, bytesWritten := (w.bytesWritten + data.length) % 2 ^ 64 }, rest)
  | some (.error e, disk, rest) => some (.error e, { w with disk := disk }, rest)

/-- A span that fits is copied; one that does not is left to the flush before it. -/
def bufferSpan (data : Bytes) (w : LocalFileWriter) : Result Unit × LocalFileWriter :=
  if h : (w.buf ++ data).length ≤ kBufCapacity then
    (.ok (), { w with
      buf := w.buf ++ data, fits := h
      bytesWritten := (w.bytesWritten + data.length) % 2 ^ 64 })
  else (.error .outOfBounds, w)

/-- One step after another, up to the first that fails. -/
def andThen (x : Option Out) (f : List Answer → LocalFileWriter → Option Out) : Option Out :=
  match x with
  | some (.ok (), w, rest) => f rest w
  | other => other

/-- `append`: past the buffer where the span is as large as it. -/
def append (answers : List Answer) (data : Bytes) (w : LocalFileWriter) : Option Out :=
  if w.isOpen = false then some (.error (.ioError "append on unopened file"), w, answers)
  else if data.length = 0 then some (.ok (), w, answers)
  else if data.length ≥ kBufCapacity then
    andThen (flushBuffer answers w) fun rest w => writeSpan rest data w
  else if w.buf.length + data.length > kBufCapacity then
    andThen (flushBuffer answers w) fun rest w =>
      let (status, w) := bufferSpan data w
      some (status, w, rest)
  else
    let (status, w) := bufferSpan data w
    some (status, w, answers)

/-- What `fsync` and `close` answer: nothing, or the message of an error. -/
structure SyncAnswers where
  fsync : Option String := none
  close : Option String := none

/-- `fsync` and `close`; a failed `fsync` leaves the file open. -/
def sync (s : SyncAnswers) (w : LocalFileWriter) : Result Unit × LocalFileWriter :=
  match s.fsync with
  | some message => (.error (.ioError message), w)
  | none => match s.close with
    | some message => (.error (.ioError message), { w with isOpen := false })
    | none => (.ok (), { w with isOpen := false })

/-- `finalize`. -/
def finalize (answers : List Answer) (s : SyncAnswers) (w : LocalFileWriter) : Option Out :=
  if w.isOpen = false then some (.error (.ioError "finalize on unopened file"), w, answers)
  else andThen (flushBuffer answers w) fun rest w =>
    let (status, w) := sync s w
    some (status, w, rest)

/-- One append after another, up to the first that fails. -/
def appendAll : List Answer → LocalFileWriter → List Bytes → Option Out
  | answers, w, [] => some (.ok (), w, answers)
  | answers, w, data :: more =>
      andThen (append answers data w) fun rest w => appendAll rest w more

/-! ## Reading -/

/-- The loop of `read_at`: `got` is what was read so far. -/
def readLoop (file : Bytes) (off len : Nat) (answers : List Answer) (got : Bytes) :
    Option (Result Bytes) :=
  if len ≤ got.length then some (.ok got)
  else match answers with
    | [] => none
    | .moved n :: rest =>
        let data := ((file.drop (off + got.length)).take (len - got.length)).take n
        if data.length = 0 then some (.error (.corruption "pread returned 0 before len"))
        else readLoop file off len rest (got ++ data)
    | .interrupted :: rest => readLoop file off len rest got
    | .failed message :: _ => some (.error (.ioError message))

/-- The reader, whose size is that of the file when it was opened. -/
structure LocalFileReader where
  isOpen : Bool := true
  size : Nat

/-- `read_at`, refused where it would read past the end. -/
def readAt (file : Bytes) (r : LocalFileReader) (answers : List Answer) (off len : Nat) :
    Option (Result Bytes) :=
  if r.isOpen = false then some (.error (.ioError "read_at on unopened file"))
  else if off > r.size ∨ len > r.size - off then
    some (.error (.corruption "read_at past end of file"))
  else readLoop file off len answers []

/-! ## What is written -/

variable {answers rest : List Answer} {disk disk' data : Bytes} {status : Result Unit}
  {w w' : LocalFileWriter}

/-- **The loop** writes a part of its span, and all of it unless it fails. -/
theorem writeAll_spec (h : writeAll answers disk data = some (status, disk', rest)) :
    (∃ n, disk' = disk ++ data.take n) ∧ (status = .ok () → disk' = disk ++ data) := by
  induction answers generalizing disk data with
  | nil =>
      cases data with
      | nil => cases h; exact ⟨⟨0, by simp⟩, fun _ => by simp⟩
      | cons b data => cases h
  | cons answer answers ih =>
      cases data with
      | nil => cases h; exact ⟨⟨0, by simp⟩, fun _ => by simp⟩
      | cons b data =>
          cases answer with
          | moved n =>
              obtain ⟨⟨m, hpart⟩, hall⟩ := ih h
              refine ⟨⟨n + m, ?_⟩, fun hok => ?_⟩
              · rw [hpart, List.append_assoc, List.take_add]
              · rw [hall hok, List.append_assoc, List.take_append_drop]
          | interrupted => exact ih h
          | failed message =>
              cases h
              exact ⟨⟨0, by simp⟩, fun hok => by cases hok⟩

/-- A step that succeeds was reached over steps that did. -/
theorem andThen_ok {x : Option Out} {f : List Answer → LocalFileWriter → Option Out}
    (h : andThen x f = some (.ok (), w', rest)) :
    ∃ w mid, x = some (.ok (), w, mid) ∧ f mid w = some (.ok (), w', rest) := by
  cases x with
  | none => cases h
  | some out =>
      obtain ⟨status, w, mid⟩ := out
      cases status with
      | ok u => exact ⟨w, mid, rfl, h⟩
      | error e => cases h

/-- A failure is that of one of the two steps. -/
theorem andThen_error {x : Option Out} {f : List Answer → LocalFileWriter → Option Out}
    {e : Status} (h : andThen x f = some (.error e, w', rest)) :
    x = some (.error e, w', rest) ∨
      ∃ w mid, x = some (.ok (), w, mid) ∧ f mid w = some (.error e, w', rest) := by
  cases x with
  | none => cases h
  | some out =>
      obtain ⟨status, w, mid⟩ := out
      cases status with
      | ok u => exact .inr ⟨w, mid, rfl, h⟩
      | error e' => exact .inl h

/-- A flush that succeeds has written the buffer. -/
theorem flushBuffer_ok (h : flushBuffer answers w = some (.ok (), w', rest)) :
    w'.disk = w.disk ++ w.buf ∧ w'.buf = [] ∧ w'.isOpen = w.isOpen ∧
      w'.bytesWritten = w.bytesWritten := by
  rw [flushBuffer] at h
  cases hwrite : writeAll answers w.disk w.buf with
  | none => rw [hwrite] at h; cases h
  | some out =>
      obtain ⟨status, disk, mid⟩ := out
      rw [hwrite] at h
      cases status with
      | error e => cases h
      | ok u =>
          cases h
          exact ⟨(writeAll_spec hwrite).2 rfl, rfl, rfl, rfl⟩

/-- One that fails has written a part of it. -/
theorem flushBuffer_error {e : Status} (h : flushBuffer answers w = some (.error e, w', rest)) :
    ∃ n, w'.disk = w.disk ++ w.buf.take n := by
  rw [flushBuffer] at h
  cases hwrite : writeAll answers w.disk w.buf with
  | none => rw [hwrite] at h; cases h
  | some out =>
      obtain ⟨status, disk, mid⟩ := out
      rw [hwrite] at h
      cases status with
      | error e' =>
          cases h
          exact (writeAll_spec hwrite).1
      | ok u => cases h

/-- A span that is written is counted. -/
theorem writeSpan_ok (h : writeSpan answers data w = some (.ok (), w', rest)) :
    w'.disk = w.disk ++ data ∧ w'.buf = w.buf ∧ w'.isOpen = w.isOpen ∧
      w'.bytesWritten = (w.bytesWritten + data.length) % 2 ^ 64 := by
  rw [writeSpan] at h
  cases hwrite : writeAll answers w.disk data with
  | none => rw [hwrite] at h; cases h
  | some out =>
      obtain ⟨status, disk, mid⟩ := out
      rw [hwrite] at h
      cases status with
      | error e => cases h
      | ok u =>
          cases h
          exact ⟨(writeAll_spec hwrite).2 rfl, rfl, rfl, rfl⟩

/-- One that fails leaves a part of it and is not counted. -/
theorem writeSpan_error {e : Status} (h : writeSpan answers data w = some (.error e, w', rest)) :
    ∃ n, w'.disk = w.disk ++ data.take n := by
  rw [writeSpan] at h
  cases hwrite : writeAll answers w.disk data with
  | none => rw [hwrite] at h; cases h
  | some out =>
      obtain ⟨status, disk, mid⟩ := out
      rw [hwrite] at h
      cases status with
      | error e' =>
          cases h
          exact (writeAll_spec hwrite).1
      | ok u => cases h

/-- A span that fits goes into the buffer. -/
theorem bufferSpan_fits (h : w.buf.length + data.length ≤ kBufCapacity) :
    ∃ w', bufferSpan data w = (.ok (), w') ∧ w'.disk = w.disk ∧ w'.buf = w.buf ++ data ∧
      w'.isOpen = w.isOpen ∧ w'.bytesWritten = (w.bytesWritten + data.length) % 2 ^ 64 := by
  rw [bufferSpan, dif_pos (by rwa [List.length_append])]
  exact ⟨_, rfl, rfl, rfl, rfl, rfl⟩

/-- What a call of `append` that succeeds leaves. -/
structure Appended (w : LocalFileWriter) (data : Bytes) (w' : LocalFileWriter) : Prop where
  content : w'.disk ++ w'.buf = w.disk ++ w.buf ++ data
  isOpen : w'.isOpen = w.isOpen
  written : w'.bytesWritten % 2 ^ 64 = (w.bytesWritten + data.length) % 2 ^ 64

/-- **An append that succeeds** hands its span over. -/
theorem append_ok (h : append answers data w = some (.ok (), w', rest)) : Appended w data w' := by
  rw [append] at h
  by_cases hopen : w.isOpen = false
  · rw [if_pos hopen] at h
    cases h
  rw [if_neg hopen] at h
  by_cases hempty : data.length = 0
  · rw [if_pos hempty] at h
    cases h
    have hnil := List.length_eq_zero_iff.mp hempty
    exact ⟨by rw [hnil, List.append_nil], rfl, by rw [hempty, Nat.add_zero]⟩
  rw [if_neg hempty] at h
  by_cases hlarge : data.length ≥ kBufCapacity
  · rw [if_pos hlarge] at h
    obtain ⟨mid, left, hflush, hspan⟩ := andThen_ok h
    obtain ⟨hdisk, hbuf, hopen', hcount⟩ := flushBuffer_ok hflush
    obtain ⟨hdisk', hbuf', hopen'', hcount'⟩ := writeSpan_ok hspan
    constructor
    case content => rw [hdisk', hbuf', hbuf, hdisk, List.append_nil]
    case isOpen => rw [hopen'', hopen']
    case written => rw [hcount', hcount, Nat.mod_mod]
  rw [if_neg hlarge] at h
  by_cases hover : w.buf.length + data.length > kBufCapacity
  · rw [if_pos hover] at h
    obtain ⟨mid, left, hflush, hspan⟩ := andThen_ok h
    obtain ⟨hdisk, hbuf, hopen', hcount⟩ := flushBuffer_ok hflush
    -- the flush has emptied the buffer, so the span fits
    obtain ⟨w'', hrun, hdisk', hbuf', hopen'', hcount'⟩ := @bufferSpan_fits data mid (by
      rw [hbuf, List.length_nil]
      omega)
    simp only [hrun, Option.some.injEq, Prod.mk.injEq, true_and] at hspan
    obtain ⟨rfl, -⟩ := hspan
    constructor
    case content => rw [hdisk', hbuf', hbuf, hdisk, List.nil_append]
    case isOpen => rw [hopen'', hopen']
    case written => rw [hcount', hcount, Nat.mod_mod]
  · rw [if_neg hover] at h
    obtain ⟨w'', hrun, hdisk, hbuf, hopen', hcount⟩ := @bufferSpan_fits data w (by omega)
    simp only [hrun, Option.some.injEq, Prod.mk.injEq, true_and] at h
    obtain ⟨rfl, -⟩ := h
    constructor
    case content => rw [hdisk, hbuf, List.append_assoc]
    case isOpen => exact hopen'
    case written => rw [hcount, Nat.mod_mod]

/-- **An append that fails** leaves a prefix of what was handed over, its span included. -/
theorem append_error {e : Status} (h : append answers data w = some (.error e, w', rest)) :
    w'.disk <+: w.disk ++ w.buf ++ data := by
  have hflushed : ∀ {answers rest : List Answer} {w' : LocalFileWriter} {e : Status},
      flushBuffer answers w = some (.error e, w', rest) → w'.disk <+: w.disk ++ w.buf ++ data := by
    intro answers rest w' e hflush
    obtain ⟨n, hdisk⟩ := flushBuffer_error hflush
    rw [hdisk, List.append_assoc, List.prefix_append_right_inj]
    exact (List.take_prefix _ _).trans (List.prefix_append _ _)
  rw [append] at h
  by_cases hopen : w.isOpen = false
  · rw [if_pos hopen] at h
    cases h
    rw [List.append_assoc]
    exact List.prefix_append _ _
  rw [if_neg hopen] at h
  by_cases hempty : data.length = 0
  · rw [if_pos hempty] at h
    cases h
  rw [if_neg hempty] at h
  by_cases hlarge : data.length ≥ kBufCapacity
  · rw [if_pos hlarge] at h
    rcases andThen_error h with hflush | ⟨mid, left, hflush, hspan⟩
    · exact hflushed hflush
    · obtain ⟨hdisk, -⟩ := flushBuffer_ok hflush
      obtain ⟨n, hpart⟩ := writeSpan_error hspan
      rw [hpart, hdisk, List.prefix_append_right_inj]
      exact List.take_prefix _ _
  rw [if_neg hlarge] at h
  by_cases hover : w.buf.length + data.length > kBufCapacity
  · rw [if_pos hover] at h
    rcases andThen_error h with hflush | ⟨mid, left, hflush, hspan⟩
    · exact hflushed hflush
    · obtain ⟨-, hbuf, -⟩ := flushBuffer_ok hflush
      obtain ⟨w'', hrun, -⟩ := @bufferSpan_fits data mid (by
        rw [hbuf, List.length_nil]
        omega)
      simp [hrun] at hspan
  · rw [if_neg hover] at h
    obtain ⟨w'', hrun, -⟩ := @bufferSpan_fits data w (by omega)
    simp [hrun] at h

/-- **A run of appends** hands over its spans in order. -/
theorem appendAll_ok {spans : List Bytes}
    (h : appendAll answers w spans = some (.ok (), w', rest)) : Appended w spans.flatten w' := by
  induction spans generalizing answers w with
  | nil =>
      cases h
      exact ⟨by simp, rfl, rfl⟩
  | cons data more ih =>
      obtain ⟨mid, left, hfirst, hmore⟩ := andThen_ok h
      have hdata := append_ok hfirst
      have hrest := ih hmore
      constructor
      case content =>
        rw [hrest.content, hdata.content, List.flatten_cons, List.append_assoc]
      case isOpen => rw [hrest.isOpen, hdata.isOpen]
      case written =>
        rw [hrest.written, Nat.add_mod, hdata.written, ← Nat.add_mod, List.flatten_cons,
          List.length_append, Nat.add_assoc]

/-- A run that fails leaves a prefix of its spans. -/
theorem appendAll_error {spans : List Bytes} {e : Status}
    (h : appendAll answers w spans = some (.error e, w', rest)) :
    w'.disk <+: w.disk ++ w.buf ++ spans.flatten := by
  induction spans generalizing answers w with
  | nil => cases h
  | cons data more ih =>
      rw [List.flatten_cons]
      rcases andThen_error h with hfirst | ⟨mid, left, hfirst, hmore⟩
      · apply (append_error hfirst).trans
        rw [← List.append_assoc]
        exact List.prefix_append _ _
      · have hrest := ih hmore
        rwa [(append_ok hfirst).content, List.append_assoc] at hrest

/-- A file that is finalized has everything. -/
theorem finalize_ok {s : SyncAnswers} (h : finalize answers s w = some (.ok (), w', rest)) :
    w'.disk = w.disk ++ w.buf ∧ w'.bytesWritten = w.bytesWritten ∧ w'.isOpen = false := by
  rw [finalize] at h
  by_cases hopen : w.isOpen = false
  · rw [if_pos hopen] at h
    cases h
  · rw [if_neg hopen] at h
    obtain ⟨mid, left, hflush, hsync⟩ := andThen_ok h
    obtain ⟨hdisk, -, -, hcount⟩ := flushBuffer_ok hflush
    rw [sync] at hsync
    cases hf : s.fsync with
    | some message => rw [hf] at hsync; cases hsync
    | none =>
        cases hc : s.close with
        | some message => rw [hf, hc] at hsync; cases hsync
        | none =>
            rw [hf, hc] at hsync
            cases hsync
            exact ⟨hdisk, hcount, rfl⟩

/-- One that is not has a part. -/
theorem finalize_error {s : SyncAnswers} {e : Status}
    (h : finalize answers s w = some (.error e, w', rest)) : w'.disk <+: w.disk ++ w.buf := by
  rw [finalize] at h
  by_cases hopen : w.isOpen = false
  · rw [if_pos hopen] at h
    cases h
    exact List.prefix_append _ _
  · rw [if_neg hopen] at h
    rcases andThen_error h with hflush | ⟨mid, left, hflush, hsync⟩
    · obtain ⟨n, hdisk⟩ := flushBuffer_error hflush
      rw [hdisk, List.prefix_append_right_inj]
      exact List.take_prefix _ _
    · obtain ⟨hdisk, -⟩ := flushBuffer_ok hflush
      rw [← hdisk]
      have hsame : w'.disk = mid.disk := by
        rw [sync] at hsync
        cases hf : s.fsync with
        | some message => rw [hf] at hsync; cases hsync; rfl
        | none =>
            cases hc : s.close with
            | some message => rw [hf, hc] at hsync; cases hsync; rfl
            | none => rw [hf, hc] at hsync; cases hsync
      exact hsame ▸ List.prefix_rfl

/-! ## What is used of the answers -/

/-- What a call uses of the answers: a beginning of them, and a failure among them if it
fails. -/
structure Used (answers : List Answer) (status : Result Unit) (rest : List Answer) : Prop where
  suffix : rest <:+ answers
  failed : ∀ e, status = .error e → ∃ message, .failed message ∈ answers

theorem Used.refl (answers : List Answer) : Used answers (.ok ()) answers :=
  ⟨List.suffix_rfl, fun _ he => by cases he⟩

/-- A later call uses what an earlier one left. -/
theorem Used.trans {first second : Result Unit} {mid : List Answer} (h : Used answers first mid)
    (h' : Used mid second rest) : Used answers second rest :=
  ⟨h'.suffix.trans h.suffix, fun e he =>
    (h'.failed e he).imp fun _ hmem => h.suffix.subset hmem⟩

/-- Writing fails only by an answer it used. -/
theorem writeAll_used (h : writeAll answers disk data = some (status, disk', rest)) :
    Used answers status rest := by
  induction answers generalizing disk data with
  | nil =>
      cases data with
      | nil => cases h; exact Used.refl _
      | cons b data => cases h
  | cons answer answers ih =>
      have hlater : ∀ {s : Result Unit} {left : List Answer}, Used answers s left →
          Used (answer :: answers) s left := fun hused =>
        ⟨hused.suffix.trans (List.suffix_cons _ _), fun e he =>
          (hused.failed e he).imp fun _ hmem => List.mem_cons_of_mem _ hmem⟩
      cases data with
      | nil => cases h; exact Used.refl _
      | cons b data =>
          cases answer with
          | moved n => exact hlater (ih h)
          | interrupted => exact hlater (ih h)
          | failed message =>
              cases h
              exact ⟨List.suffix_cons _ _, fun _ _ => ⟨message, List.mem_cons_self⟩⟩

/-- Two steps use what they use one after the other. -/
theorem andThen_used {x : Option Out} {f : List Answer → LocalFileWriter → Option Out}
    (hx : ∀ {s w' rest}, x = some (s, w', rest) → Used answers s rest)
    (hf : ∀ {mid left s w' rest}, x = some (.ok (), mid, left) → f left mid = some (s, w', rest) →
      Used left s rest)
    (h : andThen x f = some (status, w', rest)) : Used answers status rest := by
  cases x with
  | none => cases h
  | some out =>
      obtain ⟨s, mid, left⟩ := out
      cases s with
      | error e => cases h; exact hx rfl
      | ok u => exact (hx rfl).trans (hf rfl h)

theorem flushBuffer_used (h : flushBuffer answers w = some (status, w', rest)) :
    Used answers status rest := by
  rw [flushBuffer] at h
  cases hwrite : writeAll answers w.disk w.buf with
  | none => rw [hwrite] at h; cases h
  | some out =>
      obtain ⟨s, disk, mid⟩ := out
      rw [hwrite] at h
      have hused := writeAll_used hwrite
      cases s with
      | ok u => cases h; exact hused
      | error e => cases h; exact hused

theorem writeSpan_used (h : writeSpan answers data w = some (status, w', rest)) :
    Used answers status rest := by
  rw [writeSpan] at h
  cases hwrite : writeAll answers w.disk data with
  | none => rw [hwrite] at h; cases h
  | some out =>
      obtain ⟨s, disk, mid⟩ := out
      rw [hwrite] at h
      have hused := writeAll_used hwrite
      cases s with
      | ok u => cases h; exact hused
      | error e => cases h; exact hused

/-- **An append** to an open file fails only where the system fails a write. -/
theorem append_used (hopen : w.isOpen = true)
    (h : append answers data w = some (status, w', rest)) : Used answers status rest := by
  rw [append, if_neg (by rw [hopen]; exact Bool.true_eq_false.mp)] at h
  by_cases hempty : data.length = 0
  · rw [if_pos hempty] at h
    cases h
    exact Used.refl _
  rw [if_neg hempty] at h
  by_cases hlarge : data.length ≥ kBufCapacity
  · rw [if_pos hlarge] at h
    exact andThen_used flushBuffer_used (fun _ hspan => writeSpan_used hspan) h
  rw [if_neg hlarge] at h
  by_cases hover : w.buf.length + data.length > kBufCapacity
  · rw [if_pos hover] at h
    refine andThen_used flushBuffer_used (fun {mid left _ _ _} hflush hspan => ?_) h
    obtain ⟨-, hbuf, -⟩ := flushBuffer_ok hflush
    obtain ⟨w'', hrun, -⟩ := @bufferSpan_fits data mid (by
      rw [hbuf, List.length_nil]
      omega)
    simp only [hrun] at hspan
    cases hspan
    exact Used.refl _
  · rw [if_neg hover] at h
    obtain ⟨w'', hrun, -⟩ := @bufferSpan_fits data w (by omega)
    simp only [hrun] at h
    cases h
    exact Used.refl _

theorem appendAll_used {spans : List Bytes} (hopen : w.isOpen = true)
    (h : appendAll answers w spans = some (status, w', rest)) : Used answers status rest := by
  induction spans generalizing answers w w' rest status with
  | nil => cases h; exact Used.refl _
  | cons data more ih =>
      exact andThen_used (append_used hopen)
        (fun hfirst hmore => ih ((append_ok hfirst).isOpen.trans hopen) hmore) h

/-- A file that could not be closed met a failure. -/
theorem finalize_failed {s : SyncAnswers} {e : Status} (hopen : w.isOpen = true)
    (h : finalize answers s w = some (.error e, w', rest)) :
    s ≠ {} ∨ ∃ message, .failed message ∈ answers := by
  rw [finalize, if_neg (by rw [hopen]; exact Bool.true_eq_false.mp)] at h
  rcases andThen_error h with hflush | ⟨mid, left, -, hsync⟩
  · exact .inr ((flushBuffer_used hflush).failed e rfl)
  · refine .inl ?_
    rintro rfl
    cases hsync

/-! ## Systems that answer -/

/-- The answers of a system that fails no call. -/
def Willing (answers : List Answer) : Prop := ∀ message, .failed message ∉ answers

/-- How often the system moves something: a lower bound on the bytes it can move. -/
def grants : List Answer → Nat
  | [] => 0
  | .moved (_ + 1) :: rest => grants rest + 1
  | _ :: rest => grants rest

/-- What a call leaves of the answers of a willing system: at most one was used for each
of `n` bytes. -/
structure Left (answers : List Answer) (n : Nat) (rest : List Answer) : Prop where
  willing : Willing rest
  grants : grants answers ≤ grants rest + n

/-- A willing system stays willing. -/
theorem Willing.tail {answer : Answer} (h : Willing (answer :: answers)) : Willing answers :=
  fun message hmem => h message (List.mem_cons_of_mem _ hmem)

/-- **A willing system** writes the whole span. -/
theorem writeAll_willing (h : Willing answers) (hlen : data.length ≤ grants answers) :
    ∃ rest, writeAll answers disk data = some (.ok (), disk ++ data, rest) ∧
      Left answers data.length rest := by
  induction answers generalizing disk data with
  | nil =>
      have hnil : data = [] := List.length_eq_zero_iff.mp (Nat.le_zero.mp hlen)
      subst hnil
      exact ⟨[], by simp [writeAll], h, Nat.le_add_right _ _⟩
  | cons answer answers ih =>
      cases data with
      | nil => exact ⟨answer :: answers, by simp [writeAll], h, Nat.le_add_right _ _⟩
      | cons b data =>
          cases answer with
          | failed message => exact absurd List.mem_cons_self (h message)
          | interrupted =>
              obtain ⟨rest, hrun, hwilling, hgrants⟩ := @ih disk (b :: data) h.tail hlen
              exact ⟨rest, hrun, hwilling, hgrants⟩
          | moved n =>
              cases n with
              | zero =>
                  obtain ⟨rest, hrun, hwilling, hgrants⟩ := @ih disk (b :: data) h.tail hlen
                  refine ⟨rest, ?_, hwilling, hgrants⟩
                  rw [writeAll, List.take_zero, List.append_nil, List.drop_zero, hrun]
              | succ n =>
                  rw [grants, List.length_cons] at hlen
                  have hdrop : (data.drop n).length ≤ grants answers := by
                    rw [List.length_drop]
                    omega
                  obtain ⟨rest, hrun, hwilling, hgrants⟩ :=
                    @ih (disk ++ b :: data.take n) (data.drop n) h.tail hdrop
                  refine ⟨rest, ?_, hwilling, ?_⟩
                  · rw [writeAll, List.take_succ_cons, List.drop_succ_cons, hrun,
                      List.append_assoc, List.cons_append, List.take_append_drop]
                  · rw [grants, List.length_cons]
                    rw [List.length_drop] at hgrants
                    omega

/-- A willing system takes the buffer. -/
theorem flushBuffer_willing (h : Willing answers) (hlen : w.buf.length ≤ grants answers) :
    ∃ w' rest, flushBuffer answers w = some (.ok (), w', rest) ∧ w'.buf = [] ∧
      w'.isOpen = w.isOpen ∧ Left answers w.buf.length rest := by
  obtain ⟨rest, hrun, hleft⟩ := @writeAll_willing answers w.disk w.buf h hlen
  rw [flushBuffer, hrun]
  exact ⟨_, rest, rfl, rfl, rfl, hleft⟩

/-- **A willing system** takes a span; the answers left serve what is still buffered. -/
theorem append_willing (h : Willing answers) (hopen : w.isOpen = true)
    (hlen : w.buf.length + data.length ≤ grants answers) :
    ∃ w' rest, append answers data w = some (.ok (), w', rest) ∧ w'.isOpen = true ∧
      Willing rest ∧
        w'.buf.length + grants answers ≤ grants rest + (w.buf.length + data.length) := by
  rw [append, if_neg (by rw [hopen]; exact Bool.true_eq_false.mp)]
  by_cases hempty : data.length = 0
  · rw [if_pos hempty]
    exact ⟨w, answers, rfl, hopen, h, by omega⟩
  rw [if_neg hempty]
  obtain ⟨mid, left, hflush, hbuf, hopen', hwilling, hgrants⟩ :=
    @flushBuffer_willing answers w h (by omega)
  by_cases hlarge : data.length ≥ kBufCapacity
  · rw [if_pos hlarge, hflush]
    obtain ⟨rest, hrun, hwilling', hgrants'⟩ :=
      @writeAll_willing left mid.disk data hwilling (by omega)
    simp only [andThen, writeSpan, hrun]
    refine ⟨_, rest, rfl, hopen'.trans hopen, hwilling', ?_⟩
    simp only [hbuf, List.length_nil]
    omega
  rw [if_neg hlarge]
  by_cases hover : w.buf.length + data.length > kBufCapacity
  · obtain ⟨w', hrun, -, hbuf', hopen'', -⟩ := @bufferSpan_fits data mid (by
      rw [hbuf, List.length_nil]
      omega)
    rw [if_pos hover, hflush]
    simp only [andThen, hrun]
    refine ⟨w', left, rfl, (hopen''.trans hopen').trans hopen, hwilling, ?_⟩
    rw [hbuf', hbuf, List.nil_append]
    omega
  · obtain ⟨w', hrun, -, hbuf', hopen'', -⟩ := @bufferSpan_fits data w (by omega)
    rw [if_neg hover]
    simp only [hrun]
    refine ⟨w', answers, rfl, hopen''.trans hopen, h, ?_⟩
    rw [hbuf', List.length_append]
    omega

/-- A run of appends; the answers left serve what is still buffered. -/
theorem appendAll_willing {spans : List Bytes} (h : Willing answers) (hopen : w.isOpen = true)
    (hlen : w.buf.length + spans.flatten.length ≤ grants answers) :
    ∃ w' rest, appendAll answers w spans = some (.ok (), w', rest) ∧
      w'.buf.length + grants answers ≤ grants rest + (w.buf.length + spans.flatten.length) := by
  induction spans generalizing answers w with
  | nil => exact ⟨w, answers, rfl, by simp only [List.flatten_nil, List.length_nil]; omega⟩
  | cons data more ih =>
      rw [List.flatten_cons, List.length_append] at hlen ⊢
      obtain ⟨mid, left, hrun, hopen', hwilling, hgrants⟩ :=
        @append_willing answers data w h hopen (by omega)
      obtain ⟨w', rest, hmore, hrest⟩ := ih hwilling hopen' (by omega)
      refine ⟨w', rest, ?_, by omega⟩
      rw [appendAll, hrun]
      exact hmore

/-- A willing system closes the file. -/
theorem finalize_willing (h : Willing answers) (hopen : w.isOpen = true)
    (hlen : w.buf.length ≤ grants answers) :
    ∃ w' rest, finalize answers {} w = some (.ok (), w', rest) := by
  obtain ⟨mid, left, hflush, -⟩ := @flushBuffer_willing answers w h hlen
  refine ⟨{ mid with isOpen := false }, left, ?_⟩
  rw [finalize, if_neg (by rw [hopen]; exact Bool.true_eq_false.mp), hflush]
  rfl

/-! ## What is read -/

variable {file got : Bytes} {off len : Nat}

/-- What was read so far is what the file has there. -/
def ReadSoFar (file : Bytes) (off len : Nat) (got : Bytes) : Prop :=
  got = (file.drop off).take got.length ∧ got.length ≤ len

/-- A read adds what follows what was read. -/
theorem ReadSoFar.step (h : ReadSoFar file off len got) (n : Nat) :
    ReadSoFar file off len
      (got ++ ((file.drop (off + got.length)).take (len - got.length)).take n) := by
  obtain ⟨heq, hle⟩ := h
  rw [List.take_take, ← List.drop_drop]
  generalize hm : min n (len - got.length) = m
  constructor
  · have hsplit : (file.drop off).take (got.length + m) =
        got ++ ((file.drop off).drop got.length).take m := by rw [List.take_add, ← heq]
    rw [← hsplit, List.length_take, List.take_eq_take_min]
  · rw [List.length_append, List.length_take]
    omega

/-- A full read is the range. -/
theorem ReadSoFar.done (h : ReadSoFar file off len got) (hdone : len ≤ got.length) :
    got = (file.drop off).take len := by
  have hlen : got.length = len := Nat.le_antisymm h.2 hdone
  conv_lhs => rw [h.1]
  rw [hlen]

/-- **A read** returns what the file has, or an error of the system. -/
theorem readLoop_sound (hgot : ReadSoFar file off len got) {result : Result Bytes}
    (h : readLoop file off len answers got = some result) :
    result = .ok ((file.drop off).take len) ∨ (∃ message, result = .error (.ioError message)) ∨
      result = .error (.corruption "pread returned 0 before len") := by
  induction answers generalizing got with
  | nil =>
      unfold readLoop at h
      by_cases hdone : len ≤ got.length
      · rw [if_pos hdone] at h
        cases h
        exact .inl (congrArg Except.ok (hgot.done hdone))
      · rw [if_neg hdone] at h
        cases h
  | cons answer answers ih =>
      unfold readLoop at h
      by_cases hdone : len ≤ got.length
      · rw [if_pos hdone] at h
        cases h
        exact .inl (congrArg Except.ok (hgot.done hdone))
      · rw [if_neg hdone] at h
        cases answer with
        | failed message =>
            cases h
            exact .inr (.inl ⟨message, rfl⟩)
        | interrupted => exact ih hgot h
        | moved n =>
            simp only at h
            by_cases hzero : (((file.drop (off + got.length)).take (len - got.length)).take n).length
                = 0
            · rw [if_pos hzero] at h
              cases h
              exact .inr (.inr rfl)
            · rw [if_neg hzero] at h
              exact ih (hgot.step n) h

/-- **A willing system** reads a range that the file has. -/
theorem readLoop_willing (hgot : ReadSoFar file off len got) (h : Willing answers)
    (hin : off + len ≤ file.length) (hlen : len ≤ got.length + grants answers)
    (hzero : ∀ n, .moved n ∈ answers → 0 < n) :
    readLoop file off len answers got = some (.ok ((file.drop off).take len)) := by
  induction answers generalizing got with
  | nil =>
      unfold readLoop
      have hdone : len ≤ got.length := by simpa [grants] using hlen
      rw [if_pos hdone, ← hgot.done hdone]
  | cons answer answers ih =>
      have hrest : ∀ n, .moved n ∈ answers → 0 < n := fun n hn =>
        hzero n (List.mem_cons_of_mem _ hn)
      unfold readLoop
      by_cases hdone : len ≤ got.length
      · rw [if_pos hdone, ← hgot.done hdone]
      · rw [if_neg hdone]
        cases answer with
        | failed message => exact absurd List.mem_cons_self (h message)
        | interrupted => exact ih hgot h.tail hlen hrest
        | moved n =>
            obtain ⟨m, rfl⟩ := Nat.exists_eq_succ_of_ne_zero (hzero n List.mem_cons_self).ne'
            have hgrants : grants (.moved (m + 1) :: answers) = grants answers + 1 := rfl
            rw [hgrants] at hlen
            have hdata : 0 < (((file.drop (off + got.length)).take (len - got.length)).take
                (m + 1)).length := by
              simp only [List.length_take, List.length_drop]
              omega
            simp only
            rw [if_neg hdata.ne']
            apply ih (hgot.step (m + 1)) h.tail _ hrest
            rw [List.length_append]
            omega

/-- **A read of a local file** is refused out of range, and otherwise returns the bytes
of the file or an error of the system. -/
theorem readAt_sound {r : LocalFileReader} (hopen : r.isOpen = true) (hsize : r.size = file.length)
    {result : Result Bytes} (h : readAt file r answers off len = some result) :
    result = FileReader.readAt file off len ∨ (∃ message, result = .error (.ioError message)) ∨
      result = .error (.corruption "pread returned 0 before len") := by
  rw [readAt, if_neg (by rw [hopen]; exact Bool.true_eq_false.mp), hsize] at h
  rw [FileReader.readAt]
  by_cases hout : off > file.length ∨ len > file.length - off
  · rw [if_pos hout] at h ⊢
    cases h
    exact .inl rfl
  · rw [if_neg hout] at h ⊢
    exact readLoop_sound ⟨rfl, Nat.zero_le _⟩ h

/-- A willing system answers a read with what the file has. -/
theorem readAt_willing {r : LocalFileReader} (hopen : r.isOpen = true)
    (hsize : r.size = file.length) (h : Willing answers) (hlen : len ≤ grants answers)
    (hzero : ∀ n, .moved n ∈ answers → 0 < n) :
    readAt file r answers off len = some (FileReader.readAt file off len) := by
  rw [readAt, if_neg (by rw [hopen]; exact Bool.true_eq_false.mp), hsize, FileReader.readAt]
  by_cases hout : off > file.length ∨ len > file.length - off
  · rw [if_pos hout, if_pos hout]
  · rw [if_neg hout, if_neg hout]
    exact readLoop_willing ⟨rfl, Nat.zero_le _⟩ h (by omega) (by simpa using hlen) hzero

end Snii.Io.LocalFile
