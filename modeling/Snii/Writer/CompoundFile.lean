import Snii.Io.LocalFile
import Snii.Writer.ContainerLayout

/-!
# The container on a local file

`snii_compound_writer.cpp` over a `LocalFileWriter`: every append can fail, and a call whose
append fails returns its error and leaves `bytes_written()` behind what stands on disk.  The
writer goes on from there when it is called again.  Where no append fails the file holds
what the writer in memory puts out (`leads_addLogicalIndex`, `leads_writeRest`); the first
failure leaves a prefix of that on disk.
-/

namespace Snii.Writer.CompoundFile

open Snii.Lib.ByteReader Snii.Common Snii.Encoding.Crc32c
open Snii.Format.ContainerEnds
open Snii.Format.TailMeta (finishRegion)
open Snii.Io.LocalFile (Answer SyncAnswers LocalFileWriter Used Willing grants appendAll)
open Snii.Writer.LogicalIndexWriter
open Snii.Writer.CompoundWriter (Placement SniiCompoundWriter AddCall metaEntry)

/-- The writer over its file: the members are those of `SniiCompoundWriter`. -/
structure LocalCompoundWriter where
  file : LocalFileWriter := {}
  bootstrapWritten : Bool := false
  finished : Bool := false
  indexes : List (BuiltIndex × Placement) := []

/-- `bytes_written()`, a 64-bit count that a failed append leaves as it was. -/
def LocalCompoundWriter.offset (d : LocalCompoundWriter) : Nat := d.file.bytesWritten % 2 ^ 64

/-- The difference of two such counts. -/
def advance (first last : Nat) : Nat := (last + 2 ^ 64 - first) % 2 ^ 64

/-- A step leaves its status, the writer, and the system's answers not used up; there is
no result when the system answers no more. -/
abbrev Step :=
  List Answer → LocalCompoundWriter → Option (Result Unit × LocalCompoundWriter × List Answer)

/-- The second step follows unless the first one fails. -/
def andThen (x y : Step) : Step := fun answers d =>
  match x answers d with
  | some (.ok (), d, rest) => y rest d
  | other => other

/-- Spans appended to the file, up to the first that fails. -/
def appendSpans (spans : List Bytes) : Step := fun answers d =>
  (appendAll answers d.file spans).map fun (status, file, rest) =>
    (status, { d with file := file }, rest)

/-- The flag is set before the header is written, so a failed one is not tried again. -/
def ensureBootstrap : Step := fun answers d =>
  if d.bootstrapWritten then some (.ok (), d, answers)
  else appendSpans [containerHeader] answers { d with bootstrapWritten := true }

/-! ## Adding an index -/

/-- The spans in which the regions of an index are appended. -/
structure Spans where
  region : Bytes → List Bytes
  dict : Bytes → List Bytes
  region_flatten : ∀ bs, (region bs).flatten = bs
  dict_flatten : ∀ bs, (dict bs).flatten = bs

/-- What a build that fails returns when the appends before it ended with `written`: a
failed drain is reported before a failed append, and that before a later failure. -/
def buildError (i : SniiIndexInput) (e : Status) : Result Unit → Status
  | .ok () => e
  | .error we => match i.source with
    | .drained (.error drainError) _ => drainError
    | _ => we

/-- The index joins the others. -/
def keepIndex (w : BuiltIndex) (postOff dictOff : Nat) : Step := fun answers d =>
  some (.ok (), { d with
    indexes := d.indexes ++ [(w,
      { postOff := postOff, postLen := advance postOff dictOff
        dictOff := dictOff, dictLen := advance dictOff d.offset })] }, answers)

/-- The dictionary goes behind the posting region. -/
def appendDict (spans : Spans) (w : BuiltIndex) (postOff : Nat) : Step := fun answers d =>
  andThen (appendSpans (spans.dict w.dictBuf.streamInto)) (keepIndex w postOff d.offset) answers d

/-- What an add does once the header stands. -/
def appendIndex (env : BuildEnv) (spans : Spans) (a : AddCall) : Step := fun answers d =>
  match build (a.env env) a.input [] with
  | .error e region =>
      (appendSpans (spans.region region) answers d).map fun (written, d, rest) =>
        (.error (buildError a.input e written), d, rest)
  | .ok w region =>
      andThen (appendSpans (spans.region region)) (appendDict spans w d.offset) answers d

/-- `add_logical_index`. -/
def addLogicalIndex (env : BuildEnv) (spans : Spans) (a : AddCall) : Step := fun answers d =>
  if d.finished then some (.error (.internal "compound: add after finish"), d, answers)
  else andThen ensureBootstrap (appendIndex env spans a) answers d

/-! ## Finishing -/

/-- One pass of `write_norms`; `done` are the indexes it has passed. -/
def writeSections (skip : BuiltIndex → Bool) (bytes : BuiltIndex → Bytes)
    (place : Placement → Nat → Nat → Placement) :
    List (BuiltIndex × Placement) → List (BuiltIndex × Placement) → Step
  | done, [] => fun answers d => some (.ok (), { d with indexes := done }, answers)
  | done, (w, p) :: rest =>
      if skip w then writeSections skip bytes place (done ++ [(w, p)]) rest
      else fun answers d =>
        andThen (appendSpans [bytes w])
          (fun answers d' => writeSections skip bytes place
            (done ++ [(w, place p d.offset (advance d.offset d'.offset))]) rest answers d')
          answers { d with indexes := done ++ (w, place p d.offset 0) :: rest }

/-- The norms of every index that has them. -/
def writeNormsPods : Step := fun answers d =>
  writeSections (fun w => !w.input.hasNorms || w.normsSection.isEmpty) BuiltIndex.normsSection
    (fun p off len => { p with normsOff := off, normsLen := len }) [] d.indexes answers d

/-- The filters. -/
def writeBsbfs : Step := fun answers d =>
  writeSections (fun w => !w.hasBsbf) BuiltIndex.bsbfBytes
    (fun p off len => { p with bsbfOff := off, bsbfLen := len }) [] d.indexes answers d

/-- `write_norms`: the norms of all indexes, then their filters. -/
def writeNorms : Step := andThen writeNormsPods writeBsbfs

/-- The tail pointer over the region in front of it. -/
def writePointer (region : Bytes) (regionOff : Nat) : Step := fun answers d =>
  match encodeTailPointer
      { metaRegionOffset := regionOff, metaRegionLength := advance regionOff d.offset, hotOff := 0
        metaRegionChecksum := crc32c region, bootstrapHeaderChecksum := 0 } with
  | .error e => some (.error e, d, answers)
  | .ok tail => appendSpans [tail] answers d

/-- `write_tail`. -/
def writeTail : Step := fun answers d =>
  andThen (appendSpans [finishRegion (d.indexes.map metaEntry)])
    (writePointer (finishRegion (d.indexes.map metaEntry)) d.offset) answers d

/-- Flushes and closes the file. -/
def finalize (sync : SyncAnswers) : Step := fun answers d =>
  (Io.LocalFile.finalize answers sync d.file).map fun (status, file, rest) =>
    (status, { d with file := file }, rest)

/-- The sections and the tail of a container. -/
def writeRest : Step := andThen ensureBootstrap (andThen writeNorms writeTail)

/-- `finish`, which sets the flag whatever comes after. -/
def finish (sync : SyncAnswers) : Step := fun answers d =>
  if d.finished then some (.error (.internal "compound: finish called twice"), d, answers)
  else andThen writeRest (finalize sync) answers { d with finished := true }

/-! ## Steps -/

variable {answers rest : List Answer} {d d' : LocalCompoundWriter} {c c' c₁ c₂ : SniiCompoundWriter}
  {status : Result Unit} {x y : Step}

/-- The file holds, written or still buffered, what the writer in memory put out, and the
two are in the same state. -/
structure Follows (d : LocalCompoundWriter) (c : SniiCompoundWriter) : Prop where
  content : d.file.disk ++ d.file.buf = c.out
  isOpen : d.file.isOpen = true
  written : d.file.bytesWritten % 2 ^ 64 = c.out.length % 2 ^ 64
  bootstrapWritten : d.bootstrapWritten = c.bootstrapWritten
  finished : d.finished = c.finished
  indexes : d.indexes = c.indexes

/-- A step that is to lead to `c'` with `status` does so, or it fails where the system failed
a write, and leaves a prefix of the output on disk. -/
inductive Ends (answers : List Answer) (status : Result Unit) (c' : SniiCompoundWriter) :
    Result Unit × LocalCompoundWriter × List Answer → Prop where
  | kept {d' : LocalCompoundWriter} {rest : List Answer} (follows : Follows d' c')
      (suffix : rest <:+ answers) : Ends answers status c' (status, d', rest)
  | failed {e : Status} {d' : LocalCompoundWriter} {rest : List Answer}
      (answer : ∃ message, .failed message ∈ answers) (part : d'.file.disk <+: c'.out) :
      Ends answers status c' (.error e, d', rest)

/-- From every file in step with `c` the step leads to `c'`, and answers that suffice for
the bytes in between end it. -/
structure Leads (x : Step) (c : SniiCompoundWriter) (status : Result Unit)
    (c' : SniiCompoundWriter) : Prop where
  grows : c.out <+: c'.out
  ends : ∀ {answers d out}, Follows d c → x answers d = some out → Ends answers status c' out
  serves : ∀ {answers d}, Follows d c → Willing answers →
    d.file.buf.length + (c'.out.length - c.out.length) ≤ grants answers →
      ∃ d' rest, x answers d = some (status, d', rest) ∧
        d'.file.buf.length + grants answers ≤
          grants rest + (d.file.buf.length + (c'.out.length - c.out.length))

/-- Answers without a failure let no step fail. -/
theorem Leads.follows (h : Leads x c status c') (hd : Follows d c) (hwilling : Willing answers)
    {s : Result Unit} (hx : x answers d = some (s, d', rest)) :
    s = status ∧ Follows d' c' ∧ Willing rest := by
  cases h.ends hd hx with
  | kept follows suffix => exact ⟨rfl, follows, fun m hm => hwilling m (suffix.subset hm)⟩
  | failed answer => exact absurd answer.choose_spec (hwilling _)

/-- **Two steps** lead where the second one does. -/
theorem Leads.andThen (hx : Leads x c (.ok ()) c₁) (hy : Leads y c₁ status c₂) :
    Leads (andThen x y) c status c₂ := by
  have hlen := hx.grows.length_le
  have hlen' := hy.grows.length_le
  constructor
  case grows => exact hx.grows.trans hy.grows
  case ends =>
    intro answers d out hd h
    rw [CompoundFile.andThen] at h
    cases hrun : x answers d with
    | none => rw [hrun] at h; cases h
    | some first =>
        rw [hrun] at h
        cases hx.ends hd hrun with
        | kept follows suffix =>
            cases hy.ends follows h with
            | kept follows' suffix' => exact .kept follows' (suffix'.trans suffix)
            | failed answer part =>
                exact .failed (answer.imp fun _ hm => suffix.subset hm) part
        | failed answer part =>
            cases h
            exact .failed answer (part.trans hy.grows)
  case serves =>
    intro answers d hd hwilling hgrants
    obtain ⟨d', rest, hrun, hleft⟩ := hx.serves hd hwilling (by omega)
    obtain ⟨-, hfollows, hwilling'⟩ := hx.follows hd hwilling hrun
    obtain ⟨d'', rest', hrun', hleft'⟩ := hy.serves hfollows hwilling' (by omega)
    refine ⟨d'', rest', ?_, by omega⟩
    rw [CompoundFile.andThen, hrun]
    exact hrun'

/-- **Spans** lead to the output with their bytes at its end. -/
theorem leads_appendSpans (spans : List Bytes) (c : SniiCompoundWriter) :
    Leads (appendSpans spans) c (.ok ()) { c with out := c.out ++ spans.flatten } := by
  constructor
  case grows => exact List.prefix_append _ _
  case ends =>
    intro answers d out hd h
    rw [appendSpans] at h
    obtain ⟨⟨s, file, rest⟩, hrun, rfl⟩ := Option.map_eq_some_iff.mp h
    have hused := Io.LocalFile.appendAll_used hd.isOpen hrun
    cases s with
    | ok u =>
        obtain ⟨hcontent, hopen, hwritten⟩ := Io.LocalFile.appendAll_ok hrun
        refine .kept ⟨?_, hopen.trans hd.isOpen, ?_, hd.bootstrapWritten, hd.finished, hd.indexes⟩
          hused.suffix
        · rw [hcontent, hd.content]
        · rw [hwritten, Nat.add_mod, hd.written, ← Nat.add_mod, List.length_append]
    | error e =>
        refine .failed (hused.failed e rfl) ?_
        have hpart := Io.LocalFile.appendAll_error hrun
        rwa [hd.content] at hpart
  case serves =>
    intro answers d hd hwilling hgrants
    simp only [List.length_append, Nat.add_sub_cancel_left] at hgrants ⊢
    obtain ⟨file, rest, hrun, hleft⟩ :=
      Io.LocalFile.appendAll_willing hwilling hd.isOpen hgrants
    refine ⟨{ d with file := file }, rest, ?_, hleft⟩
    rw [appendSpans, hrun]
    rfl

/-- A step is what it does on the files in step with `c`. -/
theorem Leads.congr {x y : Step} (h : Leads y c status c')
    (hxy : ∀ {answers d}, Follows d c → x answers d = y answers d) : Leads x c status c' where
  grows := h.grows
  ends hd hx := h.ends hd (hxy hd ▸ hx)
  serves hd hwilling hgrants := by
    rw [hxy hd]
    exact h.serves hd hwilling hgrants

/-- While it follows the plain writer, `bytes_written_` is the length of its file. -/
theorem Follows.offset_eq (h : Follows d c) (hlen : c.out.length < 2 ^ 64) :
    d.offset = c.out.length := by
  rw [LocalCompoundWriter.offset, h.written, Nat.mod_eq_of_lt hlen]

/-- The difference of two offsets of one file does not wrap. -/
theorem advance_eq {first last : Nat} (h : first ≤ last) (hlast : last < 2 ^ 64) :
    advance first last = last - first := by
  rw [advance, show last + 2 ^ 64 - first = last - first + 2 ^ 64 by omega, Nat.add_mod_right,
    Nat.mod_eq_of_lt (by omega)]

/-- A step over members that the file does not see. -/
theorem Leads.after {f : LocalCompoundWriter → LocalCompoundWriter} (h : Leads y c₁ status c')
    (hf : ∀ {d}, Follows d c → Follows (f d) c₁) (hout : c₁.out = c.out)
    (hfile : ∀ d, (f d).file = d.file) : Leads (fun answers d => y answers (f d)) c status c' where
  grows := hout ▸ h.grows
  ends hd hy := h.ends (hf hd) hy
  serves hd hwilling hgrants := by
    rw [← hfile, ← hout] at hgrants ⊢
    exact h.serves (hf hd) hwilling hgrants

/-- A step that writes nothing. -/
theorem leads_done (status : Result Unit) (c : SniiCompoundWriter) :
    Leads (fun answers d => some (status, d, answers)) c status c where
  grows := List.prefix_rfl
  ends hd h := by
    cases h
    exact .kept hd List.suffix_rfl
  serves _ _ _ := ⟨_, _, rfl, by omega⟩

/-- A status put in the place of a step's own. -/
theorem Leads.failing {g : Result Unit → Status} (h : Leads x c (.ok ()) c') :
    Leads (fun answers d => (x answers d).map fun (written, d, rest) =>
      (.error (g written), d, rest)) c (.error (g (.ok ()))) c' where
  grows := h.grows
  ends hd hx := by
    obtain ⟨⟨s, d', rest⟩, hrun, rfl⟩ := Option.map_eq_some_iff.mp hx
    cases h.ends hd hrun with
    | kept follows suffix => exact .kept follows suffix
    | failed answer part => exact .failed answer part
  serves hd hwilling hgrants := by
    obtain ⟨d', rest, hrun, hleft⟩ := h.serves hd hwilling hgrants
    exact ⟨d', rest, by rw [hrun]; rfl, hleft⟩

/-- The bootstrap header is written alike. -/
theorem leads_ensureBootstrap (c : SniiCompoundWriter) :
    Leads ensureBootstrap c (.ok ()) (CompoundWriter.ensureBootstrap c) := by
  cases hboot : c.bootstrapWritten with
  | true =>
      rw [CompoundWriter.ensureBootstrap_of_written hboot]
      refine (leads_done (.ok ()) c).congr fun hd => ?_
      rw [ensureBootstrap, if_pos (hd.bootstrapWritten.trans hboot)]
  | false =>
      have hstart : CompoundWriter.ensureBootstrap c =
          { c with bootstrapWritten := true, out := c.out ++ [containerHeader].flatten } := by
        rw [CompoundWriter.ensureBootstrap, if_neg (by rw [hboot]; exact Bool.false_ne_true),
          List.flatten_singleton]
      rw [hstart]
      have hset := (leads_appendSpans [containerHeader] { c with bootstrapWritten := true }).after
        (c := c) (f := fun d => { d with bootstrapWritten := true })
        (fun hd => ⟨hd.content, hd.isOpen, hd.written, rfl, hd.finished, hd.indexes⟩) rfl
        fun _ => rfl
      refine hset.congr fun hd => ?_
      rw [ensureBootstrap, if_neg (by rw [hd.bootstrapWritten, hboot]; exact Bool.false_ne_true)]

/-! ## Adding an index -/

/-- The index is recorded alike. -/
theorem leads_keepIndex (w : BuiltIndex) {postOff dictOff : Nat} (hpost : postOff ≤ dictOff)
    (hdict : dictOff ≤ c.out.length) (hlen : c.out.length < 2 ^ 64) :
    Leads (keepIndex w postOff dictOff) c (.ok ())
      { c with indexes := c.indexes ++ [(w,
          { postOff := postOff, postLen := dictOff - postOff
            dictOff := dictOff, dictLen := c.out.length - dictOff })] } := by
  refine Leads.congr (y := fun answers d => some (.ok (), { d with
      indexes := d.indexes ++ [(w,
        { postOff := postOff, postLen := advance postOff dictOff
          dictOff := dictOff, dictLen := advance dictOff d.offset })] }, answers)) ?_ fun _ => rfl
  refine (leads_done (.ok ()) _).after (fun hd => ?_) rfl fun _ => rfl
  refine ⟨hd.content, hd.isOpen, hd.written, hd.bootstrapWritten, hd.finished, ?_⟩
  simp only [hd.indexes, hd.offset_eq hlen, advance_eq hpost (hdict.trans_lt hlen),
    advance_eq hdict hlen]

/-- **The regions** of an index that the writer in memory has started on. -/
theorem leads_appendIndex (env : BuildEnv) (spans : Spans) (a : AddCall)
    (hboot : c.bootstrapWritten = true) (hopen : c.finished = false)
    (hlen : (CompoundWriter.addLogicalIndex env a c).2.out.length < 2 ^ 64) :
    Leads (appendIndex env spans a) c (CompoundWriter.addLogicalIndex env a c).1
      (CompoundWriter.addLogicalIndex env a c).2 := by
  rw [CompoundWriter.addLogicalIndex, if_neg (by rw [hopen]; exact Bool.false_ne_true),
    CompoundWriter.ensureBootstrap_of_written hboot] at hlen ⊢
  cases hbuild : build (a.env env) a.input [] with
  | error e region =>
      simp only
      have happend := (leads_appendSpans (spans.region region) c).failing
        (g := buildError a.input e)
      rw [spans.region_flatten] at happend
      exact happend.congr fun _ => by rw [appendIndex, hbuild]
  | ok w region =>
      simp only [hbuild] at hlen ⊢
      have hregion := leads_appendSpans (spans.region region) c
      rw [spans.region_flatten] at hregion
      have hdict := leads_appendSpans (spans.dict w.dictBuf.streamInto)
        { c with out := c.out ++ region }
      rw [spans.dict_flatten] at hdict
      simp only [List.length_append] at hlen
      have hkeep := hdict.andThen (leads_keepIndex w (Nat.le_add_right c.out.length region.length)
        (by simp only [List.length_append]; omega) (by simp only [List.length_append]; omega))
      have hsecond : Leads (appendDict spans w c.out.length) { c with out := c.out ++ region }
          (.ok ()) _ := hkeep.congr fun hd => by
        rw [appendDict, hd.offset_eq (by simp only [List.length_append]; omega),
          List.length_append]
      have hboth := (hregion.andThen hsecond).congr (x := appendIndex env spans a) fun hd => by
        rw [appendIndex, hbuild]
        simp only [hd.offset_eq (show c.out.length < 2 ^ 64 by omega)]
      simpa only [List.length_append, Nat.add_sub_cancel_left] using hboth

/-- **An add** leads where the writer in memory goes. -/
theorem leads_addLogicalIndex (env : BuildEnv) (spans : Spans) (a : AddCall)
    (hopen : c.finished = false)
    (hlen : (CompoundWriter.addLogicalIndex env a c).2.out.length < 2 ^ 64) :
    Leads (addLogicalIndex env spans a) c (CompoundWriter.addLogicalIndex env a c).1
      (CompoundWriter.addLogicalIndex env a c).2 := by
  obtain ⟨hboot, hsame⟩ := CompoundWriter.ensureBootstrap_flags c
  have hstarted : CompoundWriter.addLogicalIndex env a c =
      CompoundWriter.addLogicalIndex env a (CompoundWriter.ensureBootstrap c) := by
    rw [CompoundWriter.addLogicalIndex, CompoundWriter.addLogicalIndex,
      CompoundWriter.ensureBootstrap_of_written hboot, if_neg (by simp [hopen]),
      if_neg (by simp [hsame, hopen])]
  rw [hstarted] at hlen ⊢
  refine ((leads_ensureBootstrap c).andThen
    (leads_appendIndex env spans a hboot (hsame.trans hopen) hlen)).congr fun hd => ?_
  rw [addLogicalIndex, if_neg (by rw [hd.finished, hopen]; exact Bool.false_ne_true)]

/-! ## Finishing -/

section Sections

variable (skip : BuiltIndex → Bool) (bytes : BuiltIndex → Bytes)
  (place : Placement → Nat → Nat → Placement)

/-- A pass over the sections only appends. -/
theorem writeSections_grows (out : Bytes) (todo : List (BuiltIndex × Placement)) :
    out <+: (CompoundWriter.writeSections skip bytes place out todo).1 := by
  induction todo generalizing out with
  | nil => exact List.prefix_rfl
  | cons x rest ih =>
      obtain ⟨w, p⟩ := x
      rw [CompoundWriter.writeSections]
      split
      · exact ih out
      · exact (List.prefix_append _ _).trans (ih _)

/-- **A pass** places the sections where the writer in memory does. -/
theorem leads_writeSections (done todo : List (BuiltIndex × Placement))
    (hlen : (CompoundWriter.writeSections skip bytes place c.out todo).1.length < 2 ^ 64) :
    Leads (writeSections skip bytes place done todo) c (.ok ())
      { c with
        out := (CompoundWriter.writeSections skip bytes place c.out todo).1
        indexes := done ++ (CompoundWriter.writeSections skip bytes place c.out todo).2 } := by
  induction todo generalizing done c with
  | nil =>
      rw [CompoundWriter.writeSections, List.append_nil]
      refine Leads.congr (y := fun answers d => some (.ok (), { d with indexes := done }, answers))
        ?_ fun _ => rfl
      refine (leads_done (.ok ()) _).after (fun hd => ?_) rfl fun _ => rfl
      exact ⟨hd.content, hd.isOpen, hd.written, hd.bootstrapWritten, hd.finished, rfl⟩
  | cons x rest ih =>
      obtain ⟨w, p⟩ := x
      rw [CompoundWriter.writeSections] at hlen ⊢
      by_cases hskip : skip w = true
      · rw [if_pos hskip] at hlen ⊢
        have hrest := ih (done ++ [(w, p)]) hlen
        rw [List.append_assoc] at hrest
        refine hrest.congr fun _ => ?_
        rw [writeSections, if_pos hskip]
      · rw [if_neg hskip] at hlen ⊢
        have hle := (writeSections_grows skip bytes place (c.out ++ bytes w) rest).length_le
        rw [List.length_append] at hle
        have hshort : c.out.length + (bytes w).length < 2 ^ 64 := hle.trans_lt hlen
        have hspan := leads_appendSpans [bytes w]
          { c with indexes := done ++ (w, place p c.out.length 0) :: rest }
        rw [List.flatten_singleton] at hspan
        have hrest := @ih { c with out := c.out ++ bytes w
                                   indexes := done ++ (w, place p c.out.length 0) :: rest }
          (done ++ [(w, place p c.out.length (bytes w).length)]) hlen
        rw [List.append_assoc] at hrest
        have hlater : Leads (fun answers d' => writeSections skip bytes place
            (done ++ [(w, place p c.out.length (advance c.out.length d'.offset))]) rest answers d')
            { c with out := c.out ++ bytes w
                     indexes := done ++ (w, place p c.out.length 0) :: rest } (.ok ()) _ :=
          hrest.congr fun {_ d'} hd => by
            have hplace : advance c.out.length d'.offset = (bytes w).length := by
              rw [hd.offset_eq (by rwa [List.length_append]), List.length_append,
                advance_eq (Nat.le_add_right _ _) hshort, Nat.add_sub_cancel_left]
            rw [hplace]
        have hboth := (hspan.andThen hlater).after (c := c)
          (f := fun d => { d with indexes := done ++ (w, place p c.out.length 0) :: rest })
          (fun hd => ⟨hd.content, hd.isOpen, hd.written, hd.bootstrapWritten, hd.finished, rfl⟩)
          rfl fun _ => rfl
        refine hboth.congr fun hd => ?_
        rw [writeSections, if_neg hskip]
        simp only [hd.offset_eq (show c.out.length < 2 ^ 64 by omega)]

end Sections

/-- Norms and filters are written alike. -/
theorem leads_writeNorms
    (hlen : (CompoundWriter.writeNorms c.out c.indexes).1.length < 2 ^ 64) :
    Leads writeNorms c (.ok ())
      { c with
        out := (CompoundWriter.writeNorms c.out c.indexes).1
        indexes := (CompoundWriter.writeNorms c.out c.indexes).2 } := by
  rw [CompoundWriter.writeNorms] at hlen ⊢
  simp only [CompoundWriter.writeNormsPods, CompoundWriter.writeBsbfs] at hlen ⊢
  have hgrows := writeSections_grows (fun w => !w.hasBsbf) BuiltIndex.bsbfBytes
    (fun p off len => { p with bsbfOff := off, bsbfLen := len })
    (CompoundWriter.writeSections (fun w => !w.input.hasNorms || w.normsSection.isEmpty)
      BuiltIndex.normsSection (fun p off len => { p with normsOff := off, normsLen := len })
      c.out c.indexes).1
    (CompoundWriter.writeSections (fun w => !w.input.hasNorms || w.normsSection.isEmpty)
      BuiltIndex.normsSection (fun p off len => { p with normsOff := off, normsLen := len })
      c.out c.indexes).2
  have hnorms := leads_writeSections (fun w => !w.input.hasNorms || w.normsSection.isEmpty)
    BuiltIndex.normsSection (fun p off len => { p with normsOff := off, normsLen := len })
    [] c.indexes (c := c) (hgrows.length_le.trans_lt hlen)
  have hbsbfs := leads_writeSections (fun w => !w.hasBsbf) BuiltIndex.bsbfBytes
    (fun p off len => { p with bsbfOff := off, bsbfLen := len }) [] _
    (c := { c with
      out := (CompoundWriter.writeSections (fun w => !w.input.hasNorms || w.normsSection.isEmpty)
        BuiltIndex.normsSection (fun p off len => { p with normsOff := off, normsLen := len })
        c.out c.indexes).1
      indexes := (CompoundWriter.writeSections
        (fun w => !w.input.hasNorms || w.normsSection.isEmpty) BuiltIndex.normsSection
        (fun p off len => { p with normsOff := off, normsLen := len }) c.out c.indexes).2 }) hlen
  exact (hnorms.congr (x := writeNormsPods) fun hd => by
    rw [writeNormsPods, hd.indexes]).andThen
      (hbsbfs.congr (x := writeBsbfs) fun hd => by rw [writeBsbfs, hd.indexes])

/-- The tail is written alike. -/
theorem leads_writeTail {out : Bytes}
    (htail : CompoundWriter.writeTail c.out c.indexes = .ok out) (hlen : out.length < 2 ^ 64) :
    Leads writeTail c (.ok ()) { c with out := out } := by
  rw [CompoundWriter.writeTail] at htail
  obtain ⟨tail, hpointer, hout⟩ := bind_eq_ok htail
  obtain rfl : _ = out := Except.ok.inj hout
  rw [List.length_append, List.length_append] at hlen
  have hregion := leads_appendSpans [finishRegion (c.indexes.map metaEntry)] c
  rw [List.flatten_singleton] at hregion
  have htail := leads_appendSpans [tail]
    { c with out := c.out ++ finishRegion (c.indexes.map metaEntry) }
  rw [List.flatten_singleton] at htail
  have hpoint : Leads (writePointer (finishRegion (c.indexes.map metaEntry)) c.out.length)
      { c with out := c.out ++ finishRegion (c.indexes.map metaEntry) } (.ok ()) _ :=
    htail.congr fun hd => by
      rw [writePointer, hd.offset_eq (by rw [List.length_append]; omega), List.length_append,
        advance_eq (Nat.le_add_right _ _) (by omega), Nat.add_sub_cancel_left, hpointer]
  refine (hregion.andThen hpoint).congr fun hd => ?_
  rw [writeTail, hd.indexes, hd.offset_eq (by omega)]

/-- **The rest of a container** of a writer that is not finished. -/
theorem leads_writeRest (hopen : c.finished = false)
    (hok : (CompoundWriter.finish c).1 = .ok ())
    (hlen : (CompoundWriter.finish c).2.out.length < 2 ^ 64) :
    Leads writeRest { c with finished := true } (.ok ()) (CompoundWriter.finish c).2 := by
  rw [CompoundWriter.finish, if_neg (by rw [hopen]; exact Bool.false_ne_true)] at hok hlen ⊢
  simp only at hok hlen ⊢
  generalize hstart : CompoundWriter.ensureBootstrap { c with finished := true } = started
    at hok hlen ⊢
  have hboot := leads_ensureBootstrap { c with finished := true }
  rw [hstart] at hboot
  generalize hnorms : CompoundWriter.writeNorms started.out started.indexes = placed at hok hlen ⊢
  cases htail : CompoundWriter.writeTail placed.1 placed.2 with
  | error e => rw [htail] at hok; cases hok
  | ok out =>
      rw [htail] at hlen
      simp only at hlen ⊢
      have hlast := leads_writeTail (c := { started with out := placed.1, indexes := placed.2 })
        htail hlen
      have hmid := leads_writeNorms (c := started) (by
        rw [hnorms]
        exact hlast.grows.length_le.trans_lt hlen)
      rw [hnorms] at hmid
      exact hboot.andThen (hmid.andThen hlast)

/-- **A finish** closes the file over the container, or fails where the system failed a call
and leaves a prefix of it. -/
theorem finish_ends {sync : SyncAnswers} (hd : Follows d c) (hopen : c.finished = false)
    (hok : (CompoundWriter.finish c).1 = .ok ())
    (hlen : (CompoundWriter.finish c).2.out.length < 2 ^ 64)
    (h : finish sync answers d = some (status, d', rest)) :
    (status = .ok () ∧ d'.file.disk = (CompoundWriter.finish c).2.out) ∨
      ∃ e, status = .error e ∧ (sync ≠ {} ∨ ∃ message, .failed message ∈ answers) ∧
        d'.file.disk <+: (CompoundWriter.finish c).2.out := by
  have hstart : Follows { d with finished := true } { c with finished := true } :=
    ⟨hd.content, hd.isOpen, hd.written, hd.bootstrapWritten, rfl, hd.indexes⟩
  rw [finish, if_neg (by rw [hd.finished, hopen]; exact Bool.false_ne_true), andThen] at h
  cases hrun : writeRest answers { d with finished := true } with
  | none => rw [hrun] at h; cases h
  | some out =>
      rw [hrun] at h
      cases (leads_writeRest hopen hok hlen).ends hstart hrun with
      | failed answer part =>
          cases h
          exact .inr ⟨_, rfl, .inr answer, part⟩
      | @kept mid left follows suffix =>
          obtain ⟨⟨s, file, rest⟩, hclose, heq⟩ := Option.map_eq_some_iff.mp h
          cases heq
          cases status with
          | ok u =>
              refine .inl ⟨rfl, ?_⟩
              rw [← follows.content]
              exact (Io.LocalFile.finalize_ok hclose).1
          | error e =>
              refine .inr ⟨e, rfl, ?_, ?_⟩
              · exact (Io.LocalFile.finalize_failed follows.isOpen hclose).imp_right fun hm =>
                  hm.imp fun _ hmem => suffix.subset hmem
              · rw [← follows.content]
                exact Io.LocalFile.finalize_error hclose

/-- A willing system closes the file. -/
theorem finish_serves (hd : Follows d c) (hopen : c.finished = false)
    (hok : (CompoundWriter.finish c).1 = .ok ())
    (hlen : (CompoundWriter.finish c).2.out.length < 2 ^ 64) (hwilling : Willing answers)
    (hgrants : d.file.buf.length + ((CompoundWriter.finish c).2.out.length - c.out.length) ≤
      grants answers) : ∃ d' rest, finish {} answers d = some (.ok (), d', rest) := by
  have hstart : Follows { d with finished := true } { c with finished := true } :=
    ⟨hd.content, hd.isOpen, hd.written, hd.bootstrapWritten, rfl, hd.indexes⟩
  have hrest := leads_writeRest hopen hok hlen
  obtain ⟨mid, left, hrun, hleft⟩ := hrest.serves hstart hwilling hgrants
  obtain ⟨-, hfollows, hwilling'⟩ := hrest.follows hstart hwilling hrun
  obtain ⟨file, rest, hclose⟩ := Io.LocalFile.finalize_willing hwilling' hfollows.isOpen (by
    simp only at hleft
    omega)
  refine ⟨{ mid with file := file }, rest, ?_⟩
  rw [finish, if_neg (by rw [hd.finished, hopen]; exact Bool.false_ne_true), andThen, hrun]
  simp only [finalize, hclose, Option.map_some]

/-! ## The flag -/

/-- A step that leaves the writer as finished as it was. -/
structure Keeps (x : Step) : Prop where
  finished : ∀ {answers d s d' rest}, x answers d = some (s, d', rest) → d'.finished = d.finished

/-- What both steps keep, both keep. -/
theorem Keeps.andThen (hx : Keeps x) (hy : Keeps y) : Keeps (andThen x y) where
  finished {answers d s d' rest} h := by
    rw [CompoundFile.andThen] at h
    cases hrun : x answers d with
    | none => rw [hrun] at h; cases h
    | some out =>
        obtain ⟨s', mid, left⟩ := out
        rw [hrun] at h
        cases s' with
        | ok u => exact (hy.finished h).trans (hx.finished hrun)
        | error e => cases h; exact hx.finished hrun

/-- Appending keeps the flags, failed or not. -/
theorem keeps_appendSpans (spans : List Bytes) : Keeps (appendSpans spans) where
  finished h := by
    obtain ⟨_, -, heq⟩ := Option.map_eq_some_iff.mp h
    cases heq
    rfl

theorem keeps_ensureBootstrap : Keeps ensureBootstrap where
  finished {answers d s d' rest} h := by
    rw [ensureBootstrap] at h
    by_cases hboot : d.bootstrapWritten = true
    · rw [if_pos hboot] at h
      cases h
      rfl
    · rw [if_neg hboot] at h
      have hkept := (keeps_appendSpans _).finished h
      exact hkept

theorem keeps_writeSections (skip : BuiltIndex → Bool) (bytes : BuiltIndex → Bytes)
    (place : Placement → Nat → Nat → Placement) (done todo : List (BuiltIndex × Placement)) :
    Keeps (writeSections skip bytes place done todo) := by
  induction todo generalizing done with
  | nil =>
      refine ⟨fun h => ?_⟩
      cases h
      rfl
  | cons x rest ih =>
      obtain ⟨w, p⟩ := x
      refine ⟨fun h => ?_⟩
      rw [writeSections] at h
      by_cases hskip : skip w = true
      · rw [if_pos hskip] at h
        exact (ih _).finished h
      · rw [if_neg hskip] at h
        have hkept :=
          ((keeps_appendSpans _).andThen ⟨fun hlater => (ih _).finished hlater⟩).finished h
        exact hkept

theorem keeps_writeNorms : Keeps writeNorms :=
  Keeps.andThen ⟨fun h => (keeps_writeSections _ _ _ _ _).finished h⟩
    ⟨fun h => (keeps_writeSections _ _ _ _ _).finished h⟩

theorem keeps_writeTail : Keeps writeTail := by
  refine ⟨fun h => ((keeps_appendSpans _).andThen ⟨fun hpointer => ?_⟩).finished h⟩
  rw [writePointer] at hpointer
  split at hpointer
  · cases hpointer
    rfl
  · exact (keeps_appendSpans _).finished hpointer

theorem keeps_finalize (sync : SyncAnswers) : Keeps (finalize sync) where
  finished h := by
    obtain ⟨_, -, heq⟩ := Option.map_eq_some_iff.mp h
    cases heq
    rfl

/-- **A finished writer** stays finished, whether the finish succeeded or not. -/
theorem finished_finish {sync : SyncAnswers}
    (h : finish sync answers d = some (status, d', rest)) : d'.finished = true := by
  rw [finish] at h
  by_cases hdone : d.finished = true
  · rw [if_pos hdone] at h
    cases h
    exact hdone
  · rw [if_neg hdone] at h
    have hrest := keeps_ensureBootstrap.andThen (keeps_writeNorms.andThen keeps_writeTail)
    exact (hrest.andThen (keeps_finalize sync)).finished h

end Snii.Writer.CompoundFile
