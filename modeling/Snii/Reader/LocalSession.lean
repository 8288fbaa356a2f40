import Snii.Reader.SameIndex
import Snii.Writer.CompoundFile

/-!
# A session on local disk

A caller may add and finish in any order, and go on after a call that failed.  As long as
the system fails no write, the file holds what the calls put out, and the calls return what
they return in memory (`adds_follow`).  A session in which nothing failed, and one whose
calls up to the first `finish` all succeeded, leaves the container of its adds, and reads of
the file are reads of the container; up to the first call that fails the file is a prefix of
it; the calls behind the first `finish` are refused (`localSession_sound`).
-/

namespace Snii.Reader

open Snii.Lib.ByteReader Snii.Common Snii.Io
open Snii.Io.LocalFile (Answer SyncAnswers LocalFileReader Willing grants)
open Snii.Writer.LogicalIndexWriter Snii.Writer.CompoundWriter
open Snii.Writer.CompoundFile (LocalCompoundWriter Spans Step Follows Leads)

/-! ## Calls in any order -/

inductive Call where
  | add (a : AddCall)
  | finish

/-- A call on a writer over a local file. -/
def Call.run (env : BuildEnv) (spans : AddCall → Spans) (sync : SyncAnswers) : Call → Step
  | .add a => Writer.CompoundFile.addLogicalIndex env (spans a) a
  | .finish => Writer.CompoundFile.finish sync

/-- The calls of a session with their statuses; one that fails does not end it. -/
def runCalls (env : BuildEnv) (spans : AddCall → Spans) (sync : SyncAnswers) :
    List Call → List Answer → LocalCompoundWriter →
      Option (List (Result Unit) × LocalCompoundWriter × List Answer)
  | [], answers, d => some ([], d, answers)
  | call :: rest, answers, d =>
      match call.run env spans sync answers d with
      | none => none
      | some (status, d, left) =>
          (runCalls env spans sync rest left d).map fun (statuses, d, left) =>
            (status :: statuses, d, left)

/-- The adds in front of the first `finish`. -/
def addsBefore : List Call → List AddCall
  | [] => []
  | .finish :: _ => []
  | .add a :: rest => a :: addsBefore rest

/-- The calls behind the first `finish`. -/
def afterFinish : List Call → List Call
  | [] => []
  | .finish :: rest => rest
  | .add _ :: rest => afterFinish rest

def Call.isFinish : Call → Bool
  | .finish => true
  | .add _ => false

/-- The status of a call on a finished writer. -/
def Call.misuse : Call → Result Unit
  | .add _ => .error (.internal "compound: add after finish")
  | .finish => .error (.internal "compound: finish called twice")

variable {env : BuildEnv} {renv : ReadEnv} {calls early late : List Call} {adds : List AddCall}
  {spans : AddCall → Spans} {sync : SyncAnswers} {answers rest : List Answer}
  {d d' : LocalCompoundWriter} {c : SniiCompoundWriter} {statuses : List (Result Unit)}

/-- A session with a `finish` is its adds, the first `finish` and the rest. -/
theorem calls_eq (h : calls.any Call.isFinish = true) :
    calls = (addsBefore calls).map .add ++ .finish :: afterFinish calls := by
  induction calls with
  | nil => cases h
  | cons call rest ih =>
      cases call with
      | finish => rfl
      | add a =>
          rw [addsBefore, afterFinish, List.map_cons, List.cons_append, ← ih h]

/-- A run of calls is the run of the first ones, and that of the others from there. -/
theorem runCalls_append (h : runCalls env spans sync (early ++ late) answers d =
      some (statuses, d', rest)) :
    ∃ first mid left second, runCalls env spans sync early answers d = some (first, mid, left) ∧
      runCalls env spans sync late left mid = some (second, d', rest) ∧
        statuses = first ++ second := by
  induction early generalizing answers d statuses with
  | nil => exact ⟨[], d, answers, statuses, rfl, h, rfl⟩
  | cons call early ih =>
      rw [List.cons_append, runCalls] at h
      cases hcall : call.run env spans sync answers d with
      | none => rw [hcall] at h; cases h
      | some out =>
          obtain ⟨status, mid, left⟩ := out
          rw [hcall] at h
          obtain ⟨⟨later, end', rest'⟩, hlater, heq⟩ := Option.map_eq_some_iff.mp h
          cases heq
          obtain ⟨first, mid', left', second, hearly, hlate, rfl⟩ := ih hlater
          refine ⟨status :: first, mid', left', second, ?_, hlate, rfl⟩
          rw [runCalls, hcall]
          simp only [hearly]
          rfl

/-- A session of one call. -/
theorem runCalls_one {call : Call} (h : runCalls env spans sync [call] answers d =
      some (statuses, d', rest)) :
    ∃ status, call.run env spans sync answers d = some (status, d', rest) ∧
      statuses = [status] := by
  rw [runCalls] at h
  cases hcall : call.run env spans sync answers d with
  | none => rw [hcall] at h; cases h
  | some out =>
      obtain ⟨status, mid, left⟩ := out
      rw [hcall] at h
      cases h
      exact ⟨status, rfl, rfl⟩

/-- One status a call. -/
theorem runCalls_length (h : runCalls env spans sync calls answers d =
      some (statuses, d', rest)) : statuses.length = calls.length := by
  induction calls generalizing answers d statuses with
  | nil => cases h; rfl
  | cons call calls ih =>
      rw [runCalls] at h
      cases hcall : call.run env spans sync answers d with
      | none => rw [hcall] at h; cases h
      | some out =>
          rw [hcall] at h
          obtain ⟨⟨later, end', rest'⟩, hlater, heq⟩ := Option.map_eq_some_iff.mp h
          cases heq
          rw [List.length_cons, ih hlater, List.length_cons]

/-- **A finished writer** refuses every call and stays as it is. -/
theorem runCalls_finished (h : d.finished = true) (calls : List Call) :
    runCalls env spans sync calls answers d = some (calls.map Call.misuse, d, answers) := by
  induction calls with
  | nil => rfl
  | cons call rest ih =>
      have hrun : call.run env spans sync answers d = some (call.misuse, d, answers) := by
        cases call with
        | add a => rw [Call.run, Writer.CompoundFile.addLogicalIndex, if_pos h]; rfl
        | finish => rw [Call.run, Writer.CompoundFile.finish, if_pos h]; rfl
      rw [runCalls, hrun]
      simp only [ih]
      rfl

/-! ## What the writer in memory puts out -/

theorem ensureBootstrap_grows (c : SniiCompoundWriter) : c.out <+: (ensureBootstrap c).out := by
  rw [ensureBootstrap]
  split
  · exact List.prefix_rfl
  · exact List.prefix_append _ _

/-- An add only appends. -/
theorem addLogicalIndex_grows (env : BuildEnv) (a : AddCall) (c : SniiCompoundWriter) :
    c.out <+: (addLogicalIndex env a c).2.out := by
  rw [addLogicalIndex]
  split
  · exact List.prefix_rfl
  · refine (ensureBootstrap_grows c).trans ?_
    simp only
    split
    · exact List.prefix_append _ _
    · rw [List.append_assoc]
      exact List.prefix_append _ _

theorem addAll_grows (env : BuildEnv) (c : SniiCompoundWriter) (adds : List AddCall) :
    c.out <+: (addAll env c adds).2.out := by
  induction adds generalizing c with
  | nil => exact List.prefix_rfl
  | cons a adds ih =>
      rw [addAll]
      exact (addLogicalIndex_grows env a c).trans (ih _)

/-- Adds in two parts. -/
theorem addAll_append (env : BuildEnv) (c : SniiCompoundWriter) (adds more : List AddCall) :
    (addAll env c (adds ++ more)).2 = (addAll env (addAll env c adds).2 more).2 := by
  induction adds generalizing c with
  | nil => rfl
  | cons a adds ih => exact ih _

/-- `finish` only appends. -/
theorem finish_grows (c : SniiCompoundWriter) : c.out <+: (finish c).2.out := by
  rw [finish]
  split
  · exact List.prefix_rfl
  · refine (ensureBootstrap_grows { c with finished := true }).trans ?_
    generalize ensureBootstrap { c with finished := true } = started
    have hnorms : started.out <+: (writeNorms started.out started.indexes).1 :=
      (Writer.CompoundFile.writeSections_grows _ _ _ _ _).trans
        (Writer.CompoundFile.writeSections_grows _ _ _ _ _)
    refine hnorms.trans ?_
    simp only
    split
    · exact List.prefix_rfl
    · next htail =>
      rw [writeTail] at htail
      obtain ⟨tail, -, hout⟩ := bind_eq_ok htail
      cases hout
      rw [List.append_assoc]
      exact List.prefix_append _ _

/-- What the first adds put out begins the container of all. -/
theorem addAll_extends (env : BuildEnv) (adds more : List AddCall) :
    (addAll env {} adds).2.out <+: containerOf env (adds ++ more) := by
  rw [containerOf, addAll_append]
  exact (addAll_grows env _ more).trans (finish_grows _)

/-! ## The adds -/

/-- **The adds** of a session in which no write failed, or that all succeeded, do what they
do in memory. -/
theorem adds_follow (hd : Follows d c) (hopen : c.finished = false)
    (hlen : (addAll env c adds).2.out.length < 2 ^ 64)
    (h : runCalls env spans sync (adds.map .add) answers d = some (statuses, d', rest))
    (hclean : Willing answers ∨ ∀ s ∈ statuses, s = .ok ()) :
    statuses = (addAll env c adds).1 ∧ Follows d' (addAll env c adds).2 ∧ rest <:+ answers := by
  induction adds generalizing answers d statuses c with
  | nil =>
      cases h
      exact ⟨rfl, hd, List.suffix_rfl⟩
  | cons a adds ih =>
      rw [addAll] at hlen ⊢
      simp only at hlen ⊢
      have hopen' : (addLogicalIndex env a c).2.finished = false := by
        have hadd := @addAll_finished env [a] c hopen
        exact hadd
      have hstep := Writer.CompoundFile.leads_addLogicalIndex env (spans a) a hopen
        ((addAll_grows env _ adds).length_le.trans_lt hlen)
      rw [List.map_cons, runCalls] at h
      cases hcall : (Call.add a).run env spans sync answers d with
      | none => rw [hcall] at h; cases h
      | some out =>
          rw [hcall] at h
          obtain ⟨⟨later, end', rest'⟩, hlater, heq⟩ := Option.map_eq_some_iff.mp h
          cases heq
          cases hstep.ends hd hcall with
          | kept follows suffix =>
              obtain ⟨hstatuses, hfollows, hsuffix⟩ := ih follows hopen' hlen hlater
                (hclean.imp (fun hw m hm => hw m (suffix.subset hm))
                  fun hall s hs => hall s (List.mem_cons_of_mem _ hs))
              exact ⟨by rw [hstatuses], hfollows, hsuffix.trans suffix⟩
          | failed answer part =>
              rcases hclean with hw | hall
              · exact absurd answer.choose_spec (hw _)
              · cases hall _ List.mem_cons_self

/-- The adds of a session whose system has answers for all their bytes. -/
theorem adds_served (hd : Follows d c) (hopen : c.finished = false)
    (hlen : (addAll env c adds).2.out.length < 2 ^ 64) (hwilling : Willing answers)
    (hgrants : d.file.buf.length + ((addAll env c adds).2.out.length - c.out.length) ≤
      grants answers) :
    ∃ statuses d' rest, runCalls env spans sync (adds.map .add) answers d =
        some (statuses, d', rest) ∧
      d'.file.buf.length + grants answers ≤ grants rest +
        (d.file.buf.length + ((addAll env c adds).2.out.length - c.out.length)) := by
  induction adds generalizing answers d c with
  | nil => exact ⟨[], d, answers, rfl, by omega⟩
  | cons a adds ih =>
      rw [addAll] at hlen hgrants ⊢
      simp only at hlen hgrants ⊢
      have hopen' : (addLogicalIndex env a c).2.finished = false := by
        have hadd := @addAll_finished env [a] c hopen
        exact hadd
      have hle := (addLogicalIndex_grows env a c).length_le
      have hle' := (addAll_grows env (addLogicalIndex env a c).2 adds).length_le
      have hstep := Writer.CompoundFile.leads_addLogicalIndex env (spans a) a hopen
        (hle'.trans_lt hlen)
      obtain ⟨mid, left, hrun, hleft⟩ := hstep.serves hd hwilling (by omega)
      obtain ⟨-, hfollows, hwilling'⟩ := hstep.follows hd hwilling hrun
      obtain ⟨later, d', rest, hlater, hleft'⟩ := ih hfollows hopen' hlen hwilling' (by omega)
      refine ⟨(addLogicalIndex env a c).1 :: later, d', rest, ?_, by omega⟩
      rw [List.map_cons, runCalls, Call.run, hrun]
      simp only [hlater]
      rfl

/-! ## On disk -/

/-- What stands on disk and how it is read. -/
structure OnDisk (env : BuildEnv) (adds : List AddCall) (disk : Bytes) : Prop where
  content : disk = containerOf env adds
  opens : ∃ s, SniiSegmentReader.open disk = .ok s ∧
    directoryKeys s = (added env adds).map fun a => keyOf a.input
  reads : ∀ (r : LocalFileReader) answers off len result, r.isOpen = true →
    r.size = disk.length → LocalFile.readAt disk r answers off len = some result →
      result = FileReader.readAt (containerOf env adds) off len ∨
        (∃ message, result = .error (.ioError message)) ∨
          result = .error (.corruption "pread returned 0 before len")
  answered : ∀ (r : LocalFileReader) answers off len, r.isOpen = true → r.size = disk.length →
    Willing answers → (∀ n, .moved n ∈ answers → 0 < n) → len ≤ grants answers →
      LocalFile.readAt disk r answers off len =
        some (FileReader.readAt (containerOf env adds) off len)

theorem onDisk_container (hok : SessionOk (added env adds) (containerOf env adds)) :
    OnDisk env adds (containerOf env adds) := by
  obtain ⟨-, hcont⟩ := @finish_container env adds
  rw [← containerOf] at hcont
  constructor
  case content => rfl
  case opens => exact ⟨_, open_container hcont hok, directoryKeys_container hcont⟩
  case reads => exact fun r answers off len result hr hsize => LocalFile.readAt_sound hr hsize
  case answered =>
    exact fun r answers off len hr hsize hwilling hzero hlen =>
      LocalFile.readAt_willing hr hsize hwilling hlen hzero

/-- The file of a writer that no call was made on. -/
theorem follows_start : Follows {} {} := ⟨rfl, rfl, rfl, rfl, rfl, rfl⟩

/-- A file in step with a writer in memory is on disk up to what is buffered. -/
theorem disk_leads (hd : Follows d c) : d.file.disk <+: c.out :=
  hd.content ▸ List.prefix_append _ _

/-- **The first finish**, after adds in which no write failed or that all succeeded. -/
theorem session_finished (hok : SessionOk (added env adds) (containerOf env adds))
    (h : runCalls env spans sync (adds.map .add ++ .finish :: late) answers {} =
      some (statuses, d, rest)) :
    ∃ first, statuses = first ++ late.map Call.misuse ∧ first.length = adds.length + 1 ∧
      ((Willing answers ∧ sync = {}) ∨ (∀ s ∈ first, s = .ok ()) →
        first = (addAll env {} adds).1 ++ [.ok ()] ∧ d.file.disk = containerOf env adds) := by
  obtain ⟨early, mid, left, second, hadds, hlate, rfl⟩ := runCalls_append h
  have hsplit : (Call.finish :: late) = [.finish] ++ late := rfl
  rw [hsplit] at hlate
  obtain ⟨third, mid', left', fourth, hfinish, hrefused, rfl⟩ := runCalls_append hlate
  obtain ⟨status, hclose, rfl⟩ := runCalls_one hfinish
  rw [runCalls_finished (Writer.CompoundFile.finished_finish hclose)] at hrefused
  cases hrefused
  refine ⟨early ++ [status], by rw [List.append_assoc], ?_, fun hclean => ?_⟩
  · rw [List.length_append, runCalls_length hadds, List.length_map, List.length_singleton]
  have hlen := (addAll_extends env adds []).length_le
  rw [List.append_nil] at hlen
  obtain ⟨rfl, hfollows, hsuffix⟩ := adds_follow follows_start rfl (hlen.trans_lt hok.size) hadds
    (hclean.imp And.left fun hall s hs => hall s (List.mem_append_left _ hs))
  rcases Writer.CompoundFile.finish_ends hfollows (addAll_finished adds rfl)
      (finish_container adds).1 hok.size hclose with ⟨rfl, hdisk⟩ | ⟨e, rfl, hfailed, -⟩
  · exact ⟨rfl, hdisk⟩
  · rcases hclean with ⟨hwilling, hsync⟩ | hall
    · rcases hfailed with hne | ⟨message, hmem⟩
      · exact absurd hsync hne
      · exact absurd (hsuffix.subset hmem) (hwilling message)
    · cases hall (.error e) (List.mem_append_right _ List.mem_cons_self)

/-- **Up to the first call that fails** the file is a prefix of the container. -/
theorem session_prefix {more : List AddCall} {call : Call} {status : Result Unit}
    (hok : SessionOk (added env (adds ++ more)) (containerOf env (adds ++ more)))
    (hcall : call = .finish ∧ more = [] ∨ ∃ a later, call = .add a ∧ more = a :: later)
    (h : runCalls env spans sync (adds.map .add ++ [call]) answers {} =
      some (statuses ++ [status], d, rest)) (hall : ∀ s ∈ statuses, s = .ok ()) :
    d.file.disk <+: containerOf env (adds ++ more) := by
  obtain ⟨early, mid, left, second, hadds, hlast, heq⟩ := runCalls_append h
  obtain ⟨status', hrun, rfl⟩ := runCalls_one hlast
  obtain ⟨rfl, hstatus⟩ := List.append_inj' heq rfl
  have hlen := (addAll_extends env adds more).length_le.trans_lt hok.size
  obtain ⟨-, hfollows, -⟩ := adds_follow follows_start rfl hlen hadds (.inr hall)
  rcases hcall with ⟨rfl, rfl⟩ | ⟨a, later, rfl, rfl⟩
  · rw [List.append_nil] at hok ⊢
    rcases Writer.CompoundFile.finish_ends hfollows (addAll_finished adds rfl)
      (finish_container adds).1 hok.size hrun with ⟨-, hdisk⟩ | ⟨e, -, -, hpart⟩
    · exact hdisk ▸ List.prefix_rfl
    · exact hpart
  · have hput : (addLogicalIndex env a (addAll env {} adds).2).2.out <+:
        containerOf env (adds ++ a :: later) := by
      have hone := addAll_extends env (adds ++ [a]) later
      rwa [addAll_append, List.append_assoc] at hone
    have hstep := Writer.CompoundFile.leads_addLogicalIndex env (spans a) a
      (addAll_finished adds rfl) (hput.length_le.trans_lt hok.size)
    cases hstep.ends hfollows hrun with
    | kept follows _ => exact (disk_leads follows).trans hput
    | failed _ part => exact part.trans hput

/-- Without a `finish` every call is an add. -/
theorem addsBefore_append (h : early.any Call.isFinish = false) (late : List Call) :
    early = (addsBefore early).map .add ∧
      addsBefore (early ++ late) = addsBefore early ++ addsBefore late := by
  induction early with
  | nil => exact ⟨rfl, rfl⟩
  | cons call early ih =>
      cases call with
      | finish => cases h
      | add a =>
          obtain ⟨heq, happend⟩ := ih h
          constructor
          · rw [addsBefore, List.map_cons, ← heq]
          · rw [List.cons_append, addsBefore, addsBefore, happend, List.cons_append]

/-- Behind a `finish` no add counts. -/
theorem addsBefore_finished (h : early.any Call.isFinish = true) (late : List Call) :
    addsBefore (early ++ late) = addsBefore early := by
  induction early with
  | nil => cases h
  | cons call early ih =>
      cases call with
      | finish => rfl
      | add a => rw [List.cons_append, addsBefore, addsBefore, ih h]

/-- The calls up to the first that fails, wherever it stands. -/
theorem calls_prefix {call : Call} {status : Result Unit} (hcalls : calls = early ++ call :: late)
    (hok : SessionOk (added env (addsBefore calls)) (containerOf env (addsBefore calls)))
    (h : runCalls env spans sync (early ++ [call]) answers {} =
      some (statuses ++ [status], d, rest)) (hall : ∀ s ∈ statuses, s = .ok ()) :
    d.file.disk <+: containerOf env (addsBefore calls) := by
  subst hcalls
  cases hearly : early.any Call.isFinish with
  | true =>
      rw [addsBefore_finished hearly (call :: late)] at hok ⊢
      -- the finish was among the calls that succeeded, and the last one was refused
      have hsplit : early ++ [call] = (addsBefore early).map .add ++ .finish ::
          (afterFinish early ++ [call]) := by
        conv_lhs => rw [calls_eq hearly]
        rw [List.append_assoc, List.cons_append]
      rw [hsplit] at h
      obtain ⟨first, heq, -, hclosed⟩ := session_finished hok h
      rw [List.map_append, ← List.append_assoc] at heq
      obtain ⟨rfl, -⟩ := List.append_inj' heq rfl
      exact (hclosed (.inr fun s hs => hall s (List.mem_append_left _ hs))).2 ▸ List.prefix_rfl
  | false =>
      obtain ⟨heq, hadds⟩ := addsBefore_append hearly (call :: late)
      rw [heq] at h
      rw [hadds] at hok ⊢
      refine session_prefix hok ?_ h hall
      cases call with
      | finish => exact .inl ⟨rfl, rfl⟩
      | add a => exact .inr ⟨a, addsBefore late, rfl, rfl⟩

/-- Two runs, one after the other. -/
theorem runCalls_join {first second : List (Result Unit)} {mid : LocalCompoundWriter}
    {left : List Answer}
    (h : runCalls env spans sync early answers d = some (first, mid, left))
    (h' : runCalls env spans sync late left mid = some (second, d', rest)) :
    runCalls env spans sync (early ++ late) answers d = some (first ++ second, d', rest) := by
  induction early generalizing answers d first with
  | nil => cases h; exact h'
  | cons call early ih =>
      rw [runCalls] at h
      cases hcall : call.run env spans sync answers d with
      | none => rw [hcall] at h; cases h
      | some out =>
          rw [hcall] at h
          obtain ⟨⟨later, end', rest'⟩, hlater, heq⟩ := Option.map_eq_some_iff.mp h
          cases heq
          rw [List.cons_append, runCalls, hcall]
          simp only [ih hlater]
          rfl

/-- A willing system with answers for the container's bytes ends every session. -/
theorem session_served (hfinish : calls.any Call.isFinish = true)
    (hok : SessionOk (added env (addsBefore calls)) (containerOf env (addsBefore calls)))
    (hwilling : Willing answers)
    (hgrants : (containerOf env (addsBefore calls)).length ≤ grants answers) :
    ∃ statuses d rest, runCalls env spans {} calls answers {} = some (statuses, d, rest) := by
  have hlen := (addAll_extends env (addsBefore calls) []).length_le
  rw [List.append_nil] at hlen
  obtain ⟨first, mid, left, hadds, hleft⟩ := @adds_served env (addsBefore calls) spans {} answers {}
    {} follows_start rfl (hlen.trans_lt hok.size) hwilling (by
      simp only [List.length_nil]
      omega)
  obtain ⟨-, hfollows, hsuffix⟩ := adds_follow follows_start rfl (hlen.trans_lt hok.size) hadds
    (.inl hwilling)
  obtain ⟨d, rest, hclose⟩ := Writer.CompoundFile.finish_serves hfollows
    (addAll_finished (addsBefore calls) rfl) (finish_container (addsBefore calls)).1 hok.size
    (fun m hm => hwilling m (hsuffix.subset hm)) (by
      rw [containerOf] at hgrants hlen
      simp only [List.length_nil] at hleft
      omega)
  refine ⟨first ++ .ok () :: (afterFinish calls).map Call.misuse, d, rest, ?_⟩
  have hlast : runCalls env spans {} (.finish :: afterFinish calls) left mid =
      some (.ok () :: (afterFinish calls).map Call.misuse, d, rest) := by
    rw [runCalls, Call.run, hclose]
    simp only [runCalls_finished (Writer.CompoundFile.finished_finish hclose)]
    rfl
  have hjoin := runCalls_join hadds hlast
  rwa [← calls_eq hfinish] at hjoin

/-- **A session on local disk.**  The calls of a session go on after one that failed, and
those behind the first `finish` are refused.  If the system failed nothing, or every call up
to that `finish` succeeded, the file is the container of the adds before it, which opens
with the keys of those that succeeded and is read as it is; with a system that failed
nothing each call returned what it returns in memory.  Up to and including the first call
that fails, the file is a prefix of that container.  A system that fails nothing and has
answers for the container's bytes lets the session end. -/
theorem localSession_sound (spans : AddCall → Spans) (sync : SyncAnswers)
    (hfinish : calls.any Call.isFinish = true)
    (hok : SessionOk (added env (addsBefore calls)) (containerOf env (addsBefore calls))) :
    (∀ answers statuses d rest,
      runCalls env spans sync calls answers {} = some (statuses, d, rest) →
        ∃ first, statuses = first ++ (afterFinish calls).map Call.misuse ∧
          first.length = (addsBefore calls).length + 1 ∧
          (Willing answers ∧ sync = {} →
            first = (addAll env {} (addsBefore calls)).1 ++ [.ok ()]) ∧
          ((Willing answers ∧ sync = {}) ∨ (∀ s ∈ first, s = .ok ()) →
            OnDisk env (addsBefore calls) d.file.disk)) ∧
      (∀ early call late, calls = early ++ call :: late → ∀ answers statuses status d rest,
        runCalls env spans sync (early ++ [call]) answers {} =
            some (statuses ++ [status], d, rest) →
          (∀ s ∈ statuses, s = .ok ()) → d.file.disk <+: containerOf env (addsBefore calls)) ∧
      ∀ answers, Willing answers → (containerOf env (addsBefore calls)).length ≤ grants answers →
        ∃ statuses d rest, runCalls env spans {} calls answers {} = some (statuses, d, rest) := by
  refine ⟨fun answers statuses d rest h => ?_, fun early call late hcalls answers statuses status d
    rest h hall => calls_prefix hcalls hok h hall, fun answers hwilling hgrants =>
      session_served hfinish hok hwilling hgrants⟩
  rw [calls_eq hfinish] at h
  obtain ⟨first, hstatuses, hcount, hclosed⟩ := session_finished hok h
  refine ⟨first, hstatuses, hcount, fun hclean => (hclosed (.inl hclean)).1, fun hclean => ?_⟩
  rw [(hclosed hclean).2]
  exact onDisk_container hok

/-- Two indexes, and two calls on the finished writer. -/
def lateCalls : List Call := twoCalls.map .add ++ [.finish, .add (oneCall [98]), .finish]

/-- The regions in two spans each. -/
def twoSpans : Spans where
  region bs := [bs.take 4, bs.drop 4]
  dict bs := [bs.take 4, bs.drop 4]
  region_flatten := by simp
  dict_flatten := by simp

/-- A system that writes byte by byte. -/
def byteByByte (n : Nat) : List Answer := List.replicate n (.moved 1)

theorem willing_byteByByte (n : Nat) : Willing (byteByByte n) := fun message hmem => by
  cases List.eq_of_mem_replicate hmem

theorem grants_byteByByte (n : Nat) : grants (byteByByte n) = n := by
  induction n with
  | zero => rfl
  | succ n ih => rw [byteByByte, List.replicate_succ, grants, ← byteByByte, ih]

theorem localSession_sound_lateCalls :
    ∃ d rest, runCalls storeEnv (fun _ => twoSpans) {} lateCalls
        (byteByByte (containerOf storeEnv twoCalls).length) {} =
          some ((addAll storeEnv {} twoCalls).1 ++ [.ok ()] ++
            [.error (.internal "compound: add after finish"),
              .error (.internal "compound: finish called twice")], d, rest) ∧
        OnDisk storeEnv twoCalls d.file.disk := by
  obtain ⟨hruns, -, hserved⟩ := @localSession_sound storeEnv lateCalls (fun _ => twoSpans) {} rfl
    (sessionOk_added sessionOk_twoCalls)
  have hwilling := willing_byteByByte (containerOf storeEnv twoCalls).length
  obtain ⟨statuses, d, rest, hrun⟩ := hserved _ hwilling (grants_byteByByte _).ge
  obtain ⟨first, rfl, -, hstatuses, hdisk⟩ := hruns _ _ _ _ hrun
  rw [hstatuses ⟨hwilling, rfl⟩] at hrun
  exact ⟨d, rest, hrun, hdisk (.inl ⟨hwilling, rfl⟩)⟩

end Snii.Reader
