import Snii.Io.S3ObjectStore
import Snii.Query.QueryRequests

/-!
# Queries over an object store

A query whose reads go to an object store: each call is answered under some answers of the
store, a batch in some order of its tasks.  In every run the query returns what it returns
over the bytes of the object, or fails with an error of the store; it always ends, and a
store that sends everything lets it return (`queries_stored`).
-/

namespace Snii.Query.StoreQueries

open Snii.Lib.ByteReader Snii.Lib.Requests Snii.Lib.Waves Snii.Common
open Snii.Io.BatchRangeFetcher (Range)
open Snii.Io.Requests hiding Over
open Snii.Io.S3ObjectStore
open Snii.Reader hiding lookup probeBsbf loadBlock prefixBlocks prefixTerms
open Snii.Query.QueryRequests
open Snii.Query.RegexpQuery (Regex)
open Snii.Query.ScoringQuery (DocSort)

/-- What a call may return where the store gives only answers of a kind. -/
def Answered (object : Bytes) (r : S3FileReader) (given : GetAnswer → Prop) :
    ∀ c, Result (Answer c) → Prop
  | .readAt off len, result => ∃ buf a, given a ∧ result = readAt object r a (⟨off, len⟩, buf)
  | .readBatch ranges, result => ∃ outs events, (∀ i a, Event.answer i a ∈ events → given a) ∧
      readBatch object r ranges outs events = some result

/-- The answers of a store that sends everything it is asked for. -/
def SendsAll (object : Bytes) (a : GetAnswer) : Prop := ∃ n, a = .sent n ∧ object.length ≤ n

variable {object : Bytes} {r : S3FileReader} {given : GetAnswer → Prop} {α : Type}

theorem answered_right (h : Over object r) (c : Io.Metered.Call) (a : Answer c)
    (hc : Answered object r given c (.ok a)) : fileAnswer object c = .ok a := by
  cases c with
  | readAt off len =>
      obtain ⟨buf, got, -, hread⟩ := hc
      exact readAt_ok h hread.symm
  | readBatch ranges =>
      obtain ⟨outs, events, -, hread⟩ := hc
      obtain ⟨answers, -, heach⟩ := readEach_of_readBatch hread
      exact readEach_ok h heach.symm

/-- Where the plain call succeeds, its ranges are inside the object. -/
theorem inside_of_readPlain {ranges : List Range} {got : List Bytes}
    (hok : readPlain object ranges = .ok got) : ∀ x ∈ ranges, x.stop ≤ object.length := by
  intro x hx
  obtain ⟨data, -, hread⟩ := Lib.Aligned.exists_right_of_mem (mapM_eq_ok hok) hx
  exact (Io.FileReader.readAt_eq_ok hread).2

theorem answered_wrong (h : Over object r) (c : Io.Metered.Call) (a : Answer c)
    (e : Status) (hplain : fileAnswer object c = .ok a)
    (hc : Answered object r given c (.error e)) : StoreFault r e := by
  cases c with
  | readAt off len =>
      obtain ⟨buf, got, -, hread⟩ := hc
      have hin := (Io.FileReader.readAt_eq_ok hplain).2
      have hfault := readAt_error h (List.mem_singleton_self (⟨off, len⟩ : Range)) hread.symm
      apply hfault.inside
      intro x hx
      rw [List.mem_singleton.mp hx]
      exact hin
  | readBatch ranges =>
      obtain ⟨outs, events, -, hread⟩ := hc
      obtain ⟨answers, -, heach⟩ := readEach_of_readBatch hread
      exact (readEach_error h heach.symm).inside (inside_of_readPlain hplain)

theorem answered_willing (h : Over object r) (c : Io.Metered.Call) (a : Answer c)
    (e : Status) (hplain : fileAnswer object c = .ok a)
    (hc : Answered object r (SendsAll object) c (.error e)) : False := by
  cases c with
  | readAt off len =>
      obtain ⟨buf, got, ⟨n, rfl, hn⟩, hread⟩ := hc
      have hin := (Io.FileReader.readAt_eq_ok hplain).2
      cases readAt_inside h (x := (⟨off, len⟩, buf)) hin (.sent n) with
      | inl hok =>
          rw [← hread] at hok
          cases hok
      | inr hfault => exact absurd hn (Nat.not_le_of_lt (hfault.2 n rfl))
  | readBatch ranges =>
      obtain ⟨outs, events, hgiven, hread⟩ := hc
      obtain ⟨answers, hans, -⟩ := readEach_of_readBatch hread
      have hall : SendsAll object (.sent object.length) := ⟨_, rfl, Nat.le_refl _⟩
      obtain ⟨answers', hans', hsent⟩ := hans.given hgiven hall
      have heach := readBatch_eq hans' hread
      rw [readEach_willing h (inside_of_readPlain hplain) hsent] at heach
      have hsame : readPlain object ranges = .ok a := hplain
      rw [hsame] at heach
      cases heach

theorem exists_answered (object : Bytes) (r : S3FileReader) (hgiven : ∃ a, given a)
    (c : Io.Metered.Call) : ∃ result, Answered object r given c result := by
  obtain ⟨a, ha⟩ := hgiven
  cases c with
  | readAt off len => exact ⟨_, [], a, ha, rfl⟩
  | readBatch ranges =>
      obtain ⟨events, hans, hread⟩ := exists_readBatch object r ranges [] fun _ => a
      refine ⟨_, [], events, fun i e hmem => ?_, hread⟩
      rw [hans i e hmem]
      exact ha

/-! ## Queries -/

/-- A query over the store against the query over the bytes of the object. -/
structure Stored (object : Bytes) (r : S3FileReader) (query : Reading α) (plain : Result α) :
    Prop where
  right : ∀ given x, query.Runs (Answered object r given) (.ok x) → plain = .ok x
  wrong : ∀ given x e, plain = .ok x → query.Runs (Answered object r given) (.error e) →
    StoreFault r e
  ends : ∀ given, (∃ a, given a) → ∃ result, query.Runs (Answered object r given) result
  willing : ∀ x result, plain = .ok x →
    query.Runs (Answered object r (SendsAll object)) result → result = .ok x

theorem stored_of_run (h : Over object r) {query : Reading α} {plain : Result α}
    (hplain : query.run (fileAnswer object) = plain) : Stored object r query plain := by
  have hfaulty : ∀ given,
      Program.Faulty (fileAnswer object) (Answered object r given) (StoreFault r) :=
    fun given => ⟨answered_right h, answered_wrong h⟩
  constructor
  case right =>
    intro given x hrun
    rw [← hplain]
    exact (hrun.sound (hfaulty given)).1 x rfl
  case wrong =>
    intro given x e hx hrun
    rw [← hplain] at hx
    exact (hrun.sound (hfaulty given)).2 x e hx rfl
  case ends => exact fun given hgiven => Program.exists_runs (exists_answered object r hgiven) query
  case willing =>
    intro x result hx hrun
    have hnever : Program.Faulty (fileAnswer object) (Answered object r (SendsAll object))
        fun _ => False := ⟨answered_right h, answered_willing h⟩
    obtain ⟨hright, hwrong⟩ := hrun.sound hnever
    rw [hplain] at hright hwrong
    cases result with
    | ok y =>
        rw [hx] at hright
        exact (hright y rfl).symm
    | error e => exact (hwrong x e hx rfl).elim

/-- **Queries over an object store.**  Whatever the store answers and in whatever order the
requests of a batch are made and answered, a query over an index in an object returns what
it returns over the bytes of the object, or an error that the store is to blame for; it
never stops short of a result, and over a store that sends everything it does not fail. -/
theorem queries_stored (srt : DocSort) (lib : Regex) (env : ReadEnv)
    {idx : LogicalIndexReader} (h : Over idx.file r) :
    (∀ term, Stored idx.file r (termQuery env idx term) (TermQuery.termQuery env idx term)) ∧
      (∀ terms, Stored idx.file r (booleanOr env idx terms)
        (DocidUnion.booleanOr env idx terms)) ∧
      (∀ pre, Stored idx.file r (prefixQuery env idx pre) (DocidUnion.prefixQuery env idx pre)) ∧
      (∀ pattern, Stored idx.file r (wildcardQuery env idx pattern)
        (WildcardQuery.wildcardQuery env idx pattern)) ∧
      (∀ pattern, Stored idx.file r (regexpQuery lib env idx pattern)
        (RegexpQuery.regexpQuery lib env idx pattern)) ∧
      (∀ terms, Stored idx.file r (booleanAnd srt env idx terms)
        (Conjunction.booleanAnd srt env idx terms)) ∧
      (∀ terms, Stored idx.file r (phraseQuery srt env idx terms)
        (PhraseQuery.phraseQuery srt env idx terms)) ∧
      ∀ terms, Stored idx.file r (phrasePrefixQuery srt env idx terms)
        (PhrasePrefixQuery.phrasePrefixQuery srt env idx terms) := by
  refine ⟨fun term => ?_, fun terms => ?_, fun pre => ?_, fun pattern => ?_, fun pattern => ?_,
    fun terms => ?_, fun terms => ?_, fun terms => ?_⟩
  · exact stored_of_run h (run_termQuery env idx term)
  · exact stored_of_run h (run_booleanOr env idx terms)
  · exact stored_of_run h (run_prefixQuery env idx pre)
  · exact stored_of_run h (run_emitExpandedDocidUnion env idx _ _)
  · exact stored_of_run h (run_regexpQuery lib env idx pattern)
  · exact stored_of_run h (run_booleanAnd srt env idx terms)
  · exact stored_of_run h (run_phraseQuery srt env idx terms)
  · exact stored_of_run h (run_phrasePrefixQuery srt env idx terms)

/-- A phrase over a written index that was put into a store. -/
theorem queries_stored_phrase : ∃ idx,
    OpensFrom Writer.LogicalIndexWriter.storeEnv storeReadEnv twoCalls
        positionalCall idx ∧
      Stored idx.file { objectKey := "index", size := idx.file.length }
        (phraseQuery DocSort.stable storeReadEnv idx [[97], [98], [97]])
        (PhraseQuery.phraseQuery DocSort.stable storeReadEnv idx [[97], [98], [97]]) := by
  obtain ⟨idx, hopens, -⟩ := positional_written.serves capsOk_twoCalls
  have hover : Over idx.file { objectKey := "index", size := idx.file.length } := ⟨rfl, rfl⟩
  obtain ⟨-, -, -, -, -, -, hphrase, -⟩ := queries_stored DocSort.stable
    ⟨fun _ => .ok fun _ => true⟩ storeReadEnv hover
  exact ⟨idx, hopens, hphrase [[97], [98], [97]]⟩

end Snii.Query.StoreQueries
