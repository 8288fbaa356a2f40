import Snii.Writer.RunRecords

/-!
# Runs of arbitrary bytes

What a `RunReader` does on a file nobody vouches for.  `Follows p q` says that a
windowed read `p` does what the parser `q` does to the bytes still to come: the same
value, or a failure of its own where `q` fails.  `runFile n bs` is what the bytes `bs`
hold as a run: its records up to the first defect.
-/

namespace Snii.Writer.SpillRunCodec

open Snii.Lib.ByteReader Snii.Common Snii.Encoding.Varint

/-! ## Varints split anywhere -/

/-- What a decoder takes is a prefix, and more bytes behind it change nothing. -/
theorem decodeVarintLoop_append {shift acc v : Nat} {bs rest : Bytes}
    (h : decodeVarintLoop shift acc bs = .ok (v, rest)) :
    (∃ pre, pre ≠ [] ∧ bs = pre ++ rest) ∧
      ∀ more, decodeVarintLoop shift acc (bs ++ more) = .ok (v, rest ++ more) := by
  induction bs generalizing shift acc with
  | nil => cases h
  | cons b bs ih =>
      rw [decodeVarintLoop] at h
      simp only [List.cons_append, decodeVarintLoop]
      split at h
      · rename_i hlast
        cases h
        refine ⟨⟨[b], by simp, rfl⟩, ?_⟩
        intro more
        rw [if_pos hlast]
      · rename_i hlast
        split at h
        · cases h
        · rename_i hshift
          obtain ⟨⟨pre, -, hpre⟩, hmore⟩ := ih h
          refine ⟨⟨b :: pre, by simp, by rw [hpre]; rfl⟩, ?_⟩
          intro more
          rw [if_neg hlast, if_neg hshift]
          exact hmore more

/-! ## Windowed reads -/

@[simp] theorem corruption_reported (message : String) : (Status.corruption message).Reported := by
  simp [Status.Reported]

/-- The same value with the same bytes to come, or two failures. -/
inductive Outcome {α : Type} : EStateM.Result Status RunInput α → Result (α × Bytes) → Prop
  | ok {a : α} {i : RunInput} {rest : Bytes} (h : InputAt i rest) :
      Outcome (.ok a i) (.ok (a, rest))
  | error {s e : Status} {i : RunInput} (h : s.Reported) : Outcome (.error s i) (.error e)

/-- The windowed read returns what the parser returns, and fails where it fails. -/
def Follows {α : Type} (p : RunM RunInput α) (q : Source α) : Prop :=
  ∀ i bs, InputAt i bs → Outcome (p i) (q bs)

/-- The buffered reader reads a varint as the plain one does. -/
theorem readVarint_follows : Follows RunInput.readVarint (decodeVarint64 : Source Nat) := by
  have hloop : ∀ (fuel : Nat) (i : RunInput) (bs : Bytes), InputAt i bs →
      i.file.length + (if i.eof then 0 else 1) < fuel →
      Outcome (RunInput.readVarintLoop fuel i) (decodeVarint64 bs) := by
    intro fuel
    induction fuel with
    | zero =>
        intro i bs _ hfuel
        omega
    | succ fuel ih =>
        intro i bs h hfuel
        rw [RunInput.readVarintLoop]
        cases hdec : decodeVarint64 (i.window.drop i.pos) with
        | ok r =>
            obtain ⟨v, rest⟩ := r
            obtain ⟨⟨pre, -, hpre⟩, hmore⟩ := decodeVarintLoop_append hdec
            have hall := hmore i.file
            rw [h.unread] at hall
            rw [decodeVarint64, hall]
            have hlen := congrArg List.length hpre
            rw [List.length_drop, List.length_append] at hlen
            have hpos : i.window.length - rest.length = i.pos + pre.length := by
              have := h.pos_le
              omega
            simp only [hpos]
            apply Outcome.ok
            apply RunInput.consume_at
            · rw [← List.append_assoc, ← hpre, h.unread]
              exact h
            · rw [RunInput.available]
              omega
        | error e =>
            by_cases heof : i.eof = true
            · have hbs : bs = i.window.drop i.pos := by
                rw [← h.unread, h.eof_file heof, List.append_nil]
              rw [hbs, hdec]
              simp only [heof, if_true]
              exact Outcome.error (by simp)
            · simp only [heof]
              have h1 := RunInput.available_eq h
              have h2 := RunInput.available_eq (RunInput.fill_at h)
              by_cases hsame : i.fill.available = i.available ∧ i.fill.eof = true
              · have hfile : i.file = [] := by
                  have := (RunInput.fill_at h).eof_file hsame.2
                  rw [this, List.length_nil] at h2
                  apply List.length_eq_zero_iff.mp
                  omega
                have hbs : bs = i.window.drop i.pos := by
                  rw [← h.unread, hfile, List.append_nil]
                rw [hbs, hdec]
                simp only [Bool.false_eq_true, if_false, if_pos hsame]
                exact Outcome.error (by simp)
              · simp only [Bool.false_eq_true, if_false, if_neg hsame]
                apply ih _ _ (RunInput.fill_at h)
                by_cases hfile : i.file = []
                · -- the fill has seen the end of the file
                  have heof' : i.fill.eof = true := by
                    simp [RunInput.fill, heof, RunInput.readCount, hfile]
                  have hfill : i.fill.file = [] := (RunInput.fill_at h).eof_file heof'
                  rw [hfile, List.length_nil] at h1
                  rw [hfill, List.length_nil] at h2
                  exact absurd ⟨by omega, heof'⟩ hsame
                · have hless := RunInput.fill_length h hfile
                  rw [if_neg heof] at hfuel
                  split <;> omega
  intro i bs h
  apply hloop _ i bs h
  split <;> omega

/-- A block of raw words. -/
def rawWords (n : Nat) : Source (List Nat) := fun bs =>
  if n * 4 ≤ bs.length then .ok (RunInput.wordsOf n (bs.take (n * 4)), bs.drop (n * 4))
  else .error (.corruption "run truncated")

/-- A pull beyond the end is reported. -/
theorem pullLoop_short (fuel : Nat) {i : RunInput} {bs acc : Bytes} {need : Nat}
    (hfuel : need ≤ fuel) (h : InputAt i bs) (hneed : bs.length < need) :
    ∃ s i', RunInput.pullLoop fuel need acc i = .error s i' ∧ s.Reported := by
  induction fuel generalizing i bs acc need with
  | zero => omega
  | succ fuel ih =>
      rw [RunInput.pullLoop, if_neg (by omega)]
      generalize hi1 : (if i.available = 0 then i.fill else i) = i1
      have h1 : InputAt i1 bs := by
        rw [← hi1]
        split
        · exact RunInput.fill_at h
        · exact h
      simp only
      have hav := RunInput.available_eq h1
      split
      · exact ⟨_, _, rfl, by simp⟩
      · rename_i hgo
        by_cases hzero : i1.available = 0
        · -- only an empty window at the end of the file stays empty after a fill
          have hi0 : i.available = 0 := by
            by_contra hne
            rw [if_neg hne] at hi1
            rw [← hi1] at hzero
            exact hne hzero
          rw [if_pos hi0] at hi1
          have heof : i1.eof = true := by
            by_cases hfile : i.file = []
            · rw [← hi1]
              apply RunInput.fill_eof h
              have := RunInput.available_eq h
              rw [hi0, hfile, List.length_nil] at this
              exact List.length_eq_zero_iff.mp this.symm
            · have hless := RunInput.fill_length h hfile
              have ha := RunInput.available_eq h
              rw [← hi1] at hzero hav
              omega
          exact absurd ⟨hzero, heof⟩ hgo
        · have hsplit : bs = bs.take (min need i1.available) ++ bs.drop (min need i1.available) :=
            (List.take_append_drop _ _).symm
          have hlen : (bs.take (min need i1.available)).length = min need i1.available := by
            rw [List.length_take]
            omega
          have hnext := @RunInput.consume_at i1 (bs.take (min need i1.available))
            (bs.drop (min need i1.available)) (hsplit ▸ h1) (by omega)
          rw [hlen] at hnext
          apply ih _ hnext
          · rw [List.length_drop]
            omega
          · omega

/-- The buffered reader reads words as the plain one does. -/
theorem pullRawU32_follows (n : Nat) : Follows (RunInput.pullRawU32 n) (rawWords n) := by
  intro i bs h
  rw [rawWords]
  by_cases hn : n * 4 ≤ bs.length
  · rw [if_pos hn]
    have hlen : (bs.take (n * 4)).length = n * 4 := by
      rw [List.length_take]
      omega
    obtain ⟨i', heq, hi'⟩ := @RunInput.pullLoop_at (n * 4) i (bs.take (n * 4)) (bs.drop (n * 4)) []
      (by omega) (by rw [List.take_append_drop]; exact h)
    rw [hlen, List.nil_append] at heq
    rw [RunInput.pullRawU32, bind_ok heq]
    exact Outcome.ok hi'
  · rw [if_neg hn]
    obtain ⟨s, i', heq, hs⟩ := @pullLoop_short (n * 4) i bs [] (n * 4) (Nat.le_refl _) h (by omega)
    rw [RunInput.pullRawU32, bind_error heq]
    exact Outcome.error hs

/-- The check against the file's size refuses only blocks that are not there. -/
theorem readRawU32_follows (n : Nat) : Follows (RunInput.readRawU32 n) (rawWords n) := by
  intro i bs h
  have hpull := pullRawU32_follows n i bs h
  have hsize := h.size
  rw [RunInput.readRawU32]
  split
  · rw [rawWords, if_neg (by omega)]
    exact Outcome.error (by simp)
  · exact hpull

/-! ## Records -/

/-- The fields of a record in front of its positions. -/
structure RawRecord where
  termId : Nat
  docids : List Nat
  freqs : List Nat
  posCount : Nat
deriving DecidableEq

def rawTermId : Source Nat := fun bs => do
  let (termId, rest) ← decodeVarint64 bs
  if termId > 4294967295 then .error (.corruption "run term_id exceeds uint32")
  else .ok (termId, rest)

def rawRecord : Source RawRecord := fun bs => do
  let (termId, bs) ← rawTermId bs
  let (nDocs, bs) ← decodeVarint64 bs
  let (docids, bs) ← rawWords nDocs bs
  let (freqs, bs) ← rawWords nDocs bs
  let (posCount, bs) ← decodeVarint64 bs
  .ok ({ termId := termId, docids := docids, freqs := freqs, posCount := posCount }, bs)

/-- A record of a run file; `complete` says that its positions are all in the file. -/
structure FileRecord extends RawRecord where
  complete : Bool
deriving DecidableEq

/-- A run file from some record on: its records up to the first defect, and whether there
is no defect. -/
structure RunFile where
  records : List FileRecord
  clean : Bool
deriving DecidableEq

namespace RunFile

/-- A file at its end. -/
def ended : RunFile := ⟨[], true⟩

/-- A file where no record of the vocabulary can be read. -/
def broken : RunFile := ⟨[], false⟩

/-- A record and the rest of its file; nothing is read behind positions cut short. -/
def cons (x : RawRecord) (complete : Bool) (later : RunFile) : RunFile :=
  if complete then ⟨⟨x, true⟩ :: later.records, later.clean⟩ else ⟨[⟨x, false⟩], false⟩

/-- The file behind its first record. -/
def tail (f : RunFile) : RunFile := { f with records := f.records.tail }

end RunFile

/-- The records of a run, the ids below `n`; a round per byte is enough. -/
def readRunFile (n : Nat) : Nat → Bytes → RunFile
  | 0, _ => RunFile.ended
  | fuel + 1, bs =>
      if bs = [] then RunFile.ended
      else
        match rawRecord bs with
        | .error _ => RunFile.broken
        | .ok (x, rest) =>
            if x.termId < n then
              RunFile.cons x (decide (x.posCount * 4 ≤ rest.length))
                (readRunFile n fuel (rest.drop (x.posCount * 4)))
            else RunFile.broken

/-- What the bytes of a run file hold. -/
def runFile (n : Nat) (bs : Bytes) : RunFile := readRunFile n bs.length bs

theorem length_wordsOf (n : Nat) (bs : Bytes) : (RunInput.wordsOf n bs).length = n := by
  induction n generalizing bs with
  | zero => rfl
  | succ n ih => rw [RunInput.wordsOf, List.length_cons, ih]

/-- Words that are read are as many as asked for. -/
theorem rawWords_ok {n : Nat} {bs rest : Bytes} {ws : List Nat}
    (h : rawWords n bs = .ok (ws, rest)) : ws.length = n ∧ n * 4 + rest.length = bs.length := by
  rw [rawWords] at h
  split at h
  · cases h
    rw [length_wordsOf, List.length_drop]
    omega
  · cases h

/-- Words are missing only where the bytes are. -/
theorem rawWords_error {n : Nat} {bs : Bytes} {e : Status} (h : rawWords n bs = .error e) :
    ¬ n * 4 ≤ bs.length := by
  intro hle
  rw [rawWords, if_pos hle] at h
  cases h

theorem decodeVarint64_shorter {bs rest : Bytes} {v : Nat}
    (h : decodeVarint64 bs = .ok (v, rest)) : rest.length < bs.length := by
  obtain ⟨⟨pre, hne, hpre⟩, -⟩ := decodeVarintLoop_append h
  have hpos := List.length_pos_iff.mpr hne
  rw [hpre, List.length_append]
  omega

/-- A term id that is accepted has 32 bits. -/
theorem rawTermId_ok {bs rest : Bytes} {id : Nat} (h : rawTermId bs = .ok (id, rest)) :
    id < 2 ^ 32 ∧ rest.length < bs.length := by
  obtain ⟨⟨v, tail⟩, hdec, h⟩ := bind_eq_ok h
  simp only at h
  split at h
  · cases h
  · cases h
    exact ⟨by omega, decodeVarint64_shorter hdec⟩

/-- A record has as many freqs as docids and takes bytes. -/
theorem rawRecord_ok {bs rest : Bytes} {x : RawRecord} (h : rawRecord bs = .ok (x, rest)) :
    x.docids.length = x.freqs.length ∧ rest.length < bs.length := by
  obtain ⟨⟨id, bs1⟩, hid, h⟩ := bind_eq_ok h
  obtain ⟨⟨nDocs, bs2⟩, hn, h⟩ := bind_eq_ok h
  obtain ⟨⟨docids, bs3⟩, hd, h⟩ := bind_eq_ok h
  obtain ⟨⟨freqs, bs4⟩, hf, h⟩ := bind_eq_ok h
  obtain ⟨⟨nPos, bs5⟩, hp, h⟩ := bind_eq_ok h
  have h1 := (rawTermId_ok hid).2
  have h2 := decodeVarint64_shorter hn
  have h3 := rawWords_ok hd
  have h4 := rawWords_ok hf
  have h5 := decodeVarint64_shorter hp
  cases h
  simp only at h2 h3 h4 h5 ⊢
  omega

/-- The fuel does not matter once it covers the bytes. -/
theorem readRunFile_fuel {n fuel fuel' : Nat} {bs : Bytes} (h : bs.length ≤ fuel)
    (h' : bs.length ≤ fuel') : readRunFile n fuel bs = readRunFile n fuel' bs := by
  induction fuel generalizing fuel' bs with
  | zero =>
      obtain rfl := List.eq_nil_of_length_eq_zero (Nat.le_zero.mp h)
      cases fuel' <;> rfl
  | succ fuel ih =>
      by_cases hnil : bs = []
      · rw [hnil]
        cases fuel' <;> rfl
      · obtain ⟨fuel', rfl⟩ : ∃ f, fuel' = f + 1 :=
          ⟨fuel' - 1, by have := List.length_pos_iff.mpr hnil; omega⟩
        rw [readRunFile, readRunFile, if_neg hnil, if_neg hnil]
        cases hparse : rawRecord bs with
        | error e => rfl
        | ok r =>
            obtain ⟨x, rest⟩ := r
            have hless := (rawRecord_ok hparse).2
            have hdrop : (rest.drop (x.posCount * 4)).length ≤ rest.length := by simp
            simp only [@ih fuel' (rest.drop (x.posCount * 4)) (by omega) (by omega)]

theorem runFile_nil (n : Nat) : runFile n [] = RunFile.ended := rfl

/-- A record that cannot be read breaks the file. -/
theorem runFile_error {n : Nat} {bs : Bytes} {e : Status} (hne : bs ≠ [])
    (h : rawRecord bs = .error e) : runFile n bs = RunFile.broken := by
  obtain ⟨b, bs, rfl⟩ := List.exists_cons_of_ne_nil hne
  rw [runFile, List.length_cons, readRunFile, if_neg hne, h]

/-- A record that can be read is followed by the rest of the file. -/
theorem runFile_ok {n : Nat} {bs rest : Bytes} {x : RawRecord} (h : rawRecord bs = .ok (x, rest)) :
    runFile n bs = if x.termId < n then
      RunFile.cons x (decide (x.posCount * 4 ≤ rest.length)) (runFile n (rest.drop (x.posCount * 4)))
      else RunFile.broken := by
  have hless := (rawRecord_ok h).2
  obtain ⟨b, bs, rfl⟩ := List.exists_cons_of_ne_nil (l := bs) (by rintro rfl; cases hless)
  have hdrop : (rest.drop (x.posCount * 4)).length ≤ rest.length := by simp
  rw [List.length_cons] at hless
  rw [runFile, List.length_cons, readRunFile, if_neg (List.cons_ne_nil _ _), h]
  simp only
  rw [runFile, readRunFile_fuel (by omega) (Nat.le_refl _)]

/-- A run has at most one record a byte. -/
theorem length_records_le (n : Nat) (bs : Bytes) : (runFile n bs).records.length ≤ bs.length := by
  have hloop : ∀ (fuel : Nat) (bs : Bytes), bs.length ≤ fuel →
      (readRunFile n fuel bs).records.length ≤ bs.length := by
    intro fuel
    induction fuel with
    | zero =>
        intro bs _
        exact Nat.zero_le _
    | succ fuel ih =>
        intro bs hfuel
        rw [readRunFile]
        split
        · exact Nat.zero_le _
        · split
          · exact Nat.zero_le _
          · rename_i x rest hparse
            have hless := (rawRecord_ok hparse).2
            have hlater := ih (rest.drop (x.posCount * 4)) (by rw [List.length_drop]; omega)
            rw [List.length_drop] at hlater
            split
            · rw [RunFile.cons]
              split
              · rw [List.length_cons]
                omega
              · simp only [List.length_singleton]
                omega
            · exact Nat.zero_le _
  exact hloop bs.length bs (Nat.le_refl _)

/-! ## The record reader -/

namespace RunReader

/-- The reader with a record's fields loaded. -/
def load (r : RunReader) (i : RunInput) (x : RawRecord) : RunReader :=
  { r with input := i, currentId := x.termId, docids := x.docids, freqs := x.freqs
           positionsFlat := [], posCount := x.posCount, posRemaining := x.posCount }

/-- A windowed read through the reader. -/
theorem onInput_run {α : Type} {p : RunM RunInput α} {q : Source α} (hp : Follows p q)
    {r : RunReader} {bs : Bytes} (h : InputAt r.input bs) :
    (∃ a rest i, q bs = .ok (a, rest) ∧ onInput p r = .ok a { r with input := i } ∧
        InputAt i rest) ∨
      ∃ e s i, q bs = .error e ∧ onInput p r = .error s { r with input := i } ∧
        s.Reported := by
  have hout := hp r.input bs h
  cases hpi : p r.input with
  | ok a i =>
      rw [hpi] at hout
      cases hq : q bs with
      | ok x =>
          rw [hq] at hout
          cases hout with
          | ok hi => exact .inl ⟨_, _, i, rfl, onInput_ok hpi, hi⟩
      | error e =>
          rw [hq] at hout
          cases hout
  | error s i =>
      rw [hpi] at hout
      cases hq : q bs with
      | ok x =>
          rw [hq] at hout
          cases hout
      | error e =>
          rw [hq] at hout
          cases hout with
          | error hs => exact .inr ⟨_, s, i, rfl, by simp only [onInput, hpi], hs⟩

/-- The reader's term id is that of the bytes, or its error is. -/
theorem readTermId_run {r : RunReader} {bs : Bytes} (h : InputAt r.input bs) :
    (∃ id rest i, rawTermId bs = .ok (id, rest) ∧
        readTermId r = .ok () { r with input := i, currentId := id } ∧ InputAt i rest) ∨
      ∃ e s r', rawTermId bs = .error e ∧ readTermId r = .error s r' ∧ s.Reported := by
  rcases onInput_run readVarint_follows h with ⟨v, rest, i, hq, hp, hi⟩ | ⟨e, s, i, hq, hp, hs⟩
  · rw [rawTermId, hq, ok_bind, readTermId, hp]
    simp only
    by_cases hbig : v > 4294967295
    · rw [if_pos hbig, if_pos hbig]
      exact .inr ⟨_, _, _, rfl, rfl, by simp⟩
    · rw [if_neg hbig, if_neg hbig]
      exact .inl ⟨v, rest, i, rfl, rfl, hi⟩
  · rw [rawTermId, hq, readTermId, hp]
    exact .inr ⟨_, _, _, rfl, rfl, hs⟩

/-- **The reader's record** is that of the bytes, or it reports an error. -/
theorem readRecord_run {r : RunReader} {bs : Bytes} (h : InputAt r.input bs) :
    (∃ x rest i, rawRecord bs = .ok (x, rest) ∧ readRecord r = .ok () (r.load i x) ∧
        InputAt i rest) ∨
      ∃ e s r', rawRecord bs = .error e ∧ readRecord r = .error s r' ∧ s.Reported := by
  rw [rawRecord, readRecord]
  rcases readTermId_run h with ⟨id, bs1, i1, hq1, hp1, h1⟩ | ⟨e, s, r', hq, hp, hs⟩
  · rw [hq1, ok_bind, bind_ok hp1]
    simp only
    rcases @onInput_run _ _ _ readVarint_follows { r with input := i1, currentId := id } bs1 h1 with
      ⟨n, bs2, i2, hq2, hp2, h2⟩ | ⟨e, s, i, hq, hp, hs⟩
    · rw [hq2, ok_bind, bind_ok hp2]
      simp only
      rcases @onInput_run _ _ _ (readRawU32_follows n) { r with input := i2, currentId := id }
        bs2 h2 with ⟨docids, bs3, i3, hq3, hp3, h3⟩ | ⟨e, s, i, hq, hp, hs⟩
      · rw [hq3, ok_bind, bind_ok hp3, bind_modify]
        simp only
        rcases @onInput_run _ _ _ (readRawU32_follows n)
          { r with input := i3, currentId := id, docids := docids } bs3 h3 with
          ⟨freqs, bs4, i4, hq4, hp4, h4⟩ | ⟨e, s, i, hq, hp, hs⟩
        · rw [hq4, ok_bind, bind_ok hp4, bind_modify]
          simp only
          rcases @onInput_run _ _ _ readVarint_follows
            { r with input := i4, currentId := id, docids := docids, freqs := freqs } bs4 h4 with
            ⟨nPos, bs5, i5, hq5, hp5, h5⟩ | ⟨e, s, i, hq, hp, hs⟩
          · rw [hq5, ok_bind, bind_ok hp5]
            exact .inl ⟨_, _, i5, rfl, rfl, h5⟩
          · rw [hq, bind_error hp]
            exact .inr ⟨_, _, _, rfl, rfl, hs⟩
        · rw [hq, bind_error hp]
          exact .inr ⟨_, _, _, rfl, rfl, hs⟩
      · rw [hq, bind_error hp]
        exact .inr ⟨_, _, _, rfl, rfl, hs⟩
    · rw [hq, bind_error hp]
      exact .inr ⟨_, _, _, rfl, rfl, hs⟩
  · rw [hq, bind_error hp]
    exact .inr ⟨_, _, _, rfl, rfl, hs⟩

end RunReader

/-- The bytes a window has still to return. -/
def RunInput.unread (i : RunInput) : Bytes := i.window.drop i.pos ++ i.file

theorem InputAt.self {i : RunInput} {bs : Bytes} (h : InputAt i bs) : InputAt i i.unread := by
  rw [RunInput.unread, h.unread]
  exact h

theorem InputAt.unread_eq {i : RunInput} {bs : Bytes} (h : InputAt i bs) : i.unread = bs :=
  h.unread

/-- The reader's position block is all there. -/
def RunReader.Complete (r : RunReader) : Prop := r.posRemaining * 4 ≤ r.input.unread.length

instance (r : RunReader) : Decidable r.Complete :=
  inferInstanceAs (Decidable (r.posRemaining * 4 ≤ r.input.unread.length))

/-- The record the reader is parked at. -/
def RunReader.record (r : RunReader) : RawRecord :=
  { termId := r.currentId, docids := r.docids, freqs := r.freqs, posCount := r.posCount }

/-- The same with what the file has of its positions. -/
def RunReader.fileRecord (r : RunReader) : FileRecord := ⟨r.record, decide r.Complete⟩

/-- The file behind the parked record. -/
def RunReader.later (n : Nat) (r : RunReader) : RunFile :=
  runFile n (r.input.unread.drop (r.posRemaining * 4))

/-- The file from the parked record on. -/
def RunReader.remaining (n : Nat) (r : RunReader) : RunFile :=
  RunFile.cons r.record (decide r.Complete) (r.later n)

/-- The reader has taken some of its record's positions and nothing else. -/
structure Moved (r r' : RunReader) : Prop where
  le : r'.posRemaining ≤ r.posRemaining
  fits : (r.posRemaining - r'.posRemaining) * 4 ≤ r.input.unread.length
  input : InputAt r'.input (r.input.unread.drop ((r.posRemaining - r'.posRemaining) * 4))
  hasPositions : r'.hasPositions = r.hasPositions
  exhausted : r'.exhausted = r.exhausted
  currentId : r'.currentId = r.currentId
  docids : r'.docids = r.docids
  freqs : r'.freqs = r.freqs
  posCount : r'.posCount = r.posCount

theorem Moved.refl {r : RunReader} (h : InputAt r.input r.input.unread) : Moved r r where
  le := Nat.le_refl _
  fits := by simp
  input := by simpa using h
  hasPositions := rfl
  exhausted := rfl
  currentId := rfl
  docids := rfl
  freqs := rfl
  posCount := rfl

/-- Moves in a row are a move. -/
theorem Moved.trans {r r' r'' : RunReader} (h : Moved r r') (h' : Moved r' r'') : Moved r r'' := by
  have hlen := congrArg List.length h.input.unread_eq
  rw [List.length_drop] at hlen
  have h1 := h.le
  have h2 := h'.le
  have h3 := h.fits
  have h4 := h'.fits
  have hin := h'.input
  rw [h.input.unread_eq, List.drop_drop] at hin
  exact {
    le := by omega
    fits := by omega
    input := by
      rw [show (r.posRemaining - r''.posRemaining) * 4 = (r.posRemaining - r'.posRemaining) * 4 +
        (r'.posRemaining - r''.posRemaining) * 4 by omega]
      exact hin
    hasPositions := h'.hasPositions.trans h.hasPositions
    exhausted := h'.exhausted.trans h.exhausted
    currentId := h'.currentId.trans h.currentId
    docids := h'.docids.trans h.docids
    freqs := h'.freqs.trans h.freqs
    posCount := h'.posCount.trans h.posCount }

/-- A move does not mend a record. -/
theorem Moved.complete_iff {r r' : RunReader} (h : Moved r r') : r'.Complete ↔ r.Complete := by
  have hlen := congrArg List.length h.input.unread_eq
  rw [List.length_drop] at hlen
  have h1 := h.le
  have h2 := h.fits
  unfold RunReader.Complete
  omega

/-- A move stays at its record. -/
theorem Moved.record_eq {r r' : RunReader} (h : Moved r r') : r'.record = r.record := by
  rw [RunReader.record, RunReader.record, h.currentId, h.docids, h.freqs, h.posCount]

/-- What remains is the same after a move. -/
theorem Moved.remaining_eq {r r' : RunReader} (h : Moved r r') (n : Nat) :
    r'.remaining n = r.remaining n := by
  have h1 := h.le
  have hdrop : r'.input.unread.drop (r'.posRemaining * 4) =
      r.input.unread.drop (r.posRemaining * 4) := by
    rw [h.input.unread_eq, List.drop_drop]
    congr 1
    omega
  rw [RunReader.remaining, RunReader.remaining, RunReader.later, RunReader.later, hdrop,
    h.record_eq, decide_eq_decide.mpr h.complete_iff]

namespace RunReader

variable {r : RunReader}

/-- The positions of the record, or a failure because the block is cut short. -/
theorem materializePositions_run (h : InputAt r.input r.input.unread) :
    (r.Complete ∧ ∃ r', materializePositions r = .ok () r' ∧ Moved r r' ∧ r'.posRemaining = 0 ∧
        r'.positionsFlat.length = if r.hasPositions then r.posRemaining else 0) ∨
      (¬ r.Complete ∧ ∃ s r', materializePositions r = .error s r' ∧ s.Reported) := by
  unfold materializePositions
  by_cases hzero : r.posRemaining = 0
  · rw [if_pos hzero]
    left
    have hmoved := Moved.refl h
    refine ⟨by rw [Complete, hzero]; omega, _, rfl, ⟨hmoved.le, hmoved.fits, hmoved.input, rfl, rfl,
      rfl, rfl, rfl, rfl⟩, hzero, ?_⟩
    simp [hzero]
  · rw [if_neg hzero]
    rcases onInput_run (readRawU32_follows r.posRemaining) h with
      ⟨ws, rest, i, hq, hp, hi⟩ | ⟨e, s, i, hq, hp, hs⟩
    · left
      have hlen := rawWords_ok hq
      have hrest : rest = r.input.unread.drop (r.posRemaining * 4) := by
        rw [rawWords] at hq
        split at hq <;> cases hq
        rfl
      rw [hp]
      refine ⟨by rw [Complete]; omega, _, rfl, ⟨Nat.zero_le _, ?_, ?_, rfl, rfl, rfl, rfl, rfl, rfl⟩, rfl,
        ?_⟩
      · simp only [Nat.sub_zero]
        omega
      · rw [hrest] at hi
        exact hi
      · simp only
        split
        · exact hlen.1
        · rfl
    · right
      rw [hp]
      exact ⟨rawWords_error hq, _, _, rfl, hs⟩

/-- Some positions of the record, or a failure because the block is cut short. -/
theorem streamPositions_run {n : Nat} (h : InputAt r.input r.input.unread)
    (hn : n ≤ r.posRemaining) :
    (∃ block r', streamPositions n r = .ok block r' ∧ Moved r r' ∧ block.length = n ∧
        r'.posRemaining = r.posRemaining - n) ∨
      (¬ r.Complete ∧ ∃ s r', streamPositions n r = .error s r' ∧ s.Reported) := by
  unfold streamPositions
  by_cases hzero : n = 0
  · rw [if_pos hzero]
    exact .inl ⟨[], r, rfl, Moved.refl h, by simp [hzero], by omega⟩
  · rw [if_neg hzero, if_neg (by omega)]
    rcases onInput_run (pullRawU32_follows n) h with
      ⟨ws, rest, i, hq, hp, hi⟩ | ⟨e, s, i, hq, hp, hs⟩
    · left
      have hlen := rawWords_ok hq
      have hrest : rest = r.input.unread.drop (n * 4) := by
        rw [rawWords] at hq
        split at hq <;> cases hq
        rfl
      have hback : r.posRemaining - (r.posRemaining - n) = n := by omega
      rw [hp]
      refine ⟨_, _, rfl, ⟨Nat.sub_le _ _, ?_, ?_, rfl, rfl, rfl, rfl, rfl, rfl⟩, hlen.1, rfl⟩
      · simp only [hback]
        omega
      · simp only [hback]
        rw [← hrest]
        exact hi
    · right
      rw [hp]
      have hshort := rawWords_error hq
      refine ⟨?_, _, _, rfl, hs⟩
      intro hcomplete
      rw [Complete] at hcomplete
      omega

/-- Skipping ends behind the record, if the record is whole. -/
theorem skipRemainingPositions_run (h : InputAt r.input r.input.unread) :
    (r.Complete ∧ ∃ i, skipRemainingPositions r = .ok () { r with input := i, posRemaining := 0 } ∧
        InputAt i (r.input.unread.drop (r.posRemaining * 4))) ∨
      (¬ r.Complete ∧ ∃ s r', skipRemainingPositions r = .error s r' ∧ s.Reported) := by
  unfold skipRemainingPositions
  by_cases hzero : r.posRemaining = 0
  · rw [if_pos hzero]
    left
    refine ⟨by rw [Complete, hzero]; omega, r.input, by rw [← hzero], ?_⟩
    rw [hzero]
    exact h
  · rw [if_neg hzero]
    rcases onInput_run (readRawU32_follows r.posRemaining) h with
      ⟨ws, rest, i, hq, hp, hi⟩ | ⟨e, s, i, hq, hp, hs⟩
    · left
      rw [rawWords] at hq
      split at hq
      · rename_i hcomplete
        cases hq
        rw [hp]
        exact ⟨hcomplete, i, rfl, hi⟩
      · cases hq
    · right
      rw [hp]
      exact ⟨rawWords_error hq, _, _, rfl, hs⟩

/-- **`advance`** on any bytes: the run has ended, the next record is loaded, or there is
none to load. -/
theorem advance_run (h : InputAt r.input r.input.unread) (n : Nat) :
    (∃ i, advance r = .ok () { r with input := i, posRemaining := 0, exhausted := true } ∧
        InputAt i [] ∧ r.Complete ∧ r.later n = RunFile.ended) ∨
      (∃ x rest i, advance r = .ok () (r.load i x) ∧ InputAt i rest ∧
        x.docids.length = x.freqs.length ∧ r.Complete ∧
        r.later n = if x.termId < n then (r.load i x).remaining n else RunFile.broken) ∨
      ∃ s r', advance r = .error s r' ∧ s.Reported ∧
        (r.Complete → r.later n = RunFile.broken) := by
  rw [advance]
  rcases skipRemainingPositions_run h with ⟨hcomplete, i1, hskip, h1⟩ | ⟨hshort, s, r', hskip, hs⟩
  · rw [bind_ok hskip]
    obtain ⟨i2, hend, h2⟩ := @atEnd_at { r with input := i1, posRemaining := 0 } _ h1
    rw [bind_ok hend]
    by_cases hnil : r.input.unread.drop (r.posRemaining * 4) = []
    · left
      simp only [hnil, List.isEmpty_nil, if_true]
      rw [hnil] at h2
      refine ⟨i2, rfl, h2, hcomplete, ?_⟩
      rw [later, hnil, runFile_nil]
    · right
      have hfalse : (r.input.unread.drop (r.posRemaining * 4)).isEmpty = false := by
        simpa using hnil
      simp only [hfalse, Bool.false_eq_true, if_false]
      rcases @readRecord_run { r with input := i2, posRemaining := 0 } _ h2 with
        ⟨x, rest, i, hparse, hread, hi⟩ | ⟨e, s, r', hparse, hread, hs⟩
      · left
        rw [hread]
        refine ⟨x, rest, i, rfl, hi, (rawRecord_ok hparse).1, hcomplete, ?_⟩
        have hunread : (r.load i x).input.unread = rest := hi.unread_eq
        rw [later, runFile_ok hparse, remaining, later, hunread]
        simp only [Complete, hunread]
        rfl
      · right
        rw [hread]
        exact ⟨s, r', rfl, hs, fun _ => runFile_error hnil hparse⟩
  · right
    right
    rw [bind_error hskip]
    exact ⟨s, r', rfl, hs, fun hc => absurd hc hshort⟩

end RunReader

end Snii.Writer.SpillRunCodec
