import Mathlib.Algebra.Order.BigOperators.Group.List
import Snii.Writer.SpimiInvariant

/-!
# Reading a run back

The window hides how the operating system splits a file: `InputAt i bs` says
that `bs` is what a reader has still to see, buffered or on disk, and every
operation of `RunInput` moves it past exactly what it returns.  A reader parked
at a record (`Parked`) has its id, docids and freqs in memory and its positions
ahead of it; however many of them are pulled, `advance` reaches the next record.
-/

namespace Snii.Writer.SpillRunCodec

open Snii.Lib.ByteReader Snii.Lib.Grouping Snii.Common Snii.Encoding.Varint
  Snii.Writer.SpimiTermBuffer

/-! ## The window -/

/-- The bytes the input has still to return, buffered or on disk. -/
structure InputAt (i : RunInput) (bs : Bytes) : Prop where
  pos_le : i.pos ≤ i.window.length
  eof_file : i.eof = true → i.file = []
  unread : i.window.drop i.pos ++ i.file = bs
  size : bs.length ≤ i.fileSize

namespace RunInput

/-- A read of an unfinished file returns something. -/
theorem readCount_pos {i : RunInput} (h : i.file ≠ []) : 0 < i.readCount := by
  have := List.length_pos_iff.mpr h
  simp only [readCount, kReadChunkBytes]
  omega

/-- A fill changes what is buffered, not what is to come. -/
theorem fill_at {i : RunInput} {bs : Bytes} (h : InputAt i bs) : InputAt i.fill bs := by
  by_cases heof : i.eof = true
  · have hfill : i.fill = { i with window := i.window.drop i.pos, pos := 0 } := by
      simp [fill, heof]
    rw [hfill]
    exact ⟨Nat.zero_le _, h.eof_file, by simpa using h.unread, h.size⟩
  · have hfill : i.fill = { i with
        window := i.window.drop i.pos ++ i.file.take i.readCount
        file := i.file.drop i.readCount, pos := 0, eof := i.readCount = 0 } := by
      simp [fill, heof, readCount]
    rw [hfill]
    refine ⟨Nat.zero_le _, ?_, ?_, h.size⟩
    · intro hz
      by_contra hne
      have hfile : i.file ≠ [] := fun hnil => hne (by simp [hnil])
      have := readCount_pos hfile
      simp at hz
      omega
    · rw [← h.unread]
      simp

/-- A fill brings at least one byte while any is on disk. -/
theorem fill_length {i : RunInput} {bs : Bytes} (h : InputAt i bs) (hfile : i.file ≠ []) :
    i.fill.file.length < i.file.length := by
  have heof : ¬ i.eof = true := fun heof => hfile (h.eof_file heof)
  have hpos := readCount_pos hfile
  have hlen := List.length_pos_iff.mpr hfile
  have hfill : i.fill.file = i.file.drop i.readCount := by
    simp [fill, heof, readCount]
  rw [hfill, List.length_drop]
  omega

/-- What is buffered and what is on disk make up the rest of the input. -/
theorem available_eq {i : RunInput} {bs : Bytes} (h : InputAt i bs) :
    i.available + i.file.length = bs.length := by
  rw [← h.unread, List.length_append, List.length_drop]
  rfl

/-- A fill with nothing left to read notices the end of the file. -/
theorem fill_eof {i : RunInput} {bs : Bytes} (h : InputAt i bs) (hbs : bs = []) :
    i.fill.eof = true := by
  have hfile : i.file = [] := by
    have := available_eq h
    rw [hbs, List.length_nil] at this
    exact List.length_eq_zero_iff.mp (by omega)
  by_cases heof : i.eof = true
  · simp [fill, heof]
  · simp [fill, heof, readCount, hfile]

/-- Consuming buffered bytes. -/
theorem consume_at {i : RunInput} {xs rest : Bytes} (h : InputAt i (xs ++ rest))
    (hlen : xs.length ≤ i.available) :
    InputAt { i with pos := i.pos + xs.length } rest := by
  have hav : i.pos + xs.length ≤ i.window.length := by
    simp only [available] at hlen
    have := h.pos_le
    omega
  have hdrop : i.window.drop i.pos = xs ++ i.window.drop (i.pos + xs.length) := by
    have htake : (i.window.drop i.pos).take xs.length = xs := by
      have hpre := congrArg (List.take xs.length) h.unread
      rw [List.take_append_of_le_length (by rw [List.length_drop]; exact hlen),
        List.take_left] at hpre
      exact hpre
    rw [← List.drop_drop]
    conv_lhs => rw [← List.take_append_drop xs.length (i.window.drop i.pos), htake]
  refine ⟨hav, h.eof_file, ?_, ?_⟩
  · have := h.unread
    rw [hdrop, List.append_assoc, List.append_cancel_left_eq] at this
    exact this
  · have := h.size
    rw [List.length_append] at this
    exact (Nat.le_add_left _ _).trans this

private theorem decode_prefix_error {xs enc rest : Bytes} {v : Nat} (henc : enc = encodeVarint64 v)
    (h : xs ++ rest = enc) (hrest : rest ≠ []) : ∃ s, decodeVarint64 xs = .error s := by
  refine decodeVarintLoop_continuation (fun b hb => ?_) 0 0
  refine encodeVarint64_continuation v b ?_
  rw [← henc, ← h, List.dropLast_append_of_ne_nil hrest]
  exact List.mem_append_left _ hb

/-- The window holds the value, or a part of it with the rest on disk. -/
private theorem decode_window {i : RunInput} {v : Nat} {rest : Bytes} (hv : v < 2 ^ 64)
    (h : InputAt i (encodeVarint64 v ++ rest)) :
    ((encodeVarint64 v).length ≤ i.available ∧
      decodeVarint64 (i.window.drop i.pos) =
        .ok (v, i.window.drop (i.pos + (encodeVarint64 v).length))) ∨
      ((∃ s, decodeVarint64 (i.window.drop i.pos) = .error s) ∧ i.file ≠ []) := by
  by_cases hlen : (encodeVarint64 v).length ≤ i.available
  · have htake : (i.window.drop i.pos).take (encodeVarint64 v).length = encodeVarint64 v := by
      have hpre := congrArg (List.take (encodeVarint64 v).length) h.unread
      rw [List.take_append_of_le_length (by rw [List.length_drop]; exact hlen),
        List.take_left] at hpre
      exact hpre
    have hsplit : i.window.drop i.pos =
        encodeVarint64 v ++ i.window.drop (i.pos + (encodeVarint64 v).length) := by
      rw [← List.drop_drop]
      conv_lhs => rw [← List.take_append_drop (encodeVarint64 v).length (i.window.drop i.pos),
        htake]
    refine Or.inl ⟨hlen, ?_⟩
    rw [hsplit]
    exact decodeVarint64_encode hv _
  · have hav : (i.window.drop i.pos).length < (encodeVarint64 v).length := by
      rw [List.length_drop]
      exact Nat.lt_of_not_le hlen
    have hpre : i.window.drop i.pos ++
        (encodeVarint64 v).drop (i.window.drop i.pos).length = encodeVarint64 v := by
      have htake := congrArg (List.take (i.window.drop i.pos).length) h.unread
      rw [List.take_left, List.take_append_of_le_length hav.le] at htake
      generalize i.window.drop i.pos = xs at htake ⊢
      calc xs ++ (encodeVarint64 v).drop xs.length
          = (encodeVarint64 v).take xs.length ++ (encodeVarint64 v).drop xs.length := by
            rw [← htake]
        _ = encodeVarint64 v := List.take_append_drop _ _
    have hrest : (encodeVarint64 v).drop (i.window.drop i.pos).length ≠ [] := by
      intro hnil
      have := List.drop_eq_nil_iff.mp hnil
      omega
    refine Or.inr ⟨decode_prefix_error rfl hpre hrest, fun hfile => ?_⟩
    have := available_eq h
    rw [hfile, List.length_append, List.length_nil] at this
    omega

/-- A varint is returned whole, however the file was split. -/
theorem readVarint_at {i : RunInput} {v : Nat} {rest : Bytes} (hv : v < 2 ^ 64)
    (h : InputAt i (encodeVarint64 v ++ rest)) :
    ∃ i', readVarint i = .ok v i' ∧ InputAt i' rest := by
  suffices hloop : ∀ (fuel : Nat) {i : RunInput}, InputAt i (encodeVarint64 v ++ rest) →
      i.file.length < fuel → ∃ i', readVarintLoop fuel i = .ok v i' ∧ InputAt i' rest from
    hloop _ h (by omega)
  intro fuel
  induction fuel with
  | zero => intro i _ hfuel; omega
  | succ fuel ih =>
      intro i h hfuel
      rw [readVarintLoop]
      rcases decode_window hv h with ⟨hlen, hdec⟩ | ⟨⟨s, hdec⟩, hfile⟩
      · rw [hdec]
        have hpos : i.window.length -
            (i.window.drop (i.pos + (encodeVarint64 v).length)).length =
              i.pos + (encodeVarint64 v).length := by
          simp only [available] at hlen
          have := h.pos_le
          rw [List.length_drop]
          omega
        simp only [hpos]
        exact ⟨_, rfl, consume_at h hlen⟩
      · have heof : ¬ i.eof = true := fun heof => hfile (h.eof_file heof)
        have hless := fill_length h hfile
        have h1 := available_eq h
        have h2 := available_eq (fill_at h)
        simp only [hdec]
        rw [if_neg heof, if_neg (fun hsame => by omega)]
        exact ih (fill_at h) (by omega)

/-- Raw bytes are returned whole, however the file was split. -/
theorem pullLoop_at (fuel : Nat) {i : RunInput} {xs rest acc : Bytes} (hfuel : xs.length ≤ fuel)
    (h : InputAt i (xs ++ rest)) :
    ∃ i', pullLoop fuel xs.length acc i = .ok (acc ++ xs) i' ∧ InputAt i' rest := by
  induction fuel generalizing i xs acc with
  | zero =>
      obtain rfl : xs = [] := List.length_eq_zero_iff.mp (by omega)
      exact ⟨i, by simp [pullLoop], h⟩
  | succ fuel ih =>
      rw [pullLoop]
      by_cases hneed : xs.length = 0
      · obtain rfl : xs = [] := List.length_eq_zero_iff.mp hneed
        exact ⟨i, by simp, h⟩
      · rw [if_neg hneed]
        generalize hi1 : (if i.available = 0 then i.fill else i) = i1
        have h1 : InputAt i1 (xs ++ rest) := by
          rw [← hi1]
          split
          · exact fill_at h
          · exact h
        have hav : 0 < i1.available := by
          rw [← hi1]
          split
          · rename_i hzero
            have hfile : i.file ≠ [] := by
              intro hnil
              have := available_eq h
              rw [hnil, hzero, List.length_append] at this
              simp only [List.length_nil] at this
              omega
            have hless := fill_length h hfile
            have ha := available_eq h
            have hb := available_eq (fill_at h)
            omega
          · omega
        simp only
        rw [if_neg (by omega)]
        have htake : (i1.window.drop i1.pos).take (min xs.length i1.available) =
            xs.take (min xs.length i1.available) := by
          have hpre := congrArg (List.take (min xs.length i1.available)) h1.unread
          rw [List.take_append_of_le_length (by rw [List.length_drop]; exact Nat.min_le_right _ _),
            List.take_append_of_le_length (Nat.min_le_left _ _)] at hpre
          exact hpre
        have hlen : (xs.take (min xs.length i1.available)).length = min xs.length i1.available := by
          rw [List.length_take]
          omega
        have hnext : InputAt { i1 with pos := i1.pos + min xs.length i1.available }
            (xs.drop (min xs.length i1.available) ++ rest) := by
          have hc := @consume_at i1 (xs.take (min xs.length i1.available))
            (xs.drop (min xs.length i1.available) ++ rest)
            (by rw [← List.append_assoc, List.take_append_drop]; exact h1)
            (by rw [hlen]; exact Nat.min_le_right _ _)
          rw [hlen] at hc
          exact hc
        obtain ⟨i', heq, hi'⟩ := @ih _ (xs.drop (min xs.length i1.available))
          (acc ++ xs.take (min xs.length i1.available))
          (by rw [List.length_drop]; omega) hnext
        rw [List.length_drop, List.append_assoc, List.take_append_drop] at heq
        rw [htake]
        exact ⟨i', heq, hi'⟩

/-- Words are read back from their bytes. -/
theorem wordsOf_appendRawU32 (vs : List Nat) (h : ∀ v ∈ vs, v < 2 ^ 32) :
    wordsOf vs.length (appendRawU32 vs) = vs := by
  induction vs with
  | nil => rfl
  | cons v vs ih =>
      have htake : (appendRawU32 (v :: vs)).take 4 = leBytes 4 v := by
        rw [appendRawU32, List.flatMap_cons]
        exact List.take_left' (length_leBytes 4 v)
      have hdrop : (appendRawU32 (v :: vs)).drop 4 = appendRawU32 vs := by
        rw [appendRawU32, List.flatMap_cons]
        exact List.drop_left' (length_leBytes 4 v)
      rw [List.length_cons, wordsOf, htake, hdrop, leValue_leBytes (h v (by simp)),
        ih fun x hx => h x (by simp [hx])]

@[simp] theorem length_appendRawU32 (vs : List Nat) :
    (appendRawU32 vs).length = vs.length * 4 := by
  induction vs with
  | nil => rfl
  | cons v vs ih =>
      rw [appendRawU32, List.flatMap_cons, List.length_append, length_leBytes]
      rw [appendRawU32] at ih
      rw [ih, List.length_cons]
      omega

/-- Pulling words off the input gives them and what follows. -/
theorem pullRawU32_at {i : RunInput} {vs : List Nat} {rest : Bytes} (hvs : ∀ v ∈ vs, v < 2 ^ 32)
    (h : InputAt i (appendRawU32 vs ++ rest)) :
    ∃ i', pullRawU32 vs.length i = .ok vs i' ∧ InputAt i' rest := by
  obtain ⟨i', heq, hi'⟩ := @pullLoop_at (vs.length * 4) i (appendRawU32 vs) rest [] (by simp) h
  rw [length_appendRawU32, List.nil_append] at heq
  refine ⟨i', ?_, hi'⟩
  rw [pullRawU32, bind_ok heq, wordsOf_appendRawU32 vs hvs]
  rfl

/-- The size check lets every block of the file through. -/
theorem readRawU32_at {i : RunInput} {vs : List Nat} {rest : Bytes} (hvs : ∀ v ∈ vs, v < 2 ^ 32)
    (h : InputAt i (appendRawU32 vs ++ rest)) :
    ∃ i', readRawU32 vs.length i = .ok vs i' ∧ InputAt i' rest := by
  have hsize := h.size
  rw [List.length_append, length_appendRawU32] at hsize
  rw [readRawU32, if_neg (by omega)]
  exact pullRawU32_at hvs h

end RunInput

/-! ## Stored records -/

/-- A record of a run as it was handed to the writer: a term id and its postings. -/
abbrev StoredRec := Nat × TermPostings

def encodeStored (recs : List StoredRec) : Bytes := recs.flatMap fun x => encodeRecord x.1 x.2

/-- Docids and freqs are parallel, and everything fits the field it is stored in. -/
structure Storable (x : StoredRec) : Prop where
  id : x.1 < 2 ^ 32
  parallel : x.2.freqs.length = x.2.docids.length
  docids : ∀ v ∈ x.2.docids, v < 2 ^ 32
  freqs : ∀ v ∈ x.2.freqs, v < 2 ^ 32
  positions : ∀ v ∈ x.2.positionsFlat, v < 2 ^ 32
  docCount : x.2.docids.length < 2 ^ 64
  posCount : x.2.positionsFlat.length < 2 ^ 64

/-- A reader parked at a record with `left` of its positions unread. -/
structure Parked (hasPositions : Bool) (r : RunReader) (x : StoredRec) (left : List Nat)
    (recs : List StoredRec) : Prop where
  flag : r.hasPositions = hasPositions
  live : r.exhausted = false
  id : r.currentId = x.1
  docids : r.docids = x.2.docids
  freqs : r.freqs = x.2.freqs
  count : r.posCount = x.2.positionsFlat.length
  remaining : r.posRemaining = left.length
  input : InputAt r.input (appendRawU32 left ++ encodeStored recs)
  fits : ∀ v ∈ left, v < 2 ^ 32

/-- A reader before the records it has still to return. -/
def AtStored (hasPositions : Bool) (r : RunReader) : List StoredRec → Prop
  | [] => r.exhausted = true
  | x :: recs => Parked hasPositions r x x.2.positionsFlat recs

namespace RunReader

variable {hasPositions : Bool} {r : RunReader} {x : StoredRec} {left : List Nat}
  {recs : List StoredRec}

theorem onInput_ok {α : Type} {p : RunM RunInput α} {a : α} {i : RunInput}
    (h : p r.input = .ok a i) : onInput p r = .ok a { r with input := i } := by
  simp only [onInput, h]

/-- A parked reader takes in the positions of its record. -/
theorem materializePositions_parked (h : Parked hasPositions r x left recs)
    (hleft : hasPositions = false → left = []) :
    ∃ r', materializePositions r = .ok () r' ∧ r'.positionsFlat = left ∧
      Parked hasPositions r' x [] recs := by
  unfold materializePositions
  by_cases hzero : r.posRemaining = 0
  · have hnil : left = [] := List.length_eq_zero_iff.mp (by rw [← h.remaining]; exact hzero)
    subst hnil
    rw [if_pos hzero]
    exact ⟨_, rfl, rfl, ⟨h.flag, h.live, h.id, h.docids, h.freqs, h.count, h.remaining, h.input,
      h.fits⟩⟩
  · rw [if_neg hzero]
    have hpos : hasPositions = true := by
      by_contra hfalse
      have hnil := hleft (by simpa using hfalse)
      exact hzero (by rw [h.remaining, hnil]; rfl)
    obtain ⟨i, hread, hi⟩ := RunInput.readRawU32_at h.fits h.input
    rw [← h.remaining] at hread
    rw [onInput_ok hread]
    refine ⟨_, rfl, ?_, ⟨h.flag, h.live, h.id, h.docids, h.freqs, h.count, rfl, hi, by simp⟩⟩
    simp [h.flag, hpos]

/-- Or hands them out in pieces. -/
theorem streamPositions_parked (h : Parked hasPositions r x left recs) {n : Nat}
    (hn : n ≤ left.length) :
    ∃ r', streamPositions n r = .ok (left.take n) r' ∧
      Parked hasPositions r' x (left.drop n) recs := by
  unfold streamPositions
  by_cases hzero : n = 0
  · subst hzero
    exact ⟨r, by simp, by simpa using h⟩
  · rw [if_neg hzero, if_neg (by rw [h.remaining]; omega)]
    have hin : InputAt r.input (appendRawU32 (left.take n) ++
        (appendRawU32 (left.drop n) ++ encodeStored recs)) := by
      rw [← List.append_assoc, appendRawU32, appendRawU32, ← List.flatMap_append,
        List.take_append_drop]
      exact h.input
    obtain ⟨i, hread, hi⟩ := RunInput.pullRawU32_at
      (fun v hv => h.fits v (List.mem_of_mem_take hv)) hin
    rw [List.length_take, Nat.min_eq_left hn] at hread
    rw [onInput_ok hread]
    refine ⟨_, rfl, ⟨h.flag, h.live, h.id, h.docids, h.freqs, h.count, ?_, hi,
      fun v hv => h.fits v (List.mem_of_mem_drop hv)⟩⟩
    rw [List.length_drop, ← h.remaining]

private theorem skipRemainingPositions_parked (h : Parked hasPositions r x left recs) :
    ∃ i, skipRemainingPositions r = .ok () { r with input := i, posRemaining := 0 } ∧
      InputAt i (encodeStored recs) := by
  unfold skipRemainingPositions
  by_cases hzero : r.posRemaining = 0
  · have hnil : left = [] := List.length_eq_zero_iff.mp (by rw [← h.remaining]; exact hzero)
    subst hnil
    rw [if_pos hzero]
    refine ⟨r.input, ?_, h.input⟩
    rw [← hzero]
  · rw [if_neg hzero]
    obtain ⟨i, hread, hi⟩ := RunInput.readRawU32_at h.fits h.input
    rw [← h.remaining] at hread
    rw [onInput_ok hread]
    exact ⟨i, rfl, hi⟩

private theorem readRecord_stored (hflag : r.hasPositions = hasPositions)
    (hlive : r.exhausted = false) (hx : Storable x)
    (h : InputAt r.input (encodeStored (x :: recs))) :
    ∃ r', readRecord r = .ok () r' ∧ Parked hasPositions r' x x.2.positionsFlat recs := by
  have hsplit : encodeStored (x :: recs) =
      encodeVarint64 x.1 ++ (encodeVarint64 x.2.docids.length ++
        (appendRawU32 x.2.docids ++ (appendRawU32 x.2.freqs ++
          (encodeVarint64 x.2.positionsFlat.length ++
            (appendRawU32 x.2.positionsFlat ++ encodeStored recs))))) := by
    simp [encodeStored, encodeRecord]
  rw [hsplit] at h
  have hid := hx.id
  obtain ⟨i1, hread1, h1⟩ := RunInput.readVarint_at (by omega) h
  obtain ⟨i2, hread2, h2⟩ := RunInput.readVarint_at hx.docCount h1
  obtain ⟨i3, hread3, h3⟩ := RunInput.readRawU32_at hx.docids h2
  obtain ⟨i4, hread4, h4⟩ := RunInput.readRawU32_at hx.freqs h3
  obtain ⟨i5, hread5, h5⟩ := RunInput.readVarint_at hx.posCount h4
  have hid1 : readTermId r = .ok () { r with input := i1, currentId := x.1 } := by
    unfold readTermId
    rw [onInput_ok hread1]
    simp only
    rw [if_neg (by omega)]
  rw [hx.parallel] at hread4
  refine ⟨{ r with
    input := i5, currentId := x.1, docids := x.2.docids, freqs := x.2.freqs, positionsFlat := []
    posCount := x.2.positionsFlat.length, posRemaining := x.2.positionsFlat.length }, ?_, ?_⟩
  · rw [readRecord, bind_ok hid1, bind_ok (onInput_ok hread2), bind_ok (onInput_ok hread3),
      bind_modify, bind_ok (onInput_ok hread4), bind_modify, bind_ok (onInput_ok hread5)]
    rfl
  · exact ⟨hflag, hlive, rfl, rfl, rfl, rfl, rfl, h5, hx.positions⟩

private theorem available_of_ne_nil {i : RunInput} {bs : Bytes} (h : InputAt i bs)
    (hbs : bs ≠ []) (hzero : i.available = 0) : i.fill.available ≠ 0 := by
  have hfile : i.file ≠ [] := by
    intro hnil
    have := RunInput.available_eq h
    rw [hnil, hzero] at this
    exact hbs (List.length_eq_zero_iff.mp this.symm)
  have hless := RunInput.fill_length h hfile
  have h1 := RunInput.available_eq h
  have h2 := RunInput.available_eq (RunInput.fill_at h)
  omega

/-- The end of the run is recognised at its last byte. -/
theorem atEnd_at {bs : Bytes} (h : InputAt r.input bs) :
    ∃ i, atEnd r = .ok (bs.isEmpty) { r with input := i } ∧ InputAt i bs := by
  unfold atEnd
  by_cases hzero : r.input.available = 0
  · rw [if_pos hzero]
    refine ⟨r.input.fill, ?_, RunInput.fill_at h⟩
    by_cases hbs : bs = []
    · have hfill := RunInput.available_eq (RunInput.fill_at h)
      rw [hbs, List.length_nil] at hfill
      have heof := RunInput.fill_eof h (by rw [hbs])
      simp [hbs, heof, show r.input.fill.available = 0 by omega]
    · have hav := available_of_ne_nil h hbs hzero
      simp [hbs, hav]
  · rw [if_neg hzero]
    refine ⟨r.input, ?_, h⟩
    have hbs : bs ≠ [] := by
      intro hnil
      have := RunInput.available_eq h
      rw [hnil, List.length_nil] at this
      omega
    simp [hbs]

private theorem encodeStored_isEmpty (recs : List StoredRec) :
    (encodeStored recs).isEmpty = recs.isEmpty := by
  cases recs with
  | nil => rfl
  | cons x recs =>
      have hne := encodeVarint64_ne_nil x.1
      simp [encodeStored, encodeRecord, hne]

/-- `advance` after the skip: the next record is loaded, or the run has ended. -/
private theorem advance_rest {i : RunInput}
    (hskip : skipRemainingPositions r = .ok () { r with input := i, posRemaining := 0 })
    (hflag : r.hasPositions = hasPositions) (hlive : r.exhausted = false)
    (hi : InputAt i (encodeStored recs)) (hfits : ∀ y ∈ recs, Storable y) :
    ∃ r', advance r = .ok () r' ∧ AtStored hasPositions r' recs := by
  obtain ⟨i2, hend, h2⟩ :=
    @atEnd_at { r with input := i, posRemaining := 0 } _ hi
  rw [encodeStored_isEmpty] at hend
  rw [advance, bind_ok hskip, bind_ok hend]
  cases recs with
  | nil => exact ⟨_, rfl, rfl⟩
  | cons x recs =>
      exact readRecord_stored hflag hlive (hfits x (by simp)) h2

/-- **`advance`** skips the unread positions and loads the next record. -/
theorem advance_parked (h : Parked hasPositions r x left recs) (hfits : ∀ y ∈ recs, Storable y) :
    ∃ r', advance r = .ok () r' ∧ AtStored hasPositions r' recs := by
  obtain ⟨i1, hskip, h1⟩ := skipRemainingPositions_parked h
  exact advance_rest hskip h.flag h.live h1 hfits

/-- A run just opened stands before its first record. -/
theorem advance_opened_stored (hasPositions : Bool) (readSize : Nat → Nat)
    (hfits : ∀ y ∈ recs, Storable y) :
    ∃ r', advance (opened (encodeStored recs) readSize hasPositions) = .ok () r' ∧
      AtStored hasPositions r' recs := by
  refine advance_rest (i := (opened (encodeStored recs) readSize hasPositions).input)
    rfl rfl rfl ⟨Nat.le_refl _, by simp [opened], rfl, Nat.le_refl _⟩ hfits

end RunReader

/-! ## Records of grouped tokens -/

/-- A record of a run: a term id and the groups of its tokens. -/
abbrev Rec := Nat × List (Nat × List Nat)

/-- The positions a record stores. -/
def posOf (hasPositions : Bool) (g : List (Nat × List Nat)) : List Nat :=
  if hasPositions then g.flatMap Prod.snd else []

def encodeRecs (hasPositions : Bool) (recs : List Rec) : Bytes :=
  recs.flatMap fun x => encodeRecord x.1 (groupPostings hasPositions x.2)

/-- Everything in a record fits the field it is stored in. -/
structure Rec.Fits (x : Rec) : Prop where
  id : x.1 < 2 ^ 32
  docids : ∀ e ∈ x.2, e.1 < 2 ^ 32
  positions : ∀ v ∈ x.2.flatMap Prod.snd, v < 2 ^ 32
  nonempty : ∀ e ∈ x.2, e.2 ≠ []
  total : (x.2.flatMap Prod.snd).length < 2 ^ 32

theorem Rec.Fits.length_le {x : Rec} (h : x.Fits) :
    x.2.length ≤ (x.2.flatMap Prod.snd).length := by
  rw [List.length_flatMap]
  calc x.2.length = (x.2.map fun _ => 1).sum := by simp
    _ ≤ (x.2.map fun e => e.2.length).sum := List.sum_le_sum fun e he =>
        List.length_pos_iff.mpr (h.nonempty e he)

/-- A record that fits has its documents counted in 32 bits. -/
theorem Rec.Fits.length_lt {x : Rec} (h : x.Fits) : x.2.length < 2 ^ 32 :=
  Nat.lt_of_le_of_lt h.length_le h.total

/-- And its positions. -/
theorem Rec.Fits.posOf_length_lt {x : Rec} (h : x.Fits) (hasPositions : Bool) :
    (posOf hasPositions x.2).length < 2 ^ 32 := by
  cases hasPositions with
  | false => simp [posOf]
  | true => exact h.total

theorem Rec.Fits.posOf_lt {x : Rec} (h : x.Fits) {hasPositions : Bool} {v : Nat}
    (hv : v ∈ posOf hasPositions x.2) : v < 2 ^ 32 := by
  cases hasPositions with
  | false => simp [posOf] at hv
  | true => exact h.positions v hv

theorem Rec.Fits.fst_lt {x : Rec} (h : x.Fits) {v : Nat} (hv : v ∈ x.2.map Prod.fst) :
    v < 2 ^ 32 := by
  obtain ⟨e, he, rfl⟩ := List.mem_map.mp hv
  exact h.docids e he

theorem Rec.Fits.freq_lt {x : Rec} (h : x.Fits) {v : Nat}
    (hv : v ∈ x.2.map fun e => e.2.length) : v < 2 ^ 32 := by
  have hle : v ≤ (x.2.map fun e => e.2.length).sum := List.le_sum_of_mem hv
  have := h.total
  rw [List.length_flatMap] at this
  exact Nat.lt_of_le_of_lt hle this

/-- A reader parked at a record with `left` of its positions unread. -/
structure Loaded (hasPositions : Bool) (r : RunReader) (x : Rec) (left : List Nat)
    (recs : List Rec) : Prop where
  flag : r.hasPositions = hasPositions
  live : r.exhausted = false
  id : r.currentId = x.1
  docids : r.docids = x.2.map Prod.fst
  freqs : r.freqs = x.2.map fun e => e.2.length
  count : r.posCount = (posOf hasPositions x.2).length
  remaining : r.posRemaining = left.length
  input : InputAt r.input (appendRawU32 left ++ encodeRecs hasPositions recs)
  fits : ∀ v ∈ left, v < 2 ^ 32

/-- A reader before the records it has still to return. -/
def AtRecords (hasPositions : Bool) (r : RunReader) : List Rec → Prop
  | [] => r.exhausted = true
  | x :: recs => Loaded hasPositions r x (posOf hasPositions x.2) recs

/-- A record of grouped tokens as it is stored. -/
def Rec.stored (hasPositions : Bool) (x : Rec) : StoredRec := (x.1, groupPostings hasPositions x.2)

/-- What fits can be stored. -/
theorem Rec.Fits.storable {x : Rec} (h : x.Fits) (hasPositions : Bool) :
    Storable (x.stored hasPositions) where
  id := h.id
  parallel := by simp [Rec.stored, groupPostings]
  docids := fun _ hv => h.fst_lt hv
  freqs := fun _ hv => h.freq_lt hv
  positions := fun _ hv => h.posOf_lt hv
  docCount := by
    have hlen := h.length_lt
    simp only [Rec.stored, groupPostings, List.length_map]
    omega
  posCount := by
    have hlen := h.posOf_length_lt hasPositions
    simp only [posOf] at hlen
    simp only [Rec.stored, groupPostings]
    omega

/-- The bytes of records are those of their stored forms. -/
theorem encodeRecs_eq (hasPositions : Bool) (recs : List Rec) :
    encodeRecs hasPositions recs = encodeStored (recs.map (Rec.stored hasPositions)) := by
  rw [encodeStored, List.flatMap_map]
  rfl

/-- A reader at a record is parked at its stored form. -/
theorem loaded_iff_parked {hasPositions : Bool} {r : RunReader} {x : Rec} {left : List Nat}
    {recs : List Rec} : Loaded hasPositions r x left recs ↔
      Parked hasPositions r (x.stored hasPositions) left (recs.map (Rec.stored hasPositions)) := by
  constructor
  · intro h
    have hin := h.input
    rw [encodeRecs_eq] at hin
    exact ⟨h.flag, h.live, h.id, h.docids, h.freqs, h.count, h.remaining, hin, h.fits⟩
  · intro h
    have hin := h.input
    rw [← encodeRecs_eq] at hin
    exact ⟨h.flag, h.live, h.id, h.docids, h.freqs, h.count, h.remaining, hin, h.fits⟩

/-- The same for the records to come. -/
theorem atRecords_iff_atStored {hasPositions : Bool} {r : RunReader} {recs : List Rec} :
    AtRecords hasPositions r recs ↔
      AtStored hasPositions r (recs.map (Rec.stored hasPositions)) := by
  cases recs with
  | nil => exact Iff.rfl
  | cons x recs => exact loaded_iff_parked

namespace RunReader

variable {hasPositions : Bool} {r : RunReader} {x : Rec} {left : List Nat} {recs : List Rec}

/-- A reader at a record takes in its positions. -/
theorem materializePositions_loaded (h : Loaded hasPositions r x left recs)
    (hleft : hasPositions = false → left = []) :
    ∃ r', materializePositions r = .ok () r' ∧ r'.positionsFlat = left ∧
      Loaded hasPositions r' x [] recs := by
  simp only [loaded_iff_parked] at h ⊢
  exact materializePositions_parked h hleft

/-- Or hands them out in pieces. -/
theorem streamPositions_loaded (h : Loaded hasPositions r x left recs) {n : Nat}
    (hn : n ≤ left.length) :
    ∃ r', streamPositions n r = .ok (left.take n) r' ∧
      Loaded hasPositions r' x (left.drop n) recs := by
  simp only [loaded_iff_parked] at h ⊢
  exact streamPositions_parked h hn

private theorem storable_of_fits (hfits : ∀ y ∈ recs, Rec.Fits y) :
    ∀ y ∈ recs.map (Rec.stored hasPositions), Storable y := by
  intro y hy
  obtain ⟨x, hx, rfl⟩ := List.mem_map.mp hy
  exact (hfits x hx).storable hasPositions

/-- **Advancing** from a record leads to the next, whatever was read of it. -/
theorem advance_loaded (h : Loaded hasPositions r x left recs) (hfits : ∀ y ∈ recs, Rec.Fits y) :
    ∃ r', advance r = .ok () r' ∧ AtRecords hasPositions r' recs := by
  simp only [atRecords_iff_atStored]
  exact advance_parked (loaded_iff_parked.mp h) (storable_of_fits hfits)

/-- **Opening** leads to the first record. -/
theorem advance_opened (hasPositions : Bool) (readSize : Nat → Nat) {recs : List Rec}
    (hfits : ∀ y ∈ recs, Rec.Fits y) :
    ∃ r', advance (opened (encodeRecs hasPositions recs) readSize hasPositions) = .ok () r' ∧
      AtRecords hasPositions r' recs := by
  simp only [atRecords_iff_atStored, encodeRecs_eq]
  exact advance_opened_stored hasPositions readSize (storable_of_fits hfits)

end RunReader
end Snii.Writer.SpillRunCodec
