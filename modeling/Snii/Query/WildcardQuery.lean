import Snii.Lib.Glob
import Snii.Query.DocidUnion

/-!
# Wildcard search

`wildcard_query.cpp`: the terms under the literal prefix of the pattern are matched one
by one with a table that is filled row by row, one row a pattern byte, and the
documents of the matching terms are united.
-/

namespace Snii.Query.WildcardQuery

open Snii.Lib.ByteReader Snii.Lib.Glob Snii.Common Snii.Reader Snii.Query.DocidUnion

/-- `*` matches any bytes. -/
def kStar : UInt8 := 42

/-- `?` matches one byte. -/
def kOne : UInt8 := 63

/-- What every matching term starts with: the pattern up to its first `*` or `?`. -/
def literalPrefixForWildcard (pattern : Bytes) : Bytes :=
  pattern.takeWhile fun c => !(c == kStar || c == kOne)

/-- The row of `*`: a cell is set when one at or before it was. -/
def starRow : Bool → List Bool → List Bool
  | _, [] => []
  | left, b :: prev => (b || left) :: starRow (b || left) prev

/-- The row of any other byte: a cell is set when the one before it was and the byte
takes the letter between them. -/
def letterRow (p : UInt8) (text : Bytes) (prev : List Bool) : List Bool :=
  false :: List.zipWith (fun b c => b && (p == kOne || p == c)) prev text

/-- One byte of the pattern takes a row of the table to the next one. -/
def nextRow (text : Bytes) (prev : List Bool) (p : UInt8) : List Bool :=
  if p = kStar then starRow false prev else letterRow p text prev

/-- The empty pattern matches the empty text only. -/
def firstRow (text : Bytes) : List Bool := true :: List.replicate text.length false

/-- The cell of the whole pattern against the whole text. -/
def wildcardMatch (pattern text : Bytes) : Bool :=
  (pattern.foldl (nextRow text) (firstRow text)).getD text.length false

/-- The union of the docids of the terms that the pattern matches. -/
def wildcardQuery (env : ReadEnv) (idx : LogicalIndexReader) (pattern : Bytes) :
    Result (List Nat) :=
  emitExpandedDocidUnion env idx (literalPrefixForWildcard pattern) (wildcardMatch pattern)

/-! ## The table -/

/-- The pattern matches the text: `*` is any byte sequence, `?` one byte. -/
def Glob (pattern text : Bytes) : Prop := Matches kStar kOne pattern text

/-- A row of the table: the cell at `i` says whether the pattern read so far matches the
first `i` bytes. -/
structure Row (pattern text : Bytes) (row : List Bool) : Prop where
  length : row.length = text.length + 1
  cell : ∀ i, i ≤ text.length → (row.getD i false = true ↔ Glob pattern (text.take i))

theorem row_first (text : Bytes) : Row [] text (firstRow text) := by
  constructor
  · simp [firstRow]
  · intro i hi
    rw [Glob, matches_nil, List.take_eq_nil_iff]
    cases i with
    | zero => simp [firstRow]
    | succ i =>
        have hne : text ≠ [] := by
          rintro rfl
          simp at hi
        have hlt : i < text.length := by omega
        simp [firstRow, hne, List.getD_eq_getElem?_getD, hlt]

theorem length_starRow (left : Bool) (row : List Bool) : (starRow left row).length = row.length := by
  induction row generalizing left with
  | nil => rfl
  | cons b row ih => rw [starRow, List.length_cons, ih, List.length_cons]

theorem getD_starRow (left : Bool) (row : List Bool) {i : Nat} (hi : i < row.length) :
    (starRow left row).getD i false = true ↔
      left = true ∨ ∃ j, j ≤ i ∧ row.getD j false = true := by
  induction row generalizing left i with
  | nil => simp at hi
  | cons b row ih =>
      cases i with
      | zero =>
          simp only [starRow, List.getD_cons_zero, Bool.or_eq_true, Nat.le_zero, exists_eq_left]
          exact or_comm
      | succ i =>
          rw [starRow, List.getD_cons_succ, ih _ (by simpa using hi), Bool.or_eq_true]
          constructor
          · rintro ((hb | hleft) | ⟨j, hj, hcell⟩)
            · exact .inr ⟨0, Nat.zero_le _, by simpa using hb⟩
            · exact .inl hleft
            · exact .inr ⟨j + 1, by omega, by simpa using hcell⟩
          · rintro (hleft | ⟨j, hj, hcell⟩)
            · exact .inl (.inr hleft)
            · cases j with
              | zero => exact .inl (.inl (by simpa using hcell))
              | succ j => exact .inr ⟨j, by omega, by simpa using hcell⟩

variable {pattern text : Bytes} {row : List Bool} {p : UInt8}

theorem Row.star (h : Row pattern text row) : Row (pattern ++ [kStar]) text (starRow false row) := by
  constructor
  · rw [length_starRow, h.length]
  · intro i hi
    rw [getD_starRow false row (by rw [h.length]; omega), Glob, matches_concat_star]
    constructor
    · rintro (hfalse | ⟨j, hj, hcell⟩)
      · cases hfalse
      · refine ⟨j, by rw [List.length_take]; omega, ?_⟩
        rw [List.take_take, Nat.min_eq_left hj]
        exact (h.cell j (by omega)).mp hcell
    · rintro ⟨j, hj, hmatch⟩
      rw [List.length_take] at hj
      rw [List.take_take, Nat.min_eq_left (by omega)] at hmatch
      exact .inr ⟨j, by omega, (h.cell j (by omega)).mpr hmatch⟩

theorem Row.letter (h : Row pattern text row) (hp : p ≠ kStar) :
    Row (pattern ++ [p]) text (letterRow p text row) := by
  have hlen := h.length
  constructor
  · rw [letterRow, List.length_cons, List.length_zipWith]
    omega
  · intro i hi
    rw [Glob, matches_concat_letter hp]
    cases i with
    | zero => simp [letterRow]
    | succ i =>
        have hcell := h.cell i (by omega)
        have htake : text.take (i + 1) = text.take i ++ [text[i]] := by simp
        have hrow : row.getD i false = row[i] := by
          rw [List.getD_eq_getElem?_getD, List.getElem?_eq_getElem (by omega), Option.getD_some]
        rw [hrow] at hcell
        have hvalue : (letterRow p text row).getD (i + 1) false =
            (row[i] && (p == kOne || p == text[i])) := by
          rw [letterRow, List.getD_cons_succ, List.getD_eq_getElem?_getD, List.getElem?_zipWith]
          simp [List.getElem?_eq_getElem (show i < row.length by omega),
            List.getElem?_eq_getElem (show i < text.length by omega)]
        rw [hvalue, htake, Bool.and_eq_true, hcell, Bool.or_eq_true, beq_iff_eq, beq_iff_eq]
        constructor
        · rintro ⟨hmatch, hletter⟩
          exact ⟨text.take i, text[i], rfl, hmatch, hletter⟩
        · rintro ⟨s, x, heq, hmatch, hletter⟩
          obtain ⟨hs, hx⟩ := List.append_inj' heq rfl
          cases hx
          exact ⟨hs ▸ hmatch, hletter⟩

theorem Row.next (h : Row pattern text row) (p : UInt8) :
    Row (pattern ++ [p]) text (nextRow text row p) := by
  rw [nextRow]
  split
  case _ hp => exact hp ▸ h.star
  case _ hp => exact h.letter hp

/-- The rows of a whole pattern. -/
theorem Row.foldl (h : Row pattern text row) (more : Bytes) :
    Row (pattern ++ more) text (more.foldl (nextRow text) row) := by
  induction more generalizing pattern row with
  | nil => rwa [List.append_nil]
  | cons p more ih =>
      have hnext := ih (h.next p)
      rwa [List.append_assoc] at hnext

/-- **The table decides the glob relation.** -/
theorem wildcardMatch_iff (pattern text : Bytes) :
    wildcardMatch pattern text = true ↔ Glob pattern text := by
  have hrow := (row_first text).foldl pattern
  have hcell := hrow.cell text.length (Nat.le_refl _)
  rwa [List.take_length] at hcell

/-- **The prefix loses no match.** -/
theorem literalPrefix_isPrefix (h : Glob pattern text) :
    literalPrefixForWildcard pattern <+: text := by
  apply matches_literal_isPrefix _ h
  intro c hc
  simpa [not_or] using hc

/-! ## The query -/

open Snii.Writer.LogicalIndexWriter Snii.Writer.CompoundWriter

/-- **Wildcard search has glob semantics**: the table decides the glob relation, every
match has the literal prefix, and over a written index within the reader's cap the
query returns the documents of the terms that match as a whole. -/
theorem wildcardQuery_exact {env : BuildEnv} {renv : ReadEnv} {adds : List AddCall} {a : AddCall}
    (h : WrittenIndex env renv adds a) (hcaps : CapsOk env adds) (pattern : Bytes) :
    (∀ text, wildcardMatch pattern text = true ↔ Glob pattern text) ∧
    (∀ text, Glob pattern text → literalPrefixForWildcard pattern <+: text) ∧
    ∃ idx, OpensFrom env renv adds a idx ∧ Returns (wildcardQuery renv idx pattern) fun d =>
      ∃ tp ∈ a.input.source.list, Glob pattern tp.postings.term ∧ d ∈ tp.postings.docids := by
  refine ⟨wildcardMatch_iff pattern, fun text => literalPrefix_isPrefix, ?_⟩
  obtain ⟨idx, hopens, hreturns⟩ := expansion_exact h hcaps (literalPrefixForWildcard pattern)
    (wildcardMatch pattern)
  refine ⟨idx, hopens, hreturns.congr fun d => ?_⟩
  constructor
  · rintro ⟨tp, htp, -, hmatch, hd⟩
    exact ⟨tp, htp, (wildcardMatch_iff _ _).mp hmatch, hd⟩
  · rintro ⟨tp, htp, hmatch, hd⟩
    exact ⟨tp, htp, literalPrefix_isPrefix hmatch, (wildcardMatch_iff _ _).mpr hmatch, hd⟩

theorem wildcardQuery_exact_star : ∃ idx,
    OpensFrom storeEnv storeReadEnv twoCalls positionalCall idx ∧
      Returns (wildcardQuery storeReadEnv idx [42]) fun d =>
        ∃ tp ∈ positionalCall.input.source.list, Glob [42] tp.postings.term ∧
          d ∈ tp.postings.docids := by
  exact (wildcardQuery_exact positional_written capsOk_twoCalls [42]).2.2

/-- The pattern `*` over an index whose one term is beyond the reader's cap. -/
theorem wildcardQuery_oversized :
    WrittenIndex (knowingEnv (List.replicate (2 ^ 29) 0)) (knowingReadEnv (List.replicate (2 ^ 29) 0))
        [oneCall (List.replicate (2 ^ 29) 0)] (oneCall (List.replicate (2 ^ 29) 0)) ∧
      ∃ idx, OpensFrom (knowingEnv (List.replicate (2 ^ 29) 0))
          (knowingReadEnv (List.replicate (2 ^ 29) 0)) [oneCall (List.replicate (2 ^ 29) 0)]
          (oneCall (List.replicate (2 ^ 29) 0)) idx ∧
        ¬ Returns (wildcardQuery (knowingReadEnv (List.replicate (2 ^ 29) 0)) idx [42]) fun d =>
          ∃ tp ∈ (oneCall (List.replicate (2 ^ 29) 0)).input.source.list,
            Glob [42] tp.postings.term ∧ d ∈ tp.postings.docids := by
  have h := oversized_unreadable (oversized_replicate rfl)
  obtain ⟨hwritten, idx, hopens, hunreadable⟩ := h
  exact ⟨hwritten, idx, hopens, expansion_unreadable hunreadable _ _⟩

end Snii.Query.WildcardQuery
