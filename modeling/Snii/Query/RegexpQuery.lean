import Snii.Lib.Pattern
import Snii.Query.DocidUnion

/-!
# Regexp queries

`regexp_query.cpp`: the terms under the literal prefix of the pattern are enumerated and
matched in full.  The prefix is what a scan up to the first metacharacter collects, and
the scan does not see what the metacharacter does to it: a quantifier may read the last
letter no time, and a later alternative does without all of them.

`std::regex` is a parameter; `Ecma` says of it what the ECMAScript grammar says of the
top level of a pattern.
-/

namespace Snii.Query.RegexpQuery

open Snii.Lib.ByteReader Snii.Lib.Pattern Snii.Common Snii.Reader Snii.Query.DocidUnion
open Snii.Writer.LogicalIndexWriter Snii.Writer.CompoundWriter

/-- `.`, `^`, `$`, `|`, the brackets, `*`, `+`, `?` and the backslash. -/
def isRegexMetachar (c : UInt8) : Bool :=
  c ∈ ([46, 94, 36, 124, 40, 41, 91, 93, 42, 43, 63, 123, 125, 92] : Bytes)

def literalPrefixForRegex (pattern : Bytes) : Bytes :=
  (if pattern.head? = some 94 then pattern.drop 1 else pattern).takeWhile fun c =>
    !isRegexMetachar c

/-- `std::regex`: the matcher of a pattern, or the message of the exception. -/
structure Regex where
  compile : Bytes → Except String (Bytes → Bool)

def regexpQuery (lib : Regex) (env : ReadEnv) (idx : LogicalIndexReader) (pattern : Bytes) :
    Result (List Nat) :=
  match lib.compile pattern with
  | .error what => .error (.invalidArgument ("regexp_query: invalid regex: " ++ what))
  | .ok re => emitExpandedDocidUnion env idx (literalPrefixForRegex pattern) re

/-- The reading of a pattern by the grammar: alternatives between bars, of letters with
their quantifiers and of other constructs, that match as the library does. -/
structure Grammar (pattern : Bytes) (re : Bytes → Bool) (d : Disjunction UInt8) : Prop where
  text : d.text 94 124 = pattern
  ok : ∀ a ∈ d.first :: d.rest, a.Ok 94 isRegexMetachar
  full : ∀ t, re t = true ↔ d.Matches t

/-- Every pattern that is accepted has its reading. -/
def Regex.Ecma (lib : Regex) : Prop :=
  ∀ pattern re, lib.compile pattern = .ok re → ∃ d, Grammar pattern re d

/-! ## The prefix -/

theorem literalPrefix_eq {pattern : Bytes} {re : Bytes → Bool} {d : Disjunction UInt8}
    (h : Grammar pattern re d) : literalPrefixForRegex pattern = leading d.first.pieces := by
  have hok := h.ok d.first List.mem_cons_self
  have hmore : ∀ c ∈ (d.rest.flatMap fun a => 124 :: a.text 94).head?, isRegexMetachar c = true := by
    cases d.rest with
    | nil => simp
    | cons a rest =>
        intro c hc
        simp only [List.flatMap_cons, List.cons_append, List.head?_cons, Option.mem_some_iff] at hc
        rw [← hc]
        decide
  have hscan := takeWhile_text hok.pieces hmore
  rw [literalPrefixForRegex, ← h.text, Disjunction.text, Alternative.text]
  cases hanchored : d.first.anchored with
  | true => simpa using hscan
  | false =>
      have hhead : (d.first.pieces.flatMap Piece.text ++
          d.rest.flatMap fun a => 124 :: a.text 94).head? ≠ some 94 := by
        have hfirst := hok.anchor hanchored
        cases htext : d.first.pieces.flatMap Piece.text with
        | nil =>
            intro hrest
            have hbar : ∀ c ∈ (d.rest.flatMap fun a => 124 :: a.text 94).head?, c = 124 := by
              cases d.rest <;> simp [eq_comm]
            exact absurd (hbar 94 hrest) (by decide)
        | cons c more =>
            rw [htext] at hfirst
            exact hfirst
      rw [if_neg Bool.false_ne_true, List.nil_append, if_neg hhead]
      exact hscan

/-! ## The query -/

/-- The query is right over every written index within the reader's cap. -/
def ExactOver (lib : Regex) (pattern : Bytes) (re : Bytes → Bool) : Prop :=
  ∀ (env : BuildEnv) (renv : ReadEnv) (adds : List AddCall) (a : AddCall),
    WrittenIndex env renv adds a → CapsOk env adds →
      ∃ idx, OpensFrom env renv adds a idx ∧ Returns (regexpQuery lib renv idx pattern) fun d =>
        ∃ tp ∈ a.input.source.list, re tp.postings.term = true ∧ d ∈ tp.postings.docids

theorem regexpQuery_eq {lib : Regex} {pattern : Bytes} {re : Bytes → Bool}
    (h : lib.compile pattern = .ok re) (env : ReadEnv) (idx : LogicalIndexReader) :
    regexpQuery lib env idx pattern =
      emitExpandedDocidUnion env idx (literalPrefixForRegex pattern) re := by
  rw [regexpQuery, h]

/-- A prefix that every match has loses nothing. -/
theorem exactOver_of_leads {lib : Regex} {pattern : Bytes} {re : Bytes → Bool}
    (hcompile : lib.compile pattern = .ok re)
    (hleads : ∀ t, re t = true → literalPrefixForRegex pattern <+: t) :
    ExactOver lib pattern re := by
  intro env renv adds a hwritten hcaps
  obtain ⟨idx, hopens, hreturns⟩ :=
    expansion_exact hwritten hcaps (literalPrefixForRegex pattern) re
  refine ⟨idx, hopens, ?_⟩
  rw [regexpQuery_eq hcompile]
  apply hreturns.congr
  intro d
  constructor
  · rintro ⟨tp, htp, -, hmatch, hd⟩
    exact ⟨tp, htp, hmatch, hd⟩
  · rintro ⟨tp, htp, hmatch, hd⟩
    exact ⟨tp, htp, hleads _ hmatch, hmatch, hd⟩

/-- **When regexp search is exact.**  Of a pattern that is accepted, the query returns
the documents of the terms matched in full, over every written index within the reader's
cap, and every match has the literal prefix, exactly if no alternative that can do
without the letters that lead the first one matches a text without them: those after the
first, and the first one without its last leading letter where the quantifier of that
letter admits no repetition. -/
theorem regexpQuery_exact_iff {lib : Regex} (hlib : lib.Ecma) {pattern : Bytes}
    {re : Bytes → Bool} (hcompile : lib.compile pattern = .ok re) :
    (∃ d, Grammar pattern re d) ∧ ∀ d, Grammar pattern re d →
      ((ExactOver lib pattern re ∧ ∀ t, re t = true → literalPrefixForRegex pattern <+: t) ↔
        ∀ a ∈ d.escapes, ∀ t, a.Matches t → leading d.first.pieces <+: t) := by
  refine ⟨hlib pattern re hcompile, fun d hd => ?_⟩
  rw [← matches_leading_iff d, literalPrefix_eq hd]
  simp only [← hd.full]
  constructor
  · exact fun h => h.2
  · intro h
    refine ⟨exactOver_of_leads hcompile ?_, h⟩
    rw [literalPrefix_eq hd]
    exact h

/-! ## Two letters and a quantifier -/

/-- The number of repetitions that `*` and `+` ask for. -/
def leastOf (q : UInt8) : Option Nat :=
  if q = 42 then some 0 else if q = 43 then some 1 else none

def pairMatcher (a b : UInt8) (n : Nat) (t : Bytes) : Bool :=
  t.head? = some a ∧ n ≤ t.tail.length ∧ t.tail.all (fun c => decide (c = b)) = true

/-- A library for the patterns of two letters and one of these quantifiers. -/
def pairRegex : Regex where
  compile
    | [a, b, q] =>
        match leastOf q with
        | some n =>
            if isRegexMetachar a || isRegexMetachar b then .error "unsupported"
            else .ok (pairMatcher a b n)
        | none => .error "unsupported"
    | _ => .error "unsupported"

/-- The reading of such a pattern. -/
def pairTree (a b q : UInt8) (n : Nat) : Disjunction UInt8 :=
  { first := { anchored := false
               pieces := [.letter a none, .letter b (some { text := [q], min := n, max := none })] }
    rest := [] }

theorem pairTree_matches (a b q : UInt8) (n : Nat) (t : Bytes) :
    (pairTree a b q n).Matches t ↔ t.head? = some a ∧ n ≤ t.tail.length ∧ ∀ c ∈ t.tail, c = b := by
  constructor
  · rintro ⟨alt, halt, captures, hruns⟩
    cases List.mem_singleton.mp halt
    obtain ⟨k, hone, hfirst, hnext⟩ := runs_letter_iff.mp hruns
    cases (show k = 1 from hone)
    obtain ⟨k, hk, hrest, hend⟩ := runs_letter_iff.mp hnext
    obtain ⟨more, rfl⟩ := hfirst
    have hlen : 1 + more.length = 0 + 1 + k := by
      simpa [Nat.add_comm] using congrArg State.pos (runs_nil_iff.mp hend)
    have hmore : List.replicate k b = more := hrest.eq_of_length (by simp; omega)
    refine ⟨rfl, ?_, ?_⟩
    · show n ≤ more.length
      rw [← hmore, List.length_replicate]
      exact hk.1
    · intro c hc
      have hin : c ∈ more := hc
      rw [← hmore] at hin
      exact List.eq_of_mem_replicate hin
  · rintro ⟨hhead, hn, hall⟩
    cases t with
    | nil => cases hhead
    | cons c t =>
        cases hhead
        have ht : List.replicate t.length b = t := (List.eq_replicate_iff.mpr ⟨rfl, hall⟩).symm
        refine ⟨_, List.mem_cons_self, fun _ => none, runs_letter_iff.mpr ⟨1, rfl, ?_, ?_⟩⟩
        · exact List.prefix_append [a] t
        · have hallows : reads (some ⟨[q], n, none⟩) t.length := ⟨hn, by simp⟩
          apply runs_letter_iff.mpr ⟨t.length, hallows, ?_, ?_⟩
          · have hlast : List.replicate t.length b ++ [] = t := by rw [List.append_nil, ht]
            exact ⟨[], hlast⟩
          · rw [runs_nil_iff, List.length_cons]
            simp [Nat.add_comm]

theorem pairRegex_inv {pattern : Bytes} {re : Bytes → Bool}
    (h : pairRegex.compile pattern = .ok re) : ∃ a b q n, pattern = [a, b, q] ∧
      leastOf q = some n ∧ isRegexMetachar a = false ∧ isRegexMetachar b = false ∧
      re = pairMatcher a b n := by
  unfold pairRegex at h
  dsimp only at h
  split at h
  case _ a b q =>
      split at h
      case _ n hn =>
          split at h
          case _ => cases h
          case _ hletters =>
              cases h
              rw [Bool.or_eq_true, not_or] at hletters
              exact ⟨a, b, q, n, rfl, hn, by simpa using hletters.1, by simpa using hletters.2, rfl⟩
      case _ => cases h
  case _ => cases h

theorem grammar_pair {a b q : UInt8} {n : Nat} (hn : leastOf q = some n)
    (ha : isRegexMetachar a = false) (hb : isRegexMetachar b = false) :
    Grammar [a, b, q] (pairMatcher a b n) (pairTree a b q n) := by
  have hq : isRegexMetachar q = true := by
    unfold leastOf at hn
    split at hn
    case _ hq =>
        rw [hq]
        decide
    case _ =>
        split at hn
        case _ hq =>
            rw [hq]
            decide
        case _ => cases hn
  refine ⟨rfl, ?_, fun t => ?_⟩
  · intro alt halt
    cases List.mem_singleton.mp halt
    constructor
    · intro p hp
      cases List.mem_cons.mp hp with
      | inl hp =>
          rw [hp]
          exact ⟨ha, by simp⟩
      | inr hp =>
          rw [List.mem_singleton.mp hp]
          exact ⟨hb, fun x hx => ⟨q, [], by rw [← Option.some.inj hx], hq⟩⟩
    · intro _ hhat
      have hmeta : isRegexMetachar 94 = true := by decide
      have ha94 : a = 94 := by simpa [pairTree, Piece.text] using hhat
      rw [ha94, hmeta] at ha
      cases ha
  · rw [pairTree_matches]
    simp [pairMatcher]

theorem pairRegex_ecma : pairRegex.Ecma := by
  intro pattern re hcompile
  obtain ⟨a, b, q, n, rfl, hn, ha, hb, rfl⟩ := pairRegex_inv hcompile
  exact ⟨_, grammar_pair hn ha hb⟩

theorem regexpQuery_exact_plus : ExactOver pairRegex [97, 98, 43] (pairMatcher 97 98 1) ∧
    ∀ t, pairMatcher 97 98 1 t = true → literalPrefixForRegex [97, 98, 43] <+: t := by
  have hcompile : pairRegex.compile [97, 98, 43] = .ok (pairMatcher 97 98 1) := rfl
  have hgrammar : Grammar [97, 98, 43] (pairMatcher 97 98 1) (pairTree 97 98 43 1) :=
    grammar_pair rfl (by decide) (by decide)
  apply ((regexpQuery_exact_iff pairRegex_ecma hcompile).2 _ hgrammar).mpr
  intro a ha
  cases ha

/-- `ab*` over an index with the term `a`: the term is matched and not returned. -/
theorem regexpQuery_star :
    pairRegex.Ecma ∧ pairRegex.compile [97, 98, 42] = .ok (pairMatcher 97 98 0) ∧
    WrittenIndex storeEnv storeReadEnv twoCalls (oneCall [97]) ∧ CapsOk storeEnv twoCalls ∧
    pairMatcher 97 98 0 [97] = true ∧ ¬ literalPrefixForRegex [97, 98, 42] <+: [97] ∧
    ∃ idx, OpensFrom storeEnv storeReadEnv twoCalls (oneCall [97]) idx ∧
      regexpQuery pairRegex storeReadEnv idx [97, 98, 42] = .ok [] ∧
      ¬ Returns (regexpQuery pairRegex storeReadEnv idx [97, 98, 42]) fun d =>
        ∃ tp ∈ (oneCall [97]).input.source.list, pairMatcher 97 98 0 tp.postings.term = true ∧
          d ∈ tp.postings.docids := by
  have hcompile : pairRegex.compile [97, 98, 42] = .ok (pairMatcher 97 98 0) := rfl
  have ha : oneCall [97] ∈ twoCalls := by simp [twoCalls]
  have hwritten := writtenIndex_twoCalls ha (List.pairwise_singleton _ _)
  have hnone : ¬ literalPrefixForRegex [97, 98, 42] <+: [97] := by decide
  obtain ⟨idx, hopens, docs, hout, -, hmem⟩ :=
    expansion_exact hwritten capsOk_twoCalls (literalPrefixForRegex [97, 98, 42]) (pairMatcher 97 98 0)
  rw [← regexpQuery_eq hcompile] at hout
  have hempty : docs = [] := by
    rw [List.eq_nil_iff_forall_not_mem]
    intro d hd
    obtain ⟨tp, htp, hleads, -⟩ := (hmem d).mp hd
    cases List.mem_singleton.mp htp
    exact hnone hleads
  rw [hempty] at hout
  refine ⟨pairRegex_ecma, hcompile, hwritten, capsOk_twoCalls, rfl, hnone, idx, hopens, hout, ?_⟩
  rintro ⟨docs, hdocs, -, hall⟩
  rw [hout] at hdocs
  cases hdocs
  have hdoc := (hall 0).mpr ⟨onePosting [97], List.mem_cons_self, rfl, List.mem_cons_self⟩
  cases hdoc

end Snii.Query.RegexpQuery
