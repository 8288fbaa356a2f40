import Snii.Query.BooleanOr
import Snii.Query.PhrasePrefixQuery
import Snii.Query.WildcardQuery

/-!
# Queries of one term, and queries made of them

`term_query.cpp`: a term is looked up and its posting is read.  Over a written index the
other queries are made of its answers: a conjunction is their intersection and a
disjunction their union (`booleans_compose`), an expansion is the union over the terms
that complete its prefix, and so is a phrase with a prefix at its end
(`expansions_compose`).
-/

namespace Snii.Query.TermQuery

open Snii.Lib.ByteReader Snii.Lib.Aligned Snii.Common Snii.Reader
open Snii.Query.DocidPosting Snii.Query.DocidSetOps Snii.Query.DocidUnion
open Snii.Query.Conjunction Snii.Query.BooleanOr Snii.Query.PhraseQuery
open Snii.Query.PhrasePrefixQuery Snii.Query.WildcardQuery
open Snii.Query.ScoringQuery (DocSort)
open Snii.Format.DictBlock (DictBlockBuilder)
open Snii.Writer.SpillRunCodec Snii.Writer.LogicalIndexWriter Snii.Writer.CompoundWriter

def termQuery (env : ReadEnv) (idx : LogicalIndexReader) (term : Bytes) : Result (List Nat) := do
  let hit ← lookup env idx term
  match hit with
  | none => pure []
  | some r => readDocidPosting env.zstd idx r

variable {env : BuildEnv} {renv : ReadEnv} {idx : LogicalIndexReader} {w : BuiltIndex}
  {blocks : List DictBlockBuilder} {region : Bytes} {dictOff : Nat}

/-! ## One term -/

/-- **One term** over an index that serves what was written. -/
theorem termQuery_returns (h : Serves env renv idx w blocks region dictOff)
    (hs : SortedTerms w.input) (t : Bytes) :
    Returns (termQuery renv idx t) (HasTerm w.input t) := by
  have hlookup := h.lookup hs t
  rw [← entryOf] at hlookup
  rw [termQuery, hlookup, ok_bind]
  cases hfind : entryOf blocks t with
  | none =>
      refine ⟨[], rfl, List.Pairwise.nil, fun d => ⟨fun hd => (by cases hd), ?_⟩⟩
      rintro ⟨tp, htp, rfl, -⟩
      obtain ⟨r, hr, hheld⟩ := exists_right_of_mem (holding h) htp
      rw [← hheld.term, entryOf_mem h hs hr] at hfind
      cases hfind
  | some r =>
      obtain ⟨hr, rfl⟩ := entryOf_some hfind
      obtain ⟨tp, htp, hheld⟩ := exists_left_of_mem (holding h) hr
      refine ⟨tp.postings.docids, ?_, hheld.ascending, fun d => ?_⟩
      · rw [Option.map_some, h.zstd]
        exact readDocidPosting_ok h.holds.size hheld.docs
      · constructor
        · exact fun hd => ⟨tp, htp, hheld.term.symm, hd⟩
        · rintro ⟨tp', htp', hterm, hd⟩
          rwa [term_unique hs htp htp' (hheld.term.symm.trans hterm.symm)]

/-! ## Answers put together -/

/-- The intersection of answers, the first with that of the others. -/
def intersectAll : List (List Nat) → List Nat
  | [] => []
  | [docs] => docs
  | docs :: more => intersectSorted docs (intersectAll more)

theorem intersectAll_spec {lists : List (List Nat)} (hne : lists ≠ [])
    (h : ∀ docs ∈ lists, Ascending docs) :
    Ascending (intersectAll lists) ∧ ∀ d, d ∈ intersectAll lists ↔ ∀ docs ∈ lists, d ∈ docs := by
  induction lists with
  | nil => exact absurd rfl hne
  | cons docs more ih =>
      obtain ⟨hdocs, hmore⟩ := List.forall_mem_cons.mp h
      cases more with
      | nil => exact ⟨hdocs, fun d => by rw [intersectAll, List.forall_mem_singleton]⟩
      | cons next more =>
          obtain ⟨hasc, hmem⟩ := ih (List.cons_ne_nil _ _) hmore
          have hcut : intersectAll (docs :: next :: more) =
              intersectSorted docs (intersectAll (next :: more)) := rfl
          rw [hcut]
          refine ⟨ascending_intersectSorted hdocs hasc, fun d => ?_⟩
          rw [mem_intersectSorted hdocs hasc, hmem, @List.forall_mem_cons _ _ docs]

/-- The answers of several queries, one after another. -/
structure Answers {α : Type} (query : α → Result (List Nat)) (holds : α → Nat → Prop)
    (xs : List α) (answers : List (List Nat)) : Prop where
  run : xs.mapM query = .ok answers
  each : List.Forall₂ (fun x docs => Ascending docs ∧ ∀ d, d ∈ docs ↔ holds x d) xs answers

section Answers

variable {α : Type} {query : α → Result (List Nat)} {holds : α → Nat → Prop} {xs : List α}
  {answers : List (List Nat)}

theorem answers_of_returns (xs : List α) (h : ∀ x ∈ xs, Returns (query x) (holds x)) :
    ∃ answers, Answers query holds xs answers := by
  have heach : ∀ x ∈ xs, ∃ docs, query x = .ok docs ∧ Ascending docs ∧
      ∀ d, d ∈ docs ↔ holds x d := h
  obtain ⟨answers, hanswers⟩ := exists_forall₂ heach
  refine ⟨answers, ?_, hanswers.imp fun _ _ hx => hx.2⟩
  clear h heach
  induction hanswers with
  | nil => rfl
  | cons hx _ ih =>
      rw [List.mapM_cons, hx.1, ok_bind, ih]
      rfl

theorem Answers.ascending (h : Answers query holds xs answers) :
    ∀ docs ∈ answers, Ascending docs := by
  intro docs hdocs
  obtain ⟨x, -, hx⟩ := exists_left_of_mem h.each hdocs
  exact hx.1

/-- The union of the answers. -/
theorem Answers.union (h : Answers query holds xs answers) :
    Returns (.ok (unionSortedMany answers)) fun d => ∃ x ∈ xs, holds x d := by
  obtain ⟨hasc, hmem⟩ := unionSortedMany_spec h.ascending
  refine ⟨_, rfl, hasc, fun d => (hmem d).trans ?_⟩
  constructor
  · rintro ⟨docs, hdocs, hd⟩
    obtain ⟨x, hx, hboth⟩ := exists_left_of_mem h.each hdocs
    exact ⟨x, hx, (hboth.2 d).mp hd⟩
  · rintro ⟨x, hx, hd⟩
    obtain ⟨docs, hdocs, hboth⟩ := exists_right_of_mem h.each hx
    exact ⟨docs, hdocs, (hboth.2 d).mpr hd⟩

/-- The intersection of the answers. -/
theorem Answers.inter (h : Answers query holds xs answers) (hne : xs ≠ []) :
    Returns (.ok (intersectAll answers)) fun d => ∀ x ∈ xs, holds x d := by
  obtain ⟨hasc, hmem⟩ := intersectAll_spec (ne_nil_of_forall₂ h.each hne) h.ascending
  refine ⟨_, rfl, hasc, fun d => (hmem d).trans ?_⟩
  constructor
  · intro hall x hx
    obtain ⟨docs, hdocs, hboth⟩ := exists_right_of_mem h.each hx
    exact (hboth.2 d).mp (hall docs hdocs)
  · intro hall docs hdocs
    obtain ⟨x, hx, hboth⟩ := exists_left_of_mem h.each hdocs
    exact (hboth.2 d).mpr (hall x hx)

end Answers

/-! ## Booleans -/

/-- **Booleans are made of their terms' answers**: over every written index within the
reader's cap each term of the list is answered, a disjunction returns the union of these
answers and a conjunction their intersection, repeats and absent terms included. -/
theorem booleans_compose {adds : List AddCall} {a : AddCall} (srt : DocSort)
    (h : WrittenIndex env renv adds a) (hcaps : CapsOk env adds) :
    ∃ idx, OpensFrom env renv adds a idx ∧
      (∀ t, Returns (termQuery renv idx t) (HasTerm a.input t)) ∧
      ∀ terms, ∃ answers, terms.mapM (termQuery renv idx) = .ok answers ∧
        booleanOr renv idx terms = .ok (unionSortedMany answers) ∧
        booleanAnd srt renv idx terms = .ok (intersectAll answers) := by
  obtain ⟨idx, hopens, w, blocks, region, dictOff, -, hin, hserves⟩ := h.serves hcaps
  have hs : SortedTerms w.input := hin ▸ h.sorted
  have hterm := termQuery_returns hserves hs
  rw [hin] at hterm
  refine ⟨idx, hopens, hterm, fun terms => ?_⟩
  obtain ⟨answers, hanswers⟩ := answers_of_returns terms fun t _ => hterm t
  refine ⟨answers, hanswers.run, ?_, ?_⟩
  · have hor := booleanOr_returns hserves hs terms
    rw [hin] at hor
    apply Returns.eq (hor.congr fun d => ?_) hanswers.union
    constructor
    · rintro ⟨tp, htp, hmem, hd⟩
      exact ⟨_, hmem, tp, htp, rfl, hd⟩
    · rintro ⟨t, ht, tp, htp, rfl, hd⟩
      exact ⟨tp, htp, ht, hd⟩
  · cases terms with
    | nil =>
        cases hanswers.each
        rfl
    | cons t more =>
        have hand := booleanAnd_returns srt hserves hs (List.cons_ne_nil t more)
        rw [hin] at hand
        exact Returns.eq hand (hanswers.inter (List.cons_ne_nil t more))

theorem booleans_compose_repeats : ∃ idx,
    OpensFrom storeEnv storeReadEnv twoCalls positionalCall idx ∧ ∃ answers,
      [[97], [98], [97]].mapM (termQuery storeReadEnv idx) = .ok answers ∧
        booleanAnd DocSort.stable storeReadEnv idx [[97], [98], [97]] =
          .ok (intersectAll answers) := by
  obtain ⟨idx, hopens, -, hboth⟩ :=
    booleans_compose DocSort.stable positional_written capsOk_twoCalls
  obtain ⟨answers, hrun, -, hand⟩ := hboth [[97], [98], [97]]
  exact ⟨idx, hopens, answers, hrun, hand⟩

/-! ## Expansions -/

/-- The terms of an index that complete a prefix. -/
def completions (i : SniiIndexInput) (pre : Bytes) : List Bytes :=
  (termsOf i).filter (pre.isPrefixOf ·)

theorem mem_completions {i : SniiIndexInput} {pre t : Bytes} : t ∈ completions i pre ↔
    ∃ tp ∈ i.source.list, tp.postings.term = t ∧ pre <+: t := by
  rw [completions, List.mem_filter, termsOf, List.mem_map, List.isPrefixOf_iff_prefix]
  constructor
  · rintro ⟨⟨tp, htp, hterm⟩, hpre⟩
    exact ⟨tp, htp, hterm, hpre⟩
  · rintro ⟨tp, htp, hterm, hpre⟩
    exact ⟨⟨tp, htp, hterm⟩, hpre⟩

theorem prefixQuery_eq (renv : ReadEnv) (idx : LogicalIndexReader) (pre : Bytes) :
    prefixQuery renv idx pre = emitExpandedDocidUnion renv idx pre fun _ => true := by
  simp only [prefixQuery, emitExpandedDocidUnion, List.filter_true]

/-- An expansion is the union over the completions that the matcher accepts. -/
theorem expansion_compose (h : Serves env renv idx w blocks region dictOff)
    (hs : SortedTerms w.input) (pre : Bytes) (accepts : Bytes → Bool) :
    Returns (emitExpandedDocidUnion renv idx pre accepts) fun d =>
      ∃ t ∈ (completions w.input pre).filter accepts, HasTerm w.input t d := by
  apply (emitExpandedDocidUnion_returns h hs pre accepts).congr
  intro d
  constructor
  · rintro ⟨tp, htp, hpre, haccepts, hd⟩
    have hmem := mem_completions.mpr ⟨tp, htp, rfl, hpre⟩
    exact ⟨_, List.mem_filter.mpr ⟨hmem, haccepts⟩, tp, htp, rfl, hd⟩
  · rintro ⟨t, ht, tp, htp, rfl, hd⟩
    obtain ⟨hmem, haccepts⟩ := List.mem_filter.mp ht
    obtain ⟨-, -, -, hpre⟩ := mem_completions.mp hmem
    exact ⟨tp, htp, hpre, haccepts, hd⟩

/-- A byte string without wildcards. -/
def Plain (pattern : Bytes) : Prop := ∀ c ∈ pattern, c ≠ kStar ∧ c ≠ kOne

theorem literalPrefix_plain {pattern : Bytes} (h : Plain pattern) (more : Bytes) :
    literalPrefixForWildcard (pattern ++ kStar :: more) = pattern := by
  rw [literalPrefixForWildcard, List.takeWhile_append_of_pos]
  · simp
  · intro c hc
    simpa using h c hc

theorem phraseAt_concat {i : SniiIndexInput} {terms : List Bytes} {t : Bytes} {d p : Nat} :
    PhraseAt i (terms ++ [t]) d p ↔ PhraseAt i terms d p ∧ TermAt i t d (p + terms.length) := by
  constructor
  · intro h
    constructor
    · intro k x hx
      apply h k x
      rw [List.getElem?_append_left (List.getElem?_eq_some_iff.mp hx).1]
      exact hx
    · exact h terms.length t (by simp)
  · rintro ⟨hterms, ht⟩ k x hx
    by_cases hk : k < terms.length
    · rw [List.getElem?_append_left hk] at hx
      exact hterms k x hx
    · rw [List.getElem?_append_right (Nat.not_lt.mp hk), List.getElem?_singleton] at hx
      split at hx
      · rename_i hzero
        cases hx
        have hlast : k = terms.length := by omega
        rwa [hlast]
      · cases hx

theorem phrasePrefixAt_concat {i : SniiIndexInput} {exact : List Bytes} {pre : Bytes} {d p : Nat} :
    PhrasePrefixAt i (exact ++ [pre]) d p ↔
      ∃ t ∈ completions i pre, PhraseAt i (exact ++ [t]) d p := by
  rw [PhrasePrefixAt, List.dropLast_concat, List.getLastD_concat, List.length_append]
  constructor
  · rintro ⟨hexact, tp, htp, hpre, hoccurs⟩
    refine ⟨tp.postings.term, mem_completions.mpr ⟨tp, htp, rfl, hpre⟩, ?_⟩
    exact phraseAt_concat.mpr ⟨hexact, tp, htp, rfl, hoccurs⟩
  · rintro ⟨t, ht, hphrase⟩
    obtain ⟨hexact, tp, htp, hterm, hoccurs⟩ := phraseAt_concat.mp hphrase
    obtain ⟨-, -, -, hpre⟩ := mem_completions.mp ht
    exact ⟨hexact, tp, htp, hterm ▸ hpre, hoccurs⟩

/-- A phrase with a prefix at its end is the union of the phrases with a completion. -/
theorem phrasePrefix_compose (srt : DocSort) (h : Serves env renv idx w blocks region dictOff)
    (hs : SortedTerms w.input) (hprx : w.input.hasPrx = true)
    (hfit : ∀ tp ∈ w.input.source.list, PositionsFit tp) {exact : List Bytes} (hne : exact ≠ [])
    (hlen : exact.length + 1 < 2 ^ 32 - 1) (pre : Bytes) :
    ∃ answers, (completions w.input pre).mapM (fun t => phraseQuery srt renv idx (exact ++ [t])) =
        .ok answers ∧
      phrasePrefixQuery srt renv idx (exact ++ [pre]) = .ok (unionSortedMany answers) := by
  have hcount : ∀ t : Bytes, (exact ++ [t]).length = exact.length + 1 := fun t => by
    rw [List.length_append, List.length_singleton]
  have hpos : 0 < exact.length := List.length_pos_iff.mpr hne
  have hone : ∀ t ∈ completions w.input pre,
      Returns (phraseQuery srt renv idx (exact ++ [t])) fun d =>
        ∃ p, PhraseAt w.input (exact ++ [t]) d p := by
    intro t _
    apply (phraseQuery_answers srt h hs hprx hfit (List.concat_ne_nil t exact)).exact
    rwa [hcount]
  obtain ⟨answers, hanswers⟩ := answers_of_returns _ hone
  refine ⟨answers, hanswers.run, ?_⟩
  have hwhole := (phrasePrefixQuery_answers srt h hs hprx hfit
    (show 2 ≤ (exact ++ [pre]).length by rw [hcount]; omega)).exact (by rwa [hcount])
  apply Returns.eq (hwhole.congr fun d => ?_) hanswers.union
  constructor
  · rintro ⟨p, hphrase⟩
    obtain ⟨t, ht, hat⟩ := phrasePrefixAt_concat.mp hphrase
    exact ⟨t, ht, p, hat⟩
  · rintro ⟨t, ht, p, hat⟩
    exact ⟨p, phrasePrefixAt_concat.mpr ⟨t, ht, hat⟩⟩

/-- The prefix query of a prefix, and the wildcard queries that amount to it or to one term. -/
structure ExpandsTo (renv : ReadEnv) (idx : LogicalIndexReader) (i : SniiIndexInput) (pre : Bytes) :
    Prop where
  union : ∃ answers, (completions i pre).mapM (termQuery renv idx) = .ok answers ∧
    prefixQuery renv idx pre = .ok (unionSortedMany answers)
  star : Plain pre → wildcardQuery renv idx (pre ++ [kStar]) = prefixQuery renv idx pre
  plain : Plain pre → wildcardQuery renv idx pre = termQuery renv idx pre

theorem expandsTo_of_serves (h : Serves env renv idx w blocks region dictOff)
    (hs : SortedTerms w.input) (pre : Bytes) : ExpandsTo renv idx w.input pre := by
  have hprefix := expansion_compose h hs pre fun _ => true
  rw [List.filter_true, ← prefixQuery_eq] at hprefix
  constructor
  case union =>
    obtain ⟨answers, hanswers⟩ := answers_of_returns (completions w.input pre)
      fun t _ => termQuery_returns h hs t
    exact ⟨answers, hanswers.run, Returns.eq hprefix hanswers.union⟩
  case star =>
    intro hplain
    have hstar := expansion_compose h hs pre (wildcardMatch (pre ++ [kStar]))
    rw [wildcardQuery, literalPrefix_plain hplain]
    apply Returns.eq (hstar.congr fun d => ?_) hprefix
    -- what completes the prefix matches it with a star behind
    have hall : ∀ t ∈ completions w.input pre, wildcardMatch (pre ++ [kStar]) t = true := by
      intro t ht
      obtain ⟨-, -, -, more, rfl⟩ := mem_completions.mp ht
      rw [wildcardMatch_iff, Glob, Lib.Glob.matches_append]
      exact ⟨pre, more, rfl, (Lib.Glob.matches_plain hplain).mpr rfl, Lib.Glob.matches_star⟩
    rw [List.filter_eq_self.mpr hall]
  case plain =>
    intro hplain
    have hliteral : literalPrefixForWildcard pre = pre := by
      rw [literalPrefixForWildcard, List.takeWhile_eq_self_iff]
      intro c hc
      simpa using hplain c hc
    have hone := expansion_compose h hs pre (wildcardMatch pre)
    rw [wildcardQuery, hliteral]
    apply Returns.eq (hone.congr fun d => ?_) (termQuery_returns h hs pre)
    constructor
    · rintro ⟨t, ht, hd⟩
      have hmatch := (List.mem_filter.mp ht).2
      rw [wildcardMatch_iff, Glob, Lib.Glob.matches_plain hplain] at hmatch
      exact hmatch ▸ hd
    · rintro ⟨tp, htp, hterm, hd⟩
      refine ⟨pre, List.mem_filter.mpr ⟨?_, ?_⟩, tp, htp, hterm, hd⟩
      · exact mem_completions.mpr ⟨tp, htp, hterm, List.prefix_rfl⟩
      · rw [wildcardMatch_iff, Glob, Lib.Glob.matches_plain hplain]

/-- **Expansions are made of their completions' answers**: over every written index
within the reader's cap a prefix query is the union of the queries for the terms that
complete the prefix, and with positions a phrase with a prefix at its end is the union of
the phrases that end in one of them. -/
theorem expansions_compose {adds : List AddCall} {a : AddCall} (srt : DocSort)
    (h : WrittenIndex env renv adds a) (hcaps : CapsOk env adds) :
    ∃ idx, OpensFrom env renv adds a idx ∧ ∀ pre, ExpandsTo renv idx a.input pre ∧
      (a.input.hasPrx = true → (∀ tp ∈ a.input.source.list, PositionsFit tp) →
        ∀ exact : List Bytes, exact ≠ [] → exact.length + 1 < 2 ^ 32 - 1 →
          ∃ answers, (completions a.input pre).mapM
              (fun t => phraseQuery srt renv idx (exact ++ [t])) = .ok answers ∧
            phrasePrefixQuery srt renv idx (exact ++ [pre]) = .ok (unionSortedMany answers)) := by
  obtain ⟨idx, hopens, w, blocks, region, dictOff, -, hin, hserves⟩ := h.serves hcaps
  have hs : SortedTerms w.input := hin ▸ h.sorted
  refine ⟨idx, hopens, fun pre => ⟨?_, fun hprx hfit exact hne hlen => ?_⟩⟩
  · have hexpands := expandsTo_of_serves hserves hs pre
    rwa [hin] at hexpands
  · have hphrase := phrasePrefix_compose srt hserves hs (hin ▸ hprx) (by rw [hin]; exact hfit) hne
      hlen pre
    rwa [hin] at hphrase

theorem expansions_compose_empty : ∃ idx,
    OpensFrom storeEnv storeReadEnv twoCalls positionalCall idx ∧
      wildcardQuery storeReadEnv idx [97, kStar] = prefixQuery storeReadEnv idx [97] ∧
      ∃ answers, (completions positionalCall.input []).mapM
          (fun t => phraseQuery DocSort.stable storeReadEnv idx [[97], t]) = .ok answers ∧
        phrasePrefixQuery DocSort.stable storeReadEnv idx [[97], []] =
          .ok (unionSortedMany answers) := by
  obtain ⟨idx, hopens, hboth⟩ := expansions_compose DocSort.stable positional_written
    capsOk_twoCalls
  have hplain : Plain [97] := by
    intro c hc
    rw [List.mem_singleton.mp hc]
    decide
  exact ⟨idx, hopens, (hboth [97]).1.star hplain,
    (hboth []).2 rfl positional_fit [[97]] (List.cons_ne_nil _ _)
      (by rw [List.length_singleton]; omega)⟩

end Snii.Query.TermQuery
