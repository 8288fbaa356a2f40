import Snii.Query.TermQuery
import Snii.Writer.BudgetFreeFeed
import Snii.Writer.SortByDocid

/-!
# From tokens to answers

A feed of `add_token` calls is heard as terms at positions of documents, each term as a
string.  Whatever the memory budget was, the index that is built from the feed, added to a
session and opened from the finished container answers by what was heard: the docid
queries by the documents of the terms (`tokens_searched`), the phrase queries by their
positions (`tokens_phrases`).
-/

namespace Snii.Writer.SpimiTermBuffer

open Snii.Lib.ByteReader Snii.Lib.Grouping Snii.Lib.Aligned Snii.Common
open Snii.Writer.SpillRunCodec Snii.Writer.LogicalIndexWriter

/-! ## What a feed says -/

/-- The term, document and position of a call. -/
def Arrival.heardAs (vocab : List Bytes) : Arrival → Bytes × Nat × Nat
  | .byId termId docid pos => (vocab.getD termId [], docid, pos)
  | .byString term docid pos => (term, docid, pos)

def Token.heardAs (vocab : List Bytes) (t : Token) : Bytes × Nat × Nat :=
  (vocab.getD t.termId [], t.docid, t.pos)

variable {vocab vocab' : List Bytes} {toks : List Token} {owned : Bool}

theorem getD_append {id : Nat} (hid : id < vocab.length) (more : List Bytes) :
    (vocab ++ more).getD id [] = vocab.getD id [] := by
  rw [List.getD_eq_getElem?_getD, List.getD_eq_getElem?_getD, List.getElem?_append_left hid]

theorem getD_idxOf {term : Bytes} (h : term ∈ vocab) : vocab.getD (vocab.idxOf term) [] = term := by
  have hlt := List.idxOf_lt_length_of_mem h
  rw [List.getD_eq_getElem?_getD, List.getElem?_eq_getElem hlt, Option.getD_some,
    List.getElem_idxOf]

/-- A call's token is in the vocabulary it leaves, and says what the call says. -/
theorem Arrival.token_heardAs {a : Arrival} {t : Token} (hvocab : vocab.Nodup)
    (h : a.token owned vocab = some (t, vocab')) :
    vocab <+: vocab' ∧ vocab'.Nodup ∧ t.termId < vocab'.length ∧
      ∀ more, t.heardAs (vocab' ++ more) = a.heardAs (vocab' ++ more) := by
  cases a with
  | byId termId docid pos =>
      rw [Arrival.token, Option.ite_none_left_eq_some, Option.some.injEq, Prod.mk.injEq] at h
      obtain ⟨hid, rfl, rfl⟩ := h
      exact ⟨List.prefix_rfl, hvocab, Nat.lt_of_not_le hid, fun more => rfl⟩
  | byString term docid pos =>
      rw [Arrival.token, Option.ite_none_left_eq_some, Option.some.injEq, Prod.mk.injEq] at h
      obtain ⟨-, rfl, rfl⟩ := h
      by_cases hmem : term ∈ vocab
      · rw [if_pos (List.contains_iff_mem.mpr hmem)]
        have hlt := List.idxOf_lt_length_of_mem hmem
        refine ⟨List.prefix_rfl, hvocab, hlt, fun more => ?_⟩
        rw [Token.heardAs, getD_append hlt, getD_idxOf hmem]
        rfl
      · rw [if_neg fun hin => hmem (List.contains_iff_mem.mp hin)]
        have hidx : vocab.idxOf term = vocab.length := List.idxOf_eq_length hmem
        have hlt : vocab.idxOf term < (vocab ++ [term]).length := by simp [hidx]
        refine ⟨List.prefix_append _ _, ?_, hlt, fun more => ?_⟩
        · apply hvocab.append (List.nodup_singleton term)
          simpa using hmem
        · rw [Token.heardAs, getD_append hlt, hidx]
          simp [Arrival.heardAs]

/-- **A feed's tokens** say what its calls say, under the vocabulary they leave. -/
theorem arrivalTokens_heardAs {arrivals : List Arrival} (hvocab : vocab.Nodup)
    (h : arrivalTokens owned vocab arrivals = some (toks, vocab')) :
    vocab <+: vocab' ∧ vocab'.Nodup ∧ (∀ t ∈ toks, t.termId < vocab'.length) ∧
      toks.map (Token.heardAs vocab') = arrivals.map (Arrival.heardAs vocab') := by
  induction arrivals generalizing vocab toks with
  | nil =>
      rw [arrivalTokens, Option.some.injEq, Prod.mk.injEq] at h
      obtain ⟨rfl, rfl⟩ := h
      exact ⟨List.prefix_rfl, hvocab, by simp, rfl⟩
  | cons a arrivals ih =>
      rw [arrivalTokens, Option.bind_eq_some_iff] at h
      obtain ⟨⟨t, mid⟩, htok, hrest⟩ := h
      obtain ⟨⟨more, last⟩, hmore, heq⟩ := Option.map_eq_some_iff.mp hrest
      rw [Prod.mk.injEq] at heq
      obtain ⟨rfl, rfl⟩ := heq
      obtain ⟨hpre, hmid, hlt, hheard⟩ := Arrival.token_heardAs hvocab htok
      obtain ⟨hpre', hnodup, hall, hmap⟩ := ih hmid hmore
      refine ⟨hpre.trans hpre', hnodup, ?_, ?_⟩
      · exact List.forall_mem_cons.mpr ⟨Nat.lt_of_lt_of_le hlt hpre'.length_le, hall⟩
      · obtain ⟨behind, rfl⟩ := hpre'
        rw [List.map_cons, List.map_cons, hheard, hmap]

/-! ## The drained terms -/

theorem mem_toksOf {id d p : Nat} : (d, p) ∈ toksOf toks id ↔ ⟨id, d, p⟩ ∈ toks := by
  rw [toksOf, List.mem_map]
  constructor
  · rintro ⟨⟨id', d', p'⟩, ht, heq⟩
    obtain ⟨hin, hid⟩ := List.mem_filter.mp ht
    cases heq
    rwa [← of_decide_eq_true hid]
  · exact fun hin => ⟨⟨id, d, p⟩, List.mem_filter.mpr ⟨hin, by simp⟩, rfl⟩

/-- A document of a term's grouping with one of its positions. -/
theorem mem_group_iff {l : List Tok} {d p : Nat} :
    (∃ ps, (d, ps) ∈ group l ∧ p ∈ ps) ↔ (d, p) ∈ l := by
  rw [← (perm_ungroup_group l).mem_iff, ungroup, List.mem_flatMap]
  constructor
  · rintro ⟨ps, hps, hp⟩
    exact ⟨(d, ps), hps, List.mem_map.mpr ⟨p, hp, rfl⟩⟩
  · rintro ⟨⟨d', ps⟩, hps, hin⟩
    obtain ⟨p', hp, heq⟩ := List.mem_map.mp hin
    cases heq
    exact ⟨ps, hps, hp⟩

theorem mem_group_fst {l : List Tok} {d : Nat} :
    d ∈ (group l).map Prod.fst ↔ ∃ p, (d, p) ∈ l := by
  rw [List.mem_map]
  constructor
  · rintro ⟨⟨d', ps⟩, hin, rfl⟩
    obtain ⟨p, hp⟩ := List.exists_mem_of_ne_nil _ ((group_isGrouping l).nonempty _ hin)
    exact ⟨p, mem_group_iff.mp ⟨ps, hin, hp⟩⟩
  · rintro ⟨p, hp⟩
    obtain ⟨ps, hps, -⟩ := mem_group_iff.mpr hp
    exact ⟨(d, ps), hps, rfl⟩

/-- The strings of the drained ids ascend. -/
theorem sorted_dictIds (hvocab : vocab.Nodup) (hin : ∀ t ∈ toks, t.termId < vocab.length) :
    ((dictIds vocab toks).map fun id => vocab.getD id []).Pairwise (· < ·) := by
  have hle : (dictIds vocab toks).Pairwise (dictLe vocab) := List.pairwise_insertionSort _ _
  have hlt : ∀ id ∈ dictIds vocab toks, id < vocab.length := by
    intro id hid
    obtain ⟨t, ht, rfl⟩ := List.mem_map.mp (mem_dictIds.mp hid)
    exact hin t ht
  rw [List.pairwise_map]
  apply (hle.and (nodup_dictIds vocab toks)).imp_of_mem
  intro a b ha hb hab
  apply lt_of_le_of_ne hab.1
  exact fun heq => hab.2 (vocab_injective hvocab (hlt a ha) (hlt b hb) heq)

end Snii.Writer.SpimiTermBuffer

namespace Snii.Query.TokenSearch

open Snii.Lib.ByteReader Snii.Lib.Grouping Snii.Lib.Aligned Snii.Common Snii.Reader
open Snii.Query.DocidSetOps Snii.Query.DocidUnion Snii.Query.Conjunction Snii.Query.BooleanOr
open Snii.Query.PhraseQuery Snii.Query.PhrasePrefixQuery Snii.Query.WildcardQuery
open Snii.Query.TermQuery
open Snii.Query.ScoringQuery (DocSort)
open Snii.Format Snii.Format.PrxPod
open Snii.Writer.SpillRunCodec Snii.Writer.LogicalIndexWriter
open Snii.Writer.CompoundWriter
open Snii.Writer.SpimiTermBuffer hiding AddCall

/-! ## Postings of a drain -/

variable {vocab : List Bytes} {toks : List Token} {hasPrx hasPositions : Bool} {out : List Emitted}

section Postings

variable {e : Emitted} {term : Bytes} {g : List (Nat × List Nat)}

/-- Frequencies that add up to the number of positions are the counts of the documents. -/
theorem freqsOf_eq (h : (freqsOf g).sum = (g.flatMap Prod.snd).length) :
    freqsOf g = (g.map Prod.snd).map List.length := by
  have hle : ∀ l : List (Nat × List Nat), (freqsOf l).sum ≤ (l.flatMap Prod.snd).length := by
    intro l
    induction l with
    | nil => exact Nat.le_refl _
    | cons x l ih =>
        rw [freqsOf_cons, List.sum_cons, List.flatMap_cons, List.length_append]
        exact Nat.add_le_add (Nat.mod_le _ _) ih
  induction g with
  | nil => rfl
  | cons x g ih =>
      rw [freqsOf_cons, List.sum_cons, List.flatMap_cons, List.length_append] at h
      have hx : x.2.length % 2 ^ 32 ≤ x.2.length := Nat.mod_le _ _
      have hg := hle g
      rw [freqsOf_cons, ih (by omega), List.map_cons, List.map_cons]
      exact congrArg (· :: _) (by omega)

/-- An accepted term supplies the positions of its documents, one after another. -/
theorem suppliedPositions_lays (h : Lays (pumpCalls hasPrx) true e true term g)
    (hprx : hasPrx = true) (hvalid : validateTerm hasPrx e.postings = .ok ())
    (hcount : e.postings.docids.length < 2 ^ 32) :
    suppliedPositions e = g.flatMap Prod.snd := by
  have hdf : (entryStats e.postings).df = e.postings.docids.length := Nat.mod_eq_of_lt hcount
  have hlen : e.postings.docids.length = g.length := by rw [h.docids, List.length_map]
  rw [suppliedPositions]
  split
  case isTrue hwide =>
    rw [h.accepted_positions hprx hvalid (by rwa [hdf]), if_pos rfl]
  case isFalse hslim =>
    rw [hlen] at hslim hcount
    rw [h.slim_flat (by rw [Nat.mod_eq_of_lt hcount]; omega), if_pos ⟨hcount, rfl⟩]

/-- **An accepted term** pairs its documents with their positions. -/
theorem docRows_lays (h : Lays (pumpCalls hasPrx) true e true term g)
    (hprx : hasPrx = true) (hvalid : validateTerm hasPrx e.postings = .ok ())
    (hcount : e.postings.docids.length < 2 ^ 32) : docRows e = g := by
  have hsupplied := suppliedPositions_lays h hprx hvalid hcount
  have hannounced : announcedPositions e.postings = (g.flatMap Prod.snd).length := by
    rw [h.announced_eq, if_pos rfl]
  have hfreqs : (freqsOf g).sum = (g.flatMap Prod.snd).length := by
    rw [← h.freqs, (of_validateTerm hvalid).2 hprx, hannounced]
  rw [docRows, docPositions, hsupplied, h.docids, h.freqs, freqsOf_eq hfreqs, List.flatMap_def,
    splitCounts_lengths]
  exact (List.zip_of_prod rfl rfl).symm

end Postings

theorem mem_heardAs {t : Bytes} {d p : Nat} : (t, d, p) ∈ toks.map (Token.heardAs vocab) ↔
    ∃ id, vocab.getD id [] = t ∧ ⟨id, d, p⟩ ∈ toks := by
  rw [List.mem_map]
  constructor
  · rintro ⟨⟨id, d', p'⟩, hin, heq⟩
    cases heq
    exact ⟨id, rfl, hin⟩
  · rintro ⟨id, rfl, hin⟩
    exact ⟨_, hin, rfl⟩

/-- The terms of a drain come in order. -/
theorem sortedTerms_lays {plan : TermPostings → List Nat} {i : SniiIndexInput}
    (h : LaysAll plan true vocab hasPositions toks i.source.list) (hvocab : vocab.Nodup)
    (hin : ∀ t ∈ toks, t.termId < vocab.length) : SortedTerms i := by
  have hterms : termsOf i = (dictIds vocab toks).map fun id => vocab.getD id [] :=
    map_eq_of_forall₂ (fun _ _ hx => hx.term) h
  rw [SortedTerms, hterms]
  exact sorted_dictIds hvocab hin

/-- A document of a drained term was heard with the term. -/
theorem hasTerm_heardAs {plan : TermPostings → List Nat} {i : SniiIndexInput}
    (h : LaysAll plan true vocab hasPositions toks i.source.list) (t : Bytes) (d : Nat) :
    HasTerm i t d ↔ ∃ p, (t, d, p) ∈ toks.map (Token.heardAs vocab) := by
  constructor
  · rintro ⟨e, he, rfl, hd⟩
    obtain ⟨id, -, hlays⟩ := exists_right_of_mem h he
    rw [hlays.docids, mem_group_fst] at hd
    obtain ⟨p, hp⟩ := hd
    exact ⟨p, mem_heardAs.mpr ⟨id, hlays.term.symm, mem_toksOf.mp hp⟩⟩
  · rintro ⟨p, hp⟩
    obtain ⟨id, rfl, hin⟩ := mem_heardAs.mp hp
    have hid : id ∈ dictIds vocab toks := mem_dictIds.mpr (List.mem_map.mpr ⟨_, hin, rfl⟩)
    obtain ⟨e, he, hlays⟩ := exists_left_of_mem h hid
    refine ⟨e, he, hlays.term, ?_⟩
    rw [hlays.docids, mem_group_fst]
    exact ⟨p, mem_toksOf.mpr hin⟩

/-- A position of a drained term was heard with the term. -/
theorem termAt_heardAs {i : SniiIndexInput}
    (h : LaysAll (pumpCalls hasPrx) true vocab true toks i.source.list) (hprx : hasPrx = true)
    (hvalid : ∀ e ∈ i.source.list, validateTerm hasPrx e.postings = .ok () ∧
      e.postings.docids.length < 2 ^ 32) (t : Bytes) (d p : Nat) :
    TermAt i t d p ↔ (t, d, p) ∈ toks.map (Token.heardAs vocab) := by
  constructor
  · rintro ⟨e, he, rfl, ps, hps, hp⟩
    obtain ⟨id, -, hlays⟩ := exists_right_of_mem h he
    rw [docRows_lays hlays hprx (hvalid e he).1 (hvalid e he).2] at hps
    have hin := mem_toksOf.mp (mem_group_iff.mp ⟨ps, hps, hp⟩)
    exact mem_heardAs.mpr ⟨id, hlays.term.symm, hin⟩
  · intro hp
    obtain ⟨id, rfl, hin⟩ := mem_heardAs.mp hp
    have hid : id ∈ dictIds vocab toks := mem_dictIds.mpr (List.mem_map.mpr ⟨_, hin, rfl⟩)
    obtain ⟨e, he, hlays⟩ := exists_left_of_mem h hid
    obtain ⟨ps, hps, hmem⟩ := mem_group_iff.mpr (mem_toksOf.mpr hin)
    refine ⟨e, he, hlays.term, ps, ?_, hmem⟩
    rwa [docRows_lays hlays hprx (hvalid e he).1 (hvalid e he).2]

/-! ## Feeds -/

/-- The calls of a feed as terms at positions of documents; nothing of a refused feed. -/
def heard (f : IndexFeed) : List (Bytes × Nat × Nat) :=
  match arrivalTokens f.vocabulary.isOwned f.vocabulary.strings f.arrivals with
  | some (_, vocab) => f.arrivals.map (Arrival.heardAs vocab)
  | none => []

/-- A call that a session took, under a key of its own. -/
structure TakenBy (env : BuildEnv) (renv : ReadEnv) (adds : List AddCall)
    (a : AddCall) : Prop where
  libs : SameLibs env renv
  added : a ∈ added env adds
  keys : ((Reader.added env adds).map fun x => keyOf x.input).Nodup
  session : SessionOk adds (containerOf env adds)
  caps : CapsOk env adds

/-- The term was heard in the document. -/
def HeardIn (said : List (Bytes × Nat × Nat)) (t : Bytes) (d : Nat) : Prop := ∃ p, (t, d, p) ∈ said

/-- The terms were heard one after another, the first at the position. -/
def HeardAt (said : List (Bytes × Nat × Nat)) (terms : List Bytes) (d p : Nat) : Prop :=
  ∀ (k : Nat) t, terms[k]? = some t → (t, d, p + k) ∈ said

/-- The docid queries answer by what was heard. -/
structure DocidAnswers (srt : DocSort) (renv : ReadEnv) (idx : LogicalIndexReader)
    (said : List (Bytes × Nat × Nat)) : Prop where
  term : ∀ t, Returns (termQuery renv idx t) (HeardIn said t)
  conjunction : ∀ terms, terms ≠ [] →
    Returns (booleanAnd srt renv idx terms) fun d => ∀ t ∈ terms, HeardIn said t d
  disjunction : ∀ terms, Returns (booleanOr renv idx terms) fun d => ∃ t ∈ terms, HeardIn said t d
  expansion : ∀ pre, Returns (prefixQuery renv idx pre) fun d => ∃ t, pre <+: t ∧ HeardIn said t d
  wildcard : ∀ pattern, Returns (wildcardQuery renv idx pattern) fun d =>
    ∃ t, Glob pattern t ∧ HeardIn said t d

/-- The phrase queries answer by what was heard. -/
structure PositionAnswers (srt : DocSort) (renv : ReadEnv) (idx : LogicalIndexReader)
    (said : List (Bytes × Nat × Nat)) : Prop where
  phrase : ∀ terms : List Bytes, terms ≠ [] → terms.length < 2 ^ 32 - 1 →
    Returns (phraseQuery srt renv idx terms) fun d => ∃ p, HeardAt said terms d p
  phrasePrefix : ∀ (exact : List Bytes) pre, exact ≠ [] → exact.length + 1 < 2 ^ 32 - 1 →
    Returns (phrasePrefixQuery srt renv idx (exact ++ [pre])) fun d =>
      ∃ t p, pre <+: t ∧ HeardAt said (exact ++ [t]) d p

variable {f : IndexFeed} {β : Budget} {env : BuildEnv} {renv : ReadEnv} {adds : List AddCall}
  {a : AddCall}

theorem heard_eq (hf : f.Accepted toks)
    (htoks : arrivalTokens f.vocabulary.isOwned f.vocabulary.strings f.arrivals =
      some (toks, vocab)) :
    heard f = toks.map (Token.heardAs vocab) ∧ vocab.Nodup ∧ ∀ t ∈ toks, t.termId < vocab.length := by
  obtain ⟨-, hnodup, hin, hheard⟩ := arrivalTokens_heardAs hf.distinct htoks
  rw [heard, htoks]
  exact ⟨hheard.symm, hnodup, hin⟩

/-- The documents and positions that were heard are those of the written terms. -/
structure HearsAs (f : IndexFeed) (i : SniiIndexInput) : Prop where
  sorted : SortedTerms i
  hasTerm : ∀ t d, HasTerm i t d ↔ HeardIn (heard f) t d
  termAt : f.hasPositions = true → i.hasPrx = true →
    (∀ e ∈ i.source.list, validateTerm i.hasPrx e.postings = .ok () ∧
      e.postings.docids.length < 2 ^ 32) →
    ∀ t d p, TermAt i t d p ↔ (t, d, p) ∈ heard f

/-- **A fed index** holds what was heard, whatever the budget was. -/
theorem addCall_hearsAs (hf : f.Accepted toks) (hβ : β.Good) :
    ∃ a, f.addCall β = some a ∧ HearsAs f a.input := by
  obtain ⟨vocab, htoks⟩ := hf.tokens
  obtain ⟨out, hadd, hlays⟩ := IndexFeed.addCall_drained hf hβ htoks
  obtain ⟨hheard, hnodup, hin⟩ := heard_eq hf htoks
  refine ⟨_, hadd, ?_⟩
  constructor
  case sorted => exact sortedTerms_lays hlays hnodup hin
  case hasTerm =>
    intro t d
    rw [HeardIn, hheard]
    exact hasTerm_heardAs hlays t d
  case termAt =>
    intro hpositions hprx hvalid t d p
    rw [hheard]
    rw [hpositions] at hlays
    exact termAt_heardAs hlays hprx hvalid t d p

theorem TakenBy.written (h : TakenBy env renv adds a) (hs : SortedTerms a.input) :
    WrittenIndex env renv adds a :=
  ⟨h.libs, h.added, h.keys, h.session, hs⟩

theorem phraseAt_heard {i : SniiIndexInput} {said : List (Bytes × Nat × Nat)}
    (h : ∀ t d p, TermAt i t d p ↔ (t, d, p) ∈ said) (terms : List Bytes) (d p : Nat) :
    PhraseAt i terms d p ↔ HeardAt said terms d p := by
  constructor
  · exact fun hphrase k t ht => (h t d (p + k)).mp (hphrase k t ht)
  · exact fun hphrase k t ht => (h t d (p + k)).mpr (hphrase k t ht)

/-- **Docid queries answer by the tokens.**  A feed is indexed under any budget; once a
session has taken the index, the reader opened from the finished container answers
every docid query by the documents in which the terms were heard. -/
theorem tokens_searched (srt : DocSort) (hf : f.Accepted toks) (hβ : β.Good) :
    ∃ a, f.addCall β = some a ∧ ∀ env renv adds, TakenBy env renv adds a →
      ∃ idx, OpensFrom env renv adds a idx ∧ DocidAnswers srt renv idx (heard f) := by
  obtain ⟨a, ha, hears⟩ := addCall_hearsAs hf hβ
  refine ⟨a, ha, fun env renv adds htaken => ?_⟩
  obtain ⟨idx, hopens, w, blocks, region, dictOff, -, hin, hserves⟩ :=
    (htaken.written hears.sorted).serves htaken.caps
  have hs : SortedTerms w.input := hin ▸ hears.sorted
  have hterm : ∀ t d, HasTerm w.input t d ↔ HeardIn (heard f) t d := hin ▸ hears.hasTerm
  refine ⟨idx, hopens, ?_⟩
  constructor
  case term => exact fun t => (termQuery_returns hserves hs t).congr (hterm t)
  case conjunction =>
    intro terms hne
    apply (booleanAnd_returns srt hserves hs hne).congr
    exact fun d => forall₂_congr fun t _ => hterm t d
  case disjunction =>
    intro terms
    apply (booleanOr_returns hserves hs terms).congr
    intro d
    constructor
    · rintro ⟨tp, htp, hmem, hd⟩
      exact ⟨_, hmem, (hterm _ d).mp ⟨tp, htp, rfl, hd⟩⟩
    · rintro ⟨t, ht, hheard⟩
      obtain ⟨tp, htp, rfl, hd⟩ := (hterm t d).mpr hheard
      exact ⟨tp, htp, ht, hd⟩
  case expansion =>
    intro pre
    rw [prefixQuery_eq]
    apply (emitExpandedDocidUnion_returns hserves hs pre _).congr
    intro d
    constructor
    · rintro ⟨tp, htp, hpre, -, hd⟩
      exact ⟨_, hpre, (hterm _ d).mp ⟨tp, htp, rfl, hd⟩⟩
    · rintro ⟨t, hpre, hheard⟩
      obtain ⟨tp, htp, rfl, hd⟩ := (hterm t d).mpr hheard
      exact ⟨tp, htp, hpre, rfl, hd⟩
  case wildcard =>
    intro pattern
    apply (emitExpandedDocidUnion_returns hserves hs _ _).congr
    intro d
    constructor
    · rintro ⟨tp, htp, -, hmatch, hd⟩
      exact ⟨_, (wildcardMatch_iff _ _).mp hmatch, (hterm _ d).mp ⟨tp, htp, rfl, hd⟩⟩
    · rintro ⟨t, hglob, hheard⟩
      obtain ⟨tp, htp, rfl, hd⟩ := (hterm t d).mpr hheard
      exact ⟨tp, htp, literalPrefix_isPrefix hglob, (wildcardMatch_iff _ _).mpr hglob, hd⟩

/-- The terms that the feed of two terms drains. -/
def twoTermDrain : List Emitted :=
  [{ postings := { term := [97], docids := [1], freqs := [1], positionsFlat := [5] } },
    { postings := { term := [98], docids := [1, 2], freqs := [2, 1], positionsFlat := [4, 6, 0] } }]

def twoTermCall : AddCall :=
  { overCap := tightBudget.overCap
    input := { twoTermFeed.input with source := .drained (.ok ()) twoTermDrain } }

theorem accepted_twoTermFeed :
    twoTermFeed.Accepted [⟨0, 1, 4⟩, ⟨1, 1, 5⟩, ⟨0, 1, 6⟩, ⟨0, 2, 0⟩] := by
  have hord : InOrder [⟨0, 1, 4⟩, ⟨1, 1, 5⟩, ⟨0, 1, 6⟩, ⟨0, 2, 0⟩] := by
    intro id
    have hdocs : ([⟨0, 1, 4⟩, ⟨1, 1, 5⟩, ⟨0, 1, 6⟩, ⟨0, 2, 0⟩] : List Token).Pairwise
        fun a b => a.docid ≤ b.docid := by decide
    exact List.pairwise_map.mpr (hdocs.filter _)
  exact ⟨by decide, ⟨[[98], [97]], by decide⟩, by unfold Token.Valid; decide, hord, by decide⟩

theorem good_tightBudget : tightBudget.Good :=
  ⟨fun _ => ⟨rfl, rfl, fun _ => rfl, rfl⟩, ⟨rfl, rfl, fun _ => rfl, rfl⟩⟩

theorem addCall_twoTermFeed : twoTermFeed.addCall tightBudget = some twoTermCall := by
  obtain ⟨vocab, htoks⟩ := accepted_twoTermFeed.tokens
  obtain ⟨out, hadd, -⟩ := IndexFeed.addCall_drained accepted_twoTermFeed good_tightBudget htoks
  have hout : (twoTermFeed.addCall tightBudget).map (fun a => a.input.source.list) =
      some twoTermDrain := by decide +kernel
  rw [hadd, Option.map_some, Option.some.injEq] at hout
  have hdrain : out = twoTermDrain := hout
  rw [hadd, hdrain]
  rfl

theorem takenBy_twoTermCall : TakenBy storeEnv storeReadEnv [twoTermCall] twoTermCall := by
  have hadded : added storeEnv [twoTermCall] = [twoTermCall] := by
    apply added_of_statuses
    decide +kernel
  constructor
  case libs => exact sameLibs_store
  case added => rw [hadded]; exact List.mem_singleton_self _
  case keys => rw [hadded]; exact List.nodup_singleton _
  case session => exact ⟨by decide +kernel, by decide, by decide +kernel⟩
  case caps =>
    apply capsOk_of_capsHold
    rw [List.forall_mem_singleton]
    decide +kernel

theorem tokens_searched_twoTermFeed : ∃ idx,
    OpensFrom storeEnv storeReadEnv [twoTermCall] twoTermCall idx ∧
      DocidAnswers DocSort.stable storeReadEnv idx
        [([98], 1, 4), ([97], 1, 5), ([98], 1, 6), ([98], 2, 0)] := by
  obtain ⟨a, ha, hall⟩ :=
    tokens_searched DocSort.stable accepted_twoTermFeed good_tightBudget
  rw [addCall_twoTermFeed, Option.some.injEq] at ha
  cases ha
  exact hall storeEnv storeReadEnv [twoTermCall] takenBy_twoTermCall

/-- **Phrase queries answer by the tokens.**  Of a feed with positions, indexed under any
budget with its positions within the reader's caps, the phrases that are found are those
that were heard. -/
theorem tokens_phrases (srt : DocSort) (hf : f.Accepted toks) (hβ : β.Good)
    (hpositions : f.hasPositions = true) (hprx : f.input.hasPrx = true) :
    ∃ a, f.addCall β = some a ∧ ∀ env renv adds, TakenBy env renv adds a →
      (∀ e ∈ a.input.source.list, PositionsFit e) →
      ∃ idx, OpensFrom env renv adds a idx ∧ PositionAnswers srt renv idx (heard f) := by
  obtain ⟨a, ha, hears⟩ := addCall_hearsAs hf hβ
  obtain ⟨vocab, htoks⟩ := hf.tokens
  obtain ⟨out, hadd, -⟩ := IndexFeed.addCall_drained hf hβ htoks
  have hcall : a.input.hasPrx = true := by
    rw [hadd, Option.some.injEq] at ha
    rw [← ha]
    exact hprx
  refine ⟨a, ha, fun env renv adds htaken hfit => ?_⟩
  obtain ⟨idx, hopens, w, blocks, region, dictOff, -, hin, hserves⟩ :=
    (htaken.written hears.sorted).serves htaken.caps
  have hs : SortedTerms w.input := hin ▸ hears.sorted
  have hvalid : ∀ e ∈ w.input.source.list, validateTerm w.input.hasPrx e.postings = .ok () ∧
      e.postings.docids.length < 2 ^ 32 := by
    intro e he
    obtain ⟨r, -, hat⟩ := exists_right_of_mem hserves.built.wrote.each he
    exact ⟨hat.valid, (hserves.widths e he).count⟩
  have hat : ∀ t d p, TermAt w.input t d p ↔ (t, d, p) ∈ heard f := by
    rw [hin] at hvalid ⊢
    exact hears.termAt hpositions hcall hvalid
  have hfit' : ∀ tp ∈ w.input.source.list, PositionsFit tp := by rwa [hin]
  have hprx' : w.input.hasPrx = true := by rwa [hin]
  refine ⟨idx, hopens, ?_⟩
  constructor
  case phrase =>
    intro terms hne hlen
    apply ((phraseQuery_answers srt hserves hs hprx' hfit' hne).exact hlen).congr
    exact fun d => exists_congr fun p => phraseAt_heard hat terms d p
  case phrasePrefix =>
    intro exact pre hne hlen
    have hpos : 0 < exact.length := List.length_pos_iff.mpr hne
    have hcount : (exact ++ [pre]).length = exact.length + 1 := by
      rw [List.length_append, List.length_singleton]
    apply ((phrasePrefixQuery_answers srt hserves hs hprx' hfit' (by omega)).exact
      (by omega)).congr
    intro d
    constructor
    · rintro ⟨p, hphrase⟩
      obtain ⟨t, ht, hphrase⟩ := phrasePrefixAt_concat.mp hphrase
      obtain ⟨-, -, -, hpre⟩ := mem_completions.mp ht
      exact ⟨t, p, hpre, (phraseAt_heard hat _ d p).mp hphrase⟩
    · rintro ⟨t, p, hpre, hphrase⟩
      have hphrase := (phraseAt_heard hat _ d p).mpr hphrase
      obtain ⟨tp, htp, hterm, -⟩ := (phraseAt_concat.mp hphrase).2
      refine ⟨p, phrasePrefixAt_concat.mpr ⟨t, ?_, hphrase⟩⟩
      exact mem_completions.mpr ⟨tp, htp, hterm, hpre⟩

theorem tokens_phrases_twoTermFeed : ∃ idx,
    OpensFrom storeEnv storeReadEnv [twoTermCall] twoTermCall idx ∧
      PositionAnswers DocSort.stable storeReadEnv idx
        [([98], 1, 4), ([97], 1, 5), ([98], 1, 6), ([98], 2, 0)] := by
  obtain ⟨a, ha, hall⟩ :=
    tokens_phrases DocSort.stable accepted_twoTermFeed good_tightBudget rfl rfl
  rw [addCall_twoTermFeed, Option.some.injEq] at ha
  cases ha
  exact hall storeEnv storeReadEnv [twoTermCall] takenBy_twoTermCall (by decide +kernel)

end Snii.Query.TokenSearch
