import Snii.Query.Conjunction
import Snii.Reader.DictionaryRoundTrip

/-!
# Conjunctions of terms

`boolean_and` of `phrase_query.cpp`: the terms are looked up one by one, and the
documents that all of them hold are found by the conjunction over windows.  Over a
written index the result is the intersection of the terms' documents
(`booleanAnd_exact`).
-/

namespace Snii.Query.Conjunction

open Snii.Lib.ByteReader Snii.Lib.Aligned Snii.Common Snii.Io.FileReader Snii.Io.BatchRangeFetcher
open Snii.Reader Snii.Query.DocidSetOps Snii.Query.DocidUnion
open Snii.Query.ScoringQuery (DocSort)
open Snii.Encoding.Compression
open Snii.Format.Dict (DictEntry.stored_enc)
open Snii.Format.DictBlock (DictBlockBuilder Resolved)
open Snii.Writer.SpillRunCodec Snii.Writer.LogicalIndexWriter Snii.Writer.CompoundWriter

/-! ## Looking terms up -/

section Plans

variable {env : ReadEnv} {idx : LogicalIndexReader} {needPositions : Bool}

/-- Terms that are found are planned as their entries. -/
theorem planTerms_found {terms : List Bytes} {rs : List Resolved}
    (h : List.Forall₂ (fun t r => lookup env idx t = .ok (some r)) terms rs) (reqs : List Range) :
    planTerms env idx needPositions reqs terms =
      (do let planned ← planResolvedTerms idx needPositions reqs rs; pure (some planned)) := by
  induction h generalizing reqs with
  | nil => rfl
  | @cons t r terms rs hlookup _ ih =>
      rw [planTerms, hlookup, ok_bind]
      simp only
      rw [planResolvedTerms]
      cases hconf : configureTermPlan idx needPositions reqs r with
      | error e => rfl
      | ok x =>
          rw [ok_bind, ok_bind]
          simp only
          rw [ih]
          cases planResolvedTerms idx needPositions x.2 rs <;> rfl

/-- Whatever stands around it, an absent term leaves no plan. -/
theorem planTerms_absent {z : Zstd} {terms : List Bytes}
    (hfound : ∀ t ∈ terms, ∃ hit, lookup env idx t = .ok hit ∧
      ∀ r, hit = some r → ∃ x : TermRead, x.posting = r ∧ x.Ok z idx needPositions)
    (habsent : ∃ t ∈ terms, lookup env idx t = .ok none) (reqs : List Range) :
    planTerms env idx needPositions reqs terms = .ok none := by
  induction terms generalizing reqs with
  | nil =>
      obtain ⟨t, ht, -⟩ := habsent
      cases ht
  | cons t terms ih =>
      obtain ⟨hit, hlookup, hread⟩ := hfound t List.mem_cons_self
      rw [planTerms, hlookup, ok_bind]
      cases hit with
      | none => rfl
      | some r =>
          obtain ⟨x, hx, hok⟩ := hread r rfl
          obtain ⟨p, hp, -⟩ := hok.reads reqs
          rw [hx] at hp
          have hrest : ∃ t ∈ terms, lookup env idx t = .ok none := by
            obtain ⟨t', ht', hnone⟩ := habsent
            cases List.mem_cons.mp ht' with
            | inl heq =>
                rw [heq, hlookup] at hnone
                cases hnone
            | inr hin => exact ⟨t', hin, hnone⟩
          simp only
          rw [hp, ok_bind]
          simp only
          rw [ih (fun t ht => hfound t (List.mem_cons_of_mem _ ht)) hrest]
          rfl

end Plans

/-! ## Terms of a written index -/

/-- A term of an index with its entry and the windows it is read in. -/
structure TermHit extends TermRead where
  term : Emitted
  windows : List Window

variable {env : BuildEnv} {renv : ReadEnv} {idx : LogicalIndexReader} {w : BuiltIndex}
  {blocks : List DictBlockBuilder} {region : Bytes} {dictOff : Nat} {needPositions : Bool}

structure TermHit.Ok (renv : ReadEnv) (idx : LogicalIndexReader) (i : SniiIndexInput)
    (needPositions : Bool) (t : Bytes) (x : TermHit) : Prop where
  found : lookup renv idx t = .ok (some x.posting)
  readable : x.toTermRead.Ok renv.zstd idx needPositions
  mem : x.term ∈ i.source.list
  eq : x.term.postings.term = t
  windows : TermWindows renv.zstd i.entryConfig x.term x.windows
  chunks : x.chunks = x.windows.map (partOf needPositions)
  lengths : x.term.postings.freqs.length = x.term.postings.docids.length
  widths : TermWidths x.term.postings
  ascending : Ascending x.term.postings.docids

theorem TermHit.Ok.docs {i : SniiIndexInput} {t : Bytes} {x : TermHit}
    (h : x.Ok renv idx i needPositions t) :
    x.windows.flatMap Window.docs = x.term.postings.docids :=
  h.windows.docs h.lengths

theorem TermHit.Ok.docsOf {i : SniiIndexInput} {t : Bytes} {x : TermHit}
    (h : x.Ok renv idx i needPositions t) : docsOf x.chunks = x.term.postings.docids := by
  rw [h.chunks, docsOf_parts, h.docs]

/-- A term of the dictionary is found and can be read. -/
theorem termHit_of_mem (h : Serves env renv idx w blocks region dictOff) (hs : SortedTerms w.input)
    (hprx : needPositions = true → w.input.hasPrx = true) {r : Resolved}
    (hr : r ∈ blocks.flatMap resolve) :
    ∃ x : TermHit, x.posting = seen w.input r ∧
      x.Ok renv idx w.input needPositions r.entry.term := by
  have hwidths := (List.forall₂_and_left _ _).mpr ⟨h.widths, h.entries⟩
  have hwrote := forall₂_and hwidths h.built.wrote.each
  obtain ⟨tp, htp, ⟨hwidth, hterm, hentry⟩, hat⟩ := exists_left_of_mem hwrote hr
  obtain ⟨vs, cells, hwindows, hreadable⟩ := readable_of_entryAt hentry hwidth hat.lengths
    (ascending_of_validateTerm hat.valid) (fun henc => hat.wide (by rwa [seen, DictEntry.stored_enc] at henc)) hprx
  refine ⟨⟨⟨seen w.input r, cells, vs.map (partOf needPositions)⟩, tp, vs⟩, rfl, ?_⟩
  constructor
  case found =>
    have hlookup := h.lookup hs r.entry.term
    rw [← entryOf, entryOf_mem h hs hr] at hlookup
    exact hlookup
  case readable =>
    rw [h.zstd]
    exact hreadable
  case mem => exact htp
  case eq => exact hterm.symm
  case windows =>
    rw [h.zstd]
    exact hwindows
  case chunks => rfl
  case lengths => exact hat.lengths
  case widths => exact hwidth
  case ascending => exact ascending_of_validateTerm hat.valid

/-- A term is found with its documents, or no written term is it. -/
theorem termHit_or_absent (h : Serves env renv idx w blocks region dictOff)
    (hs : SortedTerms w.input) (hprx : needPositions = true → w.input.hasPrx = true) (t : Bytes) :
    (∃ x : TermHit, x.Ok renv idx w.input needPositions t) ∨
      lookup renv idx t = .ok none ∧ ∀ tp ∈ w.input.source.list, tp.postings.term ≠ t := by
  cases hfind : entryOf blocks t with
  | some r =>
      obtain ⟨hr, rfl⟩ := entryOf_some hfind
      obtain ⟨x, -, hx⟩ := termHit_of_mem h hs hprx hr
      exact .inl ⟨x, hx⟩
  | none =>
      right
      constructor
      · rw [h.lookup hs t, ← entryOf, hfind]
        rfl
      · rintro tp htp rfl
        obtain ⟨r, hr, hterm, -⟩ := exists_right_of_mem h.entries htp
        rw [← hterm, entryOf_mem h hs hr] at hfind
        cases hfind

theorem term_unique {i : SniiIndexInput} (hs : SortedTerms i) {a b : Emitted}
    (ha : a ∈ i.source.list) (hb : b ∈ i.source.list) (heq : a.postings.term = b.postings.term) :
    a = b := by
  have hnodup : (i.source.list.map fun tp => tp.postings.term).Nodup := hs.imp fun hlt => ne_of_lt hlt
  exact List.inj_on_of_nodup_map hnodup ha hb heq

/-! ## The conjunction -/

/-- A document of the term in the index. -/
def HasTerm (i : SniiIndexInput) (t : Bytes) (d : Nat) : Prop :=
  ∃ tp ∈ i.source.list, tp.postings.term = t ∧ d ∈ tp.postings.docids

theorem TermHit.Ok.hasTerm {i : SniiIndexInput} (hs : SortedTerms i) {t : Bytes} {x : TermHit}
    (h : x.Ok renv idx i needPositions t) (d : Nat) :
    d ∈ Conjunction.docsOf x.chunks ↔ HasTerm i t d := by
  rw [h.docsOf]
  constructor
  · exact fun hd => ⟨x.term, h.mem, h.eq, hd⟩
  · rintro ⟨tp, htp, hterm, hd⟩
    rwa [term_unique hs h.mem htp (h.eq.trans hterm.symm)]

/-- The run of a conjunction, from the plans to the candidates. -/
structure Candidates (srt : DocSort) (z : Zstd) (idx : LogicalIndexReader) (needPositions : Bool)
    (xs : List TermHit) (opened : List TermPlan) (srcs : List (List PosChunk)) (docs : List Nat) :
    Prop where
  plan : ∃ plans reqs round1,
    planResolvedTerms idx needPositions [] (xs.map fun x => x.posting) = .ok (plans, reqs) ∧
    fetch idx.file 0 reqs = .ok round1 ∧ openPreludes round1 needPositions plans = .ok opened ∧
    buildConjunction srt z idx round1 needPositions opened = .ok (srcs, docs)
  plans : opened.length = xs.length
  kept : srcs.length = xs.length
  narrowed : Narrowed (xs.map fun x => x.chunks) (List.range xs.length) docs srcs

/-- **Terms that are all found** have their common documents for candidates. -/
theorem candidates_ok (srt : DocSort) {z : Zstd} (hsize : idx.file.length < 2 ^ 64)
    {xs : List TermHit} (hne : xs ≠ []) (h : ∀ x ∈ xs, x.toTermRead.Ok z idx needPositions) :
    ∃ opened srcs docs, Candidates srt z idx needPositions xs opened srcs docs := by
  have hreads : ∀ x ∈ xs.map TermHit.toTermRead, x.Ok z idx needPositions := by
    intro y hy
    obtain ⟨x, hx, rfl⟩ := List.mem_map.mp hy
    exact h x hx
  obtain ⟨plans, reqs, round1, opened, hplans, hfetch, hopen, hall⟩ := round1_ok hsize hreads
  rw [List.map_map] at hplans hall
  have hnil : xs.map (TermRead.chunks ∘ TermHit.toTermRead) ≠ [] := by simpa using hne
  obtain ⟨srcs, docs, hbuild, hnarrowed, hsrcs⟩ := buildConjunction_ok srt hall hnil
  rw [List.length_map] at hnarrowed hsrcs
  refine ⟨opened, srcs, docs, ⟨plans, reqs, round1, hplans, hfetch, hopen, hbuild⟩, ?_, hsrcs,
    hnarrowed⟩
  rw [hall.length_eq, List.length_map]

/-- Terms that are found are planned as their entries. -/
theorem planTerms_hits {i : SniiIndexInput} {terms : List Bytes} {xs : List TermHit}
    (h : List.Forall₂ (TermHit.Ok renv idx i needPositions) terms xs)
    {planned : List TermPlan × List Range}
    (hplan : planResolvedTerms idx needPositions [] (xs.map fun x => x.posting) = .ok planned) :
    planTerms renv idx needPositions [] terms = .ok (some planned) := by
  have hfound : List.Forall₂ (fun t r => lookup renv idx t = .ok (some r)) terms
      (xs.map fun x => x.posting) := by
    rw [List.forall₂_map_right_iff]
    exact h.imp fun _ _ hx => hx.found
  rw [planTerms_found hfound, hplan]
  rfl

/-- The candidates are the documents of every term. -/
theorem Candidates.mem {srt : DocSort} {z : Zstd} {i : SniiIndexInput} (hs : SortedTerms i)
    {terms : List Bytes} {xs : List TermHit} {opened : List TermPlan} {srcs : List (List PosChunk)}
    {docs : List Nat} (h : List.Forall₂ (TermHit.Ok renv idx i needPositions) terms xs)
    (hc : Candidates srt z idx needPositions xs opened srcs docs) (d : Nat) :
    d ∈ docs ↔ ∀ t ∈ terms, HasTerm i t d := by
  rw [hc.narrowed.mem]
  constructor
  · intro hd t ht
    obtain ⟨x, hx, hok⟩ := exists_right_of_mem h ht
    obtain ⟨k, hk, rfl⟩ := List.mem_iff_getElem.mp hx
    have hin := hd k (List.mem_range.mpr hk)
    rw [List.getD_eq_getElem?_getD, List.getElem?_map, List.getElem?_eq_getElem hk] at hin
    exact (hok.hasTerm hs d).mp hin
  · intro hd k hk
    rw [List.mem_range] at hk
    obtain ⟨t, ht, hok⟩ := exists_left_of_mem h (List.getElem_mem hk)
    rw [List.getD_eq_getElem?_getD, List.getElem?_map, List.getElem?_eq_getElem hk]
    exact (hok.hasTerm hs d).mpr (hd t ht)

/-- Either every term is found, or the plan stops at an absent one. -/
theorem terms_found_or_absent (h : Serves env renv idx w blocks region dictOff)
    (hs : SortedTerms w.input) (hprx : needPositions = true → w.input.hasPrx = true)
    (terms : List Bytes) :
    (∃ xs, List.Forall₂ (TermHit.Ok renv idx w.input needPositions) terms xs) ∨
      planTerms renv idx needPositions [] terms = .ok none ∧
        ∃ t ∈ terms, ∀ tp ∈ w.input.source.list, tp.postings.term ≠ t := by
  have heither := termHit_or_absent h hs hprx
  by_cases hall : ∀ t ∈ terms, ∃ x : TermHit, x.Ok renv idx w.input needPositions t
  · exact .inl (exists_forall₂ hall)
  · right
    push Not at hall
    obtain ⟨t, ht, hnot⟩ := hall
    obtain ⟨hlookup, habsent⟩ := (heither t).resolve_left fun ⟨x, hx⟩ => hnot x hx
    refine ⟨planTerms_absent (z := renv.zstd) (fun t' _ => ?_) ⟨t, ht, hlookup⟩ [], t, ht, habsent⟩
    cases heither t' with
    | inl hhit =>
        obtain ⟨x, hx⟩ := hhit
        refine ⟨some x.posting, hx.found, fun r hr => ?_⟩
        cases hr
        exact ⟨x.toTermRead, rfl, hx.readable⟩
    | inr hnone => exact ⟨none, hnone.1, fun r hr => nomatch hr⟩

/-- **A conjunction** over an index that serves what was written. -/
theorem booleanAnd_returns (srt : DocSort) (h : Serves env renv idx w blocks region dictOff)
    (hs : SortedTerms w.input) {terms : List Bytes} (hne : terms ≠ []) :
    Returns (booleanAnd srt renv idx terms) fun d => ∀ t ∈ terms, HasTerm w.input t d := by
  have hnone : false = true → w.input.hasPrx = true := fun h => nomatch h
  rw [booleanAnd, if_neg hne]
  cases terms_found_or_absent h hs hnone terms with
  | inl hfound =>
      obtain ⟨xs, hxs⟩ := hfound
      obtain ⟨opened, srcs, docs, hc⟩ := candidates_ok srt h.holds.size
        (ne_nil_of_forall₂ hxs hne) fun x hx => (exists_left_of_mem hxs hx).elim fun _ ht => ht.2.readable
      obtain ⟨plans, reqs, round1, hplan, hfetch, hopen, hbuild⟩ := hc.plan
      refine ⟨docs, ?_, hc.narrowed.ascending, hc.mem hs hxs⟩
      rw [planTerms_hits hxs hplan, ok_bind]
      simp only
      rw [hfetch, ok_bind, hopen, ok_bind, hbuild]
      rfl
  | inr habsent =>
      obtain ⟨hplan, t, ht, hnot⟩ := habsent
      refine ⟨[], by rw [hplan]; rfl, List.Pairwise.nil, fun d => ⟨fun hd => (nomatch hd), fun hd => ?_⟩⟩
      obtain ⟨tp, htp, hterm, -⟩ := hd t ht
      exact absurd hterm (hnot tp htp)

/-- **A conjunction is the intersection of its terms' documents**, over every written
index within the reader's cap, although later terms are read only in the windows that
cover the candidates.  It is empty if a term is absent. -/
theorem booleanAnd_exact {adds : List AddCall} {a : AddCall} (srt : DocSort)
    (h : WrittenIndex env renv adds a) (hcaps : CapsOk env adds) :
    ∃ idx, OpensFrom env renv adds a idx ∧ ∀ terms, terms ≠ [] →
      (Returns (booleanAnd srt renv idx terms) fun d => ∀ t ∈ terms, HasTerm a.input t d) ∧
      ((∃ t ∈ terms, ∀ tp ∈ a.input.source.list, tp.postings.term ≠ t) →
        booleanAnd srt renv idx terms = .ok []) := by
  obtain ⟨idx, hopens, w, blocks, region, dictOff, -, hin, hserves⟩ := h.serves hcaps
  refine ⟨idx, hopens, fun terms hne => ?_⟩
  have hreturns := booleanAnd_returns srt hserves (hin ▸ h.sorted) hne
  rw [hin] at hreturns
  refine ⟨hreturns, fun habsent => ?_⟩
  obtain ⟨docs, hdocs, -, hmem⟩ := hreturns
  obtain ⟨t, ht, hnot⟩ := habsent
  have hnil : docs = [] := by
    rw [List.eq_nil_iff_forall_not_mem]
    intro d hd
    obtain ⟨tp, htp, hterm, -⟩ := (hmem d).mp hd t ht
    exact hnot tp htp hterm
  rw [hdocs, hnil]

theorem booleanAnd_exact_repeats : ∃ idx,
    OpensFrom storeEnv storeReadEnv twoCalls positionalCall idx ∧
      Returns (booleanAnd DocSort.stable storeReadEnv idx [[99], [98], [99]]) fun d =>
        ∀ t ∈ [[99], [98], [99]], HasTerm positionalCall.input t d := by
  obtain ⟨idx, hopens, hreturns⟩ :=
    booleanAnd_exact DocSort.stable positional_written capsOk_twoCalls
  exact ⟨idx, hopens, (hreturns _ (List.cons_ne_nil _ _)).1⟩

/-- A conjunction with a term whose block cannot be loaded returns nothing. -/
theorem booleanAnd_unreadable {term : Bytes} (srt : DocSort) (h : Unreadable renv idx term)
    (holds : Nat → Prop) : ¬ Returns (booleanAnd srt renv idx [term]) holds := by
  rintro ⟨docs, hout, -, -⟩
  rw [booleanAnd, if_neg (List.cons_ne_nil _ _)] at hout
  obtain ⟨planned, hplanned, -⟩ := bind_eq_ok hout
  rw [planTerms] at hplanned
  obtain ⟨hit, hlookup, -⟩ := bind_eq_ok hplanned
  exact h.lookup_ne_ok hit hlookup

/-- A conjunction of one written term, whose block is beyond the reader's cap. -/
theorem booleanAnd_oversized :
    WrittenIndex (knowingEnv (List.replicate (2 ^ 29) 0)) (knowingReadEnv (List.replicate (2 ^ 29) 0))
        [oneCall (List.replicate (2 ^ 29) 0)] (oneCall (List.replicate (2 ^ 29) 0)) ∧
      ∃ idx, OpensFrom (knowingEnv (List.replicate (2 ^ 29) 0))
          (knowingReadEnv (List.replicate (2 ^ 29) 0)) [oneCall (List.replicate (2 ^ 29) 0)]
          (oneCall (List.replicate (2 ^ 29) 0)) idx ∧
        ¬ Returns (booleanAnd DocSort.stable (knowingReadEnv (List.replicate (2 ^ 29) 0)) idx
            [List.replicate (2 ^ 29) 0]) fun d => ∀ t ∈ [List.replicate (2 ^ 29) 0],
          HasTerm (oneCall (List.replicate (2 ^ 29) 0)).input t d := by
  have h := oversized_unreadable (oversized_replicate rfl)
  obtain ⟨hwritten, idx, hopens, hunreadable⟩ := h
  exact ⟨hwritten, idx, hopens, booleanAnd_unreadable _ hunreadable _⟩

end Snii.Query.Conjunction
