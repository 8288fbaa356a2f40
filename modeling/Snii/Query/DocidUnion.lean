import Mathlib.Data.List.Destutter
import Snii.Query.DocidPosting
import Snii.Query.DocidSetOps
import Snii.Reader.WrittenIndex

/-!
# Unions over dictionary terms

`docid_union.cpp`, `term_expansion.cpp`, `prefix_query.cpp` and `boolean_query.cpp`: a
set of terms, enumerated under a prefix and filtered or looked up one by one, is read
in one batch and merged into one sorted list.

Over an index that serves what was written, the result is the set of documents that
hold one of the terms.
-/

namespace Snii.Query.DocidUnion

open Snii.Lib.ByteReader Snii.Lib.Aligned Snii.Common Snii.Reader Snii.Query.DocidPosting
open Snii.Query.DocidSetOps
open Snii.Encoding.Compression
open Snii.Format.DictBlock (DictBlockBuilder Resolved)
open Snii.Writer.SpillRunCodec Snii.Writer.LogicalIndexWriter Snii.Writer.CompoundWriter

def emitDocidUnion (z : Zstd) (idx : LogicalIndexReader) (postings : List Resolved) :
    Result (List Nat) :=
  if postings = [] then .ok []
  else do
    let docsByPosting ← readDocidPostingsBatched z idx postings
    pure (unionSortedMany docsByPosting)

def emitExpandedDocidUnion (env : ReadEnv) (idx : LogicalIndexReader) (enumPrefix : Bytes)
    (accepts : Bytes → Bool) : Result (List Nat) := do
  let hits ← prefixTerms env idx enumPrefix
  emitDocidUnion env.zstd idx (hits.filter fun hit => accepts hit.entry.term)

def prefixQuery (env : ReadEnv) (idx : LogicalIndexReader) (pre : Bytes) : Result (List Nat) := do
  let hits ← prefixTerms env idx pre
  emitDocidUnion env.zstd idx hits

/-- The terms in order, each once. -/
def uniqueTerms (terms : List Bytes) : List Bytes := (terms.insertionSort (· ≤ ·)).destutter (· ≠ ·)

def booleanOr (env : ReadEnv) (idx : LogicalIndexReader) (terms : List Bytes) :
    Result (List Nat) :=
  if terms = [] then .ok []
  else do
    let found ← (uniqueTerms terms).mapM (lookup env idx)
    emitDocidUnion env.zstd idx (found.filterMap id)

/-! ## One union -/

variable {env : BuildEnv} {renv : ReadEnv} {idx : LogicalIndexReader} {w : BuiltIndex}
  {blocks : List DictBlockBuilder} {region : Bytes} {dictOff : Nat}

/-- The set that a union returns. -/
def Returns (out : Result (List Nat)) (holds : Nat → Prop) : Prop :=
  ∃ docs, out = .ok docs ∧ Ascending docs ∧ ∀ d, d ∈ docs ↔ holds d

theorem Returns.congr {out : Result (List Nat)} {p q : Nat → Prop} (h : Returns out p)
    (hpq : ∀ d, p d ↔ q d) : Returns out q := by
  obtain ⟨docs, hout, hasc, hmem⟩ := h
  exact ⟨docs, hout, hasc, fun d => (hmem d).trans (hpq d)⟩

/-- Two queries that return the same set return the same list. -/
theorem Returns.eq {out out' : Result (List Nat)} {p : Nat → Prop} (h : Returns out p)
    (h' : Returns out' p) : out = out' := by
  obtain ⟨docs, hout, hasc, hmem⟩ := h
  obtain ⟨docs', hout', hasc', hmem'⟩ := h'
  rw [hout, hout', hasc.ext hasc' fun d => (hmem d).trans (hmem' d).symm]

theorem emitDocidUnion_returns {z : Zstd} {rs : List Resolved} {lists : List (List Nat)}
    (hsize : idx.file.length < 2 ^ 64) (hdocs : List.Forall₂ (DocsAt z idx) rs lists)
    (hasc : ∀ docs ∈ lists, Ascending docs) :
    Returns (emitDocidUnion z idx rs) fun d => ∃ docs ∈ lists, d ∈ docs := by
  obtain ⟨hunion, hmem⟩ := unionSortedMany_spec hasc
  refine ⟨unionSortedMany lists, ?_, hunion, hmem⟩
  rw [emitDocidUnion]
  split
  case _ hnil =>
      rw [hnil, List.forall₂_nil_left_iff] at hdocs
      rw [hdocs]
      rfl
  case _ =>
      rw [readDocidPostingsBatched_ok hsize hdocs, ok_bind]
      rfl

/-- The documents of a posting are determined by the index. -/
theorem docsAt_unique {z : Zstd} {r : Resolved} {a b : List Nat} (hsize : idx.file.length < 2 ^ 64)
    (ha : DocsAt z idx r a) (hb : DocsAt z idx r b) : a = b := by
  have hra := readDocidPostingsBatched_ok hsize (.cons ha .nil)
  have hrb := readDocidPostingsBatched_ok hsize (.cons hb .nil)
  rw [hra] at hrb
  simpa using hrb

/-! ## Terms of a written index -/

/-- What the reader finds behind an entry of the dictionary. -/
structure Holding (z : Zstd) (idx : LogicalIndexReader) (i : SniiIndexInput) (tp : Emitted)
    (r : Resolved) : Prop where
  term : r.entry.term = tp.postings.term
  docs : DocsAt z idx (seen i r) tp.postings.docids
  ascending : Ascending tp.postings.docids

theorem ascending_of_validateTerm {hasPrx : Bool} {tp : TermPostings}
    (h : validateTerm hasPrx tp = .ok ()) : Ascending tp.docids := by
  rw [Ascending, ← docidsAscend_iff]
  by_contra hnot
  rw [validateTerm, if_pos (show docidsAscend tp.docids = false by simpa using hnot)] at h
  by_cases hlen : tp.freqs.length ≠ tp.docids.length
  · rw [if_pos hlen] at h
    cases h
  · rw [if_neg hlen] at h
    by_cases hcount : hasPrx ∧
        tp.freqs.sum ≠ if tp.streamed then tp.posTotal else tp.positionsFlat.length
    · rw [if_pos hcount] at h
      cases h
    · rw [if_neg hcount] at h
      cases h

theorem holding (h : Serves env renv idx w blocks region dictOff) :
    List.Forall₂ (Holding env.zstd idx w.input) w.input.source.list
      (blocks.flatMap resolve) := by
  have hwidths := (List.forall₂_and_left _ _).mpr ⟨h.widths, h.entries⟩
  have hboth := List.forall₂_iff_zip.mp hwidths
  have hwrote := List.forall₂_iff_zip.mp h.built.wrote.each
  rw [List.forall₂_iff_zip]
  refine ⟨hboth.1, fun {tp r} hin => ?_⟩
  obtain ⟨hwidth, hterm, hentry⟩ := hboth.2 hin
  have hat := hwrote.2 hin
  exact ⟨hterm, docsAt_of_entryAt hentry hwidth hat.lengths, ascending_of_validateTerm hat.valid⟩

/-- **A union of dictionary entries** holds the documents of their terms. -/
theorem emitDocidUnion_terms (h : Serves env renv idx w blocks region dictOff)
    {rs : List Resolved} (hrs : ∀ r ∈ rs, r ∈ blocks.flatMap resolve) :
    Returns (emitDocidUnion renv.zstd idx (rs.map (seen w.input))) fun d =>
      ∃ r ∈ rs, ∃ tp ∈ w.input.source.list,
        Holding env.zstd idx w.input tp r ∧ d ∈ tp.postings.docids := by
  have hholding := holding h
  have heach : ∀ r ∈ rs, ∃ tp, tp ∈ w.input.source.list ∧ Holding env.zstd idx w.input tp r := by
    intro r hr
    obtain ⟨tp, htp, hheld⟩ := exists_left_of_mem hholding (hrs r hr)
    exact ⟨tp, htp, hheld⟩
  obtain ⟨tps, htps⟩ := exists_forall₂ heach
  have hdocs : List.Forall₂ (DocsAt renv.zstd idx) (rs.map (seen w.input))
      (tps.map fun tp => tp.postings.docids) := by
    rw [List.forall₂_map_left_iff, List.forall₂_map_right_iff, h.zstd]
    exact htps.imp fun _ _ hx => hx.2.docs
  have hasc : ∀ docs ∈ tps.map (fun tp => tp.postings.docids), Ascending docs := by
    intro docs hin
    obtain ⟨tp, htp, rfl⟩ := List.mem_map.mp hin
    obtain ⟨r, -, hx⟩ := exists_left_of_mem htps htp
    exact hx.2.ascending
  apply (emitDocidUnion_returns h.holds.size hdocs hasc).congr
  intro d
  constructor
  · rintro ⟨docs, hin, hd⟩
    obtain ⟨tp, htp, rfl⟩ := List.mem_map.mp hin
    obtain ⟨r, hr, hx⟩ := exists_left_of_mem htps htp
    exact ⟨r, hr, tp, hx.1, hx.2, hd⟩
  · rintro ⟨r, hr, tp, htp, hheld, hd⟩
    obtain ⟨tp', htp', hx⟩ := exists_right_of_mem htps hr
    have hsame := docsAt_unique h.holds.size hheld.docs hx.2.docs
    exact ⟨tp'.postings.docids, List.mem_map_of_mem htp', hsame ▸ hd⟩

/-- **An expansion** holds the documents of the written terms that have the prefix and
that the matcher accepts. -/
theorem emitExpandedDocidUnion_returns (h : Serves env renv idx w blocks region dictOff)
    (hs : SortedTerms w.input) (pre : Bytes) (accepts : Bytes → Bool) :
    Returns (emitExpandedDocidUnion renv idx pre accepts) fun d =>
      ∃ tp ∈ w.input.source.list, pre <+: tp.postings.term ∧ accepts tp.postings.term = true ∧
        d ∈ tp.postings.docids := by
  have hterm : ∀ r, (seen w.input r).entry.term = r.entry.term := fun r => by simp [seen]
  rw [emitExpandedDocidUnion, h.prefixTerms hs, ok_bind, List.filter_map]
  simp only [Function.comp_def, hterm]
  apply (emitDocidUnion_terms h fun r hr => (List.mem_filter.mp (List.mem_filter.mp hr).1).1).congr
  intro d
  constructor
  · rintro ⟨r, hr, tp, htp, hheld, hd⟩
    have hfilter := List.mem_filter.mp hr
    have hpre := (List.mem_filter.mp hfilter.1).2
    rw [hheld.term] at hfilter hpre
    exact ⟨tp, htp, by simpa using hpre, hfilter.2, hd⟩
  · rintro ⟨tp, htp, hpre, haccepts, hd⟩
    obtain ⟨r, hr, hheld⟩ := exists_right_of_mem (holding h) htp
    refine ⟨r, ?_, tp, htp, hheld, hd⟩
    rw [List.mem_filter, List.mem_filter, hheld.term]
    exact ⟨⟨hr, by simpa using hpre⟩, haccepts⟩

/-- **An expansion over a written index**, within the reader's cap. -/
theorem expansion_exact {adds : List AddCall} {a : AddCall} (h : WrittenIndex env renv adds a)
    (hcaps : CapsOk env adds) (pre : Bytes) (accepts : Bytes → Bool) :
    ∃ idx, OpensFrom env renv adds a idx ∧
      Returns (emitExpandedDocidUnion renv idx pre accepts) fun d =>
        ∃ tp ∈ a.input.source.list, pre <+: tp.postings.term ∧
          accepts tp.postings.term = true ∧ d ∈ tp.postings.docids := by
  obtain ⟨idx, hopens, w, blocks, region, dictOff, -, hin, hserves⟩ := h.serves hcaps
  have hexpand := emitExpandedDocidUnion_returns hserves (hin ▸ h.sorted) pre accepts
  rw [hin] at hexpand
  exact ⟨idx, hopens, hexpand⟩

/-- An expansion over all terms of an index whose block cannot be loaded returns nothing. -/
theorem expansion_unreadable {term : Bytes} (h : Unreadable renv idx term)
    (accepts : Bytes → Bool) (holds : Nat → Prop) :
    ¬ Returns (emitExpandedDocidUnion renv idx [] accepts) holds := by
  obtain ⟨ref, hrefs, hload⟩ := h.refs
  rintro ⟨docs, hout, -, -⟩
  rw [emitExpandedDocidUnion] at hout
  obtain ⟨hits, hhits, -⟩ := bind_eq_ok hout
  rw [prefixTerms, if_pos rfl, List.drop_zero, hrefs, prefixBlocks] at hhits
  obtain ⟨br, hbr, -⟩ := bind_eq_ok hhits
  exact hload br hbr

end Snii.Query.DocidUnion
