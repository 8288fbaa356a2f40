import Snii.Query.BooleanAnd
import Snii.Reader.WrittenIndex

/-!
# Terms of a written index

What opening a written index gives besides its terms, and what a lookup gives of a term:
the entry stands over the term's own posting and states its numbers (`Serves.found`).
-/

namespace Snii.Reader

open Snii.Lib.ByteReader Snii.Lib.Aligned Snii.Common
open Snii.Format.Dict Snii.Format.DictBlock
open Snii.Query.DocidSetOps (Ascending)
open Snii.Query.DocidUnion (ascending_of_validateTerm)
open Snii.Writer.SpillRunCodec Snii.Writer.LogicalIndexWriter Snii.Writer.CompoundWriter

variable {env : BuildEnv} {renv : ReadEnv} {adds : List AddCall} {a : AddCall}
  {idx : LogicalIndexReader} {w : BuiltIndex} {blocks : List DictBlockBuilder} {region : Bytes}
  {dictOff : Nat}

/-- **A written index** opens over the finished file, reports what was added and serves it. -/
theorem WrittenIndex.reports (h : WrittenIndex env renv adds a) (hcaps : CapsOk env adds) :
    ∃ idx, OpensFrom env renv adds a idx ∧ idx.file = containerOf env adds ∧
      Reports env renv (containerOf env adds) a idx ∧ ∃ w blocks region dictOff,
        build (a.env env) a.input [] = .ok w region ∧ w.input = a.input ∧
          Serves (a.env env) renv idx w blocks region dictOff := by
  obtain ⟨-, hcont⟩ := @finish_container env adds
  rw [← containerOf] at hcont
  generalize (finish (addAll env {} adds).2).2.indexes = indexes at hcont
  obtain ⟨⟨idxs, hidxs, -⟩, -⟩ := session_opens h.libs hcont h.session h.keys hcaps
  obtain ⟨idx, -, hopen, y, -, region, has⟩ := exists_right_of_mem hidxs h.added
  have ha : a ∈ adds := (List.mem_filter.mp h.added).1
  have hreports := reports_of_openedAs h.libs h.session hcaps ha has
  obtain ⟨blocks, hserves⟩ := serves_of_opensTo h.libs h.session ha has.build has.placed has.opens
    (hcaps a ha _ _ has.build)
  exact ⟨idx, ⟨_, open_container hcont (sessionOk_added h.session), hopen⟩, has.opens.file_eq,
    hreports, y.1, blocks, region, y.2.dictOff, has.build, (build_builtFrom has.build).1, hserves⟩

/-- The written term with a string. -/
def termOf (i : SniiIndexInput) (t : Bytes) : Option Emitted :=
  i.source.list.find? fun tp => decide (tp.postings.term = t)

/-- An entry that was found for a written term. -/
structure Found (env : BuildEnv) (idx : LogicalIndexReader) (i : SniiIndexInput) (tp : Emitted)
    (r : Resolved) : Prop where
  mem : tp ∈ i.source.list
  entry : EntryAt env.zstd i.entryConfig idx tp r
  df : r.entry.df = tp.postings.docids.length
  ttf : r.entry.ttfDelta = if tierHasStats i.tier then tp.postings.freqs.sum % 2 ^ 64 else 0
  lengths : tp.postings.freqs.length = tp.postings.docids.length
  ascending : Ascending tp.postings.docids
  widths : TermWidths tp.postings
  wide : r.entry.enc = .windowed → kSlimDfThreshold ≤ tp.postings.docids.length

/-- **A lookup** over an index that serves what was written finds the written term. -/
theorem Serves.found (h : Serves env renv idx w blocks region dictOff) (hs : SortedTerms w.input)
    (t : Bytes) : ∃ hit, Reader.lookup renv idx t = .ok hit ∧
      Option.Rel (Found env idx w.input) (termOf w.input t) hit := by
  refine ⟨_, h.lookup hs t, ?_⟩
  have hwidths := (List.forall₂_and_left _ _).mpr ⟨h.widths, h.entries⟩
  have hmem : ∀ tp ∈ w.input.source.list, tp ∈ w.input.source.list := fun _ htp => htp
  have hall := (List.forall₂_and_left _ _).mpr ⟨hmem, forall₂_and hwidths h.built.wrote.each⟩
  have hfind : Option.Rel _ (termOf w.input t)
      ((blocks.flatMap resolve).find? fun r => decide (r.entry.term = t)) :=
    find?_of_forall₂ (fun tp r hx => by rw [hx.2.1.2.1]) hall
  generalize termOf w.input t = written at hfind ⊢
  generalize (blocks.flatMap resolve).find? _ = found at hfind ⊢
  cases hfind with
  | none => exact .none
  | some hx =>
      obtain ⟨htp, ⟨hwidth, -, hentry⟩, hat⟩ := hx
      obtain ⟨hdf, httf⟩ := hat.stats
      apply Option.Rel.some
      constructor
      case mem => exact htp
      case entry => exact hentry
      case df => rw [seen, (DictEntry.stored_stats _ _).1, hdf, Nat.mod_eq_of_lt hwidth.count]
      case ttf => rw [seen, (DictEntry.stored_stats _ _).2, httf]
      case lengths => exact hat.lengths
      case ascending => exact ascending_of_validateTerm hat.valid
      case widths => exact hwidth
      case wide => exact fun henc => hat.wide (by rwa [seen, DictEntry.stored_enc] at henc)

end Snii.Reader
