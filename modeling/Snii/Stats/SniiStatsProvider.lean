import Snii.Format.NormsPod
import Snii.Reader.WrittenTerms

/-!
# Statistics of an index

`snii_stats_provider.cpp`: the numbers that BM25 asks for, taken from the metadata of an
index, from the entries of its dictionary and from its norms, which are read once.  Over
a written index they are the numbers of what was written (`statsProvider_reports`).
-/

namespace Snii.Stats

open Snii.Lib.ByteReader Snii.Lib.Aligned Snii.Common Snii.Io.FileReader Snii.Io.BatchRangeFetcher
open Snii.Reader Snii.Format.NormsPod
open Snii.Encoding.ByteSource (length_putFixed32)
open Snii.Format.Dict (tierHasStats)
open Snii.Format.DictBlock (DictBlockBuilder Resolved)
open Snii.Format.PerIndexMeta (finishNormsPod)
open Snii.Writer.SpillRunCodec Snii.Writer.LogicalIndexWriter Snii.Writer.CompoundWriter

/-- The statistics of an index; without a norms section there are no norms. -/
structure SniiStatsProvider where
  idx : LogicalIndexReader
  docCount : Nat
  indexedDocCount : Nat
  sumTotalTermFreq : Nat
  norms : Option NormsPodReader

def SniiStatsProvider.open (idx : LogicalIndexReader) : Result SniiStatsProvider :=
  let counts : SniiStatsProvider :=
    { idx := idx, docCount := idx.stats.docCount, indexedDocCount := idx.stats.indexedDocCount
      sumTotalTermFreq := idx.stats.sumTotalTermFreq, norms := none }
  let norms := idx.sectionRefs.norms
  if norms.length = 0 then .ok counts
  else do
    let fetched ← fetch idx.file 0 [⟨norms.offset, norms.length⟩]
    let framed ← fetched.get 0
    let reader ← openNormsPod framed
    pure { counts with norms := some reader }

namespace SniiStatsProvider

/-- The average length of a document. -/
def avgdl (p : SniiStatsProvider) : ℚ := p.sumTotalTermFreq / (max 1 p.indexedDocCount : Nat)

def docFreq (env : ReadEnv) (p : SniiStatsProvider) (term : Bytes) : Result Nat := do
  let hit ← lookup env p.idx term
  pure (hit.elim 0 fun r => r.entry.df)

def totalTermFreq (env : ReadEnv) (p : SniiStatsProvider) (term : Bytes) : Result Nat := do
  let hit ← lookup env p.idx term
  pure (hit.elim 0 fun r => r.entry.ttfDelta)

def encodedNorm (p : SniiStatsProvider) (docid : Nat) : Result UInt8 :=
  match p.norms with
  | none => .error (.invalidArgument "stats_provider: index has no norms")
  | some reader => reader.tryEncodedNorm docid

end SniiStatsProvider

/-! ## The numbers of a written index -/

/-- A provider that gives the numbers of what was written. -/
structure ProviderReports (renv : ReadEnv) (p : SniiStatsProvider) (i : SniiIndexInput) : Prop where
  docCount : p.docCount = i.docCount
  indexedDocCount : p.indexedDocCount = i.docCount
  sumTotalTermFreq : p.sumTotalTermFreq =
    (i.source.list.map fun tp => tp.postings.freqs.sum).sum % 2 ^ 64
  docFreq : ∀ t, p.docFreq renv t =
    .ok ((termOf i t).elim 0 fun tp => tp.postings.docids.length)
  totalTermFreq : ∀ t, p.totalTermFreq renv t = .ok ((termOf i t).elim 0 fun tp =>
    if tierHasStats i.tier then tp.postings.freqs.sum % 2 ^ 64 else 0)
  norms : i.hasNorms = true → i.encodedNorms.length = i.docCount ∧
    ∀ docid, p.encodedNorm docid = normAt i.encodedNorms docid
  noNorms : i.hasNorms = false → ∀ docid, p.encodedNorm docid =
    .error (.invalidArgument "stats_provider: index has no norms")

variable {env : BuildEnv} {renv : ReadEnv} {adds : List AddCall} {a : AddCall}
  {idx : LogicalIndexReader} {w : BuiltIndex} {blocks : List DictBlockBuilder} {region : Bytes}
  {dictOff : Nat}

/-- The norms of a provider, as the section of the index has them. -/
theorem open_norms (h : BuiltFrom env w blocks region) (hcount : w.input.docCount < 2 ^ 32)
    (hsize : idx.file.length < 2 ^ 64)
    (hsection : SectionIs idx.file idx.sectionRefs.norms w.normsSection) :
    SniiStatsProvider.open idx = .ok
      { idx := idx, docCount := idx.stats.docCount, indexedDocCount := idx.stats.indexedDocCount
        sumTotalTermFreq := idx.stats.sumTotalTermFreq
        norms := if w.input.hasNorms then
            some { docCount := w.input.encodedNorms.length, norms := w.input.encodedNorms
                   counted := rfl }
          else none } := by
  obtain ⟨hlen, hat⟩ := hsection
  rw [h.norms] at hlen hat
  rw [SniiStatsProvider.open]
  simp only
  cases hnorms : w.input.hasNorms with
  | false =>
      rw [hnorms, if_neg Bool.false_ne_true] at hlen
      rw [if_pos (by rw [hlen, List.length_nil])]
      rfl
  | true =>
      rw [hnorms, if_pos rfl] at hlen hat
      have hpos : 0 < (finishNormsPod w.input.encodedNorms).length := by
        rw [finishNormsPod, Encoding.SectionFramer.writeSection, List.length_append,
          length_putFixed32]
        omega
      have hhere := hat (List.ne_nil_of_length_pos hpos)
      obtain ⟨fetched, hfetch, hgets⟩ := @fetch_at 0 idx.file
        [⟨idx.sectionRefs.norms.offset, idx.sectionRefs.norms.length⟩]
        [finishNormsPod w.input.encodedNorms] hsize (.cons ⟨hhere, hlen⟩ .nil)
      have hsmall : w.input.encodedNorms.length < 2 ^ 32 := by
        rw [h.normCount hnorms]
        exact hcount
      rw [if_neg (by omega), hfetch, ok_bind, hgets.cons.1, ok_bind, openNormsPod_finish hsmall]
      rfl

/-- The provider of an index that serves and reports what was written. -/
theorem open_reports {file : Bytes} (ha : a ∈ adds) (hok : SessionOk adds file)
    (hreports : Reports env renv file a idx) (hfile : idx.file = file)
    (hbuild : build (a.env env) a.input [] = .ok w region) (hin : w.input = a.input)
    (hserves : Serves (a.env env) renv idx w blocks region dictOff) (hs : SortedTerms a.input) :
    ∃ p, SniiStatsProvider.open idx = .ok p ∧ ProviderReports renv p a.input := by
  have hcount : w.input.docCount < 2 ^ 32 := hin ▸ (hok.inputs a ha).docCount
  obtain ⟨w', region', hbuild', -, -, hsection, -⟩ := hreports.sections
  rw [hbuild] at hbuild'
  cases hbuild'
  rw [← hfile] at hsection
  have hopen := open_norms hserves.built hcount hserves.holds.size hsection
  rw [hin] at hopen
  have hfound := hserves.found (hin ▸ hs)
  have hstats := hreports.stats
  refine ⟨_, hopen, ?_⟩
  constructor
  case docCount => rw [hstats]
  case indexedDocCount => rw [hstats]
  case sumTotalTermFreq => rw [hstats]
  case docFreq =>
    intro t
    obtain ⟨hit, hlookup, hrel⟩ := hfound t
    rw [SniiStatsProvider.docFreq, hlookup, ok_bind, ← hin]
    exact congrArg Except.ok (elim_of_rel 0 (fun _ _ hr => hr.df.symm) hrel).symm
  case totalTermFreq =>
    intro t
    obtain ⟨hit, hlookup, hrel⟩ := hfound t
    rw [SniiStatsProvider.totalTermFreq, hlookup, ok_bind, ← hin]
    exact congrArg Except.ok (elim_of_rel 0 (fun _ _ hr => hr.ttf.symm) hrel).symm
  case norms =>
    intro hnorms
    refine ⟨hin ▸ hserves.built.normCount (by rwa [hin]), fun docid => ?_⟩
    rw [SniiStatsProvider.encodedNorm]
    simp only [hnorms, if_true]
    exact tryEncodedNorm_eq _ _
  case noNorms =>
    intro hnorms docid
    rw [SniiStatsProvider.encodedNorm]
    simp only [hnorms, Bool.false_eq_true, if_false]

/-- **The provider reports what was written**: over every written index within the
reader's cap it opens and gives the counts, the frequencies of every term, absent ones
included, and the norm of every document; it refuses a document without a norm. -/
theorem statsProvider_reports (h : WrittenIndex env renv adds a) (hcaps : CapsOk env adds) :
    ∃ idx p, OpensFrom env renv adds a idx ∧ SniiStatsProvider.open idx = .ok p ∧
      ProviderReports renv p a.input := by
  obtain ⟨idx, hopens, hfile, hreports, w, blocks, region, dictOff, hbuild, hin, hserves⟩ :=
    h.reports hcaps
  have ha : a ∈ adds := (List.mem_filter.mp h.added).1
  obtain ⟨p, hopen, hall⟩ := open_reports ha h.session hreports hfile hbuild hin hserves h.sorted
  exact ⟨idx, p, hopens, hopen, hall⟩

/-! ## A scored index -/

/-- An index of four documents, each with its norm. -/
def scoredCall : AddCall where
  overCap := fun _ => false
  input :=
    { config := .docsPositionsScoring, docCount := 4, encodedNorms := [3, 1, 7, 2]
      source := .terms
        [{ postings := { term := [97], docids := [0, 2], freqs := [1, 2]
                         positionsFlat := [3, 0, 7] } },
         { postings := { term := [98], docids := [1, 2, 3], freqs := [2, 1, 1]
                         positionsFlat := [0, 2, 1, 4] } }] }

theorem capsOk_scoredCall : CapsOk storeEnv [scoredCall] := capsOk_of_capsHold (by decide +kernel)

theorem written_scoredCall : WrittenIndex storeEnv storeReadEnv [scoredCall] scoredCall := by
  have hstatus : ∀ status ∈ (addAll storeEnv {} [scoredCall]).1, status = .ok () := by
    decide +kernel
  have hadded := added_of_statuses hstatus
  constructor
  case libs => exact sameLibs_store
  case added =>
    rw [hadded]
    exact List.mem_singleton.mpr rfl
  case keys =>
    rw [hadded]
    exact List.nodup_singleton _
  case session => exact ⟨by decide +kernel, by decide, by decide +kernel⟩
  case sorted =>
    rw [SortedTerms]
    decide

theorem statsProvider_reports_scoredCall : ∃ idx p,
    OpensFrom storeEnv storeReadEnv [scoredCall] scoredCall idx ∧
      SniiStatsProvider.open idx = .ok p ∧
        ProviderReports storeReadEnv p scoredCall.input :=
  statsProvider_reports written_scoredCall capsOk_scoredCall

end Snii.Stats
