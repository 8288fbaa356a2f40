import Snii.Query.BooleanOr
import Snii.Query.QueryRequests

/-!
# What queries read

The bytes that a docid or phrase query asks for: its blocks of the filter and of the
dictionary, and of the postings it reads the parts that it decodes.  Where these are of a
kind (`IndexIn`), every byte of every call is, whatever was merged into one read (the
`only_...` theorems).
-/

namespace Snii.Query.QueryReads

open Snii.Lib.ByteReader Snii.Lib.Aligned Snii.Lib.Requests Snii.Common
open Snii.Io.FileReader Snii.Io.BatchRangeFetcher Snii.Io.Requests
open Snii.Reader hiding lookup probeBsbf loadBlock prefixBlocks prefixTerms
open Snii.Query.DocidPosting hiding readDocidPostingsBatched readDocidPosting
open Snii.Query.Conjunction hiding planTerms decodeWindowedDocids readTerm conjunctionLoop
  buildConjunction booleanAnd
open Snii.Query.QueryRequests
open Snii.Query.BooleanOr (openWindowPreludes_inv)
open Snii.Query.DocidUnion (uniqueTerms)
open Snii.Query.RegexpQuery (Regex)
open Snii.Query.ScoringQuery (DocSort)
open Snii.Encoding.Compression
open Snii.Format.Bsbf (kBsbfBytesPerBlock)
open Snii.Format.DictBlock (Resolved)
open Snii.Format.DictIndex (BlockRef getBlock)
open Snii.Format.FrqPrelude (FrqPreludeReader WindowMeta)

/-! ## Postings and indexes -/

/-- The parts of a window that are read. -/
def partsOf (needPositions : Bool) (range : WindowAbsRange) : List Range :=
  range.dd :: if needPositions then [range.prx] else []

/-- The windows of a posting are read in one stretch of the kind. -/
def WindowsIn (D : Nat → Prop) (idx : LogicalIndexReader) (needPositions : Bool) (r : Resolved)
    (prelude : FrqPreludeReader) : Prop :=
  ∃ lo hi, ∀ ranges : List WindowAbsRange,
    (∀ range ∈ ranges, ∃ w, windowedWindowRange idx r prelude w needPositions false = .ok range) →
      Stretch D lo hi (ranges.flatMap (partsOf needPositions))

/-- What is read of a posting in the file is of the kind: the docid region of a slim one
and its positions where they are needed, the prelude and the windows of another. -/
structure PostingIn (D : Nat → Prop) (idx : LogicalIndexReader) (needPositions : Bool)
    (r : Resolved) : Prop where
  flat : r.entry.enc ≠ .windowed → ∀ range, planFlatDocs idx r = .ok range → Inside D range
  positions : needPositions = true → r.entry.enc ≠ .windowed → ∀ off len,
    resolvePrxWindow idx r.entry r.prxBase = .ok (off, len) → Inside D ⟨off, len⟩
  prelude : r.entry.enc = .windowed → Inside D (preludeRange idx r)
  windows : r.entry.enc = .windowed → ∀ prelude,
    FrqPreludeReader.open ((preludeRange idx r).bytesIn idx.file) = .ok prelude →
      At idx.file (preludeRange idx r).offset ((preludeRange idx r).bytesIn idx.file) →
        WindowsIn D idx needPositions r prelude

/-- Where an index is read to find terms, and in the postings it finds. -/
structure IndexIn (D : Nat → Prop) (env : ReadEnv) (idx : LogicalIndexReader)
    (needPositions : Bool) : Prop where
  filter : ∀ s, idx.bsbf = some s → ∀ hash, hash < 2 ^ 64 →
    Inside D ⟨s.header.blockOffset hash, kBsbfBytesPerBlock⟩
  blocks : ∀ ref ∈ idx.blockRefs, Inside D ⟨ref.offset, ref.length⟩
  found : ∀ term r, Reader.lookup env idx term = .ok (some r) → r.entry.kind ≠ .inline →
    PostingIn D idx needPositions r
  listed : ∀ pre rs, Reader.prefixTerms env idx pre = .ok rs → ∀ r ∈ rs,
    r.entry.kind ≠ .inline → PostingIn D idx needPositions r

variable {D : Nat → Prop} {env : ReadEnv} {idx : LogicalIndexReader} {needPositions : Bool}
  {α : Type}

/-! ## Terms -/

/-- A plan of the first round: its posting, and its prelude among the requests. -/
structure PlanIn (D : Nat → Prop) (idx : LogicalIndexReader) (needPositions : Bool)
    (reqs : List Range) (p : TermPlan) : Prop where
  posting : p.posting.entry.kind ≠ .inline → PostingIn D idx needPositions p.posting
  prelude : p.windowed = true → reqs[p.preludeHandle]? = some (preludeRange idx p.posting)

/-- A plan stays in place when its batch grows. -/
theorem PlanIn.extend {reqs reqs' : List Range} {p : TermPlan}
    (h : PlanIn D idx needPositions reqs p) (hpre : reqs <+: reqs') :
    PlanIn D idx needPositions reqs' p := by
  refine ⟨h.posting, fun hw => ?_⟩
  obtain ⟨more, rfl⟩ := hpre
  have hget := h.prelude hw
  rw [List.getElem?_append_left (List.getElem?_eq_some_iff.mp hget).1, hget]

/-- The requests of the first round with their plans. -/
structure RoundIn (D : Nat → Prop) (idx : LogicalIndexReader) (needPositions : Bool)
    (reqs reqs' : List Range) (plans : List TermPlan) : Prop where
  plans : ∀ p ∈ plans, PlanIn D idx needPositions reqs' p
  inside : ∀ q ∈ reqs', Inside D q
  more : reqs <+: reqs'

/-- No terms, no requests. -/
theorem RoundIn.nil {reqs : List Range} (hreqs : ∀ q ∈ reqs, Inside D q) :
    RoundIn D idx needPositions reqs reqs [] where
  plans _ hp := absurd hp List.not_mem_nil
  inside := hreqs
  more := List.prefix_refl reqs

/-- The plan of one term in front of the plans of the others. -/
theorem RoundIn.cons {reqs reqs1 reqs' : List Range} {p : TermPlan} {plans : List TermPlan}
    (h : RoundIn D idx needPositions reqs reqs1 [p])
    (h' : RoundIn D idx needPositions reqs1 reqs' plans) :
    RoundIn D idx needPositions reqs reqs' (p :: plans) := by
  refine ⟨List.forall_mem_cons.mpr ⟨?_, h'.plans⟩, h'.inside, h.more.trans h'.more⟩
  exact (h.plans p List.mem_cons_self).extend h'.more

end Snii.Query.QueryReads
