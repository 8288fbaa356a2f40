import Snii.Writer.IndexBuild
import Snii.Writer.PostingSpans

/-!
# What a build has written

`Wrote` follows the terms one by one: each was valid, and its entry was built behind
the region written so far, against the bases of its block.  `StateInv` ties the
writer's members to the blocks cut so far, `processTerm_inv` is the step and
`build_wrote` the whole build.
-/

namespace Snii.Writer.LogicalIndexWriter

open Snii.Lib.ByteReader Snii.Common Snii.Writer.SpillRunCodec
open Snii.Encoding.Compression Snii.Encoding.Crc32c Snii.Format.Dict Snii.Format.DictBlock
open Snii.Format.Bsbf

def resolve (b : DictBlockBuilder) : List Resolved :=
  b.entries.map fun e => ⟨e, b.frqBase, b.prxBase⟩

/-- The terms, the entries they became and the region they left. -/
inductive Wrote (env : BuildEnv) (i : SniiIndexInput) :
    List Emitted → List Resolved → Bytes → Prop
  | nil : Wrote env i [] [] []
  | snoc {tps : List Emitted} {rs : List Resolved} {region region' : Bytes} {tp : Emitted}
      {r : Resolved} (before : Wrote env i tps rs region)
      (valid : validateTerm i.hasPrx tp.postings = .ok ()) (bases : r.prxBase = r.frqBase)
      (base_le : r.frqBase ≤ region.length)
      (built : buildEntry env.zstd i.entryConfig tp r.frqBase r.prxBase region =
        .ok r.entry region') :
      Wrote env i (tps ++ [tp]) (rs ++ [r]) region'

theorem Wrote.terms {env : BuildEnv} {i : SniiIndexInput} {tps : List Emitted}
    {rs : List Resolved} {region : Bytes} (h : Wrote env i tps rs region) :
    rs.map (fun r => r.entry.term) = tps.map fun tp => tp.postings.term := by
  induction h with
  | nil => rfl
  | snoc _ _ bases base_le built ih =>
      rw [List.map_append, List.map_append, ih, List.map_singleton, List.map_singleton,
        (buildEntry_spans base_le (bases ▸ base_le) built).1]

/-! ## Blocks -/

def firstTermOf (b : DictBlockBuilder) : Bytes := (b.entries.head?.map DictEntry.term).getD []

/-- A block's stored bytes. -/
def diskOf (env : BuildEnv) (b : DictBlockBuilder) : Bytes := (packBlock env.zstd b.finish).1

def recordOf (env : BuildEnv) (off : Nat) (b : DictBlockBuilder) : BlockRecord :=
  { relOffset := off, length := (diskOf env b).length, nEntries := b.nEntries % 2 ^ 32
    checksum := crc32c b.finish, flags := (packBlock env.zstd b.finish).2.1
    uncompLen := (packBlock env.zstd b.finish).2.2, firstTerm := firstTermOf b }

def recordsFrom (env : BuildEnv) : Nat → List DictBlockBuilder → List BlockRecord
  | _, [] => []
  | off, b :: bs => recordOf env off b :: recordsFrom env (off + (diskOf env b).length) bs

def dictBytes (env : BuildEnv) (bs : List DictBlockBuilder) : Bytes := bs.flatMap (diskOf env)

theorem recordsFrom_append (env : BuildEnv) (off : Nat) (bs cs : List DictBlockBuilder) :
    recordsFrom env off (bs ++ cs) =
      recordsFrom env off bs ++ recordsFrom env (off + (dictBytes env bs).length) cs := by
  induction bs generalizing off with
  | nil => rfl
  | cons b bs ih =>
      rw [List.cons_append, recordsFrom, ih, recordsFrom, List.cons_append, dictBytes, dictBytes,
        List.flatMap_cons, List.length_append, Nat.add_assoc]

/-- A block of the index: entries added to a builder whose bases agree. -/
def BlockShape (i : SniiIndexInput) (b : DictBlockBuilder) : Prop :=
  b.entries ≠ [] ∧ b.prxBase = b.frqBase ∧
    b = b.entries.foldl DictBlockBuilder.addEntry (newBuilder i.tier i.hasPrx b.frqBase b.prxBase)

/-- The writer's members after some terms, with the blocks flushed so far. -/
structure StateInv (env : BuildEnv) (i : SniiIndexInput) (tps : List Emitted) (st : WriterState)
    (done : List DictBlockBuilder) (region : Bytes) : Prop where
  dict : st.dictBuf.Holds (dictBytes env done)
  records : st.blocks = recordsFrom env 0 done
  shape : ∀ b ∈ done ++ st.block.toList, BlockShape i b
  first : ∀ b, st.block = some b → st.blockFirstTerm = firstTermOf b
  base_le : ∀ b, st.block = some b → b.frqBase ≤ region.length
  wrote : Wrote env i tps ((done ++ st.block.toList).flatMap resolve) region
  hashes : st.termHashes = tps.map fun tp => bsbfHash env.bsbf tp.postings.term
  count : st.termCount = tps.length
  ttf : st.sumTotalTermFreq = (tps.map fun tp => tp.postings.freqs.sum).sum % 2 ^ 64

variable {env : BuildEnv} {i : SniiIndexInput} {tps : List Emitted} {st st' : WriterState}
  {done : List DictBlockBuilder} {region region' : Bytes}

theorem stateInv_empty : StateInv env i [] {} [] [] where
  dict := SpillableByteBuffer.holds_empty
  records := rfl
  shape b hb := by simp at hb
  first b hb := by cases hb
  base_le b hb := by cases hb
  wrote := .nil
  hashes := rfl
  count := rfl
  ttf := rfl

/-- A flush moves a block to the flushed ones. -/
theorem flushBlock_records (b : DictBlockBuilder)
    (hdict : st.dictBuf.Holds (dictBytes env done)) (hrecords : st.blocks = recordsFrom env 0 done) :
    (flushBlock env b (firstTermOf b) st).dictBuf.Holds (dictBytes env (done ++ [b])) ∧
      (flushBlock env b (firstTermOf b) st).blocks = recordsFrom env 0 (done ++ [b]) := by
  refine ⟨?_, ?_⟩
  · have := hdict.appendMove (env.overCap st.blocks.length) (diskOf env b)
    simpa [flushBlock, diskOf, dictBytes] using this
  · rw [recordsFrom_append, ← hrecords, Nat.zero_add, ← hdict.size]
    rfl

/-! ## One term -/

theorem resolve_addEntry (b : DictBlockBuilder) (e : DictEntry) :
    resolve (b.addEntry e) = resolve b ++ [⟨e, b.frqBase, b.prxBase⟩] := by
  simp [resolve, DictBlockBuilder.addEntry]

/-- The block a term goes to: what it holds already, and what it is once the term's
entry is in it. -/
structure OpenedAt (i : SniiIndexInput) (st : WriterState) (term : Bytes) (region : Bytes)
    (block : DictBlockBuilder) (firstTerm : Bytes) : Prop where
  resolved : st.block.toList.flatMap resolve = resolve block
  bases : block.prxBase = block.frqBase
  base_le : block.frqBase ≤ region.length
  shape : ∀ e, BlockShape i (block.addEntry e)
  first : ∀ e : DictEntry, e.term = term → firstTerm = firstTermOf (block.addEntry e)

theorem openBlockAt_opened (hinv : StateInv env i tps st done region) (term : Bytes) :
    OpenedAt i st term region (openBlockAt i term region.length st).1
      (openBlockAt i term region.length st).2 := by
  unfold openBlockAt
  cases hblock : st.block with
  | none =>
      refine ⟨by simp [hblock, resolve, newBuilder], rfl, Nat.le_refl _, fun e => ?_, ?_⟩
      · exact ⟨by simp [DictBlockBuilder.addEntry], rfl, rfl⟩
      · intro e he
        exact he.symm
  | some b =>
      have hshape := hinv.shape b (by simp [hblock])
      refine ⟨by simp [hblock], hshape.2.1, hinv.base_le b hblock, fun e => ?_, ?_⟩
      · refine ⟨by simp [DictBlockBuilder.addEntry], hshape.2.1, ?_⟩
        show b.addEntry e = (b.entries ++ [e]).foldl DictBlockBuilder.addEntry
          (newBuilder i.tier i.hasPrx b.frqBase b.prxBase)
        rw [List.foldl_append, List.foldl_cons, List.foldl_nil, ← hshape.2.2]
      · intro e _
        rw [hinv.first b hblock, firstTermOf, firstTermOf, DictBlockBuilder.addEntry,
          List.head?_append_of_ne_nil _ hshape.1]

/-- What a term that passes does. -/
theorem processTerm_eq_ok {tp : Emitted} (h : processTerm env i st tp region = .ok st' region') :
    validateTerm i.hasPrx tp.postings = .ok () ∧ ∃ e,
      buildEntry env.zstd i.entryConfig tp (openBlockAt i tp.postings.term region.length st).1.frqBase
        (openBlockAt i tp.postings.term region.length st).1.prxBase region = .ok e region' ∧
      st' = addToBlock env i (openBlockAt i tp.postings.term region.length st).1
        (openBlockAt i tp.postings.term region.length st).2 e { st with
          termHashes := st.termHashes ++ [bsbfHash env.bsbf tp.postings.term]
          termCount := st.termCount + 1
          sumTotalTermFreq := (st.sumTotalTermFreq + tp.postings.freqs.sum) % 2 ^ 64 } := by
  unfold processTerm at h
  obtain ⟨_, region1, hvalid, h1⟩ := bind_run_eq_ok h
  obtain ⟨hvalid', hregion1⟩ := check_eq_ok hvalid
  subst hregion1
  obtain ⟨_, _, hsize, h2⟩ := bind_run_eq_ok h1
  cases hsize
  obtain ⟨e, _, hbuild, h3⟩ := bind_run_eq_ok h2
  cases h3
  exact ⟨hvalid', e, hbuild, rfl⟩

/-- **The step**: a term that passes keeps the invariant. -/
theorem processTerm_inv {tp : Emitted} (hinv : StateInv env i tps st done region)
    (h : processTerm env i st tp region = .ok st' region') :
    ∃ done', StateInv env i (tps ++ [tp]) st' done' region' := by
  obtain ⟨hvalid, e, hbuild, rfl⟩ := processTerm_eq_ok h
  have hopened := openBlockAt_opened hinv tp.postings.term
  generalize (openBlockAt i tp.postings.term region.length st).1 = block at hbuild hopened ⊢
  generalize (openBlockAt i tp.postings.term region.length st).2 = firstTerm at hopened ⊢
  obtain ⟨hterm, span, hregion, _⟩ := buildEntry_spans hopened.base_le
    (hopened.bases ▸ hopened.base_le) hbuild
  have hwrote : Wrote env i (tps ++ [tp]) (done.flatMap resolve ++ resolve (block.addEntry e))
      region' := by
    have hbefore := hinv.wrote
    rw [List.flatMap_append, hopened.resolved] at hbefore
    rw [resolve_addEntry, ← List.append_assoc]
    exact .snoc hbefore hvalid hopened.bases hopened.base_le hbuild
  have hhashes : st.termHashes ++ [bsbfHash env.bsbf tp.postings.term] =
      (tps ++ [tp]).map fun tp => bsbfHash env.bsbf tp.postings.term := by
    rw [hinv.hashes, List.map_append, List.map_singleton]
  have hcount : st.termCount + 1 = (tps ++ [tp]).length := by
    rw [hinv.count, List.length_append, List.length_singleton]
  have httf : (st.sumTotalTermFreq + tp.postings.freqs.sum) % 2 ^ 64 =
      ((tps ++ [tp]).map fun tp => tp.postings.freqs.sum).sum % 2 ^ 64 := by
    rw [hinv.ttf, List.map_append, List.sum_append, List.map_singleton, List.sum_singleton,
      Nat.mod_add_mod]
  have hdone : ∀ b ∈ done, BlockShape i b := fun b hb => hinv.shape b (by simp [hb])
  unfold addToBlock
  by_cases hfull : (block.addEntry e).estimatedBytes ≥ i.target
  · rw [if_pos hfull, hopened.first e hterm]
    obtain ⟨hdict, hrecords⟩ := flushBlock_records (block.addEntry e) hinv.dict hinv.records
    refine ⟨done ++ [block.addEntry e], hdict, hrecords, ?_, fun b hb => (by cases hb),
      fun b hb => (by cases hb), by simpa using hwrote, hhashes, hcount, httf⟩
    intro b hb
    simp only [Option.toList_none, List.append_nil, List.mem_append, List.mem_singleton] at hb
    rcases hb with hb | rfl
    · exact hdone b hb
    · exact hopened.shape e
  · rw [if_neg hfull]
    refine ⟨done, hinv.dict, hinv.records, ?_, ?_, ?_, by simpa using hwrote, hhashes, hcount, httf⟩
    · intro b hb
      simp only [Option.toList_some, List.mem_append, List.mem_singleton] at hb
      rcases hb with hb | rfl
      · exact hdone b hb
      · exact hopened.shape e
    · intro b hb
      cases hb
      exact hopened.first e hterm
    · intro b hb
      cases hb
      show block.frqBase ≤ region'.length
      have hle := hopened.base_le
      rw [hregion, List.length_append]
      omega

/-- **The run** over a list of terms. -/
theorem processTerms_inv {more : List Emitted} (hinv : StateInv env i tps st done region)
    (h : processTerms env i st more region = .ok st' region') :
    ∃ done', StateInv env i (tps ++ more) st' done' region' := by
  induction more generalizing tps st done region with
  | nil =>
      cases h
      exact ⟨done, by simpa using hinv⟩
  | cons tp more ih =>
      unfold processTerms at h
      obtain ⟨st1, region1, hterm, hrest⟩ := bind_run_eq_ok h
      obtain ⟨done1, hinv1⟩ := processTerm_inv hinv hterm
      obtain ⟨done', hinv'⟩ := ih hinv1 hrest
      exact ⟨done', by simpa using hinv'⟩

/-! ## The build -/

/-- The terms the writer sees. -/
def TermSource.list : TermSource → List Emitted
  | .terms ts => ts
  | .drained _ ts => ts

/-- The blocks of a built index: its dictionary and records are theirs, and their
entries are the terms'. -/
structure BuiltFrom (env : BuildEnv) (w : BuiltIndex) (blocks : List DictBlockBuilder)
    (region : Bytes) : Prop where
  dict : w.dictBuf.Holds (dictBytes env blocks)
  records : w.blocks = recordsFrom env 0 blocks
  shape : ∀ b ∈ blocks, BlockShape w.input b
  wrote : Wrote env w.input w.input.source.list (blocks.flatMap resolve) region
  bsbf : buildBsbf env.bsbf
    (w.input.source.list.map fun tp => bsbfHash env.bsbf tp.postings.term) = .ok w.bsbfBytes
  stats : w.stats =
    { docCount := w.input.docCount, indexedDocCount := w.input.docCount
      termCount := w.input.source.list.length
      sumTotalTermFreq := (w.input.source.list.map fun tp => tp.postings.freqs.sum).sum % 2 ^ 64
      nullCount := 0 }
  norms : w.normsSection =
    if w.input.hasNorms then Format.PerIndexMeta.finishNormsPod w.input.encodedNorms else []
  normCount : w.input.hasNorms = true → w.input.encodedNorms.length = w.input.docCount

theorem afterDrain_eq_ok {α : Type} {status : Result Unit} {body : Posting α} {a : α}
    (h : afterDrain status body region = .ok a region') : body region = .ok a region' := by
  unfold afterDrain at h
  cases status with
  | ok u => exact h
  | error e => cases hb : body region <;> simp [hb] at h

theorem flushOpen_inv (hinv : StateInv env i tps st done region) :
    ∃ done', StateInv env i tps (flushOpen env st) done' region ∧ (flushOpen env st).block = none := by
  unfold flushOpen
  cases hblock : st.block with
  | none => exact ⟨done, hinv, hblock⟩
  | some b =>
      have hshape := hinv.shape
      have hwrote := hinv.wrote
      simp only [hblock, Option.toList_some] at hshape hwrote
      obtain ⟨hdict, hrecords⟩ := flushBlock_records b hinv.dict hinv.records
      rw [hinv.first b hblock]
      exact ⟨done ++ [b], ⟨hdict, hrecords, by simpa using hshape, fun _ hb => (by cases hb),
        fun _ hb => (by cases hb), by simpa using hwrote, hinv.hashes, hinv.count, hinv.ttf⟩, rfl⟩

theorem buildBlocks_inv (h : buildBlocks env i [] = .ok st region) :
    ∃ blocks, StateInv env i i.source.list st blocks region ∧ st.block = none := by
  unfold buildBlocks at h
  obtain ⟨st1, region1, hterms, h1⟩ := bind_run_eq_ok h
  cases h1
  have hrun : processTerms env i {} i.source.list [] = .ok st1 region := by
    unfold consumeTerms at hterms
    cases hsource : i.source with
    | terms ts =>
        rw [hsource] at hterms
        exact hterms
    | drained status ts =>
        rw [hsource] at hterms
        exact afterDrain_eq_ok hterms
  obtain ⟨done, hinv⟩ := processTerms_inv stateInv_empty hrun
  exact flushOpen_inv (by simpa using hinv)

/-- **A whole build**: the index that a successful build leaves stands for a list of
blocks, whose entries are the terms in order. -/
theorem build_builtFrom {w : BuiltIndex} (h : build env i [] = .ok w region) :
    w.input = i ∧ ∃ blocks, BuiltFrom env w blocks region := by
  unfold build at h
  by_cases hnorms : i.hasNorms ∧ i.encodedNorms.length ≠ i.docCount
  · rw [if_pos hnorms] at h
    cases h
  · rw [if_neg hnorms] at h
    obtain ⟨st, region1, hblocks, h2⟩ := bind_run_eq_ok h
    obtain ⟨bsbf, region2, hbsbf, h3⟩ := bind_run_eq_ok h2
    cases h3
    obtain ⟨hbsbf', hregion⟩ := check_eq_ok hbsbf
    subst hregion
    obtain ⟨blocks, hinv, hnone⟩ := buildBlocks_inv hblocks
    have hshape := hinv.shape
    have hwrote := hinv.wrote
    simp only [hnone, Option.toList_none, List.append_nil] at hshape hwrote
    refine ⟨rfl, blocks, hinv.dict, hinv.records, hshape, hwrote, ?_, ?_, rfl, fun hn => ?_⟩
    · rw [← hinv.hashes]
      exact hbsbf'
    · rw [← hinv.count, ← hinv.ttf]
    · by_contra hne
      exact hnorms ⟨hn, hne⟩

end Snii.Writer.LogicalIndexWriter
