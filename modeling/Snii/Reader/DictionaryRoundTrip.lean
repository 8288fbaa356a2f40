import Snii.Reader.WrittenIndex

/-!
# The dictionary of a written index

`lookup` and `prefix_terms` answer for exactly the terms that were written.  What they
return is the entry the build made of the term, as the tier stores it, with the bases
of the block that holds it.
-/

namespace Snii.Reader

open Snii.Lib.ByteReader Snii.Lib.Aligned Snii.Common
open Snii.Encoding.Compression Snii.Format.Dict Snii.Format.DictBlock
open Snii.Writer.LogicalIndexWriter Snii.Writer.CompoundWriter

variable {env : BuildEnv} {renv : ReadEnv} {idx : LogicalIndexReader} {w : BuiltIndex}
  {blocks : List DictBlockBuilder} {region : Bytes} {dictOff : Nat}

/-- The entry of a term. -/
def entryOf (blocks : List DictBlockBuilder) (t : Bytes) : Option Resolved :=
  (blocks.flatMap resolve).find? fun r => decide (r.entry.term = t)

theorem entryOf_some {t : Bytes} {r : Resolved} (h : entryOf blocks t = some r) :
    r ∈ blocks.flatMap resolve ∧ r.entry.term = t := by
  rw [entryOf] at h
  have hterm := List.find?_some h
  exact ⟨List.mem_of_find?_eq_some h, of_decide_eq_true hterm⟩

/-- The terms are distinct: an entry is the one that its term finds. -/
theorem entryOf_mem (h : Serves env renv idx w blocks region dictOff) (hs : SortedTerms w.input)
    {r : Resolved} (hr : r ∈ blocks.flatMap resolve) : entryOf blocks r.entry.term = some r := by
  have hnodup : ((blocks.flatMap resolve).map (·.entry.term)).Nodup :=
    List.pairwise_map.mpr ((h.sorted hs).imp fun hlt => ne_of_lt hlt)
  cases hfind : entryOf blocks r.entry.term with
  | none =>
      rw [entryOf, List.find?_eq_none] at hfind
      exact absurd (decide_eq_true rfl) (hfind r hr)
  | some r' =>
      obtain ⟨hr', hterm⟩ := entryOf_some hfind
      rw [List.inj_on_of_nodup_map hnodup hr' hr hterm]

/-- What the dictionary of an opened index answers, for the entries that the build made
of its terms. -/
structure Answers (renv : ReadEnv) (idx : LogicalIndexReader) (i : SniiIndexInput)
    (entries : List Resolved) : Prop where
  found : ∀ t, (∃ r, lookup renv idx t = .ok (some r)) ↔ t ∈ termsOf i
  absent : ∀ t, t ∉ termsOf i → lookup renv idx t = .ok none
  entry : ∀ r ∈ entries, lookup renv idx r.entry.term = .ok (some (seen i r))
  enumerated : ∀ pre, prefixTerms renv idx pre =
    .ok ((entries.filter fun r => pre.isPrefixOf r.entry.term).map (seen i))
  ascending : entries.Pairwise (·.entry.term < ·.entry.term)

theorem answers_of_serves (h : Serves env renv idx w blocks region dictOff)
    (hs : SortedTerms w.input) : Answers renv idx w.input (blocks.flatMap resolve) := by
  have hterms : ∀ t, t ∈ termsOf w.input ↔ ∃ r ∈ blocks.flatMap resolve, r.entry.term = t := by
    intro t
    rw [termsOf, ← h.built.wrote.terms, List.mem_map]
  have hlookup : ∀ t, lookup renv idx t = .ok ((entryOf blocks t).map (seen w.input)) :=
    fun t => h.lookup hs t
  have hentry : ∀ r ∈ blocks.flatMap resolve,
      lookup renv idx r.entry.term = .ok (some (seen w.input r)) := by
    intro r hr
    rw [hlookup, entryOf_mem h hs hr]
    rfl
  have habsent : ∀ t, t ∉ termsOf w.input → lookup renv idx t = .ok none := by
    intro t ht
    cases hfind : entryOf blocks t with
    | none =>
        rw [hlookup, hfind]
        rfl
    | some r => exact absurd ((hterms t).mpr ⟨r, entryOf_some hfind⟩) ht
  refine ⟨fun t => ⟨?_, ?_⟩, habsent, hentry, h.prefixTerms hs, h.sorted hs⟩
  · rintro ⟨r, hr⟩
    by_contra ht
    rw [habsent t ht] at hr
    cases hr
  · intro ht
    obtain ⟨r, hr, rfl⟩ := (hterms t).mp ht
    exact ⟨_, hentry r hr⟩

/-- **Dictionary round trip.**  Over a written index within the reader's cap, lookups
and enumerations answer for exactly the written terms, each with the entry that the
build made of it as its tier stores it, and with the bases of the block it was
written in: that of the positions where the tier has them. -/
theorem dictionary_roundTrip {adds : List AddCall} {a : AddCall}
    (h : WrittenIndex env renv adds a) (hcaps : CapsOk env adds) :
    ∃ idx w region blocks, OpensFrom env renv adds a idx ∧
      build (a.env env) a.input [] = .ok w region ∧
      w.dictBuf.streamInto = dictBytes (a.env env) blocks ∧
      List.Forall₂ (WroteAt (a.env env) a.input region) a.input.source.list
        (blocks.flatMap resolve) ∧
      Answers renv idx a.input (blocks.flatMap resolve) := by
  obtain ⟨idx, hopens, w, blocks, region, dictOff, hbuild, hin, hserves⟩ := h.serves hcaps
  have hanswers := answers_of_serves hserves (hin ▸ h.sorted)
  have hwrote := hserves.built.wrote.each
  rw [hin] at hanswers hwrote
  exact ⟨idx, w, region, blocks, hopens, hbuild, hserves.built.dict.streamInto, hwrote, hanswers⟩

theorem dictionary_roundTrip_twoCalls : ∃ idx w region blocks,
    OpensFrom storeEnv storeReadEnv twoCalls positionalCall idx ∧
      build (positionalCall.env storeEnv) positionalCall.input [] = .ok w region ∧
      w.dictBuf.streamInto = dictBytes (positionalCall.env storeEnv) blocks ∧
      List.Forall₂ (WroteAt (positionalCall.env storeEnv) positionalCall.input region)
        positionalCall.input.source.list (blocks.flatMap resolve) ∧
      Answers storeReadEnv idx positionalCall.input (blocks.flatMap resolve) :=
  dictionary_roundTrip positional_written capsOk_twoCalls

/-! ## Blocks without positions -/

/-- An index without positions whose two terms are in blocks of their own. -/
def cutInput : SniiIndexInput :=
  { config := .docsOnly, docCount := 2 ^ 31, targetDictBlockBytes := 1
    source := .terms
      [{ postings := { term := [97], docids := (List.range 100).map (· * 2 ^ 25)
                       freqs := List.replicate 100 1 } },
       { postings := { term := [98], docids := [1], freqs := [1] } }] }

def cutCall : AddCall := { overCap := fun _ => false, input := cutInput }

theorem writtenIndex_cut : WrittenIndex storeEnv storeReadEnv [cutCall] cutCall := by
  have hstatus : ∀ status ∈ (addAll storeEnv {} [cutCall]).1, status = .ok () := by decide +kernel
  have hadded := added_of_statuses hstatus
  refine ⟨sameLibs_store, ?_, ?_, ⟨by decide +kernel, by decide, by decide +kernel⟩, ?_⟩
  · rw [hadded]
    exact List.mem_cons_self
  · rw [hadded]
    exact List.nodup_singleton _
  · rw [SortedTerms]
    decide

theorem capsOk_cut : CapsOk storeEnv [cutCall] := capsOk_of_capsHold (by decide +kernel)

/-- Where the second block of a dictionary starts, and what its header says. -/
def secondHeader (w : BuiltIndex) : List Nat × Option (Nat × Nat × Nat) :=
  let offsets := w.blocks.map BlockRecord.relOffset
  (offsets, match (readHeader false).run (w.dictBuf.streamInto.drop (offsets.getD 1 0)) with
    | .ok (header, _) => some header
    | .error _ => none)

/-- What is said of the second block by the result of a build. -/
def secondHeaderOf : EStateM.Result Status Bytes BuiltIndex → List Nat × Option (Nat × Nat × Nat)
  | .ok w _ => secondHeader w
  | .error _ _ => ([], none)

theorem secondHeader_cut {w : BuiltIndex} {region : Bytes}
    (h : build (cutCall.env storeEnv) cutInput [] = .ok w region) :
    secondHeader w = ([0, 34], some (1, 328, 0)) := by
  have heval : secondHeaderOf (build (cutCall.env storeEnv) cutInput []) =
      ([0, 34], some (1, 328, 0)) := by decide +kernel
  rwa [h] at heval

theorem diskOf_store (b : DictBlockBuilder) : diskOf (cutCall.env storeEnv) b = b.finish := by
  have hcomp : zstdCompress Zstd.store b.finish kDictBlockZstdLevel = .ok b.finish := rfl
  show (packBlock Zstd.store b.finish).1 = b.finish
  rw [packBlock, hcomp]
  simp

/-- A stored block without positions starts with its number of entries and its base. -/
theorem readHeader_finish {b : DictBlockBuilder} (h : b.BlockOk) (hpos : b.hasPositions = false)
    (hcount : b.entries.length < 2 ^ 64) :
    ∃ rest, (readHeader false).run b.finish = .ok ((b.entries.length, b.frqBase, 0), rest) := by
  have hread := DictBlockBuilder.reads_header hcount h.frqBase h.prxBase
  rw [hpos, if_neg Bool.false_ne_true] at hread
  rw [DictBlockBuilder.finish_eq h.size, DictBlockBuilder.covered_eq, List.append_assoc]
  exact ⟨_, hread _⟩

/-- The second block holds the second term, and its base is what the first term took. -/
theorem secondBlock_cut {w : BuiltIndex} {region : Bytes} {blocks : List DictBlockBuilder}
    (hbuild : build (cutCall.env storeEnv) cutInput [] = .ok w region)
    (h : BuiltFrom (cutCall.env storeEnv) w blocks region)
    (hok : ∀ b ∈ blocks, b.BlockOk) :
    ∃ b ∈ blocks, ∃ e ∈ b.entries, e.term = [98] ∧ b.frqBase = 328 := by
  have heval := secondHeader_cut hbuild
  have hterms := h.wrote.terms
  rw [(build_builtFrom hbuild).1] at hterms
  rw [secondHeader, h.records, h.dict.streamInto] at heval
  have hlen : blocks.length = 2 := by
    have hoffs := congrArg (fun x => x.1.length) heval
    simpa [length_recordsFrom] using hoffs
  obtain ⟨b1, b2, rfl⟩ := List.length_eq_two.mp hlen
  have hb2 : b2 ∈ [b1, b2] := by simp
  have hpos : b2.hasPositions = false := by
    rw [(h.shape b2 hb2).spec.2, (build_builtFrom hbuild).1]
    rfl
  have hcount : b2.entries.length < 2 ^ 64 := by
    have htotal := congrArg List.length hterms
    have hsum : b1.entries.length + b2.entries.length = 2 := by
      simpa [resolve, cutInput, TermSource.list] using htotal
    omega
  obtain ⟨rest, hread⟩ := readHeader_finish (hok b2 hb2) hpos hcount
  have hsecond : (dictBytes (cutCall.env storeEnv) [b1, b2]).drop
      (((recordsFrom (cutCall.env storeEnv) 0 [b1, b2]).map BlockRecord.relOffset).getD 1 0) =
        b2.finish := by
    simp [recordsFrom, recordOf, dictBytes, diskOf_store]
  rw [hsecond, hread] at heval
  injection heval with _ hheader
  injection hheader with hheader
  injection hheader with hone hbase
  injection hbase with hbase _
  obtain ⟨e, he⟩ := List.length_eq_one_iff.mp hone
  refine ⟨b2, hb2, e, by rw [he]; exact List.mem_cons_self, ?_, hbase⟩
  have hlast := congrArg List.getLast? hterms
  simpa [resolve, he, cutInput, TermSource.list] using hlast

/-- The second block of an index without positions has a base, and the reader returns
none of them for the positions. -/
theorem lookup_docsOnly_base : WrittenIndex storeEnv storeReadEnv [cutCall] cutCall ∧
    CapsOk storeEnv [cutCall] ∧ ∃ idx w region blocks,
      OpensFrom storeEnv storeReadEnv [cutCall] cutCall idx ∧
      build (cutCall.env storeEnv) cutInput [] = .ok w region ∧
      w.dictBuf.streamInto = dictBytes (cutCall.env storeEnv) blocks ∧
      ∃ b ∈ blocks, ∃ e ∈ b.entries, e.term = [98] ∧
        ∃ r, lookup storeReadEnv idx [98] = .ok (some r) ∧ r.prxBase ≠ b.prxBase := by
  obtain ⟨idx, hopens, w, blocks, region, dictOff, hbuild, hin, hserves⟩ :=
    writtenIndex_cut.serves capsOk_cut
  have hanswers := answers_of_serves hserves (hin ▸ writtenIndex_cut.sorted)
  obtain ⟨b, hb, e, he, hterm, hbase⟩ :=
    secondBlock_cut hbuild hserves.built fun b hb => hserves.blockOk hb
  have hlookup := hanswers.entry ⟨e, b.frqBase, b.prxBase⟩
    (List.mem_flatMap.mpr ⟨b, hb, List.mem_map_of_mem he⟩)
  rw [hterm, hin] at hlookup
  refine ⟨writtenIndex_cut, capsOk_cut, idx, w, region, blocks, hopens, hbuild,
    hserves.built.dict.streamInto, b, hb, e, he, hterm, _, hlookup, ?_⟩
  rw [(hserves.built.shape b hb).2.1, hbase]
  show (0 : Nat) ≠ 328
  decide

end Snii.Reader
