import Snii.Reader.Container

/-!
# Indexes of a finished container

What a query may rely on: the index was added, its terms came in order, and the
session kept the widths of the format.  Within the reader's cap for dictionary blocks
the index opens and serves what was written (`WrittenIndex.serves`).  The writer does
not know the cap: an index of one very long term opens, and its block cannot be loaded
(`oversized_unreadable`).
-/

namespace Snii.Reader

open Snii.Lib.ByteReader Snii.Lib.Aligned Snii.Common Snii.Io.FileReader
open Snii.Encoding.Compression Snii.Format Snii.Format.Dict Snii.Format.DictBlock Snii.Format.DictIndex
open Snii.Writer.LogicalIndexWriter Snii.Writer.CompoundWriter

/-- An index that the call `a` of a session added. -/
structure WrittenIndex (env : BuildEnv) (renv : ReadEnv) (adds : List AddCall) (a : AddCall) :
    Prop where
  libs : SameLibs env renv
  added : a ∈ added env adds
  keys : ((Reader.added env adds).map fun x => keyOf x.input).Nodup
  session : SessionOk adds (containerOf env adds)
  sorted : SortedTerms a.input

variable {env : BuildEnv} {renv : ReadEnv} {adds : List AddCall} {a : AddCall}

/-- The reader of the index, opened from the finished file. -/
def OpensFrom (env : BuildEnv) (renv : ReadEnv) (adds : List AddCall) (a : AddCall)
    (idx : LogicalIndexReader) : Prop :=
  ∃ s, SniiSegmentReader.open (containerOf env adds) = .ok s ∧
    s.openIndex renv a.input.indexId a.input.indexSuffix = .ok idx

/-- **A written index** within the reader's cap opens and serves what was written. -/
theorem WrittenIndex.serves (h : WrittenIndex env renv adds a) (hcaps : CapsOk env adds) :
    ∃ idx, OpensFrom env renv adds a idx ∧ ∃ w blocks region dictOff,
      build (a.env env) a.input [] = .ok w region ∧ w.input = a.input ∧
        Serves (a.env env) renv idx w blocks region dictOff := by
  obtain ⟨-, hcont⟩ := @finish_container env adds
  rw [← containerOf] at hcont
  generalize (finish (addAll env {} adds).2).2.indexes = indexes at hcont
  obtain ⟨⟨idxs, hidxs, -⟩, -⟩ := session_opens h.libs hcont h.session h.keys hcaps
  obtain ⟨idx, -, hopen, y, -, region, has⟩ := exists_right_of_mem hidxs h.added
  have ha : a ∈ adds := (List.mem_filter.mp h.added).1
  obtain ⟨blocks, hserves⟩ := serves_of_opensTo h.libs h.session ha has.build has.placed has.opens
    (hcaps a ha _ _ has.build)
  exact ⟨idx, ⟨_, open_container hcont (sessionOk_added h.session), hopen⟩, y.1, blocks, region,
    y.2.dictOff, has.build, (build_builtFrom has.build).1, hserves⟩

/-- An index of the two calls, under its key. -/
theorem writtenIndex_twoCalls {a : AddCall} (ha : a ∈ twoCalls) (hsorted : SortedTerms a.input) :
    WrittenIndex storeEnv storeReadEnv twoCalls a := by
  have hadded := added_of_statuses statuses_twoCalls
  refine ⟨sameLibs_store, ?_, ?_, sessionOk_twoCalls, hsorted⟩
  · rw [hadded]
    exact ha
  · rw [hadded]
    decide

theorem positional_written : WrittenIndex storeEnv storeReadEnv twoCalls positionalCall := by
  apply writtenIndex_twoCalls (by simp [twoCalls])
  rw [SortedTerms]
  decide

/-! ## A block beyond the cap -/

/-- A lossless library: it knows one input by heart and marks what else it stores. -/
def knowing (known : Bytes) : Zstd where
  compress _ input := .ok (if input = known then [] else 0 :: input)
  decompress disk _ := .ok (match disk with
    | [] => known
    | _ :: input => input)

theorem knowing_lossless (known : Bytes) : (knowing known).Lossless := by
  constructor
  intro level input
  by_cases hknown : input = known
  · exact ⟨[], by simp [knowing, hknown], by simp, by simp [knowing, hknown]⟩
  · exact ⟨0 :: input, by simp [knowing, hknown], by simp; omega, rfl⟩

/-- The libraries of a session whose one block compresses well. -/
def knowingEnv (term : Bytes) : BuildEnv := { storeEnv with zstd := knowing (oneBlock term).finish }

def knowingReadEnv (term : Bytes) : ReadEnv :=
  { zstd := knowing (oneBlock term).finish, bsbf := storeEnv.bsbf
    bsbfResidentMaxBytes := 256 * 1024 }

/-- A term that fits the format and whose block is beyond the reader's cap. -/
def Oversized (term : Bytes) : Prop :=
  kMaxDictBlockUncompBytes < term.length ∧ term.length + 300 < 2 ^ 32

theorem oversized_replicate {n : Nat} (h : n = 2 ^ 29) : Oversized (List.replicate n 0) := by
  rw [Oversized, List.length_replicate, h]
  decide

variable {term : Bytes}

theorem lt_length_finish_one (h : Oversized term) :
    kMaxDictBlockUncompBytes < (oneBlock term).finish.length := by
  have hlen := length_finish_one term
  have hle := (DictBlockBuilder.le_finish (b := oneBlock term) (Nat.lt_of_le_of_lt hlen h.2)
    (show oneEntry term ∈ (oneBlock term).entries from List.mem_cons_self)).1
  exact Nat.lt_of_lt_of_le h.1 hle

/-- The block's record asks for decompression to its length. -/
theorem packBlock_known (term : Bytes) (h : Oversized term) :
    packBlock ((oneCall term).env (knowingEnv term)).zstd (oneBlock term).finish =
      ([], kZstd, (oneBlock term).finish.length) := by
  have hlt := lt_length_finish_one h
  have hcomp : zstdCompress (knowing (oneBlock term).finish) (oneBlock term).finish
      kDictBlockZstdLevel = .ok [] := by simp [zstdCompress, knowing]
  show packBlock (knowing (oneBlock term).finish) (oneBlock term).finish = _
  rw [packBlock, hcomp]
  exact if_pos (by simp only [List.length_nil]; omega)

theorem blockRef_known (term : Bytes) (h : Oversized term) (dictOff : Nat) :
    (blockRef dictOff
        (recordOf ((oneCall term).env (knowingEnv term)) 0 (oneBlock term))).zstd = true ∧
      kMaxDictBlockUncompBytes < (blockRef dictOff
        (recordOf ((oneCall term).env (knowingEnv term)) 0 (oneBlock term))).uncompLen := by
  have hbit : FrqPrelude.hasBit kZstd 0 = true := by decide
  simp only [BlockRef.zstd, blockRef, recordOf, packBlock_known term h]
  exact ⟨hbit, lt_length_finish_one h⟩

/-- A reader of an index with one block that cannot be loaded. -/
structure Unreadable (renv : ReadEnv) (idx : LogicalIndexReader) (term : Bytes) : Prop where
  refs : ∃ ref, idx.blockRefs = [ref] ∧ ∀ br, loadBlock renv idx ref ≠ .ok br
  samples : idx.sampleTerms = [term]
  filter : FilterAt renv idx.file [term] idx.bsbf

theorem loadBlock_oversized {idx : LogicalIndexReader} {ref : BlockRef} (hzstd : ref.zstd = true)
    (hlen : kMaxDictBlockUncompBytes < ref.uncompLen) (br : DictBlockReader) :
    loadBlock renv idx ref ≠ .ok br := by
  intro hload
  rw [loadBlock] at hload
  obtain ⟨disk, -, h1⟩ := bind_eq_ok hload
  obtain ⟨plain, hinflate, -⟩ := bind_eq_ok h1
  rw [inflateBlock, if_pos hzstd, if_pos (.inr hlen)] at hinflate
  cases hinflate

/-- The term is looked up in the block that cannot be loaded. -/
theorem Unreadable.lookup_ne_ok {idx : LogicalIndexReader} (h : Unreadable renv idx term)
    (hit : Option Resolved) : lookup renv idx term ≠ .ok hit := by
  obtain ⟨ref, hrefs, hload⟩ := h.refs
  obtain ⟨maybe, hprobe, hmaybe⟩ := h.filter.probe term
  have hlocate : locate idx.sampleTerms term = some 0 := by
    rw [h.samples, locate]
    simp [Lib.SortedSearch.upperBound]
  intro hlookup
  rw [Reader.lookup, hprobe, ok_bind, if_pos (hmaybe List.mem_cons_self), hlocate] at hlookup
  obtain ⟨ref', href, hrest⟩ := bind_eq_ok hlookup
  rw [hrefs] at href
  cases href
  obtain ⟨br, hbr, -⟩ := bind_eq_ok hrest
  exact hload br hbr

/-- **An index of one term beyond the cap** is written and opens, and cannot be read. -/
theorem oversized_unreadable (h : Oversized term) :
    WrittenIndex (knowingEnv term) (knowingReadEnv term) [oneCall term] (oneCall term) ∧
      ∃ idx, OpensFrom (knowingEnv term) (knowingReadEnv term) [oneCall term] (oneCall term) idx ∧
        Unreadable (knowingReadEnv term) idx term := by
  obtain ⟨-, hcont⟩ := @finish_container (knowingEnv term) [oneCall term]
  have hsize := size_one (.nil _) hcont (by have := h.2; omega)
  have hok := sessionOk_one term hsize
  have hadded := added_one (.nil (knowingEnv term)) term
  constructor
  · refine ⟨⟨rfl, rfl, knowing_lossless _⟩, ?_, ?_, hok, ?_⟩
    · rw [hadded]
      exact List.mem_cons_self
    · rw [hadded]
      exact List.nodup_singleton _
    · exact List.pairwise_singleton _ _
  · generalize (finish (addAll (knowingEnv term) {} [oneCall term]).2).2.indexes = indexes at hcont
    obtain ⟨x, rfl, hbuilt, -⟩ := container_one (.nil _) hcont
    obtain ⟨-, hin, hfrom⟩ := block_one hbuilt
    have hrecords : x.1.blocks = [recordOf ((oneCall term).env (knowingEnv term)) 0 (oneBlock term)] :=
      hfrom.records
    have hwidths : WithinWidths x.1 := by
      intro r hr
      rw [hrecords] at hr
      cases List.mem_singleton.mp hr
      rw [plainLen_recordOf]
      exact Nat.lt_of_le_of_lt (length_finish_one term) h.2
    have hok := @sessionOk_added (knowingEnv term) _ _ hok
    obtain ⟨idx, hopen, hto⟩ := @openIndex_opensTo (knowingEnv term) (knowingReadEnv term) _ _ _
      hcont hok rfl _ _ x List.mem_cons_self
      (@findEntry_of_nodup [x] (List.nodup_singleton _) x List.mem_cons_self) hwidths
    refine ⟨idx, ⟨_, open_container hcont hok, ?_⟩, ?_, ?_, ?_⟩
    · rw [hin] at hopen
      exact hopen
    · refine ⟨blockRef x.2.dictOff
        (recordOf ((oneCall term).env (knowingEnv term)) 0 (oneBlock term)), ?_, ?_⟩
      · rw [hto.refs, hrecords, List.map_singleton]
      · have hknown := blockRef_known term h x.2.dictOff
        exact loadBlock_oversized hknown.1 hknown.2
    · rw [hto.samples, hrecords]
      rfl
    · have hfilter := hto.filter
      rw [hin] at hfilter
      rw [hto.file_eq]
      exact hfilter

end Snii.Reader
