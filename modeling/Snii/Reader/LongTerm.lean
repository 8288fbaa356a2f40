import Snii.Reader.ContainerRoundTrip
import Snii.Writer.PostingTiling

/-!
# Indexes of one term

An index of one term can always be added, however long the term is.  The format keeps
the lengths of terms in 32 bits, and a term of 2^32 bytes leaves a container that opens
and whose index does not (`openIndex_tooLong`).
-/

namespace Snii.Reader

open Snii.Lib.ByteReader Snii.Lib.Aligned Snii.Common Snii.Io.FileReader
open Snii.Encoding.Crc32c Snii.Encoding.ByteSource Snii.Encoding.SectionFramer
open Snii.Format.ContainerEnds Snii.Format.TailMeta Snii.Format.Dict Snii.Format.DictBlock
open Snii.Format Snii.Format.DictIndex Snii.Format.Bsbf
open Snii.Format.PerIndexMeta (RegionRef SectionRefs)
open Snii.Writer.LogicalIndexWriter Snii.Writer.CompoundWriter Snii.Writer.SpillRunCodec

def onePosting (term : Bytes) : Emitted :=
  { postings := { term := term, docids := [0], freqs := [1] } }

def oneTerm (term : Bytes) : SniiIndexInput :=
  { config := .docsOnly, docCount := 1, source := .terms [onePosting term] }

theorem check_run {α : Type} {r : Result α} {a : α} (h : r = .ok a) (region : Bytes) :
    check r region = .ok a region := by
  rw [h]
  rfl

def oneEntry (term : Bytes) : DictEntry :=
  inlineEntry (oneTerm term).entryConfig (entryStats (onePosting term).postings)
    (onePosting term).postings []

variable (env : BuildEnv)

/-- The one region of one document. -/
theorem encodeRegions_one (z : Encoding.Compression.Zstd) : encodeRegions z [0] [1] 0 false =
    .ok ((slimDd (onePosting []).postings, rawMeta (slimDd (onePosting []).postings)), ([], {})) := by
  have hvalid : FrqPod.validateDocs [0] 0 = .ok () := rfl
  rw [encodeRegions, FrqPod.buildDdRegion, hvalid, ok_bind, kRawFrqRegion, FrqPod.emitRegion_raw]
  rfl

/-- The entry of the term is inline. -/
theorem buildEntry_one (term : Bytes) :
    buildEntry env.zstd (oneTerm term).entryConfig (onePosting term) 0 0 [] =
      .ok (oneEntry term) [] := by
  have henc : encodeRegions env.zstd (onePosting term).postings.docids
    (onePosting term).postings.freqs 0 (oneTerm term).entryConfig.hasFreq = _ :=
      encodeRegions_one env.zstd
  have hwin : makePrxWindow env.zstd (oneTerm term).entryConfig (onePosting term).postings =
    .ok [] := rfl
  have hdf : ¬ (entryStats (onePosting term).postings).df ≥ kSlimDfThreshold := by
    show ¬ 1 % 2 ^ 32 ≥ kSlimDfThreshold
    decide
  have hle : (slimDd (onePosting []).postings ++ []).length ≤ kDefaultInlineThreshold := by
    decide +kernel
  rw [buildEntry, if_neg hdf, buildSlimEntry, bind_ok (check_run henc [])]
  dsimp only
  rw [bind_ok (check_run hwin []), if_pos hle]
  rfl

theorem processTerm_one (term : Bytes) :
    ∃ st, processTerm env (oneTerm term) {} (onePosting term) [] = .ok st [] := by
  have hvalid : validateTerm (oneTerm term).hasPrx (onePosting term).postings = .ok () := rfl
  rw [processTerm, bind_ok (check_run hvalid []), bind_ok (postingSize_run [])]
  exact ⟨_, bind_ok (buildEntry_one env term)⟩

theorem buildBsbf_ok (p : BsbfParams) (hashes : List Nat) :
    ∃ bytes, buildBsbf p hashes = .ok bytes ∧ bytes.length < 2 ^ 33 := by
  unfold buildBsbf
  split
  · exact ⟨_, rfl, by decide⟩
  · have hok : ∀ (hashes : List Nat) b, BuilderOk b →
        BuilderOk (hashes.foldl BsbfBuilder.insert b) := by
      intro hashes
      induction hashes with
      | nil => exact fun b hb => hb
      | cons x hashes ih => exact fun b hb => ih _ (hb.insert x)
    have hbuilder := hok hashes _ (createBsbf_ok p (hashes.length % 2 ^ 32))
    have hlt := hbuilder.blocks.2.2.2.1
    refine ⟨_, serialize_eq hbuilder, ?_⟩
    rw [List.length_append, length_head, hbuilder.length_bitset]
    have hk : kBsbfHeaderSize = 28 := rfl
    omega

/-- The index of the one term is built. -/
theorem build_one (term : Bytes) : ∃ w, build env (oneTerm term) [] = .ok w [] := by
  obtain ⟨st, hterm⟩ := processTerm_one env term
  have hterms : consumeTerms env (oneTerm term) [] = .ok st [] := by
    show processTerms env (oneTerm term) {} [onePosting term] [] = _
    rw [processTerms, bind_ok hterm]
    rfl
  have hblocks : buildBlocks env (oneTerm term) [] = .ok (flushOpen env st) [] := by
    rw [buildBlocks, bind_ok hterms]
    rfl
  obtain ⟨bits, hbits, _⟩ := buildBsbf_ok env.bsbf (flushOpen env st).termHashes
  have hnorms : ¬ ((oneTerm term).hasNorms = true ∧
      (oneTerm term).encodedNorms.length ≠ (oneTerm term).docCount) :=
    fun hn => Bool.false_ne_true hn.1
  rw [build, if_neg hnorms]
  show ∃ w, (buildBlocks env (oneTerm term) >>= _) [] = _
  rw [bind_ok hblocks, bind_ok (check_run hbits [])]
  exact ⟨_, rfl⟩

/-! ## Lengths -/

/-- A blob is its bytes and a length. -/
theorem length_putBlob_le (bytes : Bytes) : (putBlob bytes).length ≤ bytes.length + 10 := by
  have hlen := length_putVarint64_le bytes.length
  simp only [putBlob, List.length_append]
  omega

/-- A term key is its bytes and two lengths. -/
theorem length_writeTermKey_le (term prev : Bytes) :
    (writeTermKey term prev).length ≤ term.length + 20 := by
  have h1 := length_putVarint32_le (commonPrefixLen term prev)
  have h2 := length_putVarint32_le ((term.drop (commonPrefixLen term prev)).length % 2 ^ 32)
  simp only [writeTermKey, List.length_append, List.length_drop] at h1 h2 ⊢
  omega

/-- Packing never grows a block. -/
theorem length_packBlock_le (b : DictBlockBuilder) :
    (diskOf env b).length ≤ b.finish.length := by
  unfold diskOf packBlock
  split
  · split <;> simp only <;> omega
  · exact Nat.le_refl _

theorem length_inlineEntry_le (term : Bytes) :
    (encodeDictEntry (oneEntry term) [] .t1).length ≤ term.length + 200 := by
  have hfrq : (oneEntry term).frqBytes.length ≤ 100 := by
    show (oneEntry []).frqBytes.length ≤ 100
    decide +kernel
  have h1 := length_putBlob_le (writeBody (oneEntry term) [] .t1)
  have h2 := length_writeTermKey_le (oneEntry term).term []
  have h3 := length_putVarint32_le (oneEntry term).df
  have h4 := length_putBlob_le (oneEntry term).frqBytes
  have h5 := length_putVarint64_le (oneEntry term).inlineDdDiskLen
  have h6 := length_putVarint64_le (oneEntry term).ddMeta.uncompLen
  have hkind : (oneEntry term).kind = .inline := rfl
  have hterm : (oneEntry term).term = term := rfl
  have hstats : tierHasStats .t1 = false := rfl
  rw [encodeDictEntry]
  simp only [writeBody, hkind, if_true, writeInline, writeStats, writeRegionMeta, writeRegion, hstats,
    Bool.false_eq_true, if_false, List.length_append, length_putU8, List.length_nil, hterm] at h1 h2 ⊢
  omega

/-- A payload with a zero count and more bytes is refused. -/
theorem sampled_long {more : Bytes} (h : more ≠ []) :
    parseSampledPayload (1 :: 0 :: 0 :: 0 :: 0 :: 0 :: 0 :: more) =
      .error (.corruption "sampled_term_index: payload contains trailing bytes") := by
  obtain ⟨b, rest, rfl⟩ := List.exists_cons_of_ne_nil h
  rfl

variable {env}

/-- One term makes one entry, at the start. -/
theorem wrote_one {i : SniiIndexInput} {tp : Emitted} {rs : List Resolved} {region : Bytes}
    (h : Wrote env i [tp] rs region) : ∃ r, rs = [r] ∧ r.prxBase = r.frqBase ∧
      r.frqBase = 0 ∧ buildEntry env.zstd i.entryConfig tp 0 0 [] = .ok r.entry region := by
  generalize htps : [tp] = tps at h
  cases h with
  | nil => cases htps
  | @snoc tps rs before region tp' r wrote valid bases base_le built =>
      obtain ⟨hnil, hone⟩ := List.append_inj' (show [] ++ [tp] = tps ++ [tp'] from htps) rfl
      cases hone
      cases wrote with
      | nil =>
          have hzero : r.frqBase = 0 := Nat.le_zero.mp base_le
          rw [bases, hzero] at built
          exact ⟨r, rfl, bases, hzero, built⟩
      | snoc => simp at hnil

/-- The one block of the index. -/
theorem block_one {term : Bytes} {w : BuiltIndex} {region : Bytes}
    (h : build env (oneTerm term) [] = .ok w region) : region = [] ∧ w.input = oneTerm term ∧
      BuiltFrom env w [(newBuilder .t1 false 0 0).addEntry (oneEntry term)] region := by
  obtain ⟨hin, blocks, hbuilt⟩ := build_builtFrom h
  have hwrote := hbuilt.wrote
  rw [hin] at hwrote
  obtain ⟨r, hr, hbases, hzero, hentry⟩ := wrote_one hwrote
  rw [buildEntry_one] at hentry
  obtain ⟨hone, hregion⟩ := EStateM.Result.ok.inj hentry
  refine ⟨hregion.symm, hin, ?_⟩
  have hblocks : blocks = [(newBuilder .t1 false 0 0).addEntry (oneEntry term)] := by
    cases blocks with
    | nil => cases hr
    | cons b bs =>
        obtain ⟨hne, hprx, hb⟩ := hbuilt.shape b List.mem_cons_self
        obtain ⟨e, es, he⟩ := List.exists_cons_of_ne_nil hne
        rw [List.flatMap_cons, resolve, he, List.map_cons, List.cons_append] at hr
        obtain ⟨hhead, htail⟩ := List.cons.inj hr
        obtain ⟨hes, hbs⟩ := List.append_eq_nil_iff.mp htail
        have hlast : bs = [] := by
          cases bs with
          | nil => rfl
          | cons c cs =>
              obtain ⟨hc, _⟩ := hbuilt.shape c (by simp)
              rw [List.flatMap_cons, List.append_eq_nil_iff, resolve, List.map_eq_nil_iff] at hbs
              exact absurd hbs.1 hc
        have hbase : b.frqBase = 0 := by
          rw [← hzero, ← hhead]
        have hentry : e = oneEntry term := by rw [hone, ← hhead]
        rw [hlast, hb, hprx, hbase, he, List.map_eq_nil_iff.mp hes, hentry, hin]
        rfl
  rwa [hblocks] at hbuilt

def oneBlock (term : Bytes) : DictBlockBuilder :=
  (newBuilder .t1 false 0 0).addEntry (oneEntry term)

theorem length_finish_one (term : Bytes) : (oneBlock term).finish.length ≤ term.length + 300 := by
  have h1 := length_inlineEntry_le term
  have h2 := length_putVarint64_le (oneBlock term).nEntries
  have h3 := length_putVarint64_le (oneBlock term).frqBase
  have hentries : (oneBlock term).encodeEntries 0 [] (oneBlock term).header.length
      (oneBlock term).entries = (encodeDictEntry (oneEntry term) [] .t1 ++ [],
        [(oneBlock term).header.length % 2 ^ 32]) := rfl
  have hheader : (oneBlock term).header.length ≤ 30 := by
    rw [DictBlockBuilder.header]
    simp only [List.length_append, length_putU8]
    have hpos : (oneBlock term).hasPositions = false := rfl
    rw [hpos, if_neg Bool.false_ne_true, List.length_nil]
    omega
  rw [DictBlockBuilder.finish, hentries]
  simp only [List.flatMap_singleton, List.length_append, length_putFixed32, List.length_nil]
  omega

theorem length_encodeRef_le (ref : BlockRef) : (encodeRef ref).length ≤ 50 := by
  have h1 := length_putVarint64_le ref.offset
  have h2 := length_putVarint64_le ref.length
  have h3 := length_putVarint32_le ref.nEntries
  have h4 := length_putVarint64_le ref.uncompLen
  rw [encodeRef]
  split <;> simp only [List.length_append, length_putU8, length_putFixed32, List.length_nil] <;> omega

theorem length_directory_one (ref : BlockRef) :
    (finishDictBlockDirectory [ref]).length ≤ 100 := by
  have h1 := length_writeSection_le SectionType.dictBlockDirectory.code
    (putVarint32 ([ref].length % 2 ^ 32) ++ [ref].flatMap encodeRef)
  have h2 := length_encodeRef_le ref
  have h3 := length_putVarint32_le ([ref].length % 2 ^ 32)
  rw [finishDictBlockDirectory]
  simp only [List.length_append, List.flatMap_singleton] at h1 h2 ⊢
  omega

theorem length_statsBlock_le (sb : Format.PerIndexMeta.StatsBlock) :
    (Format.PerIndexMeta.encodeStatsBlock sb).length ≤ 100 := by
  have h1 := length_writeSection_le SectionType.statsBlock.code (Format.PerIndexMeta.statsPayload sb)
  have h2 := Format.PerIndexMeta.length_statsPayload sb
  rw [Format.PerIndexMeta.encodeStatsBlock]
  omega

theorem length_sectionRefs_le (refs : SectionRefs) :
    (Format.PerIndexMeta.encodeSectionRefs refs).length ≤ 200 := by
  have h1 := length_writeSection_le SectionType.sectionRefs.code
    (Format.PerIndexMeta.sectionRefsPayload refs)
  have h2 := Format.PerIndexMeta.length_sectionRefsPayload refs
  rw [Format.PerIndexMeta.encodeSectionRefs]
  omega

theorem length_sampledPayload_one (term : Bytes) :
    (sampledPayload [term]).length ≤ 3 * term.length + 70 := by
  have h1 := length_writeTermKey_le term []
  have h2 := length_putVarint32_le ([term].length % 2 ^ 32)
  have hpay : sampledPayload [term] = putVarint32 ([term].length % 2 ^ 32) ++
    (writeTermKey term [] ++ writeTermKey term [] ++ (writeTermKey term [] ++ [])) := rfl
  rw [hpay]
  simp only [List.length_append, List.length_nil] at h1 h2 ⊢
  omega

theorem length_meta_one {term : Bytes} {w : BuiltIndex} (p : Placement)
    (h : BuiltFrom env w [oneBlock term] []) (hin : w.input = oneTerm term) :
    (metaEntry (w, p)).bytes.length ≤ 3 * term.length + 1000 := by
  have hblocks : w.blocks = [recordOf env 0 (oneBlock term)] := h.records
  have hmeta : (metaEntry (w, p)).bytes =
      Format.PerIndexMeta.encodeHeader (w.indexMeta p.sectionRefs p.dictOff) ++
        Format.PerIndexMeta.encodeStatsBlock w.stats ++
        finishSampledTermIndex (w.blocks.map BlockRecord.firstTerm) ++
        finishDictBlockDirectory (w.blocks.map (blockRef p.dictOff)) ++
        Format.PerIndexMeta.encodeSectionRefs p.sectionRefs := rfl
  have hsampled : (finishSampledTermIndex (w.blocks.map BlockRecord.firstTerm)).length ≤
      3 * term.length + 100 := by
    have h1 := length_writeSection_le SectionType.sampledTermIndex.code (sampledPayload [term])
    have h2 := length_sampledPayload_one term
    have hfirst : w.blocks.map BlockRecord.firstTerm = [term] := by rw [hblocks]; rfl
    rw [hfirst, finishSampledTermIndex]
    omega
  have hdirectory : (finishDictBlockDirectory (w.blocks.map (blockRef p.dictOff))).length ≤ 100 := by
    rw [hblocks]
    exact length_directory_one _
  have hheader : (Format.PerIndexMeta.encodeHeader (w.indexMeta p.sectionRefs p.dictOff)).length ≤
      100 := by
    have h1 := length_putVarint64_le (w.indexMeta p.sectionRefs p.dictOff).indexId
    have h2 := length_putVarint32_le
      ((w.indexMeta p.sectionRefs p.dictOff).indexSuffix.length % 2 ^ 32)
    have hsuffix : (w.indexMeta p.sectionRefs p.dictOff).indexSuffix = [] := by
      show w.input.indexSuffix = []
      rw [hin]
      rfl
    rw [hsuffix] at h2
    simp only [Format.PerIndexMeta.encodeHeader, Format.PerIndexMeta.headerFields, hsuffix,
      List.length_append, length_putFixed16, length_putFixed32, List.length_nil] at h1 h2 ⊢
    omega
  have hstats := length_statsBlock_le w.stats
  have hrefs := length_sectionRefs_le p.sectionRefs
  rw [hmeta]
  simp only [List.length_append]
  omega

/-! ## The container -/

/-- The session that adds the index. -/
def oneCall (term : Bytes) : AddCall := { overCap := fun _ => false, input := oneTerm term }

theorem length_directoryEntry_one (x : BuiltIndex × Placement)
    (hsuffix : x.1.input.indexSuffix = []) :
    (finishDirectory (layoutRefs kHeaderSize [metaEntry x])).length ≤ 100 := by
  have h1 := length_putVarint64_le (metaEntry x).indexId
  have h2 := length_putVarint64_le kHeaderSize
  have h3 := length_putVarint64_le (metaEntry x).bytes.length
  have h4 := length_putVarint32_le (([] : Bytes).length % 2 ^ 32)
  have h5 := length_putVarint32_le (1 % 2 ^ 32)
  have hentry : (metaEntry x).suffix = [] := hsuffix
  have hsection := length_writeSection_le SectionType.logicalIndexDirectory.code
    (putVarint32 (1 % 2 ^ 32) ++ (layoutRefs kHeaderSize [metaEntry x]).flatMap encodeEntry)
  rw [finishDirectory]
  simp only [layoutRefs, List.length_cons, List.length_nil, List.flatMap_singleton, encodeEntry, hentry,
    List.length_append, Nat.zero_add] at hsection h4 ⊢
  omega

/-- Calls that all fail, and what they leave in the output is short. -/
structure Fail (env : BuildEnv) (failed : List AddCall) : Prop where
  none : ∀ a ∈ failed, builtOf env a = none
  length : (failed.flatMap (chunk env)).length < 2 ^ 60

theorem Fail.nil (env : BuildEnv) : Fail env [] := ⟨List.forall_mem_nil _, Nat.two_pow_pos 60⟩

/-- The call succeeds. -/
theorem statusOf_one (env : BuildEnv) (term : Bytes) : statusOf env (oneCall term) = .ok () := by
  obtain ⟨w, hbuild⟩ := build_one ((oneCall term).env env) term
  have hcall : build ((oneCall term).env env) (oneCall term).input [] = .ok w [] := hbuild
  rw [statusOf, hcall]

/-- So do the calls around it as far as they did. -/
theorem session_one (term : Bytes) (failed : List AddCall) :
    (addAll env {} (oneCall term :: failed)).1 = .ok () :: failed.map (statusOf env) := by
  rw [(addAll_eq (oneCall term :: failed)).1, List.map_cons, statusOf_one]

section Failed

variable {failed : List AddCall} (hfailed : Fail env failed)

include hfailed

/-- The one index of the session. -/
theorem added_one (term : Bytes) : added env (oneCall term :: failed) = [oneCall term] := by
  obtain ⟨w, hbuild⟩ := build_one ((oneCall term).env env) term
  have hcall : build ((oneCall term).env env) (oneCall term).input [] = .ok w [] := hbuild
  have hb : builtOf env (oneCall term) = some (w, []) := by rw [builtOf, hcall]
  rw [added, List.filter_cons_of_pos (by rw [hb]; rfl), List.filter_eq_nil_iff.mpr]
  intro a ha
  rw [hfailed.none a ha]
  exact Bool.false_ne_true

/-- Its container has the one index. -/
theorem container_one {term file : Bytes} {indexes : List (BuiltIndex × Placement)}
    (h : Container env (oneCall term :: failed) file indexes) :
    ∃ x, indexes = [x] ∧ build ((oneCall term).env env) (oneTerm term) [] = .ok x.1 [] ∧
      PlacedAt file x.1 [] x.2 := by
  obtain ⟨w, hbuild⟩ := build_one ((oneCall term).env env) term
  have hcall : build ((oneCall term).env env) (oneCall term).input [] = .ok w [] := hbuild
  have hplaced := h.placed
  have hbuilt : (oneCall term :: failed).filterMap (builtOf env) = [(w, [])] := by
    have hb : builtOf env (oneCall term) = some (w, []) := by rw [builtOf, hcall]
    rw [List.filterMap_cons_some hb, List.filterMap_eq_nil_iff.mpr hfailed.none]
  rw [hbuilt] at hplaced
  cases hplaced with
  | @cons _ x _ xs hx hnil =>
      cases hnil
      refine ⟨x, rfl, ?_, ?_⟩
      · rw [hx.1]
        exact hbuild
      · rw [hx.1]
        exact hx.2

/-- Whose file is smaller than 2⁶⁴ bytes. -/
theorem size_one {term file : Bytes} {indexes : List (BuiltIndex × Placement)}
    (h : Container env (oneCall term :: failed) file indexes) (hterm : term.length ≤ 2 ^ 32) :
    file.length < 2 ^ 64 := by
  obtain ⟨x, rfl, hbuild, _⟩ := container_one hfailed h
  obtain ⟨_, hin, hbuilt⟩ := block_one hbuild
  obtain ⟨body, tail, hbody, hfile, htail, _⟩ := h.parts
  have hdict : x.1.dictBuf.streamInto.length ≤ term.length + 300 := by
    rw [hbuilt.dict.streamInto, dictBytes, List.flatMap_singleton]
    exact (length_packBlock_le _ _).trans (length_finish_one term)
  have hbits : x.1.bsbfBytes.length < 2 ^ 33 := by
    obtain ⟨bytes, hbytes, hlen⟩ := buildBsbf_ok ((oneCall term).env env).bsbf
      (x.1.input.source.list.map fun tp => bsbfHash ((oneCall term).env env).bsbf tp.postings.term)
    rw [hbuilt.bsbf] at hbytes
    cases hbytes
    exact hlen
  have hcall : build ((oneCall term).env env) (oneCall term).input [] = .ok x.1 [] := hbuild
  have hnorms : sectionOf skipNorms BuiltIndex.normsSection x.1 = [] := by
    have hnone : x.1.input.hasNorms = false := by rw [hin]; rfl
    rw [sectionOf, skipNorms, hnone]
    rfl
  have hleft := hfailed.length
  have hbodyLen : body.length ≤ 2 ^ 40 + 2 ^ 60 := by
    have hchunk : (chunk env (oneCall term)).length = x.1.dictBuf.streamInto.length := by
      rw [chunk, hcall]
      rfl
    rw [hbody, List.flatMap_cons, List.map_singleton, List.flatMap_singleton,
      List.flatMap_singleton]
    simp only [List.length_append, hchunk, hnorms, List.length_nil, length_containerHeader,
      kBootstrapHeaderSize]
    omega
  have hmeta : (metaEntry x).bytes.length ≤ 3 * term.length + 1000 :=
    length_meta_one x.2 hbuilt hin
  have hdirectory := length_directoryEntry_one x (by rw [hin]; rfl)
  have hregion : (finishRegion ([x].map metaEntry)).length ≤ 2 ^ 40 := by
    rw [length_finishRegion, List.map_singleton, metaBlocks, List.flatMap_singleton]
    simp only [kHeaderSize, kHeaderFields, kRegionChecksumSize] at hdirectory ⊢
    omega
  have htailLen : tail.length = 43 := by
    rw [encodeTailPointer_eq] at htail
    cases htail
    rw [List.length_append, length_serializeCovered, length_putFixed32]
    rfl
  rw [hfile, List.length_append, List.length_append]
  omega

end Failed

theorem sessionOk_one (term : Bytes) {file : Bytes} (hsize : file.length < 2 ^ 64) :
    SessionOk [oneCall term] file := by
  refine ⟨hsize, (by decide : 1 < 2 ^ 32), ?_⟩
  intro a ha
  cases List.mem_singleton.mp ha
  refine ⟨Nat.two_pow_pos 64, Nat.zero_le _, (by decide : 1 < 2 ^ 32), (by decide : 1 < 2 ^ 32), ?_⟩
  intro tp htp
  cases List.mem_singleton.mp htp
  refine ⟨?_, (by decide : 1 < 2 ^ 32), ?_⟩
  · intro d hd
    cases List.mem_singleton.mp hd
    decide
  · intro f hf
    cases List.mem_singleton.mp hf
    decide

/-! ## The term that is too long -/

/-- A term of zeros whose length the format's 32 bits do not hold. -/
structure TooLong (term : Bytes) : Prop where
  length : term.length = 2 ^ 32
  zeros : ∃ rest, term = 0 :: 0 :: 0 :: 0 :: rest

/-- A term of 2³² bytes. -/
theorem tooLong_replicate {n : Nat} (h : n = 2 ^ 32) : TooLong (List.replicate n 0) := by
  have hsplit : ∃ k, n = k + 4 := ⟨n - 4, by omega⟩
  refine ⟨by rw [List.length_replicate, h], ?_⟩
  obtain ⟨k, rfl⟩ := hsplit
  exact ⟨List.replicate k 0, rfl⟩

variable {term : Bytes}

/-- Its length is written as zero. -/
theorem TooLong.writeTermKey (h : TooLong term) : writeTermKey term [] = 0 :: 0 :: term := by
  have hpre : commonPrefixLen term [] = 0 := by
    obtain ⟨rest, hrest⟩ := h.zeros
    rw [hrest]
    rfl
  have hlen : term.length % 2 ^ 32 = 0 := by rw [h.length, Nat.mod_self]
  rw [Dict.writeTermKey]
  simp only [hpre, List.drop_zero, hlen]
  rfl

/-- In the sampled terms too. -/
theorem TooLong.sampledPayload (h : TooLong term) : ∃ more, more ≠ [] ∧
    sampledPayload [term] = 1 :: 0 :: 0 :: 0 :: 0 :: 0 :: 0 :: more := by
  have hpay : DictIndex.sampledPayload [term] = [1] ++
    (Dict.writeTermKey term [] ++ Dict.writeTermKey term [] ++ (Dict.writeTermKey term [] ++ [])) := rfl
  rw [hpay, h.writeTermKey]
  obtain ⟨rest, hrest⟩ := h.zeros
  rw [hrest]
  refine ⟨_, ?_, rfl⟩
  simp

/-- The samples of such an index cannot be read back. -/
theorem TooLong.openSampledTermIndex (h : TooLong term) :
    openSampledTermIndex (finishSampledTermIndex [term]) =
      .error (.corruption "sampled_term_index: payload contains trailing bytes") := by
  obtain ⟨more, hmore, hpay⟩ := h.sampledPayload
  have hlen : (DictIndex.sampledPayload [term]).length < 2 ^ 64 := by
    have hle := length_sampledPayload_one term
    have hterm := h.length
    omega
  have hread := reads_section SectionType.sampledTermIndex.code_lt hlen []
  rw [List.append_nil] at hread
  rw [DictIndex.openSampledTermIndex, finishSampledTermIndex, openSection, hread, ok_bind]
  simp only [ne_eq, not_true_eq_false, if_false]
  rw [hpay]
  exact sampled_long hmore

/-- **An index with such a term** cannot be opened. -/
theorem openIndex_tooLong (h : TooLong term) {failed : List AddCall}
    (hfailed : Fail storeEnv failed) (renv : ReadEnv) :
    ∃ s, SniiSegmentReader.open
        (finish (addAll storeEnv {} (oneCall term :: failed)).2).2.out = .ok s ∧
      s.openIndex renv 0 [] =
        .error (.corruption "sampled_term_index: payload contains trailing bytes") := by
  obtain ⟨hfinish, hcont⟩ := @finish_container storeEnv (oneCall term :: failed)
  generalize (finish (addAll storeEnv {} (oneCall term :: failed)).2).2.indexes = indexes at hcont
  generalize (finish (addAll storeEnv {} (oneCall term :: failed)).2).2.out = file at hcont ⊢
  have hsize := size_one hfailed hcont h.length.le
  have hok := sessionOk_one term hsize
  obtain ⟨x, rfl, hbuild, _⟩ := container_one hfailed hcont
  obtain ⟨_, hin, hbuilt⟩ := block_one hbuild
  rw [← added_one hfailed term] at hok
  refine ⟨_, open_container hcont hok, ?_⟩
  have hopen := @openIndex_present storeEnv renv _ _ _ hcont hok _ _ x List.mem_cons_self
    (@findEntry_of_nodup [x] (List.nodup_singleton _) x List.mem_cons_self)
  rw [hin] at hopen
  rw [show (oneTerm term).indexId = 0 from rfl, show (oneTerm term).indexSuffix = [] from rfl] at hopen
  have hfirst : x.1.blocks.map BlockRecord.firstTerm = [term] := by
    rw [firstTerms_eq hbuilt]
    rfl
  have hs : (x.1.indexMeta x.2.sectionRefs x.2.dictOff).sampledTermIndex =
      finishSampledTermIndex [term] := by
    rw [← hfirst]
    rfl
  rw [hopen, openIndexReader, openMeta_placed hcont hok List.mem_cons_self, ok_bind, hs,
    h.openSampledTermIndex]
  rfl

end Snii.Reader
