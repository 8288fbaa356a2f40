import Snii.Reader.ContainerRoundTrip
import Snii.Reader.LongTerm

/-!
# Containers

What a session of calls leaves can be opened: the file has its documented layout, and
every index is found under its key over its own sections.
-/

namespace Snii.Reader

open Snii.Lib.ByteReader Snii.Lib.Aligned Snii.Common Snii.Io.FileReader
open Snii.Encoding.Compression
open Snii.Format.ContainerEnds Snii.Format.TailMeta Snii.Format.Dict Snii.Format.DictBlock
open Snii.Format.PerIndexMeta (RegionRef SectionRefs StatsBlock)
open Snii.Writer.LogicalIndexWriter Snii.Writer.CompoundWriter

/-- Reader and writer use the same libraries, and compression loses nothing. -/
structure SameLibs (env : BuildEnv) (renv : ReadEnv) : Prop where
  zstd : renv.zstd = env.zstd
  bsbf : renv.bsbf = env.bsbf
  lossless : env.zstd.Lossless

/-- Every dictionary block that the calls build is within the reader's cap. -/
def CapsOk (env : BuildEnv) (adds : List AddCall) : Prop :=
  ∀ a ∈ adds, ∀ w region, build (a.env env) a.input [] = .ok w region → WithinCaps w

/-- What a call builds is within the cap. -/
def capsHold (env : BuildEnv) (a : AddCall) : Bool :=
  match build (a.env env) a.input [] with
  | .ok w _ => decide (WithinCaps w)
  | .error _ _ => true

theorem capsOk_of_capsHold {env : BuildEnv} {adds : List AddCall}
    (h : ∀ a ∈ adds, capsHold env a = true) : CapsOk env adds := by
  intro a ha w region hbuild
  have hcaps := h a ha
  rw [capsHold, hbuild] at hcaps
  exact of_decide_eq_true hcaps

/-- The file that a session leaves. -/
def containerOf (env : BuildEnv) (adds : List AddCall) : Bytes :=
  (finish (addAll env {} adds).2).2.out

variable {env : BuildEnv} {renv : ReadEnv} {adds : List AddCall} {file : Bytes}
  {indexes : List (BuiltIndex × Placement)} {x : BuiltIndex × Placement} {idx : LogicalIndexReader}

/-- An index opened by its key stands over the bytes of its build. -/
theorem serves_of_opensTo (hlibs : SameLibs env renv) (hok : SessionOk adds file) {a : AddCall}
    (ha : a ∈ adds) {region : Bytes} (hbuild : build (a.env env) a.input [] = .ok x.1 region)
    (hplaced : PlacedAt file x.1 region x.2) (hidx : OpensTo renv file x idx)
    (hcaps : WithinCaps x.1) :
    ∃ blocks, Serves (a.env env) renv idx x.1 blocks region x.2.dictOff := by
  obtain ⟨hin, blocks, hbuilt⟩ := build_builtFrom hbuild
  have hfile := hidx.file_eq
  have hmeta := hidx.indexMeta
  refine ⟨blocks, ?_⟩
  constructor
  case built => exact hbuilt
  case widths =>
    rw [hin]
    exact (hok.inputs a ha).widths
  case zstd => exact hlibs.zstd
  case lossless => exact hlibs.lossless
  case tier => exact hidx.tier
  case positions => exact hidx.positions
  case holds =>
    constructor
    case here =>
      rw [hfile, LogicalIndexReader.sectionRefs, hmeta]
      exact hplaced.post
    case len =>
      rw [LogicalIndexReader.sectionRefs, hmeta]
      exact hplaced.postLen
    case size => rw [hfile]; exact hok.size
  case samples => rw [hidx.samples, firstTerms_eq hbuilt]
  case refs => exact hidx.refs
  case dict =>
    rw [hfile, ← hbuilt.dict.streamInto]
    exact hplaced.dict
  case caps =>
    exact @finish_of_plainLen _ _ _ _ (· ≤ kMaxDictBlockUncompBytes) hbuilt hcaps
  case filter => rw [hfile]; exact hidx.filter

/-! ## Sessions -/

theorem added_of_statuses (h : ∀ status ∈ (addAll env {} adds).1, status = .ok ()) :
    added env adds = adds := by
  rw [added, List.filter_eq_self]
  intro a ha
  have hstatus := h (statusOf env a) (by rw [addAll_eq adds |>.1]; exact List.mem_map_of_mem ha)
  rw [statusOf] at hstatus
  rw [builtOf]
  cases hbuild : build (a.env env) a.input [] with
  | error e region =>
      rw [hbuild] at hstatus
      cases hstatus
  | ok w region => rfl

/-- The indexes of a session, each with the call that added it. -/
theorem calls_of_container (h : Container env adds file indexes) :
    List.Forall₂ (fun a (y : BuiltIndex × Placement) => ∃ region,
        build (AddCall.env env a) a.input [] = .ok y.1 region ∧ PlacedAt file y.1 region y.2)
      (added env adds) indexes := by
  refine forall₂_chain (fun a b y hb hy => ?_) (builds_of_added env adds) h.placed
  exact ⟨b.2, by rw [hy.1]; exact hb, by rw [hy.1]; exact hy.2⟩

/-- An index opened from the container, over the sections of the call that added it. -/
structure OpenedAs (env : BuildEnv) (renv : ReadEnv) (file : Bytes) (a : AddCall)
    (idx : LogicalIndexReader) (y : BuiltIndex × Placement) (region : Bytes) : Prop where
  build : build (a.env env) a.input [] = .ok y.1 region
  placed : PlacedAt file y.1 region y.2
  opens : OpensTo renv file y idx

/-- The keys of the indexes are those of the calls that added them. -/
theorem keys_of_container (h : Container env adds file indexes) :
    (added env adds).map (fun a => keyOf a.input) = indexes.map fun y => keyOf y.1.input := by
  refine map_eq_of_forall₂ (fun a y hy => ?_) (calls_of_container h)
  obtain ⟨region, hbuild, _⟩ := hy
  rw [(build_builtFrom hbuild).1]

/-- **A session opens**: each call that succeeded is found under its key, and no other
key is. -/
theorem session_opens (hlibs : SameLibs env renv) (h : Container env adds file indexes)
    (hok : SessionOk adds file) (hkeys : ((added env adds).map fun a => keyOf a.input).Nodup)
    (hcaps : CapsOk env adds) :
    (∃ idxs, List.Forall₂ (fun a idx =>
        (segmentOf file indexes).openIndex renv a.input.indexId a.input.indexSuffix = .ok idx ∧
          ∃ y ∈ indexes, ∃ region, OpenedAs env renv file a idx y region) (added env adds) idxs ∧
      (idxs.map LogicalIndexReader.sectionRefs) = indexes.map fun y => y.2.sectionRefs) ∧
    ∀ key : Nat × Bytes, key ∉ (added env adds).map (fun a => keyOf a.input) →
      (segmentOf file indexes).openIndex renv key.1 key.2 =
        .error (.notFound "segment: logical index not found") := by
  have hcalls := calls_of_container h
  have hinputs := keys_of_container h
  have hok := @sessionOk_added env _ _ hok
  have hopen : ∀ y ∈ indexes, ∃ idx,
      (segmentOf file indexes).openIndex renv y.1.input.indexId y.1.input.indexSuffix = .ok idx ∧
        OpensTo renv file y idx := by
    intro y hy
    obtain ⟨a, ha, region, hbuild, _⟩ := built_of_mem h hy
    have hwidths := (hcaps a (List.mem_filter.mp ha).1 _ _ hbuild).widths
    obtain ⟨idx, hidx, hto⟩ := openIndex_opensTo h hok hlibs.bsbf hy
      (findEntry_of_nodup (hinputs ▸ hkeys) hy) hwidths
    exact ⟨idx, hidx, hto.toOpensTo⟩
  obtain ⟨idxs, hidxs⟩ := exists_forall₂ hopen
  refine ⟨⟨idxs, ?_, ?_⟩, ?_⟩
  · have hmem : List.Forall₂ (fun y idx => y ∈ indexes ∧
        (segmentOf file indexes).openIndex renv y.1.input.indexId y.1.input.indexSuffix = .ok idx ∧
          OpensTo renv file y idx) indexes idxs :=
      (List.forall₂_and_left indexes idxs).mpr ⟨fun y hy => hy, hidxs⟩
    refine forall₂_chain (fun a y idx hy hidx => ?_) hcalls hmem
    obtain ⟨region, hbuild, hplaced⟩ := hy
    obtain ⟨hin, hidx, hto⟩ := hidx
    rw [(build_builtFrom hbuild).1] at hidx
    exact ⟨hidx, y, hin, region, hbuild, hplaced, hto⟩
  · symm
    refine map_eq_of_forall₂ (fun y idx hidx => ?_) hidxs
    rw [LogicalIndexReader.sectionRefs, hidx.2.indexMeta]
    rfl
  · intro key hkey
    rw [hinputs] at hkey
    refine openIndex_absent h hok fun y hy hyk => hkey ?_
    exact List.mem_map.mpr ⟨y, hy, hyk⟩

/-! ## The layout of a container -/

/-- The sections of an opened index that are not empty. -/
def sectionsOf (idx : LogicalIndexReader) : List RegionRef :=
  [idx.sectionRefs.postingRegion, idx.sectionRefs.dictRegion, idx.sectionRefs.norms,
    idx.sectionRefs.bsbf].filter nonEmpty

def RangesDisjoint (r s : RegionRef) : Prop :=
  r.offset + r.length ≤ s.offset ∨ s.offset + s.length ≤ r.offset

/-- A section stands where its reference says. -/
def SectionIs (file : Bytes) (ref : RegionRef) (bytes : Bytes) : Prop :=
  ref.length = bytes.length ∧ (bytes ≠ [] → At file ref.offset bytes)

/-- What an opened index reports of the index that was added. -/
structure Reports (env : BuildEnv) (renv : ReadEnv) (file : Bytes) (a : AddCall)
    (idx : LogicalIndexReader) : Prop where
  sections : ∃ w region, build (a.env env) a.input [] = .ok w region ∧
    SectionIs file idx.sectionRefs.postingRegion region ∧
    SectionIs file idx.sectionRefs.dictRegion w.dictBuf.streamInto ∧
    SectionIs file idx.sectionRefs.norms w.normsSection ∧
    SectionIs file idx.sectionRefs.bsbf w.bsbfBytes
  stats : idx.stats =
    { docCount := a.input.docCount, indexedDocCount := a.input.docCount
      termCount := a.input.source.list.length
      sumTotalTermFreq := (a.input.source.list.map fun tp => tp.postings.freqs.sum).sum % 2 ^ 64
      nullCount := 0 }
  positions : idx.hasPositions = a.input.hasPrx
  dictionary : ∃ w region blocks, build (a.env env) a.input [] = .ok w region ∧
    w.dictBuf.streamInto = dictBytes (a.env env) blocks ∧
    List.Forall₂ (fun ref (b : DictBlockBuilder) => ∃ br, loadBlock renv idx ref = .ok br ∧
      br.decodeAll = .ok (b.entries.map (DictEntry.stored a.input.tier))) idx.blockRefs blocks ∧
    (blocks.flatMap DictBlockBuilder.entries).map DictEntry.term = termsOf a.input

theorem sectionOf_norms {blocks : List DictBlockBuilder} {region : Bytes} {w : BuiltIndex}
    (h : BuiltFrom env w blocks region) :
    sectionOf skipNorms BuiltIndex.normsSection w = w.normsSection := by
  rw [sectionOf, skipNorms, h.norms]
  cases w.input.hasNorms with
  | false => rfl
  | true =>
      simp only [Bool.not_true, Bool.false_or, if_true, List.isEmpty_iff]
      split
      · symm
        assumption
      · rfl

theorem reports_of_openedAs (hlibs : SameLibs env renv) (hok : SessionOk adds file)
    (hcaps : CapsOk env adds) {a : AddCall} (ha : a ∈ adds) {region : Bytes}
    (h : OpenedAs env renv file a idx x region) : Reports env renv file a idx := by
  obtain ⟨hin, blocks, hbuilt⟩ := build_builtFrom h.build
  have hrefs : idx.sectionRefs = x.2.sectionRefs := by
    rw [LogicalIndexReader.sectionRefs, h.opens.indexMeta]
    rfl
  have hnonempty : ∀ {bytes : Bytes} {len : Nat}, len = bytes.length → bytes ≠ [] → 0 < len := by
    intro bytes len hlen hne
    rw [hlen]
    exact List.length_pos_iff.mpr hne
  have hnorms := h.placed.normsLen
  rw [sectionOf_norms hbuilt] at hnorms
  constructor
  case sections =>
    rw [hrefs]
    exact ⟨x.1, region, h.build, ⟨h.placed.postLen, fun _ => h.placed.post⟩,
      ⟨h.placed.dictLen, fun _ => h.placed.dict⟩,
      ⟨hnorms, fun hne => h.placed.norms (hnonempty hnorms hne)⟩,
      ⟨h.placed.bsbfLen, fun hne => h.placed.bsbf (hnonempty h.placed.bsbfLen hne)⟩⟩
  case stats =>
    rw [LogicalIndexReader.stats, h.opens.indexMeta, ← hin]
    exact hbuilt.stats
  case positions => rw [h.opens.positions, hin]
  case dictionary =>
    obtain ⟨blocks', hserves⟩ := serves_of_opensTo hlibs hok ha h.build h.placed h.opens
      (hcaps a ha _ _ h.build)
    refine ⟨x.1, region, blocks', h.build, hserves.built.dict.streamInto, ?_, ?_⟩
    · have hdecode := hserves.decodeBlocks
      rwa [hin] at hdecode
    · have hterms := hserves.built.wrote.terms
      rw [hin] at hterms
      rw [termsOf, ← hterms, List.map_flatMap, List.map_flatMap]
      simp only [resolve, List.map_map]
      rfl

theorem flatMap_chunk_eq {built : List (BuiltIndex × Bytes)}
    (h : List.Forall₂ (fun a (x : BuiltIndex × Bytes) =>
      build (AddCall.env env a) a.input [] = .ok x.1 x.2) adds built) :
    adds.flatMap (chunk env) = built.flatMap fun x => x.2 ++ x.1.dictBuf.streamInto := by
  rw [List.flatMap_def, List.flatMap_def]
  congr 1
  refine map_eq_of_forall₂ (fun a x hx => ?_) h
  rw [chunk, hx]

theorem norms_container (h : Container env adds file indexes) :
    (indexes.map Prod.fst).flatMap (sectionOf skipNorms BuiltIndex.normsSection) =
      (adds.filterMap (builtOf env)).flatMap fun x => x.1.normsSection := by
  have hbuilt := (List.forall₂_and_left _ _).mpr ⟨fun x hx => @mem_builtOf env adds x hx, h.placed⟩
  rw [List.flatMap_def, List.flatMap_def, List.map_map]
  congr 1
  symm
  refine map_eq_of_forall₂ (fun x y hy => ?_) hbuilt
  obtain ⟨⟨a, _, hbuild⟩, hfst, _⟩ := hy
  obtain ⟨_, blocks, hfrom⟩ := build_builtFrom hbuild
  show x.1.normsSection = sectionOf skipNorms BuiltIndex.normsSection y.1
  rw [hfst, sectionOf_norms hfrom]

theorem bsbf_container (h : Container env adds file indexes) :
    (indexes.map Prod.fst).flatMap BuiltIndex.bsbfBytes =
      (adds.filterMap (builtOf env)).flatMap fun x => x.1.bsbfBytes := by
  rw [List.flatMap_def, List.flatMap_def, List.map_map]
  congr 1
  symm
  refine map_eq_of_forall₂ (fun x y hy => ?_) h.placed
  show x.1.bsbfBytes = y.1.bsbfBytes
  rw [hy.1]

theorem sectionsOf_aligned {idxs : List LogicalIndexReader}
    (h : idxs.map LogicalIndexReader.sectionRefs =
      indexes.map fun y : BuiltIndex × Placement => y.2.sectionRefs) :
    idxs.flatMap sectionsOf = indexes.flatMap fun y => y.2.sections := by
  have hmap := congrArg (List.flatMap fun refs : SectionRefs =>
    [refs.postingRegion, refs.dictRegion, refs.norms, refs.bsbf].filter nonEmpty) h
  rw [List.flatMap_map, List.flatMap_map] at hmap
  exact hmap

/-- **Container round trip.**  After any number of calls that all succeed, under
distinct keys and within the reader's cap for dictionary blocks, the finished file has
the documented layout, opens, and opens exactly the added indexes, each over its own
sections. -/
theorem container_roundTrip (hlibs : SameLibs env renv)
    (hadds : ∀ status ∈ (addAll env {} adds).1, status = .ok ())
    (hkeys : (adds.map fun a => keyOf a.input).Nodup)
    (hok : SessionOk adds (containerOf env adds)) (hcaps : CapsOk env adds) :
    (finish (addAll env {} adds).2).1 = .ok () ∧
    (∃ built metaRegion tail,
      List.Forall₂ (fun a (x : BuiltIndex × Bytes) =>
        build (AddCall.env env a) a.input [] = .ok x.1 x.2) adds built ∧
      containerOf env adds = containerHeader ++
        built.flatMap (fun x => x.2 ++ x.1.dictBuf.streamInto) ++
        built.flatMap (fun x => x.1.normsSection) ++ built.flatMap (fun x => x.1.bsbfBytes) ++
        metaRegion ++ tail ∧ tail.length = tailPointerSize) ∧
    ∃ s idxs, SniiSegmentReader.open (containerOf env adds) = .ok s ∧
      (∀ key : Nat × Bytes, (∃ idx, s.openIndex renv key.1 key.2 = .ok idx) ↔
        key ∈ adds.map fun a => keyOf a.input) ∧
      List.Forall₂ (fun a idx => s.openIndex renv a.input.indexId a.input.indexSuffix = .ok idx ∧
        Reports env renv (containerOf env adds) a idx) adds idxs ∧
      (idxs.flatMap sectionsOf).Pairwise RangesDisjoint ∧
      ∀ r ∈ idxs.flatMap sectionsOf, kBootstrapHeaderSize ≤ r.offset ∧
        r.offset + r.length ≤ (containerOf env adds).length := by
  obtain ⟨hfinish, hcont⟩ := @finish_container env adds
  rw [← containerOf] at hcont
  generalize (finish (addAll env {} adds).2).2.indexes = indexes at hcont
  have hall := added_of_statuses hadds
  have hbuilds := builds_of_added env adds
  rw [hall] at hbuilds
  obtain ⟨⟨idxs, hidxs, hrefs⟩, habsent⟩ := session_opens hlibs hcont hok (hall.symm ▸ hkeys) hcaps
  rw [hall] at hidxs habsent
  obtain ⟨body, tail, hbody, hfile, htail, ranges, hperm, hascend⟩ := hcont.parts
  refine ⟨hfinish, ⟨_, finishRegion (indexes.map metaEntry), tail, hbuilds, ?_, ?_⟩,
    segmentOf (containerOf env adds) indexes, idxs, open_container hcont (sessionOk_added hok),
    ?_, ?_, ?_, ?_⟩
  · rw [hfile, hbody, flatMap_chunk_eq hbuilds, norms_container hcont, bsbf_container hcont]
  · rw [encodeTailPointer_eq] at htail
    cases htail
    rw [List.length_append, length_serializeCovered, Encoding.ByteSource.length_putFixed32]
    rfl
  · intro key
    constructor
    · rintro ⟨idx, hidx⟩
      by_contra hkey
      rw [habsent key hkey] at hidx
      cases hidx
    · intro hkey
      obtain ⟨a, ha, rfl⟩ := List.mem_map.mp hkey
      obtain ⟨idx, _, hidx, _⟩ := exists_right_of_mem hidxs ha
      exact ⟨idx, hidx⟩
  · have hmem := (List.forall₂_and_left adds idxs).mpr ⟨fun a ha => ha, hidxs⟩
    refine hmem.imp fun a idx hboth => ?_
    obtain ⟨ha, hidx, y, _, region, has⟩ := hboth
    exact ⟨hidx, reports_of_openedAs hlibs hok hcaps ha has⟩
  · rw [sectionsOf_aligned hrefs]
    refine (hperm.pairwise_iff fun hrs => ?_).mp (hascend.pairwise.imp fun hle => ?_)
    · exact hrs.symm
    · exact .inl hle
  · intro r hr
    rw [sectionsOf_aligned hrefs] at hr
    have hin := hascend.bounds (hperm.mem_iff.mpr hr)
    refine ⟨hin.1, hin.2.trans ?_⟩
    rw [hfile, List.length_append, List.length_append]
    omega

/-- A reader over the writer's own libraries. -/
def storeReadEnv : ReadEnv :=
  { zstd := storeEnv.zstd, bsbf := storeEnv.bsbf, bsbfResidentMaxBytes := 256 * 1024 }

theorem sameLibs_store : SameLibs storeEnv storeReadEnv := ⟨rfl, rfl, Zstd.store_lossless⟩

instance (r : Result Unit) : Decidable (r = .ok ()) :=
  match r with
  | .ok () => .isTrue rfl
  | .error _ => .isFalse fun h => by cases h

/-- A positional index with an inline, a slim and a windowed term. -/
def positionalCall : AddCall := { overCap := fun _ => false, input := { tiledInput with indexId := 1 } }

/-- A positional index and one without positions. -/
def twoCalls : List AddCall := [positionalCall, oneCall [97]]

theorem sessionOk_twoCalls : SessionOk twoCalls (containerOf storeEnv twoCalls) :=
  ⟨by decide +kernel, by decide, by decide +kernel⟩

theorem statuses_twoCalls : ∀ status ∈ (addAll storeEnv {} twoCalls).1, status = .ok () := by
  decide +kernel

theorem capsOk_twoCalls : CapsOk storeEnv twoCalls := capsOk_of_capsHold (by decide +kernel)

theorem container_roundTrip_twoCalls :
    ∃ s idxs, SniiSegmentReader.open (containerOf storeEnv twoCalls) = .ok s ∧
      (∀ key : Nat × Bytes, (∃ idx, s.openIndex storeReadEnv key.1 key.2 = .ok idx) ↔
        key ∈ [(1, []), (0, [])]) ∧
      List.Forall₂ (fun a idx =>
        s.openIndex storeReadEnv a.input.indexId a.input.indexSuffix = .ok idx ∧
          Reports storeEnv storeReadEnv (containerOf storeEnv twoCalls) a idx) twoCalls idxs := by
  obtain ⟨_, _, s, idxs, hopen, hkeys, hreports, _⟩ := container_roundTrip sameLibs_store
    statuses_twoCalls (by decide) sessionOk_twoCalls capsOk_twoCalls
  exact ⟨s, idxs, hopen, hkeys, hreports⟩

/-- An index whose term is too long is added and cannot be opened, whichever calls fail
besides. -/
theorem tooLong_not_opened {term : Bytes} (h : TooLong term) {failed : List AddCall}
    (hfailed : Fail storeEnv failed) (renv : ReadEnv) :
    (addAll storeEnv {} (oneCall term :: failed)).1 = .ok () :: failed.map (statusOf storeEnv) ∧
    (finish (addAll storeEnv {} (oneCall term :: failed)).2).1 = .ok () ∧
    ∃ s, SniiSegmentReader.open (containerOf storeEnv (oneCall term :: failed)) = .ok s ∧
      ∀ idx, s.openIndex renv 0 [] ≠ .ok idx := by
  obtain ⟨s, hopen, herror⟩ := openIndex_tooLong h hfailed renv
  refine ⟨session_one term failed,
    (@finish_container storeEnv (oneCall term :: failed)).1, s, hopen, ?_⟩
  intro idx hidx
  rw [herror] at hidx
  cases hidx

theorem container_not_opened_longTerm :
    (∀ status ∈ (addAll storeEnv {} [oneCall (List.replicate (2 ^ 32) 0)]).1, status = .ok ()) ∧
    (finish (addAll storeEnv {} [oneCall (List.replicate (2 ^ 32) 0)]).2).1 = .ok () ∧
    ∃ s, SniiSegmentReader.open (containerOf storeEnv [oneCall (List.replicate (2 ^ 32) 0)]) =
        .ok s ∧
      ∀ idx, s.openIndex storeReadEnv 0 [] ≠ .ok idx := by
  obtain ⟨hstatus, hfinish, hopen⟩ :=
    tooLong_not_opened (tooLong_replicate rfl) (.nil _) storeReadEnv
  rw [List.map_nil] at hstatus
  refine ⟨?_, hfinish, hopen⟩
  rw [hstatus]
  exact fun status hin => List.mem_singleton.mp hin

end Snii.Reader
