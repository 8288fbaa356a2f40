import Snii.Format.DictBlockSafety
import Snii.Reader.Container
import Snii.Reader.MovedIndex

/-!
# Readers of one index

Two readers that sample the same terms, probe alike and load the same blocks answer
every lookup and every enumeration alike (`SameIndex.lookup`, `SameIndex.prefixTerms`),
and whatever entry they find has its spans in the posting region.  An index that stands
in two containers is read by two such readers (`sameIndex_of_opened`).
-/

namespace Snii.Reader

open Snii.Lib.ByteReader Snii.Lib.Agreement Snii.Lib.Aligned Snii.Common Snii.Io.FileReader
open Snii.Encoding.Compression Snii.Format.Dict Snii.Format.DictBlock Snii.Format.DictIndex
open Snii.Format.TailMeta (findEntry layoutRefs)
open Snii.Writer.LogicalIndexWriter Snii.Writer.CompoundWriter

/-- An entry that a block gives, by decoding all of them or by its term. -/
def InBlock (br : DictBlockReader) (e : DictEntry) : Prop :=
  (∃ es, br.decodeAll = .ok es ∧ e ∈ es) ∨ ∃ t, br.findTerm t = .ok (some e)

/-- Two readers of one index, each over its own file. -/
structure SameIndex (renv : ReadEnv) (idx idx' : LogicalIndexReader) (region : Bytes) : Prop where
  posting : SameRegion idx idx' region
  stats : idx.stats = idx'.stats
  tier : idx.tier = idx'.tier
  positions : idx.hasPositions = idx'.hasPositions
  samples : idx.sampleTerms = idx'.sampleTerms
  probe : ∀ term, probeBsbf renv idx term = probeBsbf renv idx' term
  blocks : List.Forall₂ (fun ref ref' => loadBlock renv idx ref = loadBlock renv idx' ref')
    idx.blockRefs idx'.blockRefs
  entries : ∀ ref ∈ idx.blockRefs, ∀ br, loadBlock renv idx ref = .ok br → ∀ e, InBlock br e →
    SpansIn region.length ⟨e, br.frqBase, br.prxBase⟩

variable {env : BuildEnv} {renv : ReadEnv} {idx idx' : LogicalIndexReader} {region : Bytes}

/-! ## Lookups -/

theorem getBlock_same {R : BlockRef → BlockRef → Prop} {refs refs' : List BlockRef}
    (h : List.Forall₂ R refs refs') (k : Nat) :
    SameOutcome R (getBlock refs k) (getBlock refs' k) := by
  rw [getBlock, getBlock]
  cases hk : refs[k]? with
  | none =>
      have hlen := h.length_eq
      rw [List.getElem?_eq_none_iff] at hk
      rw [List.getElem?_eq_none (by omega)]
      exact .error _
  | some ref =>
      obtain ⟨ref', hk', hr⟩ := getElem?_of_forall₂ h hk
      rw [hk']
      exact .ok hr

/-- **A lookup** finds the same. -/
theorem SameIndex.lookup (h : SameIndex renv idx idx' region) (term : Bytes) :
    lookup renv idx term = lookup renv idx' term := by
  rw [Reader.lookup, Reader.lookup, h.probe, h.samples]
  apply (SameOutcome.refl _).bind_eq
  intro maybe _ hmaybe
  subst hmaybe
  cases maybe with
  | false => rfl
  | true =>
      rw [if_pos rfl, if_pos rfl]
      cases locate idx'.sampleTerms term with
      | none => rfl
      | some k =>
          apply (getBlock_same h.blocks k).bind_eq
          intro ref ref' href
          rw [href]

/-- What a lookup finds has its spans in the posting region. -/
theorem SameIndex.lookup_spans (h : SameIndex renv idx idx' region) {term : Bytes} {r : Resolved}
    (hfound : Reader.lookup renv idx term = .ok (some r)) : SpansIn region.length r := by
  rw [Reader.lookup] at hfound
  obtain ⟨maybe, -, hfound⟩ := bind_eq_ok hfound
  cases maybe with
  | false => cases hfound
  | true =>
      rw [if_pos rfl] at hfound
      cases hloc : locate idx.sampleTerms term with
      | none =>
          rw [hloc] at hfound
          cases hfound
      | some k =>
          rw [hloc] at hfound
          obtain ⟨ref, href, hfound⟩ := bind_eq_ok hfound
          obtain ⟨br, hload, hfound⟩ := bind_eq_ok hfound
          obtain ⟨hit, hhit, hfound⟩ := bind_eq_ok hfound
          have hmem : ref ∈ idx.blockRefs := by
            rw [getBlock] at href
            cases hk : idx.blockRefs[k]? with
            | none =>
                rw [hk] at href
                cases href
            | some ref' =>
                rw [hk] at href
                cases href
                exact List.mem_of_getElem? hk
          cases hit with
          | none => cases hfound
          | some e =>
              cases hfound
              exact h.entries ref hmem br hload e (.inr ⟨term, hhit⟩)

/-! ## Enumerations -/

theorem mem_takePrefix {pre : Bytes} {es : List DictEntry} {e : DictEntry}
    (h : e ∈ (takePrefix pre es).1) : e ∈ es := by
  induction es with
  | nil => exact h
  | cons x es ih =>
      rw [takePrefix] at h
      split at h
      · exact List.mem_cons_of_mem _ (ih h)
      · split at h
        · cases List.mem_cons.mp h with
          | inl heq => exact heq ▸ List.mem_cons_self
          | inr hin => exact List.mem_cons_of_mem _ (ih hin)
        · cases h

theorem prefixBlocks_same {refs refs' : List BlockRef}
    (h : List.Forall₂ (fun ref ref' => loadBlock renv idx ref = loadBlock renv idx' ref')
      refs refs') (pre : Bytes) : prefixBlocks renv idx pre refs = prefixBlocks renv idx' pre refs' := by
  induction h with
  | nil => rfl
  | cons href _ ih => rw [prefixBlocks, prefixBlocks, href, ih]

/-- **An enumeration** gives the same. -/
theorem SameIndex.prefixTerms (h : SameIndex renv idx idx' region) (pre : Bytes) :
    prefixTerms renv idx pre = prefixTerms renv idx' pre := by
  rw [Reader.prefixTerms, Reader.prefixTerms, h.samples]
  exact prefixBlocks_same (List.forall₂_drop _ h.blocks) pre

theorem prefixBlocks_spans {refs : List BlockRef} {pre : Bytes} {rs : List Resolved} {len : Nat}
    (hentries : ∀ ref ∈ refs, ∀ br, loadBlock renv idx ref = .ok br → ∀ e, InBlock br e →
      SpansIn len ⟨e, br.frqBase, br.prxBase⟩)
    (h : prefixBlocks renv idx pre refs = .ok rs) : ∀ r ∈ rs, SpansIn len r := by
  induction refs generalizing rs with
  | nil =>
      cases h
      exact fun r hr => (by cases hr)
  | cons ref refs ih =>
      rw [prefixBlocks] at h
      obtain ⟨br, hload, h⟩ := bind_eq_ok h
      obtain ⟨es, hes, h⟩ := bind_eq_ok h
      have hhere : ∀ r ∈ (takePrefix pre es).1.map (fun e =>
          ({ entry := e, frqBase := br.frqBase, prxBase := br.prxBase } : Resolved)),
          SpansIn len r := by
        intro r hr
        obtain ⟨e, he, rfl⟩ := List.mem_map.mp hr
        exact hentries ref List.mem_cons_self br hload e (.inl ⟨es, hes, mem_takePrefix he⟩)
      simp only at h
      split at h
      · obtain ⟨rest, hrest, h⟩ := bind_eq_ok h
        cases h
        intro r hr
        cases List.mem_append.mp hr with
        | inl hin => exact hhere r hin
        | inr hin => exact ih (fun x hx => hentries x (List.mem_cons_of_mem _ hx)) hrest r hin
      · cases h
        exact hhere

/-- What an enumeration gives has its spans in the posting region. -/
theorem SameIndex.prefixTerms_spans (h : SameIndex renv idx idx' region) {pre : Bytes}
    {rs : List Resolved} (hfound : Reader.prefixTerms renv idx pre = .ok rs) :
    ∀ r ∈ rs, SpansIn region.length r :=
  prefixBlocks_spans (fun ref href => h.entries ref (List.mem_of_mem_drop href)) hfound

/-! ## Written entries -/

/-- What a stored entry says of its spans. -/
structure StoredSpans (hasStats : Bool) (e s : DictEntry) : Prop where
  frqOff : s.frqOffDelta = e.frqOffDelta
  frqLen : s.frqLen = e.frqLen
  prelude : s.preludeLen = if e.enc = .windowed then e.preludeLen else 0
  prxOff : s.prxOffDelta = if hasStats then e.prxOffDelta else 0
  prxLen : s.prxLen = if hasStats then e.prxLen else 0

theorem storedSpans_podRef {tier : IndexTier} {e : DictEntry} (h : e.kind = .podRef) :
    StoredSpans (tierHasStats tier) e (e.stored tier) := by
  rw [DictEntry.stored]
  cases henc : e.enc with
  | slim =>
      simp only [h]
      exact ⟨rfl, rfl, by simp [henc], rfl, rfl⟩
  | windowed =>
      simp only [h]
      exact ⟨rfl, rfl, by simp [henc], rfl, rfl⟩

/-- **The spans of a written entry** are in the region of its index. -/
theorem spansIn_seen {i : SniiIndexInput} {tp : Writer.SpillRunCodec.Emitted} {r : Resolved}
    (h : WroteAt env i region tp r) : SpansIn region.length (seen i r) := by
  obtain ⟨before, after, more, hregion, hbase, hbuilt⟩ := h.built
  obtain ⟨-, span, hafter, hspan⟩ := buildEntry_spans hbase (h.bases ▸ hbase) hbuilt
  have hlen : region.length = before.length + span.length + more.length := by
    rw [hregion, hafter, List.length_append, List.length_append]
  have hbases := h.bases
  have hstats : i.hasPrx = tierHasStats i.tier := i.tier_spec.2
  have hprxBase : (seen i r).prxBase = if i.hasPrx then r.frqBase else 0 := by
    rw [← h.bases]
    rfl
  have hfrqBase : (seen i r).frqBase = r.frqBase := rfl
  have hentry : (seen i r).entry = r.entry.stored i.tier := rfl
  unfold EntrySpan at hspan
  cases hkind : r.entry.kind with
  | inline =>
      have hnone : (seen i r).entry.frqLen = 0 ∧ (seen i r).entry.prxLen = 0 ∧
          (seen i r).entry.preludeLen = 0 ∧ (seen i r).entry.frqOffDelta = 0 ∧
          (seen i r).entry.prxOffDelta = 0 := by
        simp [hentry, DictEntry.stored, hkind]
      constructor
      · omega
      · omega
      · rw [hprxBase]
        split <;> omega
  | podRef =>
      rw [hkind] at hspan
      obtain ⟨prx, frq, hsplit, hspans⟩ := hspan
      have hstored := @storedSpans_podRef i.tier _ hkind
      have hfrqOff := hspans.frqOff
      have hfrqLen := hspans.frqLen
      rw [hsplit, List.length_append] at hlen
      constructor
      · rw [hentry, hstored.prelude, hstored.frqLen]
        split
        case isTrue henc =>
          obtain ⟨prelude, wp, -, -, hfrq, hprelude, -⟩ := hspans.parts henc
          rw [hfrq, List.length_append, List.length_append] at hfrqLen
          omega
        case isFalse => exact Nat.zero_le _
      · rw [hentry, hfrqBase, hstored.frqOff, hstored.frqLen]
        omega
      · rw [hprxBase, hentry, hstored.prxOff, hstored.prxLen, ← hstats]
        cases hprx : i.hasPrx with
        | false => exact Nat.zero_le _
        | true =>
            have hprxOff := hspans.prxOff hprx
            have hprxLen := hspans.prxLen hprx
            simp only [if_true]
            omega

/-! ## One index in two containers -/

variable {w : BuiltIndex} {blocks : List DictBlockBuilder} {file file' : Bytes}

/-- A block within the cap or not: what inflates is the block. -/
theorem inflateBlock_eq_ok (hz : renv.zstd = env.zstd) (hlossless : env.zstd.Lossless)
    {b : DictBlockBuilder} {dictOff off : Nat} {plain : Bytes}
    (h : inflateBlock renv (blockRef dictOff (recordOf env off b)) (diskOf env b) = .ok plain) :
    plain = b.finish := by
  by_cases hcap : b.finish.length ≤ kMaxDictBlockUncompBytes
  · rw [inflateBlock_packBlock hz hlossless hcap] at h
    cases h
    rfl
  · rcases @packBlock_cases env b.finish with hraw | ⟨comp, hcomp⟩
    · unfold inflateBlock blockRef recordOf diskOf BlockRef.zstd at h
      rw [hraw] at h
      simp only at h
      rw [if_neg (by decide)] at h
      cases h
      rfl
    · unfold inflateBlock blockRef recordOf diskOf BlockRef.zstd at h
      rw [hcomp] at h
      simp only at h
      rw [if_pos (by decide), if_pos (by omega)] at h
      cases h

/-- The record of a block says where the block is. -/
theorem record_block (h : BuiltFrom env w blocks region) {rec : BlockRecord}
    (hrec : rec ∈ w.blocks) : ∃ k b, blocks[k]? = some b ∧
      rec = recordOf env (0 + (dictBytes env (blocks.take k)).length) b := by
  rw [h.records] at hrec
  obtain ⟨k, hk⟩ := List.mem_iff_getElem?.mp hrec
  rw [recordsFrom_getElem?, Option.map_eq_some_iff] at hk
  obtain ⟨b, hb, rfl⟩ := hk
  exact ⟨k, b, hb, rfl⟩

/-- Loading a block of a written index inflates the bytes of the block. -/
theorem loadBlock_block (h : BuiltFrom env w blocks region) {k : Nat} {b : DictBlockBuilder}
    (hk : blocks[k]? = some b) {dictOff : Nat}
    (hdict : At idx.file dictOff w.dictBuf.streamInto) :
    loadBlock renv idx (blockRef dictOff
        (recordOf env (0 + (dictBytes env (blocks.take k)).length) b)) =
      (inflateBlock renv (blockRef 0 (recordOf env 0 b)) (diskOf env b) >>= fun plain =>
        openBlock plain idx.tier idx.hasPositions) := by
  rw [h.dict.streamInto] at hdict
  have hat := at_block hdict hk
  rw [← Nat.zero_add (dictBytes env (blocks.take k)).length] at hat
  have hread : readAt idx.file (blockRef dictOff (recordOf env
      (0 + (dictBytes env (blocks.take k)).length) b)).offset (blockRef dictOff (recordOf env
      (0 + (dictBytes env (blocks.take k)).length) b)).length = .ok (diskOf env b) :=
    hat.readAt rfl
  rw [Reader.loadBlock, hread, ok_bind]
  rfl

/-- A block of a written index that loads is the block that was written. -/
theorem loadBlock_eq_ok (hlibs : SameLibs env renv) (h : BuiltFrom env w blocks region)
    {k : Nat} {b : DictBlockBuilder} (hk : blocks[k]? = some b) (hblock : b.BlockOk)
    (htier : tierHasStats idx.tier = tierHasStats w.input.tier)
    (hpos : idx.hasPositions = w.input.hasPrx) {dictOff : Nat}
    (hdict : At idx.file dictOff w.dictBuf.streamInto) {br : DictBlockReader}
    (hload : loadBlock renv idx (blockRef dictOff
      (recordOf env (0 + (dictBytes env (blocks.take k)).length) b)) = .ok br) :
    br = b.readerAt idx.tier := by
  have hshape := (h.shape b (List.mem_of_getElem? hk)).spec
  rw [loadBlock_block h hk hdict] at hload
  obtain ⟨plain, hplain, hopen⟩ := bind_eq_ok hload
  rw [inflateBlock_eq_ok hlibs.zstd hlibs.lossless hplain, hpos, ← hshape.2,
    DictBlockBuilder.openBlock_readerAt hblock (by rw [htier, hshape.1])] at hopen
  cases hopen
  rfl

/-- Whatever a written block gives is a stored entry of its own. -/
theorem mem_of_inBlock {b : DictBlockBuilder} (h : b.BlockOk) {t : IndexTier}
    (ht : tierHasStats t = tierHasStats b.tier) {e : DictEntry} (he : InBlock (b.readerAt t) e) :
    ∃ x ∈ b.entries, e = x.stored t := by
  have hmem : e ∈ b.entries.map (DictEntry.stored t) := by
    cases he with
    | inl hall =>
        obtain ⟨es, hes, hin⟩ := hall
        rw [DictBlockBuilder.decodeAll_readerAt h ht] at hes
        cases hes
        exact hin
    | inr hfound =>
        obtain ⟨target, hfind⟩ := hfound
        exact findTerm_stored (h.withTier ht) hfind
  obtain ⟨x, hx, rfl⟩ := List.mem_map.mp hmem
  exact ⟨x, hx, rfl⟩

/-- **One index in two containers**: its readers are readers of one index. -/
theorem sameIndex_of_opened (hlibs : SameLibs env renv) (h : BuiltFrom env w blocks region)
    (hwidths : ∀ tp ∈ w.input.source.list, TermWidths tp.postings) (hsizes : WithinWidths w)
    {p p' : Placement} (hplaced : PlacedAt file w region p) (hplaced' : PlacedAt file' w region p')
    (hsize : file.length < 2 ^ 64) (hsize' : file'.length < 2 ^ 64)
    (hidx : OpensAs env.bsbf renv file (w, p) idx)
    (hidx' : OpensAs env.bsbf renv file' (w, p') idx') : SameIndex renv idx idx' region := by
  have hregion : region.length < 2 ^ 64 := by
    have hbound := hplaced.post.bound
    omega
  have hholds : ∀ {f : Bytes} {q : Placement} {x : LogicalIndexReader}, PlacedAt f w region q →
      f.length < 2 ^ 64 → OpensTo renv f (w, q) x → HoldsRegion x region := by
    intro f q x hq hf hx
    have hrefs : x.sectionRefs = q.sectionRefs := by
      rw [LogicalIndexReader.sectionRefs, hx.indexMeta]
      rfl
    constructor
    · rw [hx.file_eq, hrefs]
      exact hq.post
    · rw [hrefs]
      exact hq.postLen
    · rw [hx.file_eq]
      exact hf
  have hpos : idx.hasPositions = idx'.hasPositions := hidx.positions.trans hidx'.positions.symm
  have htier : idx.tier = idx'.tier := by
    have hnorms : p.normsLen = p'.normsLen := hplaced.normsLen.trans hplaced'.normsLen.symm
    rw [hidx.inferred, hidx'.inferred]
    simp only [hnorms]
  have hdict : At idx.file p.dictOff w.dictBuf.streamInto := hidx.file_eq ▸ hplaced.dict
  have hdict' : At idx'.file p'.dictOff w.dictBuf.streamInto := hidx'.file_eq ▸ hplaced'.dict
  constructor
  case posting =>
    exact ⟨hholds hplaced hsize hidx.toOpensTo, hholds hplaced' hsize' hidx'.toOpensTo⟩
  case stats =>
    rw [LogicalIndexReader.stats, LogicalIndexReader.stats, hidx.indexMeta, hidx'.indexMeta]
    rfl
  case tier => exact htier
  case positions => exact hpos
  case samples => rw [hidx.samples, hidx'.samples]
  case probe =>
    intro term
    rw [hidx.probe, hidx'.probe]
  case blocks =>
    rw [hidx.refs, hidx'.refs, List.forall₂_map_left_iff, List.forall₂_map_right_iff,
      List.forall₂_same]
    intro rec hrec
    obtain ⟨k, b, hk, rfl⟩ := record_block h hrec
    rw [loadBlock_block h hk hdict, loadBlock_block h hk hdict', htier, hpos]
  case entries =>
    intro ref href br hload e he
    rw [hidx.refs] at href
    obtain ⟨rec, hrec, rfl⟩ := List.mem_map.mp href
    obtain ⟨k, b, hk, rfl⟩ := record_block h hrec
    have hb := List.mem_of_getElem? hk
    have hshape := (h.shape b hb).spec
    have hblock := h.blockOk hwidths hregion hb
      (@finish_of_plainLen env w blocks region (· < 2 ^ 32) h hsizes b hb)
    rw [loadBlock_eq_ok hlibs h hk hblock hidx.tier hidx.positions hdict hload] at he ⊢
    have ht : tierHasStats idx.tier = tierHasStats b.tier := by
      rw [hshape.1]
      exact hidx.tier
    obtain ⟨x, hx, rfl⟩ := mem_of_inBlock hblock ht he
    obtain ⟨tp, -, hat⟩ := h.wroteAt hb hx
    rw [readerAt_seen hidx.tier hshape.2]
    exact spansIn_seen hat

/-! ## The containers of a session with and without its failed calls -/

/-- Every dictionary block that the calls build is shorter than the format's limit. -/
def WidthsOk (env : BuildEnv) (adds : List AddCall) : Prop :=
  ∀ a ∈ adds, ∀ w region, build (a.env env) a.input [] = .ok w region → WithinWidths w

theorem CapsOk.widths {adds : List AddCall} (h : CapsOk env adds) : WidthsOk env adds :=
  fun a ha w region hbuild => (h a ha w region hbuild).widths

variable {adds : List AddCall} {indexes indexes' : List (BuiltIndex × Placement)}

theorem added_added (env : BuildEnv) (adds : List AddCall) :
    added env (added env adds) = added env adds := by
  rw [added, added, List.filter_filter]
  simp

/-- One index in two containers, with the call that added it. -/
structure PlacedTwice (env : BuildEnv) (adds : List AddCall) (file file' : Bytes)
    (y y' : BuiltIndex × Placement) : Prop where
  same : y.1 = y'.1
  call : ∃ a ∈ added env adds, ∃ region, build (a.env env) a.input [] = .ok y.1 region ∧
    PlacedAt file y.1 region y.2 ∧ PlacedAt file' y.1 region y'.2

/-- **Both containers hold the same indexes**, those of the calls that succeeded. -/
theorem placedTwice_of_containers (h : Container env adds file indexes)
    (h' : Container env (added env adds) file' indexes') :
    List.Forall₂ (PlacedTwice env adds file file') indexes indexes' := by
  have hcalls := (List.forall₂_and_left _ _).mpr ⟨fun a ha => ha, calls_of_container h⟩
  have hcalls' := calls_of_container h'
  rw [added_added] at hcalls'
  apply forall₂_chain _ hcalls.flip hcalls'
  intro y a y' hy hy'
  obtain ⟨ha, region, hbuild, hplaced⟩ := hy
  obtain ⟨region', hbuild', hplaced'⟩ := hy'
  rw [hbuild] at hbuild'
  injection hbuild' with hfst hregion
  subst hregion
  exact ⟨hfst, a, ha, region, hbuild, hplaced, hfst ▸ hplaced'⟩

/-- The search for a key ends at the same index. -/
theorem findEntry_same {R : BuiltIndex × Placement → BuiltIndex × Placement → Prop}
    (hR : ∀ y y', R y y' → y.1 = y'.1) (h : List.Forall₂ R indexes indexes') (indexId : Nat)
    (suffix : Bytes) (hkey : (indexId, suffix) ∈ indexes.map fun y => keyOf y.1.input) :
    ∃ y ∈ indexes, ∃ y' ∈ indexes', R y y' ∧
      findEntry (indexes.map metaEntry) indexId suffix = some (metaEntry y) ∧
      findEntry (indexes'.map metaEntry) indexId suffix = some (metaEntry y') := by
  induction h with
  | nil => cases hkey
  | @cons y y' ys ys' hy _ ih =>
      have hid : (metaEntry y').indexId = (metaEntry y).indexId := by
        rw [metaEntry, metaEntry, hR y y' hy]
      have hsuffix : (metaEntry y').suffix = (metaEntry y).suffix := by
        rw [metaEntry, metaEntry, hR y y' hy]
      by_cases hhere : (metaEntry y).indexId = indexId ∧ (metaEntry y).suffix = suffix
      · have hthere : (metaEntry y').indexId = indexId ∧ (metaEntry y').suffix = suffix := by
          rwa [hid, hsuffix]
        refine ⟨y, List.mem_cons_self, y', List.mem_cons_self, hy, ?_, ?_⟩
        · rw [findEntry, List.map_cons, List.find?_cons_of_pos (by simpa using hhere)]
        · rw [findEntry, List.map_cons, List.find?_cons_of_pos (by simpa using hthere)]
      · have hlater : (indexId, suffix) ∈ ys.map fun y => keyOf y.1.input := by
          cases List.mem_cons.mp hkey with
          | inl heq =>
              obtain ⟨hkeyId, hkeySuffix⟩ := Prod.ext_iff.mp heq
              exact absurd ⟨hkeyId.symm, hkeySuffix.symm⟩ hhere
          | inr hin => exact hin
        have hnot : ¬ ((metaEntry y').indexId = indexId ∧ (metaEntry y').suffix = suffix) := by
          rwa [hid, hsuffix]
        obtain ⟨x, hx, x', hx', hxx, hfind, hfind'⟩ := ih hlater
        refine ⟨x, List.mem_cons_of_mem _ hx, x', List.mem_cons_of_mem _ hx', hxx, ?_, ?_⟩
        · rw [findEntry, List.map_cons, List.find?_cons_of_neg (by simpa using hhere)]
          exact hfind
        · rw [findEntry, List.map_cons, List.find?_cons_of_neg (by simpa using hnot)]
          exact hfind'

/-- **A key of a successful call** opens readers of one index in both containers. -/
theorem openIndex_same (hlibs : SameLibs env renv) (h : Container env adds file indexes)
    (h' : Container env (added env adds) file' indexes') (hok : SessionOk (added env adds) file)
    (hok' : SessionOk (added env adds) file') (hwidths : WidthsOk env adds) {key : Nat × Bytes}
    (hkey : key ∈ (added env adds).map fun a => keyOf a.input) :
    ∃ idx idx' region, (segmentOf file indexes).openIndex renv key.1 key.2 = .ok idx ∧
      (segmentOf file' indexes').openIndex renv key.1 key.2 = .ok idx' ∧
      SameIndex renv idx idx' region := by
  rw [keys_of_container h] at hkey
  obtain ⟨y, hy, y', hy', htwice, hfind, hfind'⟩ := findEntry_same
    (fun y y' hyy => hyy.same) (placedTwice_of_containers h h') key.1 key.2 hkey
  obtain ⟨a, ha, region, hbuild, hplaced, hplaced'⟩ := htwice.call
  have hsizes := hwidths a (List.mem_filter.mp ha).1 y.1 region hbuild
  obtain ⟨hin, blocks, hbuilt⟩ := build_builtFrom hbuild
  rw [← added_added] at hok'
  obtain ⟨idx, hidx, hopens⟩ := openIndex_opensTo h hok hlibs.bsbf hy hfind hsizes
  obtain ⟨idx', hidx', hopens'⟩ := openIndex_opensTo h' hok' hlibs.bsbf hy' hfind'
    (htwice.same ▸ hsizes)
  have hterms : ∀ tp ∈ y.1.input.source.list, TermWidths tp.postings := by
    rw [hin]
    exact (hok.inputs a ha).widths
  refine ⟨idx, idx', region, hidx, hidx', ?_⟩
  have hopens' : OpensAs env.bsbf renv file' (y.1, y'.2) idx' := by
    rw [htwice.same]
    exact hopens'
  exact @sameIndex_of_opened (a.env env) renv idx idx' region y.1 blocks file file'
    ⟨hlibs.zstd, hlibs.bsbf, hlibs.lossless⟩ hbuilt hterms hsizes y.2 y'.2 hplaced hplaced'
    hok.size hok'.size hopens hopens'

/-- The keys of the directory. -/
def directoryKeys (s : SniiSegmentReader) : List (Nat × Bytes) :=
  s.region.dir.map fun ref => (ref.indexId, ref.indexSuffix)

theorem layoutRefs_keys (offset : Nat) (xs : List (BuiltIndex × Placement)) :
    (layoutRefs offset (xs.map metaEntry)).map (fun ref => (ref.indexId, ref.indexSuffix)) =
      xs.map fun y => keyOf y.1.input := by
  induction xs generalizing offset with
  | nil => rfl
  | cons x xs ih =>
      rw [List.map_cons, layoutRefs, List.map_cons, ih, List.map_cons]
      rfl

/-- The directory holds the calls that succeeded. -/
theorem directoryKeys_container (h : Container env adds file indexes) :
    directoryKeys (segmentOf file indexes) = (added env adds).map fun a => keyOf a.input := by
  rw [keys_of_container h]
  exact layoutRefs_keys _ _

/-- Every other key is refused by both. -/
theorem openIndex_absent_same (h : Container env adds file indexes)
    (h' : Container env (added env adds) file' indexes') (hok : SessionOk (added env adds) file)
    (hok' : SessionOk (added env adds) file') {key : Nat × Bytes}
    (hkey : key ∉ (added env adds).map fun a => keyOf a.input) :
    (segmentOf file indexes).openIndex renv key.1 key.2 =
        .error (.notFound "segment: logical index not found") ∧
      (segmentOf file' indexes').openIndex renv key.1 key.2 =
        .error (.notFound "segment: logical index not found") := by
  have hkeys' := keys_of_container h'
  rw [added_added] at hkeys'
  rw [← added_added] at hok'
  constructor
  · apply openIndex_absent h hok
    intro y hy heq
    rw [keys_of_container h] at hkey
    exact hkey (List.mem_map.mpr ⟨y, hy, heq⟩)
  · apply openIndex_absent h' hok'
    intro y hy heq
    rw [hkeys'] at hkey
    exact hkey (List.mem_map.mpr ⟨y, hy, heq⟩)

end Snii.Reader
