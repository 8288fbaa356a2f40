import Snii.Format.PrxPod

/-!
# Payloads read back

What the builders of `frq_pod.cpp` and `prx_pod.cpp` write at any level reads back: a
doc-delta region to its docids, a frequency region to its frequencies, a position window
to its documents' positions.  The builders fail exactly on lists that descend, and the
two builders of position windows write the same bytes.
-/

namespace Snii.Format

open Snii.Lib.ByteReader Snii.Common Snii.Encoding.ByteSource Snii.Encoding.Crc32c
open Snii.Encoding.Compression Snii.Format.FrqPod Snii.Format.PrxPod

variable {z : Zstd}

/-! ## Regions -/

/-- The docids descend somewhere, or begin below the base. -/
def Descends (winBase : Nat) (docids : List Nat) : Prop :=
  ¬ docids.IsChain (· ≤ ·) ∨ ∃ d ∈ docids.head?, d < winBase

theorem isChain_cons_iff (winBase : Nat) (docids : List Nat) :
    (winBase :: docids).IsChain (· ≤ ·) ↔ ¬ Descends winBase docids := by
  cases docids with
  | nil => simp [Descends]
  | cons d docids => simp [Descends, List.isChain_cons_cons, and_comm]

theorem buildDdRegion_error_iff (hz : z.Lossless) (docids : List Nat) (winBase : Nat)
    (level : Int) :
    (∃ e, buildDdRegion z docids winBase level = .error e) ↔ Descends winBase docids := by
  obtain ⟨disk, m, hemit, -⟩ := emitRegion_region hz (ddPlain winBase docids) level
  have hiff := (validateDocs_iff docids winBase).trans (isChain_cons_iff winBase docids)
  rw [buildDdRegion]
  cases hvalid : validateDocs docids winBase with
  | error e =>
      rw [hvalid] at hiff
      refine ⟨fun _ => ?_, fun _ => ⟨e, rfl⟩⟩
      by_contra hnot
      cases hiff.mpr hnot
  | ok u =>
      rw [hvalid] at hiff
      rw [ok_bind]
      constructor
      · rintro ⟨e, he⟩
        rw [← ddPlain, hemit] at he
        cases he
      · exact fun hdesc => absurd hdesc (hiff.mp rfl)

/-- **Regions read back**, whatever the level.  A doc-delta region is refused exactly if
its docids descend or begin below the base. -/
theorem region_roundTrip (hz : z.Lossless) {docids freqs : List Nat} {winBase : Nat} (level : Int)
    (hdocs : ∀ d ∈ docids, d < 2 ^ 32) (hcount : docids.length ≤ FrqPod.kMaxWindowDocs)
    (hddCap : (ddPlain winBase docids).length ≤ kMaxRegionUncompBytes)
    (hfreqs : ∀ f ∈ freqs, f < 2 ^ 32)
    (hfreqCap : (encodePforRuns freqs).length ≤ kMaxRegionUncompBytes) :
    ((∃ e, buildDdRegion z docids winBase level = .error e) ↔ Descends winBase docids) ∧
    (¬ Descends winBase docids → ∃ disk m,
      buildDdRegion z docids winBase level = .ok (disk, m) ∧
        decodeDdRegion z disk m winBase = .ok docids) ∧
    ∃ disk m, buildFreqRegion z freqs level = .ok (disk, m) ∧
      decodeFreqRegion z disk m freqs.length = .ok freqs := by
  refine ⟨buildDdRegion_error_iff hz docids winBase level, fun hasc => ?_, ?_⟩
  · have hfrom : DocsFrom winBase docids := ⟨(isChain_cons_iff winBase docids).mpr hasc, hdocs⟩
    obtain ⟨disk, m, hemit, hregion, -⟩ := emitRegion_region hz (ddPlain winBase docids) level
    refine ⟨disk, m, ?_, decodeDdRegion_region hfrom hcount hregion hddCap⟩
    rw [buildDdRegion_eq hfrom, hemit]
  · obtain ⟨disk, m, hemit, hregion, -⟩ := emitRegion_region hz (encodePforRuns freqs) level
    exact ⟨disk, m, hemit, decodeFreqRegion_region hfreqs hregion hfreqCap⟩

/-- Docids with a repeat at the end of 32 bits, forced through compression. -/
theorem region_roundTrip_edge :
    ((∃ e, buildDdRegion Zstd.store [7, 4294967295, 4294967295] 7 3 = .error e) ↔
      Descends 7 [7, 4294967295, 4294967295]) ∧
    (¬ Descends 7 [7, 4294967295, 4294967295] → ∃ disk m,
      buildDdRegion Zstd.store [7, 4294967295, 4294967295] 7 3 = .ok (disk, m) ∧
        decodeDdRegion Zstd.store disk m 7 = .ok [7, 4294967295, 4294967295]) ∧
    ∃ disk m, buildFreqRegion Zstd.store [1, 0, 4294967295] 3 = .ok (disk, m) ∧
      decodeFreqRegion Zstd.store disk m 3 = .ok [1, 0, 4294967295] :=
  region_roundTrip Zstd.store_lossless 3 (by decide) (by decide) (by decide +kernel) (by decide)
    (by decide +kernel)

/-! ## Both builders of position windows -/

variable {docs : List (List Nat)}

theorem encodeDocsFlat_eq (h : ∀ doc ∈ docs, doc.length < 2 ^ 32) :
    encodeDocsFlat (docs.map List.length) docs.flatten = encodeDocs docs := by
  induction docs with
  | nil => rfl
  | cons doc docs ih =>
      have hdoc := h doc List.mem_cons_self
      rw [List.map_cons, List.flatten_cons, encodeDocsFlat, encodeDocs, List.take_left,
        List.drop_left, ih fun d hd => h d (List.mem_cons_of_mem _ hd), Nat.mod_eq_of_lt hdoc]

theorem encodePayloadFlat_eq (h : ∀ doc ∈ docs, doc.length < 2 ^ 32) :
    encodePayloadFlat docs.flatten (docs.map List.length) = encodePayload docs := by
  rw [encodePayloadFlat, checkFlatPartition_docs, ok_bind, encodeDocsFlat_eq h, List.length_map,
    encodePayload]

theorem encodePforPayload_eq (h : ∀ doc ∈ docs, doc.length < 2 ^ 32) :
    encodePforPayload docs = encodePforPayloadFlat docs.flatten (docs.map List.length) := by
  have hcounts : (docs.map fun doc => doc.length % 2 ^ 32) = docs.map List.length :=
    List.map_congr_left fun doc hdoc => Nat.mod_eq_of_lt (h doc hdoc)
  rw [encodePforPayload, hcounts]

/-- **Both builders** return the same, bytes or status. -/
theorem buildPrxWindowFlat_eq (h : ∀ doc ∈ docs, doc.length < 2 ^ 32) (level : Int) :
    buildPrxWindowFlat z docs.flatten (docs.map List.length) level =
      buildPrxWindow z docs level := by
  rw [buildPrxWindowFlat, buildPrxWindow, encodePayloadFlat_eq h, encodePforPayload_eq h]

/-! ## Payloads -/

theorem splitCounts_lengths (docs : List (List Nat)) :
    splitCounts (docs.map List.length) docs.flatten = docs := by
  induction docs with
  | nil => rfl
  | cons doc docs ih =>
      rw [List.map_cons, List.flatten_cons, splitCounts, List.take_left, List.drop_left, ih]

theorem encodeDocs_inv {body : Bytes} (h : encodeDocs docs = .ok body) :
    ∀ doc ∈ docs, doc.IsChain (· ≤ ·) := by
  induction docs generalizing body with
  | nil => exact fun doc hdoc => nomatch hdoc
  | cons doc docs ih =>
      rw [encodeDocs] at h
      obtain ⟨ds, hds, hnext⟩ := bind_eq_ok h
      obtain ⟨rest, hrest, -⟩ := bind_eq_ok hnext
      exact List.forall_mem_cons.mpr ⟨posDeltas_inv hds, ih hrest⟩

/-- The documents of a varint payload read back. -/
theorem encodeDocs_ok (h : Positions docs) (hlen : ∀ doc ∈ docs, doc.length < 2 ^ 32) :
    ∃ body, encodeDocs docs = .ok body ∧ Reads (readN readDoc docs.length) body docs := by
  induction docs with
  | nil => exact ⟨[], rfl, Reads.pure []⟩
  | cons doc docs ih =>
      have hdoc := hlen doc List.mem_cons_self
      obtain ⟨ds, hds, hcount, hbound, hsum⟩ :=
        posDeltas_ok (h.ascending doc List.mem_cons_self) (h.inRange doc List.mem_cons_self)
      obtain ⟨body, hbody, hreads⟩ := ih h.tail fun d hd => hlen d (List.mem_cons_of_mem _ hd)
      refine ⟨putVarint32 doc.length ++ ds.flatMap putVarint32 ++ body, ?_, ?_⟩
      · rw [encodeDocs, hds, ok_bind, hbody, ok_bind, Nat.mod_eq_of_lt hdoc]
        rfl
      · have hdeltas : Reads (readN getVarint32 doc.length) (ds.flatMap putVarint32) ds := by
          rw [← hcount]
          exact Reads.readN fun d hd => reads_getVarint32 (hbound d hd)
        have hread : Reads readDoc (putVarint32 doc.length ++ ds.flatMap putVarint32) doc := by
          refine (reads_getVarint32 hdoc).bind (hdeltas.bind_nil ?_)
          rw [hsum]
          exact Reads.pure doc
        exact hread.bind (hreads.bind_nil (Reads.pure _))

/-- What a level encodes before it is framed. -/
def payloadAt (level : Int) (docs : List (List Nat)) : Result Bytes :=
  if level ≥ 0 then encodePayload docs else encodePforPayload docs

/-- The reader's caps, and 32-bit positions. -/
structure WithinCaps (level : Int) (docs : List (List Nat)) : Prop where
  inRange : ∀ doc ∈ docs, ∀ p ∈ doc, p < 2 ^ 32
  docCount : docs.length ≤ PrxPod.kMaxWindowDocs
  posCount : docs.flatten.length ≤ kMaxWindowPositions
  payload : ∀ bytes, payloadAt level docs = .ok bytes → bytes.length ≤ kMaxWindowUncompBytes

theorem WithinCaps.lengths {level : Int} (h : WithinCaps level docs) :
    ∀ doc ∈ docs, doc.length < 2 ^ 32 := by
  intro doc hdoc
  have hle := length_le_flatten hdoc
  exact Nat.lt_of_le_of_lt (hle.trans h.posCount) (by decide)

theorem encodePayload_ok (h : Positions docs) (hdocs : docs.length ≤ PrxPod.kMaxWindowDocs)
    (hlen : ∀ doc ∈ docs, doc.length < 2 ^ 32) :
    ∃ payload, encodePayload docs = .ok payload ∧ decodePayload payload = .ok docs := by
  obtain ⟨body, hbody, hreads⟩ := encodeDocs_ok h hlen
  have h32 : docs.length < 2 ^ 32 := Nat.lt_of_le_of_lt hdocs (by decide)
  refine ⟨putVarint32 docs.length ++ body, ?_, ?_⟩
  · rw [encodePayload, hbody, ok_bind, Nat.mod_eq_of_lt h32]
    rfl
  · have hpayload : Reads readPayload (putVarint32 docs.length ++ body) docs :=
      (reads_getVarint32 h32).bind (Reads.if_neg (by omega) hreads)
    exact parseAll_of_reads hpayload _

theorem encodePforPayload_ok (h : Positions docs) (hdocs : docs.length ≤ PrxPod.kMaxWindowDocs)
    (hpos : docs.flatten.length ≤ kMaxWindowPositions) (hlen : ∀ doc ∈ docs, doc.length < 2 ^ 32) :
    ∃ payload, encodePforPayload docs = .ok payload ∧ decodePforPayload payload = .ok docs := by
  obtain ⟨payload, ds, hpayload, hread, hsum⟩ := encodePforPayloadFlat_ok h hdocs hpos
  refine ⟨payload, by rw [encodePforPayload_eq hlen, hpayload], ?_⟩
  rw [decodePforPayload, parseAll_of_reads hread, ok_bind]
  exact congrArg Except.ok hsum

/-- Only documents that ascend are encoded. -/
theorem payloadAt_inv {level : Int} (hlen : ∀ doc ∈ docs, doc.length < 2 ^ 32) {payload : Bytes}
    (h : payloadAt level docs = .ok payload) : ∀ doc ∈ docs, doc.IsChain (· ≤ ·) := by
  rw [payloadAt] at h
  by_cases hlevel : level ≥ 0
  · rw [if_pos hlevel, encodePayload] at h
    obtain ⟨body, hbody, -⟩ := bind_eq_ok h
    exact encodeDocs_inv hbody
  · rw [if_neg hlevel, encodePforPayload_eq hlen, encodePforPayloadFlat] at h
    obtain ⟨u, -, hdeltas⟩ := bind_eq_ok h
    obtain ⟨ds, hds, -⟩ := bind_eq_ok hdeltas
    have hinv := flatDeltas_inv hds
    rwa [splitCounts_lengths] at hinv

/-! ## Frames -/

theorem reads_writeRaw {plain : Bytes} (hlen : plain.length ≤ kMaxWindowUncompBytes) :
    Reads readFramed (writeRaw plain) (.raw, plain.length, plain) := by
  have h32 : plain.length < 2 ^ 32 := Nat.lt_of_le_of_lt hlen (by decide)
  apply reads_putFramed
  rw [Nat.mod_eq_of_lt h32, List.append_assoc]
  refine (reads_getU8 (by decide)).bind ?_
  refine (reads_getVarint32 h32).bind (Reads.if_neg (by omega) ?_)
  have hstored : Reads (if PrxCodec.raw = .zstd then getVarint32 else pure plain.length) []
      plain.length := Reads.if_neg (by decide) (Reads.pure plain.length)
  exact hstored.bind ((reads_getBytes plain).bind_nil (Reads.pure _))

theorem reads_writeZstd (hz : z.Lossless) {plain : Bytes} (level : Int)
    (hlen : plain.length ≤ kMaxWindowUncompBytes) :
    ∃ bytes comp, writeZstd z plain level = .ok bytes ∧
      Reads readFramed bytes (.zstd, plain.length, comp) ∧
      zstdDecompress z comp plain.length = .ok plain := by
  obtain ⟨comp, hcomp, hbound, hdec⟩ :=
    hz.compress_ok (if level > 0 then level else kDefaultZstdLevel) plain
  have hcap : kMaxWindowUncompBytes = 268435456 := by decide
  have h32 : plain.length < 2 ^ 32 := by omega
  have hcomp32 : comp.length < 2 ^ 32 := by omega
  refine ⟨_, comp, by rw [writeZstd, hcomp, ok_bind]; rfl, ?_, hdec⟩
  apply reads_putFramed
  rw [Nat.mod_eq_of_lt h32, Nat.mod_eq_of_lt hcomp32]
  simp only [List.append_assoc]
  refine (reads_getU8 (by decide)).bind ?_
  refine (reads_getVarint32 h32).bind (Reads.if_neg (by omega) ?_)
  have hstored : Reads (if PrxCodec.zstd = .zstd then getVarint32 else pure plain.length)
      (putVarint32 comp.length) comp.length := Reads.if_pos rfl (reads_getVarint32 hcomp32)
  exact hstored.bind ((reads_getBytes comp).bind_nil (Reads.pure _))

/-- **A window** that was built reads back as the documents. -/
theorem buildPrxWindow_reads (hz : z.Lossless) {level : Int} (h : WithinCaps level docs)
    (hasc : ∀ doc ∈ docs, doc.IsChain (· ≤ ·)) :
    ∃ bytes, buildPrxWindow z docs level = .ok bytes ∧ Reads (readPrxWindow z) bytes docs := by
  have hpos : Positions docs := ⟨hasc, h.inRange⟩
  rw [buildPrxWindow, writeWindow]
  by_cases hlevel : level ≥ 0
  · obtain ⟨payload, hpayload, hdecode⟩ := encodePayload_ok hpos h.docCount h.lengths
    have hcap := h.payload payload (by rw [payloadAt, if_pos hlevel, hpayload])
    rw [if_pos hlevel, hpayload, ok_bind]
    by_cases hcomp : shouldCompress level payload.length = true
    · obtain ⟨bytes, comp, hwrite, hframe, hdec⟩ := reads_writeZstd hz level hcap
      rw [if_neg (not_not_intro hcomp)]
      refine ⟨bytes, hwrite, hframe.bind_nil (reads_lift ?_)⟩
      rw [decodeFrame, hdec, ok_bind, hdecode]
    · rw [if_pos hcomp]
      exact ⟨_, rfl, (reads_writeRaw hcap).bind_nil (reads_lift hdecode)⟩
  · obtain ⟨payload, hpayload, hdecode⟩ :=
      encodePforPayload_ok hpos h.docCount h.posCount h.lengths
    have hcap := h.payload payload (by rw [payloadAt, if_neg hlevel, hpayload])
    rw [if_neg hlevel, hpayload, ok_bind]
    exact ⟨_, rfl, (reads_writePfor hcap).bind_nil (reads_lift hdecode)⟩

/-- **Position windows read back** at every level.  Both builders agree, they fail
exactly on documents whose positions descend, and the reader takes exactly the window. -/
theorem prxWindow_roundTrip (hz : z.Lossless) {level : Int} (h : WithinCaps level docs) :
    buildPrxWindowFlat z docs.flatten (docs.map List.length) level =
        buildPrxWindow z docs level ∧
      ((∃ e, buildPrxWindow z docs level = .error e) ↔ ∃ doc ∈ docs, ¬ doc.IsChain (· ≤ ·)) ∧
      ∀ bytes, buildPrxWindow z docs level = .ok bytes → Reads (readPrxWindow z) bytes docs := by
  have hinv : ∀ bytes, buildPrxWindow z docs level = .ok bytes →
      ∀ doc ∈ docs, doc.IsChain (· ≤ ·) := by
    intro bytes hbytes
    rw [buildPrxWindow, writeWindow] at hbytes
    by_cases hlevel : level ≥ 0
    · rw [if_pos hlevel] at hbytes
      obtain ⟨payload, hpayload, -⟩ := bind_eq_ok hbytes
      have hat : payloadAt level docs = .ok payload := by rw [payloadAt, if_pos hlevel, hpayload]
      exact payloadAt_inv h.lengths hat
    · rw [if_neg hlevel] at hbytes
      obtain ⟨payload, hpayload, -⟩ := bind_eq_ok hbytes
      have hat : payloadAt level docs = .ok payload := by rw [payloadAt, if_neg hlevel, hpayload]
      exact payloadAt_inv h.lengths hat
  refine ⟨buildPrxWindowFlat_eq h.lengths level, ?_, fun bytes hbytes => ?_⟩
  · constructor
    · rintro ⟨e, he⟩
      by_contra hnone
      push Not at hnone
      obtain ⟨bytes, hbytes, -⟩ := buildPrxWindow_reads hz h hnone
      rw [hbytes] at he
      cases he
    · rintro ⟨doc, hdoc, hdesc⟩
      cases hbuilt : buildPrxWindow z docs level with
      | error e => exact ⟨e, rfl⟩
      | ok bytes => exact absurd (hinv bytes hbuilt doc hdoc) hdesc
  · obtain ⟨bytes', hbytes', hreads⟩ := buildPrxWindow_reads hz h (hinv bytes hbytes)
    rw [hbytes] at hbytes'
    cases hbytes'
    exact hreads

/-- Documents with a repeat, without positions and with the last position of 32 bits. -/
def edgeDocs : List (List Nat) := [[1, 1, 4294967295], [], [0]]

theorem withinCaps_edgeDocs (level : Int) (hlevel : level ≥ 0) : WithinCaps level edgeDocs := by
  refine ⟨by decide, by decide, by decide, fun bytes hbytes => ?_⟩
  have hpayload : encodePayload edgeDocs = .ok [3, 3, 1, 0, 254, 255, 255, 255, 15, 0, 1, 0] := by
    decide +kernel
  rw [payloadAt, if_pos hlevel, hpayload] at hbytes
  cases hbytes
  decide

theorem prxWindow_roundTrip_edgeDocs :
    buildPrxWindowFlat Zstd.store edgeDocs.flatten (edgeDocs.map List.length) 3 =
        buildPrxWindow Zstd.store edgeDocs 3 ∧
      ((∃ e, buildPrxWindow Zstd.store edgeDocs 3 = .error e) ↔
        ∃ doc ∈ edgeDocs, ¬ doc.IsChain (· ≤ ·)) ∧
      ∀ bytes, buildPrxWindow Zstd.store edgeDocs 3 = .ok bytes →
        Reads (readPrxWindow Zstd.store) bytes edgeDocs :=
  prxWindow_roundTrip Zstd.store_lossless (withinCaps_edgeDocs 3 (by decide))

end Snii.Format
