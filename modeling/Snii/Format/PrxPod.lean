import Mathlib.Data.List.Induction
import Snii.Format.FrqPod

/-!
# Position windows

`prx_pod.cpp`.  A window stores, for each of its documents, the positions of the
term in it, as differences within the document.  The payload is a varint stream,
the same compressed, or packed runs; a frame with a checksum surrounds it.

There are two builders, from a list for each document and from one flat list cut
by the documents' counts, and two decoders, to a list for each document and to a
flat list with offsets.
-/

namespace Snii.Format.PrxPod

open Snii.Lib.ByteReader Snii.Lib.Chunks Snii.Common
open Snii.Encoding.ByteSource Snii.Encoding.Pfor Snii.Encoding.Crc32c Snii.Encoding.Compression
open Snii.Format.FrqPod (encodePforRuns decodePforRuns reads_encodePforRuns kDefaultZstdLevel
  shouldCompress)

/-- Caps on what a window may state, checked before anything is allocated for it. -/
def kMaxWindowUncompBytes : Nat := 256 * 1024 * 1024

/-- The cap on the positions of a window. -/
def kMaxWindowPositions : Nat := 2 ^ 26

/-- The cap on the documents of a window. -/
def kMaxWindowDocs : Nat := 2 ^ 24

/-- How the payload of a window is stored. -/
inductive PrxCodec where
  | raw
  | zstd
  | pfor
deriving DecidableEq

/-- The codec byte. -/
def PrxCodec.code : PrxCodec → Nat
  | .raw => 0
  | .zstd => 1
  | .pfor => 2

/-- The codec of a byte; other bytes are refused. -/
def PrxCodec.ofCode : Nat → Option PrxCodec
  | 0 => some .raw
  | 1 => some .zstd
  | 2 => some .pfor
  | _ => none

/-! ## Building -/

/-- The documents' counts must use up the flat list. -/
def checkFlatPartition (flat freqs : List Nat) : Result Unit :=
  if freqs.sum ≠ flat.length then
    .error (.invalidArgument "prx: sum(freqs) does not match positions_flat size")
  else .ok ()

/-- Differences of a document's positions after its first. -/
def posDeltasFrom : Nat → List Nat → Result (List Nat)
  | _, [] => .ok []
  | prev, p :: ps =>
      if p < prev then
        .error (.invalidArgument "prx: positions within a doc must be ascending")
      else do
        let rest ← posDeltasFrom p ps
        pure ((p - prev) :: rest)

/-- A document's positions, the first absolute. -/
def posDeltas : List Nat → Result (List Nat)
  | [] => .ok []
  | p :: ps => do
      let rest ← posDeltasFrom p ps
      pure (p :: rest)

/-- The documents of a varint payload, after their count. -/
def encodeDocs : List (List Nat) → Result Bytes
  | [] => .ok []
  | doc :: docs => do
      let ds ← posDeltas doc
      let rest ← encodeDocs docs
      pure (putVarint32 (doc.length % 2 ^ 32) ++ ds.flatMap putVarint32 ++ rest)

/-- The varint payload: the number of documents, then each of them. -/
def encodePayload (perDoc : List (List Nat)) : Result Bytes := do
  let body ← encodeDocs perDoc
  pure (putVarint32 (perDoc.length % 2 ^ 32) ++ body)

/-- The same from the flat list: a document owns the next `fc` positions. -/
def encodeDocsFlat : List Nat → List Nat → Result Bytes
  | [], _ => .ok []
  | fc :: freqs, flat => do
      let ds ← posDeltas (flat.take fc)
      let rest ← encodeDocsFlat freqs (flat.drop fc)
      pure (putVarint32 fc ++ ds.flatMap putVarint32 ++ rest)

/-- The varint payload from the flat list. -/
def encodePayloadFlat (flat freqs : List Nat) : Result Bytes := do
  checkFlatPartition flat freqs
  let body ← encodeDocsFlat freqs flat
  pure (putVarint32 (freqs.length % 2 ^ 32) ++ body)

/-- All differences of the window, document after document. -/
def flatDeltas : List Nat → List Nat → Result (List Nat)
  | [], _ => .ok []
  | fc :: freqs, flat => do
      let ds ← posDeltas (flat.take fc)
      let rest ← flatDeltas freqs (flat.drop fc)
      pure (ds ++ rest)

/-- The packed payload: the two counts, then the counts and the differences as runs. -/
def encodePforPayloadFlat (flat freqs : List Nat) : Result Bytes := do
  checkFlatPartition flat freqs
  let deltas ← flatDeltas freqs flat
  pure (putVarint32 (freqs.length % 2 ^ 32) ++ putVarint32 (flat.length % 2 ^ 32) ++
    encodePforRuns freqs ++ encodePforRuns deltas)

/-- The packed payload from a list for each document. -/
def encodePforPayload (perDoc : List (List Nat)) : Result Bytes :=
  encodePforPayloadFlat perDoc.flatten (perDoc.map fun doc => doc.length % 2 ^ 32)

/-- A frame: header and payload, then their checksum. -/
def putFramed (framed : Bytes) : Bytes := framed ++ putFixed32 (crc32c framed)

/-- The frame of a packed payload. -/
def writePfor (payload : Bytes) : Bytes :=
  putFramed (putU8 PrxCodec.pfor.code ++ putVarint32 (payload.length % 2 ^ 32) ++ payload)

/-- The frame of a varint payload stored as it is. -/
def writeRaw (plain : Bytes) : Bytes :=
  putFramed (putU8 PrxCodec.raw.code ++ putVarint32 (plain.length % 2 ^ 32) ++ plain)

/-- The frame of a compressed varint payload; a level of zero asks for the default. -/
def writeZstd (z : Zstd) (plain : Bytes) (level : Int) : Result Bytes := do
  let comp ← zstdCompress z plain (if level > 0 then level else kDefaultZstdLevel)
  pure (putFramed (putU8 PrxCodec.zstd.code ++ putVarint32 (plain.length % 2 ^ 32) ++
    putVarint32 (comp.length % 2 ^ 32) ++ comp))

/-- A level of zero or more asks for the varint payload, a negative one for
packed runs. -/
def writeWindow (z : Zstd) (level : Int) (plain pfor : Result Bytes) : Result Bytes :=
  if level ≥ 0 then do
    let plain ← plain
    if ¬ shouldCompress level plain.length then pure (writeRaw plain) else writeZstd z plain level
  else do
    let payload ← pfor
    pure (writePfor payload)

/-- `build_prx_window`, from a list for each document. -/
def buildPrxWindow (z : Zstd) (perDoc : List (List Nat)) (level : Int) : Result Bytes :=
  writeWindow z level (encodePayload perDoc) (encodePforPayload perDoc)

/-- `build_prx_window_flat`, which the writer of an index uses. -/
def buildPrxWindowFlat (z : Zstd) (flat freqs : List Nat) (level : Int) : Result Bytes :=
  writeWindow z level (encodePayloadFlat flat freqs) (encodePforPayloadFlat flat freqs)

/-! ## Reading -/

/-- Running sums after the first position, in 32 bits. -/
def addDeltas : Nat → List Nat → List Nat
  | _, [] => []
  | prev, d :: ds => (prev + d) % 2 ^ 32 :: addDeltas ((prev + d) % 2 ^ 32) ds

/-- A document's positions from its differences. -/
def sumPositions : List Nat → List Nat
  | [] => []
  | d :: ds => d :: addDeltas d ds

/-- Cuts a list into pieces of the given lengths. -/
def splitCounts : List Nat → List Nat → List (List Nat)
  | [], _ => []
  | n :: counts, xs => xs.take n :: splitCounts counts (xs.drop n)

/-- Counts and differences of a packed payload. -/
def readPforPayload : Source (List Nat × List Nat) := do
  let docCount ← getVarint32
  let totalPos ← getVarint32
  if totalPos > kMaxWindowPositions then throw (.corruption "prx: position count exceeds sane cap")
  else if docCount > kMaxWindowDocs then throw (.corruption "prx: doc count exceeds sane cap")
  else do
    let posCounts ← decodePforRuns docCount
    if posCounts.sum ≠ totalPos then throw (.corruption "prx: pos_count sum mismatch")
    else do
      let deltas ← decodePforRuns totalPos
      pure (posCounts, deltas)

/-- A packed payload as a list for each document. -/
def decodePforPayload (plain : Bytes) : Result (List (List Nat)) := do
  let (posCounts, deltas) ←
    parseAll readPforPayload "prx: trailing bytes after pfor payload" plain
  pure ((splitCounts posCounts deltas).map sumPositions)

/-- One document of a varint payload. -/
def readDoc : Source (List Nat) := do
  let posCount ← getVarint32
  let deltas ← readN getVarint32 posCount
  pure (sumPositions deltas)

/-- A varint payload.  Its documents are capped, its positions are not. -/
def readPayload : Source (List (List Nat)) := do
  let docCount ← getVarint32
  if docCount > kMaxWindowDocs then throw (.corruption "prx: doc count exceeds sane cap")
  else readN readDoc docCount

/-- A varint payload that nothing follows. -/
def decodePayload (plain : Bytes) : Result (List (List Nat)) :=
  parseAll readPayload "prx: trailing bytes after payload" plain

/-- Flat positions and document offsets. -/
structure Csr where
  posFlat : List Nat
  posOff : List Nat
deriving DecidableEq

/-- No documents: the offsets start with `0`. -/
def Csr.empty : Csr := { posFlat := [], posOff := [0] }

/-- Appends a document's positions and its end offset. -/
def Csr.push (c : Csr) (doc : List Nat) : Csr :=
  { posFlat := c.posFlat ++ doc, posOff := c.posOff ++ [(c.posFlat.length + doc.length) % 2 ^ 32] }

/-- A packed payload as a flat list with offsets. -/
def decodePforPayloadCsr (plain : Bytes) : Result Csr := do
  let (posCounts, deltas) ←
    parseAll readPforPayload "prx: trailing bytes after pfor payload" plain
  pure (((splitCounts posCounts deltas).map sumPositions).foldl Csr.push Csr.empty)

/-- The documents of a varint payload, with a cap on the running position count. -/
def readDocsCsr : Nat → Nat → Csr → Source Csr
  | 0, _, c => pure c
  | n + 1, total, c => do
      let posCount ← getVarint32
      if total + posCount > kMaxWindowPositions then
        throw (.corruption "prx: position count exceeds sane cap")
      else do
        let deltas ← readN getVarint32 posCount
        readDocsCsr n (total + posCount) (c.push (sumPositions deltas))

/-- A varint payload with both caps. -/
def readPayloadCsr : Source Csr := do
  let docCount ← getVarint32
  if docCount > kMaxWindowDocs then throw (.corruption "prx: doc count exceeds sane cap")
  else readDocsCsr docCount 0 Csr.empty

/-- A varint payload that nothing follows, as a flat list with offsets. -/
def decodePayloadCsr (plain : Bytes) : Result Csr :=
  parseAll readPayloadCsr "prx: trailing bytes after payload" plain

/-- Codec, declared length and payload of a frame. -/
def readHeader : Source (PrxCodec × Nat × Bytes) := do
  let code ← getU8
  match PrxCodec.ofCode code with
  | none => throw (.corruption "prx: unknown codec")
  | some codec => do
      let uncompLen ← getVarint32
      if uncompLen > kMaxWindowUncompBytes then
        throw (.corruption "prx: uncomp_len exceeds sane window cap")
      else do
        let payloadLen ← if codec = .zstd then getVarint32 else pure uncompLen
        let payload ← getBytes payloadLen
        pure (codec, uncompLen, payload)

/-- A frame whose checksum covers header and payload. -/
def readFramed : Source (PrxCodec × Nat × Bytes) := do
  let (frame, framed) ← consumed readHeader
  let stored ← getFixed32
  if crc32c framed ≠ stored then throw (.corruption "prx: window crc mismatch") else pure frame

/-- The payload of a frame, decoded by its codec. -/
def decodeFrame {α : Type} (z : Zstd) (pfor plain : Bytes → Result α) :
    PrxCodec × Nat × Bytes → Result α
  | (.pfor, _, payload) => pfor payload
  | (.raw, _, payload) => plain payload
  | (.zstd, uncompLen, payload) => do
      let bytes ← zstdDecompress z payload uncompLen
      plain bytes

/-- A window as a list for each document. -/
def readPrxWindow (z : Zstd) : Source (List (List Nat)) := do
  let frame ← readFramed
  StateT.lift (decodeFrame z decodePforPayload decodePayload frame)

/-- A window as a flat list with offsets. -/
def readPrxWindowCsr (z : Zstd) : Source Csr := do
  let frame ← readFramed
  StateT.lift (decodeFrame z decodePforPayloadCsr decodePayloadCsr frame)

/-! ## Positions of a window -/

/-- The position lists a window holds: ascending within each document, in 32 bits. -/
structure Positions (docs : List (List Nat)) : Prop where
  ascending : ∀ doc ∈ docs, doc.IsChain (· ≤ ·)
  inRange : ∀ doc ∈ docs, ∀ p ∈ doc, p < 2 ^ 32

theorem Positions.tail {doc : List Nat} {docs : List (List Nat)} (h : Positions (doc :: docs)) :
    Positions docs :=
  ⟨fun d hd => h.ascending d (List.mem_cons_of_mem _ hd),
    fun d hd => h.inRange d (List.mem_cons_of_mem _ hd)⟩

theorem posDeltasFrom_ok {prev : Nat} {ps : List Nat} (hasc : (prev :: ps).IsChain (· ≤ ·))
    (hlt : ∀ p ∈ ps, p < 2 ^ 32) :
    ∃ ds, posDeltasFrom prev ps = .ok ds ∧ ds.length = ps.length ∧ (∀ d ∈ ds, d < 2 ^ 32) ∧
      addDeltas prev ds = ps := by
  induction ps generalizing prev with
  | nil => exact ⟨[], rfl, rfl, by simp, rfl⟩
  | cons p ps ih =>
      have hstep := List.isChain_cons_cons.mp hasc
      have hp := hlt p List.mem_cons_self
      obtain ⟨ds, hds, hlen, hbound, hsum⟩ :=
        ih hstep.2 fun q hq => hlt q (List.mem_cons_of_mem _ hq)
      refine ⟨(p - prev) :: ds, ?_, by simp [hlen], ?_, ?_⟩
      · rw [posDeltasFrom, if_neg (by omega), hds, ok_bind]
        rfl
      · intro d hd
        rcases List.mem_cons.mp hd with rfl | hd
        · omega
        · exact hbound d hd
      · rw [addDeltas, Nat.add_sub_cancel' hstep.1, Nat.mod_eq_of_lt hp, hsum]

/-- A document's differences, summed up again, are its positions. -/
theorem posDeltas_ok {doc : List Nat} (hasc : doc.IsChain (· ≤ ·)) (hlt : ∀ p ∈ doc, p < 2 ^ 32) :
    ∃ ds, posDeltas doc = .ok ds ∧ ds.length = doc.length ∧ (∀ d ∈ ds, d < 2 ^ 32) ∧
      sumPositions ds = doc := by
  cases doc with
  | nil => exact ⟨[], rfl, rfl, by simp, rfl⟩
  | cons p ps =>
      obtain ⟨ds, hds, hlen, hbound, hsum⟩ :=
        posDeltasFrom_ok hasc fun q hq => hlt q (List.mem_cons_of_mem _ hq)
      refine ⟨p :: ds, ?_, by simp [hlen], ?_, by rw [sumPositions, hsum]⟩
      · rw [posDeltas, hds, ok_bind]
        rfl
      · intro d hd
        rcases List.mem_cons.mp hd with rfl | hd
        · exact hlt d List.mem_cons_self
        · exact hbound d hd

theorem posDeltasFrom_inv {prev : Nat} {ps ds : List Nat} (h : posDeltasFrom prev ps = .ok ds) :
    (prev :: ps).IsChain (· ≤ ·) := by
  induction ps generalizing prev ds with
  | nil => exact .singleton _
  | cons p ps ih =>
      rw [posDeltasFrom] at h
      by_cases hlt : p < prev
      · rw [if_pos hlt] at h
        cases h
      · rw [if_neg hlt] at h
        obtain ⟨rest, hrest, -⟩ := bind_eq_ok h
        exact List.isChain_cons_cons.mpr ⟨by omega, ih hrest⟩

theorem posDeltas_inv {doc ds : List Nat} (h : posDeltas doc = .ok ds) : doc.IsChain (· ≤ ·) := by
  cases doc with
  | nil => exact .nil
  | cons p ps =>
      rw [posDeltas] at h
      obtain ⟨rest, hrest, -⟩ := bind_eq_ok h
      exact posDeltasFrom_inv hrest

/-- The positions of every document have been checked to ascend. -/
theorem flatDeltas_inv {counts flat ds : List Nat} (h : flatDeltas counts flat = .ok ds) :
    ∀ doc ∈ splitCounts counts flat, doc.IsChain (· ≤ ·) := by
  induction counts generalizing flat ds with
  | nil => exact fun doc hdoc => nomatch hdoc
  | cons n counts ih =>
      rw [flatDeltas] at h
      obtain ⟨ds', hds, hnext⟩ := bind_eq_ok h
      obtain ⟨rest, hrest, -⟩ := bind_eq_ok hnext
      rw [splitCounts]
      exact List.forall_mem_cons.mpr ⟨posDeltas_inv hds, ih hrest⟩

/-- **The flat list** cut by the counts gives the documents' differences. -/
theorem flatDeltas_ok {docs : List (List Nat)} (h : Positions docs) :
    ∃ ds, flatDeltas (docs.map List.length) docs.flatten = .ok ds ∧
      ds.length = docs.flatten.length ∧ (∀ d ∈ ds, d < 2 ^ 32) ∧
      (splitCounts (docs.map List.length) ds).map sumPositions = docs := by
  induction docs with
  | nil => exact ⟨[], rfl, rfl, by simp, rfl⟩
  | cons doc docs ih =>
      obtain ⟨ds, hds, hlen, hbound, hsum⟩ :=
        posDeltas_ok (h.ascending doc List.mem_cons_self) (h.inRange doc List.mem_cons_self)
      obtain ⟨rest, hrest, hlenRest, hboundRest, hsumRest⟩ := ih h.tail
      refine ⟨ds ++ rest, ?_, by simp [hlen, hlenRest], ?_, ?_⟩
      · rw [List.map_cons, flatDeltas, List.flatten_cons, List.take_left, List.drop_left, hds,
          ok_bind, hrest, ok_bind]
        rfl
      · intro d hd
        rcases List.mem_append.mp hd with hd | hd
        · exact hbound d hd
        · exact hboundRest d hd
      · rw [List.map_cons, splitCounts, List.take_left' hlen, List.drop_left' hlen, List.map_cons,
          hsum, hsumRest]

/-- What the reader's caps ask of a window. -/
structure Fits (docs : List (List Nat)) : Prop where
  docCount : docs.length ≤ kMaxWindowDocs
  posCount : docs.flatten.length ≤ kMaxWindowPositions
  payload : ∀ payload, encodePforPayloadFlat docs.flatten (docs.map List.length) = .ok payload →
    payload.length ≤ kMaxWindowUncompBytes

instance decidableFits (docs : List (List Nat)) : Decidable (Fits docs) :=
  decidable_of_iff (docs.length ≤ kMaxWindowDocs ∧ docs.flatten.length ≤ kMaxWindowPositions ∧
      ∀ payload ∈ (encodePforPayloadFlat docs.flatten (docs.map List.length)).toOption,
        payload.length ≤ kMaxWindowUncompBytes)
    ⟨fun ⟨hd, hp, hall⟩ => ⟨hd, hp, fun payload h => hall payload (by rw [h]; rfl)⟩,
      fun h => ⟨h.docCount, h.posCount, fun payload hin => h.payload payload (by
        cases henc : encodePforPayloadFlat docs.flatten (docs.map List.length) with
        | error e => rw [henc] at hin; cases hin
        | ok bytes => rw [henc] at hin; cases hin; rfl)⟩⟩

theorem length_le_flatten {docs : List (List Nat)} {doc : List Nat} (h : doc ∈ docs) :
    doc.length ≤ docs.flatten.length :=
  (List.sublist_flatten_of_mem h).length_le

theorem checkFlatPartition_docs (docs : List (List Nat)) :
    checkFlatPartition docs.flatten (docs.map List.length) = .ok () := by
  rw [checkFlatPartition, List.length_flatten, if_neg (by simp)]

/-- **The packed payload** reads back as the counts and the differences. -/
theorem encodePforPayloadFlat_ok {docs : List (List Nat)} (h : Positions docs)
    (hdocs : docs.length ≤ kMaxWindowDocs) (hpos : docs.flatten.length ≤ kMaxWindowPositions) :
    ∃ payload ds, encodePforPayloadFlat docs.flatten (docs.map List.length) = .ok payload ∧
      Reads readPforPayload payload (docs.map List.length, ds) ∧
      (splitCounts (docs.map List.length) ds).map sumPositions = docs := by
  obtain ⟨ds, hds, hlen, hbound, hsum⟩ := flatDeltas_ok h
  have hdocs32 : docs.length < 2 ^ 32 := Nat.lt_of_le_of_lt hdocs (by decide)
  have hpos32 : docs.flatten.length < 2 ^ 32 := Nat.lt_of_le_of_lt hpos (by decide)
  have hcounts : ∀ n ∈ docs.map List.length, n < 2 ^ 32 := by
    intro n hn
    obtain ⟨doc, hdoc, rfl⟩ := List.mem_map.mp hn
    exact Nat.lt_of_le_of_lt (length_le_flatten hdoc) hpos32
  have hruns := reads_encodePforRuns hcounts
  have hdeltas := reads_encodePforRuns hbound
  rw [List.length_map] at hruns
  rw [hlen] at hdeltas
  refine ⟨putVarint32 docs.length ++ putVarint32 docs.flatten.length ++
    encodePforRuns (docs.map List.length) ++ encodePforRuns ds, ds, ?_, ?_, hsum⟩
  · rw [encodePforPayloadFlat, checkFlatPartition_docs, ok_bind, hds, ok_bind, List.length_map,
      Nat.mod_eq_of_lt hdocs32, Nat.mod_eq_of_lt hpos32]
    rfl
  · simp only [List.append_assoc]
    refine (reads_getVarint32 hdocs32).bind ((reads_getVarint32 hpos32).bind ?_)
    refine Reads.if_neg (by omega) (Reads.if_neg (by omega) (hruns.bind ?_))
    refine Reads.if_neg (by rw [List.length_flatten]; simp) (hdeltas.bind_nil ?_)
    exact Reads.pure _

/-- **A frame** reads back as what its header says. -/
theorem reads_putFramed {framed : Bytes} {frame : PrxCodec × Nat × Bytes}
    (h : Reads readHeader framed frame) : Reads readFramed (putFramed framed) frame := by
  refine h.consumed.bind ((reads_getFixed32 (crc32c_lt _)).bind_nil ?_)
  exact Reads.if_neg (by simp) (Reads.pure _)

/-- A frame of packed runs reads back as its payload. -/
theorem reads_writePfor {payload : Bytes} (hlen : payload.length ≤ kMaxWindowUncompBytes) :
    Reads readFramed (writePfor payload) (.pfor, payload.length, payload) := by
  have h32 : payload.length < 2 ^ 32 := Nat.lt_of_le_of_lt hlen (by decide)
  apply reads_putFramed
  rw [Nat.mod_eq_of_lt h32, List.append_assoc]
  refine (reads_getU8 (by decide)).bind ?_
  refine (reads_getVarint32 h32).bind (Reads.if_neg (by omega) ?_)
  have hlen : Reads (if PrxCodec.pfor = .zstd then getVarint32 else pure payload.length) []
      payload.length := Reads.if_neg (by decide) (Reads.pure payload.length)
  exact hlen.bind ((reads_getBytes payload).bind_nil (Reads.pure _))

/-- A step that reads nothing and succeeds. -/
theorem reads_lift {α : Type} {r : Result α} {x : α} (h : r = .ok x) :
    Reads (StateT.lift r : Source α) [] x := by
  subst h
  exact fun _ => rfl

theorem buildPrxWindowFlat_auto (z : Zstd) (flat freqs : List Nat) :
    buildPrxWindowFlat z flat freqs (-1) = (do
      let payload ← encodePforPayloadFlat flat freqs
      pure (writePfor payload)) := by
  rw [buildPrxWindowFlat, writeWindow, if_neg (by decide)]

/-- **A window of packed runs**: both readers return the documents it was built from
and consume exactly the window. -/
theorem buildPrxWindowFlat_reads (z : Zstd) {docs : List (List Nat)} (h : Positions docs)
    (hfits : Fits docs) :
    ∃ bytes, buildPrxWindowFlat z docs.flatten (docs.map List.length) (-1) = .ok bytes ∧
      Reads (readPrxWindow z) bytes docs ∧
      Reads (readPrxWindowCsr z) bytes (docs.foldl Csr.push Csr.empty) := by
  obtain ⟨payload, ds, hpay, hread, hsum⟩ :=
    encodePforPayloadFlat_ok h hfits.docCount hfits.posCount
  have hframe := reads_writePfor (hfits.payload payload hpay)
  refine ⟨writePfor payload, ?_, hframe.bind_nil (reads_lift ?_), hframe.bind_nil (reads_lift ?_)⟩
  · rw [buildPrxWindowFlat_auto, hpay, ok_bind]
    rfl
  · rw [decodeFrame, decodePforPayload, parseAll_of_reads hread, ok_bind]
    exact congrArg Except.ok hsum
  · rw [decodeFrame, decodePforPayloadCsr, parseAll_of_reads hread, ok_bind]
    exact congrArg (fun d => Except.ok (d.foldl Csr.push Csr.empty)) hsum

/-- **Flat positions and offsets**: the documents one after the other, and where
each begins. -/
theorem foldl_push {docs : List (List Nat)} (h : docs.flatten.length < 2 ^ 32) :
    docs.foldl Csr.push Csr.empty =
      { posFlat := docs.flatten
        posOff := (List.range (docs.length + 1)).map fun i => (docs.take i).flatten.length } := by
  induction docs using List.reverseRecOn with
  | nil => rfl
  | append_singleton docs doc ih =>
      rw [List.flatten_append, List.length_append] at h
      have hdoc : [doc].flatten.length = doc.length := by simp
      rw [List.foldl_append, ih (by omega), List.foldl_cons, List.foldl_nil, Csr.push]
      congr 1
      · simp
      · rw [List.length_append, List.length_singleton, @List.range_succ (docs.length + 1),
          List.map_append, List.map_singleton]
        congr 1
        · refine List.map_congr_left fun i hi => ?_
          have := List.mem_range.mp hi
          rw [List.take_append_of_le_length (by omega)]
        · have hlt : docs.flatten.length + doc.length < 2 ^ 32 := by omega
          rw [List.take_of_length_le (by simp), Nat.mod_eq_of_lt hlt, List.flatten_append,
            List.length_append, hdoc]

end Snii.Format.PrxPod
