import Snii.Format.PayloadRoundTrip
import Snii.Format.PayloadSafety

/-!
# The two decoders of a position window

`read_prx_window` and `read_prx_window_csr` share the frame and differ in the loops over
its payload.  On a payload of packed runs the two loops do the same.  On a varint payload
only the flat decoder checks the position count against its cap: a window that holds more
positions is read by one and refused by the other.  `Overfull` is that kind of input, told
from the bytes alone, and `windowDecoders_agree_iff` says that it is the only one.
-/

namespace Snii.Format.WindowDecoders

open Snii.Lib.ByteReader Snii.Common Snii.Encoding.ByteSource
open Snii.Encoding.ByteCursor (Cursor Simulates)
open Snii.Encoding.Crc32c Snii.Encoding.Compression
open Snii.Format.PrxPod Snii.Format.PayloadArrays

/-! ## Agreement -/

/-- The flat output is the nested output, document after document. -/
structure Flattens (docs : List (List Nat)) (csr : Csr) : Prop where
  first : csr.posOff[0]? = some 0
  length : csr.posOff.length = docs.length + 1
  ascending : csr.posOff.IsChain (· ≤ ·)
  slice : ∀ (d : Nat) doc, docs[d]? = some doc → ∃ lo hi, csr.posOff[d]? = some lo ∧
    csr.posOff[d + 1]? = some hi ∧ (csr.posFlat.take hi).drop lo = doc

/-- Both decoders fail, or both succeed at the same position with the same documents. -/
def Agree (z : Zstd) (s : Bytes) (pos : Nat) : Prop :=
  (∃ e e', readPrxWindowAt z s pos = .error e ∧ readPrxWindowCsrAt z s pos = .error e') ∨
  ∃ docs csr pos', readPrxWindowAt z s pos = .ok (docs, pos') ∧
    readPrxWindowCsrAt z s pos = .ok (csr, pos') ∧ Flattens docs csr

/-! ## Windows with too many positions -/

/-- The bytes of documents with the given position differences. -/
inductive Docs : List (List Nat) → Bytes → Prop where
  | nil : Docs [] []
  | cons {ds : List Nat} {dss : List (List Nat)} {count deltas rest : Bytes} :
      Reads getVarint32 count ds.length → Reads (readN getVarint32 ds.length) deltas ds →
      Docs dss rest → Docs (ds :: dss) (count ++ (deltas ++ rest))

/-- The varint payload of documents with the given position differences. -/
def Payload (dss : List (List Nat)) (plain : Bytes) : Prop :=
  ∃ count docs, plain = count ++ docs ∧ Reads getVarint32 count dss.length ∧
    dss.length ≤ kMaxWindowDocs ∧ Docs dss docs

/-- The bytes of a window with a varint payload, stored or compressed. -/
inductive PlainWindow (z : Zstd) (plain : Bytes) : Bytes → Prop where
  | raw {code len crc : Bytes} :
      Reads getU8 code PrxCodec.raw.code → Reads getVarint32 len plain.length →
      plain.length ≤ kMaxWindowUncompBytes →
      Reads getFixed32 crc (crc32c (code ++ (len ++ plain))) →
      PlainWindow z plain (code ++ (len ++ plain) ++ crc)
  | zstd {code len clen comp crc : Bytes} {n : Nat} :
      Reads getU8 code PrxCodec.zstd.code → Reads getVarint32 len n →
      n ≤ kMaxWindowUncompBytes → Reads getVarint32 clen comp.length →
      zstdDecompress z comp n = .ok plain →
      Reads getFixed32 crc (crc32c (code ++ (len ++ (clen ++ comp)))) →
      PlainWindow z plain (code ++ (len ++ (clen ++ comp)) ++ crc)

/-- The bytes start with a valid window whose varint payload holds more positions than
the cap allows. -/
def Overfull (z : Zstd) (bs : Bytes) : Prop :=
  ∃ plain window rest dss, bs = window ++ rest ∧ PlainWindow z plain window ∧
    Payload dss plain ∧ kMaxWindowPositions < dss.flatten.length

/-! ## Documents -/

/-- The bytes of the documents read back as their positions. -/
theorem reads_docs {dss : List (List Nat)} {bs : Bytes} (h : Docs dss bs) :
    Reads (readN readDoc dss.length) bs (dss.map sumPositions) := by
  induction h with
  | nil => exact Reads.pure []
  | @cons ds dss count deltas rest hcount hdeltas _ ih =>
      have hdoc : Reads readDoc (count ++ deltas) (sumPositions ds) :=
        hcount.bind (hdeltas.bind_nil (Reads.pure _))
      rw [← List.append_assoc]
      exact hdoc.bind (ih.bind_nil (Reads.pure _))

/-- Documents that are read are the bytes of documents. -/
theorem docs_of_run {n : Nat} {bs rest : Bytes} {docs : List (List Nat)}
    (h : (readN readDoc n).run bs = .ok (docs, rest)) :
    ∃ dss used, bs = used ++ rest ∧ Docs dss used ∧ dss.length = n ∧
      docs = dss.map sumPositions := by
  induction n generalizing bs docs with
  | zero =>
      cases h
      exact ⟨[], [], rfl, Docs.nil, rfl, rfl⟩
  | succ n ih =>
      obtain ⟨doc, mid, hdoc, h⟩ := run_bind_eq_ok.mp h
      obtain ⟨docs', end', hdocs, hpure⟩ := run_bind_eq_ok.mp h
      cases hpure
      obtain ⟨k, b1, hk, hdoc⟩ := run_bind_eq_ok.mp hdoc
      obtain ⟨ds, b2, hds, hpure⟩ := run_bind_eq_ok.mp hdoc
      cases hpure
      have hlen : ds.length = k := yields_readN getVarint32 k b1 ds _ hds
      obtain ⟨count, rfl, hcount⟩ := prefixed_getVarint32 _ _ _ hk
      obtain ⟨deltas, rfl, hdeltas⟩ := prefixed_getVarint32.readN k _ _ _ hds
      obtain ⟨dss, used, rfl, hall, hn, rfl⟩ := ih hdocs
      refine ⟨ds :: dss, count ++ (deltas ++ used), ?_, ?_, by rw [List.length_cons, hn], rfl⟩
      · rw [List.append_assoc, List.append_assoc]
      · rw [← hlen] at hcount hdeltas
        exact Docs.cons hcount hdeltas hall

theorem length_flatten_map_sumPositions (dss : List (List Nat)) :
    (dss.map sumPositions).flatten.length = dss.flatten.length := by
  induction dss with
  | nil => rfl
  | cons ds dss ih =>
      rw [List.map_cons, List.flatten_cons, List.length_append, length_sumPositions, ih,
        List.flatten_cons, List.length_append]

/-- **The flat loop** does what the nested loop does as long as the running count is
within the cap. -/
theorem readDocsCsr_iff {n total : Nat} {c c' : Csr} {bs rest : Bytes}
    (htotal : total ≤ kMaxWindowPositions) :
    (readDocsCsr n total c).run bs = .ok (c', rest) ↔
      ∃ docs, (readN readDoc n).run bs = .ok (docs, rest) ∧
        total + docs.flatten.length ≤ kMaxWindowPositions ∧ c' = docs.foldl Csr.push c := by
  induction n generalizing total c bs with
  | zero =>
      constructor
      · intro h
        cases h
        exact ⟨[], rfl, htotal, rfl⟩
      · rintro ⟨docs, hdocs, -, rfl⟩
        cases hdocs
        rfl
  | succ n ih =>
      rw [readDocsCsr]
      constructor
      · intro h
        obtain ⟨k, b1, hk, h⟩ := run_bind_eq_ok.mp h
        by_cases hcap : total + k > kMaxWindowPositions
        · rw [if_pos hcap] at h
          cases h
        · rw [if_neg hcap] at h
          obtain ⟨ds, b2, hds, h⟩ := run_bind_eq_ok.mp h
          have hlen : ds.length = k := yields_readN getVarint32 k b1 ds _ hds
          obtain ⟨docs, hdocs, hle, rfl⟩ := (ih (by omega)).mp h
          refine ⟨sumPositions ds :: docs, ?_, ?_, rfl⟩
          · exact run_bind_eq_ok.mpr ⟨sumPositions ds, b2,
              run_bind_eq_ok.mpr ⟨k, b1, hk, run_bind_eq_ok.mpr ⟨ds, b2, hds, rfl⟩⟩,
              run_bind_eq_ok.mpr ⟨docs, rest, hdocs, rfl⟩⟩
          · rw [List.flatten_cons, List.length_append, length_sumPositions, hlen]
            omega
      · rintro ⟨docs, hdocs, hle, rfl⟩
        obtain ⟨doc, b2, hdoc, hdocs⟩ := run_bind_eq_ok.mp hdocs
        obtain ⟨docs', b3, hdocs', hpure⟩ := run_bind_eq_ok.mp hdocs
        cases hpure
        obtain ⟨k, b1, hk, hdoc⟩ := run_bind_eq_ok.mp hdoc
        obtain ⟨ds, b4, hds, hpure⟩ := run_bind_eq_ok.mp hdoc
        cases hpure
        have hlen : ds.length = k := yields_readN getVarint32 k b1 ds _ hds
        rw [List.flatten_cons, List.length_append, length_sumPositions, hlen] at hle
        apply run_bind_eq_ok.mpr
        refine ⟨k, b1, hk, ?_⟩
        rw [if_neg (by omega)]
        apply run_bind_eq_ok.mpr
        exact ⟨ds, b2, hds, (ih (by omega)).mpr ⟨docs', hdocs', by omega, rfl⟩⟩

/-- **Varint payloads**: the flat decoder returns the nested one's documents, where they
hold no more positions than its cap. -/
theorem decodePayloadCsr_iff {plain : Bytes} {c : Csr} :
    decodePayloadCsr plain = .ok c ↔ ∃ docs, decodePayload plain = .ok docs ∧
      docs.flatten.length ≤ kMaxWindowPositions ∧ c = docs.foldl Csr.push Csr.empty := by
  rw [decodePayloadCsr, parseAll_eq_ok]
  simp only [decodePayload, parseAll_eq_ok]
  constructor
  · intro h
    obtain ⟨n, b1, hn, h⟩ := run_bind_eq_ok.mp h
    by_cases hcap : n > kMaxWindowDocs
    · rw [if_pos hcap] at h
      cases h
    · rw [if_neg hcap] at h
      obtain ⟨docs, hdocs, hle, hc⟩ := (readDocsCsr_iff (Nat.zero_le _)).mp h
      refine ⟨docs, run_bind_eq_ok.mpr ⟨n, b1, hn, ?_⟩, by omega, hc⟩
      rw [if_neg hcap]
      exact hdocs
  · rintro ⟨docs, hdocs, hle, hc⟩
    obtain ⟨n, b1, hn, hdocs⟩ := run_bind_eq_ok.mp hdocs
    by_cases hcap : n > kMaxWindowDocs
    · rw [if_pos hcap] at hdocs
      cases hdocs
    · rw [if_neg hcap] at hdocs
      refine run_bind_eq_ok.mpr ⟨n, b1, hn, ?_⟩
      rw [if_neg hcap]
      exact (readDocsCsr_iff (Nat.zero_le _)).mpr ⟨docs, hdocs, by omega, hc⟩

/-- A varint payload that the nested decoder reads, told from its bytes. -/
theorem decodePayload_iff {plain : Bytes} {docs : List (List Nat)} :
    decodePayload plain = .ok docs ↔ ∃ dss, Payload dss plain ∧ docs = dss.map sumPositions := by
  constructor
  · intro h
    obtain ⟨n, b1, hn, hrun⟩ := run_bind_eq_ok.mp (parseAll_eq_ok.mp h)
    by_cases hcap : n > kMaxWindowDocs
    · rw [if_pos hcap] at hrun
      cases hrun
    · rw [if_neg hcap] at hrun
      obtain ⟨count, rfl, hcount⟩ := prefixed_getVarint32 _ _ _ hn
      obtain ⟨dss, used, rfl, hdocs, rfl, rfl⟩ := docs_of_run hrun
      exact ⟨dss, ⟨count, used, by rw [List.append_nil], hcount, by omega, hdocs⟩, rfl⟩
  · rintro ⟨dss, ⟨count, docs, rfl, hcount, hcap, hdocs⟩, rfl⟩
    apply parseAll_of_reads
    exact hcount.bind (Reads.if_neg (by omega) (reads_docs hdocs))

/-! ## Frames -/

theorem reads_plainWindow {z : Zstd} {plain window : Bytes} (h : PlainWindow z plain window) :
    ∃ frame, Reads readFramed window frame ∧ ∀ {α : Type} (pfor dec : Bytes → Result α),
      decodeFrame z pfor dec frame = dec plain := by
  cases h with
  | @raw code len crc hcode hlen hcap hcrc =>
      refine ⟨(.raw, plain.length, plain), ?_, fun pfor dec => rfl⟩
      have hheader : Reads readHeader (code ++ (len ++ plain)) (.raw, plain.length, plain) := by
        refine hcode.bind (hlen.bind (Reads.if_neg (by omega) ?_))
        have hpayload : Reads (if PrxCodec.raw = .zstd then getVarint32 else pure plain.length) []
            plain.length := Reads.if_neg (by decide) (Reads.pure plain.length)
        exact hpayload.bind ((reads_getBytes plain).bind_nil (Reads.pure _))
      refine hheader.consumed.bind (hcrc.bind_nil ?_)
      exact Reads.if_neg (by simp) (Reads.pure _)
  | @zstd code len clen comp crc n hcode hlen hcap hclen hplain hcrc =>
      refine ⟨(.zstd, n, comp), ?_, fun pfor dec => ?_⟩
      · have hheader : Reads readHeader (code ++ (len ++ (clen ++ comp))) (.zstd, n, comp) := by
          refine hcode.bind (hlen.bind (Reads.if_neg (by omega) ?_))
          have hpayload : Reads (if PrxCodec.zstd = .zstd then getVarint32 else pure n) clen
              comp.length := Reads.if_pos rfl hclen
          exact hpayload.bind ((reads_getBytes comp).bind_nil (Reads.pure _))
        refine hheader.consumed.bind (hcrc.bind_nil ?_)
        exact Reads.if_neg (by simp) (Reads.pure _)
      · rw [decodeFrame, hplain, ok_bind]

theorem code_of_ofCode {code : Nat} {codec : PrxCodec} (h : PrxCodec.ofCode code = some codec) :
    code = codec.code := by
  unfold PrxCodec.ofCode at h
  split at h <;> cases h <;> rfl

/-- **A frame that is read**: of packed runs, or the window of a varint payload, stored or
compressed. -/
theorem readHeader_inv {bs rest payload : Bytes} {codec : PrxCodec} {n : Nat}
    (h : readHeader.run bs = .ok ((codec, n, payload), rest)) :
    n ≤ kMaxWindowUncompBytes ∧ ∃ code len plen, bs = code ++ (len ++ (plen ++ payload)) ++ rest ∧
      Reads getU8 code codec.code ∧ Reads getVarint32 len n ∧
      if codec = .zstd then Reads getVarint32 plen payload.length
      else plen = [] ∧ n = payload.length := by
  obtain ⟨codeByte, b1, hcode, hrun⟩ := run_bind_eq_ok.mp h
  cases hof : PrxCodec.ofCode codeByte with
  | none =>
      rw [hof] at hrun
      cases hrun
  | some codec' =>
      rw [hof] at hrun
      obtain ⟨n', b2, hlen, hrest⟩ := run_bind_eq_ok.mp hrun
      by_cases hcap : n' > kMaxWindowUncompBytes
      · rw [if_pos hcap] at hrest
        cases hrest
      · rw [if_neg hcap] at hrest
        obtain ⟨code, rfl, hcodeReads⟩ := prefixed_getU8 _ _ _ hcode
        obtain ⟨len, rfl, hlenReads⟩ := prefixed_getVarint32 _ _ _ hlen
        rw [code_of_ofCode hof] at hcodeReads
        change (if codec' = .zstd then
            getVarint32 >>= fun k => getBytes k >>= fun payload => pure (codec', n', payload)
          else pure n' >>= fun k => getBytes k >>= fun payload => pure (codec', n', payload) :
            Source (PrxCodec × Nat × Bytes)).run b2 = _ at hrest
        by_cases hz : codec' = .zstd
        · rw [if_pos hz] at hrest
          obtain ⟨k, b3, hplen, hbytes⟩ := run_bind_eq_ok.mp hrest
          obtain ⟨payload', b4, hbytes, hpure⟩ := run_bind_eq_ok.mp hbytes
          cases hpure
          obtain ⟨plen, rfl, hplenReads⟩ := prefixed_getVarint32 _ _ _ hplen
          obtain ⟨rfl, rfl⟩ := getBytes_inv hbytes
          refine ⟨by omega, code, len, plen, by simp only [List.append_assoc], hcodeReads,
            hlenReads, ?_⟩
          rw [if_pos hz]
          exact hplenReads
        · rw [if_neg hz, pure_bind] at hrest
          obtain ⟨payload', b4, hbytes, hpure⟩ := run_bind_eq_ok.mp hrest
          cases hpure
          obtain ⟨rfl, rfl⟩ := getBytes_inv hbytes
          refine ⟨by omega, code, len, [], by simp only [List.append_assoc, List.nil_append],
            hcodeReads, hlenReads, ?_⟩
          rw [if_neg hz]
          exact ⟨rfl, rfl⟩

theorem prefixed_readHeader : Prefixed readHeader := by
  refine prefixed_getU8.bind fun code => ?_
  cases PrxCodec.ofCode code with
  | none => exact Prefixed.throw _
  | some codec =>
      refine prefixed_getVarint32.bind fun n => Prefixed.ite (Prefixed.throw _) ?_
      apply Prefixed.ite
      · exact prefixed_getVarint32.bind fun k => (prefixed_getBytes k).bind fun _ => Prefixed.pure _
      · rw [pure_bind]
        exact (prefixed_getBytes n).bind fun _ => Prefixed.pure _

theorem plainWindow_of_run {z : Zstd} {bs rest payload plain : Bytes} {codec : PrxCodec} {n : Nat}
    (h : readFramed.run bs = .ok ((codec, n, payload), rest)) (hcodec : codec ≠ .pfor)
    (hplain : framePlain z (codec, n, payload) = .ok plain) :
    ∃ window, bs = window ++ rest ∧ PlainWindow z plain window := by
  obtain ⟨⟨frame, framed⟩, mid, hconsumed, hcheck⟩ := run_bind_eq_ok.mp h
  obtain ⟨stored, rest', hstored, hresult⟩ := run_bind_eq_ok.mp hcheck
  change (if crc32c framed ≠ stored then throw (.corruption "prx: window crc mismatch")
    else pure frame : Source (PrxCodec × Nat × Bytes)).run rest' = _ at hresult
  obtain ⟨rfl, hframed⟩ := run_consumed prefixed_readHeader hconsumed
  change Reads readHeader framed frame at hframed
  by_cases hcrc : crc32c framed ≠ stored
  · rw [if_pos hcrc] at hresult
    cases hresult
  · rw [if_neg hcrc] at hresult
    cases hresult
    obtain ⟨crc, rfl, hcrcBytes⟩ := prefixed_getFixed32 _ _ _ hstored
    rw [← not_not.mp hcrc] at hcrcBytes
    obtain ⟨hcap, code, len, plen, hbs, hcode, hlen, hkind⟩ := readHeader_inv (hframed [])
    rw [List.append_nil, List.append_nil] at hbs
    simp only at hcrcBytes ⊢
    subst hbs
    refine ⟨code ++ (len ++ (plen ++ payload)) ++ crc, (List.append_assoc _ _ _).symm, ?_⟩
    cases codec with
    | pfor => exact absurd rfl hcodec
    | raw =>
        rw [if_neg (by decide)] at hkind
        obtain ⟨rfl, rfl⟩ := hkind
        cases hplain
        exact PlainWindow.raw hcode hlen hcap hcrcBytes
    | zstd =>
        rw [if_pos rfl] at hkind
        exact PlainWindow.zstd hcode hlen hcap hkind hplain hcrcBytes

/-! ## Windows -/

/-- A decoder over a frame, by the frame's payload. -/
theorem decodeFrame_eq {α : Type} (z : Zstd) (pfor dec : Bytes → Result α)
    (frame : PrxCodec × Nat × Bytes) :
    decodeFrame z pfor dec frame =
      framePlain z frame >>= fun plain => if frame.1 = .pfor then pfor plain else dec plain := by
  obtain ⟨codec, n, payload⟩ := frame
  cases codec <;> rfl

theorem run_window_iff {α : Type} {z : Zstd} {pfor dec : Bytes → Result α} {bs rest : Bytes}
    {x : α} :
    (readFramed >>= fun frame =>
        (StateT.lift (decodeFrame z pfor dec frame) : Source α)).run bs = .ok (x, rest) ↔
      ∃ frame plain, readFramed.run bs = .ok (frame, rest) ∧ framePlain z frame = .ok plain ∧
        (if frame.1 = .pfor then pfor plain else dec plain) = .ok x := by
  constructor
  · intro h
    obtain ⟨frame, mid, hframe, hlift⟩ := run_bind_eq_ok.mp h
    obtain ⟨y, hy, hpair⟩ := bind_eq_ok hlift
    cases hpair
    rw [decodeFrame_eq] at hy
    obtain ⟨plain, hplain, hdec⟩ := bind_eq_ok hy
    exact ⟨frame, plain, hframe, hplain, hdec⟩
  · rintro ⟨frame, plain, hframe, hplain, hdec⟩
    have hy : decodeFrame z pfor dec frame = .ok x := by
      rw [decodeFrame_eq, hplain, ok_bind, hdec]
    apply run_bind_eq_ok.mpr
    refine ⟨frame, rest, hframe, ?_⟩
    rw [hy]
    rfl

/-- A packed payload that is read holds no more positions than the cap. -/
theorem readPforPayload_cap {trailing : String} {plain : Bytes} {r : List Nat × List Nat}
    (h : parseAll readPforPayload trailing plain = .ok r) :
    ((splitCounts r.1 r.2).map sumPositions).flatten.length ≤ kMaxWindowPositions := by
  have hyields : Yields readPforPayload fun r =>
      r.2.length = r.1.sum ∧ r.1.sum ≤ kMaxWindowPositions := by
    refine (Yields.trivial _).bind fun docCount _ => (Yields.trivial _).bind fun total _ => ?_
    refine Yields.ite (fun _ => Yields.throw _) fun hcap => ?_
    refine Yields.ite (fun _ => Yields.throw _) fun _ => ?_
    refine (Yields.trivial _).bind fun posCounts _ => ?_
    refine Yields.ite (fun _ => Yields.throw _) fun hsum => ?_
    refine (yields_decodePforRuns total).bind fun deltas hdeltas => Yields.pure ?_
    have heq := not_not.mp hsum
    exact ⟨hdeltas.trans heq.symm, by rw [heq]; omega⟩
  have hr := yields_parseAll hyields h
  rw [length_flatten_splitCounts hr.1]
  exact hr.2

/-- **Packed payloads**: the two decoders do the same. -/
theorem decodePforPayloadCsr_iff {plain : Bytes} {c : Csr} :
    decodePforPayloadCsr plain = .ok c ↔ ∃ docs, decodePforPayload plain = .ok docs ∧
      docs.flatten.length ≤ kMaxWindowPositions ∧ c = docs.foldl Csr.push Csr.empty := by
  constructor
  · intro h
    obtain ⟨r, hparse, hc⟩ := bind_eq_ok h
    cases hc
    exact ⟨_, by rw [decodePforPayload, hparse]; rfl, readPforPayload_cap hparse, rfl⟩
  · rintro ⟨docs, hdocs, -, rfl⟩
    obtain ⟨r, hparse, hpure⟩ := bind_eq_ok hdocs
    cases hpure
    rw [decodePforPayloadCsr, hparse]
    rfl

/-- **The flat decoder** returns the nested one's documents, where they hold no more
positions than its cap. -/
theorem readPrxWindowCsr_iff {z : Zstd} {bs rest : Bytes} {c : Csr} :
    (readPrxWindowCsr z).run bs = .ok (c, rest) ↔
      ∃ docs, (readPrxWindow z).run bs = .ok (docs, rest) ∧
        docs.flatten.length ≤ kMaxWindowPositions ∧ c = docs.foldl Csr.push Csr.empty := by
  rw [readPrxWindowCsr, run_window_iff]
  simp only [readPrxWindow, run_window_iff]
  constructor
  · rintro ⟨frame, plain, hframe, hplain, hdec⟩
    by_cases hpfor : frame.1 = .pfor
    · rw [if_pos hpfor] at hdec
      obtain ⟨docs, hdocs, hcap, hc⟩ := decodePforPayloadCsr_iff.mp hdec
      exact ⟨docs, ⟨frame, plain, hframe, hplain, by rwa [if_pos hpfor]⟩, hcap, hc⟩
    · rw [if_neg hpfor] at hdec
      obtain ⟨docs, hdocs, hcap, hc⟩ := decodePayloadCsr_iff.mp hdec
      exact ⟨docs, ⟨frame, plain, hframe, hplain, by rwa [if_neg hpfor]⟩, hcap, hc⟩
  · rintro ⟨docs, ⟨frame, plain, hframe, hplain, hdec⟩, hcap, hc⟩
    refine ⟨frame, plain, hframe, hplain, ?_⟩
    by_cases hpfor : frame.1 = .pfor
    · rw [if_pos hpfor] at hdec ⊢
      exact decodePforPayloadCsr_iff.mpr ⟨docs, hdec, hcap, hc⟩
    · rw [if_neg hpfor] at hdec ⊢
      exact decodePayloadCsr_iff.mpr ⟨docs, hdec, hcap, hc⟩

/-- **Overfull windows** are those the nested decoder reads beyond the cap. -/
theorem overfull_iff {z : Zstd} {bs : Bytes} :
    Overfull z bs ↔ ∃ docs rest, (readPrxWindow z).run bs = .ok (docs, rest) ∧
      kMaxWindowPositions < docs.flatten.length := by
  simp only [readPrxWindow, run_window_iff]
  constructor
  · rintro ⟨plain, window, rest, dss, rfl, hwindow, hpayload, hcap⟩
    obtain ⟨frame, hreads, hdec⟩ := reads_plainWindow hwindow
    refine ⟨dss.map sumPositions, rest, ?_, by rwa [length_flatten_map_sumPositions]⟩
    apply run_window_iff.mp
    apply run_bind_eq_ok.mpr
    refine ⟨frame, rest, hreads rest, ?_⟩
    rw [hdec, decodePayload_iff.mpr ⟨dss, hpayload, rfl⟩]
    rfl
  · rintro ⟨docs, rest, ⟨frame, plain, hframe, hplain, hdec⟩, hcap⟩
    by_cases hpfor : frame.1 = .pfor
    · rw [if_pos hpfor] at hdec
      obtain ⟨r, hparse, hpure⟩ := bind_eq_ok hdec
      cases hpure
      have := readPforPayload_cap hparse
      omega
    · rw [if_neg hpfor] at hdec
      obtain ⟨dss, hpayload, rfl⟩ := decodePayload_iff.mp hdec
      obtain ⟨window, rfl, hwindow⟩ := plainWindow_of_run hframe hpfor hplain
      rw [length_flatten_map_sumPositions] at hcap
      exact ⟨plain, window, rest, dss, rfl, hwindow, hpayload, hcap⟩

/-! ## Agreement of the decoders -/

theorem flattens_foldl_push {docs : List (List Nat)} (h : docs.flatten.length < 2 ^ 32) :
    Flattens docs (docs.foldl Csr.push Csr.empty) := by
  rw [foldl_push h]
  have hget : ∀ i ≤ docs.length, ((List.range (docs.length + 1)).map fun i =>
      (docs.take i).flatten.length)[i]? = some (docs.take i).flatten.length := by
    intro i hi
    rw [List.getElem?_map, List.getElem?_range (by omega)]
    rfl
  have hstep : ∀ (d : Nat) doc, docs[d]? = some doc →
      (docs.take (d + 1)).flatten = (docs.take d).flatten ++ doc := by
    intro d doc hd
    rw [List.take_add_one, hd, List.flatten_append]
    simp
  refine ⟨by rw [hget 0 (Nat.zero_le _)]; rfl, by rw [List.length_map, List.length_range], ?_, ?_⟩
  · rw [List.isChain_iff_getElem]
    intro i hi
    rw [List.length_map, List.length_range] at hi
    rw [List.getElem_map, List.getElem_map, List.getElem_range, List.getElem_range,
      List.take_add_one, List.flatten_append, List.length_append]
    omega
  · intro d doc hd
    have hlt : d < docs.length := (List.getElem?_eq_some_iff.mp hd).1
    refine ⟨_, _, hget d (by omega), hget (d + 1) (by omega), ?_⟩
    show (docs.flatten.take (docs.take (d + 1)).flatten.length).drop
      (docs.take d).flatten.length = doc
    have hsplit : docs.flatten = (docs.take (d + 1)).flatten ++ (docs.drop (d + 1)).flatten := by
      rw [← List.flatten_append, List.take_append_drop]
    rw [hsplit, List.take_left, hstep d doc hd, List.drop_left]

theorem agree_of_not_overfull {z : Zstd} {s : Bytes} {pos : Nat} (hpos : pos ≤ s.length)
    (hnot : ¬ Overfull z (s.drop pos)) : Agree z s pos := by
  have hnested := simulates_readPrxWindowAt z
  have hcsr := simulates_readPrxWindowCsrAt z
  cases hrun : (readPrxWindow z).run (s.drop pos) with
  | error e =>
      apply Or.inl
      cases hrun' : (readPrxWindowCsr z).run (s.drop pos) with
      | error e' => exact ⟨e, e', hnested.error hpos hrun, hcsr.error hpos hrun'⟩
      | ok r =>
          obtain ⟨docs, hdocs, -⟩ := readPrxWindowCsr_iff.mp hrun'
          rw [hrun] at hdocs
          cases hdocs
  | ok r =>
      have hle : r.1.flatten.length ≤ kMaxWindowPositions :=
        Nat.le_of_not_lt fun hlt => hnot (overfull_iff.mpr ⟨r.1, r.2, hrun, hlt⟩)
      have hrun' := readPrxWindowCsr_iff.mpr ⟨r.1, hrun, hle, rfl⟩
      obtain ⟨docs, pos', hok, rfl, -, hend, hrest⟩ := hnested.ok hpos hrun
      obtain ⟨csr, pos'', hok', rfl, -, hend', hrest'⟩ := hcsr.ok hpos hrun'
      have hsame : pos'' = pos' := by
        have := congrArg List.length (hrest.symm.trans hrest')
        rw [List.length_drop, List.length_drop] at this
        omega
      rw [hsame] at hok'
      exact Or.inr ⟨r.1, _, pos', hok, hok',
        flattens_foldl_push (Nat.lt_of_le_of_lt hle (by decide))⟩

theorem not_agree_of_overfull {z : Zstd} {s : Bytes} {pos : Nat} (hpos : pos ≤ s.length)
    (h : Overfull z (s.drop pos)) : ¬ Agree z s pos := by
  obtain ⟨docs, rest, hrun, hcap⟩ := overfull_iff.mp h
  rintro (⟨e, e', herr, -⟩ | ⟨docs', csr, pos', -, hflat, -⟩)
  · obtain ⟨_, pos', hok, -⟩ := (simulates_readPrxWindowAt z).ok hpos hrun
    rw [hok] at herr
    cases herr
  · obtain ⟨_, hrun', rfl, -⟩ := (simulates_readPrxWindowCsrAt z).of_ok hpos hflat
    obtain ⟨docs'', hrun'', hle, -⟩ := readPrxWindowCsr_iff.mp hrun'
    rw [hrun] at hrun''
    cases hrun''
    omega

/-- **The decoders agree exactly off the overfull windows.** -/
theorem windowDecoders_agree_iff {z : Zstd} {s : Bytes} {pos : Nat} (hpos : pos ≤ s.length) :
    Agree z s pos ↔ ¬ Overfull z (s.drop pos) := by
  constructor
  · exact fun hagree hover => not_agree_of_overfull hpos hover hagree
  · exact agree_of_not_overfull hpos

/-- A stored window of one document with one position. -/
theorem windowDecoders_agree_small : Agree Zstd.store (writeRaw [1, 1, 3]) 0 := by
  have hreads : Reads readFramed (writeRaw [1, 1, 3]) (.raw, 3, [1, 1, 3]) :=
    reads_writeRaw (by decide)
  have hrun : (readPrxWindow Zstd.store).run (writeRaw [1, 1, 3] ++ []) = .ok ([[3]], []) :=
    run_window_iff.mpr ⟨_, [1, 1, 3], hreads [], rfl, rfl⟩
  apply (windowDecoders_agree_iff (Nat.zero_le _)).mpr
  rw [List.drop_zero, overfull_iff]
  rintro ⟨docs, rest, hrun', hcap⟩
  rw [List.append_nil] at hrun
  rw [hrun] at hrun'
  cases hrun'
  exact absurd hcap (by decide)

/-! ## An overfull window -/

/-- The payload of one document with `n` positions, all zero. -/
def zerosPlain (n : Nat) : Bytes := putVarint32 1 ++ (putVarint32 n ++ List.replicate n 0)

theorem reads_zeros (n : Nat) :
    Reads (readN getVarint32 n) (List.replicate n 0) (List.replicate n 0) := by
  induction n with
  | zero => exact Reads.pure []
  | succ n ih =>
      have hzero : Reads getVarint32 (putVarint32 0) 0 := reads_getVarint32 (by decide)
      exact hzero.bind (ih.bind_nil (Reads.pure _))

theorem payload_zeros {n : Nat} (h : n < 2 ^ 32) :
    Payload [List.replicate n 0] (zerosPlain n) := by
  refine ⟨putVarint32 1, _, rfl, reads_getVarint32 (by decide), ?_, ?_⟩
  · rw [List.length_singleton]
    decide
  have hdeltas := reads_zeros n
  have hdocs : Docs [List.replicate n 0] (putVarint32 n ++ (List.replicate n 0 ++ [])) := by
    apply Docs.cons _ _ Docs.nil
    · rw [List.length_replicate]
      exact reads_getVarint32 h
    · rw [List.length_replicate]
      exact hdeltas
  rwa [List.append_nil] at hdocs

theorem overfull_zeros {n : Nat} (hcap : kMaxWindowPositions < n)
    (hlen : n + 20 ≤ kMaxWindowUncompBytes) :
    Overfull Zstd.store (writeRaw (zerosPlain n)) := by
  have h32 : kMaxWindowUncompBytes < 2 ^ 32 := by decide
  have hplain : (zerosPlain n).length ≤ kMaxWindowUncompBytes := by
    have h1 := length_putVarint32_le 1
    have hn := length_putVarint32_le n
    rw [zerosPlain, List.length_append, List.length_append, List.length_replicate]
    omega
  have hwindow : PlainWindow Zstd.store (zerosPlain n) (writeRaw (zerosPlain n)) := by
    rw [writeRaw, putFramed, Nat.mod_eq_of_lt (by omega), List.append_assoc (putU8 _)]
    exact PlainWindow.raw (reads_getU8 (by decide)) (reads_getVarint32 (by omega)) hplain
      (reads_getFixed32 (crc32c_lt _))
  refine ⟨zerosPlain n, _, [], _, (List.append_nil _).symm, hwindow, payload_zeros (by omega), ?_⟩
  rw [List.flatten_singleton, List.length_replicate]
  exact hcap

/-- One position more than the cap: only the nested decoder reads the window. -/
theorem windowDecoders_disagree_zeros :
    ¬ Agree Zstd.store (writeRaw (zerosPlain (2 ^ 26 + 1))) 0 := by
  apply not_agree_of_overfull (Nat.zero_le _)
  rw [List.drop_zero]
  apply overfull_zeros
  · decide
  · decide

end Snii.Format.WindowDecoders
