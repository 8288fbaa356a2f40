import Snii.Format.PayloadArrays

/-!
# Payload decoders are index-safe

Whatever the bytes, the region meta and the count asked for, no decoder of a posting
payload reads outside its bytes or indexes outside an array it has sized, and what it
returns is as long as the payload declares.
-/

namespace Snii.Format.PayloadArrays

open Snii.Lib Snii.Lib.ByteReader Snii.Common
open Snii.Encoding.ByteCursor (Cursor Simulates)
open Snii.Encoding.ByteSource Snii.Encoding.Pfor Snii.Encoding.Compression Snii.Encoding.Crc32c
open Snii.Format.FrqPod (FrqRegionMeta runLengths decodePforRuns openRegion sumDeltas readDd
  decodeDdRegion decodeFreqRegion)
open Snii.Format.PrxPod

/-! ## No index outside an array -/

theorem Avoids.readEach {β : Type} {f : β → Source (List Nat)}
    (h : ∀ b, Avoids (f b) .outOfBounds) (bs : List β) : Avoids (readEach f bs) .outOfBounds := by
  induction bs with
  | nil => exact Avoids.pure _
  | cons b bs ih => exact (h b).bind fun x => ih.bind fun xs => Avoids.pure _

/-- A sequence of runs is read inside its source. -/
theorem avoids_decodePforRuns (n : Nat) : Avoids (decodePforRuns n) .outOfBounds :=
  (Avoids.readEach avoids_pforDecode (runLengths n)).bind fun _ => Avoids.pure _

/-- The library reports its own errors. -/
theorem zstdDecompress_ne_outOfBounds (z : Zstd) (input : Bytes) (n : Nat) :
    zstdDecompress z input n ≠ .error .outOfBounds := by
  rw [zstdDecompress]
  cases z.decompress input n with
  | error name => simp
  | ok out =>
      simp only
      split <;> simp

/-- A region is opened by checked sizes. -/
theorem openRegion_ne_outOfBounds (z : Zstd) (disk : Bytes) (m : FrqRegionMeta) :
    openRegion z disk m ≠ .error .outOfBounds := by
  rw [openRegion]
  split
  · simp
  · split
    · simp
    · split
      · simp
      · split
        · exact zstdDecompress_ne_outOfBounds _ _ _
        · split <;> simp

theorem avoids_readDd : Avoids readDd .outOfBounds :=
  avoids_getVarint32.bind fun n => Avoids.ite (Avoids.throw (by simp)) (avoids_decodePforRuns n)

/-- **A docid region** of any bytes is decoded inside them. -/
theorem decodeDdRegion_ne_outOfBounds (z : Zstd) (disk : Bytes) (m : FrqRegionMeta)
    (winBase : Nat) : decodeDdRegion z disk m winBase ≠ .error .outOfBounds := by
  apply bind_ne_error (openRegion_ne_outOfBounds z disk m)
  intro plain _
  apply bind_ne_error (parseAll_ne_outOfBounds avoids_readDd _ _)
  intro dd _ h
  cases h

/-- **A freq region** of any bytes is decoded inside them. -/
theorem decodeFreqRegion_ne_outOfBounds (z : Zstd) (disk : Bytes) (m : FrqRegionMeta)
    (docCount : Nat) : decodeFreqRegion z disk m docCount ≠ .error .outOfBounds := by
  apply bind_ne_error (openRegion_ne_outOfBounds z disk m)
  intro plain _
  split
  · split <;> simp
  · exact parseAll_ne_outOfBounds (avoids_decodePforRuns docCount) _ _

/-- The positions of a window, as runs. -/
theorem avoids_readPforPayload : Avoids readPforPayload .outOfBounds := by
  refine avoids_getVarint32.bind fun docCount => avoids_getVarint32.bind fun totalPos => ?_
  apply Avoids.ite (Avoids.throw (by simp))
  apply Avoids.ite (Avoids.throw (by simp))
  refine (avoids_decodePforRuns docCount).bind fun posCounts => ?_
  exact Avoids.ite (Avoids.throw (by simp))
    ((avoids_decodePforRuns totalPos).bind fun _ => Avoids.pure _)

theorem avoids_readDoc : Avoids readDoc .outOfBounds :=
  avoids_getVarint32.bind fun n => (avoids_getVarint32.readN n).bind fun _ => Avoids.pure _

/-- The positions of a window, as varints. -/
theorem avoids_readPayload : Avoids readPayload .outOfBounds :=
  avoids_getVarint32.bind fun n => Avoids.ite (Avoids.throw (by simp)) (avoids_readDoc.readN n)

theorem avoids_readDocsCsr (n total : Nat) (c : Csr) :
    Avoids (readDocsCsr n total c) .outOfBounds := by
  induction n generalizing total c with
  | zero => exact Avoids.pure _
  | succ n ih =>
      refine avoids_getVarint32.bind fun posCount => ?_
      exact Avoids.ite (Avoids.throw (by simp))
        ((avoids_getVarint32.readN posCount).bind fun deltas => ih _ _)

theorem avoids_readPayloadCsr : Avoids readPayloadCsr .outOfBounds :=
  avoids_getVarint32.bind fun _ => Avoids.ite (Avoids.throw (by simp)) (avoids_readDocsCsr _ _ _)

theorem avoids_readHeader : Avoids readHeader .outOfBounds := by
  refine avoids_getU8.bind fun code => ?_
  cases PrxCodec.ofCode code with
  | none => exact Avoids.throw (by simp)
  | some codec =>
      refine avoids_getVarint32.bind fun uncompLen => ?_
      apply Avoids.ite (Avoids.throw (by simp))
      apply Avoids.ite
      · exact avoids_getVarint32.bind fun n => (avoids_getBytes n).bind fun _ => Avoids.pure _
      · rw [pure_bind]
        exact (avoids_getBytes uncompLen).bind fun _ => Avoids.pure _

theorem avoids_readFramed : Avoids readFramed .outOfBounds :=
  avoids_readHeader.consumed.bind fun _ => avoids_getFixed32.bind fun _ =>
    Avoids.ite (Avoids.throw (by simp)) (Avoids.pure _)

/-- A frame whose payload decoders stay in bounds. -/
theorem decodeFrame_ne_outOfBounds {α : Type} {pfor plain : Bytes → Result α} (z : Zstd)
    (hpfor : ∀ bs, pfor bs ≠ .error .outOfBounds) (hplain : ∀ bs, plain bs ≠ .error .outOfBounds)
    (frame : PrxCodec × Nat × Bytes) : decodeFrame z pfor plain frame ≠ .error .outOfBounds := by
  obtain ⟨codec, uncompLen, payload⟩ := frame
  cases codec with
  | pfor => exact hpfor payload
  | raw => exact hplain payload
  | zstd => exact bind_ne_error (zstdDecompress_ne_outOfBounds _ _ _) fun bytes _ => hplain bytes

/-- **A position window** of any bytes is read inside them. -/
theorem avoids_readPrxWindow (z : Zstd) : Avoids (readPrxWindow z) .outOfBounds := by
  refine avoids_readFramed.bind fun frame => Avoids.lift ?_
  apply decodeFrame_ne_outOfBounds
  · intro bs
    apply bind_ne_error (parseAll_ne_outOfBounds avoids_readPforPayload _ _)
    intro r _ h
    cases h
  · exact fun bs => parseAll_ne_outOfBounds avoids_readPayload _ _

/-- The flat reader of a position window too. -/
theorem avoids_readPrxWindowCsr (z : Zstd) : Avoids (readPrxWindowCsr z) .outOfBounds := by
  refine avoids_readFramed.bind fun frame => Avoids.lift ?_
  apply decodeFrame_ne_outOfBounds
  · intro bs
    apply bind_ne_error (parseAll_ne_outOfBounds avoids_readPforPayload _ _)
    intro r _ h
    cases h
  · exact fun bs => parseAll_ne_outOfBounds avoids_readPayloadCsr _ _

/-! ## Declared counts -/

/-- The count in front of a payload. -/
def Declares (plain : Bytes) (n : Nat) : Prop := ∃ rest, getVarint32.run plain = .ok (n, rest)

/-- The payload of a frame as its decoder sees it. -/
def framePlain (z : Zstd) : PrxCodec × Nat × Bytes → Result Bytes
  | (.zstd, uncompLen, payload) => zstdDecompress z payload uncompLen
  | (_, _, payload) => .ok payload

/-- The codec and the plain payload of the window at a position. -/
def WindowPlain (z : Zstd) (s : Bytes) (pos : Nat) (codec : PrxCodec) (plain : Bytes) : Prop :=
  ∃ frame rest, readFramed.run (s.drop pos) = .ok (frame, rest) ∧ frame.1 = codec ∧
    framePlain z frame = .ok plain

/-- The position count behind the document count of a packed payload; a varint payload
has none. -/
def DeclaresTotal (codec : PrxCodec) (plain : Bytes) (total : Nat) : Prop :=
  codec = .pfor → ∃ n mid rest, getVarint32.run plain = .ok (n, mid) ∧
    getVarint32.run mid = .ok (total, rest)

/-- What a decoder makes of its count. -/
theorem declares_of_parseAll {α : Type} {f : Nat → Source α} {P : Nat → α → Prop}
    (h : ∀ n, Yields (f n) (P n)) {trailing : String} {plain : Bytes} {x : α}
    (hparse : parseAll (getVarint32 >>= f) trailing plain = .ok x) :
    ∃ n, Declares plain n ∧ P n x := by
  rw [parseAll] at hparse
  obtain ⟨r, hrun, hend⟩ := bind_eq_ok hparse
  obtain ⟨n, mid, hcount, hbody⟩ := run_bind_eq_ok.mp hrun
  simp only at hend
  split at hend
  · cases hend
  · cases hend
    exact ⟨n, ⟨mid, hcount⟩, h n mid _ r.2 hbody⟩

/-- `n` reads give `n` values. -/
theorem yields_readN {α : Type} (p : Source α) (n : Nat) :
    Yields (readN p n) fun xs => xs.length = n := by
  induction n with
  | zero => exact Yields.pure rfl
  | succ n ih =>
      refine (Yields.trivial p).bind fun x _ => ih.bind fun xs hxs => Yields.pure ?_
      rw [List.length_cons, hxs]

/-- A decoded docid region has as many docids as it declares. -/
theorem decodeDdRegion_declares {z : Zstd} {disk : Bytes} {m : FrqRegionMeta} {winBase : Nat}
    {docs : List Nat} (h : decodeDdRegion z disk m winBase = .ok docs) :
    ∃ plain, openRegion z disk m = .ok plain ∧ Declares plain docs.length := by
  obtain ⟨plain, hopen, hrest⟩ := bind_eq_ok h
  obtain ⟨dd, hparse, hsum⟩ := bind_eq_ok hrest
  cases hsum
  have hcount : ∃ n, Declares plain n ∧ dd.length = n := by
    apply declares_of_parseAll (P := fun n vals => vals.length = n) _ hparse
    exact fun n => Yields.ite (fun _ => Yields.throw _) fun _ => yields_decodePforRuns n
  obtain ⟨n, hdecl, rfl⟩ := hcount
  exact ⟨plain, hopen, by rwa [length_sumDeltas]⟩

/-- A decoded freq region has one frequency a document. -/
theorem decodeFreqRegion_length {z : Zstd} {disk : Bytes} {m : FrqRegionMeta} {docCount : Nat}
    {freqs : List Nat} (h : decodeFreqRegion z disk m docCount = .ok freqs) :
    freqs.length = docCount := by
  obtain ⟨plain, -, hrest⟩ := bind_eq_ok h
  by_cases hzero : docCount = 0
  · rw [if_pos hzero] at hrest
    split at hrest
    · cases hrest
    · cases hrest
      rw [hzero, List.length_nil]
  · rw [if_neg hzero] at hrest
    exact yields_parseAll (yields_decodePforRuns docCount) hrest

/-- One list a count. -/
theorem length_splitCounts (counts xs : List Nat) :
    (splitCounts counts xs).length = counts.length := by
  induction counts generalizing xs with
  | nil => rfl
  | cons n counts ih => rw [splitCounts, List.length_cons, ih, List.length_cons]

theorem length_posOff_foldl_push (docs : List (List Nat)) (c : Csr) :
    (docs.foldl Csr.push c).posOff.length = c.posOff.length + docs.length := by
  induction docs generalizing c with
  | nil => rfl
  | cons doc docs ih =>
      rw [List.foldl_cons, ih, Csr.push, List.length_append, List.length_singleton,
        List.length_cons]
      omega

/-- The counts of a packed payload are as many as it declares. -/
theorem readPforPayload_declares {trailing : String} {plain : Bytes} {r : List Nat × List Nat}
    (h : parseAll readPforPayload trailing plain = .ok r) : Declares plain r.1.length := by
  have hcount : ∃ n, Declares plain n ∧ r.1.length = n := by
    apply declares_of_parseAll (P := fun n r => r.1.length = n) _ h
    intro n
    refine (Yields.trivial _).bind fun totalPos _ => ?_
    refine Yields.ite (fun _ => Yields.throw _) fun _ => ?_
    refine Yields.ite (fun _ => Yields.throw _) fun _ => ?_
    refine (yields_decodePforRuns n).bind fun posCounts hcounts => ?_
    refine Yields.ite (fun _ => Yields.throw _) fun _ => ?_
    exact (Yields.trivial _).bind fun deltas _ => Yields.pure hcounts
  obtain ⟨n, hdecl, rfl⟩ := hcount
  exact hdecl

theorem length_sumPositions (ds : List Nat) : (sumPositions ds).length = ds.length := by
  have hadd : ∀ (ds : List Nat) (prev : Nat), (addDeltas prev ds).length = ds.length := by
    intro ds
    induction ds with
    | nil => exact fun _ => rfl
    | cons d ds ih =>
        intro prev
        rw [addDeltas, List.length_cons, ih, List.length_cons]
  cases ds with
  | nil => rfl
  | cons d ds => rw [sumPositions, List.length_cons, hadd, List.length_cons]

/-- Cutting a list by counts that add up to its length loses nothing. -/
theorem length_flatten_splitCounts {counts xs : List Nat} (h : xs.length = counts.sum) :
    ((splitCounts counts xs).map sumPositions).flatten.length = counts.sum := by
  induction counts generalizing xs with
  | nil => rfl
  | cons n counts ih =>
      rw [List.sum_cons] at h ⊢
      rw [splitCounts, List.map_cons, List.flatten_cons, List.length_append, length_sumPositions,
        List.length_take, ih (by rw [List.length_drop]; omega)]
      omega

/-- A packed payload holds as many positions as it declares. -/
theorem readPforPayload_total {trailing : String} {plain : Bytes} {r : List Nat × List Nat}
    (h : parseAll readPforPayload trailing plain = .ok r) :
    DeclaresTotal .pfor plain ((splitCounts r.1 r.2).map sumPositions).flatten.length := by
  intro _
  rw [parseAll] at h
  obtain ⟨r', hrun, hend⟩ := bind_eq_ok h
  obtain ⟨n, mid, hcount, hrun⟩ := run_bind_eq_ok.mp hrun
  obtain ⟨total, rest, htotal, hbody⟩ := run_bind_eq_ok.mp hrun
  have hlens : r'.1.1.sum = total ∧ r'.1.2.length = total := by
    refine Yields.ite (P := fun r => r.1.sum = total ∧ r.2.length = total)
      (fun _ => Yields.throw _) (fun _ => ?_) rest r'.1 r'.2 hbody
    refine Yields.ite (fun _ => Yields.throw _) fun _ => ?_
    refine (Yields.trivial _).bind fun posCounts _ => ?_
    refine Yields.ite (fun _ => Yields.throw _) fun hsum => ?_
    exact (yields_decodePforRuns total).bind fun deltas hdeltas =>
      Yields.pure ⟨not_not.mp hsum, hdeltas⟩
  simp only at hend
  split at hend
  · cases hend
  · cases hend
    refine ⟨n, mid, rest, hcount, ?_⟩
    rw [length_flatten_splitCounts (hlens.2.trans hlens.1.symm), hlens.1]
    exact htotal

/-- Pushing documents appends their positions. -/
theorem posFlat_foldl_push (docs : List (List Nat)) (c : Csr) :
    (docs.foldl Csr.push c).posFlat = c.posFlat ++ docs.flatten := by
  induction docs generalizing c with
  | nil => rw [List.foldl_nil, List.flatten_nil, List.append_nil]
  | cons doc docs ih =>
      rw [List.foldl_cons, ih, Csr.push, List.flatten_cons, List.append_assoc]

/-- Decoded documents are as many as the window declares. -/
theorem decodePforPayload_declares {plain : Bytes} {docs : List (List Nat)}
    (h : decodePforPayload plain = .ok docs) : Declares plain docs.length := by
  obtain ⟨r, hparse, hdocs⟩ := bind_eq_ok h
  cases hdocs
  rw [List.length_map, length_splitCounts]
  exact readPforPayload_declares hparse

theorem decodePayload_declares {plain : Bytes} {docs : List (List Nat)}
    (h : decodePayload plain = .ok docs) : Declares plain docs.length := by
  have hcount : ∃ n, Declares plain n ∧ docs.length = n := by
    apply declares_of_parseAll (P := fun n docs => docs.length = n) _ h
    exact fun n => Yields.ite (fun _ => Yields.throw _) fun _ => yields_readN _ n
  obtain ⟨n, hdecl, rfl⟩ := hcount
  exact hdecl

/-- The flat form has one offset more than the window declares documents. -/
theorem decodePforPayloadCsr_declares {plain : Bytes} {c : Csr}
    (h : decodePforPayloadCsr plain = .ok c) :
    ∃ n, Declares plain n ∧ c.posOff.length = n + 1 := by
  obtain ⟨r, hparse, hc⟩ := bind_eq_ok h
  cases hc
  refine ⟨r.1.length, readPforPayload_declares hparse, ?_⟩
  rw [length_posOff_foldl_push, List.length_map, length_splitCounts]
  exact Nat.add_comm 1 _

theorem yields_readDocsCsr (n total : Nat) (c : Csr) :
    Yields (readDocsCsr n total c) fun c' => c'.posOff.length = c.posOff.length + n := by
  induction n generalizing total c with
  | zero => exact Yields.pure rfl
  | succ n ih =>
      refine (Yields.trivial _).bind fun posCount _ => ?_
      refine Yields.ite (fun _ => Yields.throw _) fun _ => ?_
      refine (Yields.trivial _).bind fun deltas _ => ?_
      intro bs c' rest hrun
      have hlen := ih _ _ bs c' rest hrun
      rw [hlen, Csr.push, List.length_append, List.length_singleton]
      omega

theorem decodePayloadCsr_declares {plain : Bytes} {c : Csr} (h : decodePayloadCsr plain = .ok c) :
    ∃ n, Declares plain n ∧ c.posOff.length = n + 1 := by
  apply declares_of_parseAll (P := fun n c => c.posOff.length = n + 1) _ h
  intro n
  refine Yields.ite (fun _ => Yields.throw _) fun _ => ?_
  intro bs c' rest hrun
  rw [yields_readDocsCsr n 0 Csr.empty bs c' rest hrun]
  exact Nat.add_comm 1 n

/-- Decoded positions are as many as the window declares. -/
theorem decodePforPayload_total {plain : Bytes} {docs : List (List Nat)}
    (h : decodePforPayload plain = .ok docs) : DeclaresTotal .pfor plain docs.flatten.length := by
  obtain ⟨r, hparse, hdocs⟩ := bind_eq_ok h
  cases hdocs
  exact readPforPayload_total hparse

theorem decodePforPayloadCsr_total {plain : Bytes} {c : Csr}
    (h : decodePforPayloadCsr plain = .ok c) : DeclaresTotal .pfor plain c.posFlat.length := by
  obtain ⟨r, hparse, hc⟩ := bind_eq_ok h
  cases hc
  rw [posFlat_foldl_push]
  exact readPforPayload_total hparse

/-- A window's decoder returns what its plain payload declares. -/
theorem window_declares {α : Type} {z : Zstd} {pfor plain : Bytes → Result α}
    {P : Nat → α → Prop} {total : α → Nat}
    (hpfor : ∀ bs x, pfor bs = .ok x → (∃ n, Declares bs n ∧ P n x) ∧
      DeclaresTotal .pfor bs (total x))
    (hplain : ∀ bs x, plain bs = .ok x → ∃ n, Declares bs n ∧ P n x)
    {s : Bytes} {pos : Nat} {x : α} {rest : Bytes}
    (h : (readFramed >>= fun frame =>
      (StateT.lift (decodeFrame z pfor plain frame) : Source α)).run (s.drop pos) =
        .ok (x, rest)) :
    ∃ codec bytes n, WindowPlain z s pos codec bytes ∧ Declares bytes n ∧ P n x ∧
      DeclaresTotal codec bytes (total x) := by
  obtain ⟨frame, mid, hframe, hdecode⟩ := run_bind_eq_ok.mp h
  obtain ⟨y, hy, hpair⟩ := bind_eq_ok hdecode
  cases hpair
  obtain ⟨codec, uncompLen, payload⟩ := frame
  cases codec with
  | pfor =>
      obtain ⟨⟨n, hdecl, hP⟩, htotal⟩ := hpfor payload x hy
      exact ⟨.pfor, payload, n, ⟨_, _, hframe, rfl, rfl⟩, hdecl, hP, htotal⟩
  | raw =>
      obtain ⟨n, hdecl, hP⟩ := hplain payload x hy
      exact ⟨.raw, payload, n, ⟨_, _, hframe, rfl, rfl⟩, hdecl, hP, fun h => by cases h⟩
  | zstd =>
      obtain ⟨bytes, hbytes, hdec⟩ := bind_eq_ok hy
      obtain ⟨n, hdecl, hP⟩ := hplain bytes x hdec
      exact ⟨.zstd, bytes, n, ⟨_, _, hframe, rfl, hbytes⟩, hdecl, hP, fun h => by cases h⟩

/-! ## Index safety -/

/-- **Payload decoders are index-safe.**  On every input, none of them reads outside the
given bytes or indexes outside an array it has sized, and a successful call returns as many
values as were declared: by the region, by the caller, or by the window's payload.  The
same holds of the run decoder, wherever the caller's array has room for the run. -/
theorem decoders_indexSafe (z : Zstd) :
    (∀ disk m winBase, decodeDdRegionAt z disk m winBase ≠ .error .outOfBounds ∧
      ∀ docs, decodeDdRegionAt z disk m winBase = .ok docs →
        ∃ plain, openRegion z disk m = .ok plain ∧ Declares plain docs.length) ∧
    (∀ disk m docCount, decodeFreqRegionAt z disk m docCount ≠ .error .outOfBounds ∧
      ∀ freqs, decodeFreqRegionAt z disk m docCount = .ok freqs → freqs.length = docCount) ∧
    (∀ (s : Bytes) pos, pos ≤ s.length → readPrxWindowAt z s pos ≠ .error .outOfBounds ∧
      ∀ docs pos', readPrxWindowAt z s pos = .ok (docs, pos') → pos' ≤ s.length ∧
        ∃ codec plain, WindowPlain z s pos codec plain ∧ Declares plain docs.length ∧
          DeclaresTotal codec plain docs.flatten.length) ∧
    (∀ (s : Bytes) pos, pos ≤ s.length → readPrxWindowCsrAt z s pos ≠ .error .outOfBounds ∧
      ∀ csr pos', readPrxWindowCsrAt z s pos = .ok (csr, pos') → pos' ≤ s.length ∧
        ∃ codec plain n, WindowPlain z s pos codec plain ∧ Declares plain n ∧
          csr.posOff.length = n + 1 ∧ DeclaresTotal codec plain csr.posFlat.length) ∧
    ∀ (s : Bytes) pos n off (out : List Nat), pos ≤ s.length → off + n ≤ out.length →
      pforDecodeInto n off out s pos ≠ .error .outOfBounds ∧
      ∀ arr pos', pforDecodeInto n off out s pos = .ok (arr, pos') →
        pos' ≤ s.length ∧ arr.length = out.length := by
  refine ⟨?_, ?_, ?_, ?_, ?_⟩
  · intro disk m winBase
    rw [decodeDdRegionAt_eq]
    exact ⟨decodeDdRegion_ne_outOfBounds _ _ _ _, fun docs => decodeDdRegion_declares⟩
  · intro disk m docCount
    rw [decodeFreqRegionAt_eq]
    exact ⟨decodeFreqRegion_ne_outOfBounds _ _ _ _, fun freqs => decodeFreqRegion_length⟩
  · intro s pos hpos
    refine ⟨(simulates_readPrxWindowAt z).avoids (avoids_readPrxWindow z) hpos, ?_⟩
    intro docs pos' hrun
    obtain ⟨_, hlist, rfl, -, hend⟩ := (simulates_readPrxWindowAt z).of_ok hpos hrun
    obtain ⟨codec, plain, n, hplain, hdecl, rfl, htotal⟩ :=
      window_declares (P := fun n docs => docs.length = n)
        (fun bs docs h => ⟨⟨_, decodePforPayload_declares h, rfl⟩, decodePforPayload_total h⟩)
        (fun bs docs h => ⟨_, decodePayload_declares h, rfl⟩) hlist
    exact ⟨hend, codec, plain, hplain, hdecl, htotal⟩
  · intro s pos hpos
    refine ⟨(simulates_readPrxWindowCsrAt z).avoids (avoids_readPrxWindowCsr z) hpos, ?_⟩
    intro csr pos' hrun
    obtain ⟨_, hlist, rfl, -, hend⟩ := (simulates_readPrxWindowCsrAt z).of_ok hpos hrun
    exact ⟨hend, window_declares (P := fun n csr => csr.posOff.length = n + 1)
      (fun bs csr h => ⟨decodePforPayloadCsr_declares h, decodePforPayloadCsr_total h⟩)
      (fun bs csr => decodePayloadCsr_declares) hlist⟩
  · intro s pos n off out hpos hroom
    refine ⟨(simulates_pforDecodeInto hroom).avoids (avoids_pforDecode n) hpos, ?_⟩
    intro arr pos' hrun
    obtain ⟨vals, -, hholds, -, hend⟩ := (simulates_pforDecodeInto hroom).of_ok hpos hrun
    have hlen := hholds.length
    refine ⟨hend, ?_⟩
    rw [hholds.eq, CheckedArray.length_overwrite (by omega)]

/-- A run of sixteen values at width two, the last an exception, decoded into the middle
of an array. -/
theorem decoders_indexSafe_middle :
    pforDecodeInto 16 1 (List.replicate 18 9) [2, 1, 121, 14, 165, 31, 15, 244, 3] 0 =
        .ok ([9, 1, 2, 3, 1, 2, 3, 0, 0, 1, 1, 2, 2, 3, 3, 1, 500, 9], 9) ∧
      9 ≤ ([2, 1, 121, 14, 165, 31, 15, 244, 3] : Bytes).length ∧
      ([9, 1, 2, 3, 1, 2, 3, 0, 0, 1, 1, 2, 2, 3, 3, 1, 500, 9] : List Nat).length =
        (List.replicate 18 9).length := by
  have hrun : pforDecodeInto 16 1 (List.replicate 18 9) [2, 1, 121, 14, 165, 31, 15, 244, 3] 0 =
      .ok ([9, 1, 2, 3, 1, 2, 3, 0, 0, 1, 1, 2, 2, 3, 3, 1, 500, 9], 9) := by
    decide +kernel
  have hsafe := (decoders_indexSafe Zstd.store).2.2.2.2 [2, 1, 121, 14, 165, 31, 15, 244, 3] 0 16 1
    (List.replicate 18 9) (by decide) (by decide)
  exact ⟨hrun, hsafe.2 _ _ hrun⟩

end Snii.Format.PayloadArrays
