import Snii.Encoding.PforArrays
import Snii.Format.PrxPod

/-!
# Posting payloads, index by index

The decoders of `frq_pod.cpp` and `prx_pod.cpp` as they run over a source and over the
arrays they size: runs are decoded into an array of the declared length, and the loops
that sum them up read `dd[i]`, `pos_counts[d]` and `deltas[off + i]` through checked
indexes.  On every input they do what the decoders over lists do, so no index leaves its
array, and what they return has the declared length (`decoders_indexSafe`).
-/

namespace Snii.Format.PayloadArrays

open Snii.Lib.ByteReader Snii.Lib.CheckedArray Snii.Common
open Snii.Encoding.ByteCursor (Cursor Simulates)
open Snii.Encoding.Pfor Snii.Encoding.Compression Snii.Encoding.Crc32c
open Snii.Encoding
open Snii.Format.FrqPod (FrqRegionMeta kFrqBaseUnit runLengths decodePforRuns openRegion sumDeltas
  readDd decodeDdRegion decodeFreqRegion)
open Snii.Format.PrxPod

/-! ## Runs -/

/-- The run loop with the given number of runs left. -/
def decodeRunsInto (n : Nat) : Nat → Nat → List Nat → Cursor (List Nat)
  | 0, _, out => pure out
  | m + 1, off, out => do
      let out ← pforDecodeInto (min kFrqBaseUnit (n - off)) off out
      decodeRunsInto n m (off + kFrqBaseUnit) out

/-- `decode_pfor_runs`: the array is sized first, and each run is decoded into its part. -/
def decodePforRunsInto (n : Nat) : Cursor (List Nat) :=
  decodeRunsInto n ((n + kFrqBaseUnit - 1) / kFrqBaseUnit) 0 (List.replicate n 0)

/-! ## Doc-delta and frequency regions -/

/-- The summing loop of `decode_dd_region`. -/
def sumDeltasInto (dd : List Nat) : Nat → Nat → Nat → List Nat → Result (List Nat)
  | 0, _, _, docids => .ok docids
  | k + 1, i, cur, docids => do
      let d ← load .outOfBounds dd i
      let cur := (cur + d) % 2 ^ 64
      let docids ← store .outOfBounds docids i (cur % 2 ^ 32)
      sumDeltasInto dd k (i + 1) cur docids

/-- A docid region's count and runs. -/
def readDdAt : Cursor (Nat × List Nat) := do
  let n ← ByteCursor.getVarint32
  if n > FrqPod.kMaxWindowDocs then throw (.corruption "frq: doc count exceeds sane cap")
  else do
    let dd ← decodePforRunsInto n
    pure (n, dd)

/-- `decode_dd_region` over checked arrays. -/
def decodeDdRegionAt (z : Zstd) (disk : Bytes) (m : FrqRegionMeta) (winBase : Nat) :
    Result (List Nat) := do
  let plain ← openRegion z disk m
  let (n, dd) ←
    ByteCursor.parseAll readDdAt "frq: trailing bytes after dd region payload" plain
  sumDeltasInto dd n 0 winBase (List.replicate n 0)

/-- `decode_freq_region` over checked arrays. -/
def decodeFreqRegionAt (z : Zstd) (disk : Bytes) (m : FrqRegionMeta) (docCount : Nat) :
    Result (List Nat) := do
  let plain ← openRegion z disk m
  if docCount = 0 then
    if m.uncompLen ≠ 0 then .error (.corruption "frq: empty freq region expected") else .ok []
  else
    ByteCursor.parseAll (decodePforRunsInto docCount)
      "frq: trailing bytes after freq region payload" plain

/-! ## Position windows -/

/-- The loop that adds up the counts. -/
def sumCounts (posCounts : List Nat) : Nat → Nat → Nat → Result Nat
  | 0, _, sum => .ok sum
  | k + 1, d, sum => do
      let c ← load .outOfBounds posCounts d
      sumCounts posCounts k (d + 1) (sum + c)

/-- The positions of one document, from index `i` on. -/
def docPositions (deltas : List Nat) (off : Nat) : Nat → Nat → Nat → Result (List Nat)
  | 0, _, _ => .ok []
  | k + 1, i, prev => do
      let d ← load .outOfBounds deltas (off + i)
      let prev := if i = 0 then d else (prev + d) % 2 ^ 32
      let rest ← docPositions deltas off k (i + 1) prev
      pure (prev :: rest)

/-- The document loop; each document's positions go to `emit`. -/
def docLoop {σ : Type} (emit : σ → List Nat → σ) (posCounts deltas : List Nat) :
    Nat → Nat → Nat → σ → Result σ
  | 0, _, _, acc => .ok acc
  | k + 1, d, off, acc => do
      let c ← load .outOfBounds posCounts d
      let doc ← docPositions deltas off c 0 0
      docLoop emit posCounts deltas k (d + 1) (off + c) (emit acc doc)

/-- The payload of packed runs: its documents go to `emit` one by one. -/
def readPforPayloadAt {σ : Type} (emit : σ → List Nat → σ) (acc : σ) : Cursor σ := do
  let docCount ← ByteCursor.getVarint32
  let totalPos ← ByteCursor.getVarint32
  if totalPos > kMaxWindowPositions then throw (.corruption "prx: position count exceeds sane cap")
  else if docCount > kMaxWindowDocs then throw (.corruption "prx: doc count exceeds sane cap")
  else do
    let posCounts ← decodePforRunsInto docCount
    let sum ← Cursor.lift (sumCounts posCounts docCount 0 0)
    if sum ≠ totalPos then throw (.corruption "prx: pos_count sum mismatch")
    else do
      let deltas ← decodePforRunsInto totalPos
      Cursor.lift (docLoop emit posCounts deltas docCount 0 0 acc)

/-- `out->push_back`. -/
def pushDoc (out : List (List Nat)) (doc : List Nat) : List (List Nat) := out ++ [doc]

/-- A packed position payload over checked arrays. -/
def decodePforPayloadAt (plain : Bytes) : Result (List (List Nat)) :=
  ByteCursor.parseAll (readPforPayloadAt pushDoc []) "prx: trailing bytes after pfor payload" plain

/-- The same with offsets. -/
def decodePforPayloadCsrAt (plain : Bytes) : Result Csr :=
  ByteCursor.parseAll (readPforPayloadAt Csr.push Csr.empty)
    "prx: trailing bytes after pfor payload" plain

/-- One document of a varint payload. -/
def readDocAt : Cursor (List Nat) := do
  let posCount ← ByteCursor.getVarint32
  let deltas ← ByteCursor.readN ByteCursor.getVarint32 posCount
  pure (sumPositions deltas)

/-- A varint payload. -/
def readPayloadAt : Cursor (List (List Nat)) := do
  let docCount ← ByteCursor.getVarint32
  if docCount > kMaxWindowDocs then throw (.corruption "prx: doc count exceeds sane cap")
  else ByteCursor.readN readDocAt docCount

/-- A varint payload that nothing follows. -/
def decodePayloadAt (plain : Bytes) : Result (List (List Nat)) :=
  ByteCursor.parseAll readPayloadAt "prx: trailing bytes after payload" plain

/-- The documents of a varint payload, with the cap on their positions. -/
def readDocsCsrAt : Nat → Nat → Csr → Cursor Csr
  | 0, _, c => pure c
  | n + 1, total, c => do
      let posCount ← ByteCursor.getVarint32
      if total + posCount > kMaxWindowPositions then
        throw (.corruption "prx: position count exceeds sane cap")
      else do
        let deltas ← ByteCursor.readN ByteCursor.getVarint32 posCount
        readDocsCsrAt n (total + posCount) (c.push (sumPositions deltas))

/-- A varint payload with both caps. -/
def readPayloadCsrAt : Cursor Csr := do
  let docCount ← ByteCursor.getVarint32
  if docCount > kMaxWindowDocs then throw (.corruption "prx: doc count exceeds sane cap")
  else readDocsCsrAt docCount 0 Csr.empty

/-- A varint payload that nothing follows, with offsets. -/
def decodePayloadCsrAt (plain : Bytes) : Result Csr :=
  ByteCursor.parseAll readPayloadCsrAt "prx: trailing bytes after payload" plain

/-- Codec, declared length and payload of a frame. -/
def readHeaderAt : Cursor (PrxCodec × Nat × Bytes) := do
  let code ← ByteCursor.getU8
  match PrxCodec.ofCode code with
  | none => throw (.corruption "prx: unknown codec")
  | some codec => do
      let uncompLen ← ByteCursor.getVarint32
      if uncompLen > kMaxWindowUncompBytes then
        throw (.corruption "prx: uncomp_len exceeds sane window cap")
      else do
        let payloadLen ← if codec = .zstd then ByteCursor.getVarint32 else pure uncompLen
        let payload ← ByteCursor.getBytes payloadLen
        pure (codec, uncompLen, payload)

/-- A frame and its checksum. -/
def readFramedAt : Cursor (PrxCodec × Nat × Bytes) := do
  let (frame, framed) ← ByteCursor.consumed readHeaderAt
  let stored ← ByteCursor.getFixed32
  if crc32c framed ≠ stored then throw (.corruption "prx: window crc mismatch") else pure frame

/-- `read_prx_window` over checked arrays. -/
def readPrxWindowAt (z : Zstd) : Cursor (List (List Nat)) := do
  let frame ← readFramedAt
  Cursor.lift (decodeFrame z decodePforPayloadAt decodePayloadAt frame)

/-- `read_prx_window_csr` over checked arrays. -/
def readPrxWindowCsrAt (z : Zstd) : Cursor Csr := do
  let frame ← readFramedAt
  Cursor.lift (decodeFrame z decodePforPayloadCsrAt decodePayloadCsrAt frame)

/-! ## The arrays hold what the lists hold -/

theorem simulates_decodeRunsInto {n m off : Nat} {vals : List Nat}
    (hm : m = (n - off + 255) / 256) (hvals : vals.length = min n off) :
    Simulates (fun arr runs => arr = vals ++ runs.flatten ∧ arr.length = n)
      (decodeRunsInto n m off (overwrite (List.replicate n 0) 0 vals))
      (readEach pforDecode ((List.range m).map fun i =>
        min kFrqBaseUnit (n - off - i * kFrqBaseUnit))) := by
  have hunit : kFrqBaseUnit = 256 := rfl
  induction m generalizing off vals with
  | zero =>
      have hfull : vals.length = (List.replicate n 0).length := by
        rw [List.length_replicate]
        omega
      rw [overwrite_all hfull]
      apply Simulates.pure
      exact ⟨(List.append_nil vals).symm, by rw [hfull, List.length_replicate]⟩
  | succ m ih =>
      have hlen : vals.length = off := by omega
      have hroom : 0 + vals.length ≤ (List.replicate n 0).length := by
        rw [List.length_replicate]
        omega
      rw [decodeRunsInto, List.range_succ_eq_map, List.map_cons, readEach, Nat.zero_mul,
        Nat.sub_zero]
      apply (simulates_pforDecodeInto (by
        rw [length_overwrite hroom, List.length_replicate]
        omega)).bind
      rintro arr run ⟨rfl, hrun⟩
      have hstep := @overwrite_overwrite _ (List.replicate n 0) vals run 0 hroom
      rw [Nat.zero_add, hlen] at hstep
      rw [hstep]
      have hrest := @ih (off + kFrqBaseUnit) (vals ++ run) (by omega) (by
        rw [List.length_append, hrun]
        omega)
      rw [List.map_map]
      have hlens : ((fun i => min kFrqBaseUnit (n - off - i * kFrqBaseUnit)) ∘ Nat.succ) =
          fun i => min kFrqBaseUnit (n - (off + kFrqBaseUnit) - i * kFrqBaseUnit) := by
        funext i
        rw [Function.comp_apply, Nat.succ_mul, Nat.sub_add_eq n off, Nat.sub_right_comm _ _ (i * _),
          Nat.sub_add_eq]
      rw [hlens]
      apply hrest.map_right
      rintro arr' runs ⟨harr, hn⟩
      exact ⟨by rw [harr, List.flatten_cons, List.append_assoc], hn⟩

/-- **Runs** fill an array of the length asked for. -/
theorem simulates_decodePforRunsInto (n : Nat) :
    Simulates (fun arr vals => arr = vals ∧ vals.length = n) (decodePforRunsInto n)
      (decodePforRuns n) := by
  have hruns := @simulates_decodeRunsInto n ((n + kFrqBaseUnit - 1) / kFrqBaseUnit) 0 [] rfl
    (by rw [Nat.min_zero, List.length_nil])
  rw [overwrite_nil] at hruns
  simp only [Nat.sub_zero] at hruns
  apply hruns.map_right
  rintro arr runs ⟨harr, hn⟩
  rw [List.nil_append] at harr
  exact ⟨harr, by rw [← harr, hn]⟩

theorem yields_decodePforRuns (n : Nat) :
    Yields (decodePforRuns n) fun vals => vals.length = n := by
  intro bs vals rest hrun
  obtain ⟨_, -, hlen⟩ := (simulates_decodePforRunsInto n).yields bs vals rest hrun
  exact hlen

theorem sumDeltasInto_eq {dd out : List Nat} {k i : Nat} (hdd : i + k ≤ dd.length)
    (hout : i + k ≤ out.length) (cur : Nat) :
    sumDeltasInto dd k i cur out =
      .ok (overwrite out i (sumDeltas cur ((dd.drop i).take k))) := by
  induction k generalizing i cur out with
  | zero => rw [sumDeltasInto, List.take_zero, sumDeltas, overwrite_nil]
  | succ k ih =>
      have hi : i < dd.length := by omega
      rw [sumDeltasInto, load_ok hi, ok_bind]
      simp only
      rw [store_ok (by omega), ok_bind, ih (by omega) (by rw [List.length_set]; omega),
        overwrite_set (by omega), List.drop_eq_getElem_cons hi, List.take_succ_cons, sumDeltas]

theorem sumCounts_eq {posCounts : List Nat} {k d : Nat} (h : d + k ≤ posCounts.length)
    (sum : Nat) :
    sumCounts posCounts k d sum = .ok (sum + ((posCounts.drop d).take k).sum) := by
  induction k generalizing d sum with
  | zero => rw [sumCounts, List.take_zero, List.sum_nil, Nat.add_zero]
  | succ k ih =>
      have hd : d < posCounts.length := by omega
      rw [sumCounts, load_ok hd, ok_bind, ih (by omega), List.drop_eq_getElem_cons hd,
        List.take_succ_cons, List.sum_cons, Nat.add_assoc]

theorem docPositions_succ {deltas : List Nat} {off k i : Nat}
    (h : off + (i + 1) + k ≤ deltas.length) (prev : Nat) :
    docPositions deltas off k (i + 1) prev =
      .ok (addDeltas prev ((deltas.drop (off + (i + 1))).take k)) := by
  induction k generalizing i prev with
  | zero => rw [docPositions, List.take_zero, addDeltas]
  | succ k ih =>
      have hi : off + (i + 1) < deltas.length := by omega
      rw [docPositions, load_ok hi, ok_bind]
      simp only [if_neg (Nat.succ_ne_zero i)]
      rw [ih (by omega), ok_bind, ← Nat.add_assoc off (i + 1) 1, List.drop_eq_getElem_cons hi,
        List.take_succ_cons, addDeltas]
      rfl

theorem docPositions_eq {deltas : List Nat} {off k : Nat} (h : off + k ≤ deltas.length) :
    docPositions deltas off k 0 0 = .ok (sumPositions ((deltas.drop off).take k)) := by
  cases k with
  | zero => rw [docPositions, List.take_zero, sumPositions]
  | succ k =>
      have hoff : off < deltas.length := by omega
      rw [docPositions, Nat.add_zero, load_ok hoff, ok_bind]
      simp only [if_true]
      rw [docPositions_succ (by omega), ok_bind, List.drop_eq_getElem_cons hoff,
        List.take_succ_cons, sumPositions]
      rfl

/-- **The document loop** stays inside both arrays when the counts add up. -/
theorem docLoop_eq {σ : Type} {emit : σ → List Nat → σ} {posCounts deltas : List Nat}
    {k d off : Nat} (hd : d + k ≤ posCounts.length)
    (hsum : off + ((posCounts.drop d).take k).sum ≤ deltas.length) (acc : σ) :
    docLoop emit posCounts deltas k d off acc =
      .ok (((splitCounts ((posCounts.drop d).take k) (deltas.drop off)).map sumPositions).foldl
        emit acc) := by
  induction k generalizing d off acc with
  | zero => rw [docLoop, List.take_zero, splitCounts, List.map_nil, List.foldl_nil]
  | succ k ih =>
      have hlt : d < posCounts.length := by omega
      rw [List.drop_eq_getElem_cons hlt, List.take_succ_cons, List.sum_cons] at hsum
      rw [docLoop, load_ok hlt, ok_bind, docPositions_eq (by omega), ok_bind,
        ih (by omega) (by omega), List.drop_eq_getElem_cons hlt, List.take_succ_cons, splitCounts,
        List.map_cons, List.foldl_cons, List.drop_drop]

/-- **A packed payload**, document by document. -/
theorem simulates_readPforPayloadAt {σ : Type} (emit : σ → List Nat → σ) (acc : σ) :
    Simulates (fun a r => a = ((splitCounts r.1 r.2).map sumPositions).foldl emit acc)
      (readPforPayloadAt emit acc) readPforPayload := by
  apply ByteCursor.simulates_getVarint32.bind
  rintro docCount _ rfl
  apply ByteCursor.simulates_getVarint32.bind
  rintro totalPos _ rfl
  apply Simulates.ite
  · exact fun _ => Simulates.throw _
  · intro _
    apply Simulates.ite
    · exact fun _ => Simulates.throw _
    · intro _
      apply (simulates_decodePforRunsInto docCount).bind
      rintro posCounts _ ⟨rfl, hcounts⟩
      have hsum := @sumCounts_eq posCounts docCount 0 (by omega) 0
      rw [Nat.zero_add, List.drop_zero, ← hcounts, List.take_length, hcounts] at hsum
      rw [hsum]
      have htake : posCounts.take docCount = posCounts := by rw [← hcounts, List.take_length]
      show Simulates _ (if posCounts.sum ≠ totalPos then _ else _) _
      apply Simulates.ite
      · exact fun _ => Simulates.throw _
      · intro htotal
        apply (simulates_decodePforRunsInto totalPos).bind
        rintro deltas _ ⟨rfl, hdeltas⟩
        have hloop := @docLoop_eq σ emit posCounts deltas docCount 0 0 (by omega) (by
          rw [List.drop_zero, htake]
          omega) acc
        rw [List.drop_zero, List.drop_zero, htake] at hloop
        rw [hloop]
        exact Simulates.pure rfl

/-! ## The decoders agree with those over lists -/

theorem simulates_readDdAt :
    Simulates (fun r dd => r = (dd.length, dd)) readDdAt readDd := by
  apply ByteCursor.simulates_getVarint32.bind
  rintro n _ rfl
  apply Simulates.ite
  · exact fun _ => Simulates.throw _
  · intro _
    rw [← bind_pure (decodePforRuns n)]
    apply (simulates_decodePforRunsInto n).bind
    rintro dd _ ⟨rfl, rfl⟩
    exact Simulates.pure rfl

@[simp] theorem length_sumDeltas (cur : Nat) (dd : List Nat) :
    (sumDeltas cur dd).length = dd.length := by
  induction dd generalizing cur with
  | nil => rfl
  | cons d dd ih => rw [sumDeltas, List.length_cons, ih, List.length_cons]

theorem decodeDdRegionAt_eq (z : Zstd) (disk : Bytes) (m : FrqRegionMeta) (winBase : Nat) :
    decodeDdRegionAt z disk m winBase = decodeDdRegion z disk m winBase := by
  rw [decodeDdRegionAt, decodeDdRegion]
  congr 1
  funext plain
  rw [simulates_readDdAt.parseAll_eq, bind_assoc]
  congr 1
  funext dd
  have hsum := @sumDeltasInto_eq dd (List.replicate dd.length 0) dd.length 0 (by omega)
    (by rw [List.length_replicate]; omega) winBase
  rw [ok_bind]
  simp only
  rw [hsum, List.drop_zero, List.take_length,
    overwrite_all (by rw [length_sumDeltas, List.length_replicate])]
  rfl

theorem decodeFreqRegionAt_eq (z : Zstd) (disk : Bytes) (m : FrqRegionMeta) (docCount : Nat) :
    decodeFreqRegionAt z disk m docCount = decodeFreqRegion z disk m docCount := by
  have hruns : Simulates (fun arr vals => arr = vals) (decodePforRunsInto docCount)
      (decodePforRuns docCount) :=
    (simulates_decodePforRunsInto docCount).mono fun _ _ h => h.1
  rw [decodeFreqRegionAt, decodeFreqRegion]
  congr 1
  funext plain
  rw [hruns.parseAll_eq]
  congr 1
  exact bind_pure _

theorem foldl_pushDoc (docs : List (List Nat)) (out : List (List Nat)) :
    docs.foldl pushDoc out = out ++ docs := by
  induction docs generalizing out with
  | nil => rw [List.foldl_nil, List.append_nil]
  | cons doc docs ih => rw [List.foldl_cons, ih, pushDoc, List.append_assoc, List.singleton_append]

theorem decodePforPayloadAt_eq (plain : Bytes) :
    decodePforPayloadAt plain = decodePforPayload plain := by
  rw [decodePforPayloadAt, (simulates_readPforPayloadAt pushDoc []).parseAll_eq, decodePforPayload]
  congr 1
  funext r
  rw [foldl_pushDoc, List.nil_append]
  rfl

theorem decodePforPayloadCsrAt_eq (plain : Bytes) :
    decodePforPayloadCsrAt plain = decodePforPayloadCsr plain := by
  rw [decodePforPayloadCsrAt, (simulates_readPforPayloadAt Csr.push Csr.empty).parseAll_eq,
    decodePforPayloadCsr]
  rfl

/-- Two parses of a whole slice by readers that do the same. -/
theorem parseAll_eq_of_simulates {α : Type} {c : Cursor α} {p : Source α}
    (h : Simulates Eq c p) (trailing : String) (slice : Bytes) :
    ByteCursor.parseAll c trailing slice = ByteSource.parseAll p trailing slice := by
  rw [h.parseAll_eq (f := id)]
  exact bind_pure _

theorem simulates_readDocAt : Simulates Eq readDocAt readDoc := by
  apply ByteCursor.simulates_getVarint32.bind
  rintro posCount _ rfl
  apply (ByteCursor.simulates_getVarint32.readN posCount).bind
  rintro deltas _ rfl
  exact Simulates.pure rfl

theorem simulates_readPayloadAt : Simulates Eq readPayloadAt readPayload := by
  apply ByteCursor.simulates_getVarint32.bind
  rintro docCount _ rfl
  exact Simulates.ite (fun _ => Simulates.throw _) fun _ => simulates_readDocAt.readN docCount

theorem decodePayloadAt_eq (plain : Bytes) : decodePayloadAt plain = decodePayload plain :=
  parseAll_eq_of_simulates simulates_readPayloadAt _ _

theorem simulates_readDocsCsrAt (n total : Nat) (c : Csr) :
    Simulates Eq (readDocsCsrAt n total c) (readDocsCsr n total c) := by
  induction n generalizing total c with
  | zero => exact Simulates.pure rfl
  | succ n ih =>
      apply ByteCursor.simulates_getVarint32.bind
      rintro posCount _ rfl
      apply Simulates.ite
      · exact fun _ => Simulates.throw _
      · intro _
        apply (ByteCursor.simulates_getVarint32.readN posCount).bind
        rintro deltas _ rfl
        exact ih _ _

theorem simulates_readPayloadCsrAt : Simulates Eq readPayloadCsrAt readPayloadCsr := by
  apply ByteCursor.simulates_getVarint32.bind
  rintro docCount _ rfl
  exact Simulates.ite (fun _ => Simulates.throw _) fun _ => simulates_readDocsCsrAt _ _ _

theorem decodePayloadCsrAt_eq (plain : Bytes) :
    decodePayloadCsrAt plain = decodePayloadCsr plain :=
  parseAll_eq_of_simulates simulates_readPayloadCsrAt _ _

theorem simulates_readHeaderAt : Simulates Eq readHeaderAt readHeader := by
  apply ByteCursor.simulates_getU8.bind
  rintro code _ rfl
  cases PrxCodec.ofCode code with
  | none => exact Simulates.throw _
  | some codec =>
      apply ByteCursor.simulates_getVarint32.bind
      rintro uncompLen _ rfl
      apply Simulates.ite
      · exact fun _ => Simulates.throw _
      · intro _
        have hpayload : ∀ n, Simulates Eq
            (ByteCursor.getBytes n >>= fun payload => pure (codec, uncompLen, payload))
            (ByteSource.getBytes n >>= fun payload => pure (codec, uncompLen, payload)) := by
          intro n
          apply (ByteCursor.simulates_getBytes n).bind
          rintro payload _ rfl
          exact Simulates.pure rfl
        apply Simulates.ite
        · intro _
          apply ByteCursor.simulates_getVarint32.bind
          rintro payloadLen _ rfl
          exact hpayload payloadLen
        · exact fun _ => hpayload uncompLen

theorem simulates_readFramedAt : Simulates Eq readFramedAt readFramed := by
  apply simulates_readHeaderAt.consumed.bind
  rintro ⟨frame, framed⟩ _ rfl
  apply ByteCursor.simulates_getFixed32.bind
  rintro stored _ rfl
  exact Simulates.ite (fun _ => Simulates.throw _) fun _ => Simulates.pure rfl

/-- **A position window**, read through a source. -/
theorem simulates_readPrxWindowAt (z : Zstd) :
    Simulates Eq (readPrxWindowAt z) (readPrxWindow z) := by
  apply simulates_readFramedAt.bind
  rintro frame _ rfl
  rw [show decodePforPayloadAt = decodePforPayload from funext decodePforPayloadAt_eq,
    show decodePayloadAt = decodePayload from funext decodePayloadAt_eq]
  exact Simulates.lift_eq _

theorem simulates_readPrxWindowCsrAt (z : Zstd) :
    Simulates Eq (readPrxWindowCsrAt z) (readPrxWindowCsr z) := by
  apply simulates_readFramedAt.bind
  rintro frame _ rfl
  rw [show decodePforPayloadCsrAt = decodePforPayloadCsr from funext decodePforPayloadCsrAt_eq,
    show decodePayloadCsrAt = decodePayloadCsr from funext decodePayloadCsrAt_eq]
  exact Simulates.lift_eq _

end Snii.Format.PayloadArrays
