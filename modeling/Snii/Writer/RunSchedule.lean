import Snii.Writer.RunRecords

/-!
# A run under any client

A client of a run visits record after record.  At each it streams some of the
positions in pieces of its own choosing, then reads the rest at once or leaves it, and
advances.  Whatever it does, and however the operating system splits the file, it sees
the records that were written (`readRun_yields`).
-/

namespace Snii.Writer.SpillRunCodec

open Snii.Lib.ByteReader Snii.Common Snii.Encoding.Varint

/-! ## Writing a run -/

/-- Every record, then the close; the first failure ends it. -/
def writeRun (env : SpillEnv) : List StoredRec → RunWriter → Result Unit × RunWriter
  | [], w => w.close env
  | x :: recs, w =>
      match w.writeTerm env x.1 x.2 with
      | (.error s, w) => (.error s, w)
      | (.ok (), w) => writeRun env recs w

variable {env : SpillEnv} {w w' : RunWriter}

theorem flush_written (h : w.flush env = (.ok (), w')) :
    w'.file = w.file ++ w.buf ∧ w'.buf = [] := by
  unfold RunWriter.flush at h
  split at h
  · rename_i hbuf
    cases h
    exact ⟨by rw [hbuf, List.append_nil], hbuf⟩
  · split at h
    · cases h
      exact ⟨rfl, rfl⟩
    · cases h

theorem writeTerm_written {id : Nat} {tp : TermPostings}
    (h : w.writeTerm env id tp = (.ok (), w')) :
    w'.file ++ w'.buf = w.file ++ w.buf ++ encodeRecord id tp := by
  unfold RunWriter.writeTerm at h
  simp only at h
  split at h
  · obtain ⟨hfile, hbuf⟩ := flush_written h
    rw [hfile, hbuf, List.append_nil, List.append_assoc]
  · cases h
    exact (List.append_assoc _ _ _).symm

theorem close_written (h : w.close env = (.ok (), w')) : w'.file = w.file ++ w.buf := by
  unfold RunWriter.close at h
  cases hflush : w.flush env with
  | mk result w₁ =>
      rw [hflush] at h
      cases result with
      | error s => cases h
      | ok u =>
          simp only at h
          split at h
          · cases h
            exact (flush_written hflush).1
          · cases h

/-- A run that was written holds its records. -/
theorem writeRun_written {recs : List StoredRec} (h : writeRun env recs w = (.ok (), w')) :
    w'.file = w.file ++ w.buf ++ encodeStored recs := by
  induction recs generalizing w with
  | nil =>
      rw [close_written h, encodeStored, List.flatMap_nil, List.append_nil]
  | cons x recs ih =>
      rw [writeRun] at h
      cases hwrite : w.writeTerm env x.1 x.2 with
      | mk result w₁ =>
          rw [hwrite] at h
          cases result with
          | error s => cases h
          | ok u =>
              rw [ih h, writeTerm_written hwrite, encodeStored, encodeStored, List.flatMap_cons,
                List.append_assoc]

/-! ## Clients -/

/-- What a client does at one record: pieces it streams, and whether it then reads the rest. -/
structure Visit where
  pieces : List Nat := []
  materialize : Bool := false

/-- What a client saw of one record. -/
structure Seen where
  id : Nat
  docids : List Nat
  freqs : List Nat
  pieces : List (List Nat)
  rest : List Nat
deriving DecidableEq

def streamAll : List Nat → RunM RunReader (List (List Nat))
  | [] => pure []
  | n :: ns => do
      let piece ← RunReader.streamPositions n
      let pieces ← streamAll ns
      pure (piece :: pieces)

def visit (v : Visit) : RunM RunReader Seen := do
  let pieces ← streamAll v.pieces
  if v.materialize then
    RunReader.materializePositions
    let r ← get
    pure ⟨r.currentId, r.docids, r.freqs, pieces, r.positionsFlat⟩
  else
    let r ← get
    pure ⟨r.currentId, r.docids, r.freqs, pieces, []⟩

/-- Visits until the run is exhausted. -/
def drive : List Visit → RunM RunReader (List Seen)
  | [] => pure []
  | v :: visits => do
      let r ← get
      if r.exhausted then pure []
      else
        let seen ← visit v
        RunReader.advance
        let rest ← drive visits
        pure (seen :: rest)

/-- Opens a run and visits its records. -/
def readRun (file : Bytes) (readSize : Nat → Nat) (hasPositions : Bool) (visits : List Visit) :
    EStateM.Result Status RunReader (List Seen) :=
  (RunReader.advance >>= fun _ => drive visits) (RunReader.opened file readSize hasPositions)

/-! ## What a client sees -/

/-- The client saw the record: its id, docids and freqs, pieces of the lengths it asked for,
and positions from the first on, all of them if it read the rest. -/
structure Shows (x : StoredRec) (v : Visit) (s : Seen) : Prop where
  id : s.id = x.1
  docids : s.docids = x.2.docids
  freqs : s.freqs = x.2.freqs
  lengths : s.pieces.map List.length = v.pieces
  positions : s.pieces.flatten ++ s.rest <+: x.2.positionsFlat
  drained : v.materialize = true ∨ v.pieces.sum = x.2.positionsFlat.length →
    s.pieces.flatten ++ s.rest = x.2.positionsFlat

variable {hasPositions : Bool} {r : RunReader} {x : StoredRec} {left : List Nat}
  {recs : List StoredRec} {v : Visit}

theorem streamAll_parked {ns : List Nat} (h : Parked hasPositions r x left recs)
    (hns : ns.sum ≤ left.length) :
    ∃ pieces r', streamAll ns r = .ok pieces r' ∧ pieces.map List.length = ns ∧
      pieces.flatten = left.take ns.sum ∧ Parked hasPositions r' x (left.drop ns.sum) recs := by
  induction ns generalizing r left with
  | nil => exact ⟨[], r, rfl, rfl, rfl, h⟩
  | cons n ns ih =>
      rw [List.sum_cons] at hns
      obtain ⟨r₁, hstream, h₁⟩ := RunReader.streamPositions_parked h (show n ≤ left.length by omega)
      obtain ⟨pieces, r₂, hrest, hlens, hflat, h₂⟩ := ih h₁ (by rw [List.length_drop]; omega)
      refine ⟨left.take n :: pieces, r₂, ?_, ?_, ?_, ?_⟩
      · rw [streamAll, bind_ok hstream, bind_ok hrest]
        rfl
      · rw [List.map_cons, hlens, List.length_take, Nat.min_eq_left (by omega)]
      · rw [List.flatten_cons, hflat, List.sum_cons, List.take_add]
      · rw [List.sum_cons, ← List.drop_drop]
        exact h₂

/-- A visit within the record's positions shows the record and stays at it. -/
theorem visit_parked (h : Parked hasPositions r x x.2.positionsFlat recs)
    (hpos : hasPositions = false → x.2.positionsFlat = [])
    (hv : v.pieces.sum ≤ x.2.positionsFlat.length) :
    ∃ s r' left, visit v r = .ok s r' ∧ Shows x v s ∧ Parked hasPositions r' x left recs := by
  obtain ⟨pieces, r₁, hstream, hlens, hflat, h₁⟩ := streamAll_parked h hv
  have hall : pieces.flatten ++ x.2.positionsFlat.drop v.pieces.sum = x.2.positionsFlat := by
    rw [hflat, List.take_append_drop]
  rw [visit, bind_ok hstream]
  cases hm : v.materialize with
  | true =>
      have hleft : hasPositions = false → x.2.positionsFlat.drop v.pieces.sum = [] := by
        intro hfalse
        rw [hpos hfalse, List.drop_nil]
      obtain ⟨r₂, hmat, hrest, h₂⟩ := RunReader.materializePositions_parked h₁ hleft
      rw [if_pos rfl, bind_ok hmat]
      refine ⟨_, r₂, [], rfl, ⟨h₂.id, h₂.docids, h₂.freqs, hlens, ?_, ?_⟩, h₂⟩
      · simp only [hrest, hall]
        exact List.prefix_rfl
      · intro _
        simp only [hrest, hall]
  | false =>
      rw [if_neg Bool.false_ne_true]
      refine ⟨_, r₁, _, rfl, ⟨h₁.id, h₁.docids, h₁.freqs, hlens, ?_, ?_⟩, h₁⟩
      · simp only [List.append_nil, hflat]
        exact List.take_prefix _ _
      · intro hdrained
        have hsum := hdrained.resolve_left (by rw [hm]; exact Bool.false_ne_true)
        simp only [List.append_nil, hflat, hsum, List.take_length]

/-- The records ahead of a reader are what its client will see, up to the end of the run. -/
theorem drive_atStored {visits : List Visit} (h : AtStored hasPositions r recs)
    (hfits : ∀ x ∈ recs, Storable x)
    (hpos : hasPositions = false → ∀ x ∈ recs, x.2.positionsFlat = [])
    (hv : List.Forall₂ (fun x v => v.pieces.sum ≤ x.2.positionsFlat.length) recs visits) :
    ∃ seen r', drive visits r = .ok seen r' ∧ r'.exhausted = true ∧
      List.Forall₂ (fun y s => Shows y.1 y.2 s) (recs.zip visits) seen := by
  induction hv generalizing r with
  | nil => exact ⟨[], r, rfl, h, .nil⟩
  | @cons x v recs visits hx hrest ih =>
      have hparked : Parked hasPositions r x x.2.positionsFlat recs := h
      obtain ⟨s, r₁, left, hvisit, hshows, h₁⟩ := visit_parked hparked
        (fun hfalse => hpos hfalse x List.mem_cons_self) hx
      have htail : ∀ y ∈ recs, Storable y := fun y hy => hfits y (List.mem_cons_of_mem _ hy)
      obtain ⟨r₂, hadvance, h₂⟩ := RunReader.advance_parked h₁ htail
      obtain ⟨seen, r₃, hdrive, hend, hseen⟩ := ih h₂ htail
        (fun hfalse y hy => hpos hfalse y (List.mem_cons_of_mem _ hy))
      refine ⟨s :: seen, r₃, ?_, hend, .cons hshows hseen⟩
      have hget : (get : RunM RunReader RunReader) r = .ok r r := rfl
      rw [drive, bind_ok hget, hparked.live, if_neg Bool.false_ne_true, bind_ok hvisit,
        bind_ok hadvance, bind_ok hdrive]
      rfl

/-- **A run reads back** under every way of splitting it into reads and every client: each
record in order, its positions from the first on as far as they were asked for, and the end
of the run behind the last. -/
theorem readRun_yields {recs : List StoredRec} (hfits : ∀ x ∈ recs, Storable x)
    (hpos : hasPositions = false → ∀ x ∈ recs, x.2.positionsFlat = [])
    (hwrite : writeRun env recs {} = (.ok (), w)) (readSize : Nat → Nat) {visits : List Visit}
    (hv : List.Forall₂ (fun x v => v.pieces.sum ≤ x.2.positionsFlat.length) recs visits) :
    ∃ seen r, readRun w.file readSize hasPositions visits = .ok seen r ∧ r.exhausted = true ∧
      List.Forall₂ (fun y s => Shows y.1 y.2 s) (recs.zip visits) seen := by
  have hfile : w.file = encodeStored recs := by
    rw [writeRun_written hwrite]
    rfl
  obtain ⟨r₁, hopen, hat⟩ := RunReader.advance_opened_stored hasPositions readSize hfits
  obtain ⟨seen, r₂, hdrive, hend, hseen⟩ := drive_atStored hat hfits hpos hv
  refine ⟨seen, r₂, ?_, hend, hseen⟩
  rw [readRun, hfile, bind_ok hopen]
  exact hdrive

/-- Two records, the first with three positions. -/
def twoRecords : List StoredRec :=
  [(3, { docids := [1, 5], freqs := [2, 1], positionsFlat := [4, 9, 7] }),
   (70000, { docids := [300], freqs := [1], positionsFlat := [2 ^ 31] })]

instance (x : StoredRec) : Decidable (Storable x) :=
  decidable_of_iff (x.1 < 2 ^ 32 ∧ x.2.freqs.length = x.2.docids.length ∧
      (∀ v ∈ x.2.docids, v < 2 ^ 32) ∧ (∀ v ∈ x.2.freqs, v < 2 ^ 32) ∧
      (∀ v ∈ x.2.positionsFlat, v < 2 ^ 32) ∧ x.2.docids.length < 2 ^ 64 ∧
      x.2.positionsFlat.length < 2 ^ 64)
    ⟨fun ⟨h1, h2, h3, h4, h5, h6, h7⟩ => ⟨h1, h2, h3, h4, h5, h6, h7⟩,
      fun h => ⟨h.id, h.parallel, h.docids, h.freqs, h.positions, h.docCount, h.posCount⟩⟩

/-- Byte by byte: one position streamed and the rest read, then a record skipped. -/
theorem readRun_yields_twoRecords :
    ∃ seen r, readRun (writeRun {} twoRecords {}).2.file (fun _ => 1) true
        [{ pieces := [1], materialize := true }, {}] = .ok seen r ∧ r.exhausted = true ∧
      List.Forall₂ (fun y s => Shows y.1 y.2 s)
        (twoRecords.zip [{ pieces := [1], materialize := true }, {}]) seen :=
  readRun_yields (by decide) (fun h => by cases h) (Prod.ext rfl rfl) (fun _ => 1)
    (.cons (by decide) (.cons (by decide) .nil))

end Snii.Writer.SpillRunCodec
