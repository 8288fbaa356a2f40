import Mathlib.Data.List.Sort
import Snii.Encoding.Varint

/-!
# Spill runs and their merge

`spill_run_codec.cpp`: a run is a sequence of records, one per term, in
dictionary order; `RunWriter` stages and writes them, `RunReader` reads them
back through a sliding window with the positions left on disk until asked for,
and `MergeRuns` merges any number of runs term by term.

How many bytes each `read` returns is up to the operating system: `readSize`
picks a size for every number of bytes still on disk, so its choice covers every
way of splitting the file.  A merge callback sees the postings and, for a
streamed term, pulls positions from the pump in pieces of its own choosing
(`plan`); what it saw is recorded in `Emitted`.
-/

namespace Snii.Writer.SpillRunCodec

open Snii.Lib.ByteReader Snii.Common Snii.Encoding.Varint

/-- From this document frequency on, a term is windowed. -/
def kSlimDfThreshold : Nat := 512

/-- The buffer of a run file is written when it has this size. -/
def kWriteFlushBytes : Nat := 4194304

/-- A run file is read in pieces of this size. -/
def kReadChunkBytes : Nat := 65536

/-- A term's postings as handed to the writer.  `streamed` says that `pos_pump`
is set, so that positions are pulled and `positionsFlat` stays empty. -/
structure TermPostings where
  term : Bytes := []
  docids : List Nat := []
  freqs : List Nat := []
  positionsFlat : List Nat := []
  streamed : Bool := false
  posTotal : Nat := 0
deriving DecidableEq

/-- What a callback saw of one term: the postings, and the positions it pulled. -/
structure Emitted where
  postings : TermPostings
  pulled : List Nat := []
deriving DecidableEq

/-- The positions of the term in document order. -/
def Emitted.positions (e : Emitted) : List Nat :=
  if e.postings.streamed then e.pulled else e.postings.positionsFlat

/-! ## Writing -/

/-- `count` 32-bit values as little-endian bytes. -/
def appendRawU32 (values : List Nat) : Bytes := values.flatMap (leBytes 4)

/-- A record: term id, documents, freqs, positions. -/
def encodeRecord (termId : Nat) (tp : TermPostings) : Bytes :=
  encodeVarint64 termId ++ encodeVarint64 tp.docids.length ++ appendRawU32 tp.docids ++
    appendRawU32 tp.freqs ++ encodeVarint64 tp.positionsFlat.length ++
    appendRawU32 tp.positionsFlat

/-- A run being written: what reached the file, what is staged, and how many
writes were issued. -/
structure RunWriter where
  file : Bytes := []
  buf : Bytes := []
  writes : Nat := 0

/-- Which of the operating system's answers a spill meets. -/
structure SpillEnv where
  hasSpace : Bool := true
  opens : Bool := true
  writes : Nat → Bool := fun _ => true
  closes : Bool := true

/-- Writes the buffer. -/
def RunWriter.flush (env : SpillEnv) (w : RunWriter) : Result Unit × RunWriter :=
  if w.buf = [] then (.ok (), w)
  else if env.writes w.writes then
    (.ok (), { file := w.file ++ w.buf, buf := [], writes := w.writes + 1 })
  else (.error (.ioError "run write failed"), { w with writes := w.writes + 1 })

/-- One record into the buffer, which is written when full. -/
def RunWriter.writeTerm (env : SpillEnv) (termId : Nat) (tp : TermPostings) (w : RunWriter) :
    Result Unit × RunWriter :=
  let w := { w with buf := w.buf ++ encodeRecord termId tp }
  if w.buf.length ≥ kWriteFlushBytes then w.flush env else (.ok (), w)

/-- Writes what is left and closes the file. -/
def RunWriter.close (env : SpillEnv) (w : RunWriter) : Result Unit × RunWriter :=
  match w.flush env with
  | (.error s, w) => (.error s, w)
  | (.ok (), w) => if env.closes then (.ok (), w) else (.error (.ioError "run close"), w)

/-! ## Reading through the window -/

/-- A stateful call that may fail; the state survives a failure. -/
abbrev RunM (σ α : Type) := EStateM Status σ α

/-- A call that succeeds hands its value and state to the next one. -/
theorem bind_ok {σ α β : Type} {p : RunM σ α} {f : α → RunM σ β} {s s' : σ} {a : α}
    (h : p s = .ok a s') : (p >>= f) s = f a s' := by
  show EStateM.bind p f s = f a s'
  simp only [EStateM.bind, h]

theorem bind_modify {σ β : Type} (g : σ → σ) (f : PUnit → RunM σ β) (s : σ) :
    ((modify g : RunM σ PUnit) >>= f) s = f ⟨⟩ (g s) := rfl

/-- A chain that succeeds has succeeded at its first call. -/
theorem bind_run_eq_ok {σ α β : Type} {p : RunM σ α} {f : α → RunM σ β} {s s'' : σ} {b : β}
    (h : (p >>= f) s = .ok b s'') : ∃ a s', p s = .ok a s' ∧ f a s' = .ok b s'' := by
  change EStateM.bind p f s = .ok b s'' at h
  unfold EStateM.bind at h
  cases hp : p s with
  | ok a s' =>
      rw [hp] at h
      exact ⟨a, s', rfl, h⟩
  | error e s' =>
      rw [hp] at h
      cases h

/-- Whether a step ended well. -/
def succeeds {σ α : Type} : EStateM.Result Status σ α → Bool
  | .ok _ _ => true
  | .error _ _ => false

theorem exists_of_succeeds {σ α : Type} {r : EStateM.Result Status σ α} (h : succeeds r = true) :
    ∃ a s, r = .ok a s := by
  cases r with
  | ok a s => exact ⟨a, s, rfl⟩
  | error e s => cases h

/-- A call that fails ends the chain. -/
theorem bind_error {σ α β : Type} {p : RunM σ α} {f : α → RunM σ β} {s s' : σ} {e : Status}
    (h : p s = .error e s') : (p >>= f) s = .error e s' := by
  show EStateM.bind p f s = .error e s'
  simp only [EStateM.bind, h]

/-- The window on a run file: bytes still on disk, bytes buffered, and how far
the buffered ones are consumed. -/
structure RunInput where
  file : Bytes
  fileSize : Nat
  readSize : Nat → Nat
  window : Bytes := []
  pos : Nat := 0
  eof : Bool := false

namespace RunInput

/-- The bytes of the window not yet consumed. -/
def available (r : RunInput) : Nat := r.window.length - r.pos

/-- How many bytes one `read` returns: at least one while any are left. -/
def readCount (r : RunInput) : Nat :=
  min (max 1 (r.readSize r.file.length)) (min kReadChunkBytes r.file.length)

/-- Slides consumed bytes out of the window, then appends one disk chunk. -/
def fill (r : RunInput) : RunInput :=
  let r := { r with window := r.window.drop r.pos, pos := 0 }
  if r.eof then r
  else { r with window := r.window ++ r.file.take r.readCount
                file := r.file.drop r.readCount
                eof := r.readCount = 0 }

/-- The retry loop of `read_varint`; one more round than bytes on disk is enough. -/
def readVarintLoop : Nat → RunM RunInput Nat
  | 0, r => .error (.corruption "run truncated: incomplete varint") r
  | fuel + 1, r =>
      match decodeVarint64 (r.window.drop r.pos) with
      | .ok (v, rest) => .ok v { r with pos := r.window.length - rest.length }
      | .error _ =>
          if r.eof then .error (.corruption "run truncated: incomplete varint") r
          else
            let r' := r.fill
            if r'.available = r.available ∧ r'.eof then
              .error (.corruption "run truncated: incomplete varint at eof") r'
            else readVarintLoop fuel r'

/-- A varint, byte by byte. -/
def readVarint : RunM RunInput Nat := fun r => readVarintLoop (r.file.length + 2) r

/-- The copy loop of `pull_raw_u32` for the bytes still needed.  Every round
copies at least one, so a round per byte is enough. -/
def pullLoop : Nat → Nat → Bytes → RunM RunInput Bytes
  | 0, _, acc, r => .ok acc r
  | fuel + 1, need, acc, r =>
      if need = 0 then .ok acc r
      else
        let r' := if r.available = 0 then r.fill else r
        if r'.available = 0 ∧ r'.eof then
          .error (.corruption "run truncated: needed more raw bytes than available") r'
        else
          let take := min need r'.available
          pullLoop fuel (need - take) (acc ++ (r'.window.drop r'.pos).take take)
            { r' with pos := r'.pos + take }

/-- Little-endian 32-bit words of a byte block. -/
def wordsOf : Nat → Bytes → List Nat
  | 0, _ => []
  | n + 1, bs => leValue (bs.take 4) :: wordsOf n (bs.drop 4)

/-- `count` words, once their number is known to be sane. -/
def pullRawU32 (count : Nat) : RunM RunInput (List Nat) := do
  let bytes ← pullLoop (count * 4) (count * 4) []
  pure (wordsOf count bytes)

/-- `count` words; more than the file could hold are refused. -/
def readRawU32 (count : Nat) : RunM RunInput (List Nat) := fun r =>
  if count > r.fileSize / 4 then .error (.corruption "run: raw u32 count exceeds file size") r
  else pullRawU32 count r

end RunInput

/-! ## The record reader -/

/-- A reader parked at a record: its id, docids and freqs are loaded, its
positions are still in the input. -/
structure RunReader where
  input : RunInput
  hasPositions : Bool
  exhausted : Bool := false
  currentId : Nat := 0
  docids : List Nat := []
  freqs : List Nat := []
  positionsFlat : List Nat := []
  posCount : Nat := 0
  posRemaining : Nat := 0

namespace RunReader

/-- A step on the reader's input. -/
def onInput {α : Type} (p : RunM RunInput α) : RunM RunReader α := fun r =>
  match p r.input with
  | .ok a i => .ok a { r with input := i }
  | .error s i => .error s { r with input := i }

/-- Reads the positions left of the record. -/
def materializePositions : RunM RunReader Unit := fun r =>
  if r.posRemaining = 0 then .ok () { r with positionsFlat := [] }
  else match onInput (RunInput.readRawU32 r.posRemaining) r with
    | .error s r => .error s r
    | .ok block r =>
        .ok () { r with positionsFlat := if r.hasPositions then block else [], posRemaining := 0 }

/-- The next `n` positions of the record. -/
def streamPositions (n : Nat) : RunM RunReader (List Nat) := fun r =>
  if n = 0 then .ok [] r
  else if n > r.posRemaining then
    .error (.corruption "run: stream_positions past block end") r
  else match onInput (RunInput.pullRawU32 n) r with
    | .error s r => .error s r
    | .ok block r => .ok block { r with posRemaining := r.posRemaining - n }

/-- Passes over the positions left of the record. -/
def skipRemainingPositions : RunM RunReader Unit := fun r =>
  if r.posRemaining = 0 then .ok () r
  else match onInput (RunInput.readRawU32 r.posRemaining) r with
    | .error s r => .error s r
    | .ok _ r => .ok () { r with posRemaining := 0 }

/-- Tops up an empty window; true when the run has ended. -/
def atEnd : RunM RunReader Bool := fun r =>
  if r.input.available = 0 then
    let input := r.input.fill
    .ok (input.available = 0 ∧ input.eof) { r with input := input }
  else .ok false r

/-- The term id, in 32 bits. -/
def readTermId : RunM RunReader Unit := fun r =>
  match onInput RunInput.readVarint r with
  | .error s r => .error s r
  | .ok termId r =>
      if termId > 4294967295 then .error (.corruption "run term_id exceeds uint32") r
      else .ok () { r with currentId := termId }

/-- The next record, but for its positions. -/
def readRecord : RunM RunReader Unit := do
  readTermId
  let nDocs ← onInput RunInput.readVarint
  let docids ← onInput (RunInput.readRawU32 nDocs)
  modify fun r => { r with docids := docids }
  let freqs ← onInput (RunInput.readRawU32 nDocs)
  modify fun r => { r with freqs := freqs }
  let nPos ← onInput RunInput.readVarint
  modify fun r => { r with positionsFlat := [], posCount := nPos, posRemaining := nPos }

/-- The next record, or the end of the run. -/
def advance : RunM RunReader Unit := do
  skipRemainingPositions
  let done ← atEnd
  if done then modify fun r => { r with exhausted := true } else readRecord

/-- A reader before its first `advance`. -/
def opened (file : Bytes) (readSize : Nat → Nat) (hasPositions : Bool) : RunReader :=
  { input := { file := file, fileSize := file.length, readSize := readSize }
    hasPositions := hasPositions }

end RunReader

/-! ## Coalescing -/

/-- Appends a run's slice to the merged postings, folding a boundary document
into one entry. -/
def concat (dst : TermPostings) (src : RunReader) (hasPositions : Bool) : Result TermPostings :=
  match src.docids, src.freqs with
  | [], _ => .ok dst
  | _ :: _, [] => .error .outOfBounds
  | first :: docids, headFc :: freqs =>
      if dst.docids.getLast? = some first then
        if hasPositions ∧ headFc > src.positionsFlat.length then .error .outOfBounds
        else .ok { dst with
          docids := dst.docids ++ docids
          freqs := dst.freqs.dropLast ++
            [(dst.freqs.getLast?.getD 0 + headFc) % 2 ^ 32] ++ freqs
          positionsFlat :=
            if hasPositions then
              dst.positionsFlat ++ src.positionsFlat.take headFc ++ src.positionsFlat.drop headFc
            else dst.positionsFlat }
      else .ok { dst with
        docids := dst.docids ++ first :: docids
        freqs := dst.freqs ++ headFc :: freqs
        positionsFlat :=
          if hasPositions then dst.positionsFlat ++ src.positionsFlat else dst.positionsFlat }

/-- A run's documents behind the others; one that both have is joined. -/
def concatDocsFreqs (dst : TermPostings) (src : RunReader) : TermPostings :=
  match src.docids, src.freqs with
  | first :: docids, headFc :: freqs =>
      if dst.docids.getLast? = some first then
        { dst with
          docids := dst.docids ++ docids
          freqs := dst.freqs.dropLast ++
            [(dst.freqs.getLast?.getD 0 + headFc) % 2 ^ 32] ++ freqs }
      else { dst with docids := dst.docids ++ first :: docids
                      freqs := dst.freqs ++ headFc :: freqs }
  | _, _ => dst

/-- Long terms with positions are not materialized. -/
def shouldStreamPositions (totalDocs totalPos : Nat) (hasPositions : Bool) : Bool :=
  hasPositions && totalPos ≠ 0 && kSlimDfThreshold ≤ totalDocs

/-! ## Merging -/

/-- A run with the id of its next term. -/
structure HeapItem where
  termId : Nat
  run : Nat
deriving DecidableEq

/-- Heap order: the term's string, then the run. -/
def heapLe (vocab : List Bytes) (a b : HeapItem) : Prop :=
  vocab.getD a.termId [] < vocab.getD b.termId [] ∨
    (vocab.getD a.termId [] = vocab.getD b.termId [] ∧ a.run ≤ b.run)

instance (vocab : List Bytes) : DecidableRel (heapLe vocab) := fun a b => by
  unfold heapLe; infer_instance

/-- `heap.push`: the heap is the sequence its pops return. -/
def pushItem (vocab : List Bytes) (item : HeapItem) (heap : List HeapItem) : List HeapItem :=
  heap.orderedInsert (heapLe vocab) item

/-- A call on one reader of the set. -/
def onReader {α : Type} (i : Nat) (p : RunM RunReader α) : RunM (List RunReader) α := fun rs =>
  match rs[i]? with
  | none => .error .outOfBounds rs
  | some r =>
      match p r with
      | .ok a r => .ok a (rs.set i r)
      | .error s r => .error s (rs.set i r)

/-- Before a run's slice is copied: its positions are read, unless they are
streamed or not kept at all. -/
def loadPositions (stream hasPositions : Bool) (ri : Nat) : RunM (List RunReader) Unit :=
  if stream = false ∧ hasPositions then onReader ri RunReader.materializePositions else pure ()

/-- Docids, freqs and, unless they are streamed, positions of the matching runs
in run order. -/
def coalesce (stream hasPositions : Bool) :
    List Nat → TermPostings → RunM (List RunReader) TermPostings
  | [], merged => pure merged
  | ri :: matching, merged => do
      loadPositions stream hasPositions ri
      let r ← onReader ri get
      if stream then coalesce stream hasPositions matching (concatDocsFreqs merged r)
      else
        match concat merged r hasPositions with
        | .error s => throw s
        | .ok merged => coalesce stream hasPositions matching merged

/-- The second pass for a term that turned out slim after coalescing. -/
def materializeAll : List Nat → TermPostings → RunM (List RunReader) TermPostings
  | [], merged => pure merged
  | ri :: matching, merged => do
      onReader ri RunReader.materializePositions
      let r ← onReader ri get
      materializeAll matching { merged with positionsFlat := merged.positionsFlat ++ r.positionsFlat }

/-- The pump's view: the readers, the run being drained, and the first error. -/
structure PumpState where
  readers : List RunReader
  cursor : Nat := 0
  status : Option Status := none

/-- One `pos_pump(dst, n)` call: walks the matching readers in run order and
zero-fills what it could not read. -/
def pumpPull (matching : List Nat) : Nat → Nat → PumpState → List Nat × PumpState
  | 0, n, st => (List.replicate n 0, st)
  | fuel + 1, n, st =>
      if n = 0 then ([], st)
      else match matching[st.cursor]? with
        | none => (List.replicate n 0, st)
        | some ri =>
            let remaining := (st.readers[ri]?.map RunReader.posRemaining).getD 0
            if remaining = 0 then pumpPull matching fuel n { st with cursor := st.cursor + 1 }
            else
              let take := min n remaining
              match onReader ri (RunReader.streamPositions take) st.readers with
              | .error s rs =>
                  (List.replicate n 0, { st with readers := rs, status := st.status.or (some s) })
              | .ok block rs =>
                  let (more, st) := pumpPull matching fuel (n - take) { st with readers := rs }
                  (block ++ more, st)

/-- The callback's pulls, one after the other. -/
def pumpPulls (matching : List Nat) : List Nat → PumpState → List Nat × PumpState
  | [], st => ([], st)
  | n :: sizes, st =>
      let (block, st) := pumpPull matching (2 * matching.length + n + 1) n st
      let (more, st) := pumpPulls matching sizes st
      (block ++ more, st)

/-- Moves the matching readers to their next records and re-seeds the heap. -/
def advanceAll (vocab : List Bytes) :
    List Nat → List HeapItem → RunM (List RunReader) (List HeapItem)
  | [], heap => pure heap
  | ri :: matching, heap => do
      onReader ri RunReader.advance
      let r ← onReader ri get
      if r.exhausted then advanceAll vocab matching heap
      else if r.currentId ≥ vocab.length then
        throw (.corruption "run term_id out of vocab range")
      else advanceAll vocab matching (pushItem vocab ⟨r.currentId, ri⟩ heap)

/-- The settings of one merge: how the callback pulls streamed positions, and
whether it may be given a pump at all.  `room` is how many positions a `reserve` can be
granted, which is at most `max_size()`; `none` grants every one. -/
structure MergeConfig where
  vocab : List Bytes
  hasPositions : Bool
  plan : TermPostings → List Nat
  allowStream : Bool
  room : Option Nat := none

/-- `max_size()` of a vector of 32-bit positions. -/
def kMaxPositions : Nat := 2 ^ 61 - 1

/-- `positions_flat.reserve(n)`, where positions are copied. -/
def reservePositions {σ : Type} (cfg : MergeConfig) (copied : Bool) (n : Nat) : RunM σ Unit :=
  fun s =>
    if copied && !cfg.room.all (n ≤ ·) then .error .thrown s else .ok () s

/-- Emits a wide term with a pump over the parked readers; the status is the
pump's, known after the callback. -/
def emitStreamed (cfg : MergeConfig) (matching : List Nat) (merged : TermPostings)
    (totalPos : Nat) : RunM (List RunReader) (Emitted × Option Status) := fun readers =>
  let merged := { merged with streamed := true, posTotal := totalPos }
  let (pulled, st) := pumpPulls matching (cfg.plan merged) { readers := readers }
  .ok ({ postings := merged, pulled := pulled }, st.status) st.readers

/-- Builds and emits the term of the matching runs. -/
def emitTerm (cfg : MergeConfig) (term : Bytes) (matching : List Nat) :
    RunM (List RunReader) (Emitted × Option Status) := do
  let readers ← get
  let matched := matching.filterMap fun ri => readers[ri]?
  let totalDocs := (matched.map fun r => r.docids.length).sum
  let totalPos := (matched.map RunReader.posCount).sum % 2 ^ 64
  let stream := cfg.allowStream && shouldStreamPositions totalDocs totalPos cfg.hasPositions
  reservePositions cfg (!stream && cfg.hasPositions) totalPos
  let merged ← coalesce stream cfg.hasPositions matching { term := term }
  if stream && decide (merged.docids.length < kSlimDfThreshold) then
    reservePositions cfg true totalPos
    let merged ← materializeAll matching merged
    pure ({ postings := merged }, none)
  else if stream then emitStreamed cfg matching merged totalPos
  else pure ({ postings := merged }, none)

/-- The merge loop with a bound on the number of terms: the status and the terms
emitted so far, or `none` when the bound is too small. -/
def mergeLoop (cfg : MergeConfig) :
    Nat → List HeapItem → List RunReader → Option (Result Unit × List Emitted)
  | 0, _, _ => none
  | fuel + 1, heap, readers =>
      match heap with
      | [] => some (.ok (), [])
      | top :: _ =>
          let term := cfg.vocab.getD top.termId []
          let same := fun item : HeapItem => cfg.vocab.getD item.termId [] = term
          let matching := (heap.takeWhile same).map HeapItem.run
          match emitTerm cfg term matching readers with
          | .error s _ => some (.error s, [])
          | .ok (emitted, some s) _ => some (.error s, [emitted])
          | .ok (emitted, none) readers =>
              match advanceAll cfg.vocab matching (heap.dropWhile same) readers with
              | .error s _ => some (.error s, [emitted])
              | .ok heap readers =>
                  (mergeLoop cfg fuel heap readers).map fun r => (r.1, emitted :: r.2)

/-- Opens every run and seeds the heap. -/
def openRuns (vocab : List Bytes) (hasPositions : Bool) (readSize : Nat → Nat) :
    List Bytes → Nat → List HeapItem → Result (List HeapItem × List RunReader)
  | [], _, heap => .ok (heap, [])
  | file :: files, i, heap =>
      match RunReader.advance (RunReader.opened file readSize hasPositions) with
      | .error s _ => .error s
      | .ok _ r => do
          if ¬ r.exhausted ∧ r.currentId ≥ vocab.length then
            .error (.corruption "run term_id out of vocab range")
          else
            let heap := if r.exhausted then heap else pushItem vocab ⟨r.currentId, i⟩ heap
            let (heap, rs) ← openRuns vocab hasPositions readSize files (i + 1) heap
            pure (heap, r :: rs)

/-- The merge of the run files: the status it returns and the terms it emitted. -/
def mergeRuns (cfg : MergeConfig) (readSize : Nat → Nat) (runs : List Bytes) :
    Option (Result Unit × List Emitted) :=
  match openRuns cfg.vocab cfg.hasPositions readSize runs 0 [] with
  | .error s => some (.error s, [])
  | .ok (heap, readers) => mergeLoop cfg ((runs.map List.length).sum + 1) heap readers

end Snii.Writer.SpillRunCodec
