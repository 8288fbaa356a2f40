import Snii.Writer.CompactPostingPool
import Snii.Writer.SpillRunCodec

/-!
# The term buffer

`spimi_term_buffer.cpp`: tokens are appended, per term, to a tagged chain in the
posting arena; when the buffer is over its budget the touched terms are written
to a run and the arena is reset; a drain returns every term in dictionary order,
from the arena alone or by merging the runs.

What the code asks its surroundings is part of each call: the memory reporter's
answer, the capacity of the slot index, and the outcome of a spill (`TokenEnv`).
`none` is the arena's overflow exception.
-/

namespace Snii.Writer.SpimiTermBuffer

open Snii.Lib.ByteReader Snii.Common Snii.Encoding.Varint Snii.Writer.CompactPostingPool
  Snii.Writer.SpillRunCodec

/-- The head of a chain that was not started. -/
def kNoChain : Nat := 4294967295

/-- Before the offsets of the arena run out, the buffer is spilled. -/
def kArenaSpillCap : Nat := 3758096384

/-- From this many positions on a drained term is streamed. -/
def kStreamPositionsTokenThreshold : Nat := 65536

/-- One term's accumulator. -/
structure Term where
  head : Nat := kNoChain
  w : SliceWriter := {}
  ntok : Nat := 0
  curDocid : Nat := 0
  started : Bool := false
  sorted : Bool := true
deriving DecidableEq

/-- The buffer.  `freeSlots` is a stack, its top first; `runs` holds the contents
of the spilled run files; a `spillStatus` of `none` is `OK`. -/
structure Buffer where
  vocab : List Bytes
  ownedVocab : Bool
  hasPositions : Bool
  spillThresholdBytes : Nat
  hasReporter : Bool
  totalTokens : Nat := 0
  slotOf : List Nat
  slots : List Term := []
  freeSlots : List Nat := []
  touchedIds : List Nat := []
  liveTermCount : Nat := 0
  pool : Pool := {}
  runs : List Bytes := []
  spillStatus : Option Status := none
  drained : Bool := false

/-- A buffer over a borrowed vocabulary. -/
def Buffer.borrowed (vocab : List Bytes) (hasPositions : Bool) (spillThresholdBytes : Nat)
    (hasReporter : Bool) : Buffer :=
  { vocab := vocab, ownedVocab := false, hasPositions := hasPositions
    spillThresholdBytes := spillThresholdBytes, hasReporter := hasReporter
    slotOf := List.replicate vocab.length 0 }

/-- A buffer that interns its own vocabulary. -/
def Buffer.interning (hasPositions : Bool) (spillThresholdBytes : Nat) (hasReporter : Bool) :
    Buffer :=
  { vocab := [], ownedVocab := true, hasPositions := hasPositions
    spillThresholdBytes := spillThresholdBytes, hasReporter := hasReporter, slotOf := [] }

/-- What the surroundings answer while one token is added. -/
structure TokenEnv where
  overCap : Bool := false
  slotCapacity : Nat := 0
  spill : SpillEnv := {}

/-! ## Appending tokens -/

/-- The slot of a live term, or a recycled or new one for a fresh term. -/
def termSlot (b : Buffer) (termId : Nat) : Nat × Bool × Buffer :=
  let enc := b.slotOf.getD termId 0
  if enc ≠ 0 then (enc - 1, false, b)
  else match b.freeSlots with
    | slot :: freeSlots =>
        (slot, true, { b with freeSlots := freeSlots, slotOf := b.slotOf.set termId (slot + 1) })
    | [] =>
        (b.slots.length, true,
          { b with slots := b.slots ++ [{}], slotOf := b.slotOf.set termId (b.slots.length + 1) })

/-- Starts the chain on first use, then appends. -/
def putByte (p : Pool) (t : Term) (x : UInt8) : Option (Pool × Term) :=
  if t.head = kNoChain then
    match startChain p with
    | none => none
    | some (p, w, head) =>
        (appendByte p w x).map fun r => (r.1, { t with head := head, w := r.2 })
  else (appendByte p t.w x).map fun r => (r.1, { t with w := r.2 })

/-- Bytes behind a chain. -/
def putBytes (p : Pool) (t : Term) : Bytes → Option (Pool × Term)
  | [] => some (p, t)
  | x :: xs => match putByte p t x with
      | none => none
      | some (p, t) => putBytes p t xs

/-- A varint behind a chain. -/
def putVarint (p : Pool) (t : Term) (v : Nat) : Option (Pool × Term) :=
  putBytes p t (encodeVarint64 v)

/-- The tagged entry of one token: a new document's entry is followed by its
signed distance from the previous one. -/
def appendToken (hasPositions : Bool) (p : Pool) (t : Term) (docid pos : Nat) :
    Option (Pool × Term) := do
  let newDoc := !t.started || t.curDocid != docid
  let tagged := if hasPositions then 2 * pos + newDoc.toNat else newDoc.toNat
  let (p, t) ← putVarint p t tagged
  if newDoc then
    let base : Int := if t.started then t.curDocid else 0
    let sorted := if t.started ∧ docid < t.curDocid then false else t.sorted
    let (p, t) ← putVarint p { t with sorted := sorted } (zigzagEncode (docid - base))
    some (p, { t with curDocid := docid, started := true, ntok := (t.ntok + 1) % 2 ^ 32 })
  else some (p, { t with ntok := (t.ntok + 1) % 2 ^ 32 })

/-! ## Reading a term back -/

/-- The varint at a cursor, as the writer chained it. -/
def decodeChainVarintLoop (p : Pool) : Nat → Nat → Nat → Cursor → Nat × Cursor
  | 0, _, acc, c => (acc, c)
  | fuel + 1, shift, acc, c =>
      let (x, c) := c.next p
      let acc := (acc + x.toNat % 128 * 2 ^ shift) % 2 ^ 64
      if x.toNat < 128 then (acc, c) else decodeChainVarintLoop p fuel (shift + 7) acc c

/-- A varint off a chain.  An exhausted cursor yields zeros, so the loop ends
within the budget. -/
def decodeChainVarint (p : Pool) (c : Cursor) : Nat × Cursor :=
  decodeChainVarintLoop p (c.budget + 1) 0 0 c

/-- The flat arrays of a term while its chain is decoded. -/
structure Decoded where
  docids : List Nat := []
  freqs : List Nat := []
  positionsFlat : List Nat := []
deriving DecidableEq

/-- One document more, with no token counted yet. -/
def Decoded.newDoc (d : Decoded) (docid : Nat) : Decoded :=
  { d with docids := d.docids ++ [docid], freqs := d.freqs ++ [0] }

/-- One token more of the current document. -/
def Decoded.countToken (d : Decoded) : Decoded :=
  { d with freqs := d.freqs.dropLast ++ [(d.freqs.getLast?.getD 0 + 1) % 2 ^ 32] }

/-- The tokens of a chain, put together by document. -/
def decodeTokens (p : Pool) (keepPositions : Bool) :
    Nat → Cursor → Int → Decoded → Decoded
  | 0, _, _, d => d
  | n + 1, c, prev, d =>
      let (tagged, c) := decodeChainVarint p c
      if tagged % 2 = 1 then
        let (delta, c) := decodeChainVarint p c
        let prev := prev + zigzagDecode delta
        let d := (d.newDoc (prev % 2 ^ 32).toNat).countToken
        decodeTokens p keepPositions n c prev
          { d with positionsFlat :=
              if keepPositions then d.positionsFlat ++ [tagged / 2 % 2 ^ 32] else d.positionsFlat }
      else
        let d := d.countToken
        decodeTokens p keepPositions n c prev
          { d with positionsFlat :=
              if keepPositions then d.positionsFlat ++ [tagged / 2 % 2 ^ 32] else d.positionsFlat }

/-- `count` positions off a chain: the pump's loop, and the slim second pass. -/
def pumpChain (p : Pool) : Nat → Cursor → List Nat × Cursor
  | 0, c => ([], c)
  | n + 1, c =>
      let (tagged, c) := decodeChainVarint p c
      let c := if tagged % 2 = 1 then (decodeChainVarint p c).2 else c
      let (more, c) := pumpChain p n c
      (tagged / 2 % 2 ^ 32 :: more, c)

/-- The pulls of a callback, one after the other. -/
def pumpChains (p : Pool) : List Nat → Cursor → List Nat
  | [], _ => []
  | n :: sizes, c =>
      let (block, c) := pumpChain p n c
      block ++ pumpChains p sizes c

/-- Flat offsets of the groups' positions, in 32 bits. -/
def posOffsets : Nat → List Nat → List Nat
  | _, [] => []
  | running, f :: freqs => running :: posOffsets ((running + f) % 2 ^ 32) freqs

/-- One entry of the reordered output: folded into the previous one when the
docid repeats. -/
def coalesceEntry (positions : List Nat) (hasPositions : Bool) (out : Decoded)
    (entry : Nat × Nat × Nat) : Decoded :=
  let (docid, freq, off) := entry
  let out :=
    if out.docids.getLast? = some docid then
      { out with freqs := out.freqs.dropLast ++
          [(out.freqs.getLast?.getD 0 + freq) % 2 ^ 32] }
    else { out with docids := out.docids ++ [docid], freqs := out.freqs ++ [freq] }
  if hasPositions then
    { out with positionsFlat := out.positionsFlat ++ (positions.drop off).take freq }
  else out

/-- Reorders a term's flat arrays by docid, equal docids staying in arrival
order and becoming one entry. -/
def sortByDocid (d : Decoded) (hasPositions : Bool) : Decoded :=
  let offs := posOffsets 0 d.freqs
  let order := (List.range d.docids.length).insertionSort
    fun a b => d.docids.getD a 0 ≤ d.docids.getD b 0
  let out := (order.map fun k => (d.docids.getD k 0, d.freqs.getD k 0, offs.getD k 0)).foldl
    (coalesceEntry d.positionsFlat hasPositions) {}
  if hasPositions then out else { out with positionsFlat := d.positionsFlat }

/-- Decodes a term's chain into postings, or into a streamed term when it is
sorted, long and wide enough for the windowed writer. -/
def toPostings (p : Pool) (hasPositions : Bool) (term : Bytes) (t : Term) (allowStream : Bool) :
    TermPostings :=
  if t.ntok = 0 ∨ t.head = kNoChain then { term := term }
  else
    let stream := allowStream && hasPositions && t.sorted &&
      decide (kStreamPositionsTokenThreshold ≤ t.ntok)
    let d := decodeTokens p (hasPositions && !stream) t.ntok (cursor t.head t.w.cur) 0 {}
    let windowed := decide (kSlimDfThreshold ≤ d.docids.length)
    if stream && windowed then
      { term := term, docids := d.docids, freqs := d.freqs, streamed := true, posTotal := t.ntok }
    else if stream then
      { term := term, docids := d.docids, freqs := d.freqs
        positionsFlat := (pumpChain p t.ntok (cursor t.head t.w.cur)).1 }
    else
      let d := if t.sorted then d else sortByDocid d hasPositions
      { term := term, docids := d.docids, freqs := d.freqs, positionsFlat := d.positionsFlat }

/-- What the callback sees of an in-memory term. -/
def emitPostings (p : Pool) (t : Term) (plan : TermPostings → List Nat) (tp : TermPostings) :
    Emitted :=
  { postings := tp
    pulled := if tp.streamed then pumpChains p (plan tp) (cursor t.head t.w.cur) else [] }

/-! ## Draining -/

/-- Position of each vocabulary id in the lexicographic order of the strings. -/
def stringRank (vocab : List Bytes) : List Nat :=
  let order := (List.range vocab.length).insertionSort
    fun a b => vocab.getD a [] ≤ vocab.getD b []
  (List.range vocab.length).map fun id => order.idxOf id

/-- The touched terms in dictionary order. -/
def sortedIds (b : Buffer) : List Nat :=
  let rank := stringRank b.vocab
  b.touchedIds.insertionSort fun a c => rank.getD a 0 ≤ rank.getD c 0

/-- A term's slot is free again. -/
def releaseTerm (b : Buffer) (termId : Nat) : Buffer :=
  let enc := b.slotOf.getD termId 0
  if enc = 0 then b
  else { b with slots := b.slots.set (enc - 1) {}, freeSlots := (enc - 1) :: b.freeSlots
                slotOf := b.slotOf.set termId 0, liveTermCount := b.liveTermCount - 1 }

/-- The term taken out of its slot. -/
def takeTerm (b : Buffer) (termId : Nat) : Term × Buffer :=
  (b.slots.getD (b.slotOf.getD termId 0 - 1) {}, releaseTerm b termId)

/-- Takes the terms out one by one, in the given order. -/
def takeTerms : Buffer → List Nat → List (Nat × Term) × Buffer
  | b, [] => ([], b)
  | b, id :: ids =>
      let (t, b) := takeTerm b id
      let (rest, b) := takeTerms b ids
      ((id, t) :: rest, b)

/-- Takes every term out, in dictionary order. -/
def drainSorted (plan : TermPostings → List Nat) (allowStream : Bool) (b : Buffer) :
    List Emitted × Buffer :=
  let (terms, b') := takeTerms b (sortedIds b)
  let out := terms.map fun e =>
    emitPostings b.pool e.2 plan
      (toPostings b.pool b.hasPositions (b.vocab.getD e.1 []) e.2 allowStream)
  (out, { b' with touchedIds := [], pool := {}, slots := [], freeSlots := [], slotOf := [] })

/-- Writes the taken terms while no write has failed. -/
def writeTerms (env : SpillEnv) (p : Pool) (hasPositions : Bool) (vocab : List Bytes) :
    List (Nat × Term) → Result Unit → RunWriter → Result Unit × RunWriter
  | [], st, w => (st, w)
  | _ :: terms, .error s, w => writeTerms env p hasPositions vocab terms (.error s) w
  | (id, t) :: terms, .ok (), w =>
      let (st, w) := w.writeTerm env id
        (toPostings p hasPositions (vocab.getD id []) t false)
      writeTerms env p hasPositions vocab terms st w

/-- The same into a run file. -/
def drainToWriter (env : SpillEnv) (b : Buffer) (w : RunWriter) :
    Result Unit × RunWriter × Buffer :=
  let (terms, b') := takeTerms b (sortedIds b)
  let (st, w) := writeTerms env b.pool b.hasPositions b.vocab terms (.ok ()) w
  (st, w, { b' with touchedIds := [], pool := {} })

/-- Flushes the resident terms to a new run. -/
def spillToRun (env : SpillEnv) (b : Buffer) : Result Unit × Buffer :=
  if env.hasSpace = false then (.error (.ioError "spimi: insufficient temp space"), b)
  else if env.opens = false then (.error (.ioError "run open"), b)
  else match drainToWriter env b {} with
    | (.error s, w, b) => (.error s, { b with runs := b.runs ++ [w.file] })
    | (.ok (), w, b) =>
        match w.close env with
        | (st, w) => (st, { b with runs := b.runs ++ [w.file] })

/-- What the buffer holds in memory: the arena and the slots. -/
def residentBytes (env : TokenEnv) (b : Buffer) : Nat :=
  b.pool.arenaBytes + env.slotCapacity * 4

/-- The two spill triggers: the budget, and the arena's offset limit. -/
def spillGate (env : TokenEnv) (b : Buffer) : Bool :=
  let overCap :=
    if b.hasReporter then env.overCap
    else b.spillThresholdBytes ≠ 0 && decide (b.spillThresholdBytes ≤ residentBytes env b)
  overCap || decide (kArenaSpillCap ≤ b.pool.arenaBytes)

/-- The token appended to its term's chain. -/
def appendTo (b : Buffer) (termId docid pos : Nat) : Option Buffer :=
  let (slot, newTerm, b) := termSlot b termId
  let b := if newTerm then { b with touchedIds := b.touchedIds ++ [termId]
                                    liveTermCount := b.liveTermCount + 1 } else b
  (appendToken b.hasPositions b.pool (b.slots.getD slot {}) docid pos).map fun r =>
    { b with pool := r.1, slots := b.slots.set slot r.2, totalTokens := b.totalTokens + 1 }

/-- The spill that follows a token when a trigger fires and no error is latched. -/
def maybeSpill (env : TokenEnv) (b : Buffer) : Buffer :=
  if spillGate env b && b.spillStatus.isNone then
    match spillToRun env.spill b with
    | (.ok (), b) => b
    | (.error s, b) => { b with spillStatus := some s }
  else b

/-- One token, and a spill where it is due. -/
def accumulate (env : TokenEnv) (b : Buffer) (termId docid pos : Nat) : Option Buffer :=
  (appendTo b termId docid pos).map (maybeSpill env)

/-- `spill_status_` keeps the first error. -/
def latch (b : Buffer) (s : Status) : Buffer :=
  { b with spillStatus := b.spillStatus.or (some s) }

/-- `add_token`. -/
def addToken (env : TokenEnv) (b : Buffer) (termId docid pos : Nat) : Option Buffer :=
  if termId ≥ b.slotOf.length then
    some (latch b (.invalidArgument "spimi: term_id out of vocab range"))
  else accumulate env b termId docid pos

/-- Adds a token by its string, interning a new one.  Its id is the number of strings so
far, which the source keeps in 32 bits; the two agree below 2³² strings. -/
def addTokenString (env : TokenEnv) (b : Buffer) (term : Bytes) (docid pos : Nat) :
    Option Buffer :=
  if b.ownedVocab = false then
    some (latch b (.invalidArgument "spimi: add_token(string_view) requires owned-vocab mode"))
  else if term ∈ b.vocab then accumulate env b (b.vocab.idxOf term) docid pos
  else accumulate env { b with vocab := b.vocab ++ [term], slotOf := b.slotOf ++ [0] }
    b.vocab.length docid pos

/-! ## The drains -/

/-- What the surroundings answer during a drain. -/
structure DrainEnv where
  spill : SpillEnv := {}
  readSize : Nat → Nat := fun _ => kReadChunkBytes

/-- Flushes what is resident and merges the runs. -/
def mergeAll (env : DrainEnv) (plan : TermPostings → List Nat) (allowStream : Bool) (b : Buffer) :
    Option (Result Unit × List Emitted × Buffer) :=
  let b := if b.touchedIds = [] then b else
    match spillToRun env.spill b with
    | (.ok (), b) => b
    | (.error s, b) => latch b s
  match b.spillStatus with
  | some s => some (.error s, [], b)
  | none =>
      let b := { b with slots := [], freeSlots := [], slotOf := [] }
      (mergeRuns { vocab := b.vocab, hasPositions := b.hasPositions, plan := plan
                   allowStream := allowStream } env.readSize b.runs).map
        fun r => (r.1, r.2, b)

/-- `for_each_term_sorted`: one merge, once. -/
def forEachTermSorted (env : DrainEnv) (plan : TermPostings → List Nat) (b : Buffer) :
    Option (Result Unit × List Emitted × Buffer) :=
  if b.drained then
    some (.error (.internal "spimi: already drained (single-drain contract)"), [], b)
  else
    let b := { b with drained := true }
    if b.runs = [] ∧ b.spillStatus = none then
      let (out, b) := drainSorted plan true b
      some (.ok (), out, b)
    else mergeAll env plan true b

/-- `finalize_sorted`: the terms as a vector, once. -/
def finalizeSorted (env : DrainEnv) (b : Buffer) : Option (List Emitted × Buffer) :=
  if b.drained then
    some ([], latch b (.internal "spimi: already drained (single-drain contract)"))
  else
    let b := { b with drained := true }
    if b.runs = [] ∧ b.spillStatus = none then some (drainSorted (fun _ => []) false b)
    else (mergeAll env (fun _ => []) false b).map fun r =>
      match r with
      | (.ok (), out, b) => (out, b)
      | (.error s, out, b) => (out, latch b s)

/-- One `add_token` call by id. -/
structure Token where
  termId : Nat
  docid : Nat
  pos : Nat
deriving DecidableEq

/-- A feed of tokens, each with what the surroundings answer. -/
def addTokens : Buffer → List (Token × TokenEnv) → Option Buffer
  | b, [] => some b
  | b, (t, env) :: feed => match addToken env b t.termId t.docid t.pos with
      | none => none
      | some b => addTokens b feed

end Snii.Writer.SpimiTermBuffer
