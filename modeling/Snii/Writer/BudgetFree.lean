import Snii.Lib.Agreement
import Snii.Writer.CompoundWriter
import Snii.Writer.IndexInvariant

/-!
# Bytes without the budget

The memory budget decides how a term's positions reach the writer (`pos_pump` or the
flat buffer) and where the dictionary is staged (memory or a temp file), and nothing
else.  Two terms with the same postings (`SameTerm`) become the same entry over the same
posting bytes, and two dictionary buffers that hold the same bytes stream the same
bytes, so two builds of one index agree on everything that reaches the container.
-/

namespace Snii.Writer.LogicalIndexWriter

open Snii.Lib.ByteReader Snii.Lib.Chunks Snii.Lib.Agreement Snii.Common
open Snii.Writer.SpillRunCodec Snii.Encoding.Compression Snii.Format.Dict Snii.Format.DictBlock
open Snii.Format.Bsbf

/-! ## Terms -/

/-- The number of positions a term announces. -/
def announcedPositions (tp : TermPostings) : Nat :=
  if tp.streamed then tp.posTotal else tp.positionsFlat.length

/-- The calls of a streamed term's pump: one for each window of a term that passed its
check, where positions are stored at all. -/
def pumpCalls (hasPrx : Bool) (tp : TermPostings) : List Nat :=
  if hasPrx ∧ (entryStats tp).df ≥ kSlimDfThreshold then
    match validateTerm hasPrx tp with
    | .ok () => (splitWindows tp.docids tp.freqs).map fun w => w.2.sum
    | .error _ => []
  else []

/-- The same postings, whichever way the positions come: a windowed entry takes them from
the pump or the flat buffer, a slim one always from the flat buffer. -/
structure SameTerm (hasPrx : Bool) (e e' : Emitted) : Prop where
  term : e.postings.term = e'.postings.term
  docids : e.postings.docids = e'.postings.docids
  freqs : e.postings.freqs = e'.postings.freqs
  count : announcedPositions e.postings = announcedPositions e'.postings
  positions : hasPrx = true → validateTerm hasPrx e.postings = .ok () →
    kSlimDfThreshold ≤ (entryStats e.postings).df → e.positions = e'.positions
  slim : (entryStats e.postings).df < kSlimDfThreshold →
    e.postings.positionsFlat = e'.postings.positionsFlat

section Terms

theorem SameTerm.refl (hasPrx : Bool) (e : Emitted) : SameTerm hasPrx e e :=
  ⟨rfl, rfl, rfl, rfl, fun _ _ _ => rfl, fun _ => rfl⟩

variable {z : Zstd} {c : EntryConfig} {hasPrx : Bool} {e e' : Emitted}

/-- Terms that agree are accepted or refused alike. -/
theorem SameTerm.validateTerm_eq (h : SameTerm hasPrx e e') :
    validateTerm hasPrx e.postings = validateTerm hasPrx e'.postings := by
  have hcount := h.count
  unfold announcedPositions at hcount
  rw [validateTerm, validateTerm, h.docids, h.freqs, hcount]

/-- A window within the announced positions reads them, from the pump or the buffer. -/
theorem windowPositions_of_le {posOff winPos : Nat}
    (hle : posOff + winPos ≤ announcedPositions e.postings) :
    windowPositions e posOff winPos = .ok ((e.positions.drop posOff).take winPos) := by
  unfold announcedPositions at hle
  rw [windowPositions, Emitted.positions]
  cases hs : e.postings.streamed with
  | true => rfl
  | false =>
      rw [hs] at hle
      exact if_neg (Nat.not_lt.mpr hle)

/-- A window takes the same positions of both. -/
theorem SameTerm.windowPositions_eq (h : SameTerm hasPrx e e')
    (hpositions : e.positions = e'.positions) {posOff winPos : Nat}
    (hle : posOff + winPos ≤ announcedPositions e.postings) :
    windowPositions e posOff winPos = windowPositions e' posOff winPos := by
  rw [windowPositions_of_le hle, windowPositions_of_le (h.count ▸ hle), hpositions]

theorem SameTerm.prxPass_eq (h : SameTerm c.hasPrx e e')
    (hpositions : c.hasPrx = true → e.positions = e'.positions)
    (windows : List (List Nat × List Nat)) {winBase posOff prxTotal : Nat}
    (hle : c.hasPrx = true →
      posOff + (windows.map fun w => w.2.sum).sum ≤ announcedPositions e.postings) :
    prxPass z c e winBase posOff prxTotal windows =
      prxPass z c e' winBase posOff prxTotal windows := by
  induction windows generalizing winBase posOff prxTotal with
  | nil => rfl
  | cons w rest ih =>
      obtain ⟨docs, freqs⟩ := w
      simp only [List.map_cons, List.sum_cons] at hle
      have hrest : ∀ winBase prxTotal,
          prxPass z c e winBase (posOff + freqs.sum) prxTotal rest =
            prxPass z c e' winBase (posOff + freqs.sum) prxTotal rest :=
        fun _ _ => ih fun hprx => by
          have := hle hprx
          omega
      rw [prxPass, prxPass]
      cases hprx : c.hasPrx with
      | false => simp only [Bool.false_eq_true, if_false, hrest]
      | true =>
          have hwindow := @SameTerm.windowPositions_eq _ e e' h (hpositions hprx) posOff
            freqs.sum (by
              have := hle hprx
              omega)
          simp only [if_true, hrest, hwindow]

/-- The windows of parallel docids and freqs hold all freqs. -/
theorem sum_splitWindows {docids freqs : List Nat} (hlen : freqs.length = docids.length) :
    ((splitWindows docids freqs).map fun w => w.2.sum).sum = freqs.sum := by
  have hunit : 0 < adaptiveWindowDocs (docids.length % 2 ^ 32) := by
    unfold adaptiveWindowDocs
    split <;> decide
  have hsnd : (splitWindows docids freqs).map Prod.snd =
      chunks (adaptiveWindowDocs (docids.length % 2 ^ 32)) freqs := by
    apply List.map_snd_zip
    rw [length_chunks, length_chunks, hlen]
  have hmap : (splitWindows docids freqs).map (fun w => w.2.sum) =
      (chunks (adaptiveWindowDocs (docids.length % 2 ^ 32)) freqs).map List.sum := by
    rw [← hsnd, List.map_map]
    rfl
  rw [hmap, ← List.sum_flatten, flatten_chunks hunit]

/-- What the check of a term guarantees. -/
theorem of_validateTerm {hasPrx : Bool} {tp : TermPostings} (h : validateTerm hasPrx tp = .ok ()) :
    tp.freqs.length = tp.docids.length ∧
      (hasPrx = true → tp.freqs.sum = announcedPositions tp) := by
  rw [validateTerm] at h
  by_cases hlen : tp.freqs.length = tp.docids.length
  · rw [if_neg (not_not_intro hlen)] at h
    refine ⟨hlen, fun hprx => ?_⟩
    by_contra hne
    rw [if_pos ⟨hprx, hne⟩] at h
    cases h
  · rw [if_pos hlen] at h
    cases h

/-- **One entry**: the same postings become the same entry over the same bytes. -/
theorem SameTerm.buildEntry_eq (h : SameTerm c.hasPrx e e')
    (hvalid : validateTerm c.hasPrx e.postings = .ok ()) (frqBase prxBase : Nat) :
    buildEntry z c e frqBase prxBase = buildEntry z c e' frqBase prxBase := by
  obtain ⟨hlen, hcount⟩ := of_validateTerm hvalid
  have hstats : entryStats e.postings = entryStats e'.postings := by
    rw [entryStats, entryStats, h.term, h.docids, h.freqs]
  rw [buildEntry, buildEntry, hstats]
  by_cases hwindowed : (entryStats e'.postings).df ≥ kSlimDfThreshold
  · have hpositions := fun hprx => h.positions hprx hvalid (by rw [hstats]; exact hwindowed)
    have hpass : prxPass z c e 0 0 0
        (splitWindows e'.postings.docids e'.postings.freqs) =
          prxPass z c e' 0 0 0
            (splitWindows e'.postings.docids e'.postings.freqs) := by
      apply h.prxPass_eq hpositions
      intro hprx
      rw [sum_splitWindows (by rw [← h.freqs, ← h.docids, hlen]), ← h.freqs, hcount hprx,
        Nat.zero_add]
    have hposting : buildWindowedPosting z c e = buildWindowedPosting z c e' := by
      rw [buildWindowedPosting, buildWindowedPosting, h.docids, h.freqs]
      simp only [hpass]
    rw [if_pos hwindowed, if_pos hwindowed, buildWindowedEntry, buildWindowedEntry, hposting]
  · have hslim : (entryStats e.postings).df < kSlimDfThreshold := by
      rw [hstats]
      exact Nat.not_le.mp hwindowed
    rw [if_neg hwindowed, if_neg hwindowed, buildSlimEntry, buildSlimEntry, makePrxWindow,
      makePrxWindow, h.docids, h.freqs, h.slim hslim]

end Terms

/-! ## Builds -/

/-- Two states of the writer that differ in where the dictionary is staged. -/
structure SameState (st st' : WriterState) : Prop where
  dict : ∃ bytes, st.dictBuf.Holds bytes ∧ st'.dictBuf.Holds bytes
  rest : st' = { st with dictBuf := st'.dictBuf }

def TermSource.status : TermSource → Result Unit
  | .terms _ => .ok ()
  | .drained status _ => status

/-- Sources that report the same and deliver the same terms. -/
structure SameSource (hasPrx : Bool) (s s' : TermSource) : Prop where
  status : s.status = s'.status
  terms : List.Forall₂ (SameTerm hasPrx) s.list s'.list

theorem SameSource.refl (hasPrx : Bool) (s : TermSource) : SameSource hasPrx s s :=
  ⟨rfl, List.forall₂_same.mpr fun e _ => SameTerm.refl hasPrx e⟩

/-- Two built indexes that differ in their sources and in where the dictionary is. -/
structure SameBuilt (w w' : BuiltIndex) : Prop where
  input : w'.input = { w.input with source := w'.input.source }
  dict : w.dictBuf.streamInto = w'.dictBuf.streamInto
  rest : w' = { w with input := w'.input, dictBuf := w'.dictBuf }

section Builds

variable {env : BuildEnv} {i : SniiIndexInput} {st st' : WriterState} {source : TermSource}
  {overCap : Nat → Bool}

/-- A block is cut alike under any budget. -/
theorem SameState.flushBlock (h : SameState st st') (block : DictBlockBuilder) (firstTerm : Bytes) :
    SameState (flushBlock env block firstTerm st)
      (flushBlock { env with overCap := overCap } block firstTerm st') := by
  obtain ⟨⟨bytes, hdict, hdict'⟩, hrest⟩ := h
  have hsize : st'.dictBuf.size = st.dictBuf.size := by rw [hdict.size, hdict'.size]
  have hblocks : st'.blocks = st.blocks := by rw [hrest]
  refine ⟨⟨bytes ++ (packBlock env.zstd block.finish).1, hdict.appendMove _ _,
    hdict'.appendMove _ _⟩, ?_⟩
  rw [LogicalIndexWriter.flushBlock, LogicalIndexWriter.flushBlock, hsize, hblocks]
  rw [hrest]

theorem SameState.closed (h : SameState st st') :
    SameState { st with block := none } { st' with block := none } :=
  ⟨h.dict, by rw [h.rest]⟩

/-- An entry is added alike. -/
theorem SameState.addToBlock (h : SameState st st') (block : DictBlockBuilder) (firstTerm : Bytes)
    (e : DictEntry) : SameState (addToBlock env i block firstTerm e st)
      (addToBlock { env with overCap := overCap } { i with source := source } block firstTerm e
        st') := by
  have htarget : SniiIndexInput.target { i with source := source } = i.target := rfl
  rw [LogicalIndexWriter.addToBlock, LogicalIndexWriter.addToBlock, htarget]
  by_cases hfull : (block.addEntry e).estimatedBytes ≥ i.target
  · simp only [if_pos hfull]
    exact (h.flushBlock (block.addEntry e) firstTerm).closed
  · simp only [if_neg hfull]
    exact ⟨h.dict, by rw [h.rest]⟩

theorem SameState.openBlockAt (h : SameState st st') (term : Bytes) (base : Nat) :
    openBlockAt { i with source := source } term base st' = openBlockAt i term base st := by
  rw [h.rest]
  rfl

/-- The counters of `process_term`. -/
theorem SameState.counted (h : SameState st st') (hash freqs : Nat) :
    SameState
      { st with
        termHashes := st.termHashes ++ [hash], termCount := st.termCount + 1
        sumTotalTermFreq := (st.sumTotalTermFreq + freqs) % 2 ^ 64 }
      { st' with
        termHashes := st'.termHashes ++ [hash], termCount := st'.termCount + 1
        sumTotalTermFreq := (st'.sumTotalTermFreq + freqs) % 2 ^ 64 } :=
  ⟨h.dict, by rw [h.rest]⟩

/-- **One term** leaves the same bytes and the same block. -/
theorem processTerm_agrees (h : SameState st st') {e e' : Emitted}
    (he : SameTerm i.hasPrx e e') :
    Agrees SameState (processTerm env i st e)
      (processTerm { env with overCap := overCap } { i with source := source } st' e') := by
  have hprx : SniiIndexInput.hasPrx { i with source := source } = i.hasPrx := rfl
  have hconfig : SniiIndexInput.entryConfig { i with source := source } = i.entryConfig := rfl
  have hcounted := h.counted (bsbfHash env.bsbf e.postings.term) e.postings.freqs.sum
  unfold processTerm
  rw [hprx, hconfig, ← he.validateTerm_eq, ← he.freqs, ← he.term]
  cases hvalid : validateTerm i.hasPrx e.postings with
  | error s => exact Agrees.throw s
  | ok u =>
      have hentry := @SameTerm.buildEntry_eq env.zstd i.entryConfig e e' he hvalid
      apply (Agrees.refl (check (.ok u))).bind
      rintro _ _ rfl
      apply (Agrees.refl postingSize).bind
      rintro base _ rfl
      have hopen := @SameState.openBlockAt i _ _ source hcounted e.postings.term base
      simp only at hopen ⊢
      rw [hopen]
      simp only [hentry]
      apply (Agrees.refl (buildEntry _ _ _ _ _)).bind
      rintro entry _ rfl
      exact Agrees.pure (hcounted.addToBlock _ _ entry)

/-- **The terms** one by one. -/
theorem processTerms_agrees {es es' : List Emitted}
    (hes : List.Forall₂ (SameTerm i.hasPrx) es es')
    (h : SameState st st') :
    Agrees SameState (processTerms env i st es)
      (processTerms { env with overCap := overCap } { i with source := source } st' es') := by
  induction hes generalizing st st' with
  | nil => exact Agrees.pure h
  | cons he _ ih => exact (processTerm_agrees h he).bind fun _ _ hst => ih hst

/-- The status of the drain decides alike. -/
theorem afterDrain_agrees {α α' : Type} {R : α → α' → Prop} {p : Posting α} {q : Posting α'}
    (h : Agrees R p q) (status : Result Unit) :
    Agrees R (afterDrain status p) (afterDrain status q) := by
  intro region
  have hs := h region
  unfold afterDrain
  generalize p region = r at hs ⊢
  generalize q region = r' at hs ⊢
  cases status with
  | ok u => exact hs
  | error e =>
      cases hs with
      | ok _ s => exact .error e s
      | error _ s => exact .error e s

/-- Consuming is processing the terms, then the drain's status. -/
theorem consumeTerms_eq (env : BuildEnv) (i : SniiIndexInput) :
    consumeTerms env i = afterDrain i.source.status (processTerms env i {} i.source.list) := by
  unfold consumeTerms
  cases i.source with
  | terms ts => rfl
  | drained status ts => rfl

/-- **The blocks agree** under any two budgets. -/
theorem buildBlocks_agrees (h : SameSource i.hasPrx i.source source) :
    Agrees SameState (buildBlocks env i)
      (buildBlocks { env with overCap := overCap } { i with source := source }) := by
  have hempty : SameState {} {} := ⟨⟨[], SpillableByteBuffer.holds_empty,
    SpillableByteBuffer.holds_empty⟩, rfl⟩
  unfold buildBlocks
  rw [consumeTerms_eq, consumeTerms_eq, ← h.status]
  apply (afterDrain_agrees (processTerms_agrees h.terms hempty) _).bind
  intro st st' hst
  apply Agrees.pure
  have hblock : st'.block = st.block := by rw [hst.rest]
  have hfirst : st'.blockFirstTerm = st.blockFirstTerm := by rw [hst.rest]
  rw [flushOpen, flushOpen, hblock, hfirst]
  cases st.block with
  | none => exact hst
  | some block =>
      exact (hst.flushBlock block st.blockFirstTerm).closed

/-- **A build** of the same postings leaves the same posting bytes, the same dictionary
bytes and the same sections. -/
theorem build_agrees (h : SameSource i.hasPrx i.source source) :
    Agrees SameBuilt (build env i)
      (build { env with overCap := overCap } { i with source := source }) := by
  have hnorms : SniiIndexInput.hasNorms { i with source := source } = i.hasNorms := rfl
  unfold build
  rw [hnorms]
  by_cases hcount : i.hasNorms = true ∧ i.encodedNorms.length ≠ i.docCount
  · simp only [if_pos hcount]
    exact fun region => .error _ region
  · simp only [if_neg hcount]
    apply (buildBlocks_agrees h).bind
    intro st st' hst
    have hhashes : st'.termHashes = st.termHashes := by rw [hst.rest]
    rw [hhashes]
    apply (Agrees.refl (check (buildBsbf env.bsbf st.termHashes))).bind
    rintro bsbf _ rfl
    obtain ⟨⟨bytes, hdict, hdict'⟩, hrest⟩ := hst
    refine Agrees.pure ⟨rfl, hdict.streamInto.trans hdict'.streamInto.symm, ?_⟩
    rw [hrest]

end Builds

end Snii.Writer.LogicalIndexWriter

namespace Snii.Writer.CompoundWriter

open Snii.Lib.ByteReader Snii.Lib.Agreement Snii.Common
open Snii.Format.TailMeta (MetaEntry)
open Snii.Writer.LogicalIndexWriter

/-! ## Containers -/

/-- Two calls for one index: the same terms, under any two answers of the reporter. -/
structure SameCall (a a' : AddCall) : Prop where
  input : a'.input = { a.input with source := a'.input.source }
  source : SameSource a.input.hasPrx a.input.source a'.input.source

theorem SameCall.refl (a : AddCall) : SameCall a a := ⟨rfl, SameSource.refl _ _⟩

/-- An index of each container, at one place. -/
structure SameIndexed (x x' : BuiltIndex × Placement) : Prop where
  built : SameBuilt x.1 x'.1
  place : x'.2 = x.2

/-- Two writers with the same output so far. -/
structure SameWriter (c c' : SniiCompoundWriter) : Prop where
  out : c'.out = c.out
  bootstrapWritten : c'.bootstrapWritten = c.bootstrapWritten
  finished : c'.finished = c.finished
  indexes : List.Forall₂ SameIndexed c.indexes c'.indexes

section Containers

variable {env : BuildEnv} {a a' : AddCall} {c c' : SniiCompoundWriter}

/-- Both containers start alike. -/
theorem SameWriter.ensureBootstrap (h : SameWriter c c') :
    SameWriter (ensureBootstrap c) (ensureBootstrap c') := by
  rw [CompoundWriter.ensureBootstrap, CompoundWriter.ensureBootstrap, h.bootstrapWritten]
  by_cases hw : c.bootstrapWritten = true
  · rw [if_pos hw, if_pos hw]
    exact h
  · rw [if_neg hw, if_neg hw]
    exact ⟨congrArg (· ++ _) h.out, rfl, h.finished, h.indexes⟩

/-- **The builds agree.** -/
theorem SameCall.build (h : SameCall a a') :
    Alike SameBuilt (build (a.env env) a.input []) (build (a'.env env) a'.input []) := by
  rw [h.input]
  exact build_agrees h.source []

/-- **One call** reports the same and appends the same bytes. -/
theorem SameWriter.addLogicalIndex (h : SameWriter c c') (ha : SameCall a a') :
    (addLogicalIndex env a' c').1 = (addLogicalIndex env a c).1 ∧
      SameWriter (addLogicalIndex env a c).2 (addLogicalIndex env a' c').2 := by
  rw [CompoundWriter.addLogicalIndex, CompoundWriter.addLogicalIndex, h.finished]
  by_cases hf : c.finished = true
  · rw [if_pos hf, if_pos hf]
    exact ⟨rfl, h⟩
  · rw [if_neg hf, if_neg hf]
    have hb := h.ensureBootstrap
    have hbuild : Alike SameBuilt (LogicalIndexWriter.build (a.env env) a.input [])
        (LogicalIndexWriter.build (a'.env env) a'.input []) := ha.build
    simp only
    generalize CompoundWriter.ensureBootstrap c = d at hb ⊢
    generalize CompoundWriter.ensureBootstrap c' = d' at hb ⊢
    generalize LogicalIndexWriter.build (a.env env) a.input [] = r at hbuild ⊢
    generalize LogicalIndexWriter.build (a'.env env) a'.input [] = r' at hbuild ⊢
    cases hbuild with
    | error e region =>
        exact ⟨rfl, congrArg (· ++ region) hb.out, hb.bootstrapWritten, hb.finished, hb.indexes⟩
    | ok hw region =>
        rename_i w w'
        simp only
        rw [hb.out, ← hw.dict]
        refine ⟨trivial, rfl, hb.bootstrapWritten, hb.finished, ?_⟩
        exact List.rel_append hb.indexes (.cons ⟨hw, rfl⟩ .nil)

/-- **All calls** report the same and append the same bytes. -/
theorem SameWriter.addAll {adds adds' : List AddCall} (hadds : List.Forall₂ SameCall adds adds')
    (h : SameWriter c c') :
    (addAll env c' adds').1 = (addAll env c adds).1 ∧
      SameWriter (addAll env c adds).2 (addAll env c' adds').2 := by
  induction hadds generalizing c c' with
  | nil => exact ⟨rfl, h⟩
  | cons ha _ ih =>
      obtain ⟨hstatus, hnext⟩ := @SameWriter.addLogicalIndex env _ _ _ _ h ha
      obtain ⟨hrest, hlast⟩ := ih hnext
      exact ⟨congrArg₂ List.cons hstatus hrest, hlast⟩

/-- A pass over the indexes that reads nothing of their sources or buffers. -/
theorem writeSections_same {skip : BuiltIndex → Bool} {bytes : BuiltIndex → Bytes}
    {place : Placement → Nat → Nat → Placement}
    (hskip : ∀ w w', SameBuilt w w' → skip w' = skip w)
    (hbytes : ∀ w w', SameBuilt w w' → bytes w' = bytes w) {xs xs' : List (BuiltIndex × Placement)}
    (h : List.Forall₂ SameIndexed xs xs') (out : Bytes) :
    (writeSections skip bytes place out xs').1 = (writeSections skip bytes place out xs).1 ∧
      List.Forall₂ SameIndexed (writeSections skip bytes place out xs).2
        (writeSections skip bytes place out xs').2 := by
  induction h generalizing out with
  | nil => exact ⟨rfl, .nil⟩
  | @cons x x' xs xs' hx _ ih =>
      obtain ⟨w, p⟩ := x
      obtain ⟨w', p'⟩ := x'
      obtain ⟨hw, hp⟩ := hx
      simp only at hw hp
      subst hp
      rw [writeSections, writeSections, hskip w w' hw, hbytes w w' hw]
      by_cases hs : skip w = true
      · obtain ⟨hout, hrest⟩ := ih out
        rw [if_pos hs, if_pos hs]
        exact ⟨hout, .cons ⟨hw, rfl⟩ hrest⟩
      · obtain ⟨hout, hrest⟩ := ih (out ++ bytes w)
        rw [if_neg hs, if_neg hs]
        exact ⟨hout, .cons ⟨hw, rfl⟩ hrest⟩

theorem writeNormsPods_same {xs xs' : List (BuiltIndex × Placement)}
    (h : List.Forall₂ SameIndexed xs xs') (out : Bytes) :
    (writeNormsPods out xs').1 = (writeNormsPods out xs).1 ∧
      List.Forall₂ SameIndexed (writeNormsPods out xs).2 (writeNormsPods out xs').2 := by
  apply writeSections_same _ _ h out
  · intro w w' hw
    rw [hw.rest, hw.input]
    rfl
  · intro w w' hw
    rw [hw.rest]

theorem writeBsbfs_same {xs xs' : List (BuiltIndex × Placement)}
    (h : List.Forall₂ SameIndexed xs xs') (out : Bytes) :
    (writeBsbfs out xs').1 = (writeBsbfs out xs).1 ∧
      List.Forall₂ SameIndexed (writeBsbfs out xs).2 (writeBsbfs out xs').2 := by
  apply writeSections_same _ _ h out
  · intro w w' hw
    rw [hw.rest]
    rfl
  · intro w w' hw
    rw [hw.rest]

/-- Both passes append the same sections. -/
theorem writeNorms_same {xs xs' : List (BuiltIndex × Placement)}
    (h : List.Forall₂ SameIndexed xs xs') (out : Bytes) :
    (writeNorms out xs').1 = (writeNorms out xs).1 ∧
      List.Forall₂ SameIndexed (writeNorms out xs).2 (writeNorms out xs').2 := by
  obtain ⟨hout, hpods⟩ := writeNormsPods_same h out
  rw [writeNorms, writeNorms]
  simp only
  rw [hout]
  exact writeBsbfs_same hpods _

theorem SameIndexed.metaEntry {x x' : BuiltIndex × Placement} (h : SameIndexed x x') :
    metaEntry x' = metaEntry x := by
  obtain ⟨hw, hp⟩ := h
  rw [CompoundWriter.metaEntry, CompoundWriter.metaEntry, hp, hw.rest, hw.input]
  rfl

/-- **Finishing** appends the same bytes. -/
theorem SameWriter.finish (h : SameWriter c c') :
    (finish c').1 = (finish c).1 ∧ (finish c').2.out = (finish c).2.out := by
  rw [CompoundWriter.finish, CompoundWriter.finish, h.finished]
  by_cases hf : c.finished = true
  · rw [if_pos hf, if_pos hf]
    exact ⟨rfl, h.out⟩
  · rw [if_neg hf, if_neg hf]
    have hb : SameWriter (CompoundWriter.ensureBootstrap { c with finished := true })
        (CompoundWriter.ensureBootstrap { c' with finished := true }) :=
      SameWriter.ensureBootstrap ⟨h.out, h.bootstrapWritten, rfl, h.indexes⟩
    generalize CompoundWriter.ensureBootstrap { c with finished := true } = d at hb ⊢
    generalize CompoundWriter.ensureBootstrap { c' with finished := true } = d' at hb ⊢
    obtain ⟨hout, hindexes⟩ := writeNorms_same hb.indexes d.out
    have hentries : (writeNorms d.out d'.indexes).2.map metaEntry =
        (writeNorms d.out d.indexes).2.map metaEntry := by
      have hall := List.forall₂_map_left_iff.mpr (List.forall₂_map_right_iff.mpr
        (hindexes.imp fun _ _ hx => hx.metaEntry.symm))
      exact (List.forall₂_eq_eq_eq ▸ hall).symm
    have htail : writeTail (writeNorms d.out d'.indexes).1 (writeNorms d.out d'.indexes).2 =
        writeTail (writeNorms d.out d.indexes).1 (writeNorms d.out d.indexes).2 := by
      rw [writeTail, writeTail, hentries, hout]
    simp only [hb.out]
    rw [htail]
    cases writeTail (writeNorms d.out d.indexes).1 (writeNorms d.out d.indexes).2 with
    | error e => exact ⟨rfl, hout⟩
    | ok out => exact ⟨rfl, rfl⟩

/-- **Two sessions** over the same postings report the same and leave the same file. -/
theorem sessions_same {adds adds' : List AddCall} (h : List.Forall₂ SameCall adds adds') :
    (addAll env {} adds').1 = (addAll env {} adds).1 ∧
      (addAll env {} adds').2.out = (addAll env {} adds).2.out ∧
      (finish (addAll env {} adds').2).1 = (finish (addAll env {} adds).2).1 ∧
      (finish (addAll env {} adds').2).2.out = (finish (addAll env {} adds).2).2.out := by
  have hstart : SameWriter {} {} := ⟨rfl, rfl, rfl, .nil⟩
  obtain ⟨hstatus, hsame⟩ := @SameWriter.addAll env _ _ _ _ h hstart
  exact ⟨hstatus, hsame.out, hsame.finish⟩

end Containers

end Snii.Writer.CompoundWriter
