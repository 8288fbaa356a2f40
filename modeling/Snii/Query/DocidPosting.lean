import Snii.Lib.Aligned
import Snii.Reader.PostingRoundTrip

/-!
# Reading docids in batches

`docid_posting_reader.cpp`: the docid-only path over the three encodings.  A batch
plans every posting first: inline ones are decoded on the spot, the preludes of the
windowed ones are fetched in one round and the docid regions of all of them in a
second one, and the results are written back at the index of their posting.
-/

namespace Snii.Query.DocidPosting

open Snii.Lib.ByteReader Snii.Lib.Aligned Snii.Common Snii.Io.FileReader Snii.Io.BatchRangeFetcher
open Snii.Reader
open Snii.Encoding.Compression Snii.Format.Dict
open Snii.Format.DictBlock (Resolved)
open Snii.Format.FrqPod (FrqRegionMeta decodeDdRegion ddPlain)
open Snii.Format.FrqPrelude (WindowMeta FrqPreludeReader readerOf)
open Snii.Writer.SpillRunCodec Snii.Writer.LogicalIndexWriter

/-- The docids of an entry with one window, whose base is `0`. -/
def decodeFlatDocs (z : Zstd) (e : DictEntry) (ddRegion : Bytes) : Result (List Nat) :=
  decodeDdRegion z ddRegion e.ddMeta 0

/-- The docids of an inline entry. -/
def decodeInlineDocs (z : Zstd) (e : DictEntry) : Result (List Nat) :=
  if e.ddMeta.diskLen > e.frqBytes.length then
    .error (.corruption "docid_posting_reader: inline dd region exceeds frq bytes")
  else decodeFlatDocs z e (e.frqBytes.take e.ddMeta.diskLen)

/-- The bytes of the docid region; an entry that states none is read whole. -/
def slimDocsFetchLen (e : DictEntry) (winLen : Nat) : Result Nat :=
  if e.frqDocsLen > winLen then
    .error (.corruption "docid_posting_reader: slim frq_docs_len exceeds frq window")
  else .ok (if e.frqDocsLen > 0 then e.frqDocsLen else winLen)

/-- The prelude must be there and lie inside the entry. -/
def validateWindowedPrelude (e : DictEntry) : Result Unit :=
  if e.preludeLen = 0 then
    .error (.corruption "docid_posting_reader: windowed entry has no prelude")
  else if e.preludeLen > e.frqLen then
    .error (.corruption "docid_posting_reader: prelude_len exceeds frq_len")
  else .ok ()

/-! ## Planning -/

/-- What the first loop leaves: the output with the inline postings decoded, and the
other postings with their indexes. -/
structure Plans where
  docids : List (List Nat)
  flat : List (Nat × Resolved) := []
  window : List (Nat × Resolved) := []

/-- Decodes the inline postings and sorts the others by their kind. -/
def planPostings (z : Zstd) : Nat → List Resolved → Plans → Result Plans
  | _, [], plans => .ok plans
  | i, r :: rs, plans =>
      if r.entry.kind = .inline then do
        let docs ← decodeInlineDocs z r.entry
        planPostings z (i + 1) rs { plans with docids := plans.docids.set i docs }
      else if r.entry.enc = .windowed then do
        validateWindowedPrelude r.entry
        planPostings z (i + 1) rs { plans with window := plans.window ++ [(i, r)] }
      else planPostings z (i + 1) rs { plans with flat := plans.flat ++ [(i, r)] }

/-- The range of a windowed entry's prelude. -/
def preludeRange (idx : LogicalIndexReader) (r : Resolved) : Range :=
  ⟨preludeAbs idx r.entry r.frqBase, r.entry.preludeLen⟩

/-- `open_window_preludes`, from a handle on. -/
def openWindowPreludes (fetched : Fetched) : Nat → List (Nat × Resolved) →
    Result (List FrqPreludeReader)
  | _, [] => .ok []
  | h, _ :: plans => do
      let bytes ← fetched.get h
      let prelude ← FrqPreludeReader.open bytes
      let rest ← openWindowPreludes fetched (h + 1) plans
      pure (prelude :: rest)

/-- The docid region of a slim posting. -/
def planFlatDocs (idx : LogicalIndexReader) (r : Resolved) : Result Range := do
  let (winAbs, winLen) ← resolveFrqWindow idx r.entry r.frqBase
  let docsLen ← slimDocsFetchLen r.entry winLen
  pure ⟨winAbs, docsLen⟩

/-- The windows of a posting with the ranges of their docid regions. -/
def planWindowDocs (idx : LogicalIndexReader) (r : Resolved) (prelude : FrqPreludeReader) :
    Result (List (WindowMeta × Range)) :=
  (List.range prelude.windows.length).mapM fun w => do
    let range ← windowedWindowRange idx r prelude w false false
    let m ← prelude.window w
    pure (m, range.dd)

/-! ## Decoding -/

/-- The flat plans, whose handles are counted from `h`. -/
def decodeFlatPlans (z : Zstd) (fetched : Fetched) : Nat → List (Nat × Resolved) →
    List (List Nat) → Result (List (List Nat))
  | _, [], out => .ok out
  | h, (i, r) :: plans, out => do
      let bytes ← fetched.get h
      let docs ← decodeFlatDocs z r.entry bytes
      decodeFlatPlans z fetched (h + 1) plans (out.set i docs)

/-- `decode_window_plan`, from a handle on. -/
def decodeWindowPlan (z : Zstd) (fetched : Fetched) : Nat → List WindowMeta → Result (List Nat)
  | _, [] => .ok []
  | h, m :: ms => do
      let bytes ← fetched.get h
      let window ← decodeWindowSlices z m bytes [] [] false false
      let rest ← decodeWindowPlan z fetched (h + 1) ms
      pure (window.docids ++ rest)

/-- The windowed postings, from the batch in which they were read. -/
def decodeWindowPlans (z : Zstd) (fetched : Fetched) : Nat → List (Nat × List WindowMeta) →
    List (List Nat) → Result (List (List Nat))
  | _, [], out => .ok out
  | h, (i, ms) :: plans, out => do
      let docs ← decodeWindowPlan z fetched h ms
      decodeWindowPlans z fetched (h + ms.length) plans (out.set i docs)

/-- A round with nothing to fetch reads nothing. -/
def readDocidPostingsBatched (z : Zstd) (idx : LogicalIndexReader) (postings : List Resolved) :
    Result (List (List Nat)) := do
  let plans ← planPostings z 0 postings { docids := List.replicate postings.length [] }
  let preludeFetch ← fetch idx.file 0 (plans.window.map fun x => preludeRange idx x.2)
  let preludes ← openWindowPreludes preludeFetch 0 plans.window
  let flat ← plans.flat.mapM fun x => planFlatDocs idx x.2
  let windows ← (plans.window.zip preludes).mapM fun x => planWindowDocs idx x.1.2 x.2
  let docsFetch ← fetch idx.file 0 (flat ++ windows.flatten.map Prod.snd)
  let out ← decodeFlatPlans z docsFetch 0 plans.flat plans.docids
  decodeWindowPlans z docsFetch flat.length
    ((plans.window.map Prod.fst).zip (windows.map fun ws => ws.map Prod.fst)) out

/-- `read_docid_posting`: a batch of one. -/
def readDocidPosting (z : Zstd) (idx : LogicalIndexReader) (r : Resolved) : Result (List Nat) := do
  let batched ← readDocidPostingsBatched z idx [r]
  match batched with
  | docs :: _ => pure docs
  | [] => .error .outOfBounds

/-! ## What a posting holds -/

variable {z : Zstd} {idx : LogicalIndexReader}

/-- One window: its row, where its docid region stands, and its documents. -/
structure WindowDocs where
  row : WindowMeta
  range : Range
  bytes : Bytes
  docs : List Nat

/-- The range holds these bytes, which decode to these documents. -/
structure WindowDocs.Ok (z : Zstd) (idx : LogicalIndexReader) (w : WindowDocs) : Prop where
  here : At idx.file w.range.offset w.bytes
  len : w.range.len = w.bytes.length
  decoded : ∃ d, decodeWindowSlices z w.row w.bytes [] [] false false = .ok d ∧ d.docids = w.docs

/-- A posting with one docid region in the file. -/
structure FlatAt (z : Zstd) (idx : LogicalIndexReader) (r : Resolved) (range : Range)
    (bytes : Bytes) (docs : List Nat) : Prop where
  kind : r.entry.kind ≠ .inline
  enc : r.entry.enc ≠ .windowed
  plan : planFlatDocs idx r = .ok range
  here : At idx.file range.offset bytes
  len : range.len = bytes.length
  decoded : decodeFlatDocs z r.entry bytes = .ok docs

/-- A posting with a prelude and a docid region for every window. -/
structure WindowsAt (z : Zstd) (idx : LogicalIndexReader) (r : Resolved) (bytes : Bytes)
    (prelude : FrqPreludeReader) (windows : List WindowDocs) : Prop where
  kind : r.entry.kind ≠ .inline
  enc : r.entry.enc = .windowed
  valid : validateWindowedPrelude r.entry = .ok ()
  here : At idx.file (preludeRange idx r).offset bytes
  len : (preludeRange idx r).len = bytes.length
  opens : FrqPreludeReader.open bytes = .ok prelude
  plan : planWindowDocs idx r prelude = .ok (windows.map fun w => (w.row, w.range))
  each : ∀ w ∈ windows, w.Ok z idx

/-- The documents of a posting, wherever its encoding keeps them. -/
inductive DocsAt (z : Zstd) (idx : LogicalIndexReader) (r : Resolved) (docs : List Nat) : Prop
  | inline (kind : r.entry.kind = .inline) (decoded : decodeInlineDocs z r.entry = .ok docs)
  | flat (range : Range) (bytes : Bytes) (place : FlatAt z idx r range bytes docs)
  | windowed (bytes : Bytes) (prelude : FrqPreludeReader) (windows : List WindowDocs)
      (place : WindowsAt z idx r bytes prelude windows) (docs_eq : docs = windows.flatMap (·.docs))

/-! ## The plans of a batch -/

/-- A slim posting with what is read for it. -/
structure FlatItem where
  outIndex : Nat
  posting : Resolved
  range : Range
  bytes : Bytes
  docs : List Nat

/-- A windowed posting with what is read for it. -/
structure WindowItem where
  outIndex : Nat
  posting : Resolved
  bytes : Bytes
  prelude : FrqPreludeReader
  windows : List WindowDocs

/-- The reads return what the item says. -/
def FlatItem.Ok (z : Zstd) (idx : LogicalIndexReader) (x : FlatItem) : Prop :=
  FlatAt z idx x.posting x.range x.bytes x.docs

/-- The reads return what the item says. -/
def WindowItem.Ok (z : Zstd) (idx : LogicalIndexReader) (x : WindowItem) : Prop :=
  WindowsAt z idx x.posting x.bytes x.prelude x.windows

/-- The item as planned. -/
def FlatItem.plan (x : FlatItem) : Nat × Resolved := (x.outIndex, x.posting)

/-- The item as planned. -/
def WindowItem.plan (x : WindowItem) : Nat × Resolved := (x.outIndex, x.posting)

/-- The result it stores. -/
def FlatItem.write (x : FlatItem) : Nat × List Nat := (x.outIndex, x.docs)

/-- The result it stores. -/
def WindowItem.write (x : WindowItem) : Nat × List Nat :=
  (x.outIndex, x.windows.flatMap (·.docs))

/-- The first loop's outcome over postings with known documents: which results are
written at once and which come from the two kinds of plans. -/
structure Planned (z : Zstd) (idx : LogicalIndexReader) (i : Nat) (docs : List (List Nat))
    (inline : List (Nat × List Nat)) (flat : List FlatItem) (window : List WindowItem) : Prop where
  flatOk : ∀ x ∈ flat, x.Ok z idx
  windowOk : ∀ x ∈ window, x.Ok z idx
  agree : ∀ w ∈ inline ++ flat.map FlatItem.write ++ window.map WindowItem.write,
    i ≤ w.1 ∧ docs[w.1 - i]? = some w.2
  reach : ∀ k, k < docs.length →
    ∃ w ∈ inline ++ flat.map FlatItem.write ++ window.map WindowItem.write, w.1 = i + k

/-- A posting more in front: its own write, and the later ones one index on. -/
theorem Planned.cons {i : Nat} {ds : List Nat} {docs : List (List Nat)}
    {inline : List (Nat × List Nat)} {flat : List FlatItem} {window : List WindowItem}
    (h : Planned z idx (i + 1) docs inline flat window)
    (inline' : List (Nat × List Nat)) (flat' : List FlatItem) (window' : List WindowItem)
    (hflat : ∀ x ∈ flat', x.Ok z idx) (hwindow : ∀ x ∈ window', x.Ok z idx)
    (hwrites : inline' ++ flat'.map FlatItem.write ++ window'.map WindowItem.write = [(i, ds)]) :
    Planned z idx i (ds :: docs) (inline' ++ inline) (flat' ++ flat) (window' ++ window) := by
  have hmem : ∀ w, w ∈ (inline' ++ inline) ++ (flat' ++ flat).map FlatItem.write ++
      (window' ++ window).map WindowItem.write ↔ w = (i, ds) ∨
        w ∈ inline ++ flat.map FlatItem.write ++ window.map WindowItem.write := by
    intro w
    have hnew : w ∈ inline' ++ flat'.map FlatItem.write ++ window'.map WindowItem.write ↔
        w = (i, ds) := by rw [hwrites, List.mem_singleton]
    simp only [List.map_append, List.mem_append] at hnew ⊢
    rw [← hnew]
    tauto
  constructor
  · intro x hx
    exact (List.mem_append.mp hx).elim (hflat x) (h.flatOk x)
  · intro x hx
    exact (List.mem_append.mp hx).elim (hwindow x) (h.windowOk x)
  · intro w hw
    cases (hmem w).mp hw with
    | inl hnew => simp [hnew]
    | inr hold =>
        have hagree := h.agree w hold
        refine ⟨by omega, ?_⟩
        rw [show w.1 - i = (w.1 - (i + 1)) + 1 by omega, List.getElem?_cons_succ]
        exact hagree.2
  · intro k hk
    cases k with
    | zero => exact ⟨(i, ds), (hmem _).mpr (.inl rfl), rfl⟩
    | succ k =>
        obtain ⟨w, hw, heq⟩ := h.reach k (by simpa using hk)
        exact ⟨w, (hmem w).mpr (.inr hw), by omega⟩

/-- **The first loop** over postings with known documents. -/
theorem planPostings_ok {rs : List Resolved} {docs : List (List Nat)}
    (h : List.Forall₂ (DocsAt z idx) rs docs) (i : Nat) (plans : Plans) :
    ∃ inline flat window, Planned z idx i docs inline flat window ∧
      planPostings z i rs plans =
        .ok { docids := scatter plans.docids inline
              flat := plans.flat ++ flat.map FlatItem.plan
              window := plans.window ++ window.map WindowItem.plan } := by
  induction h generalizing i plans with
  | nil => exact ⟨[], [], [], ⟨by simp, by simp, by simp, by simp⟩, by simp [planPostings]⟩
  | @cons r ds rs docs hr hrest ih =>
      cases hr with
      | inline kind decoded =>
          obtain ⟨inline, flat, window, hplanned, hrun⟩ :=
            ih (i + 1) { plans with docids := plans.docids.set i ds }
          refine ⟨(i, ds) :: inline, flat, window,
            hplanned.cons [(i, ds)] [] [] (by simp) (by simp) rfl, ?_⟩
          rw [planPostings, if_pos kind, decoded, ok_bind, hrun]
          rfl
      | flat range bytes place =>
          obtain ⟨inline, flat, window, hplanned, hrun⟩ :=
            ih (i + 1) { plans with flat := plans.flat ++ [(i, r)] }
          refine ⟨inline, ⟨i, r, range, bytes, ds⟩ :: flat, window,
            hplanned.cons [] [⟨i, r, range, bytes, ds⟩] [] ?_ (by simp) rfl, ?_⟩
          · intro x hx
            cases List.mem_singleton.mp hx
            exact place
          · rw [planPostings, if_neg place.kind, if_neg place.enc, hrun]
            simp [FlatItem.plan]
      | windowed bytes prelude windows place docs_eq =>
          obtain ⟨inline, flat, window, hplanned, hrun⟩ :=
            ih (i + 1) { plans with window := plans.window ++ [(i, r)] }
          refine ⟨inline, flat, ⟨i, r, bytes, prelude, windows⟩ :: window,
            hplanned.cons [] [] [⟨i, r, bytes, prelude, windows⟩] (by simp) ?_ ?_, ?_⟩
          · intro x hx
            cases List.mem_singleton.mp hx
            exact place
          · simp [WindowItem.write, docs_eq]
          · rw [planPostings, if_neg place.kind, if_pos place.enc, place.valid, ok_bind, hrun]
            simp [WindowItem.plan]

/-! ## The rounds of a batch -/

variable {f : Fetched}

theorem openWindowPreludes_ok {window : List WindowItem} (hok : ∀ x ∈ window, x.Ok z idx) {h : Nat}
    (hgets : f.GetsFrom h (window.map WindowItem.bytes)) :
    openWindowPreludes f h (window.map WindowItem.plan) = .ok (window.map WindowItem.prelude) := by
  induction window generalizing h with
  | nil => rfl
  | cons x window ih =>
      have hnext := hgets.cons
      rw [List.map_cons, openWindowPreludes, hnext.1, ok_bind,
        (hok x List.mem_cons_self).opens, ok_bind,
        ih (fun y hy => hok y (List.mem_cons_of_mem _ hy)) hnext.2]
      rfl

theorem decodeFlatPlans_ok {flat : List FlatItem} (hok : ∀ x ∈ flat, x.Ok z idx) {h : Nat}
    (hgets : f.GetsFrom h (flat.map FlatItem.bytes)) (out : List (List Nat)) :
    decodeFlatPlans z f h (flat.map FlatItem.plan) out =
      .ok (scatter out (flat.map FlatItem.write)) := by
  induction flat generalizing h out with
  | nil => rfl
  | cons x flat ih =>
      have hnext := hgets.cons
      have hdecoded : decodeFlatDocs z x.plan.2.entry x.bytes = .ok x.docs :=
        (hok x List.mem_cons_self).decoded
      rw [List.map_cons, decodeFlatPlans, hnext.1, ok_bind, hdecoded, ok_bind,
        ih (fun y hy => hok y (List.mem_cons_of_mem _ hy)) hnext.2]
      rfl

theorem decodeWindowPlan_ok {windows : List WindowDocs} (hok : ∀ w ∈ windows, w.Ok z idx) {h : Nat}
    (hgets : f.GetsFrom h (windows.map WindowDocs.bytes)) :
    decodeWindowPlan z f h (windows.map WindowDocs.row) = .ok (windows.flatMap (·.docs)) := by
  induction windows generalizing h with
  | nil => rfl
  | cons w windows ih =>
      have hnext := hgets.cons
      obtain ⟨d, hdecoded, hdocs⟩ := (hok w List.mem_cons_self).decoded
      rw [List.map_cons, decodeWindowPlan, hnext.1, ok_bind, hdecoded, ok_bind,
        ih (fun y hy => hok y (List.mem_cons_of_mem _ hy)) hnext.2, ok_bind, List.flatMap_cons, hdocs]
      rfl

theorem decodeWindowPlans_ok {window : List WindowItem} (hok : ∀ x ∈ window, x.Ok z idx) {h : Nat}
    (hgets : f.GetsFrom h (window.flatMap fun x => x.windows.map WindowDocs.bytes))
    (out : List (List Nat)) :
    decodeWindowPlans z f h (window.map fun x => (x.outIndex, x.windows.map WindowDocs.row)) out =
      .ok (scatter out (window.map WindowItem.write)) := by
  induction window generalizing h out with
  | nil => rfl
  | cons x window ih =>
      rw [List.flatMap_cons] at hgets
      have hnext := hgets.append
      rw [List.length_map] at hnext
      rw [List.map_cons, decodeWindowPlans, decodeWindowPlan_ok (hok x List.mem_cons_self).each hnext.1,
        ok_bind, List.length_map, ih (fun y hy => hok y (List.mem_cons_of_mem _ hy)) hnext.2]
      rfl

/-- Every docid region of the second round, with its bytes. -/
def docCells (flat : List FlatItem) (window : List WindowItem) : List (Range × Bytes) :=
  flat.map (fun x => (x.range, x.bytes)) ++
    window.flatMap fun x => x.windows.map fun w => (w.range, w.bytes)

theorem docCells_at {flat : List FlatItem} {window : List WindowItem}
    (hflat : ∀ x ∈ flat, x.Ok z idx) (hwindow : ∀ x ∈ window, x.Ok z idx) :
    List.Forall₂ (fun r b => At idx.file r.offset b ∧ r.len = b.length)
      ((docCells flat window).map Prod.fst) ((docCells flat window).map Prod.snd) := by
  rw [List.forall₂_map_left_iff, List.forall₂_map_right_iff, List.forall₂_same]
  intro c hc
  cases List.mem_append.mp hc with
  | inl hin =>
      obtain ⟨x, hx, rfl⟩ := List.mem_map.mp hin
      exact ⟨(hflat x hx).here, (hflat x hx).len⟩
  | inr hin =>
      obtain ⟨x, hx, hc⟩ := List.mem_flatMap.mp hin
      obtain ⟨w, hw, rfl⟩ := List.mem_map.mp hc
      exact ⟨((hwindow x hx).each w hw).here, ((hwindow x hx).each w hw).len⟩

/-- **A batch** returns the documents of every posting at the posting's own index,
whatever encodings it mixes. -/
theorem readDocidPostingsBatched_ok {rs : List Resolved} {docs : List (List Nat)}
    (hsize : idx.file.length < 2 ^ 64) (h : List.Forall₂ (DocsAt z idx) rs docs) :
    readDocidPostingsBatched z idx rs = .ok docs := by
  obtain ⟨inline, flat, window, hplanned, hrun⟩ :=
    planPostings_ok h 0 { docids := List.replicate rs.length [] }
  have hpreludes : List.Forall₂ (fun r b => At idx.file r.offset b ∧ r.len = b.length)
      ((window.map WindowItem.plan).map fun x => preludeRange idx x.2)
      (window.map WindowItem.bytes) := by
    rw [List.map_map, List.forall₂_map_left_iff, List.forall₂_map_right_iff, List.forall₂_same]
    exact fun x hx => ⟨(hplanned.windowOk x hx).here, (hplanned.windowOk x hx).len⟩
  obtain ⟨f₁, hf₁, hgets₁⟩ := @fetch_at 0 _ _ _ hsize hpreludes
  obtain ⟨f₂, hf₂, hgets₂⟩ := @fetch_at 0 _ _ _ hsize (docCells_at hplanned.flatOk hplanned.windowOk)
  have hflatPlan : (flat.map FlatItem.plan).mapM (fun x => planFlatDocs idx x.2) =
      .ok (flat.map FlatItem.range) := by
    rw [List.mapM_map]
    exact mapM_ok fun x hx => (hplanned.flatOk x hx).plan
  have hwindowPlan : ((window.map WindowItem.plan).zip (window.map WindowItem.prelude)).mapM
      (fun x => planWindowDocs idx x.1.2 x.2) =
        .ok (window.map fun x => x.windows.map fun w => (w.row, w.range)) := by
    rw [List.zip_map', List.mapM_map]
    exact mapM_ok fun x hx => (hplanned.windowOk x hx).plan
  have hreqs : flat.map FlatItem.range ++
      (window.map fun x => x.windows.map fun w => (w.row, w.range)).flatten.map Prod.snd =
        (docCells flat window).map Prod.fst := by
    simp [docCells, List.flatMap_def, List.map_flatten, Function.comp_def]
  have hbytes : (docCells flat window).map Prod.snd = flat.map FlatItem.bytes ++
      window.flatMap fun x => x.windows.map WindowDocs.bytes := by
    simp [docCells, List.map_flatMap, Function.comp_def]
  have hplans : ((window.map WindowItem.plan).map Prod.fst).zip
      ((window.map fun x => x.windows.map fun w => (w.row, w.range)).map fun ws =>
        ws.map Prod.fst) = window.map fun x => (x.outIndex, x.windows.map WindowDocs.row) := by
    rw [List.map_map, List.map_map, List.zip_map']
    simp [WindowItem.plan, Function.comp_def]
  rw [hbytes] at hgets₂
  have hsplit := hgets₂.append
  rw [List.length_map, Nat.zero_add] at hsplit
  simp only [List.nil_append] at hrun
  rw [readDocidPostingsBatched, hrun, ok_bind]
  simp only
  rw [hf₁, ok_bind, openWindowPreludes_ok hplanned.windowOk hgets₁, ok_bind, hflatPlan, ok_bind,
    hwindowPlan, ok_bind, hreqs, hf₂, ok_bind, decodeFlatPlans_ok hplanned.flatOk hsplit.1, ok_bind,
    hplans, List.length_map, decodeWindowPlans_ok hplanned.windowOk hsplit.2, ← scatter_append,
    ← scatter_append, ← List.append_assoc]
  congr 1
  have hlen : (List.replicate rs.length ([] : List Nat)).length = docs.length := by
    rw [List.length_replicate, h.length_eq]
  apply scatter_eq hlen
  · intro w hw
    have hagree := (hplanned.agree w hw).2
    rwa [Nat.sub_zero] at hagree
  · intro i hi
    obtain ⟨w, hw, heq⟩ := hplanned.reach i hi
    exact .inl ⟨w, hw, by omega⟩

/-! ## Written postings -/

variable {c : EntryConfig} {r : Resolved} {tp : Emitted}

/-- A window of a written posting, as the reader meets it. -/
def windowDocs (blockOff : Nat) (v : Window) (m : WindowMeta) : WindowDocs :=
  { row := m, range := ⟨blockOff + m.ddOff, m.ddDiskLen⟩, bytes := ddPlain m.winBase v.docs
    docs := v.docs }

theorem windowDocs_ok {blockOff : Nat} {dd freq prx : Bytes} {v : Window} {m : WindowMeta}
    (hat : At idx.file blockOff dd) (hrow : RowAt c dd freq prx v m) (hv : WindowOk v) :
    (windowDocs blockOff v m).Ok z idx := by
  constructor
  · exact hat.trans hrow.ddAt
  · exact congrArg FrqRegionMeta.diskLen hrow.ddMeta
  · exact ⟨_, @decodeWindowSlices_row z c dd freq prx v m hrow hv [] [] [] false false (by simp) (by simp), rfl⟩

/-- The windows of a written posting are planned where they stand. -/
theorem planWindowDocs_written {vs : List Window} {prelude : Bytes}
    (h : WindowedAt c idx r vs prelude) :
    planWindowDocs idx r (readerOf (columns c vs)) =
      .ok ((rows c 0 0 0 0 vs).map fun m =>
        (m, ⟨preludeAbs idx r.entry r.frqBase + prelude.length + m.ddOff, m.ddDiskLen⟩)) := by
  have hrows : List.Forall₂ (RowAt c (ddBytes 0 vs) (freqBytes c.hasFreq vs) (prxSpan vs)) vs
      (rows c 0 0 0 0 vs) := rows_at h.chain [] [] [] rfl rfl rfl rfl rfl rfl
  apply mapM_range_ok
  intro i m hm
  obtain ⟨v, -, hrow⟩ := exists_left_of_mem hrows (List.mem_of_getElem? hm)
  have hwindow : (readerOf (columns c vs)).window i = .ok m := by
    rw [FrqPreludeReader.window, hm]
  have hnone : ∀ {P : Prop}, false = true → P := fun h => absurd h Bool.false_ne_true
  rw [h.windowRange hnone hnone hm hrow, ok_bind, hwindow, ok_bind]
  rfl

theorem docsAt_windowed {vs : List Window} {prelude : Bytes} (term : Windowed z c tp vs prelude)
    (h : WindowedAt c idx r vs prelude)
    (hlen : tp.postings.freqs.length = tp.postings.docids.length) :
    DocsAt z idx r tp.postings.docids := by
  obtain ⟨-, hdd, -⟩ := h.blocks
  have hrows : List.Forall₂ (RowAt c (ddBytes 0 vs) (freqBytes c.hasFreq vs) (prxSpan vs)) vs
      (rows c 0 0 0 0 vs) := rows_at h.chain [] [] [] rfl rfl rfl rfl rfl rfl
  have hzip := List.forall₂_iff_zip.mp hrows
  have hplan := planWindowDocs_written h
  generalize preludeAbs idx r.entry r.frqBase + prelude.length = off at hdd hplan
  have hprelude := h.frqAt.left
  refine .windowed prelude (readerOf (columns c vs))
    ((vs.zip (rows c 0 0 0 0 vs)).map fun x => windowDocs off x.1 x.2) ?_ ?_
  · constructor
    · rw [h.kind]
      decide
    · exact h.enc
    · have hne : prelude ≠ [] := by
        intro hnil
        have hopen := h.opens
        rw [hnil] at hopen
        cases hopen
      have hpos := List.length_pos_iff.mpr hne
      have hle : prelude.length ≤ r.entry.frqLen := by
        rw [h.frqLen, frqSpan, List.length_append]
        omega
      rw [validateWindowedPrelude, h.preludeLen, if_neg (by omega), if_neg (by omega)]
    · exact hprelude
    · exact h.preludeLen
    · exact h.opens
    · have hsnd := List.map_snd_zip (Nat.le_of_eq hrows.length_eq.symm)
      rw [hplan, List.map_map]
      conv_lhs => rw [← hsnd, List.map_map]
      rfl
    · intro w hw
      obtain ⟨x, hx, rfl⟩ := List.mem_map.mp hw
      exact windowDocs_ok hdd (hzip.2 hx) (h.windows x.1 (List.of_mem_zip hx).1)
  · have hdocs := (term.windows hlen).1
    rw [List.flatMap_def, List.map_map]
    show tp.postings.docids = ((vs.zip (rows c 0 0 0 0 vs)).map (Window.docs ∘ Prod.fst)).flatten
    rw [← List.map_map, List.map_fst_zip (Nat.le_of_eq hrows.length_eq), hdocs,
      Lib.Chunks.flatten_chunks (show 0 < unitOf tp.postings by
        have := unitOf_bounds tp.postings
        omega)]

theorem decodeFlatDocs_slim {e : DictEntry} (h : SlimRegions z c tp.postings e)
    (hwidths : TermWidths tp.postings) :
    decodeFlatDocs z e (slimDd tp.postings) = .ok tp.postings.docids := by
  have hsmall := h.small
  have hcap : kSlimDfThreshold = 512 := rfl
  have hlen := @Format.FrqPod.length_ddPlain_le 0 _ hwidths.docids
  have hmax : Format.FrqPod.kMaxRegionUncompBytes = 268435456 := by decide
  have hdocs : Format.FrqPod.kMaxWindowDocs = 16777216 := by decide
  apply Format.FrqPod.decodeDdRegion_region ⟨h.chain, hwidths.docids⟩ (by omega) h.dd
  omega

theorem length_slimDd_pos (tp : TermPostings) : 0 < (slimDd tp).length := by
  have hcount : 0 < (Encoding.ByteSource.putVarint32 tp.docids.length).length :=
    List.length_pos_iff.mpr (Encoding.Varint.encodeVarint64_ne_nil _)
  rw [slimDd, ddPlain, List.length_append]
  omega

/-- **A written posting** holds the documents of its term. -/
theorem docsAt_of_entryAt (h : EntryAt z c idx tp r) (hwidths : TermWidths tp.postings)
    (hlen : tp.postings.freqs.length = tp.postings.docids.length) :
    DocsAt z idx r tp.postings.docids := by
  cases h with
  | windowed vs prelude term placed => exact docsAt_windowed term placed hlen
  | inline prx positions regions kind frq prxHere =>
      apply DocsAt.inline kind
      have hdd := regions.dd.diskLen
      have htake : r.entry.frqBytes.take r.entry.ddMeta.diskLen = slimDd tp.postings := by
        rw [frq, slimFrq, hdd, List.take_left]
      have hle : ¬ r.entry.ddMeta.diskLen > r.entry.frqBytes.length := by
        rw [frq, slimFrq, List.length_append, hdd]
        omega
      rw [decodeInlineDocs, if_neg hle, htake]
      exact decodeFlatDocs_slim regions hwidths
  | slim prx frqAbs prxAbs positions regions kind docsLen frqRange frqHere prxRange prxHere =>
      apply DocsAt.flat ⟨frqAbs, (slimDd tp.postings).length⟩ (slimDd tp.postings)
      have hpos := length_slimDd_pos tp.postings
      constructor
      · rw [kind]
        decide
      · rw [regions.enc]
        decide
      · have hle : ¬ (slimDd tp.postings).length > (slimFrq c tp.postings).length := by
          rw [slimFrq, List.length_append]
          omega
        rw [planFlatDocs, frqRange, ok_bind]
        simp only [slimDocsFetchLen, docsLen]
        rw [if_neg hle, if_pos hpos]
        rfl
      · exact frqHere.left
      · rfl
      · exact decodeFlatDocs_slim regions hwidths

end Snii.Query.DocidPosting
