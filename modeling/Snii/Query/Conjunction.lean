import Mathlib.Data.List.Flatten
import Snii.Format.FrqPreludeLocate
import Snii.Query.DocidUnion
import Snii.Query.ScoringQuery
import Snii.Reader.TermPositions

/-!
# Conjunctions over windows

`phrase_query.cpp` up to the candidates: the terms are planned, the preludes and the
flat postings are fetched in one round, and the terms are taken in the order of their
document frequencies.  The first is read as a whole, and each later windowed term only
in the windows that cover the candidates so far.

Whatever windows are skipped, the candidates are the documents that every term holds
(`buildConjunction_ok`), and every term keeps the parts that hold them.
-/

namespace Snii.Query.Conjunction

open Snii.Lib.ByteReader Snii.Lib.Aligned Snii.Common Snii.Io.FileReader Snii.Io.BatchRangeFetcher
open Snii.Reader Snii.Query.DocidPosting Snii.Query.DocidSetOps
open Snii.Query.ScoringQuery (DocSort)
open Snii.Encoding.Compression Snii.Format.Dict
open Snii.Format.DictBlock (Resolved)
open Snii.Format.FrqPod (FrqRegionMeta decodeDdRegion ddPlain)
open Snii.Format.FrqPrelude (WindowMeta FrqPreludeReader readerOf firstReaching locateWindow_readerOf)
open Snii.Writer.SpillRunCodec Snii.Writer.LogicalIndexWriter

/-! ## Plans -/

/-- A prelude before it is opened. -/
def noPrelude : FrqPreludeReader where
  hasFreq := false
  hasPrx := false
  groupSize := 0
  nSuper := 0
  ddBlockLen := 0
  freqBlockLen := 0
  sbLastDocid := []
  windows := []

/-- A resolved term with the handles of its first-round reads. -/
structure TermPlan where
  posting : Resolved
  frqHandle : Nat := 0
  prxHandle : Nat := 0
  preludeHandle : Nat := 0
  prelude : FrqPreludeReader := noPrelude

namespace TermPlan

/-- The document frequency of its term. -/
def df (p : TermPlan) : Nat := p.posting.entry.df

/-- Whether its postings are in the posting region. -/
def podRef (p : TermPlan) : Bool := p.posting.entry.kind == .podRef

/-- Whether they are behind a prelude. -/
def windowed (p : TermPlan) : Bool := p.podRef && p.posting.entry.enc == .windowed

end TermPlan

/-- The bytes of the docid region; an entry that states none is read whole. -/
def slimFrqDocsLen (e : DictEntry) (winLen : Nat) : Result Nat :=
  if e.frqDocsLen > winLen then
    .error (.corruption "phrase_query: slim frq_docs_len exceeds frq window")
  else .ok (if e.frqDocsLen > 0 then e.frqDocsLen else winLen)

/-- The docid region of an inline entry. -/
def inlineDdRegion (e : DictEntry) : Result Bytes :=
  if e.ddMeta.diskLen > e.frqBytes.length then
    .error (.corruption "phrase_query: inline dd region exceeds frq bytes")
  else .ok (e.frqBytes.take e.ddMeta.diskLen)

/-- The plan of a term and the requests of the round with the term's own behind: the
prelude of a windowed term, the docid region and the positions of a slim one. -/
def configureTermPlan (idx : LogicalIndexReader) (needPositions : Bool) (reqs : List Range)
    (r : Resolved) : Result (TermPlan × List Range) :=
  let p : TermPlan := { posting := r }
  if p.windowed then
    .ok ({ p with preludeHandle := reqs.length }, reqs ++ [preludeRange idx r])
  else if p.podRef then do
    let (foff, flen) ← resolveFrqWindow idx r.entry r.frqBase
    let frqFetch ← slimFrqDocsLen r.entry flen
    let frqReqs := reqs ++ [⟨foff, frqFetch⟩]
    if needPositions then do
      let (poff, plen) ← resolvePrxWindow idx r.entry r.prxBase
      pure ({ p with frqHandle := reqs.length, prxHandle := frqReqs.length },
        frqReqs ++ [⟨poff, plen⟩])
    else pure ({ p with frqHandle := reqs.length }, frqReqs)
  else .ok (p, reqs)

/-- What the first round reads for each term. -/
def planResolvedTerms (idx : LogicalIndexReader) (needPositions : Bool) :
    List Range → List Resolved → Result (List TermPlan × List Range)
  | reqs, [] => .ok ([], reqs)
  | reqs, r :: rs => do
      let (p, reqs) ← configureTermPlan idx needPositions reqs r
      let (plans, reqs) ← planResolvedTerms idx needPositions reqs rs
      pure (p :: plans, reqs)

/-- Nothing if a term is absent; the terms behind it are not looked up. -/
def planTerms (env : ReadEnv) (idx : LogicalIndexReader) (needPositions : Bool) :
    List Range → List Bytes → Result (Option (List TermPlan × List Range))
  | reqs, [] => .ok (some ([], reqs))
  | reqs, term :: terms => do
      let hit ← lookup env idx term
      match hit with
      | none => pure none
      | some r => do
          let (p, reqs) ← configureTermPlan idx needPositions reqs r
          let rest ← planTerms env idx needPositions reqs terms
          pure (rest.map fun x => (p :: x.1, x.2))

/-- The prelude of a windowed term, read in the first round. -/
def openPrelude (fetched : Fetched) (needPositions : Bool) (p : TermPlan) : Result TermPlan :=
  if p.windowed then do
    let bytes ← fetched.get p.preludeHandle
    let prelude ← FrqPreludeReader.open bytes
    if needPositions ∧ prelude.hasPrx = false then
      .error (.corruption "phrase_query: windowed prelude has no positions")
    else .ok { p with prelude := prelude }
  else .ok p

/-- The preludes of all terms. -/
def openPreludes (fetched : Fetched) (needPositions : Bool) (plans : List TermPlan) :
    Result (List TermPlan) :=
  plans.mapM (openPrelude fetched needPositions)

/-! ## Parts of a posting -/

/-- A part of a term's posting: its documents and the bytes of their positions. -/
structure PosChunk where
  docids : List Nat
  prx : Bytes
deriving DecidableEq

/-- The documents of the parts a term keeps. -/
def docsOf (chunks : List PosChunk) : List Nat := chunks.flatMap PosChunk.docids

/-- The windows that cover the candidates, behind the window `last`. -/
def selectCoveringWindows (prelude : FrqPreludeReader) : Nat → List Nat → List Nat
  | _, [] => []
  | last, d :: candidates =>
      match prelude.locateWindow d with
      | none => selectCoveringWindows prelude last candidates
      | some w =>
          if w ≠ last then w :: selectCoveringWindows prelude w candidates
          else selectCoveringWindows prelude last candidates

/-- Every window, for the first term. -/
def allWindows (prelude : FrqPreludeReader) : List Nat := List.range prelude.windows.length

/-- A window's row and what is asked of the file for it. -/
def planWindow (idx : LogicalIndexReader) (p : TermPlan) (needPositions : Bool) (w : Nat) :
    Result (WindowMeta × List Range) := do
  let range ← windowedWindowRange idx p.posting p.prelude w needPositions false
  let m ← p.prelude.window w
  pure (m, range.dd :: if needPositions then [range.prx] else [])

/-- The part of a planned window, whose handles are counted from `h`. -/
def decodeChunk (z : Zstd) (fetched : Fetched) (needPositions : Bool) (h : Nat) (m : WindowMeta) :
    Result PosChunk := do
  let dd ← fetched.get h
  let window ← decodeWindowSlices z m dd [] [] false false
  let prx ← (if needPositions then fetched.get (h + 1) else .ok [])
  pure ⟨window.docids, prx⟩

/-- The windows that were read, one after the other. -/
def decodeChunks (z : Zstd) (fetched : Fetched) (needPositions : Bool) :
    Nat → List WindowMeta → Result (List PosChunk)
  | _, [] => .ok []
  | h, m :: ms => do
      let chunk ← decodeChunk z fetched needPositions h m
      let chunks ← decodeChunks z fetched needPositions (h + if needPositions then 2 else 1) ms
      pure (chunk :: chunks)

/-- The chosen windows of a term, in a batch of their own. -/
def decodeWindowedDocids (z : Zstd) (idx : LogicalIndexReader) (needPositions : Bool)
    (p : TermPlan) (windows : List Nat) : Result (List PosChunk) := do
  let planned ← windows.mapM (planWindow idx p needPositions)
  let fetched ← fetch idx.file kSameTermCoalesceGap (planned.flatMap Prod.snd)
  decodeChunks z fetched needPositions 0 (planned.map Prod.fst)

/-- A term of one window, read in the first round. -/
def decodeFlatDocids (z : Zstd) (round1 : Fetched) (needPositions : Bool) (p : TermPlan) :
    Result PosChunk := do
  let dd ← (if p.podRef then round1.get p.frqHandle else inlineDdRegion p.posting.entry)
  let prx ← (if needPositions then
      (if p.podRef then round1.get p.prxHandle else .ok p.posting.entry.prxBytes)
    else .ok [])
  let docids ← decodeDdRegion z dd p.posting.entry.ddMeta 0
  pure ⟨docids, prx⟩

/-! ## The conjunction -/

/-- The parts of a term that are read for the candidates; all of them for the driver. -/
def readTerm (z : Zstd) (idx : LogicalIndexReader) (round1 : Fetched) (needPositions : Bool)
    (candidates : Option (List Nat)) (p : TermPlan) : Result (List PosChunk) :=
  if p.windowed then
    decodeWindowedDocids z idx needPositions p (match candidates with
      | none => allWindows p.prelude
      | some docs => selectCoveringWindows p.prelude (2 ^ 32 - 1) docs)
  else do
    let chunk ← decodeFlatDocids z round1 needPositions p
    pure [chunk]

/-- The candidates that the term has too. -/
def narrow (candidates : Option (List Nat)) (termDocids : List Nat) : List Nat :=
  match candidates with
  | none => termDocids
  | some docs => intersectSorted docs termDocids

/-- The terms in the given order, with the candidates and the parts kept so far. -/
def conjunctionLoop (z : Zstd) (idx : LogicalIndexReader) (round1 : Fetched)
    (needPositions : Bool) (plans : List TermPlan) :
    List Nat → Option (List Nat) → List (List PosChunk) → Result (List (List PosChunk) × List Nat)
  | [], candidates, srcs => .ok (srcs, candidates.getD [])
  | ti :: order, candidates, srcs =>
      match plans[ti]? with
      | none => .error .outOfBounds
      | some p => do
          let chunks ← readTerm z idx round1 needPositions candidates p
          let srcs := srcs.set ti chunks
          let docids := narrow candidates (docsOf chunks)
          if docids = [] then pure (srcs, [])
          else conjunctionLoop z idx round1 needPositions plans order (some docids) srcs

/-- `std::sort` by document frequency leaves the order of equal ones open. -/
def ascendingDfOrder (srt : DocSort) (plans : List TermPlan) : List Nat :=
  srt.order (plans.map TermPlan.df)

/-- The terms by ascending document frequency. -/
def buildConjunction (srt : DocSort) (z : Zstd) (idx : LogicalIndexReader) (round1 : Fetched)
    (needPositions : Bool) (plans : List TermPlan) : Result (List (List PosChunk) × List Nat) :=
  conjunctionLoop z idx round1 needPositions plans (ascendingDfOrder srt plans) none
    (List.replicate plans.length [])

/-- `boolean_and`: the intersection, read without positions. -/
def booleanAnd (srt : DocSort) (env : ReadEnv) (idx : LogicalIndexReader) (terms : List Bytes) :
    Result (List Nat) :=
  if terms = [] then .ok []
  else do
    let planned ← planTerms env idx false [] terms
    match planned with
    | none => pure []
    | some (plans, reqs) => do
        let round1 ← fetch idx.file 0 reqs
        let plans ← openPreludes round1 false plans
        let (_, docids) ← buildConjunction srt env.zstd idx round1 false plans
        pure docids

/-! ## Covering windows -/

theorem docsOf_sublist {sel chunks : List PosChunk} (h : sel.Sublist chunks) :
    (docsOf sel).Sublist (docsOf chunks) :=
  h.flatMap _

/-- The windows that are located, one after the other and each once. -/
theorem selectCoveringWindows_spec {prelude : FrqPreludeReader} {last : Nat} {docs : List Nat}
    (hsorted : (docs.filterMap prelude.locateWindow).Pairwise (· ≤ ·))
    (hlast : (∀ w ∈ docs.filterMap prelude.locateWindow, last ≤ w) ∨
      last ∉ docs.filterMap prelude.locateWindow) :
    (selectCoveringWindows prelude last docs).Pairwise (· < ·) ∧
      ∀ w, w ∈ selectCoveringWindows prelude last docs ↔
        w ≠ last ∧ w ∈ docs.filterMap prelude.locateWindow := by
  induction docs generalizing last with
  | nil => simp [selectCoveringWindows]
  | cons d docs ih =>
      rw [selectCoveringWindows]
      cases hloc : prelude.locateWindow d with
      | none =>
          rw [List.filterMap_cons_none hloc] at hsorted hlast ⊢
          exact ih hsorted hlast
      | some w =>
          rw [List.filterMap_cons_some hloc] at hsorted hlast ⊢
          obtain ⟨hle, hrest⟩ := List.pairwise_cons.mp hsorted
          by_cases hw : w = last
          · -- a window that was just selected: the sentinel is none of them
            subst hw
            simp only [ne_eq, not_true, if_false]
            obtain ⟨hpair, hmem⟩ := ih hrest (.inl hle)
            refine ⟨hpair, fun x => (hmem x).trans ?_⟩
            rw [List.mem_cons]
            tauto
          · simp only [ne_eq, hw, not_false_iff, if_true]
            obtain ⟨hpair, hmem⟩ := ih hrest (.inl hle)
            constructor
            · refine List.pairwise_cons.mpr ⟨fun x hx => ?_, hpair⟩
              obtain ⟨hne, hx⟩ := (hmem x).mp hx
              exact lt_of_le_of_ne (hle x hx) (Ne.symm hne)
            · intro x
              have hbehind : x ∈ docs.filterMap prelude.locateWindow → x ≠ last := by
                intro hx heq
                subst heq
                cases hlast with
                | inl hlow => exact hw (Nat.le_antisymm (hle x hx) (hlow w List.mem_cons_self))
                | inr hout => exact hout (List.mem_cons_of_mem _ hx)
              rw [List.mem_cons, hmem, List.mem_cons]
              grind

section Located

variable {c : EntryConfig} {vs : List Window}

/-- The window in which a document would be. -/
def windowOf (vs : List Window) (d : Nat) : Option Nat := vs.findIdx? fun v => decide (d ≤ v.last)

/-- The window of a document is one of the windows. -/
theorem windowOf_lt {d i : Nat} (h : windowOf vs d = some i) : i < vs.length :=
  (List.findIdx?_eq_some_iff_getElem.mp h).1

/-- Later documents have later windows. -/
theorem windowOf_mono {d e i j : Nat} (hle : d ≤ e) (hd : windowOf vs d = some i)
    (he : windowOf vs e = some j) : i ≤ j := by
  obtain ⟨hi, hdi, hfirst⟩ := List.findIdx?_eq_some_iff_getElem.mp hd
  obtain ⟨hj, hej, -⟩ := List.findIdx?_eq_some_iff_getElem.mp he
  by_contra hlt
  have hnot := hfirst j (by omega)
  rw [decide_eq_true_eq] at hej hnot
  omega

theorem last_mem {v : Window} (hne : v.docs ≠ []) : v.last ∈ v.docs := by
  rw [Window.last, List.getLastD_eq_getLast?, List.getLast?_eq_some_getLast hne]
  exact List.getLast_mem hne

/-- A window's documents end at its last. -/
theorem le_last {v : Window} (hasc : Ascending v.docs) {d : Nat} (hd : d ∈ v.docs) : d ≤ v.last := by
  have hne : v.docs ≠ [] := List.ne_nil_of_mem hd
  rw [Window.last, List.getLastD_eq_getLast?, List.getLast?_eq_some_getLast hne]
  exact List.Pairwise.rel_getLast (hasc.imp Nat.le_of_lt) hd

/-- **A document of the posting** is in the window where it is looked for. -/
theorem windowOf_mem (hasc : Ascending (vs.flatMap Window.docs)) (hne : ∀ v ∈ vs, v.docs ≠ [])
    {d : Nat} (hd : d ∈ vs.flatMap Window.docs) :
    ∃ i v, windowOf vs d = some i ∧ vs[i]? = some v ∧ d ∈ v.docs := by
  induction vs with
  | nil => cases hd
  | cons v vs ih =>
      rw [List.flatMap_cons] at hasc hd
      obtain ⟨hv, hrest, hlt⟩ := List.pairwise_append.mp hasc
      by_cases hin : d ∈ v.docs
      · refine ⟨0, v, ?_, rfl, hin⟩
        rw [windowOf, List.findIdx?_cons, if_pos (decide_eq_true (le_last hv hin))]
      · have hd := (List.mem_append.mp hd).resolve_left hin
        have hlast : v.last < d := hlt _ (last_mem (hne v List.mem_cons_self)) d hd
        obtain ⟨i, u, hi, hu, hmem⟩ := ih hrest (fun u hu => hne u (List.mem_cons_of_mem _ hu)) hd
        refine ⟨i + 1, u, ?_, hu, hmem⟩
        rw [windowOf] at hi ⊢
        rw [List.findIdx?_cons, if_neg (by simpa using hlast), hi]
        rfl

/-- The rows state the last documents. -/
theorem lastDocids_rows (winBase ddOff freqOff prxOff : Nat) :
    (rows c winBase ddOff freqOff prxOff vs).map WindowMeta.lastDocid = vs.map Window.last := by
  induction vs generalizing winBase ddOff freqOff prxOff with
  | nil => rfl
  | cons v vs ih =>
      rw [rows, List.map_cons, List.map_cons, ih]
      rfl

/-- Which ascend. -/
theorem pairwise_lasts (hasc : Ascending (vs.flatMap Window.docs)) (hne : ∀ v ∈ vs, v.docs ≠ []) :
    (vs.map Window.last).Pairwise (· ≤ ·) := by
  rw [Ascending, List.pairwise_flatMap] at hasc
  rw [List.pairwise_map]
  apply hasc.2.imp_of_mem
  intro u v hu hv hlt
  exact Nat.le_of_lt (hlt _ (last_mem (hne u hu)) _ (last_mem (hne v hv)))

/-- The prelude of a written posting locates documents by its windows. -/
theorem locateWindow_columns (hasc : Ascending (vs.flatMap Window.docs))
    (hne : ∀ v ∈ vs, v.docs ≠ []) (d : Nat) :
    (readerOf (columns c vs)).locateWindow d = windowOf vs d := by
  have hlasts : (columns c vs).windows.map WindowMeta.lastDocid = vs.map Window.last :=
    lastDocids_rows 0 0 0 0
  have hfind : ∀ ms : List WindowMeta, ms.map WindowMeta.lastDocid = vs.map Window.last →
      firstReaching ms d = windowOf vs d := by
    intro ms hms
    have hleft : firstReaching ms d =
        (ms.map WindowMeta.lastDocid).findIdx? fun l => decide (d ≤ l) := by
      rw [List.findIdx?_map]
      rfl
    rw [hleft, hms, List.findIdx?_map]
    rfl
  rw [locateWindow_readerOf (show 0 < kPreludeGroupSize by decide)
    (hlasts ▸ pairwise_lasts hasc hne), hfind _ hlasts]

/-- **The covering windows** of ascending candidates are distinct, in order, and among
them is the window of every candidate that the posting holds. -/
theorem covering_spec (hasc : Ascending (vs.flatMap Window.docs)) (hne : ∀ v ∈ vs, v.docs ≠ [])
    (hcount : vs.length < 2 ^ 32) {docs : List Nat} (hdocs : Ascending docs) :
    (selectCoveringWindows (readerOf (columns c vs)) (2 ^ 32 - 1) docs).Pairwise (· < ·) ∧
      (∀ w ∈ selectCoveringWindows (readerOf (columns c vs)) (2 ^ 32 - 1) docs, w < vs.length) ∧
      ∀ d ∈ docs, d ∈ vs.flatMap Window.docs →
        ∃ w ∈ selectCoveringWindows (readerOf (columns c vs)) (2 ^ 32 - 1) docs,
          ∃ v, vs[w]? = some v ∧ d ∈ v.docs := by
  have hlocate : (readerOf (columns c vs)).locateWindow = windowOf vs :=
    funext (locateWindow_columns hasc hne)
  have hsorted : (docs.filterMap (windowOf vs)).Pairwise (· ≤ ·) := by
    rw [List.pairwise_filterMap]
    apply hdocs.imp
    intro d e hlt i hi j hj
    exact windowOf_mono (Nat.le_of_lt hlt) hi hj
  have hlt : ∀ w ∈ docs.filterMap (windowOf vs), w < vs.length := by
    intro w hw
    obtain ⟨d, -, hd⟩ := List.mem_filterMap.mp hw
    exact windowOf_lt hd
  have hout : 2 ^ 32 - 1 ∉ docs.filterMap (windowOf vs) := by
    intro hmem
    have := hlt _ hmem
    omega
  rw [← hlocate] at hsorted hlt hout
  obtain ⟨hpair, hmem⟩ := selectCoveringWindows_spec hsorted (.inr hout)
  refine ⟨hpair, fun w hw => hlt w ((hmem w).mp hw).2, fun d hd hin => ?_⟩
  obtain ⟨i, v, hi, hv, hdv⟩ := windowOf_mem hasc hne hin
  have hw : i ∈ docs.filterMap (readerOf (columns c vs)).locateWindow := by
    rw [hlocate]
    exact List.mem_filterMap.mpr ⟨d, hd, hi⟩
  refine ⟨i, (hmem i).mpr ⟨fun heq => hout (heq ▸ hw), hw⟩, v, hv, hdv⟩

end Located

/-! ## Reading windows -/

variable {z : Zstd} {idx : LogicalIndexReader} {needPositions : Bool} {p : TermPlan}

/-- What reading a window asks of the file, and what it gives. -/
structure WindowRead where
  row : WindowMeta
  cells : List (Range × Bytes)
  chunk : PosChunk

/-- Ranges that stand in the file with their bytes. -/
def CellsAt (idx : LogicalIndexReader) (cells : List (Range × Bytes)) : Prop :=
  ∀ cell ∈ cells, At idx.file cell.1.offset cell.2 ∧ cell.1.len = cell.2.length

/-- Cells of the file are fetched as they stand. -/
theorem CellsAt.fetch (hsize : idx.file.length < 2 ^ 64) {cells : List (Range × Bytes)}
    (h : CellsAt idx cells) (gap : Nat) :
    ∃ f, fetch idx.file gap (cells.map Prod.fst) = .ok f ∧ f.GetsFrom 0 (cells.map Prod.snd) := by
  apply fetch_at hsize
  rw [List.forall₂_map_left_iff, List.forall₂_map_right_iff, List.forall₂_same]
  exact h

/-- The reads of a window return what it says. -/
structure WindowRead.Ok (z : Zstd) (idx : LogicalIndexReader) (needPositions : Bool) (p : TermPlan)
    (w : Nat) (x : WindowRead) : Prop where
  plan : planWindow idx p needPositions w = .ok (x.row, x.cells.map Prod.fst)
  here : CellsAt idx x.cells
  count : x.cells.length = if needPositions then 2 else 1
  decode : ∀ (f : Fetched) h, f.GetsFrom h (x.cells.map Prod.snd) →
    decodeChunk z f needPositions h x.row = .ok x.chunk

/-- The windows of a plan decode to their chunks. -/
theorem decodeChunks_ok {windows : List Nat} {xs : List WindowRead} {f : Fetched} {h : Nat}
    (hxs : List.Forall₂ (WindowRead.Ok z idx needPositions p) windows xs)
    (hgets : f.GetsFrom h ((xs.flatMap WindowRead.cells).map Prod.snd)) :
    decodeChunks z f needPositions h (xs.map WindowRead.row) = .ok (xs.map WindowRead.chunk) := by
  induction hxs generalizing h with
  | nil => rfl
  | @cons w x windows xs hx _ ih =>
      rw [List.flatMap_cons, List.map_append] at hgets
      have hnext := hgets.append
      rw [List.length_map, hx.count] at hnext
      rw [List.map_cons, decodeChunks, hx.decode f h hnext.1, ok_bind, ih hnext.2]
      rfl

/-- A windowed term is read in one batch. -/
theorem decodeWindowedDocids_ok (hsize : idx.file.length < 2 ^ 64) {windows : List Nat}
    {xs : List WindowRead} (hxs : List.Forall₂ (WindowRead.Ok z idx needPositions p) windows xs) :
    decodeWindowedDocids z idx needPositions p windows = .ok (xs.map WindowRead.chunk) := by
  have hplan : windows.mapM (planWindow idx p needPositions) =
      .ok (xs.map fun x => (x.row, x.cells.map Prod.fst)) := by
    apply mapM_of_forall₂
    rw [List.forall₂_map_right_iff]
    exact hxs.imp fun _ _ hx => hx.plan
  have hcells : CellsAt idx (xs.flatMap WindowRead.cells) := by
    intro cell hcell
    obtain ⟨x, hx, hin⟩ := List.mem_flatMap.mp hcell
    obtain ⟨w, -, hok⟩ := exists_left_of_mem hxs hx
    exact hok.here cell hin
  obtain ⟨f, hf, hgets⟩ := hcells.fetch hsize kSameTermCoalesceGap
  have hreqs : (xs.map fun x => (x.row, x.cells.map Prod.fst)).flatMap Prod.snd =
      (xs.flatMap WindowRead.cells).map Prod.fst := by
    simp [List.flatMap_map, List.map_flatMap]
  rw [decodeWindowedDocids, hplan, ok_bind, hreqs, hf, ok_bind, List.map_map]
  exact decodeChunks_ok hxs hgets

/-- A window's part, with its positions if they are asked for. -/
def partOf (needPositions : Bool) (v : Window) : PosChunk :=
  ⟨v.docs, if needPositions then v.prx else []⟩

theorem docsOf_parts (vs : List Window) :
    docsOf (vs.map (partOf needPositions)) = vs.flatMap Window.docs := by
  rw [docsOf, List.flatMap_map]
  rfl

section Windowed

variable {c : EntryConfig} {vs : List Window} {prelude : Bytes}

/-- **A window of a written posting** is read as its part. -/
theorem windowRead_ok (h : WindowedAt c idx p.posting vs prelude)
    (hprelude : p.prelude = readerOf (columns c vs))
    (hprx : needPositions = true → c.hasPrx = true) {i : Nat} {v : Window}
    (hv : vs[i]? = some v) :
    ∃ x : WindowRead, x.Ok z idx needPositions p i ∧ x.chunk = partOf needPositions v := by
  obtain ⟨-, hdd, -⟩ := h.blocks
  have hrows : List.Forall₂ (RowAt c (ddBytes 0 vs) (freqBytes c.hasFreq vs) (prxSpan vs)) vs
      (rows c 0 0 0 0 vs) := rows_at h.chain [] [] [] rfl rfl rfl rfl rfl rfl
  obtain ⟨hi, rfl⟩ := List.getElem?_eq_some_iff.mp hv
  have hi' : i < (rows c 0 0 0 0 vs).length := by rwa [← hrows.length_eq]
  have hrow := hrows.get hi hi'
  rw [List.get_eq_getElem, List.get_eq_getElem] at hrow
  have hm := List.getElem?_eq_getElem hi'
  have hok := h.windows _ (List.getElem_mem hi)
  have hrange := h.windowRange hprx (fun hw => absurd hw Bool.false_ne_true) hm hrow
  have hdecoded := @decodeWindowSlices_row z c _ _ _ _ _ hrow hok [] [] [] false false (by simp) (by simp)
  generalize (rows c 0 0 0 0 vs)[i] = m at hrow hm hrange hdecoded
  generalize hv' : vs[i] = v at *
  have hwindow : (readerOf (columns c vs)).window i = .ok m := by
    rw [FrqPreludeReader.window, show (readerOf (columns c vs)).windows[i]? = some m from hm]
  refine ⟨⟨m, (⟨preludeAbs idx p.posting.entry p.posting.frqBase + prelude.length + m.ddOff,
      m.ddDiskLen⟩, ddPlain m.winBase v.docs) :: if needPositions then
        [(⟨prxAbs idx p.posting.entry p.posting.prxBase + m.prxOff, m.prxLen⟩, v.prx)] else [],
    partOf needPositions v⟩, ⟨?_, ?_, ?_, ?_⟩, rfl⟩
  · rw [planWindow, hprelude, hrange, ok_bind, hwindow, ok_bind]
    cases needPositions <;> rfl
  · intro cell hcell
    cases List.mem_cons.mp hcell with
    | inl heq =>
        subst heq
        exact ⟨hdd.trans hrow.ddAt, congrArg FrqRegionMeta.diskLen hrow.ddMeta⟩
    | inr hin =>
        cases hn : needPositions with
        | false =>
            rw [hn] at hin
            cases hin
        | true =>
            rw [hn, if_pos rfl] at hin
            cases List.mem_singleton.mp hin
            have hc := hprx hn
            exact ⟨(h.prxAt hc).trans (hrow.prxAt hc), hrow.prxLen⟩
  · cases needPositions <;> rfl
  · intro f h hgets
    rw [List.map_cons] at hgets
    rw [decodeChunk, hgets.cons.1, ok_bind, hdecoded, ok_bind]
    cases hn : needPositions with
    | false => rfl
    | true =>
        rw [hn] at hgets
        rw [if_pos rfl, (hgets.cons.2).cons.1]
        rfl

/-- The chunks of chosen windows are the windows' documents. -/
theorem decodeWindowed_parts (h : WindowedAt c idx p.posting vs prelude)
    (hprelude : p.prelude = readerOf (columns c vs))
    (hprx : needPositions = true → c.hasPrx = true) {windows : List Nat}
    (hwindows : ∀ w ∈ windows, w < vs.length) :
    ∃ chunks, decodeWindowedDocids z idx needPositions p windows = .ok chunks ∧
      List.Forall₂ (fun w chunk => (vs.map (partOf needPositions))[w]? = some chunk) windows
        chunks := by
  have heach : ∀ w ∈ windows, ∃ x : WindowRead, x.Ok z idx needPositions p w ∧
      (vs.map (partOf needPositions))[w]? = some x.chunk := by
    intro w hw
    have hv := List.getElem?_eq_getElem (hwindows w hw)
    obtain ⟨x, hx, hchunk⟩ := @windowRead_ok z _ _ _ _ _ _ h hprelude hprx _ _ hv
    exact ⟨x, hx, by rw [List.getElem?_map, hv, hchunk]; rfl⟩
  obtain ⟨xs, hxs⟩ := exists_forall₂ heach
  refine ⟨xs.map WindowRead.chunk, decodeWindowedDocids_ok h.size (hxs.imp fun _ _ hx => hx.1), ?_⟩
  rw [List.forall₂_map_right_iff]
  exact hxs.imp fun _ _ hx => hx.2

end Windowed

/-! ## Reading a term -/

/-- A planned term whose posting is the parts: all of them for the driver, and for
candidates the ones that hold them. -/
structure Reads (z : Zstd) (idx : LogicalIndexReader) (round1 : Fetched) (needPositions : Bool)
    (p : TermPlan) (chunks : List PosChunk) : Prop where
  ascending : Ascending (docsOf chunks)
  driver : readTerm z idx round1 needPositions none p = .ok chunks
  covering : ∀ docs, Ascending docs → ∃ sel,
    readTerm z idx round1 needPositions (some docs) p = .ok sel ∧ sel.Sublist chunks ∧
      ∀ d ∈ docs, d ∈ docsOf chunks → d ∈ docsOf sel

variable {c : EntryConfig} {tp : Emitted} {vs : List Window} {prelude : Bytes} {round1 : Fetched}

/-- **A windowed term** is read in the windows that cover the candidates. -/
theorem reads_windowed (h : WindowedAt c idx p.posting vs prelude)
    (hprelude : p.prelude = readerOf (columns c vs))
    (hprx : needPositions = true → c.hasPrx = true) (hcount : vs.length < 2 ^ 32)
    (hasc : Ascending (vs.flatMap Window.docs)) :
    Reads z idx round1 needPositions p (vs.map (partOf needPositions)) := by
  have hne : ∀ v ∈ vs, v.docs ≠ [] := fun v hv => (h.windows v hv).pos
  have hwindowed : p.windowed = true := by
    rw [TermPlan.windowed, TermPlan.podRef, h.kind, h.enc]
    rfl
  constructor
  case ascending =>
    rw [docsOf_parts]
    exact hasc
  case driver =>
    have hrows : (rows c 0 0 0 0 vs).length = vs.length := by
      rw [← List.length_map WindowMeta.lastDocid, lastDocids_rows, List.length_map]
    have hall : allWindows p.prelude = List.range (vs.map (partOf needPositions)).length := by
      rw [allWindows, hprelude, List.length_map, ← hrows]
      rfl
    obtain ⟨chunks, hread, hchunks⟩ := @decodeWindowed_parts z _ _ _ _ _ _ h hprelude hprx
      (allWindows p.prelude) (by rw [hall, List.length_map]; exact fun w hw => List.mem_range.mp hw)
    rw [readTerm, if_pos hwindowed]
    rw [hall] at hchunks
    exact eq_of_picked_range hchunks ▸ hread
  case covering =>
    intro docs hdocs
    obtain ⟨hpair, hlt, hcover⟩ := @covering_spec c vs hasc hne hcount docs hdocs
    rw [← hprelude] at hpair hlt hcover
    obtain ⟨chunks, hread, hchunks⟩ := @decodeWindowed_parts z _ _ _ _ _ _ h hprelude hprx _ hlt
    refine ⟨chunks, ?_, sublist_of_picked hchunks hpair, fun d hd hin => ?_⟩
    · rw [readTerm, if_pos hwindowed]
      exact hread
    · rw [docsOf_parts] at hin
      obtain ⟨w, hw, v, hv, hdv⟩ := hcover d hd hin
      obtain ⟨chunk, hchunk, hpick⟩ := exists_right_of_mem hchunks hw
      rw [List.getElem?_map, hv, Option.map_some, Option.some_inj] at hpick
      exact List.mem_flatMap.mpr ⟨chunk, hchunk, hpick ▸ hdv⟩

/-- **A flat term** is read whole. -/
theorem reads_flat {chunk : PosChunk} (hwindowed : p.windowed = false)
    (hread : decodeFlatDocids z round1 needPositions p = .ok chunk)
    (hasc : Ascending chunk.docids) : Reads z idx round1 needPositions p [chunk] := by
  have hterm : ∀ candidates, readTerm z idx round1 needPositions candidates p = .ok [chunk] := by
    intro candidates
    unfold readTerm
    rw [if_neg (by simp [hwindowed]), hread, ok_bind]
    rfl
  constructor
  case ascending => simpa [docsOf] using hasc
  case driver => exact hterm none
  case covering =>
    intro docs _
    exact ⟨[chunk], hterm _, List.Sublist.refl _, fun d _ hd => hd⟩

/-- What the first round asks for a term, and that the term reads as its windows. -/
structure Readable (z : Zstd) (idx : LogicalIndexReader) (needPositions : Bool) (r : Resolved)
    (cells : List (Range × Bytes)) (chunks : List PosChunk) : Prop where
  here : CellsAt idx cells
  reads : ∀ reqs, ∃ p, configureTermPlan idx needPositions reqs r =
      .ok (p, reqs ++ cells.map Prod.fst) ∧
    ∀ f : Fetched, f.GetsFrom reqs.length (cells.map Prod.snd) →
      ∃ q, openPrelude f needPositions p = .ok q ∧ Reads z idx f needPositions q chunks

section Written

variable {r : Resolved}

/-- A written windowed term can be read. -/
theorem readable_windowed (h : WindowedAt c idx r vs prelude)
    (hprx : needPositions = true → c.hasPrx = true) (hcount : vs.length < 2 ^ 32)
    (hasc : Ascending (vs.flatMap Window.docs)) :
    Readable z idx needPositions r [(preludeRange idx r, prelude)]
      (vs.map (partOf needPositions)) := by
  have hwindowed : ∀ p : TermPlan, p.posting = r → p.windowed = true := by
    rintro p rfl
    rw [TermPlan.windowed, TermPlan.podRef, h.kind, h.enc]
    rfl
  have hhas : ¬ (needPositions = true ∧ (readerOf (columns c vs)).hasPrx = false) := by
    rintro ⟨hn, hfalse⟩
    have hc := hprx hn
    rw [show (readerOf (columns c vs)).hasPrx = c.hasPrx from rfl, hc] at hfalse
    cases hfalse
  constructor
  case here =>
    intro cell hcell
    cases List.mem_singleton.mp hcell
    exact ⟨h.frqAt.left, h.preludeLen⟩
  case reads =>
    intro reqs
    refine ⟨{ posting := r, preludeHandle := reqs.length }, ?_, fun f hgets => ?_⟩
    · simp only [configureTermPlan]
      rw [if_pos (hwindowed _ rfl)]
      rfl
    · refine ⟨{ posting := r, preludeHandle := reqs.length, prelude := readerOf (columns c vs) },
        ?_, reads_windowed h rfl hprx hcount hasc⟩
      rw [openPrelude, if_pos (hwindowed _ rfl), hgets.cons.1, ok_bind, h.opens, ok_bind, if_neg hhas]

/-- So can an inline one. -/
theorem readable_inline {prx : Bytes} (hkind : r.entry.kind = .inline)
    (hlen : r.entry.ddMeta.diskLen ≤ r.entry.frqBytes.length)
    (hdd : decodeDdRegion z (r.entry.frqBytes.take r.entry.ddMeta.diskLen) r.entry.ddMeta 0 =
      .ok tp.postings.docids)
    (hprx : needPositions = true → r.entry.prxBytes = prx) (hasc : Ascending tp.postings.docids) :
    Readable z idx needPositions r []
      [partOf needPositions ⟨tp.postings.docids, tp.postings.freqs, prx⟩] := by
  have hpod : ∀ p : TermPlan, p.posting = r → p.podRef = false := by
    rintro p rfl
    rw [TermPlan.podRef, hkind]
    rfl
  have hwindowed : ∀ p : TermPlan, p.posting = r → p.windowed = false := by
    intro p hp
    rw [TermPlan.windowed, hpod p hp, Bool.false_and]
  constructor
  case here => exact fun cell hcell => nomatch hcell
  case reads =>
    intro reqs
    refine ⟨{ posting := r }, ?_, fun f _ => ⟨{ posting := r }, ?_, ?_⟩⟩
    · simp only [configureTermPlan]
      rw [if_neg (by simp [hwindowed]), if_neg (by simp [hpod]), List.map_nil, List.append_nil]
    · rw [openPrelude, if_neg (by simp [hwindowed])]
    · apply reads_flat (hwindowed _ rfl) _ hasc
      rw [decodeFlatDocids, if_neg (by simp [hpod]), inlineDdRegion,
        if_neg (Nat.not_lt.mpr hlen), ok_bind,
        if_neg (show ¬ TermPlan.podRef _ = true by simp [hpod])]
      cases hn : needPositions with
      | false =>
          simp only [Bool.false_eq_true, if_false, ok_bind]
          rw [hdd, ok_bind]
          rfl
      | true =>
          simp only [if_true, ok_bind]
          rw [hdd, ok_bind, hprx hn]
          rfl

/-- And a slim one. -/
theorem readable_slim {frqAbs frqLen prxAbs : Nat} {dd prx : Bytes} (hkind : r.entry.kind = .podRef)
    (henc : r.entry.enc = .slim)
    (hfrq : resolveFrqWindow idx r.entry r.frqBase = .ok (frqAbs, frqLen))
    (hlen : slimFrqDocsLen r.entry frqLen = .ok dd.length) (hddAt : At idx.file frqAbs dd)
    (hdd : decodeDdRegion z dd r.entry.ddMeta 0 = .ok tp.postings.docids)
    (hprx : needPositions = true → resolvePrxWindow idx r.entry r.prxBase = .ok (prxAbs, prx.length) ∧
      At idx.file prxAbs prx) (hasc : Ascending tp.postings.docids) :
    Readable z idx needPositions r
      ((⟨frqAbs, dd.length⟩, dd) :: if needPositions then [(⟨prxAbs, prx.length⟩, prx)] else [])
      [partOf needPositions ⟨tp.postings.docids, tp.postings.freqs, prx⟩] := by
  have hpod : ∀ p : TermPlan, p.posting = r → p.podRef = true := by
    rintro p rfl
    rw [TermPlan.podRef, hkind]
    rfl
  have hwindowed : ∀ p : TermPlan, p.posting = r → p.windowed = false := by
    rintro p rfl
    rw [TermPlan.windowed, henc]
    exact Bool.and_false _
  constructor
  case here =>
    intro cell hcell
    cases List.mem_cons.mp hcell with
    | inl heq =>
        subst heq
        exact ⟨hddAt, rfl⟩
    | inr hin =>
        cases hn : needPositions with
        | false =>
            rw [hn] at hin
            cases hin
        | true =>
            rw [hn, if_pos rfl] at hin
            cases List.mem_singleton.mp hin
            exact ⟨(hprx hn).2, rfl⟩
  case reads =>
    intro reqs
    cases hn : needPositions with
    | false =>
        refine ⟨{ posting := r, frqHandle := reqs.length }, ?_, fun f hgets =>
          ⟨{ posting := r, frqHandle := reqs.length }, ?_, ?_⟩⟩
        · simp only [configureTermPlan]
          rw [if_neg (by simp [hwindowed]), if_pos (hpod _ rfl), hfrq, ok_bind]
          simp only [hlen, ok_bind]
          rfl
        · rw [openPrelude, if_neg (by simp [hwindowed])]
        · apply reads_flat (hwindowed _ rfl) _ hasc
          rw [decodeFlatDocids, if_pos (hpod _ rfl), hgets.cons.1, ok_bind]
          simp only [Bool.false_eq_true, if_false, ok_bind]
          rw [hdd, ok_bind]
          rfl
    | true =>
        refine ⟨{ posting := r, frqHandle := reqs.length, prxHandle := reqs.length + 1 }, ?_,
          fun f hgets => ⟨{ posting := r, frqHandle := reqs.length, prxHandle := reqs.length + 1 },
            ?_, ?_⟩⟩
        · simp only [configureTermPlan]
          rw [if_neg (by simp [hwindowed]), if_pos (hpod _ rfl), hfrq, ok_bind]
          simp only [hlen, ok_bind, if_true]
          rw [(hprx hn).1, ok_bind]
          simp only [List.length_append, List.length_singleton, List.map_cons, List.map_nil,
            List.append_assoc, List.singleton_append]
          rfl
        · rw [openPrelude, if_neg (by simp [hwindowed])]
        · apply reads_flat (hwindowed _ rfl) _ hasc
          rw [decodeFlatDocids, if_pos (hpod _ rfl), hgets.cons.1, ok_bind, if_pos rfl,
            if_pos (hpod _ rfl), hgets.cons.2.cons.1, ok_bind, hdd, ok_bind]
          rfl

theorem length_le_docs (hne : ∀ v ∈ vs, v.docs ≠ []) : vs.length ≤ (vs.flatMap Window.docs).length := by
  induction vs with
  | nil => exact Nat.zero_le _
  | cons v vs ih =>
      have hpos := List.length_pos_iff.mpr (hne v List.mem_cons_self)
      have hrest := ih fun u hu => hne u (List.mem_cons_of_mem _ hu)
      rw [List.flatMap_cons, List.length_append, List.length_cons]
      omega

/-- **A written posting** reads as its windows. -/
theorem readable_of_entryAt (h : EntryAt z c idx tp r) (hwidths : TermWidths tp.postings)
    (hlen : tp.postings.freqs.length = tp.postings.docids.length)
    (hasc : Ascending tp.postings.docids)
    (hwide : r.entry.enc = .windowed → kSlimDfThreshold ≤ tp.postings.docids.length)
    (hprx : needPositions = true → c.hasPrx = true) :
    ∃ vs cells, TermWindows z c tp vs ∧
      Readable z idx needPositions r cells (vs.map (partOf needPositions)) := by
  cases h with
  | windowed vs prelude term placed =>
      have hwindows := TermWindows.windowed vs prelude (hwide placed.enc) term
      have hdocs := hwindows.docs hlen
      have hcount := length_le_docs fun v hv => (placed.windows v hv).pos
      have hwidth := hwidths.count
      rw [hdocs] at hcount
      exact ⟨vs, _, hwindows, readable_windowed placed hprx (by omega) (hdocs ▸ hasc)⟩
  | inline prx positions regions kind frq prxHere =>
      have hdd := regions.dd.diskLen
      have hle : r.entry.ddMeta.diskLen ≤ r.entry.frqBytes.length := by
        rw [frq, slimFrq, List.length_append, hdd]
        omega
      have htake : r.entry.frqBytes.take r.entry.ddMeta.diskLen = slimDd tp.postings := by
        rw [frq, slimFrq, hdd, List.take_left]
      refine ⟨_, [], .flat prx regions.small positions, readable_inline kind hle ?_ (fun hn => prxHere (hprx hn)) hasc⟩
      rw [htake]
      exact decodeFlatDocs_slim regions hwidths
  | slim prx frqAbs prxAbs positions regions kind docsLen frqRange frqHere prxRange prxHere =>
      have hpos := length_slimDd_pos tp.postings
      have hle : ¬ (slimDd tp.postings).length > (slimFrq c tp.postings).length := by
        rw [slimFrq, List.length_append]
        omega
      refine ⟨_, _, .flat prx regions.small positions, readable_slim kind regions.enc frqRange ?_ frqHere.left
        (decodeFlatDocs_slim regions hwidths) (fun hn => ⟨prxRange (hprx hn), prxHere (hprx hn)⟩) hasc⟩
      rw [slimFrqDocsLen, docsLen, if_neg hle, if_pos hpos]

end Written

/-! ## The first round -/

/-- A term's entry, what the first round asks for it and the parts it is read in. -/
structure TermRead where
  posting : Resolved
  cells : List (Range × Bytes)
  chunks : List PosChunk

/-- The reads of a term return what it says. -/
def TermRead.Ok (z : Zstd) (idx : LogicalIndexReader) (needPositions : Bool) (x : TermRead) : Prop :=
  Readable z idx needPositions x.posting x.cells x.chunks

/-- Planning puts every term's cells into one batch. -/
theorem planResolvedTerms_ok {xs : List TermRead} (h : ∀ x ∈ xs, x.Ok z idx needPositions)
    (reqs : List Range) :
    ∃ plans, planResolvedTerms idx needPositions reqs (xs.map TermRead.posting) =
        .ok (plans, reqs ++ (xs.flatMap TermRead.cells).map Prod.fst) ∧
      ∀ f : Fetched, f.GetsFrom reqs.length ((xs.flatMap TermRead.cells).map Prod.snd) →
        ∃ opened, openPreludes f needPositions plans = .ok opened ∧
          List.Forall₂ (Reads z idx f needPositions) opened (xs.map TermRead.chunks) := by
  induction xs generalizing reqs with
  | nil => exact ⟨[], by simp [planResolvedTerms], fun f _ => ⟨[], rfl, .nil⟩⟩
  | cons x xs ih =>
      obtain ⟨p, hp, hopen⟩ := (h x List.mem_cons_self).reads reqs
      obtain ⟨plans, hplans, hrest⟩ := ih (fun y hy => h y (List.mem_cons_of_mem _ hy))
        (reqs ++ x.cells.map Prod.fst)
      refine ⟨p :: plans, ?_, fun f hgets => ?_⟩
      · rw [List.map_cons, planResolvedTerms, hp, ok_bind]
        simp only
        rw [hplans, ok_bind, List.flatMap_cons, List.map_append, List.append_assoc]
        rfl
      · rw [List.flatMap_cons, List.map_append] at hgets
        have hsplit := hgets.append
        obtain ⟨q, hq, hreads⟩ := hopen f hsplit.1
        rw [List.length_map] at hsplit
        obtain ⟨opened, hopened, hall⟩ := hrest f (by simpa using hsplit.2)
        refine ⟨q :: opened, ?_, .cons hreads hall⟩
        rw [openPreludes] at hopened ⊢
        rw [List.mapM_cons, hq, ok_bind, hopened]
        rfl

/-- **The first round** over readable terms opens every prelude. -/
theorem round1_ok (hsize : idx.file.length < 2 ^ 64) {xs : List TermRead}
    (h : ∀ x ∈ xs, x.Ok z idx needPositions) :
    ∃ plans reqs round1 opened,
      planResolvedTerms idx needPositions [] (xs.map TermRead.posting) = .ok (plans, reqs) ∧
        fetch idx.file 0 reqs = .ok round1 ∧ openPreludes round1 needPositions plans = .ok opened ∧
        List.Forall₂ (Reads z idx round1 needPositions) opened (xs.map TermRead.chunks) := by
  have hcells : CellsAt idx (xs.flatMap TermRead.cells) := by
    intro cell hcell
    obtain ⟨x, hx, hin⟩ := List.mem_flatMap.mp hcell
    exact (h x hx).here cell hin
  obtain ⟨round1, hfetch, hgets⟩ := hcells.fetch hsize 0
  obtain ⟨plans, hplans, hopen⟩ := planResolvedTerms_ok h []
  obtain ⟨opened, hopened, hreads⟩ := hopen round1 hgets
  exact ⟨plans, _, round1, opened, hplans, by simpa using hfetch, hopened, hreads⟩

/-! ## The loop -/

section Loop

variable {css srcs : List (List PosChunk)} {done : List Nat} {candidates : Option (List Nat)}

/-- The candidates after some terms: the documents that all of them hold, each in a part
that its term keeps. -/
structure Narrowed (css : List (List PosChunk)) (done : List Nat) (docs : List Nat)
    (srcs : List (List PosChunk)) : Prop where
  ascending : Ascending docs
  mem : ∀ d, d ∈ docs ↔ ∀ i ∈ done, d ∈ docsOf (css.getD i [])
  kept : ∀ i ∈ done, ∀ d ∈ docs, ∃ sel, srcs[i]? = some sel ∧ sel.Sublist (css.getD i []) ∧
    d ∈ docsOf sel

/-- Before a term is read: no term was, or the candidates are narrowed to the ones that
were. -/
inductive Before (css : List (List PosChunk)) :
    List Nat → Option (List Nat) → List (List PosChunk) → Prop
  | start (srcs : List (List PosChunk)) : Before css [] none srcs
  | after {done docs : List Nat} {srcs : List (List PosChunk)} (h : Narrowed css done docs srcs) :
      Before css done (some docs) srcs

/-- **One term** narrows the candidates to its own documents, whatever windows of it are
skipped. -/
theorem readTerm_narrowed {ti : Nat} {chunks : List PosChunk}
    (hreads : Reads z idx round1 needPositions p chunks) (hchunks : css[ti]? = some chunks)
    (hlt : ti < srcs.length) (h : Before css done candidates srcs) :
    ∃ sel, readTerm z idx round1 needPositions candidates p = .ok sel ∧
      Narrowed css (done ++ [ti]) (narrow candidates (docsOf sel)) (srcs.set ti sel) := by
  have hget : css.getD ti [] = chunks := by rw [List.getD_eq_getElem?_getD, hchunks]; rfl
  cases h with
  | start srcs =>
      refine ⟨chunks, hreads.driver, hreads.ascending, fun d => ?_, fun i hi d hd => ?_⟩
      · rw [List.nil_append, List.forall_mem_singleton, hget]
        rfl
      · cases List.mem_singleton.mp hi
        exact ⟨chunks, by rw [List.getElem?_set_self hlt], hget ▸ List.Sublist.refl _, hd⟩
  | @after done docs srcs h =>
      obtain ⟨sel, hread, hsub, hcover⟩ := hreads.covering docs h.ascending
      have hasc : Ascending (docsOf sel) := hreads.ascending.sublist (docsOf_sublist hsub)
      have hmem : ∀ d, d ∈ intersectSorted docs (docsOf sel) ↔ d ∈ docs ∧ d ∈ docsOf chunks := by
        intro d
        rw [mem_intersectSorted h.ascending hasc]
        exact ⟨fun hd => ⟨hd.1, (docsOf_sublist hsub).subset hd.2⟩,
          fun hd => ⟨hd.1, hcover d hd.1 hd.2⟩⟩
      refine ⟨sel, hread, ascending_intersectSorted h.ascending hasc, fun d => ?_,
        fun i hi d hd => ?_⟩
      · show d ∈ intersectSorted docs (docsOf sel) ↔ _
        rw [hmem, h.mem, List.forall_mem_append, List.forall_mem_singleton, hget]
      · obtain ⟨hdocs, hsel⟩ := (mem_intersectSorted h.ascending hasc d).mp hd
        by_cases hi' : ti = i
        · subst hi'
          exact ⟨sel, by rw [List.getElem?_set_self hlt], hget ▸ hsub, hsel⟩
        · rw [List.getElem?_set_ne hi']
          have hdone : i ∈ done := by
            rw [List.mem_append, List.mem_singleton] at hi
            exact hi.resolve_right fun heq => hi' heq.symm
          exact h.kept i hdone d hdocs

/-- Without candidates, later terms change nothing. -/
theorem Narrowed.empty (h : Narrowed css done [] srcs) (order : List Nat) :
    Narrowed css (done ++ order) [] srcs := by
  refine ⟨List.Pairwise.nil, fun d => ?_, fun i _ d hd => nomatch hd⟩
  rw [List.forall_mem_append, ← h.mem]
  simp

/-- **The loop**, in whatever order the terms are taken. -/
theorem conjunctionLoop_ok {plans : List TermPlan}
    (hplans : List.Forall₂ (Reads z idx round1 needPositions) plans css) {order : List Nat}
    (horder : ∀ i ∈ order, i < plans.length) (hlen : srcs.length = plans.length)
    (hne : done ++ order ≠ []) (h : Before css done candidates srcs) :
    ∃ srcs' docs, conjunctionLoop z idx round1 needPositions plans order candidates srcs =
        .ok (srcs', docs) ∧ Narrowed css (done ++ order) docs srcs' ∧
        srcs'.length = plans.length := by
  induction order generalizing done candidates srcs with
  | nil =>
      rw [List.append_nil] at hne ⊢
      cases h with
      | start srcs => exact absurd rfl hne
      | after h => exact ⟨srcs, _, rfl, h, hlen⟩
  | cons ti order ih =>
      have hti := horder ti List.mem_cons_self
      have hti' : ti < css.length := by rwa [← hplans.length_eq]
      have hreads := hplans.get hti hti'
      rw [List.get_eq_getElem, List.get_eq_getElem] at hreads
      obtain ⟨sel, hread, hnarrowed⟩ := readTerm_narrowed hreads (List.getElem?_eq_getElem hti')
        (by rwa [hlen]) h
      have hstep : conjunctionLoop z idx round1 needPositions plans (ti :: order) candidates srcs =
          if narrow candidates (docsOf sel) = [] then .ok (srcs.set ti sel, [])
          else conjunctionLoop z idx round1 needPositions plans order
            (some (narrow candidates (docsOf sel))) (srcs.set ti sel) := by
        rw [conjunctionLoop, List.getElem?_eq_getElem hti]
        simp only
        rw [hread, ok_bind]
        rfl
      have hsplit : done ++ ti :: order = (done ++ [ti]) ++ order := by simp
      rw [hstep, hsplit]
      by_cases hnil : narrow candidates (docsOf sel) = []
      · rw [if_pos hnil]
        rw [hnil] at hnarrowed
        exact ⟨_, [], rfl, hnarrowed.empty order, by rw [List.length_set, hlen]⟩
      · rw [if_neg hnil]
        apply ih (fun i hi => horder i (List.mem_cons_of_mem _ hi)) (by rw [List.length_set, hlen])
          (by simp) (.after hnarrowed)

/-- **The conjunction** of at least one term: the documents that every term holds. -/
theorem buildConjunction_ok (srt : DocSort) {plans : List TermPlan}
    (hplans : List.Forall₂ (Reads z idx round1 needPositions) plans css) (hne : css ≠ []) :
    ∃ srcs docs, buildConjunction srt z idx round1 needPositions plans = .ok (srcs, docs) ∧
      Narrowed css (List.range css.length) docs srcs ∧ srcs.length = css.length := by
  have hperm := srt.perm (plans.map TermPlan.df)
  rw [List.length_map, hplans.length_eq] at hperm
  have hmem : ∀ i, i ∈ ascendingDfOrder srt plans ↔ i ∈ List.range css.length := fun i =>
    hperm.mem_iff
  have horder : ascendingDfOrder srt plans ≠ [] := by
    intro hnil
    have hlen := hperm.length_eq
    rw [ascendingDfOrder] at hnil
    rw [hnil, List.length_range] at hlen
    exact hne (List.length_eq_zero_iff.mp hlen.symm)
  obtain ⟨srcs, docs, hloop, h, hlen⟩ := conjunctionLoop_ok hplans
    (fun i hi => by rw [hplans.length_eq]; exact List.mem_range.mp ((hmem i).mp hi))
    List.length_replicate (by simpa using horder) (.start _)
  rw [List.nil_append] at h
  refine ⟨srcs, docs, hloop, ⟨h.ascending, fun d => (h.mem d).trans ?_, fun i hi => ?_⟩,
    hlen.trans hplans.length_eq⟩
  · exact forall_congr' fun i => imp_congr_left (hmem i)
  · exact h.kept i ((hmem i).mpr hi)

end Loop

end Snii.Query.Conjunction
