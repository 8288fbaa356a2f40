import Snii.Common.Status
import Snii.Query.ScoringQuery

/-!
# Top-`k` retrieval over lazily fetched windows

The selective half of `scoring_query.cpp`, and the construction of the cursors
of both halves.  A term of the index is missing, slim (one block, decoded at
once) or windowed: for each window the row of its prelude and the scored
postings its regions decode to (`WindowData`).

The lazy cursor addresses the postings of all windows by one virtual position.
A slot of its cache is empty until its window is materialised; reading an empty
slot is the error `outOfBounds`, so a run that returns `ok` read none.
-/

namespace Snii.Query.ScoringQuery

open Snii.Common

/-- A window of a windowed term: its prelude row, with the score bound computed
from the block-max columns, and what its dd and freq regions decode to. -/
structure WindowData where
  winBase : Nat
  lastDocid : Nat
  docCount : Nat
  maxScore : ℚ
  postings : List TermPosting

/-- What the index holds of a query term. -/
inductive TermSource where
  | missing
  | slim (postings : List TermPosting)
  | windowed (windows : List WindowData)

/-- `decode_window_slices` followed by the scoring of the window's documents. -/
def decodeWindow (d : WindowData) : Result (List TermPosting) :=
  if d.postings.length ≠ d.docCount then
    .error (.corruption "windowed_posting: frq doc_count mismatch")
  else .ok d.postings

/-- Bounds of the non-empty windows; the first window starts at its base, every
other one after the previous window's last docid. -/
def buildWindowBounds (ws : List WindowData) : List WindowBound :=
  ws.zipIdx.filterMap fun (d, w) =>
    if d.docCount = 0 then none
    else some { firstDocid := d.winBase + (if w = 0 then 0 else 1), lastDocid := d.lastDocid
                maxScore := d.maxScore, blockMax := true }

/-! ## Eager cursors -/

/-- All windows of a term, decoded one after the other. -/
def readWindowed : List WindowData → Result (List TermPosting)
  | [] => .ok []
  | d :: ws => do
      let ps ← decodeWindow d
      let rest ← readWindowed ws
      pure (ps ++ rest)

/-- The cursor of a term that was read whole. -/
def buildCursor : TermSource → Result (Option TermCursor)
  | .missing => .ok none
  | .slim postings =>
      .ok (some { postings := postings, windows := singleWindowFallback postings })
  | .windowed ws => do
      let postings ← readWindowed ws
      let windows := buildWindowBounds ws
      pure (some { postings := postings
                   windows := if windows = [] then singleWindowFallback postings else windows })

/-- The cursors of the terms that have postings. -/
def buildCursors : List TermSource → Result (List TermCursor)
  | [] => .ok []
  | term :: terms => do
      let c ← buildCursor term
      let rest ← buildCursors terms
      pure (match c with
        | some c => if c.postings = [] then rest else c :: rest
        | none => rest)

/-- The eager loop on the terms of an index: its offers and final queue. -/
def wandTerms (srt : DocSort) (k : Nat) (terms : List TermSource) :
    Option (Result (List Entry × TopK)) :=
  match buildCursors terms with
  | .error s => some (.error s)
  | .ok cursors => (wandRun srt k cursors).map .ok

/-- `scoring_query_wand` on the terms of an index. -/
def scoringQueryWandTerms (srt : DocSort) (k : Nat) (terms : List TermSource) :
    Option (Result (List ScoredDoc)) :=
  if k = 0 then some (.ok [])
  else (wandTerms srt k terms).map fun r => r.map fun x => drainSorted x.2

/-! ## Lazy cursors -/

/-- One query term's lazily fetched state: bounds, the posting cache, the prefix
offsets of the windows in it, which windows are cached, and the position. -/
structure LazyTermCursor where
  source : List WindowData
  windows : List WindowBound
  postings : List (Option TermPosting)
  winStart : List Nat
  fetched : List Bool
  pos : Nat := 0

namespace LazyTermCursor

/-- The postings of all windows. -/
def totalPostings (c : LazyTermCursor) : Nat := c.winStart.getLast?.getD 0

/-- `upper_bound` on the prefix offsets: the window that holds posting `p`. -/
def windowOf (c : LazyTermCursor) (p : Nat) : Nat :=
  (c.winStart.takeWhile (fun s => s ≤ p)).length - 1

/-- A read of a cache slot. -/
def slot (c : LazyTermCursor) (p : Nat) : Result TermPosting :=
  match c.postings[p]? with
  | some (some x) => .ok x
  | _ => .error .outOfBounds

/-- Fetches and decodes a window into the cache, once. -/
def materializeWindow (c : LazyTermCursor) (w : Nat) : Result LazyTermCursor :=
  if c.fetched.getD w false then .ok c
  else match c.source[w]? with
    | none => .error (.invalidArgument "frq_prelude: window index out of range")
    | some d => do
        let scored ← decodeWindow d
        let start := c.winStart.getD w 0
        if scored.length ≠ c.winStart.getD (w + 1) 0 - start then
          .error (.corruption "scoring_query: selective window doc-count drift")
        else
          .ok { c with
            postings := c.postings.take start ++ scored.map some ++
              c.postings.drop (start + scored.length)
            fetched := c.fetched.set w true }

/-- The docid the cursor stands at, its window taken if need be. -/
def lazyCurrentDoc (c : LazyTermCursor) : Result (Nat × LazyTermCursor) :=
  if c.totalPostings ≤ c.pos then .ok (uint32Max, c)
  else do
    let c ← c.materializeWindow (c.windowOf c.pos)
    let p ← c.slot c.pos
    pure (p.docid, c)

/-- The first loop of `LazySkipTo`: past whole windows, by the prelude alone. -/
def skipWindows (target : Nat) : Nat → LazyTermCursor → Result LazyTermCursor
  | 0, c => .ok c
  | fuel + 1, c =>
      if c.totalPostings ≤ c.pos then .ok c
      else match c.windows[c.windowOf c.pos]? with
        | none => .error .outOfBounds
        | some b =>
            if b.lastDocid ≥ target then .ok c
            else skipWindows target fuel
              { c with pos := c.winStart.getD (c.windowOf c.pos + 1) 0 }

/-- The second loop of `LazySkipTo`: posting by posting in the landing window. -/
def skipSlots (target : Nat) : Nat → LazyTermCursor → Result LazyTermCursor
  | 0, c => .ok c
  | fuel + 1, c =>
      if c.totalPostings ≤ c.pos then .ok c
      else do
        let p ← c.slot c.pos
        if p.docid < target then skipSlots target fuel { c with pos := c.pos + 1 } else .ok c

/-- Whole windows first, by their last docids, then postings. -/
def lazySkipTo (target : Nat) (c : LazyTermCursor) : Result LazyTermCursor := do
  let c ← skipWindows target (c.windows.length + 1) c
  if c.totalPostings ≤ c.pos then .ok c
  else
    let c ← c.materializeWindow (c.windowOf c.pos)
    skipSlots target (c.totalPostings - c.pos + 1) c

/-- The bound of the first window that ends at or behind the docid. -/
def lazyTermBoundAt (c : LazyTermCursor) (docid : Nat) : ℚ :=
  match c.windows.find? (fun w => docid ≤ w.lastDocid) with
  | some w => w.maxScore
  | none => 0

end LazyTermCursor

open LazyTermCursor

/-- Running sums of the document counts, in 32 bits. -/
def countOffsets : Nat → List Nat → List Nat
  | acc, [] => [acc]
  | acc, n :: counts => acc :: countOffsets ((acc + n) % 2 ^ 32) counts

/-- Bounds and counts of all windows, postings of none. -/
def buildLazyWindowed (ws : List WindowData) : LazyTermCursor :=
  let windows := buildWindowBounds ws
  let winStart := countOffsets 0 ((ws.map WindowData.docCount).filter (· ≠ 0))
  { source := ws, windows := windows
    postings := List.replicate (winStart.getLast?.getD 0) none
    winStart := winStart, fetched := List.replicate windows.length false }

/-- A term of one window, which is there from the start. -/
def buildLazySlim (postings : List TermPosting) : LazyTermCursor :=
  { source := [], windows := singleWindowFallback postings, postings := postings.map some
    winStart := [0, postings.length % 2 ^ 32], fetched := [true] }

/-- By what is known of the term. -/
def buildLazyCursor : TermSource → Option LazyTermCursor
  | .missing => none
  | .slim postings => some (buildLazySlim postings)
  | .windowed ws => some (buildLazyWindowed ws)

/-- The cursors of the terms that have postings. -/
def selectiveBuildCursors (terms : List TermSource) : List LazyTermCursor :=
  (terms.filterMap buildLazyCursor).filter fun c => 0 < c.totalPostings

/-! ## The lazy loop -/

/-- The current docid of every cursor, each cursor's window materialised. -/
def currentDocs : List LazyTermCursor → Result (List Nat × List LazyTermCursor)
  | [] => .ok ([], [])
  | c :: cs => do
      let (d, c) ← c.lazyCurrentDoc
      let (ds, cs) ← currentDocs cs
      pure (d :: ds, c :: cs)

/-- The cursors in docid order, and the smallest docid. -/
def selectiveSortByDoc (srt : DocSort) (cursors : List LazyTermCursor) :
    Result (Nat × List LazyTermCursor) := do
  let (docs, cursors) ← currentDocs cursors
  let order := srt.order docs
  pure (match order.head? with
    | some i => docs.getD i 0
    | none => uint32Max, order.filterMap fun i => cursors[i]?)

/-- The first docid at which the bounds up to it reach the threshold. -/
def selectivePivot (theta : ℚ) :
    ℚ → List LazyTermCursor → Result (Option Nat × List LazyTermCursor)
  | _, [] => .ok (none, [])
  | bound, c :: rest => do
      let (d, c) ← c.lazyCurrentDoc
      if d = uint32Max then pure (none, c :: rest)
      else if bound + c.lazyTermBoundAt d ≥ theta then pure (some d, c :: rest)
      else
        let (pivot, rest) ← selectivePivot theta (bound + c.lazyTermBoundAt d) rest
        pure (pivot, c :: rest)

/-- Sums the cursors standing at the pivot doc and moves them one posting on. -/
def selectiveScorePivot (pivotDoc : Nat) :
    List LazyTermCursor → Result (ℚ × List LazyTermCursor)
  | [] => .ok (0, [])
  | c :: rest => do
      let (d, c) ← c.lazyCurrentDoc
      if d = pivotDoc then
        let p ← c.slot c.pos
        let (s, rest) ← selectiveScorePivot pivotDoc rest
        pure (p.score + s, { c with pos := c.pos + 1 } :: rest)
      else
        let (s, rest) ← selectiveScorePivot pivotDoc rest
        pure (s, c :: rest)

/-- The cursors before the pivot catch up with it. -/
def selectiveAdvanceLagging (pivotDoc : Nat) :
    List LazyTermCursor → Result (List LazyTermCursor)
  | [] => .ok []
  | c :: rest => do
      let (d, c) ← c.lazyCurrentDoc
      if d < pivotDoc then
        let c ← c.lazySkipTo pivotDoc
        pure (c :: rest)
      else
        let rest ← selectiveAdvanceLagging pivotDoc rest
        pure (c :: rest)

/-- One iteration: the cursors and the entry offered if any; `none` when done. -/
def selectiveStep (srt : DocSort) (theta : ℚ) (cursors : List LazyTermCursor) :
    Result (Option (List LazyTermCursor × Option Entry)) := do
  let (front, cursors) ← selectiveSortByDoc srt cursors
  if cursors = [] ∨ front = uint32Max then pure none
  else
    let (pivot, cursors) ← selectivePivot theta 0 cursors
    match pivot with
    | none => pure none
    | some pivotDoc =>
        if front = pivotDoc then
          let (score, cursors) ← selectiveScorePivot pivotDoc cursors
          pure (some (cursors, some (score, pivotDoc)))
        else
          let cursors ← selectiveAdvanceLagging pivotDoc cursors
          pure (some (cursors, none))

/-- The loop with an iteration budget, as `wandLoop`. -/
def selectiveWandLoop (srt : DocSort) :
    Nat → List LazyTermCursor → TopK → Option (Result (List Entry × TopK))
  | 0, _, _ => none
  | fuel + 1, cursors, topk =>
      match selectiveStep srt topk.threshold cursors with
      | .error s => some (.error s)
      | .ok none => some (.ok ([], topk))
      | .ok (some (cursors, offer)) =>
          (selectiveWandLoop srt fuel cursors (topk.after offer)).map fun r =>
            r.map fun x => (offer.toList ++ x.1, x.2)

/-- The lazy loop on the terms of an index: its offers and final queue. -/
def selectiveTerms (srt : DocSort) (k : Nat) (terms : List TermSource) :
    Option (Result (List Entry × TopK)) :=
  let cursors := selectiveBuildCursors terms
  selectiveWandLoop srt ((cursors.map totalPostings).sum + 1) cursors { k := k, heap := [] }

/-- `scoring_query_wand_selective`. -/
def scoringQueryWandSelective (srt : DocSort) (k : Nat) (terms : List TermSource) :
    Option (Result (List ScoredDoc)) :=
  if k = 0 then some (.ok [])
  else (selectiveTerms srt k terms).map fun r => r.map fun x => drainSorted x.2

end Snii.Query.ScoringQuery
