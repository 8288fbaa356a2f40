import Snii.Query.LazyWand

/-!
# Cursors that fetch their windows

The lazy cursor of `scoring_query.cpp` with the reads it makes: a window is fetched,
decoded and scored when a posting in it is touched, and the read may fail.  Where the
windows are known beforehand (`ofLazy`) every operation does what the lazy cursor over
these windows does, so the whole loop does (`selectiveWandLoop_ofLazy`).
-/

namespace Snii.Query.FetchedWindows

open Snii.Common Snii.Query.ScoringQuery

/-- A lazy cursor with the read of a window, of which it expects a number of postings. -/
structure FetchingCursor where
  fetch : Nat → Nat → Result (List TermPosting)
  windows : List WindowBound
  postings : List (Option TermPosting)
  winStart : List Nat
  fetched : List Bool
  pos : Nat := 0

namespace FetchingCursor

/-- The postings of all windows, known before any is read. -/
def totalPostings (c : FetchingCursor) : Nat := c.winStart.getLast?.getD 0

/-- The window that holds posting `p`. -/
def windowOf (c : FetchingCursor) (p : Nat) : Nat :=
  (c.winStart.takeWhile (fun s => s ≤ p)).length - 1

/-- A posting that must have been read. -/
def slot (c : FetchingCursor) (p : Nat) : Result TermPosting :=
  match c.postings[p]? with
  | some (some x) => .ok x
  | _ => .error .outOfBounds

/-- Reads a window, once. -/
def materializeWindow (c : FetchingCursor) (w : Nat) : Result FetchingCursor :=
  if c.fetched.getD w false then .ok c
  else do
    let start := c.winStart.getD w 0
    let scored ← c.fetch w (c.winStart.getD (w + 1) 0 - start)
    pure { c with
      postings := c.postings.take start ++ scored.map some ++
        c.postings.drop (start + scored.length)
      fetched := c.fetched.set w true }

/-- The docid the cursor stands at, its window read if need be. -/
def lazyCurrentDoc (c : FetchingCursor) : Result (Nat × FetchingCursor) :=
  if c.totalPostings ≤ c.pos then .ok (uint32Max, c)
  else do
    let c ← c.materializeWindow (c.windowOf c.pos)
    let p ← c.slot c.pos
    pure (p.docid, c)

/-- Past whole windows, none of them fetched. -/
def skipWindows (target : Nat) : Nat → FetchingCursor → Result FetchingCursor
  | 0, c => .ok c
  | fuel + 1, c =>
      if c.totalPostings ≤ c.pos then .ok c
      else match c.windows[c.windowOf c.pos]? with
        | none => .error .outOfBounds
        | some b =>
            if b.lastDocid ≥ target then .ok c
            else skipWindows target fuel
              { c with pos := c.winStart.getD (c.windowOf c.pos + 1) 0 }

/-- Passes over the postings before the target in the window at hand. -/
def skipSlots (target : Nat) : Nat → FetchingCursor → Result FetchingCursor
  | 0, c => .ok c
  | fuel + 1, c =>
      if c.totalPostings ≤ c.pos then .ok c
      else do
        let p ← c.slot c.pos
        if p.docid < target then skipSlots target fuel { c with pos := c.pos + 1 } else .ok c

/-- Whole windows first, by their last docids, then postings. -/
def lazySkipTo (target : Nat) (c : FetchingCursor) : Result FetchingCursor := do
  let c ← skipWindows target (c.windows.length + 1) c
  if c.totalPostings ≤ c.pos then .ok c
  else
    let c ← c.materializeWindow (c.windowOf c.pos)
    skipSlots target (c.totalPostings - c.pos + 1) c

/-- The bound of the first window that ends at or behind the docid. -/
def lazyTermBoundAt (c : FetchingCursor) (docid : Nat) : ℚ :=
  match c.windows.find? (fun w => docid ≤ w.lastDocid) with
  | some w => w.maxScore
  | none => 0

end FetchingCursor

open FetchingCursor

/-! ## The loop -/

/-- The docids all cursors stand at. -/
def currentDocs : List FetchingCursor → Result (List Nat × List FetchingCursor)
  | [] => .ok ([], [])
  | c :: cs => do
      let (d, c) ← c.lazyCurrentDoc
      let (ds, cs) ← currentDocs cs
      pure (d :: ds, c :: cs)

/-- The cursors by the docids they stand at. -/
def selectiveSortByDoc (srt : DocSort) (cursors : List FetchingCursor) :
    Result (Nat × List FetchingCursor) := do
  let (docs, cursors) ← currentDocs cursors
  let order := srt.order docs
  pure (match order.head? with
    | some i => docs.getD i 0
    | none => uint32Max, order.filterMap fun i => cursors[i]?)

/-- The first docid at which the bounds up to it reach the threshold. -/
def selectivePivot (theta : ℚ) :
    ℚ → List FetchingCursor → Result (Option Nat × List FetchingCursor)
  | _, [] => .ok (none, [])
  | bound, c :: rest => do
      let (d, c) ← c.lazyCurrentDoc
      if d = uint32Max then pure (none, c :: rest)
      else if bound + c.lazyTermBoundAt d ≥ theta then pure (some d, c :: rest)
      else
        let (pivot, rest) ← selectivePivot theta (bound + c.lazyTermBoundAt d) rest
        pure (pivot, c :: rest)

/-- The sum of the scores of the cursors that stand at the pivot, which move on. -/
def selectiveScorePivot (pivotDoc : Nat) :
    List FetchingCursor → Result (ℚ × List FetchingCursor)
  | [] => .ok (0, [])
  | c :: rest => do
      let (d, c) ← c.lazyCurrentDoc
      if d = pivotDoc then
        let p ← c.slot c.pos
        let (s, rest) ← selectiveScorePivot pivotDoc rest
        pure (p.score + s, { c with pos := c.pos + 1 } :: rest)
      else
        let (s, rest) ← selectiveScorePivot pivotDoc rest
        pure (s, c :: rest)

/-- The cursors before the pivot catch up with it. -/
def selectiveAdvanceLagging (pivotDoc : Nat) :
    List FetchingCursor → Result (List FetchingCursor)
  | [] => .ok []
  | c :: rest => do
      let (d, c) ← c.lazyCurrentDoc
      if d < pivotDoc then
        let c ← c.lazySkipTo pivotDoc
        pure (c :: rest)
      else
        let rest ← selectiveAdvanceLagging pivotDoc rest
        pure (c :: rest)

/-- One iteration: a document offered, or cursors moved up to the pivot. -/
def selectiveStep (srt : DocSort) (theta : ℚ) (cursors : List FetchingCursor) :
    Result (Option (List FetchingCursor × Option Entry)) := do
  let (front, cursors) ← selectiveSortByDoc srt cursors
  if cursors = [] ∨ front = uint32Max then pure none
  else
    let (pivot, cursors) ← selectivePivot theta 0 cursors
    match pivot with
    | none => pure none
    | some pivotDoc =>
        if front = pivotDoc then
          let (score, cursors) ← selectiveScorePivot pivotDoc cursors
          pure (some (cursors, some (score, pivotDoc)))
        else
          let cursors ← selectiveAdvanceLagging pivotDoc cursors
          pure (some (cursors, none))

/-- The loop with an iteration budget. -/
def selectiveWandLoop (srt : DocSort) :
    Nat → List FetchingCursor → TopK → Option (Result (List Entry × TopK))
  | 0, _, _ => none
  | fuel + 1, cursors, topk =>
      match selectiveStep srt topk.threshold cursors with
      | .error s => some (.error s)
      | .ok none => some (.ok ([], topk))
      | .ok (some (cursors, offer)) =>
          (selectiveWandLoop srt fuel cursors (topk.after offer)).map fun r =>
            r.map fun x => (offer.toList ++ x.1, x.2)

/-! ## Windows known beforehand -/

/-- The read of a window that is known. -/
def fetchKnown (ws : List WindowData) (w count : Nat) : Result (List TermPosting) :=
  match ws[w]? with
  | none => .error (.invalidArgument "frq_prelude: window index out of range")
  | some d => do
      let scored ← decodeWindow d
      if scored.length ≠ count then
        .error (.corruption "scoring_query: selective window doc-count drift")
      else .ok scored

/-- The cursor that reads what a lazy cursor knows. -/
def ofLazy (c : LazyTermCursor) : FetchingCursor :=
  { fetch := fetchKnown c.source, windows := c.windows, postings := c.postings
    winStart := c.winStart, fetched := c.fetched, pos := c.pos }

theorem materializeWindow_ofLazy (c : LazyTermCursor) (w : Nat) :
    (ofLazy c).materializeWindow w = (c.materializeWindow w).map ofLazy := by
  rw [materializeWindow, LazyTermCursor.materializeWindow]
  by_cases hf : c.fetched.getD w false = true
  · rw [if_pos hf]
    exact if_pos hf
  · rw [if_neg hf]
    refine (if_neg hf).trans ?_
    simp only [ofLazy, fetchKnown]
    cases hd : c.source[w]? with
    | none => rfl
    | some d =>
        simp only
        cases hdec : decodeWindow d with
        | error s => rfl
        | ok scored =>
            by_cases hlen : scored.length ≠ c.winStart.getD (w + 1) 0 - c.winStart.getD w 0
            · simp only [ok_bind, if_pos hlen]
              rfl
            · simp only [ok_bind, if_neg hlen]
              rfl

/-- Chains whose steps agree up to a map. -/
theorem chain_map {α β γ δ : Type} {f : α → β} {g : γ → δ} {x : Result α} {y : Result β}
    {k : α → Result γ} {k' : β → Result δ} (hx : y = x.map f)
    (hk : ∀ a, k' (f a) = (k a).map g) : (y >>= k') = (x >>= k).map g := by
  subst hx
  cases x with
  | error s => rfl
  | ok a => exact hk a

theorem chain_same {α γ δ : Type} {g : γ → δ} {x : Result α} {k : α → Result γ}
    {k' : α → Result δ} (hk : ∀ a, k' a = (k a).map g) : (x >>= k') = (x >>= k).map g := by
  cases x with
  | error s => rfl
  | ok a => exact hk a

theorem lazyCurrentDoc_ofLazy (c : LazyTermCursor) :
    (ofLazy c).lazyCurrentDoc = c.lazyCurrentDoc.map fun r => (r.1, ofLazy r.2) := by
  rw [lazyCurrentDoc, LazyTermCursor.lazyCurrentDoc]
  by_cases hp : c.totalPostings ≤ c.pos
  · rw [if_pos hp]
    exact if_pos hp
  · rw [if_neg hp]
    refine (if_neg hp).trans ?_
    apply chain_map (materializeWindow_ofLazy c _)
    exact fun c' => chain_same fun p => rfl

theorem skipWindows_ofLazy (target fuel : Nat) (c : LazyTermCursor) :
    skipWindows target fuel (ofLazy c) =
      (LazyTermCursor.skipWindows target fuel c).map ofLazy := by
  induction fuel generalizing c with
  | zero => rfl
  | succ fuel ih =>
      rw [skipWindows, LazyTermCursor.skipWindows]
      by_cases hp : c.totalPostings ≤ c.pos
      · rw [if_pos hp]
        exact if_pos hp
      · rw [if_neg hp]
        refine (if_neg hp).trans ?_
        have hwindow : (ofLazy c).windows[(ofLazy c).windowOf (ofLazy c).pos]? =
            c.windows[c.windowOf c.pos]? := rfl
        rw [hwindow]
        cases c.windows[c.windowOf c.pos]? with
        | none => rfl
        | some b =>
            by_cases hlast : b.lastDocid ≥ target
            · simp only [if_pos hlast]
              rfl
            · simp only [if_neg hlast]
              exact ih { c with pos := c.winStart.getD (c.windowOf c.pos + 1) 0 }

theorem skipSlots_ofLazy (target fuel : Nat) (c : LazyTermCursor) :
    skipSlots target fuel (ofLazy c) = (LazyTermCursor.skipSlots target fuel c).map ofLazy := by
  induction fuel generalizing c with
  | zero => rfl
  | succ fuel ih =>
      rw [skipSlots, LazyTermCursor.skipSlots]
      by_cases hp : c.totalPostings ≤ c.pos
      · rw [if_pos hp]
        exact if_pos hp
      · rw [if_neg hp]
        refine (if_neg hp).trans ?_
        apply chain_same
        intro p
        by_cases hlt : p.docid < target
        · simp only [if_pos hlt]
          exact ih { c with pos := c.pos + 1 }
        · simp only [if_neg hlt]
          rfl

theorem lazySkipTo_ofLazy (target : Nat) (c : LazyTermCursor) :
    lazySkipTo target (ofLazy c) = (LazyTermCursor.lazySkipTo target c).map ofLazy := by
  rw [lazySkipTo, LazyTermCursor.lazySkipTo]
  apply chain_map (skipWindows_ofLazy target _ c)
  intro c'
  by_cases hp : c'.totalPostings ≤ c'.pos
  · rw [if_pos hp]
    exact if_pos hp
  · rw [if_neg hp]
    refine (if_neg hp).trans ?_
    apply chain_map (materializeWindow_ofLazy c' _)
    exact fun c'' => skipSlots_ofLazy target _ c''

theorem currentDocs_ofLazy (cs : List LazyTermCursor) :
    currentDocs (cs.map ofLazy) =
      (ScoringQuery.currentDocs cs).map fun r => (r.1, r.2.map ofLazy) := by
  induction cs with
  | nil => rfl
  | cons c cs ih =>
      rw [List.map_cons, currentDocs, ScoringQuery.currentDocs]
      apply chain_map (lazyCurrentDoc_ofLazy c)
      exact fun r => chain_map ih fun r' => rfl

theorem selectiveSortByDoc_ofLazy (srt : DocSort) (cs : List LazyTermCursor) :
    selectiveSortByDoc srt (cs.map ofLazy) =
      (ScoringQuery.selectiveSortByDoc srt cs).map fun r => (r.1, r.2.map ofLazy) := by
  rw [selectiveSortByDoc, ScoringQuery.selectiveSortByDoc]
  apply chain_map (currentDocs_ofLazy cs)
  intro r
  have hpick : ∀ order : List Nat, (order.filterMap fun i => (r.2.map ofLazy)[i]?) =
      (order.filterMap fun i => r.2[i]?).map ofLazy := by
    intro order
    rw [List.map_filterMap]
    apply List.filterMap_congr
    intro i _
    rw [List.getElem?_map]
  simp only [hpick]
  rfl

theorem selectivePivot_ofLazy (theta bound : ℚ) (cs : List LazyTermCursor) :
    selectivePivot theta bound (cs.map ofLazy) =
      (ScoringQuery.selectivePivot theta bound cs).map fun r => (r.1, r.2.map ofLazy) := by
  induction cs generalizing bound with
  | nil => rfl
  | cons c cs ih =>
      rw [List.map_cons, selectivePivot, ScoringQuery.selectivePivot]
      apply chain_map (lazyCurrentDoc_ofLazy c)
      rintro ⟨d, c'⟩
      by_cases hd : d = uint32Max
      · simp only [if_pos hd]
        rfl
      · simp only [if_neg hd]
        by_cases hreach : bound + c'.lazyTermBoundAt d ≥ theta
        · rw [if_pos hreach]
          exact if_pos hreach
        · rw [if_neg hreach]
          refine (if_neg hreach).trans ?_
          exact chain_map (ih _) fun r => rfl

theorem selectiveScorePivot_ofLazy (pivotDoc : Nat) (cs : List LazyTermCursor) :
    selectiveScorePivot pivotDoc (cs.map ofLazy) =
      (ScoringQuery.selectiveScorePivot pivotDoc cs).map fun r => (r.1, r.2.map ofLazy) := by
  induction cs with
  | nil => rfl
  | cons c cs ih =>
      rw [List.map_cons, selectiveScorePivot, ScoringQuery.selectiveScorePivot]
      apply chain_map (lazyCurrentDoc_ofLazy c)
      rintro ⟨d, c'⟩
      by_cases hd : d = pivotDoc
      · simp only [if_pos hd]
        exact chain_same fun p => chain_map ih fun r => rfl
      · simp only [if_neg hd]
        exact chain_map ih fun r => rfl

theorem selectiveAdvanceLagging_ofLazy (pivotDoc : Nat) (cs : List LazyTermCursor) :
    selectiveAdvanceLagging pivotDoc (cs.map ofLazy) =
      (ScoringQuery.selectiveAdvanceLagging pivotDoc cs).map (List.map ofLazy) := by
  induction cs with
  | nil => rfl
  | cons c cs ih =>
      rw [List.map_cons, selectiveAdvanceLagging, ScoringQuery.selectiveAdvanceLagging]
      apply chain_map (lazyCurrentDoc_ofLazy c)
      rintro ⟨d, c'⟩
      by_cases hd : d < pivotDoc
      · simp only [if_pos hd]
        exact chain_map (lazySkipTo_ofLazy pivotDoc c') fun c'' => rfl
      · simp only [if_neg hd]
        exact chain_map ih fun r => rfl

/-- **One iteration** over windows that are known. -/
theorem selectiveStep_ofLazy (srt : DocSort) (theta : ℚ) (cs : List LazyTermCursor) :
    selectiveStep srt theta (cs.map ofLazy) =
      (ScoringQuery.selectiveStep srt theta cs).map
        (Option.map fun r => (r.1.map ofLazy, r.2)) := by
  rw [selectiveStep, ScoringQuery.selectiveStep]
  apply chain_map (selectiveSortByDoc_ofLazy srt cs)
  rintro ⟨front, sorted⟩
  simp only [List.map_eq_nil_iff]
  by_cases hdone : sorted = [] ∨ front = uint32Max
  · simp only [if_pos hdone]
    rfl
  · simp only [if_neg hdone]
    apply chain_map (selectivePivot_ofLazy theta 0 sorted)
    rintro ⟨pivot, cs'⟩
    cases pivot with
    | none => rfl
    | some pivotDoc =>
        simp only
        by_cases hfront : front = pivotDoc
        · simp only [if_pos hfront]
          exact chain_map (selectiveScorePivot_ofLazy pivotDoc cs') fun r => rfl
        · simp only [if_neg hfront]
          exact chain_map (selectiveAdvanceLagging_ofLazy pivotDoc cs') fun r => rfl

/-- **The loop** over windows that are known is the loop of the lazy cursors. -/
theorem selectiveWandLoop_ofLazy (srt : DocSort) (fuel : Nat) (cs : List LazyTermCursor)
    (topk : TopK) :
    selectiveWandLoop srt fuel (cs.map ofLazy) topk =
      ScoringQuery.selectiveWandLoop srt fuel cs topk := by
  induction fuel generalizing cs topk with
  | zero => rfl
  | succ fuel ih =>
      rw [selectiveWandLoop, ScoringQuery.selectiveWandLoop, selectiveStep_ofLazy]
      cases ScoringQuery.selectiveStep srt topk.threshold cs with
      | error s => rfl
      | ok out =>
          cases out with
          | none => rfl
          | some out =>
              show (selectiveWandLoop srt fuel (out.1.map ofLazy) (topk.after out.2)).map _ = _
              rw [ih]

end Snii.Query.FetchedWindows
