import Mathlib.Algebra.Order.Ring.Nat
import Mathlib.Algebra.Order.Ring.Rat
import Snii.Lib.TopK

/-!
# Top-`k` scored retrieval: the exhaustive and the block-max WAND loops

The functions of `scoring_query.cpp` from the point where the term cursors are
built.  Scores are exact rationals; docids are natural numbers with the
`uint32_t` maximum as the sentinel of an exhausted cursor.  A cursor is its
postings, its window bounds and its position; a loop state is the cursor list
together with the bounded queue.

`std::sort` on the cursors orders by current docid and leaves the order of
equal docids open, so it is a parameter: any function from the sequence of
current docids to an ascending permutation (`DocSort`).
-/

namespace Snii.Query.ScoringQuery

open Snii.Lib

/-- `std::numeric_limits<uint32_t>::max()`: the docid of an exhausted cursor. -/
def uint32Max : Nat := 4294967295

/-- One scored posting for one term in one doc. -/
structure TermPosting where
  docid : Nat
  score : ℚ
deriving DecidableEq

/-- One window's block-max bound and the docid range it covers. -/
structure WindowBound where
  firstDocid : Nat
  lastDocid : Nat
  maxScore : ℚ
  blockMax : Bool
deriving DecidableEq

/-- All scored postings of one query term plus its block-max metadata. -/
structure TermCursor where
  postings : List TermPosting
  windows : List WindowBound
  pos : Nat := 0
deriving DecidableEq

/-- One scored hit. -/
structure ScoredDoc where
  docid : Nat
  score : ℚ
deriving DecidableEq

/-- The docid the cursor stands at; behind its postings it is the largest. -/
def currentDoc (c : TermCursor) : Nat :=
  match c.postings[c.pos]? with
  | some p => p.docid
  | none => uint32Max

/-- Fallback single window covering all postings, bounded by the exact maximum
(the fold starts from the default `max_score` of `0`). -/
def singleWindowFallback (postings : List TermPosting) : List WindowBound :=
  match postings.head?, postings.getLast? with
  | some first, some last =>
      [{ firstDocid := first.docid, lastDocid := last.docid,
         maxScore := postings.foldl (fun m p => max m p.score) 0, blockMax := false }]
  | _, _ => []

/-- Block-max bound at a docid: the first window whose `last_docid` reaches it. -/
def termBoundAt (c : TermCursor) (docid : Nat) : ℚ :=
  match c.windows.find? (fun w => docid ≤ w.lastDocid) with
  | some w => w.maxScore
  | none => 0

/-! ## The bounded queue -/

/-- A heap entry: score first, docid second, as in the source's pair. -/
abbrev Entry := ℚ × Nat

/-- The queue's comparator: higher scores sink, and on ties smaller docids do. -/
def cmp (a b : Entry) : Prop :=
  if a.1 ≠ b.1 then a.1 > b.1 else a.2 < b.2

instance (a b : Entry) : Decidable (cmp a b) := by
  unfold cmp; infer_instance

/-- `a` ranks no later than `b`: score descending, docid ascending on ties. -/
def rankLe (a b : Entry) : Prop := ¬ cmp b a

instance : DecidableRel rankLe := fun a b => inferInstanceAs (Decidable (¬ cmp b a))

/-- The queue as the sequence its pops return: the top (worst entry) first. -/
structure TopK where
  k : Nat
  heap : List Entry

namespace TopK

/-- `priority_queue::push`. -/
def push (e : Entry) (heap : List Entry) : List Entry :=
  heap.orderedInsert (fun a b => rankLe b a) e

/-- Into the queue where there is room or the worst entry is beaten. -/
def offer (t : TopK) (docid : Nat) (score : ℚ) : TopK :=
  if t.heap.length < t.k then { t with heap := push (score, docid) t.heap }
  else match t.heap with
    | [] => t
    | worst :: rest =>
        if score > worst.1 ∨ (score = worst.1 ∧ docid < worst.2) then
          { t with heap := push (score, docid) rest }
        else t

/-- `-1` until the queue is full, then the score of its worst entry. -/
def threshold (t : TopK) : ℚ :=
  if t.heap.length < t.k then -1 else (t.heap.head?.map Prod.fst).getD (-1)

/-- The queue after an iteration that offered an entry or none. -/
def after (t : TopK) : Option Entry → TopK
  | none => t
  | some e => t.offer e.2 e.1

end TopK

/-- The order of the returned list. -/
def hitBefore (a b : ScoredDoc) : Prop :=
  if a.score ≠ b.score then a.score > b.score else a.docid < b.docid

instance (a b : ScoredDoc) : Decidable (hitBefore a b) := by
  unfold hitBefore; infer_instance

/-- `std::sort` of the hits by `hitBefore`. -/
def sortHits (all : List ScoredDoc) : List ScoredDoc :=
  all.insertionSort (fun a b => ¬ hitBefore b a)

/-- The entries, best first. -/
def drainSorted (t : TopK) : List ScoredDoc :=
  sortHits (t.heap.map fun e => { docid := e.2, score := e.1 })

/-! ## The exhaustive path -/

/-- `scores[p.docid] += p.score` on the accumulated map. -/
def addScore : List (Nat × ℚ) → TermPosting → List (Nat × ℚ)
  | [], p => [(p.docid, p.score)]
  | (d, s) :: rest, p =>
      if d = p.docid then (d, s + p.score) :: rest else (d, s) :: addScore rest p

/-- Every document with the sum of its scores. -/
def exhaustiveScores (cursors : List TermCursor) : List (Nat × ℚ) :=
  (cursors.flatMap TermCursor.postings).foldl addScore []

/-- `scoring_query_exhaustive`. -/
def scoringQueryExhaustive (k : Nat) (cursors : List TermCursor) : List ScoredDoc :=
  if k = 0 then []
  else (sortHits ((exhaustiveScores cursors).map fun e =>
    { docid := e.1, score := e.2 })).take k

/-! ## The WAND loop -/

/-- `std::sort` by docid: an ascending order of the positions of its input. -/
structure DocSort where
  order : List Nat → List Nat
  perm : ∀ docs, (order docs).Perm (List.range docs.length)
  sorted : ∀ docs, ((order docs).map fun i => docs.getD i 0).Pairwise (· ≤ ·)

/-- A stable sort by docid. -/
def DocSort.stable : DocSort where
  order docs := (List.range docs.length).insertionSort fun i j => docs.getD i 0 ≤ docs.getD j 0
  perm docs := List.perm_insertionSort _ _
  sorted docs := by
    have : Std.Total fun i j => docs.getD i 0 ≤ docs.getD j 0 := ⟨fun _ _ => Nat.le_total _ _⟩
    have : IsTrans Nat fun i j => docs.getD i 0 ≤ docs.getD j 0 :=
      ⟨fun _ _ _ => Nat.le_trans⟩
    exact List.pairwise_map.mpr (List.pairwise_insertionSort _ _)

/-- Applies the sort to values keyed by docids. -/
def DocSort.apply {α : Type*} (srt : DocSort) (key : α → Nat) (xs : List α) : List α :=
  (srt.order (xs.map key)).filterMap fun i => xs[i]?

/-- The pivot scan: accumulates bounds in docid order and returns the docid of
the first cursor at which they reach `theta`. -/
def findPivot (theta : ℚ) : ℚ → List TermCursor → Option Nat
  | _, [] => none
  | bound, c :: rest =>
      if currentDoc c = uint32Max then none
      else if bound + termBoundAt c (currentDoc c) ≥ theta then some (currentDoc c)
      else findPivot theta (bound + termBoundAt c (currentDoc c)) rest

/-- The score a cursor adds to the aligned pivot doc. -/
def scoreAt (pivotDoc : Nat) (c : TermCursor) : ℚ :=
  if currentDoc c = pivotDoc then (c.postings[c.pos]?.map TermPosting.score).getD 0 else 0

/-- `++c.pos` for a cursor standing at the pivot doc. -/
def advanceAt (pivotDoc : Nat) (c : TermCursor) : TermCursor :=
  if currentDoc c = pivotDoc then { c with pos := c.pos + 1 } else c

/-- Advances the position past every posting below `target`. -/
def skipTo (target : Nat) (c : TermCursor) : TermCursor :=
  { c with pos := c.pos + ((c.postings.drop c.pos).takeWhile (fun p => p.docid < target)).length }

/-- Moves the first lagging cursor up to the pivot doc. -/
def advanceLagging (pivotDoc : Nat) : List TermCursor → List TermCursor
  | [] => []
  | c :: rest =>
      if currentDoc c < pivotDoc then skipTo pivotDoc c :: rest
      else c :: advanceLagging pivotDoc rest

/-- What one iteration leaves: the cursors, and the entry it offered if any. -/
structure StepOut where
  cursors : List TermCursor
  offer : Option Entry

/-- One iteration of the loop; `none` when it breaks. -/
def wandStep (srt : DocSort) (theta : ℚ) (cursors : List TermCursor) : Option StepOut :=
  match srt.apply currentDoc cursors with
  | [] => none
  | front :: rest =>
      if currentDoc front = uint32Max then none
      else match findPivot theta 0 (front :: rest) with
        | none => none
        | some pivotDoc =>
            if currentDoc front = pivotDoc then
              some { cursors := (front :: rest).map (advanceAt pivotDoc)
                     offer := some (((front :: rest).map (scoreAt pivotDoc)).sum, pivotDoc) }
            else some { cursors := advanceLagging pivotDoc (front :: rest), offer := none }

/-- The loop with an iteration budget: the offers made and the final queue, or
`none` when the budget runs out first. -/
def wandLoop (srt : DocSort) : Nat → List TermCursor → TopK → Option (List Entry × TopK)
  | 0, _, _ => none
  | fuel + 1, cursors, topk =>
      match wandStep srt topk.threshold cursors with
      | none => some ([], topk)
      | some out =>
          (wandLoop srt fuel out.cursors (topk.after out.offer)).map
            fun r => (out.offer.toList ++ r.1, r.2)

/-- The postings a cursor has not moved past. -/
def TermCursor.remaining (c : TermCursor) : List TermPosting := c.postings.drop c.pos

/-- Postings left over all cursors; every iteration uses up at least one. -/
def workLeft (cursors : List TermCursor) : Nat :=
  (cursors.map fun c => c.remaining.length).sum

/-- The offers of the whole loop and its final queue. -/
def wandRun (srt : DocSort) (k : Nat) (cursors : List TermCursor) :
    Option (List Entry × TopK) :=
  wandLoop srt (workLeft cursors + 1) cursors { k := k, heap := [] }

/-- `scoring_query_wand`. -/
def scoringQueryWand (srt : DocSort) (k : Nat) (cursors : List TermCursor) :
    Option (List ScoredDoc) :=
  if k = 0 then some []
  else (wandRun srt k cursors).map fun r => drainSorted r.2

end Snii.Query.ScoringQuery
