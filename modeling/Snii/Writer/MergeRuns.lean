import Snii.Writer.MergeTerm

/-!
# The k-way merge

The heap holds, for every run that is not exhausted, the term the run stands at
(`HeapOk`), so its smallest string is the next term of the whole merge and the
runs that carry it come out in run order.  A step emits that term and moves those
runs on; over a whole merge every term is emitted once, in dictionary order,
with the groups of all runs appended (`mergeRuns_lays`).
-/

namespace Snii.Writer.SpillRunCodec

open Snii.Lib.ByteReader Snii.Lib.Grouping Snii.Common Snii.Encoding.Varint
  Snii.Writer.SpimiTermBuffer

/-! ## The heap -/

/-- The id a run stands at. -/
def headId (sts : Nat → List Rec) (i : Nat) : Option Nat := (sts i).head?.map Prod.fst

/-- The heap holds one item for every run outside `used` that is not exhausted. -/
structure HeapOk (vocab : List Bytes) (sts : Nat → List Rec) (n : Nat) (used : List Nat)
    (heap : List HeapItem) : Prop where
  sorted : heap.Pairwise (heapLe vocab)
  nodup : heap.Nodup
  mem : ∀ item, item ∈ heap ↔
    item.run < n ∧ item.run ∉ used ∧ headId sts item.run = some item.termId

theorem heapLe_total (vocab : List Bytes) (a b : HeapItem) :
    heapLe vocab a b ∨ heapLe vocab b a := by
  unfold heapLe
  rcases lt_trichotomy (vocab.getD a.termId []) (vocab.getD b.termId []) with h | h | h
  · exact Or.inl (Or.inl h)
  · rcases Nat.le_total a.run b.run with hr | hr
    · exact Or.inl (Or.inr ⟨h, hr⟩)
    · exact Or.inr (Or.inr ⟨h.symm, hr⟩)
  · exact Or.inr (Or.inl h)

theorem heapLe_trans (vocab : List Bytes) {a b c : HeapItem} (hab : heapLe vocab a b)
    (hbc : heapLe vocab b c) : heapLe vocab a c := by
  unfold heapLe at *
  rcases hab with hab | ⟨hab, hr⟩
  · rcases hbc with hbc | ⟨hbc, _⟩
    · exact Or.inl (hab.trans hbc)
    · exact Or.inl (hbc ▸ hab)
  · rcases hbc with hbc | ⟨hbc, hr'⟩
    · exact Or.inl (hab ▸ hbc)
    · exact Or.inr ⟨hab.trans hbc, hr.trans hr'⟩

theorem heapLe_strings {vocab : List Bytes} {a b : HeapItem} (h : heapLe vocab a b) :
    vocab.getD a.termId [] ≤ vocab.getD b.termId [] := by
  rcases h with h | ⟨h, _⟩
  · exact h.le
  · exact h.le

theorem pushItem_perm (vocab : List Bytes) (item : HeapItem) (heap : List HeapItem) :
    (pushItem vocab item heap).Perm (item :: heap) := List.perm_orderedInsert _ _ _

theorem pushItem_sorted {vocab : List Bytes} {heap : List HeapItem} (item : HeapItem)
    (h : heap.Pairwise (heapLe vocab)) : (pushItem vocab item heap).Pairwise (heapLe vocab) := by
  have : Std.Total (heapLe vocab) := ⟨heapLe_total vocab⟩
  have : IsTrans HeapItem (heapLe vocab) := ⟨fun _ _ _ => heapLe_trans vocab⟩
  exact List.Pairwise.orderedInsert _ _ h

/-- Pushing a run's item keeps the heap in order. -/
theorem HeapOk.push {vocab : List Bytes} {sts : Nat → List Rec} {n : Nat} {used : List Nat}
    {heap : List HeapItem} {i id : Nat} (h : HeapOk vocab sts n (i :: used) heap) (hi : i < n)
    (hnot : i ∉ used) (hid : headId sts i = some id) :
    HeapOk vocab sts n used (pushItem vocab ⟨id, i⟩ heap) := by
  have hperm := pushItem_perm vocab ⟨id, i⟩ heap
  refine ⟨pushItem_sorted _ h.sorted, ?_, ?_⟩
  · rw [hperm.nodup_iff, List.nodup_cons]
    refine ⟨fun hmem => ?_, h.nodup⟩
    exact ((h.mem _).mp hmem).2.1 (by simp)
  · intro item
    rw [hperm.mem_iff, List.mem_cons, h.mem]
    constructor
    · rintro (rfl | ⟨hlt, hused, hhead⟩)
      · exact ⟨hi, hnot, hid⟩
      · exact ⟨hlt, fun hmem => hused (by simp [hmem]), hhead⟩
    · rintro ⟨hlt, hused, hhead⟩
      by_cases heq : item.run = i
      · left
        rw [heq, hid] at hhead
        cases item
        simp_all
      · exact Or.inr ⟨hlt, by simp [heq, hused], hhead⟩

/-- A run that turns out exhausted has no item. -/
theorem HeapOk.skip {vocab : List Bytes} {sts : Nat → List Rec} {n : Nat} {used : List Nat}
    {heap : List HeapItem} {i : Nat} (h : HeapOk vocab sts n (i :: used) heap)
    (hid : headId sts i = none) : HeapOk vocab sts n used heap := by
  refine ⟨h.sorted, h.nodup, fun item => ?_⟩
  rw [h.mem]
  constructor
  · rintro ⟨hlt, hused, hhead⟩
    exact ⟨hlt, fun hmem => hused (by simp [hmem]), hhead⟩
  · rintro ⟨hlt, hused, hhead⟩
    have hne : item.run ≠ i := by
      intro heq
      rw [heq, hid] at hhead
      exact absurd hhead (by simp)
    exact ⟨hlt, by simp [hne, hused], hhead⟩

/-! ## Moving the matching runs on -/

/-- The records left once the listed runs have moved on. -/
def popped (sts : Nat → List Rec) (used : List Nat) (i : Nat) : List Rec :=
  if i ∈ used then (sts i).tail else sts i

theorem popped_cons {sts : Nat → List Rec} {i : Nat} {used : List Nat} (hi : i ∉ used) :
    popped sts (i :: used) = popped (popped sts [i]) used := by
  funext j
  by_cases hj : j ∈ used
  · have hne : j ≠ i := fun heq => hi (heq ▸ hj)
    simp [popped, hj, hne]
  · by_cases heq : j = i
    · simp [popped, heq, hi]
    · simp [popped, hj, heq]

/-- Every record still to come can be read and names a term of the vocabulary. -/
def AllFit (vocab : List Bytes) (sts : Nat → List Rec) : Prop :=
  ∀ i, ∀ x ∈ sts i, Rec.Fits x ∧ x.1 < vocab.length

theorem AllFit.popped {vocab : List Bytes} {sts : Nat → List Rec} (h : AllFit vocab sts)
    (used : List Nat) : AllFit vocab (popped sts used) := by
  intro i x hx
  unfold SpillRunCodec.popped at hx
  split at hx
  · exact h i x (List.mem_of_mem_tail hx)
  · exact h i x hx

theorem AllFit.headsFit {vocab : List Bytes} {sts : Nat → List Rec} (h : AllFit vocab sts)
    (matching : List Nat) : HeadsFit sts matching := by
  intro i _ e he
  unfold headGroups at he
  cases hrecs : sts i with
  | nil => simp [hrecs] at he
  | cons x recs =>
      rw [hrecs] at he
      have hfits := (h i x (by rw [hrecs]; exact List.mem_cons_self)).1
      exact ⟨hfits.nonempty e he, hfits.freq_lt (List.mem_map_of_mem he)⟩

private theorem headId_of_atRecords {hasPositions : Bool} {r : RunReader} {sts : Nat → List Rec}
    {i : Nat} (h : AtRecords hasPositions r (sts i)) :
    (r.exhausted = true ∧ headId sts i = none) ∨
      (r.exhausted = false ∧ headId sts i = some r.currentId ∧
        ∃ x recs, sts i = x :: recs ∧ r.currentId = x.1) := by
  cases hs : sts i with
  | nil =>
      rw [hs] at h
      exact Or.inl ⟨h, by simp [headId, hs]⟩
  | cons x recs =>
      rw [hs] at h
      exact Or.inr ⟨h.live, by simp [headId, hs, h.id], x, recs, rfl, h.id⟩

/-- A reader moved on stands at its run's next record. -/
private theorem Readers.advance {hasPositions : Bool} {sts : Nat → List Rec} {n : Nat} {i : Nat}
    {used : List Nat} {rs : List RunReader} {r : RunReader}
    (h : Readers hasPositions sts n (i :: used) rs)
    (hr : AtRecords hasPositions r (popped sts [i] i)) :
    Readers hasPositions (popped sts [i]) n used (rs.set i r) := by
  have hkey : ∀ j r', (rs.set i r)[j]? = some r' → j ≠ i →
      rs[j]? = some r' ∧ popped sts [i] j = sts j := by
    intro j r' hj hne
    rw [List.getElem?_set_ne (Ne.symm hne)] at hj
    exact ⟨hj, by simp [popped, hne]⟩
  have hself : ∀ r', (rs.set i r)[i]? = some r' → r' = r := by
    intro r' hj
    rw [List.getElem?_set] at hj
    simp only [if_true] at hj
    split at hj
    · exact (Option.some.inj hj).symm
    · exact absurd hj (by simp)
  refine ⟨by rw [List.length_set]; exact h.length, ?_, ?_⟩
  · intro j r' hj
    by_cases heq : j = i
    · subst heq
      rw [hself r' hj]
      exact hr.behind
    · obtain ⟨hj', hsame⟩ := hkey j r' hj heq
      rw [hsame]
      exact h.behind j r' hj'
  · intro j r' hj hnot
    by_cases heq : j = i
    · subst heq
      rw [hself r' hj]
      exact hr
    · obtain ⟨hj', hsame⟩ := hkey j r' hj heq
      rw [hsame]
      exact h.fresh j r' hj' (by simp [heq, hnot])

private theorem HeapOk.moved {vocab : List Bytes} {sts : Nat → List Rec} {n : Nat} {i : Nat}
    {used : List Nat} {heap : List HeapItem} (h : HeapOk vocab sts n (i :: used) heap) :
    HeapOk vocab (popped sts [i]) n (i :: used) heap := by
  refine ⟨h.sorted, h.nodup, fun item => ?_⟩
  rw [h.mem]
  have hsame : item.run ∉ i :: used → headId (popped sts [i]) item.run = headId sts item.run := by
    intro hnot
    have hne : item.run ≠ i := fun heq => hnot (by simp [heq])
    simp [headId, popped, hne]
  constructor
  · rintro ⟨hlt, hused, hhead⟩
    exact ⟨hlt, hused, by rw [hsame hused]; exact hhead⟩
  · rintro ⟨hlt, hused, hhead⟩
    exact ⟨hlt, hused, by rw [← hsame hused]; exact hhead⟩

/-- **The matching runs move on** and the heap is re-seeded. -/
theorem advanceAll_spec {vocab : List Bytes} {hasPositions : Bool} (used : List Nat)
    {sts : Nat → List Rec} {n : Nat} {rs : List RunReader} {heap : List HeapItem}
    (hrs : Readers hasPositions sts n used rs) (hheap : HeapOk vocab sts n used heap)
    (hfit : AllFit vocab sts) (hnodup : used.Nodup)
    (hlive : ∀ i ∈ used, i < n ∧ sts i ≠ []) :
    ∃ heap' rs', advanceAll vocab used heap rs = .ok heap' rs' ∧
      Readers hasPositions (popped sts used) n [] rs' ∧
      HeapOk vocab (popped sts used) n [] heap' := by
  induction used generalizing sts rs heap with
  | nil =>
      have hpop : popped sts [] = sts := by
        funext i
        simp [popped]
      rw [hpop]
      exact ⟨heap, rs, rfl, hrs, hheap⟩
  | cons i used ih =>
      obtain ⟨hi, hnd⟩ := List.nodup_cons.mp hnodup
      obtain ⟨hlt, hne⟩ := hlive i (by simp)
      have hilt : i < rs.length := by rw [hrs.length]; exact hlt
      have hr : rs[i]? = some rs[i] := List.getElem?_eq_getElem hilt
      have hbehind := hrs.behind i _ hr
      obtain ⟨x, recs, hsts⟩ := List.exists_cons_of_ne_nil hne
      rw [hsts] at hbehind
      obtain ⟨left, hload, _⟩ := hbehind
      obtain ⟨r', hadv, hat⟩ := RunReader.advance_loaded hload fun y hy =>
        (hfit i y (by rw [hsts]; simp [hy])).1
      have hat' : AtRecords hasPositions r' (popped sts [i] i) := by
        simpa [popped, hsts] using hat
      have hfit' := hfit.popped [i]
      have hrs' := hrs.advance hat'
      have hheap' := hheap.moved
      have hlive' : ∀ j ∈ used, j < n ∧ popped sts [i] j ≠ [] := by
        intro j hj
        have hjne : j ≠ i := fun heq => hi (heq ▸ hj)
        simpa [popped, hjne] using hlive j (by simp [hj])
      rw [advanceAll, bind_ok (onReader_ok hr hadv),
        bind_ok (onReader_get (List.getElem?_set_self hilt)), popped_cons hi]
      rcases headId_of_atRecords hat' with ⟨hex, hhead⟩ | ⟨hex, hhead, y, ys, hy, hcur⟩
      · rw [if_pos hex]
        exact ih hrs' (hheap'.skip hhead) hfit' hnd hlive'
      · have hvocab : r'.currentId < vocab.length := by
          rw [hcur]
          exact (hfit' i y (by rw [hy]; simp)).2
        rw [if_neg (by simp [hex]), if_neg (Nat.not_le.mpr hvocab)]
        exact ih hrs' (hheap'.push hlt hi hhead) hfit' hnd hlive'

/-! ## Opening the runs -/

/-- Opening the runs seeds the heap with their first terms. -/
theorem openRuns_spec {vocab : List Bytes} {hasPositions : Bool} (readSize : Nat → Nat)
    {sts : Nat → List Rec} (hfit : AllFit vocab sts) (m k : Nat) {heap : List HeapItem}
    (hheap : HeapOk vocab sts k [] heap) :
    ∃ heap' rs, openRuns vocab hasPositions readSize
        ((List.range' k m).map fun i => encodeRecs hasPositions (sts i)) k heap = .ok (heap', rs) ∧
      HeapOk vocab sts (k + m) [] heap' ∧ rs.length = m ∧
      ∀ j r, rs[j]? = some r → AtRecords hasPositions r (sts (k + j)) := by
  induction m generalizing k heap with
  | zero => exact ⟨heap, [], rfl, hheap, rfl, by simp⟩
  | succ m ih =>
      obtain ⟨r, hadv, hat⟩ := RunReader.advance_opened hasPositions readSize
        fun y hy => (hfit k y hy).1
      have hwide : HeapOk vocab sts (k + 1) [k] heap := by
        refine ⟨hheap.sorted, hheap.nodup, fun item => ?_⟩
        rw [hheap.mem]
        constructor
        · rintro ⟨hlt, _, hhead⟩
          exact ⟨by omega, by simp; omega, hhead⟩
        · rintro ⟨hlt, hne, hhead⟩
          exact ⟨by simp at hne; omega, by simp, hhead⟩
      have hseed : (¬ r.exhausted = true ∧ r.currentId ≥ vocab.length) = False ∧
          HeapOk vocab sts (k + 1) []
            (if r.exhausted then heap else pushItem vocab ⟨r.currentId, k⟩ heap) := by
        rcases headId_of_atRecords hat with ⟨hex, hhead⟩ | ⟨hex, hhead, y, ys, hy, hcur⟩
        · rw [if_pos hex]
          exact ⟨by simp [hex], hwide.skip hhead⟩
        · have hvocab : r.currentId < vocab.length := by
            rw [hcur]
            exact (hfit k y (by rw [hy]; simp)).2
          rw [if_neg (by simp [hex])]
          exact ⟨by simp; omega, hwide.push (by omega) (by simp) hhead⟩
      obtain ⟨heap', rs, hrest, hheap', hlen, hrs⟩ := ih (k + 1) hseed.2
      refine ⟨heap', r :: rs, ?_, by rw [show k + (m + 1) = k + 1 + m by omega]; exact hheap',
        by rw [List.length_cons, hlen], ?_⟩
      · rw [List.range'_succ, List.map_cons, openRuns, hadv]
        simp only [hseed.1, if_false, hrest]
        rfl
      · intro j r' hj
        cases j with
        | zero =>
            obtain rfl : r = r' := by simpa using hj
            exact hat
        | succ j =>
            rw [show k + (j + 1) = k + 1 + j by omega]
            exact hrs j r' (by simpa using hj)

/-! ## The loop -/

/-- What each run holds of the terms `ids` still to be merged. -/
def pending (contrib : Nat → Nat → List (Nat × List Nat)) (ids : List Nat) (i : Nat) : List Rec :=
  (ids.filter fun id => contrib i id ≠ []).map fun id => (id, contrib i id)

/-- The contributions of `n` runs to a term, appended in run order. -/
def contribGroups (contrib : Nat → Nat → List (Nat × List Nat)) (n id : Nat) :
    List (Nat × List Nat) :=
  (List.range n).foldl (fun g i => catGroups g (contrib i id)) []

/-- The runs that carry a term. -/
def carriers (contrib : Nat → Nat → List (Nat × List Nat)) (n id : Nat) : List Nat :=
  (List.range n).filter fun i => contrib i id ≠ []

/-- A merge input: each id of the strictly increasing list is carried by a run,
is in the vocabulary, and no run beyond `n` carries any. -/
structure MergeInput (vocab : List Bytes) (contrib : Nat → Nat → List (Nat × List Nat)) (n : Nat)
    (ids : List Nat) : Prop where
  sorted : ids.Pairwise fun a b => vocab.getD a [] < vocab.getD b []
  carried : ∀ id ∈ ids, ∃ i < n, contrib i id ≠ []
  beyond : ∀ i id, n ≤ i → contrib i id = []
  fit : ∀ id ∈ ids, ∀ i < n, contrib i id ≠ [] →
    Rec.Fits (id, contrib i id) ∧ id < vocab.length
  total : ∀ id ∈ ids, ((List.range n).map fun i => (ungroup (contrib i id)).length).sum < 2 ^ 64

theorem MergeInput.tail {vocab : List Bytes} {contrib : Nat → Nat → List (Nat × List Nat)}
    {n id : Nat} {ids : List Nat} (h : MergeInput vocab contrib n (id :: ids)) :
    MergeInput vocab contrib n ids :=
  ⟨(List.pairwise_cons.mp h.sorted).2, fun j hj => h.carried j (by simp [hj]), h.beyond,
    fun j hj => h.fit j (by simp [hj]), fun j hj => h.total j (by simp [hj])⟩

theorem MergeInput.allFit {vocab : List Bytes} {contrib : Nat → Nat → List (Nat × List Nat)}
    {n : Nat} {ids : List Nat} (h : MergeInput vocab contrib n ids) :
    AllFit vocab (pending contrib ids) := by
  intro i x hx
  obtain ⟨id, hid, rfl⟩ := List.mem_map.mp hx
  obtain ⟨hmem, hne⟩ := List.mem_filter.mp hid
  have hne : contrib i id ≠ [] := by simpa using hne
  have hi : i < n := by
    by_contra hge
    exact hne (h.beyond i id (Nat.le_of_not_lt hge))
  exact h.fit id hmem i hi hne

private theorem mem_carriers {contrib : Nat → Nat → List (Nat × List Nat)} {n id i : Nat} :
    i ∈ carriers contrib n id ↔ i < n ∧ contrib i id ≠ [] := by
  simp [carriers]

theorem pending_cons_of_ne {contrib : Nat → Nat → List (Nat × List Nat)} {ids : List Nat}
    {id i : Nat} (h : contrib i id ≠ []) :
    pending contrib (id :: ids) i = (id, contrib i id) :: pending contrib ids i := by
  simp [pending, h]

theorem pending_cons_of_eq {contrib : Nat → Nat → List (Nat × List Nat)} {ids : List Nat}
    {id i : Nat} (h : contrib i id = []) :
    pending contrib (id :: ids) i = pending contrib ids i := by
  simp [pending, h]

/-- Once its carriers have moved on, a term is merged. -/
private theorem popped_pending {vocab : List Bytes} {contrib : Nat → Nat → List (Nat × List Nat)}
    {n id : Nat} {ids : List Nat} (h : MergeInput vocab contrib n (id :: ids)) :
    popped (pending contrib (id :: ids)) (carriers contrib n id) = pending contrib ids := by
  funext i
  unfold popped
  by_cases hne : contrib i id = []
  · rw [if_neg (by simp [mem_carriers, hne]), pending_cons_of_eq hne]
  · have hi : i < n := by
      by_contra hge
      exact hne (h.beyond i id (Nat.le_of_not_lt hge))
    rw [if_pos (mem_carriers.mpr ⟨hi, hne⟩), pending_cons_of_ne hne]
    rfl

private theorem mergedGroups_carriers {contrib : Nat → Nat → List (Nat × List Nat)} {id : Nat}
    {ids : List Nat} (is : List Nat) (g : List (Nat × List Nat)) :
    mergedGroups (pending contrib (id :: ids)) g (is.filter fun i => contrib i id ≠ []) =
      is.foldl (fun g i => catGroups g (contrib i id)) g := by
  induction is generalizing g with
  | nil => rfl
  | cons i is ih =>
      by_cases hne : contrib i id = []
      · rw [List.filter_cons_of_neg (by simp [hne]), List.foldl_cons, hne, catGroups_nil_right]
        exact ih g
      · have hhead : headGroups (pending contrib (id :: ids)) i = contrib i id := by
          simp [headGroups, pending_cons_of_ne hne]
        rw [List.filter_cons_of_pos (by simp [hne]), List.foldl_cons, ← ih, mergedGroups,
          List.foldl_cons, hhead]
        rfl

private theorem tokenTotal_carriers {contrib : Nat → Nat → List (Nat × List Nat)} {id : Nat}
    {ids : List Nat} (is : List Nat) :
    tokenTotal (pending contrib (id :: ids)) [] (is.filter fun i => contrib i id ≠ []) =
      (is.map fun i => (ungroup (contrib i id)).length).sum := by
  have hempty : (ungroup ([] : List (Nat × List Nat))).length = 0 := rfl
  rw [tokenTotal, hempty, Nat.zero_add]
  induction is with
  | nil => rfl
  | cons i is ih =>
      by_cases hne : contrib i id = []
      · rw [List.filter_cons_of_neg (by simp [hne]), List.map_cons, List.sum_cons, hne, hempty,
          Nat.zero_add]
        exact ih
      · have hhead : headGroups (pending contrib (id :: ids)) i = contrib i id := by
          simp [headGroups, pending_cons_of_ne hne]
        rw [List.filter_cons_of_pos (by simp [hne]), List.map_cons, List.map_cons, List.sum_cons,
          List.sum_cons, ih, hhead]

/-- A condition that only the front of a list meets selects that front. -/
theorem takeWhile_eq_filter {α : Type} {p : α → Bool} {l : List α}
    (h : l.Pairwise fun a b => p b = true → p a = true) :
    l.takeWhile p = l.filter p ∧ l.dropWhile p = l.filter (fun a => !p a) := by
  induction l with
  | nil => exact ⟨rfl, rfl⟩
  | cons a l ih =>
      obtain ⟨ha, hl⟩ := List.pairwise_cons.mp h
      obtain ⟨h1, h2⟩ := ih hl
      by_cases hp : p a = true
      · simp [hp, h1, h2]
      · have hnone : ∀ b ∈ l, ¬ p b = true := fun b hb hpb => hp (ha b hb hpb)
        have hf : l.filter p = [] := List.filter_eq_nil_iff.mpr hnone
        have hg : l.filter (fun a => !p a) = l :=
          List.filter_eq_self.mpr fun b hb => by simp [hnone b hb]
        simp [hp, hf, hg]

/-- A run stands at the next term exactly when it carries it. -/
private theorem headId_pending {contrib : Nat → Nat → List (Nat × List Nat)} {ids : List Nat}
    {id i j : Nat} (h : headId (pending contrib (id :: ids)) i = some j) :
    (contrib i id ≠ [] ∧ j = id) ∨ (contrib i id = [] ∧ j ∈ ids) := by
  by_cases hne : contrib i id = []
  · rw [headId, pending_cons_of_eq hne] at h
    refine Or.inr ⟨hne, ?_⟩
    obtain ⟨x, hx, rfl⟩ := Option.map_eq_some_iff.mp h
    obtain ⟨k, hk, rfl⟩ := List.mem_map.mp (List.mem_of_head? hx)
    exact (List.mem_filter.mp hk).1
  · rw [headId, pending_cons_of_ne hne] at h
    exact Or.inl ⟨hne, by simpa using h.symm⟩

/-- An item stands for the least term where its run has it, and for a later one otherwise. -/
private theorem heap_item {vocab : List Bytes} {contrib : Nat → Nat → List (Nat × List Nat)}
    {n id : Nat} {ids : List Nat} {heap : List HeapItem}
    (h : HeapOk vocab (pending contrib (id :: ids)) n [] heap) (item : HeapItem)
    (hmem : item ∈ heap) : (contrib item.run id ≠ [] ∧ item.termId = id) ∨
      (contrib item.run id = [] ∧ item.termId ∈ ids) :=
  headId_pending ((h.mem item).mp hmem).2.2

/-- An item has the least term exactly if its run carries it. -/
private theorem heap_same {vocab : List Bytes} {contrib : Nat → Nat → List (Nat × List Nat)}
    {n id : Nat} {ids : List Nat} {heap : List HeapItem}
    (hin : MergeInput vocab contrib n (id :: ids))
    (h : HeapOk vocab (pending contrib (id :: ids)) n [] heap)
    (item : HeapItem) (hmem : item ∈ heap) :
    vocab.getD item.termId [] = vocab.getD id [] ↔ contrib item.run id ≠ [] := by
  have hless := (List.pairwise_cons.mp hin.sorted).1
  rcases heap_item h item hmem with ⟨hne, hid⟩ | ⟨heq, hid⟩
  · exact ⟨fun _ => hne, fun _ => by rw [hid]⟩
  · exact ⟨fun hs => absurd (hless _ hid) (by rw [hs]; exact lt_irrefl _),
      fun hne => absurd heq hne⟩

/-- No item has an earlier term. -/
private theorem heap_le {vocab : List Bytes} {contrib : Nat → Nat → List (Nat × List Nat)}
    {n id : Nat} {ids : List Nat} {heap : List HeapItem}
    (hin : MergeInput vocab contrib n (id :: ids))
    (h : HeapOk vocab (pending contrib (id :: ids)) n [] heap)
    (item : HeapItem) (hmem : item ∈ heap) : vocab.getD id [] ≤ vocab.getD item.termId [] := by
  have hless := (List.pairwise_cons.mp hin.sorted).1
  rcases heap_item h item hmem with ⟨_, hid⟩ | ⟨_, hid⟩
  · rw [hid]
  · exact (hless _ hid).le

/-- The runs that carry the least term are those with an item for it. -/
private theorem mem_carriers_iff {vocab : List Bytes} {contrib : Nat → Nat → List (Nat × List Nat)}
    {n id : Nat} {ids : List Nat} {heap : List HeapItem}
    (hin : MergeInput vocab contrib n (id :: ids))
    (h : HeapOk vocab (pending contrib (id :: ids)) n [] heap)
    (i : Nat) : i ∈ carriers contrib n id ↔ ⟨id, i⟩ ∈ heap := by
  have hless := (List.pairwise_cons.mp hin.sorted).1
  rw [mem_carriers, h.mem]
  constructor
  · rintro ⟨hi, hne⟩
    exact ⟨hi, by simp, by simp [headId, pending_cons_of_ne hne]⟩
  · rintro ⟨hi, _, hhead⟩
    rcases headId_pending hhead with ⟨hne, _⟩ | ⟨_, hmem⟩
    · exact ⟨hi, hne⟩
    · exact absurd (hless _ hmem) (lt_irrefl _)

/-- The items of the least term stand in front. -/
private theorem heap_split {vocab : List Bytes} {contrib : Nat → Nat → List (Nat × List Nat)}
    {n id : Nat} {ids : List Nat} {heap : List HeapItem}
    (hin : MergeInput vocab contrib n (id :: ids))
    (h : HeapOk vocab (pending contrib (id :: ids)) n [] heap) :
    (heap.takeWhile fun item => vocab.getD item.termId [] = vocab.getD id []) =
        heap.filter (fun item => vocab.getD item.termId [] = vocab.getD id []) ∧
      (heap.dropWhile fun item => vocab.getD item.termId [] = vocab.getD id []) =
        heap.filter fun item => !decide (vocab.getD item.termId [] = vocab.getD id []) := by
  apply takeWhile_eq_filter
  refine h.sorted.imp_of_mem fun {a b} ha _ hab hb => ?_
  have hb : vocab.getD b.termId [] = vocab.getD id [] := by simpa using hb
  have hab' := heapLe_strings hab
  rw [hb] at hab'
  simpa using le_antisymm hab' (heap_le hin h a ha)

/-- The top has the least term. -/
private theorem heap_top {vocab : List Bytes} {contrib : Nat → Nat → List (Nat × List Nat)}
    {n id : Nat} {ids : List Nat} {heap : List HeapItem}
    (hin : MergeInput vocab contrib n (id :: ids))
    (h : HeapOk vocab (pending contrib (id :: ids)) n [] heap) :
    ∃ top rest, heap = top :: rest ∧ top.termId = id := by
  obtain ⟨i, hi, hne⟩ := hin.carried id (by simp)
  have hmem := (mem_carriers_iff hin h i).mp (mem_carriers.mpr ⟨hi, hne⟩)
  cases heap with
  | nil => simp at hmem
  | cons top rest =>
      refine ⟨top, rest, rfl, ?_⟩
      have htop : vocab.getD top.termId [] ≤ vocab.getD id [] := by
        rcases List.mem_cons.mp hmem with heq | hmem
        · rw [← heq]
        · exact heapLe_strings ((List.pairwise_cons.mp h.sorted).1 _ hmem)
      rcases heap_item h top (by simp) with ⟨_, hid⟩ | ⟨_, hid⟩
      · exact hid
      · have hless := (List.pairwise_cons.mp hin.sorted).1 _ hid
        exact absurd (lt_of_lt_of_le hless htop) (lt_irrefl _)

/-- The runs of the least term ascend. -/
private theorem heap_group_ascending {vocab : List Bytes} {contrib : Nat → Nat → List (Nat × List Nat)}
    {n id : Nat} {ids : List Nat} {heap : List HeapItem}
    (hin : MergeInput vocab contrib n (id :: ids))
    (h : HeapOk vocab (pending contrib (id :: ids)) n [] heap) :
    ((heap.filter fun item => decide (vocab.getD item.termId [] = vocab.getD id [])).map
      HeapItem.run).Pairwise (· < ·) := by
  refine List.pairwise_map.mpr ?_
  refine ((h.sorted.and h.nodup).filter _).imp_of_mem fun {a b} ha hb hab => ?_
  obtain ⟨ha, hsa⟩ := List.mem_filter.mp ha
  obtain ⟨hb, hsb⟩ := List.mem_filter.mp hb
  have hsa : vocab.getD a.termId [] = vocab.getD id [] := by simpa using hsa
  have hsb : vocab.getD b.termId [] = vocab.getD id [] := by simpa using hsb
  have hrun : a.run ≤ b.run := by
    rcases hab.1 with hlt | ⟨_, hr⟩
    · exact absurd hlt (by rw [hsa, hsb]; exact lt_irrefl _)
    · exact hr
  refine lt_of_le_of_ne hrun fun heq => hab.2 ?_
  have hia := (heap_item h a ha).resolve_right fun hr => (heap_same hin h a ha).mp hsa hr.1
  have hib := (heap_item h b hb).resolve_right fun hr => (heap_same hin h b hb).mp hsb hr.1
  cases a
  cases b
  simp_all

/-- So they are the carriers, in run order. -/
private theorem heap_group {vocab : List Bytes} {contrib : Nat → Nat → List (Nat × List Nat)}
    {n id : Nat} {ids : List Nat} {heap : List HeapItem}
    (hin : MergeInput vocab contrib n (id :: ids))
    (h : HeapOk vocab (pending contrib (id :: ids)) n [] heap) :
    (heap.filter fun item => decide (vocab.getD item.termId [] = vocab.getD id [])).map
      HeapItem.run = carriers contrib n id := by
  have hasc := heap_group_ascending hin h
  have hcasc : (carriers contrib n id).Pairwise (· < ·) := List.pairwise_lt_range.filter _
  -- both lists ascend strictly and have the same members
  refine List.Perm.eq_of_pairwise' (r := (· < ·)) hasc hcasc ?_
  refine (List.perm_ext_iff_of_nodup (hasc.imp fun h => h.ne) (hcasc.imp fun h => h.ne)).mpr ?_
  intro i
  rw [mem_carriers_iff hin h, List.mem_map]
  constructor
  · rintro ⟨item, hitem', rfl⟩
    obtain ⟨hmem, hs⟩ := List.mem_filter.mp hitem'
    have hs : vocab.getD item.termId [] = vocab.getD id [] := by simpa using hs
    have hid := ((heap_item h item hmem).resolve_right fun hr =>
      (heap_same hin h item hmem).mp hs hr.1).2
    rw [← hid]
    exact hmem
  · intro hmem
    exact ⟨_, List.mem_filter.mpr ⟨hmem, by simp⟩, rfl⟩

/-- **The front of the heap** is the next term, with its carriers in run order;
behind it is a heap for the other runs. -/
private theorem heap_front {vocab : List Bytes} {contrib : Nat → Nat → List (Nat × List Nat)}
    {n id : Nat} {ids : List Nat} {heap : List HeapItem}
    (hin : MergeInput vocab contrib n (id :: ids))
    (h : HeapOk vocab (pending contrib (id :: ids)) n [] heap) :
    (∃ top rest, heap = top :: rest ∧ top.termId = id) ∧
      (heap.takeWhile fun item => vocab.getD item.termId [] = vocab.getD id []).map HeapItem.run =
        carriers contrib n id ∧
      HeapOk vocab (pending contrib (id :: ids)) n (carriers contrib n id)
        (heap.dropWhile fun item => vocab.getD item.termId [] = vocab.getD id []) := by
  obtain ⟨htake, hdrop⟩ := heap_split hin h
  refine ⟨heap_top hin h, ?_, ?_⟩
  · rw [htake]
    exact heap_group hin h
  · rw [hdrop]
    refine ⟨h.sorted.filter _, h.nodup.filter _, fun item => ?_⟩
    rw [List.mem_filter]
    constructor
    · rintro ⟨hmem, hs⟩
      obtain ⟨hlt, _, hhead⟩ := (h.mem item).mp hmem
      have hs : ¬ vocab.getD item.termId [] = vocab.getD id [] := by simpa using hs
      exact ⟨hlt, fun hc => hs ((heap_same hin h item hmem).mpr (mem_carriers.mp hc).2), hhead⟩
    · rintro ⟨hlt, hc, hhead⟩
      have hmem := (h.mem item).mpr ⟨hlt, by simp, hhead⟩
      refine ⟨hmem, ?_⟩
      have hs : ¬ vocab.getD item.termId [] = vocab.getD id [] := fun hs =>
        hc (mem_carriers.mpr ⟨hlt, (heap_same hin h item hmem).mp hs⟩)
      simpa using hs

/-- **The merge loop** emits every term still to be merged, in order. -/
theorem mergeLoop_lays {cfg : MergeConfig} {contrib : Nat → Nat → List (Nat × List Nat)} {n : Nat}
    (hplan : Restrained cfg.plan) (hroom : cfg.room = none) (ids : List Nat) {fuel : Nat}
    {heap : List HeapItem} {rs : List RunReader} (hin : MergeInput cfg.vocab contrib n ids)
    (hfuel : ids.length < fuel) (hrs : Readers cfg.hasPositions (pending contrib ids) n [] rs)
    (hheap : HeapOk cfg.vocab (pending contrib ids) n [] heap) :
    ∃ out, mergeLoop cfg fuel heap rs = some (.ok (), out) ∧
      List.Forall₂ (fun e id => Lays cfg.plan cfg.allowStream e cfg.hasPositions
        (cfg.vocab.getD id [])
        (contribGroups contrib n id)) out ids := by
  induction ids generalizing fuel heap rs with
  | nil =>
      obtain ⟨fuel, rfl⟩ : ∃ f, fuel = f + 1 := ⟨fuel - 1, by simp at hfuel; omega⟩
      have hempty : heap = [] := by
        refine List.eq_nil_iff_forall_not_mem.mpr fun item hmem => ?_
        have := ((hheap.mem item).mp hmem).2.2
        simp [headId, pending] at this
      subst hempty
      exact ⟨[], rfl, List.Forall₂.nil⟩
  | cons id ids ih =>
      obtain ⟨fuel, rfl⟩ : ∃ f, fuel = f + 1 := ⟨fuel - 1, by simp at hfuel; omega⟩
      obtain ⟨⟨top, rest, htop, hid⟩, hmatch, hrest⟩ := heap_front hin hheap
      have hnodup : (carriers contrib n id).Nodup :=
        (List.pairwise_lt_range.filter _).imp fun h => h.ne
      have hlive : ∀ i ∈ carriers contrib n id, i < n ∧ pending contrib (id :: ids) i ≠ [] := by
        intro i hi
        obtain ⟨hlt, hne⟩ := mem_carriers.mp hi
        exact ⟨hlt, by simp [pending_cons_of_ne hne]⟩
      have hfresh : FreshAll cfg.hasPositions (pending contrib (id :: ids)) rs
          (carriers contrib n id) := by
        intro i hi
        obtain ⟨hlt, hne⟩ := mem_carriers.mp hi
        have hilt : i < rs.length := by rw [hrs.length]; exact hlt
        have hr : rs[i]? = some rs[i] := List.getElem?_eq_getElem hilt
        have hat := hrs.fresh i _ hr (by simp)
        have hsts := @pending_cons_of_ne contrib ids id i hne
        rw [hsts] at hat
        exact ⟨rs[i], _, _, hr, hsts, hat⟩
      have hrs1 : Readers cfg.hasPositions (pending contrib (id :: ids)) n
          (carriers contrib n id) rs :=
        ⟨hrs.length, hrs.behind, fun i r hr _ => hrs.fresh i r hr (by simp)⟩
      have htotal : tokenTotal (pending contrib (id :: ids)) [] (carriers contrib n id) <
          2 ^ 64 := by
        rw [carriers, tokenTotal_carriers]
        exact hin.total id (by simp)
      obtain ⟨e, rs2, hemit, hlays, hrs2⟩ := emitTerm_lays (cfg.vocab.getD id []) hrs1 hfresh
        hnodup (hin.allFit.headsFit _) htotal hplan hroom
      obtain ⟨heap', rs3, hadv, hrs3, hheap3⟩ := advanceAll_spec (carriers contrib n id) hrs2 hrest
        hin.allFit hnodup hlive
      rw [popped_pending hin] at hrs3 hheap3
      obtain ⟨out, hloop, hout⟩ := ih hin.tail (by simpa using hfuel) hrs3 hheap3
      refine ⟨e :: out, ?_, ?_⟩
      · rw [htop] at hmatch hadv ⊢
        rw [mergeLoop]
        simp only [hid]
        simp only [hmatch, hemit, hadv, hloop]
        rfl
      · refine List.Forall₂.cons ?_ hout
        rw [contribGroups, ← @mergedGroups_carriers contrib id ids]
        exact hlays

private theorem length_le_encodeRecs (hasPositions : Bool) (recs : List Rec) :
    recs.length ≤ (encodeRecs hasPositions recs).length := by
  induction recs with
  | nil => simp
  | cons x recs ih =>
      have hpos := List.length_pos_iff.mpr (encodeVarint64_ne_nil x.1)
      simp only [encodeRecs, List.flatMap_cons, encodeRecord, List.length_append,
        List.length_cons] at ih ⊢
      omega

/-- Every term costs some run a record. -/
private theorem length_le_sum_pending {contrib : Nat → Nat → List (Nat × List Nat)} {n : Nat}
    {ids : List Nat} (h : ∀ id ∈ ids, ∃ i < n, contrib i id ≠ []) :
    ids.length ≤ ((List.range n).map fun i => (pending contrib ids i).length).sum := by
  induction ids with
  | nil => simp
  | cons id ids ih =>
      have hrest := ih fun j hj => h j (by simp [hj])
      obtain ⟨i, hi, hne⟩ := h id (by simp)
      have hone : 1 ≤ ((List.range n).map fun i => if contrib i id = [] then 0 else 1).sum := by
        refine List.le_sum_of_mem (List.mem_map.mpr ⟨i, List.mem_range.mpr hi, ?_⟩)
        rw [if_neg hne]
      have hsplit : ((List.range n).map fun i => (pending contrib (id :: ids) i).length).sum =
          ((List.range n).map fun i => if contrib i id = [] then 0 else 1).sum +
            ((List.range n).map fun i => (pending contrib ids i).length).sum := by
        rw [← List.sum_map_add]
        congr 1
        refine List.map_congr_left fun i _ => ?_
        split
        · rename_i heq
          rw [pending_cons_of_eq heq, Nat.zero_add]
        · rename_i hne
          rw [pending_cons_of_ne hne, List.length_cons, Nat.add_comm]
      rw [List.length_cons, hsplit]
      omega

/-- **The merge of run files** whose records are the contributions of the runs. -/
theorem mergeRuns_lays {cfg : MergeConfig} {contrib : Nat → Nat → List (Nat × List Nat)} {n : Nat}
    (hplan : Restrained cfg.plan) (hroom : cfg.room = none) {ids : List Nat}
    (readSize : Nat → Nat) (hin : MergeInput cfg.vocab contrib n ids) :
    ∃ out, mergeRuns cfg readSize
        ((List.range n).map fun i => encodeRecs cfg.hasPositions (pending contrib ids i)) =
          some (.ok (), out) ∧
      List.Forall₂ (fun e id => Lays cfg.plan cfg.allowStream e cfg.hasPositions
        (cfg.vocab.getD id [])
        (contribGroups contrib n id)) out ids := by
  have hempty : HeapOk cfg.vocab (pending contrib ids) 0 [] [] :=
    ⟨List.Pairwise.nil, List.nodup_nil, by simp⟩
  obtain ⟨heap, rs, hopen, hheap, hlen, hrs⟩ := openRuns_spec readSize hin.allFit n 0 hempty
  rw [Nat.zero_add] at hheap
  have hready : Readers cfg.hasPositions (pending contrib ids) n [] rs := by
    have hat : ∀ i r, rs[i]? = some r → AtRecords cfg.hasPositions r (pending contrib ids i) := by
      intro i r hr
      simpa using hrs i r hr
    exact ⟨hlen, fun i r hr => (hat i r hr).behind, fun i r hr _ => hat i r hr⟩
  have hfuel : ids.length < (((List.range n).map fun i =>
      encodeRecs cfg.hasPositions (pending contrib ids i)).map List.length).sum + 1 := by
    rw [List.map_map]
    have hle := length_le_sum_pending hin.carried
    have hbytes : ((List.range n).map fun i => (pending contrib ids i).length).sum ≤
        ((List.range n).map (List.length ∘ fun i =>
          encodeRecs cfg.hasPositions (pending contrib ids i))).sum :=
      List.sum_le_sum fun i _ => length_le_encodeRecs cfg.hasPositions (pending contrib ids i)
    omega
  obtain ⟨out, hloop, hout⟩ := mergeLoop_lays hplan hroom ids hin hfuel hready hheap
  refine ⟨out, ?_, hout⟩
  rw [mergeRuns]
  rw [← List.range_eq_range'] at hopen
  simp only [hopen, hloop]

end Snii.Writer.SpillRunCodec
