import Mathlib.Algebra.BigOperators.Group.List.Basic
import Mathlib.Algebra.Order.BigOperators.Group.List
import Mathlib.Tactic.Linarith
import Snii.Query.ScoringQuery

/-!
# What one WAND iteration can do

The bounds summed by the pivot scan are split by docid: `boundUpTo cs d` adds
the current bounds of the cursors standing at or before `d`.  A document `d` is
*pruned* in a state when that sum is below the threshold.  The inversion lemmas
`wandStep_some` and `wandStep_none` say what an iteration can do in these
terms, and `Pruned.step` says that a pruned document stays pruned and is never
offered afterwards.
-/

namespace Snii.Query.ScoringQuery

open Snii.Lib

/-! ## Sorting cursors by docid -/

private theorem filterMap_getElem?_range {α : Type*} (xs : List α) :
    (List.range xs.length).filterMap (fun i => xs[i]?) = xs := by
  induction xs with
  | nil => rfl
  | cons x xs ih =>
      rw [List.length_cons, List.range_succ_eq_map, List.filterMap_cons]
      simp only [List.getElem?_cons_zero, List.filterMap_map]
      congr 1

/-- Sorting drops nothing and adds nothing. -/
theorem DocSort.apply_perm {α : Type*} (srt : DocSort) (key : α → Nat) (xs : List α) :
    (srt.apply key xs).Perm xs := by
  have hp := (srt.perm (xs.map key)).filterMap fun i => xs[i]?
  rw [List.length_map, filterMap_getElem?_range] at hp
  exact hp

private theorem map_filterMap_getElem? {α : Type*} (key : α → Nat) (xs : List α)
    (is : List Nat) (his : ∀ i ∈ is, i < xs.length) :
    (is.filterMap fun i => xs[i]?).map key = is.map fun i => (xs.map key).getD i 0 := by
  induction is with
  | nil => rfl
  | cons i is ih =>
      have hi : i < xs.length := his i (by simp)
      have htail := ih fun j hj => his j (by simp [hj])
      simp [List.getElem?_eq_getElem hi, htail]

/-- Sorting sorts. -/
theorem DocSort.apply_sorted {α : Type*} (srt : DocSort) (key : α → Nat) (xs : List α) :
    (srt.apply key xs).Pairwise (fun x y => key x ≤ key y) := by
  have hlt : ∀ i ∈ srt.order (xs.map key), i < xs.length := by
    intro i hi
    simpa using (srt.perm (xs.map key)).mem_iff.mp hi
  have hsorted := srt.sorted (xs.map key)
  rw [← map_filterMap_getElem? key xs _ hlt] at hsorted
  exact List.pairwise_map.mp hsorted

/-! ## Cursor positions -/

/-- A cursor whose postings ascend below the sentinel, with a non-negative bound at each
of them. -/
structure TermCursor.Ascending (c : TermCursor) : Prop where
  ascending : c.postings.Pairwise (fun p q => p.docid < q.docid)
  inRange : ∀ p ∈ c.postings, p.docid < uint32Max
  boundNonneg : ∀ p ∈ c.postings, 0 ≤ termBoundAt c p.docid

/-- A cursor stands at its first remaining posting, or at the end marker. -/
theorem currentDoc_eq (c : TermCursor) :
    currentDoc c = match c.remaining with
      | p :: _ => p.docid
      | [] => uint32Max := by
  have h := List.head?_drop (l := c.postings) (i := c.pos)
  unfold currentDoc TermCursor.remaining
  rw [← h]
  cases c.postings.drop c.pos <;> rfl

/-- A cursor that is not at the end has a posting left. -/
theorem exists_remaining {c : TermCursor} (h : currentDoc c ≠ uint32Max) :
    ∃ p rest, c.remaining = p :: rest ∧ currentDoc c = p.docid := by
  have hcur := currentDoc_eq c
  cases hrem : c.remaining with
  | nil => rw [hrem] at hcur; exact absurd hcur h
  | cons p rest => rw [hrem] at hcur; exact ⟨p, rest, rfl, hcur⟩

theorem TermCursor.Ascending.mem_remaining {c : TermCursor} {p : TermPosting}
    (hp : p ∈ c.remaining) : p ∈ c.postings :=
  List.mem_of_mem_drop hp

/-- No document is beyond the end marker. -/
theorem TermCursor.Ascending.currentDoc_le {c : TermCursor} (hc : c.Ascending) :
    currentDoc c ≤ uint32Max := by
  by_cases h : currentDoc c = uint32Max
  · exact h.le
  · obtain ⟨p, rest, hrem, hcur⟩ := exists_remaining h
    rw [hcur]
    exact (hc.inRange p (mem_remaining (by simp [hrem]))).le

/-- The postings ahead of a cursor start at its current docid. -/
theorem TermCursor.Ascending.currentDoc_le_of_mem {c : TermCursor} (hc : c.Ascending)
    {p : TermPosting} (hp : p ∈ c.remaining) : currentDoc c ≤ p.docid := by
  have hsorted : c.remaining.Pairwise (fun p q => p.docid < q.docid) :=
    hc.ascending.sublist (List.drop_sublist _ _)
  rw [currentDoc_eq c]
  cases hrem : c.remaining with
  | nil => rw [hrem] at hp; simp at hp
  | cons q rest =>
      rw [hrem] at hp hsorted
      rcases List.mem_cons.mp hp with rfl | hmem
      · exact Nat.le_refl _
      · exact ((List.pairwise_cons.mp hsorted).1 p hmem).le

/-- A bound is not negative. -/
theorem TermCursor.Ascending.bound_nonneg {c : TermCursor} (hc : c.Ascending)
    (h : currentDoc c ≠ uint32Max) : 0 ≤ termBoundAt c (currentDoc c) := by
  obtain ⟨p, rest, hrem, hcur⟩ := exists_remaining h
  rw [hcur]
  exact hc.boundNonneg p (mem_remaining (by simp [hrem]))

/-- Moving a cursor changes neither its postings nor its windows. -/
theorem TermCursor.Ascending.withPos {c : TermCursor} (hc : c.Ascending) (n : Nat) :
    ({ c with pos := n } : TermCursor).Ascending :=
  ⟨hc.ascending, hc.inRange, hc.boundNonneg⟩

private theorem drop_takeWhile_length {α : Type*} (p : α → Bool) (l : List α) :
    l.drop (l.takeWhile p).length = l.dropWhile p := by
  induction l with
  | nil => rfl
  | cons x l ih =>
      by_cases h : p x
      · simp [h, ih]
      · simp [h]

theorem remaining_skipTo (target : Nat) (c : TermCursor) :
    (skipTo target c).remaining = c.remaining.dropWhile (fun p => p.docid < target) := by
  unfold skipTo TermCursor.remaining
  rw [← drop_takeWhile_length, List.drop_drop]

theorem remaining_advance {c : TermCursor} {p : TermPosting} {rest : List TermPosting}
    (h : c.remaining = p :: rest) :
    ({ c with pos := c.pos + 1 } : TermCursor).remaining = rest := by
  unfold TermCursor.remaining at h ⊢
  rw [← List.drop_drop, h]
  rfl

/-- A skip lands at or beyond its target. -/
theorem le_currentDoc_skipTo {target : Nat} (ht : target ≤ uint32Max) (c : TermCursor) :
    target ≤ currentDoc (skipTo target c) := by
  rw [currentDoc_eq, remaining_skipTo]
  cases hrem : c.remaining.dropWhile (fun p => p.docid < target) with
  | nil => exact ht
  | cons q rest =>
      have hq := List.head_dropWhile_not (fun p : TermPosting => decide (p.docid < target))
        (l := c.remaining) (by rw [hrem]; simp)
      simp only [hrem, List.head_cons, decide_eq_false_iff_not] at hq
      simpa using Nat.le_of_not_lt hq

theorem TermCursor.Ascending.currentDoc_advance {c : TermCursor} (hc : c.Ascending)
    (h : currentDoc c ≠ uint32Max) :
    currentDoc c < currentDoc { c with pos := c.pos + 1 } := by
  obtain ⟨p, rest, hrem, hcur⟩ := exists_remaining h
  rw [hcur, currentDoc_eq, remaining_advance hrem]
  have hsorted : c.remaining.Pairwise (fun p q => p.docid < q.docid) :=
    hc.ascending.sublist (List.drop_sublist _ _)
  rw [hrem] at hsorted
  cases rest with
  | nil => exact hc.inRange p (mem_remaining (by simp [hrem]))
  | cons q rest => exact (List.pairwise_cons.mp hsorted).1 q (by simp)

/-! ## Bounds split by docid -/

/-- The sum of the current bounds of a list of cursors. -/
def boundSum (cs : List TermCursor) : ℚ :=
  (cs.map fun c => termBoundAt c (currentDoc c)).sum

/-- The bounds of the cursors standing at or before a docid. -/
def boundUpTo (cs : List TermCursor) (d : Nat) : ℚ :=
  boundSum (cs.filter fun c => currentDoc c ≤ d)

/-- The cursors at or before `d` cannot reach the threshold. -/
def Pruned (theta : ℚ) (cs : List TermCursor) (d : Nat) : Prop := boundUpTo cs d < theta

theorem boundSum_nonneg {cs : List TermCursor} (hcs : ∀ c ∈ cs, c.Ascending)
    (hlive : ∀ c ∈ cs, currentDoc c ≠ uint32Max) : 0 ≤ boundSum cs := by
  refine List.sum_nonneg ?_
  intro b hb
  obtain ⟨c, hc, rfl⟩ := List.mem_map.mp hb
  exact (hcs c hc).bound_nonneg (hlive c hc)

theorem boundUpTo_perm {cs ds : List TermCursor} (h : cs.Perm ds) (d : Nat) :
    boundUpTo cs d = boundUpTo ds d :=
  ((h.filter _).map _).sum_eq

theorem boundUpTo_nonneg {cs : List TermCursor} (hcs : ∀ c ∈ cs, c.Ascending) {d : Nat}
    (hd : d < uint32Max) : 0 ≤ boundUpTo cs d := by
  refine boundSum_nonneg (fun c hc => hcs c (List.mem_filter.mp hc).1) ?_
  intro c hc
  have := (List.mem_filter.mp hc).2
  simp only [decide_eq_true_eq] at this
  omega

theorem boundUpTo_cons (c : TermCursor) (cs : List TermCursor) (d : Nat) :
    boundUpTo (c :: cs) d =
      (if currentDoc c ≤ d then termBoundAt c (currentDoc c) else 0) + boundUpTo cs d := by
  by_cases h : currentDoc c ≤ d
  · simp [boundUpTo, boundSum, h]
  · simp [boundUpTo, boundSum, h]

theorem boundUpTo_append (cs ds : List TermCursor) (d : Nat) :
    boundUpTo (cs ++ ds) d = boundUpTo cs d + boundUpTo ds d := by
  simp [boundUpTo, boundSum]

/-- Nothing stands at or before a docid below every current one. -/
theorem boundUpTo_eq_zero {cs : List TermCursor} {d : Nat}
    (h : ∀ c ∈ cs, d < currentDoc c) : boundUpTo cs d = 0 := by
  have hnil : cs.filter (fun c => currentDoc c ≤ d) = [] := by
    refine List.filter_eq_nil_iff.mpr fun c hc => ?_
    have := h c hc
    simp only [decide_eq_true_eq]
    omega
  rw [boundUpTo, hnil]
  rfl

/-- Every cursor at or before `d` counts. -/
theorem boundUpTo_eq_boundSum {cs : List TermCursor} {d : Nat}
    (h : ∀ c ∈ cs, currentDoc c ≤ d) : boundUpTo cs d = boundSum cs := by
  have hall : cs.filter (fun c => currentDoc c ≤ d) = cs := by
    refine List.filter_eq_self.mpr fun c hc => ?_
    simpa using h c hc
  rw [boundUpTo, hall]

/-- A live cursor adds a non-negative amount. -/
theorem boundUpTo_cons_le {c : TermCursor} {cs : List TermCursor} (hc : c.Ascending) {d : Nat}
    (hd : d < uint32Max) : boundUpTo cs d ≤ boundUpTo (c :: cs) d := by
  rw [boundUpTo_cons]
  by_cases h : currentDoc c ≤ d
  · rw [if_pos h]
    have := hc.bound_nonneg (by omega)
    linarith
  · rw [if_neg h]
    linarith

theorem boundUpTo_mono {cs : List TermCursor} (hcs : ∀ c ∈ cs, c.Ascending) {d e : Nat}
    (hde : d ≤ e) (he : e < uint32Max) : boundUpTo cs d ≤ boundUpTo cs e := by
  induction cs with
  | nil => exact le_refl _
  | cons c cs ih =>
      have htail := ih fun x hx => hcs x (by simp [hx])
      rw [boundUpTo_cons, boundUpTo_cons]
      by_cases hd : currentDoc c ≤ d
      · rw [if_pos hd, if_pos (by omega)]
        linarith
      · rw [if_neg hd]
        by_cases he' : currentDoc c ≤ e
        · rw [if_pos he']
          have := (hcs c (by simp)).bound_nonneg (by omega)
          linarith
        · rw [if_neg he']
          linarith

/-! ## The pivot scan -/

/-- What the scan returns: a split of the sorted cursors at the pivot. -/
theorem findPivot_some {theta : ℚ} {l : List TermCursor} {b : ℚ} {d : Nat}
    (h : findPivot theta b l = some d) :
    ∃ pre c post, l = pre ++ c :: post ∧ currentDoc c = d ∧ d ≠ uint32Max ∧
      (∀ x ∈ pre, currentDoc x ≠ uint32Max) ∧
      theta ≤ b + boundSum (pre ++ [c]) ∧ (pre ≠ [] → b + boundSum pre < theta) := by
  induction l generalizing b with
  | nil => simp [findPivot] at h
  | cons c rest ih =>
      rw [findPivot] at h
      split at h
      · simp at h
      · rename_i hlive
        split at h
        · rename_i hge
          refine ⟨[], c, rest, rfl, by simpa using h, ?_, by simp, ?_, by simp⟩
          · rw [← Option.some.inj h]
            exact hlive
          · simpa [boundSum] using hge
        · rename_i hlt
          obtain ⟨pre, c', post, hl, hd, hne, hpre, hreach, hbelow⟩ := ih h
          refine ⟨c :: pre, c', post, by rw [hl]; rfl, hd, hne, ?_, ?_, ?_⟩
          · intro x hx
            rcases List.mem_cons.mp hx with rfl | hx
            · exact hlive
            · exact hpre x hx
          · rw [List.cons_append, boundSum, List.map_cons, List.sum_cons]
            rw [boundSum] at hreach
            linarith
          · intro _
            rw [boundSum, List.map_cons, List.sum_cons]
            by_cases hnil : pre = []
            · subst hnil
              simpa using hlt
            · have := hbelow hnil
              rw [boundSum] at this
              linarith

/-- When the scan finds nothing, no prefix of the live cursors reaches `theta`. -/
theorem findPivot_none {theta : ℚ} {l : List TermCursor} {b : ℚ}
    (h : findPivot theta b l = none) :
    ∃ pre post, l = pre ++ post ∧ (∀ x ∈ pre, currentDoc x ≠ uint32Max) ∧
      (∀ x ∈ post.head?, currentDoc x = uint32Max) ∧
      (pre ≠ [] → b + boundSum pre < theta) := by
  induction l generalizing b with
  | nil => exact ⟨[], [], rfl, by simp, by simp, by simp⟩
  | cons c rest ih =>
      rw [findPivot] at h
      split at h
      · rename_i hdone
        exact ⟨[], c :: rest, rfl, by simp, by simpa using hdone, by simp⟩
      · rename_i hlive
        split at h
        · simp at h
        · rename_i hlt
          obtain ⟨pre, post, hl, hpre, hpost, hbelow⟩ := ih h
          refine ⟨c :: pre, post, by rw [hl]; rfl, ?_, hpost, ?_⟩
          · intro x hx
            rcases List.mem_cons.mp hx with rfl | hx
            · exact hlive
            · exact hpre x hx
          · intro _
            rw [boundSum, List.map_cons, List.sum_cons]
            by_cases hnil : pre = []
            · subst hnil
              simpa using hlt
            · have := hbelow hnil
              rw [boundSum] at this
              linarith

/-! ## Inversion of one iteration -/

/-- The two things an iteration can do to the cursors, in any order of them. -/
inductive WandMove (theta : ℚ) (cs : List TermCursor) : StepOut → Prop
  /-- Scores the front docid `f`, at which some cursor stands and whose
  bounds reach the threshold, and moves the cursors at `f` by one. -/
  | score (sorted : List TermCursor) (f : Nat) (perm : sorted.Perm cs)
      (live : f < uint32Max) (front : ∀ c ∈ sorted, f ≤ currentDoc c)
      (stands : ∃ c ∈ sorted, currentDoc c = f) (reach : theta ≤ boundUpTo sorted f) :
      WandMove theta cs
        { cursors := sorted.map (advanceAt f)
          offer := some ((sorted.map (scoreAt f)).sum, f) }
  /-- Skips one cursor to the pivot docid `d`; everything below `d` is pruned. -/
  | skip (c : TermCursor) (rest : List TermCursor) (d : Nat) (perm : (c :: rest).Perm cs)
      (lag : currentDoc c < d) (live : d < uint32Max)
      (pruned : ∀ e < d, Pruned theta (c :: rest) e)
      (reach : theta ≤ boundUpTo (c :: rest) d) :
      WandMove theta cs { cursors := skipTo d c :: rest, offer := none }

/-- The scan's prefix carries every bound below the pivot docid. -/
private theorem pruned_of_prefix {theta : ℚ} {pre : List TermCursor} {c : TermCursor}
    {post : List TermCursor} (hasc : ∀ x ∈ pre ++ c :: post, x.Ascending)
    (hsorted : (pre ++ c :: post).Pairwise (fun x y => currentDoc x ≤ currentDoc y))
    (hlive : currentDoc c < uint32Max) (hbelow : boundSum pre < theta) {e : Nat} (he : e < currentDoc c) :
    Pruned theta (pre ++ c :: post) e := by
  have hzero : boundUpTo (c :: post) e = 0 := by
    refine boundUpTo_eq_zero fun x hx => ?_
    have htail := (List.pairwise_append.mp hsorted).2.1
    rcases List.mem_cons.mp hx with rfl | hx
    · exact he
    · exact Nat.lt_of_lt_of_le he ((List.pairwise_cons.mp htail).1 x hx)
  have hle : boundUpTo pre e ≤ boundSum pre := by
    have hcur : ∀ x ∈ pre, currentDoc x ≤ currentDoc c := fun x hx =>
      (List.pairwise_append.mp hsorted).2.2 x hx c (by simp)
    rw [← boundUpTo_eq_boundSum hcur]
    exact boundUpTo_mono (fun x hx => hasc x (by simp [hx])) he.le hlive
  rw [Pruned, boundUpTo_append, hzero]
  linarith

theorem wandStep_some {srt : DocSort} {theta : ℚ} {cs : List TermCursor} {out : StepOut}
    (hcs : ∀ c ∈ cs, c.Ascending) (h : wandStep srt theta cs = some out) :
    WandMove theta cs out := by
  have hperm := srt.apply_perm currentDoc cs
  have hsorted := srt.apply_sorted currentDoc cs
  unfold wandStep at h
  cases hs : srt.apply currentDoc cs with
  | nil => rw [hs] at h; simp at h
  | cons front rest =>
      rw [hs] at h hperm hsorted
      dsimp only at h
      have hasc : ∀ c ∈ front :: rest, c.Ascending := fun c hc =>
        hcs c (hperm.mem_iff.mp hc)
      split at h
      · simp at h
      · split at h
        · simp at h
        · rename_i d hpivot
          obtain ⟨pre, c, post, hl, hd, hne, hpre, hreach, hbelow⟩ := findPivot_some hpivot
          have hcAsc : c.Ascending := hasc c (by rw [hl]; simp)
          have hlive : d < uint32Max := by
            have := hcAsc.currentDoc_le
            omega
          have hupTo : theta ≤ boundUpTo (front :: rest) d := by
            have hpreLe : ∀ x ∈ pre ++ [c], currentDoc x ≤ d := by
              intro x hx
              rw [hl] at hsorted
              rcases List.mem_append.mp hx with hx | hx
              · rw [← hd]
                exact (List.pairwise_append.mp hsorted).2.2 x hx c (by simp)
              · rw [List.mem_singleton.mp hx, hd]
            have hpost : 0 ≤ boundUpTo post _ :=
              boundUpTo_nonneg (fun x hx => hasc x (by rw [hl]; simp [hx])) hlive
            rw [hl, show pre ++ c :: post = (pre ++ [c]) ++ post by simp, boundUpTo_append,
              boundUpTo_eq_boundSum hpreLe]
            linarith
          split at h
          · rename_i hfront
            obtain rfl := Option.some.inj h
            refine WandMove.score (front :: rest) d hperm hlive ?_
              ⟨front, by simp, hfront⟩ hupTo
            intro x hx
            rw [← hfront]
            rcases List.mem_cons.mp hx with rfl | hx
            · exact Nat.le_refl _
            · exact (List.pairwise_cons.mp hsorted).1 x hx
          · rename_i hfront
            obtain rfl := Option.some.inj h
            -- the pivot is not the front, so the scan passed the front cursor
            cases pre with
            | nil =>
                simp only [List.nil_append, List.cons.injEq] at hl
                rw [hl.1] at hfront
                exact absurd hd hfront
            | cons x pre =>
                have hxf : x = front := (List.cons.inj hl).1.symm
                subst hxf
                have hlag : currentDoc x < d := by
                  have hle : currentDoc x ≤ currentDoc c :=
                    (List.pairwise_append.mp (hl ▸ hsorted)).2.2 x (by simp) c (by simp)
                  omega
                rw [advanceLagging, if_pos hlag]
                refine WandMove.skip x rest d hperm hlag hlive ?_ hupTo
                intro e he
                rw [hl]
                exact pruned_of_prefix (hl ▸ hasc) (hl ▸ hsorted) (by omega)
                  (by simpa using hbelow (by simp)) (by omega)

/-- When the loop breaks, every cursor is exhausted or everything is pruned. -/
theorem wandStep_none {srt : DocSort} {theta : ℚ} {cs : List TermCursor}
    (hcs : ∀ c ∈ cs, c.Ascending) (h : wandStep srt theta cs = none) :
    (∀ c ∈ cs, currentDoc c = uint32Max) ∨ ∀ e < uint32Max, Pruned theta cs e := by
  have hperm := srt.apply_perm currentDoc cs
  have hsorted := srt.apply_sorted currentDoc cs
  unfold wandStep at h
  cases hs : srt.apply currentDoc cs with
  | nil =>
      rw [hs] at hperm
      left
      intro c hc
      exact absurd (hperm.mem_iff.mpr hc) (by simp)
  | cons front rest =>
      rw [hs] at h hperm hsorted
      dsimp only at h
      have hasc : ∀ c ∈ front :: rest, c.Ascending := fun c hc =>
        hcs c (hperm.mem_iff.mp hc)
      split at h
      · rename_i hfront
        left
        intro c hc
        have hle : currentDoc front ≤ currentDoc c := by
          rcases List.mem_cons.mp (hperm.mem_iff.mpr hc) with rfl | hc
          · exact Nat.le_refl _
          · exact (List.pairwise_cons.mp hsorted).1 c hc
        have := (hcs c hc).currentDoc_le
        omega
      · rename_i hfront
        split at h
        · rename_i hpivot
          right
          intro e he
          obtain ⟨pre, post, hl, hpre, hpost, hbelow⟩ := findPivot_none hpivot
          have hpreNe : pre ≠ [] := by
            intro hnil
            subst hnil
            rw [List.nil_append] at hl
            exact hfront (hpost front (by rw [← hl]; simp))
          have hzero : boundUpTo post e = 0 := by
            refine boundUpTo_eq_zero fun x hx => ?_
            cases post with
            | nil => simp at hx
            | cons y post =>
                have hy : currentDoc y = uint32Max := hpost y (by simp)
                rw [hl] at hsorted
                have htail := (List.pairwise_append.mp hsorted).2.1
                rcases List.mem_cons.mp hx with rfl | hx
                · omega
                · have := (List.pairwise_cons.mp htail).1 x hx
                  omega
          have hle : boundUpTo pre e ≤ boundSum pre := by
            have hcur : ∀ x ∈ pre, currentDoc x ≤ uint32Max - 1 := by
              intro x hx
              have h1 := (hasc x (by rw [hl]; simp [hx])).currentDoc_le
              have h2 := hpre x hx
              omega
            rw [← boundUpTo_eq_boundSum hcur]
            exact boundUpTo_mono (fun x hx => hasc x (by rw [hl]; simp [hx])) (by omega)
              (by decide)
          have := hbelow hpreNe
          rw [Pruned, ← boundUpTo_perm hperm, hl, boundUpTo_append, hzero]
          linarith
        · split at h <;> simp at h

/-! ## Pruned documents stay pruned -/

theorem advanceAt_ascending {f : Nat} {c : TermCursor} (hc : c.Ascending) :
    (advanceAt f c).Ascending := by
  unfold advanceAt
  split
  · exact hc.withPos _
  · exact hc

/-- A cursor at or beyond `f` is strictly beyond `f` after the advance. -/
theorem lt_currentDoc_advanceAt {f : Nat} {c : TermCursor} (hc : c.Ascending)
    (hf : f < uint32Max) (hle : f ≤ currentDoc c) : f < currentDoc (advanceAt f c) := by
  unfold advanceAt
  split
  · rename_i heq
    have := hc.currentDoc_advance (by omega)
    omega
  · omega

/-- The cursors of an iteration's outcome are still ascending. -/
theorem WandMove.ascending {theta : ℚ} {cs : List TermCursor} {out : StepOut}
    (hcs : ∀ c ∈ cs, c.Ascending) (h : WandMove theta cs out) :
    ∀ c ∈ out.cursors, c.Ascending := by
  cases h with
  | score sorted f perm =>
      intro c hc
      obtain ⟨c', hc', rfl⟩ := List.mem_map.mp hc
      exact advanceAt_ascending (hcs c' (perm.mem_iff.mp hc'))
  | skip c rest d perm =>
      intro c' hc'
      rcases List.mem_cons.mp hc' with rfl | hc'
      · exact (hcs c (perm.mem_iff.mp (by simp))).withPos _
      · exact hcs c' (perm.mem_iff.mp (by simp [hc']))

/-- **A pruned document stays pruned** while the threshold does not fall, and
the iteration offers a later docid if it offers one at all. -/
theorem Pruned.step {theta theta' : ℚ} {cs : List TermCursor} {out : StepOut} {d : Nat}
    (hcs : ∀ c ∈ cs, c.Ascending) (hd : d < uint32Max) (htheta : theta ≤ theta')
    (hpruned : Pruned theta cs d) (h : WandMove theta cs out) :
    Pruned theta' out.cursors d ∧ ∀ e ∈ out.offer, d < e.2 := by
  cases h with
  | score sorted f perm live front stands reach =>
      have hasc : ∀ c ∈ sorted, c.Ascending := fun c hc => hcs c (perm.mem_iff.mp hc)
      have hdf : d < f := by
        by_contra hle
        have hmono := boundUpTo_mono hasc (Nat.le_of_not_lt hle) hd
        rw [Pruned, ← boundUpTo_perm perm] at hpruned
        linarith
      refine ⟨?_, by simpa using hdf⟩
      have hbefore : boundUpTo cs d = 0 := by
        rw [← boundUpTo_perm perm]
        exact boundUpTo_eq_zero fun c hc => Nat.lt_of_lt_of_le hdf (front c hc)
      have hafter : boundUpTo (sorted.map (advanceAt f)) d = 0 := by
        refine boundUpTo_eq_zero fun c hc => ?_
        obtain ⟨c', hc', rfl⟩ := List.mem_map.mp hc
        have := lt_currentDoc_advanceAt (hasc c' hc') live (front c' hc')
        omega
      rw [Pruned, hbefore] at hpruned
      rw [Pruned, hafter]
      linarith
  | skip c rest p perm lag live pruned reach =>
      have hasc : ∀ x ∈ c :: rest, x.Ascending := fun x hx => hcs x (perm.mem_iff.mp hx)
      have hdp : d < p := by
        by_contra hle
        have hmono := boundUpTo_mono hasc (Nat.le_of_not_lt hle) hd
        rw [Pruned, ← boundUpTo_perm perm] at hpruned
        linarith
      refine ⟨?_, by simp⟩
      have hbeyond : ¬ currentDoc (skipTo p c) ≤ d := by
        have := le_currentDoc_skipTo live.le c
        omega
      have hle : boundUpTo rest d ≤ boundUpTo (c :: rest) d :=
        boundUpTo_cons_le (hasc c (by simp)) hd
      rw [Pruned, ← boundUpTo_perm perm] at hpruned
      rw [Pruned, boundUpTo_cons, if_neg hbeyond]
      linarith

/-! ## Runs -/

/-- The loop passes from one state to another, making the listed offers. -/
inductive WandReach (srt : DocSort) :
    List TermCursor → TopK → List Entry → List TermCursor → TopK → Prop
  | refl (cs : List TermCursor) (t : TopK) : WandReach srt cs t [] cs t
  | step {cs cs' : List TermCursor} {t t' : TopK} {out : StepOut} {offs : List Entry}
      (h : wandStep srt t.threshold cs = some out)
      (hrest : WandReach srt out.cursors (t.after out.offer) offs cs' t') :
      WandReach srt cs t (out.offer.toList ++ offs) cs' t'

theorem WandReach.ascending {srt : DocSort} {cs cs' : List TermCursor} {t t' : TopK}
    {offs : List Entry} (h : WandReach srt cs t offs cs' t') (hcs : ∀ c ∈ cs, c.Ascending) :
    ∀ c ∈ cs', c.Ascending := by
  induction h with
  | refl => exact hcs
  | step h _ ih => exact ih ((wandStep_some hcs h).ascending hcs)

private theorem length_remaining_advanceAt_le (f : Nat) (c : TermCursor) :
    (advanceAt f c).remaining.length ≤ c.remaining.length := by
  unfold advanceAt TermCursor.remaining
  split
  · simp only [List.length_drop]
    omega
  · exact Nat.le_refl _

private theorem length_remaining_advanceAt_lt {f : Nat} {c : TermCursor}
    (hf : f ≠ uint32Max) (heq : currentDoc c = f) :
    (advanceAt f c).remaining.length < c.remaining.length := by
  obtain ⟨p, rest, hrem, _⟩ := exists_remaining (c := c) (heq ▸ hf)
  rw [advanceAt, if_pos heq, remaining_advance hrem, hrem]
  simp

private theorem length_remaining_skipTo_lt {d : Nat} {c : TermCursor}
    (hlive : currentDoc c ≠ uint32Max) (hlag : currentDoc c < d) :
    (skipTo d c).remaining.length < c.remaining.length := by
  obtain ⟨p, tail, hrem, hcur⟩ := exists_remaining hlive
  have hp : decide (p.docid < d) = true := by
    simp only [decide_eq_true_eq]
    omega
  rw [remaining_skipTo, hrem, List.dropWhile_cons, if_pos hp, List.length_cons]
  exact Nat.lt_succ_of_le (List.dropWhile_sublist _).length_le

/-- Every iteration uses up a posting. -/
theorem wandStep_workLeft_lt {srt : DocSort} {theta : ℚ} {cs : List TermCursor} {out : StepOut}
    (h : wandStep srt theta cs = some out) : workLeft out.cursors < workLeft cs := by
  have hperm := srt.apply_perm currentDoc cs
  have hsorted := srt.apply_sorted currentDoc cs
  unfold wandStep at h
  cases hs : srt.apply currentDoc cs with
  | nil => rw [hs] at h; simp at h
  | cons front rest =>
      rw [hs] at h hperm hsorted
      dsimp only at h
      have hsame : workLeft (front :: rest) = workLeft cs := (hperm.map _).sum_eq
      split at h
      · simp at h
      · rename_i hlive
        split at h
        · simp at h
        · rename_i d hpivot
          obtain ⟨pre, c, post, hl, hd, hne, _⟩ := findPivot_some hpivot
          split at h
          · rename_i hfront
            obtain rfl := Option.some.inj h
            rw [← hsame]
            simp only [workLeft, List.map_map]
            exact List.sum_lt_sum _ _ (fun x _ => length_remaining_advanceAt_le d x)
              ⟨front, List.mem_cons_self, length_remaining_advanceAt_lt hne hfront⟩
          · rename_i hfront
            obtain rfl := Option.some.inj h
            -- the pivot cursor is in the sorted list, so the front one is not past it
            have hlag : currentDoc front < d := by
              have hmem : c ∈ front :: rest := by rw [hl]; simp
              rcases List.mem_cons.mp hmem with rfl | hmem
              · exact absurd hd hfront
              · have := (List.pairwise_cons.mp hsorted).1 c hmem
                omega
            rw [← hsame, advanceLagging, if_pos hlag]
            simp only [workLeft, List.map_cons, List.sum_cons]
            exact Nat.add_lt_add_right (length_remaining_skipTo_lt hlive hlag) _

/-- **The loop terminates**: with one unit of budget more than the postings
left it passes to a state in which it breaks. -/
theorem wandLoop_reach {srt : DocSort} (fuel : Nat) {cs : List TermCursor} {t : TopK}
    (hfuel : workLeft cs < fuel) :
    ∃ offs cs' t', wandLoop srt fuel cs t = some (offs, t') ∧
      WandReach srt cs t offs cs' t' ∧ wandStep srt t'.threshold cs' = none := by
  induction fuel generalizing cs t with
  | zero => omega
  | succ fuel ih =>
      rw [wandLoop]
      cases hstep : wandStep srt t.threshold cs with
      | none => exact ⟨[], cs, t, rfl, WandReach.refl cs t, hstep⟩
      | some out =>
          have hlt := wandStep_workLeft_lt hstep
          obtain ⟨offs, cs', t', hloop, hreach, hdone⟩ :=
            ih (t := t.after out.offer) (show workLeft out.cursors < fuel by omega)
          refine ⟨out.offer.toList ++ offs, cs', t', ?_, WandReach.step hstep hreach, hdone⟩
          simp only [hloop, Option.map_some]

/-- A run is determined by its start: a state it passes through splits it. -/
theorem WandReach.split {srt : DocSort} {cs cs1 cs' : List TermCursor} {t t1 t' : TopK}
    {offs1 offs : List Entry} (h1 : WandReach srt cs t offs1 cs1 t1)
    (h : WandReach srt cs t offs cs' t') (hdone : wandStep srt t'.threshold cs' = none) :
    ∃ offs2, WandReach srt cs1 t1 offs2 cs' t' ∧ offs = offs1 ++ offs2 := by
  induction h1 generalizing offs with
  | refl cs t => exact ⟨offs, h, rfl⟩
  | @step cs cs1 t t1 out offs1 hstep hrest ih =>
      cases h with
      | refl => rw [hdone] at hstep; simp at hstep
      | @step _ _ _ _ out' offs' hstep' hrest' =>
          rw [hstep] at hstep'
          obtain rfl := Option.some.inj hstep'
          obtain ⟨offs2, hreach, heq⟩ := ih hrest'
          exact ⟨offs2, hreach, by rw [heq, List.append_assoc]⟩

end Snii.Query.ScoringQuery
