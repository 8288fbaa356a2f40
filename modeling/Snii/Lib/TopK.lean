import Mathlib.Data.List.Sort
import Mathlib.Data.List.Nodup

/-!
# Best-`k` selection under a ranking

`bestK r k l` is the list of the `k` best elements of `l`, best first, where
`r a b` says that `a` ranks no later than `b`.  A bounded queue keeps the same
elements worst first and replaces its worst element one offer at a time
(`offerK`); `offerK_reverse_bestK` is the step lemma that ties the queue to
`bestK`.  The two selection lemmas at the end say when dropping elements from
the list leaves the selection alone, and when a list of `k` better elements
rules an element out.
-/

namespace Snii.Lib.TopK

open List

variable {α : Type*} (r : α → α → Prop) [DecidableRel r]

/-- The `k` best elements of `l`, best first. -/
def bestK (k : Nat) (l : List α) : List α := (l.insertionSort r).take k

/-- Bounded selection kept worst first: an element is added while there is
room, and otherwise takes the place of the head when it ranks before it. -/
def offerK (k : Nat) (worstFirst : List α) (x : α) : List α :=
  if worstFirst.length < k then worstFirst.orderedInsert (fun a b => r b a) x
  else match worstFirst with
    | [] => []
    | worst :: rest => if r worst x then worst :: rest
        else rest.orderedInsert (fun a b => r b a) x

variable {r}

theorem bestK_length_le (k : Nat) (l : List α) : (bestK r k l).length ≤ k := by
  simp [bestK]

theorem bestK_length (k : Nat) (l : List α) :
    (bestK r k l).length = min k l.length := by
  simp [bestK]

theorem mem_of_mem_bestK {k : Nat} {l : List α} {x : α} (h : x ∈ bestK r k l) :
    x ∈ l :=
  (mem_insertionSort r).1 (List.mem_of_mem_take h)

section Order

variable [Std.Total r] [IsTrans α r]

theorem bestK_pairwise (k : Nat) (l : List α) : (bestK r k l).Pairwise r :=
  (pairwise_insertionSort r l).sublist (List.take_sublist _ _)

/-- Every element left out of the selection ranks after all selected ones. -/
theorem rel_of_mem_bestK_of_notMem {k : Nat} {l : List α} {x y : α}
    (hx : x ∈ bestK r k l) (hy : y ∈ l) (hyk : y ∉ bestK r k l) : r x y := by
  have hsorted := pairwise_insertionSort r l
  rw [← List.take_append_drop k (l.insertionSort r)] at hsorted
  have hy' : y ∈ (l.insertionSort r).drop k := by
    have hmem : y ∈ (l.insertionSort r).take k ++ (l.insertionSort r).drop k := by
      rw [List.take_append_drop]
      exact (mem_insertionSort r).2 hy
    rcases List.mem_append.mp hmem with h | h
    · exact absurd h hyk
    · exact h
  exact (List.pairwise_append.mp hsorted).2.2 x hx y hy'

/-- An element with `k` strictly better ones in the list is not selected. -/
theorem notMem_bestK_of_better {k : Nat} {l better : List α} {x : α}
    (hNodup : better.Nodup) (hlen : k ≤ better.length) (hsub : better ⊆ l)
    (hbetter : ∀ b ∈ better, ¬ r x b) : x ∉ bestK r k l := by
  intro hx
  have hmem : x :: better ⊆ bestK r k l := by
    intro b hb
    rcases List.mem_cons.mp hb with rfl | hb
    · exact hx
    · by_contra hnot
      exact hbetter b hb (rel_of_mem_bestK_of_notMem hx (hsub hb) hnot)
  have hnd : (x :: better).Nodup :=
    List.nodup_cons.mpr ⟨fun h => hbetter x h (refl_of r x), hNodup⟩
  have hle := (List.subperm_of_subset hnd hmem).length_le
  have := bestK_length_le (r := r) k l
  simp only [List.length_cons] at hle
  omega

variable [Std.Antisymm r]

theorem insertionSort_eq_of_perm {l m : List α} (hp : l ~ m) (hm : m.Pairwise r) :
    l.insertionSort r = m :=
  Perm.eq_of_pairwise' (pairwise_insertionSort r l) hm
    ((perm_insertionSort r l).trans hp)

theorem bestK_perm {k : Nat} {l m : List α} (hp : l ~ m) :
    bestK r k l = bestK r k m := by
  rw [bestK, bestK, insertionSort_eq_of_perm
    (hp.trans (perm_insertionSort r m).symm) (pairwise_insertionSort r m)]

/-! ## One offer to the bounded queue -/

private theorem orderedInsert_reverse (x : α) {s : List α} (hs : s.Pairwise r) :
    s.reverse.orderedInsert (fun a b => r b a) x = (s.orderedInsert r x).reverse := by
  have : Std.Total (fun a b => r b a) := ⟨fun a b => Std.Total.total b a⟩
  have : IsTrans α (fun a b => r b a) := ⟨fun _ _ _ hab hbc => trans_of r hbc hab⟩
  have : Std.Antisymm (fun a b => r b a) := ⟨fun _ _ hab hba => antisymm hba hab⟩
  have hleft : (s.reverse.orderedInsert (fun a b => r b a) x).Pairwise (fun a b => r b a) :=
    Pairwise.orderedInsert x _ (List.pairwise_reverse.mpr hs)
  have hright : (s.orderedInsert r x).reverse.Pairwise (fun a b => r b a) :=
    List.pairwise_reverse.mpr (Pairwise.orderedInsert x _ hs)
  refine Perm.eq_of_pairwise' hleft hright ?_
  calc s.reverse.orderedInsert (fun a b => r b a) x
      ~ x :: s.reverse := perm_orderedInsert _ _ _
    _ ~ x :: s := (List.reverse_perm s).cons x
    _ ~ s.orderedInsert r x := (perm_orderedInsert _ _ _).symm
    _ ~ (s.orderedInsert r x).reverse := (List.reverse_perm _).symm

/-- With room left, an offer keeps every element. -/
private theorem offerK_room {k : Nat} {l : List α} (x : α) (hk : l.length < k) :
    offerK r k (bestK r k l).reverse x = (bestK r k (x :: l)).reverse := by
  have hsort : (l.insertionSort r).length < k := by simpa using hk
  have htake : bestK r k l = l.insertionSort r := List.take_of_length_le (by omega)
  have htake' : bestK r k (x :: l) = (l.insertionSort r).orderedInsert r x := by
    rw [bestK, insertionSort_cons]
    exact List.take_of_length_le (by rw [orderedInsert_length]; omega)
  unfold offerK
  rw [if_pos (by simpa [htake] using hk), htake, htake',
    orderedInsert_reverse x (pairwise_insertionSort r l)]

/-- A full queue whose worst element ranks no later than the offer is kept. -/
private theorem bestK_cons_of_rel {k : Nat} {l best : List α} {worst x : α}
    (hbest : bestK r k l = best ++ [worst]) (hfull : (best ++ [worst]).length = k)
    (hrel : r worst x) : bestK r k (x :: l) = best ++ [worst] := by
  have hsplit : l.insertionSort r = (best ++ [worst]) ++ (l.insertionSort r).drop k := by
    rw [← hbest, bestK, List.take_append_drop]
  have hsorted := pairwise_insertionSort r l
  rw [hsplit] at hsorted
  obtain ⟨hb, hd, hbd⟩ := List.pairwise_append.mp hsorted
  have hbx : ∀ b ∈ best ++ [worst], r b x := by
    intro b hmem
    rcases List.mem_append.mp hmem with h | h
    · exact trans_of r ((List.pairwise_append.mp hb).2.2 b h worst (by simp)) hrel
    · rw [List.mem_singleton.mp h]
      exact hrel
  have hnew : ((best ++ [worst]) ++ ((l.insertionSort r).drop k).orderedInsert r x).Pairwise r := by
    refine List.pairwise_append.mpr ⟨hb, Pairwise.orderedInsert x _ hd, ?_⟩
    intro b hmem y hy
    rcases (mem_orderedInsert r).mp hy with rfl | hy
    · exact hbx b hmem
    · exact hbd b hmem y hy
  have hperm : x :: l ~ (best ++ [worst]) ++ ((l.insertionSort r).drop k).orderedInsert r x := by
    calc x :: l ~ x :: l.insertionSort r := (perm_insertionSort r l).symm.cons x
      _ = x :: ((best ++ [worst]) ++ (l.insertionSort r).drop k) := by rw [← hsplit]
      _ ~ (best ++ [worst]) ++ x :: (l.insertionSort r).drop k := List.perm_middle.symm
      _ ~ _ := List.Perm.append_left _ (perm_orderedInsert r _ _).symm
  rw [bestK, insertionSort_eq_of_perm hperm hnew, List.take_append_of_le_length (by omega),
    List.take_of_length_le (by omega)]

/-- A full queue whose worst element ranks after the offer replaces it. -/
private theorem bestK_cons_of_not_rel {k : Nat} {l best : List α} {worst x : α}
    (hbest : bestK r k l = best ++ [worst]) (hfull : (best ++ [worst]).length = k)
    (hrel : ¬ r worst x) : bestK r k (x :: l) = best.orderedInsert r x := by
  have hxw : r x worst := (Std.Total.total x worst).resolve_right hrel
  have hsplit : l.insertionSort r = (best ++ [worst]) ++ (l.insertionSort r).drop k := by
    rw [← hbest, bestK, List.take_append_drop]
  have hsorted := pairwise_insertionSort r l
  rw [hsplit, List.append_assoc] at hsorted
  obtain ⟨hb, hd, hbd⟩ := List.pairwise_append.mp hsorted
  have hwd : ∀ y ∈ [worst] ++ (l.insertionSort r).drop k, r worst y := by
    intro y hy
    rcases List.mem_append.mp hy with h | h
    · rw [List.mem_singleton.mp h]
      exact refl_of r worst
    · exact (List.pairwise_cons.mp hd).1 y h
  have hnew : (best.orderedInsert r x ++ ([worst] ++ (l.insertionSort r).drop k)).Pairwise r := by
    refine List.pairwise_append.mpr ⟨Pairwise.orderedInsert x _ hb, hd, ?_⟩
    intro b hmem y hy
    rcases (mem_orderedInsert r).mp hmem with rfl | hmem
    · exact trans_of r hxw (hwd y hy)
    · exact hbd b hmem y hy
  have hperm : x :: l ~ best.orderedInsert r x ++ ([worst] ++ (l.insertionSort r).drop k) := by
    calc x :: l ~ x :: l.insertionSort r := (perm_insertionSort r l).symm.cons x
      _ = x :: (best ++ ([worst] ++ (l.insertionSort r).drop k)) := by
          rw [← List.append_assoc, ← hsplit]
      _ = (x :: best) ++ ([worst] ++ (l.insertionSort r).drop k) := rfl
      _ ~ _ := List.Perm.append_right _ (perm_orderedInsert r _ _).symm
  have hlen : (best.orderedInsert r x).length = k := by
    rw [orderedInsert_length]; simpa using hfull
  rw [bestK, insertionSort_eq_of_perm hperm hnew, List.take_append_of_le_length (by omega),
    List.take_of_length_le (by omega)]

/-- **One offer**: the worst-first queue of the best `k` seen so far becomes
the worst-first queue of the best `k` with the new element included. -/
theorem offerK_reverse_bestK (k : Nat) (l : List α) (x : α) :
    offerK r k (bestK r k l).reverse x = (bestK r k (x :: l)).reverse := by
  rcases Nat.lt_or_ge l.length k with hk | hk
  · exact offerK_room x hk
  · have hlen : (bestK r k l).length = k := by rw [bestK_length]; omega
    rcases List.eq_nil_or_concat (bestK r k l) with hnil | ⟨best, worst, hbest⟩
    · have hk0 : k = 0 := by rw [hnil] at hlen; simpa using hlen.symm
      subst hk0
      simp [offerK, bestK]
    · rw [List.concat_eq_append] at hbest
      have hfull : (best ++ [worst]).length = k := by rw [← hbest]; exact hlen
      have hnot : ¬ (best ++ [worst]).reverse.length < k := by simp at hfull ⊢; omega
      unfold offerK
      rw [hbest, if_neg hnot]
      simp only [List.reverse_append, List.reverse_cons, List.reverse_nil, List.nil_append,
        List.cons_append]
      by_cases hrel : r worst x
      · rw [if_pos hrel, bestK_cons_of_rel hbest hfull hrel]
        simp
      · have hb : best.Pairwise r := by
          have := bestK_pairwise (r := r) k l
          rw [hbest] at this
          exact (List.pairwise_append.mp this).1
        rw [if_neg hrel, bestK_cons_of_not_rel hbest hfull hrel, orderedInsert_reverse x hb]

/-! ## When the selection does not change -/

/-- Leaving out elements outside the selection does not change the selection. -/
theorem bestK_eq_of_subset {k : Nat} {sub l : List α} (hsub : sub ⊆ l)
    (hsubNodup : sub.Nodup) (hNodup : l.Nodup)
    (hbest : ∀ x ∈ bestK r k l, x ∈ sub) : bestK r k sub = bestK r k l := by
  classical
  let rest := sub.filter (fun x => x ∉ bestK r k l)
  have hbestNodup : (bestK r k l).Nodup :=
    ((perm_insertionSort r l).nodup_iff.mpr hNodup).sublist (List.take_sublist _ _)
  have hsorted : (bestK r k l ++ rest.insertionSort r).Pairwise r := by
    refine List.pairwise_append.mpr
      ⟨bestK_pairwise k l, pairwise_insertionSort r rest, ?_⟩
    intro x hx y hy
    have hy' := List.mem_filter.mp ((mem_insertionSort r).mp hy)
    exact rel_of_mem_bestK_of_notMem hx (hsub hy'.1) (by simpa using hy'.2)
  have hperm : sub ~ bestK r k l ++ rest.insertionSort r := by
    have hmem : sub ~ bestK r k l ++ rest := by
      refine (List.perm_ext_iff_of_nodup hsubNodup ?_).mpr ?_
      · refine List.nodup_append.mpr ⟨hbestNodup, hsubNodup.filter _, ?_⟩
        rintro x hx y hy rfl
        exact absurd hx (by simpa using (List.mem_filter.mp hy).2)
      · intro x
        simp only [rest, List.mem_append, List.mem_filter, decide_eq_true_eq]
        constructor
        · intro hx
          by_cases h : x ∈ bestK r k l
          · exact Or.inl h
          · exact Or.inr ⟨hx, h⟩
        · rintro (h | h)
          · exact hbest x h
          · exact h.1
    exact hmem.trans (List.Perm.append_left _ (perm_insertionSort r rest).symm)
  rcases Nat.lt_or_ge l.length k with hk | hk
  · -- the whole list fits, so nothing can be left over
    have hall : ∀ x ∈ l, x ∈ bestK r k l := by
      intro x hx
      rw [bestK, List.take_of_length_le (by simpa using hk.le)]
      exact (mem_insertionSort r).mpr hx
    have hrest : rest = [] := by
      refine List.filter_eq_nil_iff.mpr fun x hx => ?_
      simpa using hall x (hsub hx)
    rw [bestK, insertionSort_eq_of_perm hperm hsorted, hrest]
    simp only [insertionSort_nil, List.append_nil]
    exact List.take_of_length_le (bestK_length_le k l)
  · have hlen : (bestK r k l).length = k := by rw [bestK_length]; omega
    rw [bestK, insertionSort_eq_of_perm hperm hsorted,
      List.take_append_of_le_length (by omega), List.take_of_length_le (by omega)]

end Order

end Snii.Lib.TopK
