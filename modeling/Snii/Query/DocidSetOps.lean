import Mathlib.Algebra.Order.Ring.Nat
import Mathlib.Data.List.Sort

/-!
# Sets of documents

`docid_set_ops.cpp`: sets of documents are strictly ascending lists.  Two are
intersected by walking both, and many are united by a heap of cursors, one a list.
-/

namespace Snii.Query.DocidSetOps

/-- A set of documents. -/
def Ascending (docs : List Nat) : Prop := docs.Pairwise (· < ·)

instance (docs : List Nat) : Decidable (Ascending docs) :=
  inferInstanceAs (Decidable (docs.Pairwise (· < ·)))

theorem Ascending.tail {d : Nat} {docs : List Nat} (h : Ascending (d :: docs)) : Ascending docs :=
  (List.pairwise_cons.mp h).2

theorem Ascending.lt {d e : Nat} {docs : List Nat} (h : Ascending (d :: docs)) (he : e ∈ docs) :
    d < e :=
  (List.pairwise_cons.mp h).1 e he

/-- Sets with the same documents are the same list. -/
theorem Ascending.ext {a b : List Nat} (ha : Ascending a) (hb : Ascending b)
    (h : ∀ d, d ∈ a ↔ d ∈ b) : a = b :=
  List.Perm.eq_of_pairwise' ha hb
    ((List.perm_ext_iff_of_nodup (ha.imp Nat.ne_of_lt) (hb.imp Nat.ne_of_lt)).mpr h)

/-! ## Intersection -/

/-- `std::set_intersection`. -/
def intersectSorted : List Nat → List Nat → List Nat
  | [], _ => []
  | _ :: _, [] => []
  | a :: as, b :: bs =>
      if a < b then intersectSorted as (b :: bs)
      else if b < a then intersectSorted (a :: as) bs
      else a :: intersectSorted as bs
termination_by as bs => as.length + bs.length

/-- **Intersection** of two ascending lists. -/
theorem mem_intersectSorted {as bs : List Nat} (ha : Ascending as) (hb : Ascending bs) (d : Nat) :
    d ∈ intersectSorted as bs ↔ d ∈ as ∧ d ∈ bs := by
  fun_induction intersectSorted as bs with
  | case1 bs => simp
  | case2 a as => simp
  | case3 a as b bs hlt ih =>
      have hnot : a ∉ b :: bs := by
        intro hmem
        rcases List.mem_cons.mp hmem with rfl | hmem
        · omega
        · have := hb.lt hmem
          omega
      rw [ih ha.tail hb, List.mem_cons]
      grind
  | case4 a as b bs hle hlt ih =>
      have hnot : b ∉ a :: as := by
        intro hmem
        rcases List.mem_cons.mp hmem with rfl | hmem
        · omega
        · have := ha.lt hmem
          omega
      rw [ih ha hb.tail, List.mem_cons (a := d) (b := b)]
      grind
  | case5 a as b bs hle hge ih =>
      have heq : a = b := by omega
      subst heq
      have hleft : a ∉ as := fun hmem => Nat.lt_irrefl a (ha.lt hmem)
      have hright : a ∉ bs := fun hmem => Nat.lt_irrefl a (hb.lt hmem)
      rw [List.mem_cons, ih ha.tail hb.tail]
      grind

theorem ascending_intersectSorted {as bs : List Nat} (ha : Ascending as) (hb : Ascending bs) :
    Ascending (intersectSorted as bs) := by
  fun_induction intersectSorted as bs with
  | case1 bs => exact List.Pairwise.nil
  | case2 a as => exact List.Pairwise.nil
  | case3 a as b bs hlt ih => exact ih ha.tail hb
  | case4 a as b bs hle hlt ih => exact ih ha hb.tail
  | case5 a as b bs hle hge ih =>
      refine List.pairwise_cons.mpr ⟨?_, ih ha.tail hb.tail⟩
      intro d hd
      exact ha.lt ((mem_intersectSorted ha.tail hb.tail d).mp hd).1

/-! ## Union -/

/-- `std::set_union`. -/
def unionSortedInto : List Nat → List Nat → List Nat
  | [], next => next
  | a :: acc, [] => a :: acc
  | a :: acc, b :: next =>
      if a < b then a :: unionSortedInto acc (b :: next)
      else if b < a then b :: unionSortedInto (a :: acc) next
      else a :: unionSortedInto acc next
termination_by acc next => acc.length + next.length

/-- **Union** of two lists. -/
theorem mem_unionSortedInto {acc next : List Nat} (d : Nat) :
    d ∈ unionSortedInto acc next ↔ d ∈ acc ∨ d ∈ next := by
  fun_induction unionSortedInto acc next with
  | case1 next => simp
  | case2 a acc => simp
  | case3 a acc b next hlt ih =>
      rw [List.mem_cons, ih, List.mem_cons (l := acc), or_assoc]
  | case4 a acc b next hle hlt ih =>
      rw [List.mem_cons, ih, List.mem_cons (l := next), or_left_comm]
  | case5 a acc b next hle hge ih =>
      have heq : a = b := by omega
      subst heq
      rw [List.mem_cons, ih, List.mem_cons, List.mem_cons]
      grind

/-- Merged lists ascend. -/
theorem ascending_unionSortedInto {acc next : List Nat} (ha : Ascending acc) (hb : Ascending next) :
    Ascending (unionSortedInto acc next) := by
  fun_induction unionSortedInto acc next with
  | case1 next => exact hb
  | case2 a acc => exact ha
  | case3 a acc b next hlt ih =>
      refine List.pairwise_cons.mpr ⟨fun d hd => ?_, ih ha.tail hb⟩
      rw [mem_unionSortedInto] at hd
      rcases hd with hd | hd
      · exact ha.lt hd
      · rcases List.mem_cons.mp hd with rfl | hd
        · exact hlt
        · exact Nat.lt_trans hlt (hb.lt hd)
  | case4 a acc b next hle hlt ih =>
      refine List.pairwise_cons.mpr ⟨fun d hd => ?_, ih ha hb.tail⟩
      rw [mem_unionSortedInto] at hd
      rcases hd with hd | hd
      · rcases List.mem_cons.mp hd with rfl | hd
        · exact hlt
        · exact Nat.lt_trans hlt (ha.lt hd)
      · exact hb.lt hd
  | case5 a acc b next hle hge ih =>
      have heq : a = b := by omega
      refine List.pairwise_cons.mpr ⟨fun d hd => ?_, ih ha.tail hb.tail⟩
      rw [mem_unionSortedInto] at hd
      rcases hd with hd | hd
      · exact ha.lt hd
      · rw [heq]
        exact hb.lt hd

/-! ## Union of many -/

structure Cursor where
  docid : Nat
  list : Nat
  offset : Nat
deriving DecidableEq

/-- The queue, least document first. -/
def push (heap : List Cursor) (c : Cursor) : List Cursor :=
  heap.orderedInsert (fun a b => a.docid ≤ b.docid) c

/-- The cursor on the next document of its list, if there is one. -/
def Cursor.next (lists : List (List Nat)) (c : Cursor) : Option Cursor :=
  ((lists.getD c.list [])[c.offset + 1]?).map fun d =>
    { docid := d, list := c.list, offset := c.offset + 1 }

/-- The queue after its first cursor moved on. -/
def advance (lists : List (List Nat)) (cur : Cursor) (heap : List Cursor) : List Cursor :=
  match cur.next lists with
  | some c => push heap c
  | none => heap

/-- One cursor a list that is not empty, in the lists' order. -/
def firstCursors (lists : List (List Nat)) : List Cursor :=
  lists.zipIdx.filterMap fun x => x.1.head?.map fun d => { docid := d, list := x.2, offset := 0 }

/-- The merge, with the last document that was put out. -/
def mergeLoop (lists : List (List Nat)) : Nat → List Cursor → Option Nat → List Nat
  | 0, _, _ => []
  | _ + 1, [], _ => []
  | fuel + 1, cur :: heap, last =>
      if last = some cur.docid then mergeLoop lists fuel (advance lists cur heap) last
      else cur.docid :: mergeLoop lists fuel (advance lists cur heap) (some cur.docid)

def unionSortedMany (lists : List (List Nat)) : List Nat :=
  match lists.filter (· ≠ []) with
  | [] => []
  | [docs] => docs
  | _ => mergeLoop lists ((lists.map List.length).sum + 1)
      ((firstCursors lists).foldl push []) none

/-! ### The merge -/

variable {lists : List (List Nat)} {heap : List Cursor} {c : Cursor}

/-- What a cursor still has to give. -/
def Cursor.rest (lists : List (List Nat)) (c : Cursor) : List Nat :=
  (lists.getD c.list []).drop c.offset

/-- A cursor that stands on a document of an ascending list. -/
structure Cursor.Ok (lists : List (List Nat)) (c : Cursor) : Prop where
  head : ∃ more, c.rest lists = c.docid :: more
  ascending : Ascending (c.rest lists)

/-- A cursor stands at the least of its rest. -/
theorem Cursor.Ok.le (h : c.Ok lists) {d : Nat} (hd : d ∈ c.rest lists) : c.docid ≤ d := by
  obtain ⟨more, hmore⟩ := h.head
  have hascending := h.ascending
  rw [hmore] at hd hascending
  rcases List.mem_cons.mp hd with rfl | hd
  · exact Nat.le_refl _
  · exact Nat.le_of_lt (hascending.lt hd)

/-- The next cursor has the tail, and there is none at the end. -/
theorem Cursor.next_rest (c : Cursor) :
    (∀ c', c.next lists = some c' → c'.rest lists = (c.rest lists).tail ∧
      ∃ more, c'.rest lists = c'.docid :: more) ∧
    (c.next lists = none → (c.rest lists).tail = []) := by
  have htail : (c.rest lists).tail = (lists.getD c.list []).drop (c.offset + 1) := by
    rw [Cursor.rest, List.tail_drop]
  refine ⟨?_, ?_⟩
  · intro c' hc'
    rw [Cursor.next, Option.map_eq_some_iff] at hc'
    obtain ⟨d, hd, rfl⟩ := hc'
    refine ⟨htail.symm, ?_⟩
    obtain ⟨hlt, rfl⟩ := List.getElem?_eq_some_iff.mp hd
    exact ⟨_, List.drop_eq_getElem_cons hlt⟩
  · intro hnone
    rw [Cursor.next, Option.map_eq_none_iff, List.getElem?_eq_none_iff] at hnone
    rw [htail]
    exact List.drop_eq_nil_of_le hnone

/-- The queue of a merge: its cursors stand in order. -/
structure HeapOk (lists : List (List Nat)) (heap : List Cursor) : Prop where
  cursors : ∀ c ∈ heap, c.Ok lists
  sorted : heap.Pairwise fun a b => a.docid ≤ b.docid

theorem mem_push {c' : Cursor} : c' ∈ push heap c ↔ c' = c ∨ c' ∈ heap :=
  List.mem_orderedInsert _

/-- A sound cursor may be pushed. -/
theorem HeapOk.push (h : HeapOk lists heap) (hc : c.Ok lists) : HeapOk lists (push heap c) := by
  constructor
  case cursors =>
    intro c' hc'
    rcases mem_push.mp hc' with rfl | hmem
    · exact hc
    · exact h.cursors c' hmem
  case sorted =>
    have htotal : Std.Total fun a b : Cursor => a.docid ≤ b.docid :=
      ⟨fun a b => Nat.le_total a.docid b.docid⟩
    have htrans : IsTrans Cursor fun a b => a.docid ≤ b.docid :=
      ⟨fun a b c hab hbc => Nat.le_trans hab hbc⟩
    exact List.Pairwise.orderedInsert c heap h.sorted

/-- The documents still to come. -/
def remaining (lists : List (List Nat)) (heap : List Cursor) : Nat :=
  (heap.map fun c => (c.rest lists).length).sum

theorem remaining_push : remaining lists (push heap c) =
    (c.rest lists).length + remaining lists heap := by
  have hperm := (List.perm_orderedInsert (fun a b : Cursor => a.docid ≤ b.docid) c heap).map
    fun c => (c.rest lists).length
  exact hperm.sum_nat

/-- **One step of the merge** takes one document off one list. -/
theorem advance_spec {cur : Cursor} (h : HeapOk lists (cur :: heap)) :
    HeapOk lists (advance lists cur heap) ∧
      remaining lists (advance lists cur heap) < remaining lists (cur :: heap) ∧
      (∀ c ∈ advance lists cur heap, cur.docid ≤ c.docid) ∧
      ∀ d, (∃ c ∈ cur :: heap, d ∈ c.rest lists) ↔
        d = cur.docid ∨ ∃ c ∈ advance lists cur heap, d ∈ c.rest lists := by
  obtain ⟨⟨more, hmore⟩, hascending⟩ := h.cursors cur List.mem_cons_self
  obtain ⟨hle, hsorted⟩ := List.pairwise_cons.mp h.sorted
  have hheap : HeapOk lists heap := ⟨fun c hc => h.cursors c (List.mem_cons_of_mem _ hc), hsorted⟩
  have hremaining : remaining lists (cur :: heap) = more.length + 1 + remaining lists heap := by
    rw [remaining, List.map_cons, List.sum_cons, hmore]
    rfl
  obtain ⟨hsome, hnone⟩ := @Cursor.next_rest lists cur
  unfold advance
  cases hnext : cur.next lists with
  | none =>
      have hlast : more = [] := by
        have htail := hnone hnext
        rwa [hmore] at htail
      subst hlast
      dsimp only
      refine ⟨hheap, by omega, hle, fun d => ?_⟩
      simp [hmore]
  | some c =>
      obtain ⟨htail, hhead⟩ := hsome c hnext
      rw [hmore, List.tail_cons] at htail
      rw [hmore] at hascending
      have hok : c.Ok lists := ⟨hhead, by rw [htail]; exact hascending.tail⟩
      have hnew : cur.docid ≤ c.docid := by
        obtain ⟨rest, hrest⟩ := hhead
        refine Nat.le_of_lt (hascending.lt ?_)
        rw [← htail, hrest]
        exact List.mem_cons_self
      refine ⟨hheap.push hok, ?_, ?_, fun d => ?_⟩
      · rw [remaining_push, htail, hremaining]
        omega
      · intro c' hc'
        rcases mem_push.mp hc' with rfl | hmem
        · exact hnew
        · exact hle c' hmem
      · simp only [mem_push, List.mem_cons, exists_eq_or_imp, hmore, htail, or_assoc]

/-- **The merge** gives every document still to come once, except the one that was just
put out. -/
theorem mergeLoop_spec {fuel : Nat} {last : Option Nat} (hfuel : remaining lists heap < fuel)
    (h : HeapOk lists heap) (hlast : ∀ l, last = some l → ∀ c ∈ heap, l ≤ c.docid) :
    Ascending (mergeLoop lists fuel heap last) ∧
      ∀ d, d ∈ mergeLoop lists fuel heap last ↔
        (∃ c ∈ heap, d ∈ c.rest lists) ∧ last ≠ some d := by
  induction fuel generalizing heap last with
  | zero => omega
  | succ fuel ih =>
      cases heap with
      | nil => exact ⟨List.Pairwise.nil, fun d => by simp [mergeLoop]⟩
      | cons cur heap =>
          obtain ⟨hok, hless, hge, hmem⟩ := advance_spec h
          have hfuel' : remaining lists (advance lists cur heap) < fuel := by omega
          rw [mergeLoop]
          by_cases hsame : last = some cur.docid
          · rw [if_pos hsame]
            obtain ⟨hasc, hiff⟩ := @ih (advance lists cur heap) last hfuel' hok fun l hl => by
              rw [hsame] at hl
              cases hl
              exact hge
            refine ⟨hasc, fun d => ?_⟩
            rw [hiff, hmem, hsame]
            grind
          · rw [if_neg hsame]
            obtain ⟨hasc, hiff⟩ := @ih (advance lists cur heap) (some cur.docid) hfuel' hok fun l hl => by
              cases hl
              exact hge
            have hafter : ∀ d ∈ mergeLoop lists fuel (advance lists cur heap) (some cur.docid),
                cur.docid < d := by
              intro d hd
              obtain ⟨⟨c, hc, hdc⟩, hne⟩ := (hiff d).mp hd
              have hle := (hge c hc).trans ((hok.cursors c hc).le hdc)
              exact Nat.lt_of_le_of_ne hle fun heq => hne (congrArg some heq)
            have hbefore : ∀ l, last = some l → l < cur.docid := fun l hl =>
              Nat.lt_of_le_of_ne (hlast l hl cur List.mem_cons_self) fun heq => hsame (heq ▸ hl)
            refine ⟨List.pairwise_cons.mpr ⟨hafter, hasc⟩, fun d => ?_⟩
            rw [List.mem_cons, hmem]
            constructor
            · rintro (rfl | hd)
              · exact ⟨.inl rfl, hsame⟩
              · refine ⟨.inr ((hiff d).mp hd).1, fun hl => ?_⟩
                have := hbefore d hl
                have := hafter d hd
                omega
            · rintro ⟨hd, _⟩
              by_cases heq : d = cur.docid
              · exact .inl heq
              · refine .inr ((hiff d).mpr ⟨hd.resolve_left heq, fun hcur => heq ?_⟩)
                exact (Option.some.inj hcur).symm

/-- The merge starts at the heads of the lists. -/
theorem mem_firstCursors {c : Cursor} : c ∈ firstCursors lists ↔
    ∃ docs, lists[c.list]? = some docs ∧ docs.head? = some c.docid ∧ c.offset = 0 := by
  rw [firstCursors, List.mem_filterMap]
  constructor
  · rintro ⟨⟨docs, i⟩, hmem, hc⟩
    rw [Option.map_eq_some_iff] at hc
    obtain ⟨d, hd, rfl⟩ := hc
    exact ⟨docs, List.mem_zipIdx_iff_getElem?.mp hmem, hd, rfl⟩
  · rintro ⟨docs, hdocs, hhead, hoff⟩
    refine ⟨(docs, c.list), List.mem_zipIdx_iff_getElem?.mpr hdocs, ?_⟩
    simp only [hhead, Option.map_some, ← hoff]

theorem mem_foldl_push {cs : List Cursor} : c ∈ cs.foldl push heap ↔ c ∈ heap ∨ c ∈ cs := by
  induction cs generalizing heap with
  | nil => simp
  | cons x cs ih =>
      rw [List.foldl_cons, ih, mem_push, List.mem_cons]
      grind

theorem heapOk_foldl_push {cs : List Cursor} (h : HeapOk lists heap) (hcs : ∀ c ∈ cs, c.Ok lists) :
    HeapOk lists (cs.foldl push heap) := by
  induction cs generalizing heap with
  | nil => exact h
  | cons x cs ih =>
      exact ih (h.push (hcs x List.mem_cons_self)) fun c hc => hcs c (List.mem_cons_of_mem _ hc)

theorem remaining_foldl_push {cs : List Cursor} : remaining lists (cs.foldl push heap) =
    remaining lists heap + remaining lists cs := by
  induction cs generalizing heap with
  | nil => rfl
  | cons x cs ih =>
      rw [List.foldl_cons, ih, remaining_push]
      simp only [remaining, List.map_cons, List.sum_cons]
      omega

/-- There is no more to merge than the lists hold. -/
theorem remaining_firstCursors : remaining lists (firstCursors lists) ≤
    (lists.map List.length).sum := by
  have hall : ∀ (k : Nat) (ls : List (List Nat)), (∀ i, lists[k + i]? = ls[i]?) →
      remaining lists ((ls.zipIdx k).filterMap fun x => x.1.head?.map fun d =>
        { docid := d, list := x.2, offset := 0 }) ≤ (ls.map List.length).sum := by
    intro k ls
    induction ls generalizing k with
    | nil => exact fun _ => Nat.le_refl 0
    | cons docs ls ih =>
        intro hls
        have hrest := ih (k + 1) fun i => by
          have hi := hls (i + 1)
          rw [List.getElem?_cons_succ] at hi
          rw [← hi]
          congr 1
          omega
        have hhere : lists[k]? = some docs := hls 0
        rw [List.zipIdx_cons, List.map_cons, List.sum_cons]
        cases hdocs : docs.head? with
        | none =>
            rw [List.filterMap_cons_none (by rw [hdocs]; rfl)]
            omega
        | some d =>
            rw [List.filterMap_cons_some (by rw [hdocs]; rfl), remaining, List.map_cons, List.sum_cons,
              ← remaining, Cursor.rest]
            simp only [List.getD_eq_getElem?_getD, hhere, Option.getD_some, List.drop_zero]
            omega
  exact hall 0 lists fun i => by rw [Nat.zero_add]

theorem firstCursors_ok (h : ∀ docs ∈ lists, Ascending docs) :
    ∀ c ∈ firstCursors lists, c.Ok lists := by
  intro c hc
  obtain ⟨docs, hdocs, hhead, hoff⟩ := mem_firstCursors.mp hc
  have hrest : c.rest lists = docs := by
    rw [Cursor.rest, List.getD_eq_getElem?_getD, hdocs, hoff]
    rfl
  refine ⟨?_, by rw [hrest]; exact h docs (List.mem_of_getElem? hdocs)⟩
  rw [hrest]
  exact List.head?_eq_some_iff.mp hhead

/-- **The union** of sets is the set of all their documents. -/
theorem unionSortedMany_spec (h : ∀ docs ∈ lists, Ascending docs) :
    Ascending (unionSortedMany lists) ∧
      ∀ d, d ∈ unionSortedMany lists ↔ ∃ docs ∈ lists, d ∈ docs := by
  have hnonEmpty : ∀ d, (∃ docs ∈ lists, d ∈ docs) ↔ ∃ docs ∈ lists.filter (· ≠ []), d ∈ docs := by
    intro d
    simp only [List.mem_filter, decide_eq_true_eq]
    constructor
    · rintro ⟨docs, hdocs, hd⟩
      exact ⟨docs, ⟨hdocs, List.ne_nil_of_mem hd⟩, hd⟩
    · rintro ⟨docs, ⟨hdocs, _⟩, hd⟩
      exact ⟨docs, hdocs, hd⟩
  unfold unionSortedMany
  split
  next hnone =>
    refine ⟨List.Pairwise.nil, fun d => ?_⟩
    rw [hnonEmpty, hnone]
    simp
  next docs hone =>
    have hmem : docs ∈ lists := by
      have hin : docs ∈ lists.filter (· ≠ []) := by rw [hone]; exact List.mem_cons_self
      exact (List.mem_filter.mp hin).1
    refine ⟨h docs hmem, fun d => ?_⟩
    rw [hnonEmpty, hone]
    simp
  next =>
    have hheap : HeapOk lists ((firstCursors lists).foldl push []) :=
      heapOk_foldl_push ⟨fun c hc => (by cases hc), List.Pairwise.nil⟩ (firstCursors_ok h)
    have hfuel : remaining lists ((firstCursors lists).foldl push []) <
        (lists.map List.length).sum + 1 := by
      have hle := @remaining_firstCursors lists
      rw [remaining_foldl_push]
      have hzero : remaining lists [] = 0 := rfl
      omega
    obtain ⟨hasc, hiff⟩ := @mergeLoop_spec lists _ _ none hfuel hheap fun l hl => (by cases hl)
    refine ⟨hasc, fun d => ?_⟩
    rw [hiff]
    constructor
    · rintro ⟨⟨c, hc, hd⟩, _⟩
      obtain ⟨docs, hdocs, _, hoff⟩ := mem_firstCursors.mp ((mem_foldl_push.mp hc).resolve_left (by simp))
      rw [Cursor.rest, List.getD_eq_getElem?_getD, hdocs, hoff] at hd
      exact ⟨docs, List.mem_of_getElem? hdocs, hd⟩
    · rintro ⟨docs, hdocs, hd⟩
      obtain ⟨i, hi⟩ := List.mem_iff_getElem?.mp hdocs
      obtain ⟨x, rest, hx⟩ := List.exists_cons_of_ne_nil (List.ne_nil_of_mem hd)
      refine ⟨⟨⟨x, i, 0⟩, mem_foldl_push.mpr (.inr ?_), ?_⟩, by simp⟩
      · exact mem_firstCursors.mpr ⟨docs, hi, by rw [hx]; rfl, rfl⟩
      · rw [Cursor.rest, List.getD_eq_getElem?_getD, hi]
        exact hd

end Snii.Query.DocidSetOps
