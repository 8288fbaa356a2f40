import Snii.Io.Requests
import Snii.Lib.Coverage

/-!
# The plan of a fetch

The reads that `BatchRangeFetcher::fetch` makes of its requests.  They are the stretches of
the requests that lie within the gap of each other, so they are ascending and further
than the gap apart; where a read costs its bytes and the gap besides, no reads that hold
every request cost less (`fetchPlan_optimal`).
-/

namespace Snii.Io.FetchPlan

open Snii.Lib.ByteReader Snii.Lib.Requests Snii.Lib.Coverage Snii.Common
open Snii.Io.BatchRangeFetcher Snii.Io.Metered Snii.Io.Requests

/-- The bytes of the reads, and the gap for each of them. -/
def planCost (gap : Nat) (plan : List Range) : Nat := (plan.map fun r => r.len + gap).sum

/-- Every request is inside one of the reads. -/
def HoldsAll (plan reqs : List Range) : Prop :=
  ∀ r ∈ reqs, ∃ p ∈ plan, p.offset ≤ r.offset ∧ r.stop ≤ p.stop

/-- The offsets from which a read is within the gap of one of the ranges. -/
abbrev reached (gap : Nat) (rs : List Range) : Finset Nat :=
  covered Range.offset (fun r => r.stop + gap) rs

variable {gap : Nat} {segs segs' reqs plan : List Range} {r : Range}

theorem planCost_eq (gap : Nat) (plan : List Range) :
    planCost gap plan = extent Range.offset (fun r => r.stop + gap) plan := by
  unfold planCost extent
  congr 1
  apply List.map_congr_left
  intro r _
  show r.len + gap = r.offset + r.len + gap - r.offset
  omega

theorem reached_of_holdsAll (h : HoldsAll plan reqs) : reached gap reqs ⊆ reached gap plan := by
  intro n hn
  obtain ⟨r, hr, hlo, hhi⟩ := mem_covered.mp hn
  obtain ⟨p, hp, hstart, hstop⟩ := h r hr
  exact mem_covered.mpr ⟨p, hp, by omega, by omega⟩

/-! ## The sweep -/

/-- What the sweep has made of the requests so far. -/
structure Swept (gap : Nat) (segs reqs : List Range) : Prop where
  apart : segs.Pairwise fun s t => s.stop + gap < t.offset
  reached : reached gap segs = reached gap reqs
  holds : HoldsAll segs reqs
  starts : ∀ s ∈ segs, ∃ r ∈ reqs, s.offset = r.offset
  stops : ∀ s ∈ segs, ∃ r ∈ reqs, s.stop = r.stop

theorem swept_nil (gap : Nat) : Swept gap [] [] where
  apart := List.Pairwise.nil
  reached := rfl
  holds := by simp [HoldsAll]
  starts := by simp
  stops := by simp

/-- A request behind the gap opens a read of its own. -/
theorem Swept.open (h : Swept gap segs reqs) (hbehind : ∀ s ∈ segs, s.stop + gap < r.offset) :
    Swept gap (segs ++ [r]) (reqs ++ [r]) := by
  have hold : ∀ q ∈ reqs, q ∈ reqs ++ [r] := fun q hq => List.mem_append_left _ hq
  have hnew : r ∈ reqs ++ [r] := List.mem_append_right _ (List.mem_singleton_self r)
  constructor
  case apart =>
    apply List.pairwise_append.mpr
    refine ⟨h.apart, List.pairwise_singleton _ _, fun s hs t ht => ?_⟩
    rw [List.mem_singleton.mp ht]
    exact hbehind s hs
  case reached =>
    ext n
    have hsame := Finset.ext_iff.mp h.reached n
    rw [mem_covered, mem_covered] at hsame ⊢
    simp only [List.mem_append, List.mem_singleton, or_and_right, exists_or, hsame]
  case holds =>
    intro q hq
    cases List.mem_append.mp hq with
    | inl hin =>
        obtain ⟨s, hs, hinside⟩ := h.holds q hin
        exact ⟨s, List.mem_append_left _ hs, hinside⟩
    | inr hin =>
        rw [List.mem_singleton.mp hin]
        exact ⟨r, List.mem_append_right _ (List.mem_singleton_self r), Nat.le_refl _,
          Nat.le_refl _⟩
  case starts =>
    intro s hs
    cases List.mem_append.mp hs with
    | inl hin =>
        obtain ⟨q, hq, heq⟩ := h.starts s hin
        exact ⟨q, hold q hq, heq⟩
    | inr hin => exact ⟨r, hnew, by rw [List.mem_singleton.mp hin]⟩
  case stops =>
    intro s hs
    cases List.mem_append.mp hs with
    | inl hin =>
        obtain ⟨q, hq, heq⟩ := h.stops s hin
        exact ⟨q, hold q hq, heq⟩
    | inr hin => exact ⟨r, hnew, by rw [List.mem_singleton.mp hin]⟩

/-- A request within the gap of the last read widens it. -/
theorem Swept.widen {init : List Range} {cur wide : Range}
    (h : Swept gap (init ++ [cur]) reqs) (hfirst : cur.offset ≤ r.offset)
    (hnear : r.offset ≤ cur.stop + gap) (hstart : wide.offset = cur.offset)
    (hstop : wide.stop = max cur.stop r.stop) : Swept gap (init ++ [wide]) (reqs ++ [r]) := by
  have hold : ∀ q ∈ reqs, q ∈ reqs ++ [r] := fun q hq => List.mem_append_left _ hq
  have hnew : r ∈ reqs ++ [r] := List.mem_append_right _ (List.mem_singleton_self r)
  have hcur : cur ∈ init ++ [cur] := List.mem_append_right _ (List.mem_singleton_self cur)
  have hwide : wide ∈ init ++ [wide] := List.mem_append_right _ (List.mem_singleton_self wide)
  constructor
  case apart =>
    obtain ⟨hinit, -, hlast⟩ := List.pairwise_append.mp h.apart
    apply List.pairwise_append.mpr
    refine ⟨hinit, List.pairwise_singleton _ _, fun s hs t ht => ?_⟩
    rw [List.mem_singleton.mp ht, hstart]
    exact hlast s hs cur (List.mem_singleton_self cur)
  case reached =>
    ext n
    have hjoin : (cur.offset ≤ n ∧ n < max cur.stop r.stop + gap) ↔
        (cur.offset ≤ n ∧ n < cur.stop + gap) ∨ r.offset ≤ n ∧ n < r.stop + gap := by
      omega
    have hsame := Finset.ext_iff.mp h.reached n
    rw [mem_covered, mem_covered] at hsame ⊢
    simp only [List.mem_append, List.mem_singleton, or_and_right, exists_or,
      exists_eq_left] at hsame ⊢
    rw [← hsame, hstart, hstop, hjoin, or_assoc]
  case holds =>
    intro q hq
    cases List.mem_append.mp hq with
    | inl hin =>
        obtain ⟨s, hs, hlo, hhi⟩ := h.holds q hin
        cases List.mem_append.mp hs with
        | inl hbefore => exact ⟨s, List.mem_append_left _ hbefore, hlo, hhi⟩
        | inr hlast =>
            rw [List.mem_singleton.mp hlast] at hlo hhi
            exact ⟨wide, hwide, by omega, by omega⟩
    | inr hin =>
        rw [List.mem_singleton.mp hin]
        exact ⟨wide, hwide, by omega, by omega⟩
  case starts =>
    intro s hs
    have hsource : ∃ q ∈ reqs, s.offset = q.offset := by
      cases List.mem_append.mp hs with
      | inl hin => exact h.starts s (List.mem_append_left _ hin)
      | inr hin =>
          rw [List.mem_singleton.mp hin, hstart]
          exact h.starts cur hcur
    obtain ⟨q, hq, heq⟩ := hsource
    exact ⟨q, hold q hq, heq⟩
  case stops =>
    intro s hs
    cases List.mem_append.mp hs with
    | inl hin =>
        obtain ⟨q, hq, heq⟩ := h.stops s (List.mem_append_left _ hin)
        exact ⟨q, hold q hq, heq⟩
    | inr hin =>
        rw [List.mem_singleton.mp hin, hstop]
        obtain ⟨q, hq, heq⟩ := h.stops cur hcur
        by_cases hle : cur.stop ≤ r.stop
        · exact ⟨r, hnew, Nat.max_eq_right hle⟩
        · exact ⟨q, hold q hq, (Nat.max_eq_left (by omega)).trans heq⟩

/-- **A step of the sweep** takes one more request. -/
theorem placeRange_swept {place : Place} (h : Swept gap segs reqs)
    (hfirst : ∀ q ∈ reqs, q.offset ≤ r.offset)
    (hstep : placeRange gap segs r = .ok (segs', place)) : Swept gap segs' (reqs ++ [r]) := by
  rw [placeRange] at hstep
  split at hstep
  · cases hstep
  · cases hlast : segs.getLast? with
    | none =>
        rw [hlast] at hstep
        cases hstep
        rw [List.getLast?_eq_none_iff.mp hlast] at h
        exact h.open (by simp)
    | some cur =>
        obtain ⟨init, rfl⟩ := List.getLast?_eq_some_iff.mp hlast
        have hcur : cur ∈ init ++ [cur] := List.mem_append_right _ (List.mem_singleton_self cur)
        obtain ⟨q, hq, hoff⟩ := h.starts cur hcur
        have hbefore : cur.offset ≤ r.offset := hoff ▸ hfirst q hq
        rw [hlast] at hstep
        simp only at hstep
        split at hstep
        · rename_i hfar
          cases hstep
          apply h.open
          intro s hs
          cases List.mem_append.mp hs with
          | inl hin =>
              obtain ⟨-, -, hapart⟩ := List.pairwise_append.mp h.apart
              have hgap := hapart s hin cur (List.mem_singleton_self cur)
              omega
          | inr hin =>
              rw [List.mem_singleton.mp hin]
              omega
        · rename_i hnear
          cases hstep
          rw [List.dropLast_concat]
          have hlen : cur.offset ≤ cur.stop := Nat.le_add_right _ _
          have hstop : (⟨cur.offset, max cur.stop r.stop - cur.offset⟩ : Range).stop =
              max cur.stop r.stop := by
            show cur.offset + (max cur.stop r.stop - cur.offset) = _
            omega
          exact h.widen hbefore (by omega) rfl hstop

theorem sweep_swept {places places' : List (Nat × Place)} {todo : List (Nat × Range)}
    (hsorted : todo.Pairwise fun a b => a.2.offset ≤ b.2.offset) (h : Swept gap segs reqs)
    (hfirst : ∀ q ∈ reqs, ∀ x ∈ todo, q.offset ≤ x.2.offset)
    (hsweep : sweep gap segs places todo = .ok (segs', places')) :
    Swept gap segs' (reqs ++ todo.map Prod.snd) := by
  induction todo generalizing segs places reqs with
  | nil =>
      cases hsweep
      rwa [List.map_nil, List.append_nil]
  | cons x todo ih =>
      obtain ⟨hleast, hrest⟩ := List.pairwise_cons.mp hsorted
      rw [sweep] at hsweep
      obtain ⟨⟨segs1, place⟩, hstep, hsweep⟩ := bind_eq_ok hsweep
      have hone := placeRange_swept h (fun q hq => hfirst q hq x List.mem_cons_self) hstep
      have hall := ih hrest hone (fun q hq y hy => ?_) hsweep
      · rwa [List.append_assoc] at hall
      · cases List.mem_append.mp hq with
        | inl hin => exact hfirst q hin y (List.mem_cons_of_mem x hy)
        | inr hin =>
            rw [List.mem_singleton.mp hin]
            exact hleast y hy

/-- **The whole sweep** of a batch. -/
theorem inOrder_swept {places : List (Nat × Place)}
    (h : sweep gap [] [] (inOrder reqs) = .ok (segs, places)) : Swept gap segs reqs := by
  have hall := sweep_swept (pairwise_inOrder reqs) (swept_nil gap) (by simp) h
  rw [List.nil_append] at hall
  have hsame : ∀ r, r ∈ (inOrder reqs).map Prod.snd ↔ r ∈ reqs := by
    intro r
    rw [List.mem_map, List.mem_iff_getElem?]
    constructor
    · rintro ⟨x, hx, rfl⟩
      exact ⟨x.1, mem_inOrder.mp hx⟩
    · rintro ⟨k, hk⟩
      exact ⟨(k, r), mem_inOrder.mpr hk, rfl⟩
  constructor
  case apart => exact hall.apart
  case reached =>
    rw [hall.reached]
    ext n
    simp only [mem_covered, hsame]
  case holds => exact fun r hr => hall.holds r ((hsame r).mpr hr)
  case starts =>
    intro s hs
    obtain ⟨q, hq, heq⟩ := hall.starts s hs
    exact ⟨q, (hsame q).mp hq, heq⟩
  case stops =>
    intro s hs
    obtain ⟨q, hq, heq⟩ := hall.stops s hs
    exact ⟨q, (hsame q).mp hq, heq⟩

/-! ## The call -/

theorem asked_fetchOnce {places : List (Nat × Place)} {answer : ∀ c, Result (Answer c)}
    (hne : reqs ≠ []) (h : sweep gap [] [] (inOrder reqs) = .ok (segs, places)) :
    (fetchOnce gap reqs).asked answer = [.readBatch segs] := by
  have hcall : fetchOnce gap reqs =
      (Program.request (Call.readBatch segs) : Reading (List Bytes)) >>= fun phys =>
        pure { reqs := reqs, places := places, phys := phys } := by
    rw [fetchOnce, if_neg hne, h]
    rfl
  rw [hcall, Program.asked_bind, Program.request, Program.asked, Program.run]
  cases answer (Call.readBatch segs) <;> rfl

theorem asked_fetchOnce_error {e : Status} {answer : ∀ c, Result (Answer c)}
    (h : sweep gap [] [] (inOrder reqs) = .error e) : (fetchOnce gap reqs).asked answer = [] := by
  rw [fetchOnce]
  split
  · rfl
  · rw [h]
    rfl

/-- **The plan of a fetch.**  A batch without requests, or with one that ends beyond the
64-bit numbers, reads nothing.  Any other is one call whose reads are ascending and further
than the gap apart, hold every request and start and end with one; with the gap as the
price of a read besides its bytes, no reads that hold every request cost less. -/
theorem fetchPlan_optimal (gap : Nat) (reqs : List Range) (answer : ∀ c, Result (Answer c)) :
    ((reqs = [] ∨ ∃ r ∈ reqs, r.offset < 2 ^ 64 ∧ 2 ^ 64 ≤ r.stop) →
      (fetchOnce gap reqs).asked answer = []) ∧
    (reqs ≠ [] → (∀ r ∈ reqs, r.stop < 2 ^ 64) → ∃ segs,
      (fetchOnce gap reqs).asked answer = [.readBatch segs] ∧
        segs.Pairwise (fun s t => s.stop + gap < t.offset) ∧ HoldsAll segs reqs ∧
        (∀ s ∈ segs, (∃ r ∈ reqs, s.offset = r.offset) ∧ ∃ r ∈ reqs, s.stop = r.stop) ∧
        planCost gap segs = (reached gap reqs).card ∧
        ∀ plan, HoldsAll plan reqs → planCost gap segs ≤ planCost gap plan) := by
  constructor
  · intro h
    cases h with
    | inl hnil =>
        rw [fetchOnce, if_pos hnil]
        rfl
    | inr hover =>
        obtain ⟨r, hr, hoff, hstop⟩ := hover
        obtain ⟨k, hk⟩ := List.mem_iff_getElem?.mp hr
        have hbig : r.len > 2 ^ 64 - 1 - r.offset := by
          rw [Range.stop] at hstop
          omega
        obtain ⟨e, he⟩ := @sweep_overflow gap [] [] _ (k, r) (mem_inOrder.mpr hk) hbig
        exact asked_fetchOnce_error he
  · intro hne hfits
    have hall : ∀ x ∈ inOrder reqs, x.2.stop < 2 ^ 64 := fun x hx =>
      hfits x.2 (List.mem_of_getElem? (mem_inOrder.mp hx))
    obtain ⟨⟨segs, places⟩, hsweep⟩ := @sweep_ok gap [] [] (inOrder reqs) hall
    have hswept := inOrder_swept hsweep
    have hapart : segs.Pairwise fun s t => s.stop + gap ≤ t.offset :=
      hswept.apart.imp fun hlt => Nat.le_of_lt hlt
    refine ⟨segs, asked_fetchOnce hne hsweep, hswept.apart, hswept.holds,
      fun s hs => ⟨hswept.starts s hs, hswept.stops s hs⟩, ?_, fun plan hplan => ?_⟩
    · rw [← hswept.reached, planCost_eq]
      exact (card_covered_of_apart hapart).symm
    · rw [planCost_eq, planCost_eq]
      have hcover := @reached_of_holdsAll gap _ _ hplan
      rw [← hswept.reached] at hcover
      exact extent_le hapart hcover

/-- Five requests are two reads: seven bytes at one gap, seven bytes behind it. -/
theorem fetchPlan_optimal_twoReads : ∃ segs,
    (fetchOnce 1 [⟨4, 3⟩, ⟨1, 2⟩, ⟨1, 2⟩, ⟨2, 0⟩, ⟨40, 7⟩]).asked (fileAnswer []) =
        [.readBatch segs] ∧ planCost 1 segs = 15 := by
  have hplan := (fetchPlan_optimal 1 [⟨4, 3⟩, ⟨1, 2⟩, ⟨1, 2⟩, ⟨2, 0⟩, ⟨40, 7⟩] (fileAnswer [])).2
    (by decide) (by decide)
  obtain ⟨segs, hasked, -, -, -, hcost, -⟩ := hplan
  have hcard : (reached 1 [⟨4, 3⟩, ⟨1, 2⟩, ⟨1, 2⟩, ⟨2, 0⟩, ⟨40, 7⟩]).card = 15 := by decide
  exact ⟨segs, hasked, hcost.trans hcard⟩

end Snii.Io.FetchPlan
