import Mathlib.Data.List.Forall2

/-!
# Aligned lists

Two lists whose elements are related one by one: composing such relations, and
passing from one list to the other.  A list put together by writes at indexes is the
list that every write agrees with, once every index is written.
-/

namespace Snii.Lib.Aligned

variable {α β γ : Type*}

theorem forall₂_chain {R : α → β → Prop} {S : β → γ → Prop} {T : α → γ → Prop}
    (h : ∀ a b c, R a b → S b c → T a c) {xs : List α} {ys : List β} {zs : List γ}
    (hr : List.Forall₂ R xs ys) (hs : List.Forall₂ S ys zs) : List.Forall₂ T xs zs := by
  induction hr generalizing zs with
  | nil =>
      cases hs
      exact .nil
  | cons hab _ ih =>
      cases hs with
      | cons hbc hrest => exact .cons (h _ _ _ hab hbc) (ih hrest)

theorem map_eq_of_forall₂ {R : α → β → Prop} {f : α → γ} {g : β → γ}
    (h : ∀ a b, R a b → f a = g b) {xs : List α} {ys : List β} (hr : List.Forall₂ R xs ys) :
    xs.map f = ys.map g := by
  induction hr with
  | nil => rfl
  | cons hab _ ih => rw [List.map_cons, List.map_cons, h _ _ hab, ih]

theorem exists_left_of_mem {R : α → β → Prop} {xs : List α} {ys : List β}
    (hr : List.Forall₂ R xs ys) {y : β} (hy : y ∈ ys) : ∃ x ∈ xs, R x y := by
  induction hr with
  | nil => cases hy
  | @cons x y' xs ys hxy _ ih =>
      rcases List.mem_cons.mp hy with rfl | hy
      · exact ⟨x, List.mem_cons_self, hxy⟩
      · obtain ⟨x', hx', hrel⟩ := ih hy
        exact ⟨x', List.mem_cons_of_mem _ hx', hrel⟩

theorem exists_right_of_mem {R : α → β → Prop} {xs : List α} {ys : List β}
    (hr : List.Forall₂ R xs ys) {x : α} (hx : x ∈ xs) : ∃ y ∈ ys, R x y :=
  exists_left_of_mem hr.flip hx

theorem getElem?_of_forall₂ {R : α → β → Prop} {xs : List α} {ys : List β}
    (hr : List.Forall₂ R xs ys) {i : Nat} {x : α} (hx : xs[i]? = some x) :
    ∃ y, ys[i]? = some y ∧ R x y := by
  obtain ⟨hi, rfl⟩ := List.getElem?_eq_some_iff.mp hx
  have hi' : i < ys.length := by rwa [← hr.length_eq]
  exact ⟨ys[i], List.getElem?_eq_getElem hi', hr.get hi hi'⟩

theorem forall₂_of_getElem? {R : α → β → Prop} {xs : List α} {ys : List β}
    (hlen : xs.length = ys.length)
    (h : ∀ (i : Nat) x y, xs[i]? = some x → ys[i]? = some y → R x y) : List.Forall₂ R xs ys := by
  rw [List.forall₂_iff_get]
  refine ⟨hlen, fun i hi hi' => ?_⟩
  exact h i _ _ (List.getElem?_eq_getElem hi) (List.getElem?_eq_getElem hi')

theorem ne_nil_of_forall₂ {R : α → β → Prop} {xs : List α} {ys : List β}
    (hr : List.Forall₂ R xs ys) (hne : xs ≠ []) : ys ≠ [] := by
  rintro rfl
  exact hne (List.forall₂_nil_right_iff.mp hr)

theorem forall₂_and {R S : α → β → Prop} {xs : List α} {ys : List β} (hr : List.Forall₂ R xs ys)
    (hs : List.Forall₂ S xs ys) : List.Forall₂ (fun a b => R a b ∧ S a b) xs ys := by
  rw [List.forall₂_iff_zip] at hr hs ⊢
  exact ⟨hr.1, fun hin => ⟨hr.2 hin, hs.2 hin⟩⟩

/-- A search finds aligned elements in aligned lists. -/
theorem find?_of_forall₂ {R : α → β → Prop} {p : α → Bool} {q : β → Bool}
    (h : ∀ a b, R a b → p a = q b) {xs : List α} {ys : List β} (hr : List.Forall₂ R xs ys) :
    Option.Rel R (xs.find? p) (ys.find? q) := by
  induction hr with
  | nil => exact .none
  | @cons x y xs ys hxy _ ih =>
      rw [List.find?_cons, List.find?_cons, ← h x y hxy]
      cases p x with
      | true => exact .some hxy
      | false => exact ih

theorem elim_of_rel {R : α → β → Prop} {f : α → γ} {g : β → γ} (c : γ)
    (h : ∀ a b, R a b → f a = g b) {x : Option α} {y : Option β} (hr : Option.Rel R x y) :
    x.elim c f = y.elim c g := by
  cases hr with
  | none => rfl
  | some hab => exact h _ _ hab

theorem exists_forall₂ {R : α → β → Prop} {xs : List α} (h : ∀ x ∈ xs, ∃ y, R x y) :
    ∃ ys, List.Forall₂ R xs ys := by
  induction xs with
  | nil => exact ⟨[], .nil⟩
  | cons x xs ih =>
      obtain ⟨y, hy⟩ := h x List.mem_cons_self
      obtain ⟨ys, hys⟩ := ih fun z hz => h z (List.mem_cons_of_mem _ hz)
      exact ⟨y :: ys, .cons hy hys⟩

/-- Elements picked at ascending indexes keep their order. -/
theorem sublist_of_picked {xs ys : List α} {is : List Nat}
    (h : List.Forall₂ (fun i y => xs[i]? = some y) is ys) (hlt : is.Pairwise (· < ·)) :
    ys.Sublist xs := by
  have hdrop : ∀ n, (∀ i ∈ is, n ≤ i) → ys.Sublist (xs.drop n) := by
    induction h with
    | nil => exact fun n _ => List.nil_sublist _
    | @cons i y is ys hi _ ih =>
        intro n hn
        have hrest := List.pairwise_cons.mp hlt
        have hle := hn i List.mem_cons_self
        obtain ⟨hin, rfl⟩ := List.getElem?_eq_some_iff.mp hi
        have hpick : (xs[i] :: ys).Sublist (xs.drop i) := by
          rw [List.drop_eq_getElem_cons hin]
          exact (ih hrest.2 (i + 1) hrest.1).cons_cons _
        refine hpick.trans ?_
        rw [show i = n + (i - n) by omega, ← List.drop_drop]
        exact List.drop_sublist _ _
  simpa using hdrop 0 fun _ _ => Nat.zero_le _

/-- Elements picked at every index are all of them. -/
theorem eq_of_picked_range {xs ys : List α}
    (h : List.Forall₂ (fun i y => xs[i]? = some y) (List.range xs.length) ys) : ys = xs := by
  have hlen := h.length_eq
  rw [List.length_range] at hlen
  apply (sublist_of_picked h List.pairwise_lt_range).eq_of_length
  exact hlen.symm

/-! ## Writes at indexes -/

/-- The list after the writes, one after the other. -/
def scatter (out : List α) (writes : List (Nat × α)) : List α :=
  writes.foldl (fun out w => out.set w.1 w.2) out

@[simp] theorem scatter_nil (out : List α) : scatter out [] = out := rfl

theorem scatter_cons (out : List α) (w : Nat × α) (writes : List (Nat × α)) :
    scatter out (w :: writes) = scatter (out.set w.1 w.2) writes := rfl

theorem scatter_append (out : List α) (l m : List (Nat × α)) :
    scatter out (l ++ m) = scatter (scatter out l) m := List.foldl_append

/-- **Writes that agree with a list** leave the list, if they reach every index at which
the output does not agree already. -/
theorem scatter_eq {xs out : List α} {writes : List (Nat × α)} (hlen : out.length = xs.length)
    (hagree : ∀ w ∈ writes, xs[w.1]? = some w.2)
    (hreach : ∀ i, i < xs.length → (∃ w ∈ writes, w.1 = i) ∨ out[i]? = xs[i]?) :
    scatter out writes = xs := by
  induction writes generalizing out with
  | nil =>
      apply List.ext_getElem? fun i => ?_
      by_cases hi : i < xs.length
      · exact (hreach i hi).resolve_left (by simp)
      · rw [scatter_nil, List.getElem?_eq_none (by omega), List.getElem?_eq_none (by omega)]
  | cons w writes ih =>
      rw [scatter_cons]
      apply ih
      · rw [List.length_set, hlen]
      · exact fun x hx => hagree x (List.mem_cons_of_mem _ hx)
      · intro i hi
        by_cases hw : w.1 = i
        · right
          rw [← hw, List.getElem?_set_self (by omega), hagree w List.mem_cons_self]
        · rw [List.getElem?_set_ne hw]
          cases hreach i hi with
          | inr hout => exact .inr hout
          | inl hwrite =>
              obtain ⟨x, hx, hxi⟩ := hwrite
              cases List.mem_cons.mp hx with
              | inl heq => exact absurd (heq ▸ hxi) hw
              | inr hrest => exact .inl ⟨x, hrest, hxi⟩

end Snii.Lib.Aligned
