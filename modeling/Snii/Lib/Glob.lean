import Mathlib.Data.List.TakeWhile

/-!
# Glob patterns

Patterns over an alphabet with two wildcards: `star` stands for any word, `one` for any
letter, and every other letter for itself.  A pattern in two parts matches a word
exactly if the word splits into a match of each.
-/

namespace Snii.Lib.Glob

variable {α : Type*}

/-- The pattern matches the word as a whole. -/
inductive Matches (star one : α) : List α → List α → Prop
  | nil : Matches star one [] []
  | any {p : List α} (s : List α) {t : List α} (rest : Matches star one p t) :
      Matches star one (star :: p) (s ++ t)
  | letter {p : List α} (c : α) {t : List α} (rest : Matches star one p t) :
      Matches star one (one :: p) (c :: t)
  | literal {p : List α} {c : α} {t : List α} (hstar : c ≠ star) (hone : c ≠ one)
      (rest : Matches star one p t) : Matches star one (c :: p) (c :: t)

variable {star one : α} {p q t : List α}

@[simp] theorem matches_nil : Matches star one [] t ↔ t = [] := by
  constructor
  · intro h
    cases h
    rfl
  · rintro rfl
    exact .nil

/-- **A pattern in two parts** matches the words that split into matches of the parts. -/
theorem matches_append : Matches star one (p ++ q) t ↔
    ∃ a b, t = a ++ b ∧ Matches star one p a ∧ Matches star one q b := by
  constructor
  · intro h
    generalize hpq : p ++ q = pq at h
    induction h generalizing p with
    | nil =>
        obtain ⟨rfl, rfl⟩ := List.append_eq_nil_iff.mp hpq
        exact ⟨[], [], rfl, .nil, .nil⟩
    | @any r s t rest ih =>
        cases p with
        | nil => exact ⟨[], s ++ t, rfl, .nil, by rw [← List.nil_append q, hpq]; exact .any s rest⟩
        | cons c p =>
            obtain ⟨rfl, hr⟩ := List.cons.inj hpq
            obtain ⟨a, b, rfl, ha, hb⟩ := ih hr
            exact ⟨s ++ a, b, (List.append_assoc s a b).symm, .any s ha, hb⟩
    | @letter r x t rest ih =>
        cases p with
        | nil => exact ⟨[], x :: t, rfl, .nil, by rw [← List.nil_append q, hpq]; exact .letter x rest⟩
        | cons c p =>
            obtain ⟨rfl, hr⟩ := List.cons.inj hpq
            obtain ⟨a, b, rfl, ha, hb⟩ := ih hr
            exact ⟨x :: a, b, rfl, .letter x ha, hb⟩
    | @literal r x t hstar hone rest ih =>
        cases p with
        | nil =>
            exact ⟨[], x :: t, rfl, .nil,
              by rw [← List.nil_append q, hpq]; exact .literal hstar hone rest⟩
        | cons c p =>
            obtain ⟨rfl, hr⟩ := List.cons.inj hpq
            obtain ⟨a, b, rfl, ha, hb⟩ := ih hr
            exact ⟨c :: a, b, rfl, .literal hstar hone ha, hb⟩
  · rintro ⟨a, b, rfl, ha, hb⟩
    induction ha with
    | nil => exact hb
    | any s _ ih =>
        rw [List.append_assoc]
        exact .any s ih
    | letter c _ ih => exact .letter c ih
    | literal hstar hone _ ih => exact .literal hstar hone ih

theorem matches_star : Matches star one [star] t := by
  rw [← List.append_nil t]
  exact .any t .nil

/-- One letter of a pattern that is not `star` matches one letter. -/
theorem matches_letter {c : α} (hc : c ≠ star) :
    Matches star one [c] t ↔ ∃ x, t = [x] ∧ (c = one ∨ c = x) := by
  constructor
  · intro h
    cases h with
    | any s rest => exact absurd rfl hc
    | letter x rest =>
        rw [matches_nil] at rest
        exact ⟨x, by rw [rest], .inl rfl⟩
    | literal hstar hone rest =>
        rw [matches_nil] at rest
        exact ⟨c, by rw [rest], .inr rfl⟩
  · rintro ⟨x, rfl, hx⟩
    by_cases hone : c = one
    · subst hone
      exact .letter x .nil
    · obtain rfl := hx.resolve_left hone
      exact .literal hc hone .nil

/-- A pattern with `star` added matches what has a match of the pattern in front. -/
theorem matches_concat_star : Matches star one (p ++ [star]) t ↔
    ∃ i, i ≤ t.length ∧ Matches star one p (t.take i) := by
  rw [matches_append]
  constructor
  · rintro ⟨a, b, rfl, ha, -⟩
    exact ⟨a.length, by simp, by simpa using ha⟩
  · rintro ⟨i, -, h⟩
    exact ⟨t.take i, t.drop i, (List.take_append_drop i t).symm, h, matches_star⟩

/-- A pattern with another letter added matches one letter more. -/
theorem matches_concat_letter {c : α} (hc : c ≠ star) : Matches star one (p ++ [c]) t ↔
    ∃ s x, t = s ++ [x] ∧ Matches star one p s ∧ (c = one ∨ c = x) := by
  rw [matches_append]
  constructor
  · rintro ⟨a, b, rfl, ha, hb⟩
    obtain ⟨x, rfl, hx⟩ := (matches_letter hc).mp hb
    exact ⟨a, x, rfl, ha, hx⟩
  · rintro ⟨s, x, rfl, hs, hx⟩
    exact ⟨s, [x], rfl, hs, (matches_letter hc).mpr ⟨x, rfl, hx⟩⟩

/-- A pattern without wildcards matches itself alone. -/
theorem matches_plain (h : ∀ c ∈ p, c ≠ star ∧ c ≠ one) : Matches star one p t ↔ t = p := by
  induction p generalizing t with
  | nil => exact matches_nil
  | cons c p ih =>
      obtain ⟨hc, hp⟩ := List.forall_mem_cons.mp h
      have hsplit : c :: p = [c] ++ p := rfl
      rw [hsplit, matches_append]
      constructor
      · rintro ⟨a, b, rfl, ha, hb⟩
        obtain ⟨x, rfl, hx⟩ := (matches_letter hc.1).mp ha
        rw [(ih hp).mp hb, hx.resolve_left hc.2]
      · rintro rfl
        exact ⟨[c], p, rfl, (matches_letter hc.1).mpr ⟨c, rfl, .inr rfl⟩, (ih hp).mpr rfl⟩

/-- **A match starts with the letters in front of the first wildcard.** -/
theorem matches_literal_isPrefix {plain : α → Bool}
    (hplain : ∀ c, plain c = true → c ≠ star ∧ c ≠ one) (h : Matches star one p t) :
    p.takeWhile plain <+: t := by
  induction h with
  | nil => exact List.prefix_rfl
  | any s rest ih =>
      have hstar : plain star = false := by
        cases hs : plain star with
        | false => rfl
        | true => exact absurd rfl (hplain star hs).1
      rw [List.takeWhile_cons_of_neg (by simp [hstar])]
      exact List.nil_prefix
  | letter c rest ih =>
      have hone : plain one = false := by
        cases hs : plain one with
        | false => rfl
        | true => exact absurd rfl (hplain one hs).2
      rw [List.takeWhile_cons_of_neg (by simp [hone])]
      exact List.nil_prefix
  | @literal p c t hstar hone rest ih =>
      cases hc : plain c with
      | true =>
          rw [List.takeWhile_cons_of_pos hc]
          exact List.cons_prefix_cons.mpr ⟨rfl, ih⟩
      | false =>
          rw [List.takeWhile_cons_of_neg (by simp [hc])]
          exact List.nil_prefix

end Snii.Lib.Glob
