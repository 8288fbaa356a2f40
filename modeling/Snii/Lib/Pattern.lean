import Mathlib.Data.List.TakeWhile

/-!
# Patterns as texts

The top level of a regular-expression pattern: alternatives of pieces, a piece being a
letter with its quantifier or some other construct.  What other constructs match is
left open: a piece of that kind runs between any two states of a matcher.

`leading` is what a scan of the text up to the first syntax character collects.  A match
may do without it in two ways only, by a later alternative or by no repetition of the
last letter: `matches_leading_iff`.
-/

namespace Snii.Lib.Pattern

variable {α : Type*}

/-- A matcher's state: where it stands in the text, and what the groups captured. -/
structure State where
  pos : Nat
  captures : Nat → Option (Nat × Nat)

structure Quantifier (α : Type*) where
  text : List α
  min : Nat
  max : Option Nat

def Quantifier.Allows (q : Quantifier α) (k : Nat) : Prop := q.min ≤ k ∧ ∀ m ∈ q.max, k ≤ m

inductive Piece (α : Type*) where
  | letter (c : α) (q : Option (Quantifier α))
  | other (text : List α) (run : List α → State → State → Prop)

def Piece.text : Piece α → List α
  | .letter c q => c :: (q.map Quantifier.text).getD []
  | .other text _ => text

/-- How often a letter is read. -/
def reads (q : Option (Quantifier α)) (k : Nat) : Prop :=
  match q with
  | none => k = 1
  | some q => q.Allows k

def Piece.Runs (t : List α) : Piece α → State → State → Prop
  | .letter c q, s, s' => ∃ k, reads q k ∧ List.replicate k c <+: t.drop s.pos ∧
      s' = { s with pos := s.pos + k }
  | .other _ run, s, s' => run t s s'

/-- The pieces one after the other. -/
inductive Runs (t : List α) : List (Piece α) → State → State → Prop
  | nil (s : State) : Runs t [] s s
  | cons {p : Piece α} {ps : List (Piece α)} {s s₁ s' : State} (first : p.Runs t s s₁)
      (rest : Runs t ps s₁ s') : Runs t (p :: ps) s s'

theorem runs_nil_iff {t : List α} {s s' : State} : Runs t [] s s' ↔ s' = s := by
  constructor
  · rintro ⟨⟩
    rfl
  · rintro rfl
    exact .nil s'

theorem runs_letter_iff {t : List α} {c : α} {q : Option (Quantifier α)} {ps : List (Piece α)}
    {s s' : State} : Runs t (.letter c q :: ps) s s' ↔ ∃ k, reads q k ∧
      List.replicate k c <+: t.drop s.pos ∧ Runs t ps { s with pos := s.pos + k } s' := by
  constructor
  · intro h
    cases h with
    | cons hfirst hrest =>
        obtain ⟨k, hk, hreads, rfl⟩ := hfirst
        exact ⟨k, hk, hreads, hrest⟩
  · rintro ⟨k, hk, hreads, hrest⟩
    exact .cons ⟨k, hk, hreads, rfl⟩ hrest

/-- An alternative, with a start anchor in front of its pieces or without one. -/
structure Alternative (α : Type*) where
  anchored : Bool
  pieces : List (Piece α)

/-- A match of the whole text; at its start the anchor holds. -/
def Alternative.Matches (a : Alternative α) (t : List α) : Prop :=
  ∃ captures, Runs t a.pieces ⟨0, fun _ => none⟩ ⟨t.length, captures⟩

structure Disjunction (α : Type*) where
  first : Alternative α
  rest : List (Alternative α)

def Disjunction.Matches (d : Disjunction α) (t : List α) : Prop :=
  ∃ a ∈ d.first :: d.rest, a.Matches t

/-! ## Texts -/

section Texts

variable (hat bar : α) (isSyntax : α → Bool)

def Alternative.text (a : Alternative α) : List α :=
  (if a.anchored then [hat] else []) ++ a.pieces.flatMap Piece.text

def Disjunction.text (d : Disjunction α) : List α :=
  d.first.text hat ++ d.rest.flatMap fun a => bar :: a.text hat

/-- Letters are no syntax; all else starts with a syntax character. -/
def Piece.Ok : Piece α → Prop
  | .letter c q => isSyntax c = false ∧ ∀ x ∈ q, ∃ m more, x.text = m :: more ∧ isSyntax m = true
  | .other text _ => ∃ m more, text = m :: more ∧ isSyntax m = true

structure Alternative.Ok (a : Alternative α) : Prop where
  pieces : ∀ p ∈ a.pieces, p.Ok isSyntax
  anchor : a.anchored = false → (a.pieces.flatMap Piece.text).head? ≠ some hat

/-- The letters up to the first syntax character. -/
def leading : List (Piece α) → List α
  | .letter c none :: ps => c :: leading ps
  | .letter c (some _) :: _ => [c]
  | _ => []

variable {hat bar isSyntax}

theorem takeWhile_text {ps : List (Piece α)} (hok : ∀ p ∈ ps, p.Ok isSyntax) {more : List α}
    (hmore : ∀ c ∈ more.head?, isSyntax c = true) :
    (ps.flatMap Piece.text ++ more).takeWhile (fun c => !isSyntax c) = leading ps := by
  induction ps with
  | nil =>
      cases more with
      | nil => rfl
      | cons c more => simp [leading, hmore c rfl]
  | cons p ps ih =>
      have hp := hok p List.mem_cons_self
      have hps := ih fun x hx => hok x (List.mem_cons_of_mem _ hx)
      cases p with
      | letter c q =>
          cases q with
          | none =>
              rw [leading, ← hps]
              simp [Piece.text, hp.1]
          | some q =>
              obtain ⟨m, rest, htext, hm⟩ := hp.2 q rfl
              simp [leading, Piece.text, hp.1, htext, hm]
      | other text run =>
          obtain ⟨m, rest, htext, hm⟩ := hp
          simp [leading, Piece.text, htext, hm]

end Texts

/-! ## Doing without the leading letters -/

/-- The pieces without their last leading letter, where it may be read no time. -/
def spared : List (Piece α) → Option (List (Piece α))
  | .letter c none :: ps => (spared ps).map (.letter c none :: ·)
  | .letter _ (some q) :: ps => if q.min = 0 then some ps else none
  | _ => none

theorem runs_of_spared {t : List α} {ps qs : List (Piece α)} {s s' : State}
    (hspared : spared ps = some qs) (h : Runs t qs s s') : Runs t ps s s' := by
  induction ps generalizing qs s with
  | nil => cases hspared
  | cons p ps ih =>
      cases p with
      | other text run => cases hspared
      | letter c q =>
          cases q with
          | none =>
              rw [spared, Option.map_eq_some_iff] at hspared
              obtain ⟨rs, hrs, rfl⟩ := hspared
              cases h with
              | cons hfirst hrest => exact .cons hfirst (ih hrs hrest)
          | some q =>
              rw [spared] at hspared
              split at hspared
              case _ hzero =>
                  cases hspared
                  refine .cons ⟨0, ?_, List.nil_prefix, rfl⟩ h
                  exact ⟨by omega, fun m _ => Nat.zero_le m⟩
              case _ => cases hspared

theorem leading_isPrefix {t : List α} {ps : List (Piece α)} {s s' : State} (h : Runs t ps s s')
    (hspared : ∀ qs, spared ps = some qs → Runs t qs s s' → leading ps <+: t.drop s.pos) :
    leading ps <+: t.drop s.pos := by
  induction h with
  | nil s => exact List.nil_prefix
  | @cons p ps s s₁ s' hfirst hrest ih =>
      cases p with
      | other text run => exact List.nil_prefix
      | letter c q =>
          obtain ⟨k, hk, hreads, rfl⟩ := hfirst
          cases q with
          | none =>
              cases (show k = 1 from hk)
              have hdrop : t.drop s.pos = c :: t.drop (s.pos + 1) := by
                obtain ⟨more, hmore⟩ := hreads
                rw [← List.drop_drop, ← hmore]
                rfl
              rw [leading, hdrop, List.cons_prefix_cons]
              refine ⟨rfl, ih fun qs hqs hruns => ?_⟩
              have hletter : (Piece.letter c none).Runs t s ⟨s.pos + 1, s.captures⟩ :=
                ⟨1, rfl, hreads, rfl⟩
              have hlead := hspared (.letter c none :: qs) (by rw [spared, hqs]; rfl)
                (.cons hletter hruns)
              rw [leading, hdrop, List.cons_prefix_cons] at hlead
              exact hlead.2
          | some q =>
              cases k with
              | zero =>
                  have hzero : q.min = 0 := Nat.le_zero.mp hk.1
                  exact hspared ps (by rw [spared, if_pos hzero]) hrest
              | succ k =>
                  rw [List.replicate_succ] at hreads
                  exact (List.prefix_append [c] _).trans hreads

/-- The alternatives that can match without the letters that lead the first one. -/
def Disjunction.escapes (d : Disjunction α) : List (Alternative α) :=
  d.rest ++ ((spared d.first.pieces).map fun ps => { d.first with pieces := ps }).toList

/-- **Every match has the leading letters** exactly if every match of an alternative
that can do without them has. -/
theorem matches_leading_iff (d : Disjunction α) :
    (∀ t, d.Matches t → leading d.first.pieces <+: t) ↔
      ∀ a ∈ d.escapes, ∀ t, a.Matches t → leading d.first.pieces <+: t := by
  constructor
  · intro h a ha t hmatch
    cases List.mem_append.mp ha with
    | inl hrest => exact h t ⟨a, List.mem_cons_of_mem _ hrest, hmatch⟩
    | inr hfirst =>
        rw [Option.mem_toList, Option.map_eq_some_iff] at hfirst
        obtain ⟨ps, hps, rfl⟩ := hfirst
        obtain ⟨captures, hruns⟩ := hmatch
        exact h t ⟨d.first, List.mem_cons_self, captures, runs_of_spared hps hruns⟩
  · rintro h t ⟨a, ha, hmatch⟩
    cases List.mem_cons.mp ha with
    | inr hrest => exact h a (List.mem_append_left _ hrest) t hmatch
    | inl hfirst =>
        rw [hfirst] at hmatch
        obtain ⟨captures, hruns⟩ := hmatch
        refine leading_isPrefix hruns fun ps hps hspared => ?_
        apply h { d.first with pieces := ps } (List.mem_append_right _ ?_) t ⟨captures, hspared⟩
        rw [hps]
        exact List.mem_cons_self

end Snii.Lib.Pattern
