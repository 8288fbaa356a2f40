import Mathlib.Data.List.Forall2

/-!
# Runs that agree

Two programs over one state agree when from every state they end alike: both fail with
the same error, or both succeed with related values, and the state after them is the
same either way.  Agreement is a congruence of the monad, so it is shown step by step.
For programs without a state, `SameOutcome` says the same of their results.
-/

namespace Snii.Lib.Agreement

variable {ε σ α α' β β' : Type} {R : α → α' → Prop} {S : β → β' → Prop}

/-- Results with one outcome and one state. -/
inductive Alike (R : α → α' → Prop) : EStateM.Result ε σ α → EStateM.Result ε σ α' → Prop where
  | ok {a : α} {a' : α'} (h : R a a') (s : σ) : Alike R (.ok a s) (.ok a' s)
  | error (e : ε) (s : σ) : Alike R (.error e s) (.error e s)

def Agrees (R : α → α' → Prop) (p : EStateM ε σ α) (q : EStateM ε σ α') : Prop :=
  ∀ s, Alike R (p s) (q s)

theorem Agrees.pure {a : α} {a' : α'} (h : R a a') :
    Agrees R (Pure.pure a : EStateM ε σ α) (Pure.pure a') := fun s => .ok h s

theorem Agrees.throw (e : ε) :
    Agrees R (MonadExcept.throw e : EStateM ε σ α) (MonadExcept.throw e) := fun s => .error e s

theorem Agrees.refl (p : EStateM ε σ α) : Agrees Eq p p := by
  intro s
  cases p s with
  | ok a s => exact .ok rfl s
  | error e s => exact .error e s

theorem Agrees.bind {p : EStateM ε σ α} {q : EStateM ε σ α'} {f : α → EStateM ε σ β}
    {g : α' → EStateM ε σ β'} (h : Agrees R p q) (hf : ∀ a a', R a a' → Agrees S (f a) (g a')) :
    Agrees S (p >>= f) (q >>= g) := by
  intro s
  show Alike S (EStateM.bind p f s) (EStateM.bind q g s)
  rw [EStateM.bind, EStateM.bind]
  have hs := h s
  generalize p s = r at hs ⊢
  generalize q s = r' at hs ⊢
  cases hs with
  | ok hr s => exact hf _ _ hr s
  | error e s => exact .error e s

/-! ## Programs without a state -/

/-- One error, or related values. -/
inductive SameOutcome (R : α → α' → Prop) : Except ε α → Except ε α' → Prop where
  | ok {a : α} {a' : α'} (h : R a a') : SameOutcome R (.ok a) (.ok a')
  | error (e : ε) : SameOutcome R (.error e) (.error e)

namespace SameOutcome

variable {r : Except ε α} {r' : Except ε α'}

theorem refl (r : Except ε α) : SameOutcome Eq r r := by
  cases r with
  | ok a => exact .ok rfl
  | error e => exact .error e

/-- A program and itself, with what is known of its value. -/
theorem self {P : α → Prop} (h : ∀ a, r = .ok a → P a) :
    SameOutcome (fun a a' => a = a' ∧ P a) r r := by
  cases r with
  | ok a => exact .ok ⟨rfl, h a rfl⟩
  | error e => exact .error e

/-- Equal values: the results are equal. -/
theorem eq {r r' : Except ε α} (h : SameOutcome Eq r r') : r = r' := by
  cases h with
  | ok h => rw [h]
  | error e => rfl

theorem bind {f : α → Except ε β} {g : α' → Except ε β'} (h : SameOutcome R r r')
    (hf : ∀ a a', R a a' → SameOutcome S (f a) (g a')) : SameOutcome S (r >>= f) (r' >>= g) := by
  cases h with
  | ok h => exact hf _ _ h
  | error e => exact .error e

/-- Programs that go on alike after related values end alike. -/
theorem bind_eq {f : α → Except ε β} {g : α' → Except ε β} (h : SameOutcome R r r')
    (hf : ∀ a a', R a a' → f a = g a') : (r >>= f) = (r' >>= g) := by
  cases h with
  | ok h => exact hf _ _ h
  | error e => rfl

theorem ite {c : Prop} [Decidable c] {p q : Except ε α} {p' q' : Except ε α'}
    (hp : c → SameOutcome R p p') (hq : ¬ c → SameOutcome R q q') :
    SameOutcome R (if c then p else q) (if c then p' else q') := by
  by_cases hc : c
  · rw [if_pos hc, if_pos hc]
    exact hp hc
  · rw [if_neg hc, if_neg hc]
    exact hq hc

theorem mapM {f : α → Except ε β} {g : α' → Except ε β'} {xs : List α} {ys : List α'}
    (h : List.Forall₂ (fun x y => SameOutcome S (f x) (g y)) xs ys) :
    SameOutcome (List.Forall₂ S) (xs.mapM f) (ys.mapM g) := by
  induction h with
  | nil => exact .ok .nil
  | cons hxy _ ih =>
      rw [List.mapM_cons, List.mapM_cons]
      apply hxy.bind
      intro b b' hb
      apply ih.bind
      intro bs bs' hbs
      exact .ok (.cons hb hbs)

end SameOutcome

end Snii.Lib.Agreement
