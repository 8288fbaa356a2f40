import Mathlib.Data.List.Defs

/-!
# The cause of an error

A program may be free of an error but for one of its parts.  `Blames e cause r` says
that the result `r` is the error `e` only where `cause` holds; the parts that never
raise the error drop out, and what is left of a composed program is the cause.
-/

namespace Snii.Lib.Blame

variable {ε α β : Type} {e : ε} {cause cause' : Prop} {r : Except ε α}

/-- The error comes out only where its cause holds. -/
structure Blames (e : ε) (cause : Prop) (r : Except ε α) : Prop where
  imp : r = .error e → cause

namespace Blames

theorem of_ne (h : r ≠ .error e) : Blames e cause r := ⟨fun heq => absurd heq h⟩

theorem ok (a : α) : Blames e cause (.ok a : Except ε α) := ⟨fun heq => by cases heq⟩

theorem error {e' : ε} (h : e' ≠ e) : Blames e cause (.error e' : Except ε α) :=
  ⟨fun heq => absurd (Except.error.inj heq) h⟩

theorem mono (h : Blames e cause r) (hcause : cause → cause') : Blames e cause' r :=
  ⟨fun heq => hcause (h.imp heq)⟩

theorem bind {f : α → Except ε β} (h : Blames e cause r)
    (hf : ∀ a, r = .ok a → Blames e cause (f a)) : Blames e cause (r >>= f) := by
  cases r with
  | error e' => exact ⟨fun heq => h.imp (congrArg Except.error (Except.error.inj heq))⟩
  | ok a => exact hf a rfl

theorem ite {c : Prop} [Decidable c] {r' : Except ε α} (h : c → Blames e cause r)
    (h' : ¬c → Blames e cause r') : Blames e cause (if c then r else r') := by
  by_cases hc : c
  · rw [if_pos hc]
    exact h hc
  · rw [if_neg hc]
    exact h' hc

theorem mapM {f : α → Except ε β} {xs : List α} (h : ∀ x ∈ xs, Blames e cause (f x)) :
    Blames e cause (xs.mapM f) := by
  induction xs with
  | nil => exact ok []
  | cons x xs ih =>
      rw [List.mapM_cons]
      apply (h x List.mem_cons_self).bind
      intro y _
      apply (ih fun z hz => h z (List.mem_cons_of_mem x hz)).bind
      intro ys _
      exact ok (y :: ys)

end Blames

end Snii.Lib.Blame
