import Mathlib.Algebra.BigOperators.Group.List.Basic
import Mathlib.Algebra.Ring.Int.Defs
import Mathlib.Data.Int.Basic

/-!
# Ledgers

A list of entries, each open or closed, that carry a signed amount.  The balance is
the sum over the open ones; replacing, opening and closing an entry moves it by the
difference of the two amounts.
-/

namespace Snii.Lib.Ledger

variable {α : Type*} (amount : α → Int)

/-- The amount of an entry: a closed one, `none`, carries nothing. -/
def amountOf (e : Option α) : Int := e.elim 0 amount

@[simp] theorem amountOf_none : amountOf amount none = 0 := rfl

@[simp] theorem amountOf_some (a : α) : amountOf amount (some a) = amount a := rfl

def balance (entries : List (Option α)) : Int := (entries.map (amountOf amount)).sum

@[simp] theorem balance_nil : balance amount [] = 0 := rfl

theorem balance_cons (e : Option α) (entries : List (Option α)) :
    balance amount (e :: entries) = amountOf amount e + balance amount entries := rfl

theorem balance_append (l m : List (Option α)) :
    balance amount (l ++ m) = balance amount l + balance amount m := by
  simp [balance]

/-- **Replacing an entry** moves the balance by the difference of the amounts. -/
theorem balance_set {entries : List (Option α)} {i : Nat} {e : Option α}
    (h : entries[i]? = some e) (e' : Option α) :
    balance amount (entries.set i e') =
      balance amount entries + (amountOf amount e' - amountOf amount e) := by
  induction entries generalizing i with
  | nil => simp at h
  | cons x entries ih =>
      cases i with
      | zero =>
          have hx : x = e := by simpa using h
          simp only [List.set_cons_zero, balance_cons, hx]
          omega
      | succ i =>
          have htail := ih (show entries[i]? = some e by simpa using h)
          simp only [List.set_cons_succ, balance_cons, htail]
          omega

/-- A ledger with every entry closed balances at zero. -/
theorem balance_of_closed {entries : List (Option α)} (h : ∀ e ∈ entries, e = none) :
    balance amount entries = 0 := by
  induction entries with
  | nil => rfl
  | cons e entries ih =>
      have htail := ih fun x hx => h x (List.mem_cons_of_mem _ hx)
      simp [balance_cons, h e List.mem_cons_self, htail]

end Snii.Lib.Ledger
