import Snii.Lib.ByteReader

/-!
# Statuses

The error type of the code base: a code with its message.  A call that returns
`OK` is the `ok` case of `Result`.  `outOfBounds` stands for an access outside a
buffer and `thrown` for an exception that leaves the call; the code reports neither
as a status.
-/

namespace Snii.Common

inductive Status where
  | corruption (message : String)
  | notFound (message : String)
  | invalidArgument (message : String)
  | ioError (message : String)
  | unsupported (message : String)
  | internal (message : String)
  | outOfBounds
  | thrown
deriving DecidableEq, Repr

/-- A status the code reports. -/
def Status.Reported (s : Status) : Prop := s ≠ .outOfBounds ∧ s ≠ .thrown

abbrev Result (α : Type) := Except Status α

theorem ok_bind {α β : Type} (a : α) (f : α → Result β) : ((.ok a : Result α) >>= f) = f a := rfl

/-- A chain that succeeds has succeeded at its first step. -/
theorem bind_eq_ok {α β : Type} {r : Result α} {f : α → Result β} {y : β}
    (h : (r >>= f) = .ok y) : ∃ x, r = .ok x ∧ f x = .ok y := by
  cases r with
  | error e => cases h
  | ok x => exact ⟨x, rfl, h⟩

/-- A chain fails with a status only where one of its steps does. -/
theorem bind_ne_error {α β : Type} {r : Result α} {f : α → Result β} {e : Status}
    (hr : r ≠ .error e) (hf : ∀ x, r = .ok x → f x ≠ .error e) : (r >>= f) ≠ .error e := by
  cases r with
  | error e' =>
      intro h
      exact hr (congrArg Except.error (Except.error.inj h))
  | ok x => exact hf x rfl

/-- A loop none of whose steps fails collects the steps' results. -/
theorem mapM_ok {α β : Type} {f : α → Result β} {g : α → β} {xs : List α}
    (h : ∀ x ∈ xs, f x = .ok (g x)) : xs.mapM f = .ok (xs.map g) := by
  induction xs with
  | nil => rfl
  | cons x xs ih =>
      rw [List.mapM_cons, h x List.mem_cons_self, ok_bind,
        ih fun y hy => h y (List.mem_cons_of_mem _ hy)]
      rfl

/-- A loop over the indexes of a list that succeeds at every step. -/
theorem mapM_range_ok {α β : Type} {xs : List α} {f : Nat → Result β} {g : α → β}
    (h : ∀ i x, xs[i]? = some x → f i = .ok (g x)) :
    (List.range xs.length).mapM f = .ok (xs.map g) := by
  induction xs generalizing f with
  | nil => rfl
  | cons x xs ih =>
      have htail := @ih (fun i => f (i + 1)) fun i y hy => h (i + 1) y (by simpa using hy)
      have hhead := h 0 x rfl
      rw [List.length_cons, List.range_succ_eq_map, List.mapM_cons, hhead, ok_bind, List.mapM_map]
      change ((List.range xs.length).mapM fun i => f (i + 1)) >>= _ = _
      rw [htail]
      rfl

/-- A loop that succeeds has succeeded at every step. -/
theorem mapM_eq_ok {α β : Type} {f : α → Result β} {xs : List α} {ys : List β}
    (h : xs.mapM f = .ok ys) : List.Forall₂ (fun x y => f x = .ok y) xs ys := by
  induction xs generalizing ys with
  | nil =>
      cases h
      exact .nil
  | cons x xs ih =>
      rw [List.mapM_cons] at h
      obtain ⟨y, hy, h1⟩ := bind_eq_ok h
      obtain ⟨ys', hys, h2⟩ := bind_eq_ok h1
      cases h2
      exact .cons hy (ih hys)

/-- A loop whose steps give the elements of a list gives the list. -/
theorem mapM_of_forall₂ {α β : Type} {f : α → Result β} {xs : List α} {ys : List β}
    (h : List.Forall₂ (fun x y => f x = .ok y) xs ys) : xs.mapM f = .ok ys := by
  induction h with
  | nil => rfl
  | cons hxy _ ih =>
      rw [List.mapM_cons, hxy, ok_bind, ih]
      rfl

/-- A function of a byte source that may fail. -/
abbrev Source (α : Type) := Lib.ByteReader.Reader Status α

/-- `Slice::subslice`, whose range the callers promise to lie inside the slice. -/
def subslice (s : Lib.ByteReader.Bytes) (off n : Nat) : Result Lib.ByteReader.Bytes :=
  if off + n > s.length then .error .outOfBounds else .ok ((s.drop off).take n)

theorem subslice_append {a b c : Lib.ByteReader.Bytes} {off n : Nat} (hoff : off = a.length)
    (hn : n = b.length) : subslice (a ++ (b ++ c)) off n = .ok b := by
  subst hoff
  subst hn
  rw [subslice, if_neg (by simp), List.drop_left, List.take_left]

end Snii.Common
