import Mathlib.Data.List.Basic

/-!
# Arrays with checked indexes

An array of a fixed length that loops fill in place.  Every read and write checks its
index, and what a loop leaves is the array with its values written over from an offset
on (`overwrite`).
-/

namespace Snii.Lib.CheckedArray

variable {ε α : Type} {e : ε} {xs vals more : List α} {off i : Nat}

def load (e : ε) (xs : List α) (i : Nat) : Except ε α :=
  match xs[i]? with
  | none => .error e
  | some x => .ok x

def store (e : ε) (xs : List α) (i : Nat) (x : α) : Except ε (List α) :=
  if i < xs.length then .ok (xs.set i x) else .error e

/-- One value after the other. -/
def storeAll (e : ε) : List α → Nat → List α → Except ε (List α)
  | xs, _, [] => .ok xs
  | xs, i, x :: vals => do
      let xs ← store e xs i x
      storeAll e xs (i + 1) vals

/-- The array with the values in place of its elements from the offset on. -/
def overwrite (xs : List α) (off : Nat) (vals : List α) : List α :=
  xs.take off ++ vals ++ xs.drop (off + vals.length)

theorem load_ok (h : i < xs.length) : load e xs i = .ok xs[i] := by
  rw [load, List.getElem?_eq_getElem h]

theorem store_ok (h : i < xs.length) (x : α) : store e xs i x = .ok (xs.set i x) := by
  rw [store, if_pos h]

theorem length_overwrite (h : off + vals.length ≤ xs.length) :
    (overwrite xs off vals).length = xs.length := by
  rw [overwrite, List.length_append, List.length_append, List.length_take, List.length_drop]
  omega

@[simp] theorem overwrite_nil : overwrite xs off [] = xs := by
  rw [overwrite, List.append_nil, List.length_nil, Nat.add_zero, List.take_append_drop]

/-- An array written over as a whole. -/
theorem overwrite_all (h : vals.length = xs.length) : overwrite xs 0 vals = vals := by
  rw [overwrite, List.take_zero, List.nil_append, Nat.zero_add, h, List.drop_length,
    List.append_nil]

/-- A write in front of the values. -/
theorem overwrite_set (h : i < xs.length) (x : α) :
    overwrite (xs.set i x) (i + 1) vals = overwrite xs i (x :: vals) := by
  have htake : (xs.set i x).take (i + 1) = xs.take i ++ [x] := by
    rw [List.take_succ_eq_append_getElem (by rwa [List.length_set]), List.getElem_set_self,
      List.take_set_of_le (Nat.le_refl i)]
  have hdrop : (xs.set i x).drop (i + 1 + vals.length) = xs.drop (i + (x :: vals).length) := by
    rw [List.drop_set_of_lt (by omega), List.length_cons]
    congr 1
    omega
  rw [overwrite, overwrite, htake, hdrop, List.append_assoc, List.append_assoc, List.append_assoc]
  rfl

/-- A write inside the values. -/
theorem set_overwrite (h : i < vals.length) (hoff : off ≤ xs.length) (x : α) :
    (overwrite xs off vals).set (off + i) x = overwrite xs off (vals.set i x) := by
  have hlen : (xs.take off).length = off := by rw [List.length_take, Nat.min_eq_left hoff]
  rw [overwrite, overwrite, List.append_assoc, List.set_append_right _ _ (by omega), hlen,
    Nat.add_sub_cancel_left, List.set_append_left _ _ h, List.append_assoc, List.length_set]

/-- Values behind values. -/
theorem overwrite_overwrite (h : off + vals.length ≤ xs.length) :
    overwrite (overwrite xs off vals) (off + vals.length) more = overwrite xs off (vals ++ more) := by
  have hlen : (xs.take off ++ vals).length = off + vals.length := by
    rw [List.length_append, List.length_take]
    omega
  have htake : (overwrite xs off vals).take (off + vals.length) = xs.take off ++ vals := by
    rw [overwrite, List.take_left' hlen]
  have hdrop : (overwrite xs off vals).drop (off + vals.length + more.length) =
      xs.drop (off + (vals ++ more).length) := by
    rw [← List.drop_drop, overwrite, List.drop_left' hlen, List.drop_drop, List.length_append,
      Nat.add_assoc]
  rw [overwrite, htake, hdrop, overwrite, List.append_assoc (xs.take off)]

theorem storeAll_ok (h : off + vals.length ≤ xs.length) :
    storeAll e xs off vals = .ok (overwrite xs off vals) := by
  induction vals generalizing xs off with
  | nil => rw [storeAll, overwrite_nil]
  | cons x vals ih =>
      rw [List.length_cons] at h
      have hoff : off < xs.length := by omega
      rw [storeAll, store_ok hoff]
      show storeAll e (xs.set off x) (off + 1) vals = _
      rw [ih (by rw [List.length_set]; omega), overwrite_set hoff]

end Snii.Lib.CheckedArray
