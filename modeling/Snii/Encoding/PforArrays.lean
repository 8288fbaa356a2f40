import Snii.Encoding.ByteCursor
import Snii.Encoding.Pfor

/-!
# Packed values, index by index

`bitunpack` and `pfor_decode` of `pfor.cpp` as they fill the caller's array: every byte
of the source and of the packed run and every slot of the array is reached through a
checked index.  The array ends up holding the values that the list form returns
(`simulates_pforDecodeInto`), so no index leaves its array, whatever the width byte and
the exceptions say.
-/

namespace Snii.Encoding.Pfor

open Snii.Lib.ByteReader Snii.Lib.CheckedArray Snii.Common
open Snii.Encoding.ByteCursor (Cursor Simulates)

/-! ## The loops -/

/-- The fast loop; it returns the first index it did not reach. -/
def unpackFastInto (w : Nat) (base : Bytes) (off : Nat) :
    Nat → Nat → List Nat → Result (Nat × List Nat)
  | 0, i, out => .ok (i, out)
  | n + 1, i, out =>
      if w * i / 8 > base.length - 8 then .ok (i, out)
      else do
        let word ← loadU64Le base (w * i / 8)
        let out ← store .outOfBounds out (off + i) (extractBits w (w * i) word)
        unpackFastInto w base off n (i + 1) out

/-- At most eight bytes from an offset on, up to the end of the run. -/
def gatherWord (base : Bytes) (byteOff : Nat) : Nat → Nat → Nat → Result Nat
  | 0, _, word => .ok word
  | n + 1, k, word =>
      if byteOff + k < base.length then do
        let b ← load .outOfBounds base (byteOff + k)
        gatherWord base byteOff n (k + 1) (word + b.toNat * 256 ^ k)
      else .ok word

def unpackTailInto (w : Nat) (base : Bytes) (off : Nat) :
    Nat → Nat → List Nat → Result (List Nat)
  | 0, _, out => .ok out
  | n + 1, i, out => do
      let word ← gatherWord base (w * i / 8) 8 0 0
      let out ← store .outOfBounds out (off + i) (extractBits w (w * i) word)
      unpackTailInto w base off n (i + 1) out

def bitunpackInto (n w off : Nat) (out : List Nat) : Cursor (List Nat) :=
  if w = 0 then Cursor.lift (storeAll .outOfBounds out off (List.replicate n 0))
  else do
    let base ← ByteCursor.getBytes ((w * n + 7) / 8)
    let fast ←
      Cursor.lift (if base.length ≥ 8 then unpackFastInto w base off n 0 out else .ok (0, out))
    Cursor.lift (unpackTailInto w base off (n - fast.1) fast.1 fast.2)

/-- Overwrites the exceptions of the run. -/
def patchInto (n off : Nat) : Nat → Nat → List Nat → Cursor (List Nat)
  | 0, _, out => pure out
  | k + 1, idx, out => do
      let d ← ByteCursor.getVarint32
      let val ← ByteCursor.getVarint32
      let idx := (idx + d) % 2 ^ 32
      if idx ≥ n then throw (.corruption "pfor exception index out of range")
      else do
        let out ← Cursor.lift (store .outOfBounds out (off + idx) val)
        patchInto n off k idx out

/-- `pfor_decode` into the caller's array, from the offset on. -/
def pforDecodeInto (n off : Nat) (out : List Nat) : Cursor (List Nat) := do
  let w ← ByteCursor.getU8
  let nExc ← ByteCursor.getVarint32
  let out ← bitunpackInto n w off out
  patchInto n off nExc 0 out

/-! ## The fast loop -/

theorem unpackFast_ok {base : Bytes} (h8 : 8 ≤ base.length) (w n i : Nat) :
    ∃ vals, unpackFast w base n i = .ok vals ∧ vals.length ≤ n := by
  induction n generalizing i with
  | zero => exact ⟨[], rfl, Nat.le_refl 0⟩
  | succ n ih =>
      rw [unpackFast]
      by_cases hend : w * i / 8 > base.length - 8
      · exact ⟨[], by rw [if_pos hend], Nat.zero_le _⟩
      · obtain ⟨vals, hvals, hlen⟩ := ih (i + 1)
        refine ⟨extractBits w (w * i) (leValue ((base.drop (w * i / 8)).take 8)) :: vals, ?_,
          Nat.succ_le_succ hlen⟩
        rw [if_neg hend, loadU64Le, if_neg (by omega), ok_bind, hvals, ok_bind]
        rfl

/-- The values of the fast loop, where there is room for one. -/
theorem fast_ok (w n : Nat) (base : Bytes) :
    ∃ vals, (if base.length ≥ 8 then unpackFast w base n 0 else .ok []) = .ok vals ∧
      vals.length ≤ n := by
  by_cases h8 : base.length ≥ 8
  · rw [if_pos h8]
    exact unpackFast_ok h8 w n 0
  · rw [if_neg h8]
    exact ⟨[], rfl, Nat.zero_le n⟩

/-! ## The array holds the values -/

variable {n w off : Nat} {base : Bytes} {out arr : List Nat}

@[simp] theorem length_unpackTail (w : Nat) (base : Bytes) (n i : Nat) :
    (unpackTail w base n i).length = n := by
  induction n generalizing i with
  | zero => rfl
  | succ n ih => rw [unpackTail, List.length_cons, ih]

theorem unpackFastInto_eq (h8 : 8 ≤ base.length) {i : Nat} (hout : off + i + n ≤ out.length)
    {vals : List Nat} (hvals : unpackFast w base n i = .ok vals) :
    unpackFastInto w base off n i out =
      .ok (i + vals.length, overwrite out (off + i) vals) := by
  induction n generalizing i out vals with
  | zero =>
      cases hvals
      rw [unpackFastInto, overwrite_nil]
      rfl
  | succ n ih =>
      rw [unpackFast] at hvals
      rw [unpackFastInto]
      by_cases hend : w * i / 8 > base.length - 8
      · rw [if_pos hend] at hvals
        cases hvals
        rw [if_pos hend, overwrite_nil]
        rfl
      · rw [if_neg hend, loadU64Le, if_neg (by omega), ok_bind] at hvals
        obtain ⟨rest, hrest, hcons⟩ := bind_eq_ok hvals
        cases hcons
        rw [if_neg hend, loadU64Le, if_neg (by omega), ok_bind, store_ok (by omega), ok_bind,
          ih (by rw [List.length_set]; omega) hrest, ← Nat.add_assoc off,
          overwrite_set (by omega), List.length_cons]
        congr 2
        omega

theorem gatherWord_eq (base : Bytes) (byteOff n k word : Nat) :
    gatherWord base byteOff n k word =
      .ok (orBytes k word ((base.drop (byteOff + k)).take n)) := by
  induction n generalizing k word with
  | zero => rfl
  | succ n ih =>
      rw [gatherWord]
      by_cases hend : byteOff + k < base.length
      · rw [if_pos hend, load_ok hend, ok_bind, ih, List.drop_eq_getElem_cons hend,
          List.take_succ_cons, orBytes, Nat.add_assoc]
      · rw [if_neg hend, List.drop_eq_nil_of_le (by omega), List.take_nil, orBytes]

theorem unpackTailInto_eq {i : Nat} (hout : off + i + n ≤ out.length) :
    unpackTailInto w base off n i out =
      .ok (overwrite out (off + i) (unpackTail w base n i)) := by
  induction n generalizing i out with
  | zero => rw [unpackTailInto, unpackTail, overwrite_nil]
  | succ n ih =>
      rw [unpackTailInto, gatherWord_eq, ok_bind, store_ok (by omega), ok_bind,
        ih (by rw [List.length_set]; omega), ← Nat.add_assoc, overwrite_set (by omega),
        unpackTail]
      rfl

/-- The array with the run's `n` values written over from the offset on. -/
structure Holds (out : List Nat) (off n : Nat) (arr vals : List Nat) : Prop where
  eq : arr = overwrite out off vals
  length : vals.length = n

/-- **Unpacking fills its part** of the array and no other slot. -/
theorem simulates_bitunpackInto (w : Nat) (hout : off + n ≤ out.length) :
    Simulates (Holds out off n) (bitunpackInto n w off out) (bitunpack n w) := by
  rw [bitunpackInto, bitunpack]
  apply Simulates.ite
  · intro _
    rw [storeAll_ok (by rwa [List.length_replicate])]
    exact Simulates.pure ⟨rfl, List.length_replicate⟩
  · intro _
    apply (ByteCursor.simulates_getBytes _).bind
    rintro base _ rfl
    obtain ⟨vals, hvals, hlen⟩ := fast_ok w n base
    have hinto : (if base.length ≥ 8 then unpackFastInto w base off n 0 out else .ok (0, out)) =
        .ok (vals.length, overwrite out off vals) := by
      by_cases h8 : base.length ≥ 8
      · rw [if_pos h8] at hvals
        rw [if_pos h8, unpackFastInto_eq h8 (by omega) hvals, Nat.zero_add, Nat.add_zero]
      · rw [if_neg h8] at hvals
        cases hvals
        rw [if_neg h8, overwrite_nil]
        rfl
    have htail := @unpackTailInto_eq (n - vals.length) w off base (overwrite out off vals)
      vals.length (by rw [length_overwrite (by omega)]; omega)
    rw [overwrite_overwrite (by omega)] at htail
    rw [hinto, hvals]
    have hfast : Simulates (fun fast vals' => fast = (vals.length, overwrite out off vals) ∧
        vals' = vals) (Cursor.lift (.ok (vals.length, overwrite out off vals)))
        (StateT.lift (.ok vals) : Source (List Nat)) :=
      Simulates.pure ⟨rfl, rfl⟩
    apply hfast.bind
    rintro _ _ ⟨rfl, rfl⟩
    rw [htail]
    apply Simulates.pure
    exact ⟨rfl, by rw [List.length_append, length_unpackTail]; omega⟩

/-- **Exceptions stay inside the run.** -/
theorem simulates_patchInto (hout : off + n ≤ out.length) (k idx : Nat) {vals : List Nat}
    (h : Holds out off n arr vals) :
    Simulates (Holds out off n) (patchInto n off k idx arr) (patch k idx vals) := by
  induction k generalizing idx arr vals with
  | zero => exact Simulates.pure h
  | succ k ih =>
      have hlen := h.length
      rw [patchInto, patch]
      apply ByteCursor.simulates_getVarint32.bind
      rintro d _ rfl
      apply ByteCursor.simulates_getVarint32.bind
      rintro val _ rfl
      by_cases hidx : (idx + d) % 2 ^ 32 ≥ n
      · rw [if_pos hidx, if_pos (by omega)]
        exact Simulates.throw _
      · have hstore : store .outOfBounds arr (off + (idx + d) % 2 ^ 32) val =
            (.ok (overwrite out off (vals.set ((idx + d) % 2 ^ 32) val)) : Result (List Nat)) := by
          rw [h.eq, store_ok (by rw [length_overwrite (by omega)]; omega),
            set_overwrite (by omega) (by omega)]
        rw [if_neg hidx, if_neg (by omega), hstore]
        exact ih _ ⟨rfl, by rw [List.length_set, hlen]⟩

/-- **The array form is the list form**: `pfor_decode` stores the run's values from the
offset on. -/
theorem simulates_pforDecodeInto (hout : off + n ≤ out.length) :
    Simulates (Holds out off n) (pforDecodeInto n off out) (pforDecode n) := by
  apply ByteCursor.simulates_getU8.bind
  rintro w _ rfl
  apply ByteCursor.simulates_getVarint32.bind
  rintro nExc _ rfl
  apply (simulates_bitunpackInto w hout).bind
  intro arr vals h
  exact simulates_patchInto hout nExc 0 h

/-! ## Every width, both paths -/

/-- Wherever the fast loop takes a value, the tail loop would take the same one. -/
theorem unpackFast_eq_tail {w : Nat} (hw : w ≤ 32) {base : Bytes} (h8 : 8 ≤ base.length)
    (n i : Nat) : ∃ k ≤ n, unpackFast w base n i = .ok (unpackTail w base k i) := by
  obtain ⟨k, hk, hfast⟩ := unpackFast_spec hw h8 n i
  exact ⟨k, hk, by rw [hfast, unpackTail_spec hw]⟩

/-- One value by one load, and the same value byte by byte. -/
theorem unpackFast_one {w : Nat} (hw : w ≤ 32) {base : Bytes} (h8 : 8 ≤ base.length) {i : Nat}
    (hi : w * i / 8 ≤ base.length - 8) :
    unpackFast w base 1 i = .ok (unpackTail w base 1 i) := by
  rw [unpackFast, if_neg (Nat.not_lt.mpr hi), loadU64Le, if_neg (by omega), ok_bind,
    extractBits_eq hw base (w * i), unpackTail_spec hw]
  rfl

/-- The two loops in a row are the tail loop alone. -/
theorem bitunpack_eq_tail {w : Nat} (hpos : w ≠ 0) (hw : w ≤ 32) (n : Nat) :
    bitunpack n w =
      (ByteSource.getBytes ((w * n + 7) / 8) >>= fun base => pure (unpackTail w base n 0)) := by
  rw [bitunpack, if_neg hpos]
  congr 1
  funext base
  by_cases h8 : base.length ≥ 8
  · obtain ⟨k, hk, hfast⟩ := unpackFast_eq_tail hw h8 n 0
    have happ := @List.range'_append_1 0 k (n - k)
    rw [Nat.zero_add, Nat.add_sub_cancel' hk] at happ
    rw [if_pos h8, hfast]
    funext rest
    show Except.ok (_, rest) = Except.ok (_, rest)
    rw [length_unpackTail, unpackTail_spec hw, unpackTail_spec hw, unpackTail_spec hw,
      ← List.map_append, happ]
  · rw [if_neg h8]
    rfl

/-- **A run of any values packs and unpacks at any width**, the chosen one among them: it
takes exactly the encoded bytes, whatever follows.  Wherever a value is taken by an eight-byte
load, the zero-padded loop takes the same value, for packed bytes of any length. -/
theorem pfor_roundTrip {vs : List Nat} (hvs : ∀ v ∈ vs, v < 2 ^ 32) (hlen : vs.length < 2 ^ 32)
    (rest : Bytes) :
    (pforDecode vs.length).run (pforEncode vs ++ rest) = .ok (vs, rest) ∧
      chooseWidth vs ≤ 32 ∧
      (∀ w ≤ 32, (pforDecode vs.length).run (pforEncodeAt w vs ++ rest) = .ok (vs, rest)) ∧
      ∀ w, 1 ≤ w → w ≤ 32 →
        (∀ base : Bytes, 8 ≤ base.length →
          (∀ i, w * i / 8 ≤ base.length - 8 →
            unpackFast w base 1 i = .ok (unpackTail w base 1 i)) ∧
          ∀ n i, ∃ k ≤ n, unpackFast w base n i = .ok (unpackTail w base k i)) ∧
        ∀ n, bitunpack n w =
          (ByteSource.getBytes ((w * n + 7) / 8) >>= fun base => pure (unpackTail w base n 0)) := by
  refine ⟨reads_pforEncode hvs hlen rest, chooseWidth_le vs,
    fun w hw => reads_pforEncodeAt hw hvs hlen rest, ?_⟩
  intro w hpos hw
  refine ⟨?_, bitunpack_eq_tail (Nat.ne_of_gt hpos) hw⟩
  intro base h8
  exact ⟨fun i hi => unpackFast_one hw h8 hi, unpackFast_eq_tail hw h8⟩

/-- Two bits a value and one exception, at the chosen width and at 17 bits. -/
theorem pfor_roundTrip_exception :
    let vs := [3, 1, 2, 3, 0, 1, 2, 3, 3, 1, 2, 100000]
    chooseWidth vs = 2 ∧ exceptions 2 0 vs = [(11, 100000)] ∧
      (pforDecode 12).run (pforEncode vs ++ [7]) = .ok (vs, [7]) ∧
      (pforDecode 12).run (pforEncodeAt 17 vs ++ [7]) = .ok (vs, [7]) := by
  have hvs : ∀ v ∈ [3, 1, 2, 3, 0, 1, 2, 3, 3, 1, 2, 100000], v < 2 ^ 32 := by decide
  have h := @pfor_roundTrip [3, 1, 2, 3, 0, 1, 2, 3, 3, 1, 2, 100000] hvs (by decide) [7]
  exact ⟨by decide, by decide, h.1, h.2.2.1 17 (by decide)⟩

/-! ## No index leaves its array -/

theorem avoids_bitunpack (n w : Nat) : Avoids (bitunpack n w) .outOfBounds := by
  rw [bitunpack]
  apply Avoids.ite
  · exact Avoids.pure _
  · refine (ByteSource.avoids_getBytes _).bind fun base => ?_
    obtain ⟨vals, hvals, -⟩ := fast_ok w n base
    rw [hvals]
    exact (Avoids.lift (by simp)).bind fun fast => Avoids.pure _

theorem avoids_patch (k idx : Nat) (out : List Nat) : Avoids (patch k idx out) .outOfBounds := by
  induction k generalizing idx out with
  | zero => exact Avoids.pure _
  | succ k ih =>
      rw [patch]
      refine ByteSource.avoids_getVarint32.bind fun d =>
        ByteSource.avoids_getVarint32.bind fun val => ?_
      exact Avoids.ite (Avoids.throw (by simp)) (ih _ _)

theorem avoids_pforDecode (n : Nat) : Avoids (pforDecode n) .outOfBounds :=
  ByteSource.avoids_getU8.bind fun w => ByteSource.avoids_getVarint32.bind fun nExc =>
    (avoids_bitunpack n w).bind fun out => avoids_patch nExc 0 out

end Snii.Encoding.Pfor
