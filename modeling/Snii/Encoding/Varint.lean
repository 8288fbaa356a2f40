import Mathlib.Algebra.Order.Ring.Nat
import Mathlib.Tactic.Ring
import Snii.Common.Status

/-!
# Variable-length integers

`varint.cpp`: LEB128 groups of seven bits, least significant first, with the
high bit of a byte saying that another follows, and the zigzag map of signed
integers.  The encoder's loop is bounded by the ten bytes of its output buffer,
enough for every 64-bit value; the decoder keeps 64 bits of its accumulator.
-/

namespace Snii.Encoding.Varint

open Snii.Lib.ByteReader Snii.Common

/-- The encoder's loop with room for the given number of bytes. -/
def encodeVarintLoop : Nat → Nat → Bytes
  | 0, _ => []
  | room + 1, v =>
      if v ≥ 128 then UInt8.ofNat (v % 128 + 128) :: encodeVarintLoop room (v / 128)
      else [UInt8.ofNat v]

def encodeVarint64 (v : Nat) : Bytes := encodeVarintLoop 10 v

def varintLen (v : Nat) : Nat := (encodeVarint64 v).length

def encodeVarint32 (v : Nat) : Bytes := encodeVarint64 v

/-- The decoder's loop.  The groups occupy disjoint bits, so the sum is the
source's bitwise or. -/
def decodeVarintLoop : Nat → Nat → Bytes → Result (Nat × Bytes)
  | _, _, [] => .error (.corruption "varint truncated")
  | shift, acc, b :: rest =>
      let acc := (acc + b.toNat % 128 * 2 ^ shift) % 2 ^ 64
      if b.toNat < 128 then .ok (acc, rest)
      else if shift + 7 ≥ 64 then .error (.corruption "varint64 overflow")
      else decodeVarintLoop (shift + 7) acc rest

def decodeVarint64 (bytes : Bytes) : Result (Nat × Bytes) := decodeVarintLoop 0 0 bytes

def zigzagEncode (v : Int) : Nat :=
  if 0 ≤ v then 2 * v.toNat else 2 * (-v).toNat - 1

def zigzagDecode (v : Nat) : Int :=
  if v % 2 = 0 then (v / 2 : Nat) else -((v / 2 : Nat) : Int) - 1

/-! ## Round trips -/

private theorem decodeVarintLoop_encode (room shift acc : Nat) {v : Nat} (rest : Bytes)
    (hroom : v < 128 ^ room) (hpos : 0 < room) (hfit : acc + v * 2 ^ shift < 2 ^ 64) :
    decodeVarintLoop shift acc (encodeVarintLoop room v ++ rest) =
      .ok (acc + v * 2 ^ shift, rest) := by
  induction room generalizing v shift acc with
  | zero => omega
  | succ room ih =>
      rw [encodeVarintLoop]
      by_cases hv : v ≥ 128
      · rw [if_pos hv]
        have hsplit : v = v % 128 + 128 * (v / 128) := (Nat.mod_add_div v 128).symm
        have hdiv : 1 ≤ v / 128 := by omega
        have hroom' : v / 128 < 128 ^ room := by
          rw [Nat.pow_succ] at hroom
          exact Nat.div_lt_of_lt_mul (by omega)
        have hpos' : 0 < room := by
          rcases Nat.eq_zero_or_pos room with h0 | h0
          · subst h0
            simp at hroom'
            omega
          · exact h0
        have hval : v * 2 ^ shift = v % 128 * 2 ^ shift + v / 128 * 2 ^ (shift + 7) := by
          calc v * 2 ^ shift = (v % 128 + 128 * (v / 128)) * 2 ^ shift := by rw [← hsplit]
            _ = v % 128 * 2 ^ shift + v / 128 * 2 ^ (shift + 7) := by
                rw [Nat.pow_add]
                ring
        have hbyte : (UInt8.ofNat (v % 128 + 128)).toNat = v % 128 + 128 := by
          simp only [UInt8.toNat_ofNat', Nat.reducePow]
          omega
        have hshift : shift + 7 < 64 := by
          by_contra hge
          have h64 : 2 ^ 64 ≤ 2 ^ (shift + 7) := Nat.pow_le_pow_right (by omega) (by omega)
          have hle : 1 * 2 ^ (shift + 7) ≤ v / 128 * 2 ^ (shift + 7) :=
            Nat.mul_le_mul_right _ hdiv
          omega
        have hmod : (v % 128 + 128) % 128 = v % 128 := by omega
        rw [List.cons_append, decodeVarintLoop]
        simp only [hbyte, hmod]
        rw [if_neg (by omega), if_neg (by omega), Nat.mod_eq_of_lt (by omega),
          ih _ _ hroom' hpos' (by omega)]
        congr 2
        omega
      · rw [if_neg hv]
        have hbyte : (UInt8.ofNat v).toNat = v := by
          simp only [UInt8.toNat_ofNat', Nat.reducePow]
          omega
        have hmod : v % 128 = v := Nat.mod_eq_of_lt (by omega)
        rw [List.singleton_append, decodeVarintLoop]
        simp only [hbyte, hmod]
        rw [if_pos (by omega), Nat.mod_eq_of_lt hfit]

/-- The decoder returns every 64-bit value it was given and stops after it. -/
theorem decodeVarint64_encode {v : Nat} (h : v < 2 ^ 64) (rest : Bytes) :
    decodeVarint64 (encodeVarint64 v ++ rest) = .ok (v, rest) := by
  have hroom : v < 128 ^ 10 := Nat.lt_trans h (by decide)
  have := decodeVarintLoop_encode 10 0 0 rest hroom (by omega) (by simpa using h)
  simpa [decodeVarint64, encodeVarint64] using this

/-- Bytes that all announce another one never make a complete value. -/
theorem decodeVarintLoop_continuation {bs : Bytes} (h : ∀ b ∈ bs, 128 ≤ b.toNat)
    (shift acc : Nat) : ∃ s, decodeVarintLoop shift acc bs = .error s := by
  induction bs generalizing shift acc with
  | nil => exact ⟨_, rfl⟩
  | cons b bs ih =>
      have hb := h b (by simp)
      rw [decodeVarintLoop]
      rw [if_neg (by omega)]
      split
      · exact ⟨_, rfl⟩
      · exact ih (fun c hc => h c (by simp [hc])) _ _

private theorem encodeVarintLoop_continuation (room v : Nat) :
    ∀ b ∈ (encodeVarintLoop room v).dropLast, 128 ≤ b.toNat := by
  induction room generalizing v with
  | zero => simp [encodeVarintLoop]
  | succ room ih =>
      rw [encodeVarintLoop]
      split
      · intro b hb
        cases hrest : encodeVarintLoop room (v / 128) with
        | nil => rw [hrest] at hb; simp at hb
        | cons c cs =>
            rw [hrest, List.dropLast_cons_cons] at hb
            rcases List.mem_cons.mp hb with rfl | hb
            · simp only [UInt8.toNat_ofNat', Nat.reducePow]
              omega
            · exact ih (v / 128) b (by rw [hrest]; exact hb)
      · simp

/-- Every byte of an encoding but its last announces another one. -/
theorem encodeVarint64_continuation (v : Nat) :
    ∀ b ∈ (encodeVarint64 v).dropLast, 128 ≤ b.toNat :=
  encodeVarintLoop_continuation 10 v

theorem encodeVarintLoop_ne_nil {room : Nat} (h : 0 < room) (v : Nat) :
    encodeVarintLoop room v ≠ [] := by
  cases room with
  | zero => omega
  | succ room =>
      rw [encodeVarintLoop]
      split <;> simp

theorem encodeVarint64_ne_nil (v : Nat) : encodeVarint64 v ≠ [] :=
  encodeVarintLoop_ne_nil (by omega) v

private theorem encodeVarintLoop_length_le (room v : Nat) :
    (encodeVarintLoop room v).length ≤ room := by
  induction room generalizing v with
  | zero => simp [encodeVarintLoop]
  | succ room ih =>
      rw [encodeVarintLoop]
      split
      · simpa using ih (v / 128)
      · simp

theorem encodeVarint64_length_le (v : Nat) : (encodeVarint64 v).length ≤ 10 :=
  encodeVarintLoop_length_le 10 v

theorem zigzagDecode_encode (v : Int) : zigzagDecode (zigzagEncode v) = v := by
  unfold zigzagEncode zigzagDecode
  by_cases h : 0 ≤ v
  · rw [if_pos h, if_pos (by omega)]
    omega
  · rw [if_neg h, if_neg (by omega)]
    omega

theorem zigzagEncode_lt {v : Int} {n : Nat} (hlo : -(n : Int) ≤ v) (hhi : v < n) :
    zigzagEncode v < 2 * n := by
  unfold zigzagEncode
  split <;> omega

end Snii.Encoding.Varint
