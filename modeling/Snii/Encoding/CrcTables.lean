import Snii.Encoding.Crc32c
import Snii.Lib.ReflectedCrc

/-!
# The tables of the checksum

Column `s` of the derived tables is the register after the byte and `s` zero bytes
(`kSlice8_eq`), so that eight look-ups on a register mixed with eight bytes are eight
steps of one byte each (`crc32cSlice8_eq_run`), and those are 64 steps of one bit
(`crc32c_bitwise`).
-/

namespace Snii.Encoding.Crc32c

open Snii.Lib.ByteReader Snii.Lib.ReflectedCrc

/-! ## The columns -/

theorem tableByte_eq (i : UInt32) : tableByte i = feed kPoly i := rfl

theorem kSlice8_eq (s : Nat) (i : UInt32) : kSlice8 s i = (feed kPoly)^[s + 1] i := by
  induction s with
  | zero => rfl
  | succ s ih =>
      rw [Function.iterate_succ_apply', ← ih, kSlice8, tableByte_eq, ← feed_split]

/-! ## The slice-by-8 loop -/

theorem or_two_pow_mul {a i : Nat} (h : a < 2 ^ i) (b : Nat) : a ||| b * 2 ^ i = a + b * 2 ^ i := by
  rw [Nat.or_comm, Nat.mul_comm, ← Nat.two_pow_add_eq_or_of_lt h, Nat.add_comm]

theorem loadLe32_eq (b0 b1 b2 b3 : UInt8) : loadLe32 b0 b1 b2 b3 = word [b0, b1, b2, b3] := by
  have h0 := b0.toNat_lt
  have h1 := b1.toNat_lt
  have h2 := b2.toNat_lt
  have h3 := b3.toNat_lt
  have hshift : ∀ (b : UInt8) (k : UInt32) (n : Nat), k.toNat % 32 = n → b.toNat * 2 ^ n < 2 ^ 32 →
      (b.toUInt32 <<< k).toNat = b.toNat * 2 ^ n := by
    intro b k n hn hk
    rw [UInt32.toNat_shiftLeft, UInt8.toNat_toUInt32, Nat.shiftLeft_eq, hn, Nat.mod_eq_of_lt hk]
  have hs1 : (b1.toUInt32 <<< 8).toNat = b1.toNat * 2 ^ 8 := hshift b1 8 8 rfl (by omega)
  have hs2 : (b2.toUInt32 <<< 16).toNat = b2.toNat * 2 ^ 16 := hshift b2 16 16 rfl (by omega)
  have hs3 : (b3.toUInt32 <<< 24).toNat = b3.toNat * 2 ^ 24 := hshift b3 24 24 rfl (by omega)
  have hlen : [b0, b1, b2, b3].length ≤ 4 := Nat.le_refl 4
  apply UInt32.toNat_inj.mp
  rw [toNat_word hlen, loadLe32]
  simp only [UInt32.toNat_or, hs1, hs2, hs3, UInt8.toNat_toUInt32, leValue]
  rw [or_two_pow_mul (a := b0.toNat) (by omega)]
  rw [or_two_pow_mul (a := b0.toNat + b1.toNat * 2 ^ 8) (by omega)]
  rw [or_two_pow_mul (a := b0.toNat + b1.toNat * 2 ^ 8 + b2.toNat * 2 ^ 16) (by omega)]
  omega

/-- The last bytes, one at a time. -/
theorem foldl_eq_run (c : UInt32) (bs : Bytes) :
    bs.foldl (fun c b => kSlice8 0 ((c ^^^ b.toUInt32) &&& 0xFF) ^^^ (c >>> 8)) c =
      run kPoly c bs := by
  rw [run]
  congr 1
  funext c b
  exact (feed_byte c b).symm

/-- **The tables compute the register**: eight bytes at a time or one by one. -/
theorem crc32cSlice8_eq_run (c : UInt32) (bs : Bytes) : crc32cSlice8 c bs = run kPoly c bs := by
  fun_induction crc32cSlice8 c bs with
  | case1 crc b0 b1 b2 b3 b4 b5 b6 b7 rest lo hi ih =>
      have hlow := @iterate_feed_word kPoly 4 lo
      have hhigh := @iterate_feed_word kPoly 0 hi
      have hfirst : run kPoly crc [b0, b1, b2, b3] = (feed kPoly)^[4] lo := by
        have hlen : [b0, b1, b2, b3].length ≤ 4 := Nat.le_refl 4
        rw [run_word hlen, ← loadLe32_eq]
        rfl
      have hnext : run kPoly ((feed kPoly)^[4] lo) [b4, b5, b6, b7] =
          (feed kPoly)^[4 + 4] lo ^^^ (feed kPoly)^[0 + 4] hi := by
        have hlen : [b4, b5, b6, b7].length ≤ 4 := Nat.le_refl 4
        rw [run_word hlen, ← loadLe32_eq, iterate_feed_xor, Function.iterate_add_apply]
        rfl
      have hall : run kPoly crc (b0 :: b1 :: b2 :: b3 :: b4 :: b5 :: b6 :: b7 :: rest) =
          run kPoly (run kPoly (run kPoly crc [b0, b1, b2, b3]) [b4, b5, b6, b7]) rest := by
        rw [← run_append, ← run_append]
        exact congrArg (run kPoly crc) rfl
      rw [ih, hall, hfirst, hnext, hlow, hhigh]
      simp only [kSlice8_eq]
      congr 1
      ac_rfl
  | case2 crc bs h => exact foldl_eq_run crc bs

/-! ## The bit-by-bit checksum -/

theorem crc32cExtend_append (c : UInt32) (as bs : Bytes) :
    crc32cExtend (crc32cExtend c as) bs = crc32cExtend c (as ++ bs) := by
  simp only [crc32cExtend, crc32cSlice8_eq_run, UInt32.not_not, run_append]

/-- **The tables are right**: the slice-by-8 loop is the reflected Castagnoli register one
bit at a time, every column is the register after the byte and as many zero bytes as the
column's number, and a checksum may be taken in any two pieces. -/
theorem crc32c_bitwise (c : UInt32) (as bs : Bytes) :
    crc32cSlice8 c as = bitwise kPoly c as ∧
      (∀ s i, kSlice8 s i = bitwise kPoly i (List.replicate (s + 1) 0)) ∧
      crc32cExtend (crc32cExtend c as) bs = crc32cExtend c (as ++ bs) := by
  have hloop : crc32cSlice8 c as = bitwise kPoly c as := by
    rw [crc32cSlice8_eq_run, run_eq_bitwise]
  have hcolumns : ∀ s i, kSlice8 s i = bitwise kPoly i (List.replicate (s + 1) 0) := by
    intro s i
    rw [kSlice8_eq, ← run_replicate_zero, run_eq_bitwise]
  exact ⟨hloop, hcolumns, crc32cExtend_append c as bs⟩

/-- The bytes 0 to 31 of the repository's test vectors. -/
example : crc32c ((List.range 32).map UInt8.ofNat) = 0x46dd794e := by decide +kernel

end Snii.Encoding.Crc32c
