import Snii.Encoding.CrcTables

/-!
# What the checksum detects

A byte string that ends in the little-endian checksum of what stands before it is
`Sealed`; the register runs over every sealed string into the same value
(`run_of_sealed`), so two sealed strings never differ in four consecutive bytes only
(`sealed_burst`), wherever the four bytes stand.
-/

namespace Snii.Encoding.Crc32c

open Snii.Lib.ByteReader Snii.Lib.ReflectedCrc

/-! ## Sealed strings -/

/-- The string ends in the checksum of what stands before. -/
def Sealed (data : Bytes) : Prop :=
  ∃ body tail, data = body ++ tail ∧ tail.length = 4 ∧ crc32c body = leValue tail

/-- **The residue**: the register runs over every sealed string into one value. -/
theorem run_of_sealed {data : Bytes} (h : Sealed data) :
    run kPoly (~~~ 0) data = (feed kPoly)^[4] (~~~ 0) := by
  obtain ⟨body, tail, rfl, hlen, hcrc⟩ := h
  have hword : word tail = ~~~ run kPoly (~~~ 0) body := by
    apply UInt32.toNat_inj.mp
    rw [toNat_word hlen.le, ← hcrc, crc32c, crc32cExtend, crc32cSlice8_eq_run]
  rw [run_append, run_word hlen.le, hlen, hword, UInt32.xor_not, UInt32.xor_self]

/-- **Bursts**: sealed strings that differ in four consecutive bytes at most are equal. -/
theorem sealed_burst {before x y after : Bytes} (hlen : x.length = y.length)
    (hfour : x.length ≤ 4) (hx : Sealed (before ++ x ++ after))
    (hy : Sealed (before ++ y ++ after)) : x = y := by
  have hpoly : 2 ^ 31 ≤ kPoly.toNat := by decide
  have hrun := (run_of_sealed hx).trans (run_of_sealed hy).symm
  simp only [run_append] at hrun
  exact run_inj hpoly hlen hfour (run_left_inj hpoly after hrun)

end Snii.Encoding.Crc32c
