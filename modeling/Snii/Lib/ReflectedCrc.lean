import Mathlib.Logic.Function.Iterate
import Snii.Lib.ByteReader

/-!
# Reflected cyclic redundancy checks

A register of 32 bits that bytes are fed into, least significant bit first, over any
reflected polynomial.  One bit's step is linear over exclusive or, and injective when
the polynomial has its top bit, so that the effect of a difference never dies out; a
byte's step undoes a shift by one byte (`feed_shift`), so four bytes fed in a row act as
their little-endian word (`run_word`).  Feeding bytes is feeding their bits one at a time
(`run_eq_bitwise`).  The register after four or fewer bytes determines them (`run_inj`),
and bytes that follow cannot hide a difference (`run_left_inj`).
-/

namespace Snii.Lib.ReflectedCrc

open Snii.Lib.ByteReader

variable (poly : UInt32)

/-- One bit out of the register. -/
def bitStep (c : UInt32) : UInt32 := if c &&& 1 = 1 then poly ^^^ (c >>> 1) else c >>> 1

/-- Eight bits out of the register. -/
def feed (c : UInt32) : UInt32 :=
  bitStep poly (bitStep poly (bitStep poly (bitStep poly (bitStep poly (bitStep poly
    (bitStep poly (bitStep poly c)))))))

/-- Bytes fed one after the other. -/
def run (c : UInt32) (bs : Bytes) : UInt32 := bs.foldl (fun c b => feed poly (c ^^^ b.toUInt32)) c

variable {poly}

@[simp] theorem run_nil (c : UInt32) : run poly c [] = c := rfl

@[simp] theorem run_cons (c : UInt32) (b : UInt8) (bs : Bytes) :
    run poly c (b :: bs) = run poly (feed poly (c ^^^ b.toUInt32)) bs := rfl

theorem run_append (c : UInt32) (as bs : Bytes) :
    run poly c (as ++ bs) = run poly (run poly c as) bs := List.foldl_append

/-! ## Linearity -/

theorem and_one_cases (a : UInt32) : a &&& 1 = 0 ∨ a &&& 1 = 1 := by
  have hbit : (a &&& 1).toNat = a.toNat % 2 := by
    rw [UInt32.toNat_and]
    exact Nat.and_one_is_mod a.toNat
  rcases Nat.mod_two_eq_zero_or_one a.toNat with h | h
  · exact Or.inl (UInt32.toNat_inj.mp (hbit.trans h))
  · exact Or.inr (UInt32.toNat_inj.mp (hbit.trans h))

theorem xor_and_one (a b : UInt32) : (a ^^^ b) &&& 1 = (a &&& 1) ^^^ (b &&& 1) := by
  apply UInt32.toNat_inj.mp
  simp only [UInt32.toNat_and, UInt32.toNat_xor]
  exact Nat.and_xor_distrib_right

theorem bitStep_xor (a b : UInt32) :
    bitStep poly (a ^^^ b) = bitStep poly a ^^^ bitStep poly b := by
  unfold bitStep
  rw [xor_and_one, UInt32.shiftRight_xor]
  rcases and_one_cases a with ha | ha <;> rcases and_one_cases b with hb | hb <;>
    simp only [ha, hb, UInt32.zero_xor, UInt32.xor_zero, UInt32.xor_self, if_true,
      show (0 : UInt32) ≠ 1 by decide, if_false]
  · ac_rfl
  · ac_rfl
  · calc a >>> 1 ^^^ b >>> 1 = (poly ^^^ poly) ^^^ (a >>> 1 ^^^ b >>> 1) := by
          rw [UInt32.xor_self, UInt32.zero_xor]
      _ = (poly ^^^ a >>> 1) ^^^ (poly ^^^ b >>> 1) := by ac_rfl

theorem feed_xor (a b : UInt32) : feed poly (a ^^^ b) = feed poly a ^^^ feed poly b := by
  simp only [feed, bitStep_xor]

/-! ## Bit by bit -/

/-- One bit of a message: it enters at the low end and the register moves by one. -/
def feedBit (poly c : UInt32) (b : Bool) : UInt32 :=
  if ((c &&& 1 == 1) ^^ b) = true then (c >>> 1) ^^^ poly else c >>> 1

/-- The low bits of a word, least significant first. -/
def lowBits : Nat → UInt32 → List Bool
  | 0, _ => []
  | n + 1, x => (x &&& 1 == 1) :: lowBits n (x >>> 1)

/-- The bits of a message in the order in which they are fed. -/
def messageBits (bs : Bytes) : List Bool := bs.flatMap fun b => lowBits 8 b.toUInt32

/-- The checksum's register, one bit of the message at a time. -/
def bitwise (poly c : UInt32) (bs : Bytes) : UInt32 := (messageBits bs).foldl (feedBit poly) c

/-- One bit of a word that is mixed in at once: the rest of the word moves along. -/
theorem bitStep_xor_word (c x : UInt32) :
    bitStep poly (c ^^^ x) = feedBit poly c (x &&& 1 == 1) ^^^ (x >>> 1) := by
  unfold bitStep feedBit
  rw [xor_and_one, UInt32.shiftRight_xor]
  rcases and_one_cases c with hc | hc <;> rcases and_one_cases x with hx | hx <;>
    simp only [hc, hx, UInt32.zero_xor, UInt32.xor_zero, UInt32.xor_self, beq_self_eq_true,
      show ((0 : UInt32) == 1) = false by decide, Bool.xor_self, Bool.xor_false, Bool.xor_true,
      Bool.not_false, Bool.false_eq_true, if_true, if_false, show (0 : UInt32) ≠ 1 by decide]
  · ac_rfl
  · ac_rfl

/-- The steps of a word of `n` bits are those of its bits, one after the other. -/
theorem iterate_bitStep_word {n : Nat} {x : UInt32} (h : x.toNat < 2 ^ n) (c : UInt32) :
    (bitStep poly)^[n] (c ^^^ x) = (lowBits n x).foldl (feedBit poly) c := by
  induction n generalizing c x with
  | zero =>
      have hzero : x = 0 := by
        apply UInt32.toNat_inj.mp
        rw [UInt32.toNat_zero]
        omega
      rw [hzero, UInt32.xor_zero]
      rfl
  | succ n ih =>
      have hshift : (x >>> 1).toNat < 2 ^ n := by
        have hhalf : (x >>> 1).toNat = x.toNat / 2 := by
          rw [UInt32.toNat_shiftRight]
          exact Nat.shiftRight_eq_div_pow _ _
        rw [Nat.pow_succ] at h
        omega
      rw [Function.iterate_succ_apply, bitStep_xor_word, ih hshift]
      rfl

/-- **Bytes or bits**: feeding the bytes is feeding their bits. -/
theorem run_eq_bitwise (c : UInt32) (bs : Bytes) : run poly c bs = bitwise poly c bs := by
  induction bs generalizing c with
  | nil => rfl
  | cons b bs ih =>
      have hlt : b.toUInt32.toNat < 2 ^ 8 := by
        rw [UInt8.toNat_toUInt32]
        exact b.toNat_lt
      have hbyte : feed poly (c ^^^ b.toUInt32) = (lowBits 8 b.toUInt32).foldl (feedBit poly) c :=
        @iterate_bitStep_word poly 8 b.toUInt32 hlt c
      rw [run_cons, ih, hbyte, bitwise, bitwise, messageBits, messageBits, List.flatMap_cons,
        List.foldl_append]

/-- Zero bytes only move the register. -/
theorem run_replicate_zero (n : Nat) (c : UInt32) :
    run poly c (List.replicate n 0) = (feed poly)^[n] c := by
  induction n generalizing c with
  | zero => rfl
  | succ n ih =>
      rw [List.replicate_succ, run_cons, ih, Function.iterate_succ_apply]
      congr 2
      exact UInt32.xor_zero

/-! ## Injectivity -/

theorem bitStep_eq_zero (hpoly : 2 ^ 31 ≤ poly.toNat) {c : UInt32} (h : bitStep poly c = 0) :
    c = 0 := by
  have hshift : (c >>> 1).toNat = c.toNat / 2 := by
    rw [UInt32.toNat_shiftRight]
    exact Nat.shiftRight_eq_div_pow _ _
  have hbit : (c &&& 1).toNat = c.toNat % 2 := by
    rw [UInt32.toNat_and]
    exact Nat.and_one_is_mod c.toNat
  have hlt := c.toNat_lt
  unfold bitStep at h
  by_cases hodd : c &&& 1 = 1
  · -- the polynomial has a bit that the shifted register lacks
    rw [if_pos hodd, UInt32.xor_eq_zero_iff] at h
    rw [h, hshift] at hpoly
    omega
  · rw [if_neg hodd] at h
    have heven : c &&& 1 = 0 := (and_one_cases c).resolve_right hodd
    rw [heven] at hbit
    rw [h] at hshift
    apply UInt32.toNat_inj.mp
    simp only [UInt32.toNat_zero] at hshift hbit ⊢
    omega

theorem bitStep_inj (hpoly : 2 ^ 31 ≤ poly.toNat) {a b : UInt32}
    (h : bitStep poly a = bitStep poly b) : a = b := by
  apply UInt32.xor_eq_zero_iff.mp
  apply bitStep_eq_zero hpoly
  rw [bitStep_xor, h, UInt32.xor_self]

theorem feed_inj (hpoly : 2 ^ 31 ≤ poly.toNat) {a b : UInt32} (h : feed poly a = feed poly b) :
    a = b := by
  unfold feed at h
  iterate 8 apply bitStep_inj hpoly at h
  exact h

/-- **Bytes that follow cannot hide a difference** of two registers. -/
theorem run_left_inj (hpoly : 2 ^ 31 ≤ poly.toNat) {c c' : UInt32} (bs : Bytes)
    (h : run poly c bs = run poly c' bs) : c = c' := by
  induction bs generalizing c c' with
  | nil => exact h
  | cons b bs ih =>
      rw [run_cons, run_cons] at h
      exact (UInt32.xor_left_inj b.toUInt32).mp (feed_inj hpoly (ih h))

/-! ## Words -/

/-- The register as its last byte leaves: nothing of the polynomial gets in. -/
theorem bitStep_even {c : UInt32} {n : Nat} (h : c.toNat = 2 * n) : (bitStep poly c).toNat = n := by
  have hbit : (c &&& 1).toNat = c.toNat % 2 := by
    rw [UInt32.toNat_and]
    exact Nat.and_one_is_mod c.toNat
  have hne : ¬ c &&& 1 = 1 := by
    intro hodd
    rw [hodd, h] at hbit
    simp at hbit
  rw [bitStep, if_neg hne, UInt32.toNat_shiftRight, h]
  show (2 * n) >>> 1 = n
  rw [Nat.shiftRight_eq_div_pow]
  omega

theorem toNat_shiftLeft_eight {c : UInt32} (h : c.toNat < 2 ^ 24) :
    (c <<< 8).toNat = 256 * c.toNat := by
  rw [UInt32.toNat_shiftLeft]
  show c.toNat <<< 8 % 2 ^ 32 = 256 * c.toNat
  rw [Nat.shiftLeft_eq]
  omega

/-- **A byte's step undoes a shift** by one byte. -/
theorem feed_shift {c : UInt32} (h : c.toNat < 2 ^ 24) : feed poly (c <<< 8) = c := by
  have hshift := toNat_shiftLeft_eight h
  apply UInt32.toNat_inj.mp
  unfold feed
  iterate 8 apply bitStep_even
  omega

/-- Up to four bytes as a little-endian word. -/
def word (bs : Bytes) : UInt32 := UInt32.ofNat (leValue bs)

theorem toNat_word {bs : Bytes} (h : bs.length ≤ 4) : (word bs).toNat = leValue bs := by
  have hlt := leValue_lt bs
  have hle : 256 ^ bs.length ≤ 256 ^ 4 := Nat.pow_le_pow_right (by decide) h
  rw [word, UInt32.toNat_ofNat']
  apply Nat.mod_eq_of_lt
  omega

theorem toNat_word_lt {bs : Bytes} (h : bs.length ≤ 3) : (word bs).toNat < 2 ^ 24 := by
  have hlt := leValue_lt bs
  have hle : 256 ^ bs.length ≤ 256 ^ 3 := Nat.pow_le_pow_right (by decide) h
  rw [toNat_word (Nat.le_succ_of_le h)]
  omega

/-- Disjoint bits: exclusive or is a sum. -/
theorem xor_two_pow_mul {a i : Nat} (h : a < 2 ^ i) (b : Nat) :
    a ^^^ 2 ^ i * b = a + 2 ^ i * b := by
  rw [Nat.add_comm, Nat.two_pow_add_eq_or_of_lt h]
  apply Nat.eq_of_testBit_eq
  intro j
  rw [Nat.testBit_xor, Nat.testBit_or, Nat.testBit_two_pow_mul]
  by_cases hj : i ≤ j
  · have hzero : a.testBit j = false :=
      Nat.testBit_lt_two_pow (Nat.lt_of_lt_of_le h (Nat.pow_le_pow_right (by decide) hj))
    simp [hzero]
  · simp [hj]

theorem word_cons (b : UInt8) {bs : Bytes} (h : bs.length ≤ 3) :
    word (b :: bs) = b.toUInt32 ^^^ (word bs <<< 8) := by
  have hlen : (b :: bs).length ≤ 4 := by
    rw [List.length_cons]
    omega
  apply UInt32.toNat_inj.mp
  rw [toNat_word hlen, UInt32.toNat_xor, toNat_shiftLeft_eight (toNat_word_lt h),
    toNat_word (Nat.le_succ_of_le h), leValue, UInt8.toNat_toUInt32]
  exact (xor_two_pow_mul b.toNat_lt (leValue bs)).symm

theorem iterate_feed_xor (n : Nat) (a b : UInt32) :
    (feed poly)^[n] (a ^^^ b) = (feed poly)^[n] a ^^^ (feed poly)^[n] b := by
  induction n generalizing a b with
  | zero => rfl
  | succ n ih => rw [Function.iterate_succ_apply, feed_xor, ih]; rfl

/-- **Four bytes or fewer** act on the register as their word. -/
theorem run_word {bs : Bytes} (h : bs.length ≤ 4) (c : UInt32) :
    run poly c bs = (feed poly)^[bs.length] (c ^^^ word bs) := by
  induction bs generalizing c with
  | nil => exact UInt32.xor_zero.symm
  | cons b bs ih =>
      have hlen : bs.length ≤ 3 := Nat.le_of_succ_le_succ h
      rw [run_cons, ih (Nat.le_of_succ_le h), List.length_cons, Function.iterate_succ_apply,
        word_cons b hlen, ← UInt32.xor_assoc, feed_xor (c ^^^ b.toUInt32),
        feed_shift (toNat_word_lt hlen)]

/-! ## Byte tables -/

theorem toNat_shiftRight_eight (c : UInt32) : (c >>> 8).toNat = c.toNat / 2 ^ 8 := by
  rw [UInt32.toNat_shiftRight]
  exact Nat.shiftRight_eq_div_pow _ _

/-- The low byte, and the rest shifted back. -/
theorem split_low (c : UInt32) : (c &&& (0xFF : UInt32)) ^^^ ((c >>> 8) <<< 8) = c := by
  have hlt := c.toNat_lt
  have hlow : (c &&& 0xFF).toNat = c.toNat % 2 ^ 8 := by
    rw [UInt32.toNat_and]
    exact Nat.and_two_pow_sub_one_eq_mod c.toNat 8
  have hhigh := toNat_shiftRight_eight c
  apply UInt32.toNat_inj.mp
  rw [UInt32.toNat_xor, toNat_shiftLeft_eight (by omega), hlow, hhigh]
  exact (xor_two_pow_mul (Nat.mod_lt _ (by decide)) _).trans (Nat.mod_add_div c.toNat (2 ^ 8))

/-- A step needs the table's entry for the low byte only. -/
theorem feed_split (c : UInt32) : feed poly c = feed poly (c &&& 0xFF) ^^^ (c >>> 8) := by
  have hlt := c.toNat_lt
  have hhigh := toNat_shiftRight_eight c
  have hshift : feed poly ((c >>> 8) <<< 8) = c >>> 8 := feed_shift (by omega)
  conv_lhs => rw [← split_low c]
  rw [feed_xor, hshift]

theorem feed_byte (c : UInt32) (b : UInt8) :
    feed poly (c ^^^ b.toUInt32) = feed poly ((c ^^^ b.toUInt32) &&& 0xFF) ^^^ (c >>> 8) := by
  have hb : b.toUInt32 >>> 8 = 0 := by
    have hlt := b.toNat_lt
    apply UInt32.toNat_inj.mp
    rw [toNat_shiftRight_eight, UInt8.toNat_toUInt32]
    exact Nat.div_eq_of_lt hlt
  rw [feed_split, UInt32.shiftRight_xor, hb, UInt32.xor_zero]

theorem iterate_feed_split (n : Nat) (c : UInt32) :
    (feed poly)^[n + 1] c = (feed poly)^[n + 1] (c &&& 0xFF) ^^^ (feed poly)^[n] (c >>> 8) := by
  rw [Function.iterate_succ_apply, feed_split, iterate_feed_xor, Function.iterate_succ_apply]

/-- **A word at a time**: one table look-up for each byte, each further in the future. -/
theorem iterate_feed_word (n : Nat) (c : UInt32) :
    (feed poly)^[n + 4] c =
      (feed poly)^[n + 4] (c &&& 0xFF) ^^^ (feed poly)^[n + 3] ((c >>> 8) &&& 0xFF) ^^^
        (feed poly)^[n + 2] ((c >>> 16) &&& 0xFF) ^^^ (feed poly)^[n + 1] (c >>> 24) := by
  have h16 : c >>> 8 >>> 8 = c >>> 16 := by
    apply UInt32.toNat_inj.mp
    simp only [UInt32.toNat_shiftRight, ← Nat.shiftRight_add]
    rfl
  have h24 : c >>> 16 >>> 8 = c >>> 24 := by
    apply UInt32.toNat_inj.mp
    simp only [UInt32.toNat_shiftRight, ← Nat.shiftRight_add]
    rfl
  rw [iterate_feed_split (n + 3) c, iterate_feed_split (n + 2) (c >>> 8), h16,
    iterate_feed_split (n + 1) (c >>> 16), h24]
  ac_rfl

theorem leValue_inj {as bs : Bytes} (hlen : as.length = bs.length) (h : leValue as = leValue bs) :
    as = bs := by
  induction as generalizing bs with
  | nil => exact (List.eq_nil_of_length_eq_zero hlen.symm).symm
  | cons a as ih =>
      cases bs with
      | nil => cases hlen
      | cons b bs =>
          have ha := a.toNat_lt
          have hb := b.toNat_lt
          simp only [leValue] at h
          have hhead : a = b := UInt8.toNat_inj.mp (by omega)
          rw [hhead, ih (Nat.succ.inj hlen) (by omega)]

/-- **Up to four bytes are determined** by the register after them. -/
theorem run_inj (hpoly : 2 ^ 31 ≤ poly.toNat) {c : UInt32} {as bs : Bytes}
    (hlen : as.length = bs.length) (hfour : as.length ≤ 4) (h : run poly c as = run poly c bs) :
    as = bs := by
  have hinj : Function.Injective (feed poly)^[as.length] :=
    Function.Injective.iterate (fun _ _ => feed_inj hpoly) as.length
  rw [run_word hfour, run_word (hlen ▸ hfour), ← hlen] at h
  have hword : word as = word bs := (UInt32.xor_right_inj c).mp (hinj h)
  apply leValue_inj hlen
  rw [← toNat_word hfour, ← toNat_word (hlen ▸ hfour), hword]

end Snii.Lib.ReflectedCrc
