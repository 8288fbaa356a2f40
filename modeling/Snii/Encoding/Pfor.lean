import Snii.Encoding.ByteSource

/-!
# Patched frame of reference

`pfor.cpp`: a run of 32-bit values is stored as the low `w` bits of each,
packed, and a table of the values that need more than `w` bits.  The width is
the one that makes the estimated size least.

`bitunpack` reads most values by one 8-byte load and the last few byte by byte;
`loadU64Le` is an error when the eight bytes are not all there.
-/

namespace Snii.Encoding.Pfor

open Snii.Lib.ByteReader Snii.Common Snii.Encoding.ByteSource

/-! ## Encoding -/

/-- The shift loop of `bits_for`, at most `fuel` times. -/
def bitsForLoop : Nat → Nat → Nat
  | 0, _ => 0
  | fuel + 1, v => if v = 0 then 0 else bitsForLoop fuel (v / 2) + 1

def bitsFor (v : Nat) : Nat := bitsForLoop 32 v

/-- Packed bytes plus six for each exception. -/
def widthCost (vs : List Nat) (w : Nat) : Nat :=
  (w * vs.length + 7) / 8 + vs.countP (fun v => bitsFor v > w) * 6

/-- The first width of least cost, up to that of the widest value. -/
def chooseWidth (vs : List Nat) : Nat :=
  let maxw := (vs.map bitsFor).foldl max 0
  ((List.range (maxw + 1)).foldl
    (fun best w => if widthCost vs w < best.2 then (w, widthCost vs w) else best)
    (maxw, 2 ^ 64 - 1)).1

/-- The bits `low_mask` keeps. -/
def maskBits (w : Nat) : Nat := min w 32

/-- The packing loop.  The accumulator holds `filled` pending bits, fewer than
eight between two values; whole bytes leave it at once. -/
def bitpackLoop (w : Nat) : Nat → Nat → List Nat → Bytes
  | acc, filled, [] => if filled > 0 then putU8 acc else []
  | acc, filled, v :: vs =>
      let acc := acc + v % 2 ^ maskBits w * 2 ^ filled
      let filled := filled + w
      leBytes (filled / 8) acc ++ bitpackLoop w (acc / 256 ^ (filled / 8)) (filled % 8) vs

def bitpack (vs : List Nat) (w : Nat) : Bytes :=
  if w = 0 then [] else bitpackLoop w 0 0 vs

/-- Positions and values that do not fit the width. -/
def exceptions (w : Nat) : Nat → List Nat → List (Nat × Nat)
  | _, [] => []
  | i, v :: vs =>
      if bitsFor v > w then (i, v) :: exceptions w (i + 1) vs else exceptions w (i + 1) vs

/-- The packed values, with a zero in place of each exception. -/
def lowValues (w : Nat) (vs : List Nat) : List Nat :=
  vs.map fun v => if bitsFor v > w then 0 else v

def putExceptions : Nat → List (Nat × Nat) → Bytes
  | _, [] => []
  | prev, e :: exc => putVarint32 (e.1 - prev) ++ putVarint32 e.2 ++ putExceptions e.1 exc

def pforEncode (vs : List Nat) : Bytes :=
  let w := chooseWidth vs
  let exc := exceptions w 0 vs
  putU8 w ++ putVarint32 exc.length ++ bitpack (lowValues w vs) w ++ putExceptions 0 exc

/-! ## Decoding -/

/-- An unaligned 8-byte load at an offset. -/
def loadU64Le (base : Bytes) (off : Nat) : Result Nat :=
  if base.length < off + 8 then .error .outOfBounds
  else .ok (leValue ((base.drop off).take 8))

/-- Bytes shifted into their places one by one. -/
def orBytes : Nat → Nat → Bytes → Nat
  | _, word, [] => word
  | k, word, b :: bs => orBytes (k + 1) (word + b.toNat * 256 ^ k) bs

/-- Shifts and masks the value at a bit offset out of its word. -/
def extractBits (w bitOff word : Nat) : Nat := word / 2 ^ (bitOff % 8) % 2 ^ maskBits w

/-- Values whose 8-byte window stays inside the run; it ends at the first other one. -/
def unpackFast (w : Nat) (base : Bytes) : Nat → Nat → Result (List Nat)
  | 0, _ => .ok []
  | n + 1, i =>
      if w * i / 8 > base.length - 8 then .ok []
      else do
        let word ← loadU64Le base (w * i / 8)
        let rest ← unpackFast w base n (i + 1)
        pure (extractBits w (w * i) word :: rest)

/-- The remaining values, zero-padded past the end of the run. -/
def unpackTail (w : Nat) (base : Bytes) : Nat → Nat → List Nat
  | 0, _ => []
  | n + 1, i =>
      extractBits w (w * i) (orBytes 0 0 ((base.drop (w * i / 8)).take 8)) ::
        unpackTail w base n (i + 1)

def bitunpack (n w : Nat) : Source (List Nat) :=
  if w = 0 then pure (List.replicate n 0)
  else do
    let base ← getBytes ((w * n + 7) / 8)
    let fast ← StateT.lift (if base.length ≥ 8 then unpackFast w base n 0 else .ok [])
    pure (fast ++ unpackTail w base (n - fast.length) fast.length)

/-- Overwrites the exceptions; indices add up in 32 bits. -/
def patch : Nat → Nat → List Nat → Source (List Nat)
  | 0, _, out => pure out
  | k + 1, idx, out => do
      let d ← getVarint32
      let val ← getVarint32
      let idx := (idx + d) % 2 ^ 32
      if idx ≥ out.length then throw (.corruption "pfor exception index out of range")
      else patch k idx (out.set idx val)

def pforDecode (n : Nat) : Source (List Nat) := do
  let w ← getU8
  let nExc ← getVarint32
  let out ← bitunpack n w
  patch nExc 0 out

/-! ## Widths -/

private theorem lt_of_bitsForLoop_le (fuel : Nat) {v w : Nat} (hv : v < 2 ^ fuel)
    (h : bitsForLoop fuel v ≤ w) : v < 2 ^ w := by
  induction fuel generalizing v w with
  | zero =>
      obtain rfl : v = 0 := by simpa using hv
      exact Nat.two_pow_pos w
  | succ fuel ih =>
      rw [bitsForLoop] at h
      by_cases hzero : v = 0
      · subst hzero
        exact Nat.two_pow_pos w
      · rw [if_neg hzero] at h
        obtain ⟨w, rfl⟩ : ∃ w', w = w' + 1 := ⟨w - 1, by omega⟩
        have := @ih (v / 2) w (by rw [Nat.pow_succ] at hv; omega) (by omega)
        rw [Nat.pow_succ]
        omega

/-- A value whose bits fit the width is below its power. -/
theorem lt_of_bitsFor_le {v w : Nat} (hv : v < 2 ^ 32) (h : bitsFor v ≤ w) : v < 2 ^ w :=
  lt_of_bitsForLoop_le 32 hv h

private theorem bitsForLoop_le (fuel v : Nat) : bitsForLoop fuel v ≤ fuel := by
  induction fuel generalizing v with
  | zero => exact Nat.le_refl 0
  | succ fuel ih =>
      rw [bitsForLoop]
      split
      · exact Nat.zero_le _
      · exact Nat.succ_le_succ (ih _)

theorem bitsFor_le (v : Nat) : bitsFor v ≤ 32 := bitsForLoop_le 32 v

/-- The chosen width is a width of a 32-bit value. -/
theorem chooseWidth_le (vs : List Nat) : chooseWidth vs ≤ 32 := by
  have hmax : ∀ (l : List Nat) (m : Nat), (∀ x ∈ l, x ≤ 32) → m ≤ 32 → l.foldl max m ≤ 32 := by
    intro l
    induction l with
    | nil => exact fun m _ hm => hm
    | cons x l ih =>
        intro m hl hm
        exact ih _ (fun y hy => hl y (List.mem_cons_of_mem _ hy))
          (Nat.max_le.mpr ⟨hm, hl x List.mem_cons_self⟩)
  have hbest : ∀ (ws : List Nat) (b : Nat × Nat), (∀ w ∈ ws, w ≤ 32) → b.1 ≤ 32 →
      (ws.foldl (fun best w =>
        if widthCost vs w < best.2 then (w, widthCost vs w) else best) b).1 ≤ 32 := by
    intro ws
    induction ws with
    | nil => exact fun b _ hb => hb
    | cons w ws ih =>
        intro b hws hb
        refine ih _ (fun y hy => hws y (List.mem_cons_of_mem _ hy)) ?_
        by_cases hlt : widthCost vs w < b.2
        · simpa only [if_pos hlt] using hws w List.mem_cons_self
        · simpa only [if_neg hlt] using hb
  have hmaxw : (vs.map bitsFor).foldl max 0 ≤ 32 := by
    refine hmax _ 0 ?_ (Nat.zero_le _)
    intro x hx
    obtain ⟨v, _, rfl⟩ := List.mem_map.mp hx
    exact bitsFor_le v
  refine hbest _ _ ?_ hmaxw
  intro w hw
  have := List.mem_range.mp hw
  omega

/-! ## Packed values -/

/-- The number whose base-`2^w` digits are the given values. -/
def packedValue (w : Nat) : List Nat → Nat
  | [] => 0
  | v :: vs => v + 2 ^ w * packedValue w vs

/-- **What the packing loop writes**: the pending bits, then the values as digits. -/
theorem bitpackLoop_spec {w : Nat} (hw : w ≤ 32) {vs : List Nat} (hvs : ∀ v ∈ vs, v < 2 ^ w)
    {acc filled : Nat} (hfilled : filled < 8) (hacc : acc < 2 ^ filled) :
    leValue (bitpackLoop w acc filled vs) = acc + 2 ^ filled * packedValue w vs ∧
      (bitpackLoop w acc filled vs).length = (filled + w * vs.length + 7) / 8 := by
  induction vs generalizing acc filled with
  | nil =>
      rw [bitpackLoop]
      by_cases hpos : filled > 0
      · have hbyte : acc < 256 :=
          Nat.lt_of_lt_of_le hacc (Nat.pow_le_pow_right (by omega) (show filled ≤ 8 by omega))
        rw [if_pos hpos]
        refine ⟨?_, by simp [putU8]; omega⟩
        simp only [putU8, leValue, packedValue, UInt8.toNat_ofNat', Nat.reducePow]
        omega
      · obtain rfl : filled = 0 := by omega
        rw [if_neg hpos]
        refine ⟨?_, by simp⟩
        simp only [leValue, packedValue]
        omega
  | cons v vs ih =>
      have hv : v % 2 ^ maskBits w = v := by
        rw [maskBits, Nat.min_eq_left hw, Nat.mod_eq_of_lt (hvs v List.mem_cons_self)]
      have hpow : 2 ^ (filled + w) = 256 ^ ((filled + w) / 8) * 2 ^ ((filled + w) % 8) := by
        rw [show (256 : Nat) = 2 ^ 8 by rfl, ← Nat.pow_mul, ← Nat.pow_add, Nat.div_add_mod]
      have hlt : acc + v * 2 ^ filled < 2 ^ (filled + w) := by
        have hvlt := hvs v List.mem_cons_self
        calc acc + v * 2 ^ filled < 2 ^ filled + v * 2 ^ filled := by omega
          _ = (v + 1) * 2 ^ filled := by rw [Nat.succ_mul, Nat.add_comm]
          _ ≤ 2 ^ w * 2 ^ filled := Nat.mul_le_mul_right _ hvlt
          _ = 2 ^ (filled + w) := by rw [← Nat.pow_add, Nat.add_comm]
      have hpending : (acc + v * 2 ^ filled) / 256 ^ ((filled + w) / 8) <
          2 ^ ((filled + w) % 8) := by
        rw [hpow] at hlt
        exact Nat.div_lt_of_lt_mul hlt
      obtain ⟨hval, hlen⟩ := ih (fun x hx => hvs x (List.mem_cons_of_mem _ hx))
        (Nat.mod_lt (filled + w) (by omega)) hpending
      rw [bitpackLoop]
      simp only [hv]
      constructor
      · rw [leValue_append, length_leBytes, leValue_leBytes_mod, hval, Nat.mul_add,
          ← Nat.add_assoc, Nat.mod_add_div, ← Nat.mul_assoc, ← hpow, packedValue, Nat.mul_add,
          ← Nat.mul_assoc, ← Nat.pow_add, Nat.mul_comm v]
        omega
      · rw [List.length_append, length_leBytes, hlen, List.length_cons, Nat.mul_succ]
        omega

/-- A digit of the packed number. -/
theorem packedValue_digit {w : Nat} {vs : List Nat} (hvs : ∀ v ∈ vs, v < 2 ^ w) {i : Nat}
    (hi : i < vs.length) : packedValue w vs / 2 ^ (w * i) % 2 ^ w = vs[i] := by
  induction vs generalizing i with
  | nil => simp at hi
  | cons v vs ih =>
      have hv := hvs v List.mem_cons_self
      cases i with
      | zero =>
          rw [packedValue, Nat.mul_zero, Nat.pow_zero, Nat.div_one, Nat.add_mul_mod_self_left,
            Nat.mod_eq_of_lt hv, List.getElem_cons_zero]
      | succ i =>
          rw [packedValue, Nat.mul_succ, Nat.add_comm (w * i), Nat.pow_add,
            ← Nat.div_div_eq_div_mul, Nat.add_mul_div_left _ _ (Nat.two_pow_pos w),
            Nat.div_eq_of_lt hv, Nat.zero_add, List.getElem_cons_succ]
          exact ih (fun x hx => hvs x (List.mem_cons_of_mem _ hx)) (by simpa using hi)

/-! ## Unpacking -/

theorem orBytes_eq (k word : Nat) (bs : Bytes) :
    orBytes k word bs = word + 256 ^ k * leValue bs := by
  induction bs generalizing k word with
  | nil => simp [orBytes, leValue]
  | cons b bs ih =>
      rw [orBytes, ih, leValue, Nat.pow_succ, Nat.mul_add, Nat.mul_assoc, Nat.mul_comm b.toNat,
        Nat.add_assoc]

/-- **Either path reads the digit**: the eight bytes from a value's first byte on
hold all of its bits, present or padded. -/
theorem extractBits_eq {w : Nat} (hw : w ≤ 32) (base : Bytes) (bitOff : Nat) :
    extractBits w bitOff (leValue ((base.drop (bitOff / 8)).take 8)) =
      leValue base / 2 ^ bitOff % 2 ^ w := by
  have hbits : bitOff % 8 + w ≤ 64 := by
    have := Nat.mod_lt bitOff (show 0 < 8 by omega)
    omega
  have hpow : (256 : Nat) ^ (bitOff / 8) * 2 ^ (bitOff % 8) = 2 ^ bitOff := by
    rw [show (256 : Nat) = 2 ^ 8 by rfl, ← Nat.pow_mul, ← Nat.pow_add, Nat.div_add_mod]
  have hword : (256 : Nat) ^ 8 = 2 ^ (bitOff % 8) * 2 ^ (64 - bitOff % 8) := by
    rw [← Nat.pow_add, show bitOff % 8 + (64 - bitOff % 8) = 64 by omega]
    rfl
  have hdvd : 2 ^ w ∣ 2 ^ (64 - bitOff % 8) := Nat.pow_dvd_pow 2 (by omega)
  rw [extractBits, leValue_take, leValue_drop, maskBits, Nat.min_eq_left hw, hword,
    Nat.mod_mul_right_div_self, Nat.div_div_eq_div_mul, hpow, Nat.mod_mod_of_dvd _ hdvd]

/-- The values of the fast loop are a prefix of the digits. -/
theorem unpackFast_spec {w : Nat} (hw : w ≤ 32) {base : Bytes} (hbase : 8 ≤ base.length)
    (n i : Nat) : ∃ k ≤ n, unpackFast w base n i =
      .ok ((List.range' i k).map fun j => leValue base / 2 ^ (w * j) % 2 ^ w) := by
  induction n generalizing i with
  | zero => exact ⟨0, Nat.le_refl 0, rfl⟩
  | succ n ih =>
      rw [unpackFast]
      by_cases hend : w * i / 8 > base.length - 8
      · exact ⟨0, Nat.zero_le _, by rw [if_pos hend]; rfl⟩
      · obtain ⟨k, hk, hrest⟩ := ih (i + 1)
        refine ⟨k + 1, by omega, ?_⟩
        rw [if_neg hend, loadU64Le, if_neg (by omega), ok_bind, hrest, ok_bind,
          extractBits_eq hw base (w * i), List.range'_succ, List.map_cons]
        rfl

theorem unpackTail_spec {w : Nat} (hw : w ≤ 32) (base : Bytes) (n i : Nat) :
    unpackTail w base n i =
      (List.range' i n).map fun j => leValue base / 2 ^ (w * j) % 2 ^ w := by
  induction n generalizing i with
  | zero => rfl
  | succ n ih =>
      rw [unpackTail, orBytes_eq, Nat.pow_zero, Nat.one_mul, Nat.zero_add,
        extractBits_eq hw base (w * i), ih, List.range'_succ, List.map_cons]

/-- **Unpacking** reads the digits of the packed number and only its bytes. -/
theorem reads_bitunpack {w : Nat} (hw : w ≤ 32) {base : Bytes} {n : Nat} (hpos : w ≠ 0)
    (hlen : base.length = (w * n + 7) / 8) :
    Reads (bitunpack n w) base
      ((List.range n).map fun j => leValue base / 2 ^ (w * j) % 2 ^ w) := by
  have hfast : ∃ k ≤ n, (if base.length ≥ 8 then unpackFast w base n 0 else .ok []) =
      .ok ((List.range' 0 k).map fun j => leValue base / 2 ^ (w * j) % 2 ^ w) := by
    by_cases h8 : base.length ≥ 8
    · rw [if_pos h8]
      exact unpackFast_spec hw h8 n 0
    · rw [if_neg h8]
      exact ⟨0, Nat.zero_le _, rfl⟩
  obtain ⟨k, hk, hfast⟩ := hfast
  rw [bitunpack, if_neg hpos, ← hlen]
  refine (reads_getBytes base).bind_nil ?_
  intro rest
  simp only [hfast]
  show Except.ok (_, rest) = _
  rw [unpackTail_spec hw, List.length_map, List.length_range', ← List.map_append,
    List.range_eq_range']
  have happ := @List.range'_append_1 0 k (n - k)
  rw [Nat.zero_add] at happ
  rw [happ, Nat.add_sub_cancel' hk]

/-! ## The round trip -/

theorem reads_bitpack {w : Nat} (hw : w ≤ 32) {vs : List Nat} (hvs : ∀ v ∈ vs, v < 2 ^ w) :
    Reads (bitunpack vs.length w) (bitpack vs w) vs := by
  by_cases hzero : w = 0
  · subst hzero
    have hall : vs = List.replicate vs.length 0 :=
      List.eq_replicate_iff.mpr ⟨rfl, fun v hv => by simpa using hvs v hv⟩
    rw [bitpack, if_pos rfl, bitunpack, if_pos rfl, ← hall]
    exact Reads.pure vs
  · obtain ⟨hval, hlen⟩ := bitpackLoop_spec hw hvs (show 0 < 8 by omega) (show 0 < 2 ^ 0 by simp)
    rw [Nat.zero_add] at hval hlen
    rw [bitpack, if_neg hzero]
    refine (reads_bitunpack hw hzero hlen).congr rfl ?_
    rw [hval, Nat.pow_zero, Nat.one_mul]
    refine List.ext_getElem (by simp) fun i h1 h2 => ?_
    rw [List.getElem_map, List.getElem_range, packedValue_digit hvs h2]

/-- **Patching** puts every exception back in its place. -/
theorem reads_patch {w : Nat} {vs pre : List Nat} (hvs : ∀ v ∈ vs, v < 2 ^ 32)
    (hlen : pre.length + vs.length < 2 ^ 32) {prev : Nat} (hprev : prev ≤ pre.length) :
    Reads (patch (exceptions w pre.length vs).length prev (pre ++ lowValues w vs))
      (putExceptions prev (exceptions w pre.length vs)) (pre ++ vs) := by
  induction vs generalizing pre prev with
  | nil =>
      simp only [exceptions, lowValues, List.map_nil, List.append_nil, List.length_nil, patch,
        putExceptions]
      exact Reads.pure pre
  | cons v vs ih =>
      rw [List.length_cons] at hlen
      have hrest : ∀ x ∈ vs, x < 2 ^ 32 := fun x hx => hvs x (List.mem_cons_of_mem _ hx)
      have hv := hvs v List.mem_cons_self
      have hshift : pre ++ v :: vs = (pre ++ [v]) ++ vs := by simp
      have hpre : (pre ++ [v]).length = pre.length + 1 := by simp
      by_cases hexc : bitsFor v > w
      · have hlow : (pre ++ lowValues w (v :: vs)).set pre.length v =
            (pre ++ [v]) ++ lowValues w vs := by
          simp [lowValues]
        have hidx : (prev + (pre.length - prev)) % 2 ^ 32 = pre.length := by
          rw [Nat.add_sub_cancel' hprev, Nat.mod_eq_of_lt (by omega)]
        have hstep := @ih (pre ++ [v]) hrest (by omega) pre.length (by omega)
        rw [hpre] at hstep
        rw [exceptions, if_pos hexc, List.length_cons, patch, putExceptions, List.append_assoc,
          hshift]
        refine (reads_getVarint32 (by omega)).bind ((reads_getVarint32 hv).bind ?_)
        simp only [hidx]
        refine Reads.if_neg ?_ ?_
        · simp [lowValues]
        · rw [hlow]
          exact hstep
      · have hlow : pre ++ lowValues w (v :: vs) = (pre ++ [v]) ++ lowValues w vs := by
          simp [lowValues, hexc]
        have hstep := @ih (pre ++ [v]) hrest (by omega) prev (by omega)
        rw [hpre] at hstep
        rw [exceptions, if_neg hexc, hlow, hshift]
        exact hstep

theorem length_exceptions_le (w i : Nat) (vs : List Nat) :
    (exceptions w i vs).length ≤ vs.length := by
  induction vs generalizing i with
  | nil => exact Nat.le_refl 0
  | cons v vs ih =>
      rw [exceptions]
      split
      · exact Nat.succ_le_succ (ih _)
      · exact Nat.le_succ_of_le (ih _)

theorem lowValues_lt {w : Nat} {vs : List Nat} (hvs : ∀ v ∈ vs, v < 2 ^ 32) :
    ∀ v ∈ lowValues w vs, v < 2 ^ w := by
  intro x hx
  obtain ⟨v, hv, rfl⟩ := List.mem_map.mp hx
  by_cases hexc : bitsFor v > w
  · simpa only [if_pos hexc] using Nat.two_pow_pos _
  · simpa only [if_neg hexc] using lt_of_bitsFor_le (hvs v hv) (Nat.le_of_not_lt hexc)

theorem length_putExceptions_le (prev : Nat) (exc : List (Nat × Nat)) :
    (putExceptions prev exc).length ≤ 20 * exc.length := by
  induction exc generalizing prev with
  | nil => exact Nat.le_refl 0
  | cons e exc ih =>
      have h1 := length_putVarint32_le (e.1 - prev)
      have h2 := length_putVarint32_le e.2
      have h3 := ih e.1
      rw [putExceptions, List.length_append, List.length_append, List.length_cons]
      omega

/-- A run takes a bounded number of bytes a value. -/
theorem length_pforEncode_le {vs : List Nat} (hvs : ∀ v ∈ vs, v < 2 ^ 32) :
    (pforEncode vs).length ≤ 24 * vs.length + 12 := by
  have hw := chooseWidth_le vs
  have hexc := length_exceptions_le (chooseWidth vs) 0 vs
  have hput := length_putExceptions_le 0 (exceptions (chooseWidth vs) 0 vs)
  have hcount := length_putVarint32_le (exceptions (chooseWidth vs) 0 vs).length
  have hpack : (bitpack (lowValues (chooseWidth vs) vs) (chooseWidth vs)).length ≤
      4 * vs.length + 1 := by
    rw [bitpack]
    split
    · exact Nat.zero_le _
    · rw [(bitpackLoop_spec hw (lowValues_lt hvs) (show 0 < 8 by omega)
        (show 0 < 2 ^ 0 by simp)).2, lowValues, List.length_map]
      have : chooseWidth vs * vs.length ≤ 32 * vs.length := Nat.mul_le_mul_right _ hw
      omega
  simp only [pforEncode, List.length_append, length_putU8]
  omega

/-- The encoding of a run at a given width. -/
def pforEncodeAt (w : Nat) (vs : List Nat) : Bytes :=
  let exc := exceptions w 0 vs
  putU8 w ++ putVarint32 exc.length ++ bitpack (lowValues w vs) w ++ putExceptions 0 exc

theorem pforEncode_eq (vs : List Nat) : pforEncode vs = pforEncodeAt (chooseWidth vs) vs := rfl

/-- **Round trip at any width**: exceptions make up for the bits that the width lacks. -/
theorem reads_pforEncodeAt {w : Nat} (hw : w ≤ 32) {vs : List Nat} (hvs : ∀ v ∈ vs, v < 2 ^ 32)
    (hlen : vs.length < 2 ^ 32) : Reads (pforDecode vs.length) (pforEncodeAt w vs) vs := by
  have hexc := length_exceptions_le w 0 vs
  have hpack := reads_bitpack hw (@lowValues_lt w vs hvs)
  have hlowLen : (lowValues w vs).length = vs.length := by simp [lowValues]
  rw [hlowLen] at hpack
  have hpatch := @reads_patch w vs [] hvs (by simpa using hlen) 0 (Nat.le_refl 0)
  refine Reads.congr ((reads_getU8 (show w < 256 by omega)).bind
    ((reads_getVarint32 (show (exceptions w 0 vs).length < 2 ^ 32 by omega)).bind
      (hpack.bind hpatch))) ?_ rfl
  simp only [pforEncodeAt, List.append_assoc, List.length_nil]

/-- **Round trip**: decoding a run returns its values and consumes exactly the
encoded bytes. -/
theorem reads_pforEncode {vs : List Nat} (hvs : ∀ v ∈ vs, v < 2 ^ 32)
    (hlen : vs.length < 2 ^ 32) : Reads (pforDecode vs.length) (pforEncode vs) vs := by
  rw [pforEncode_eq]
  exact reads_pforEncodeAt (chooseWidth_le vs) hvs hlen

end Snii.Encoding.Pfor
