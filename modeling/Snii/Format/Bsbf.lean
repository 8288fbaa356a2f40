import Snii.Encoding.ByteSource
import Snii.Encoding.Crc32c
import Snii.Io.FileReader

/-!
# Block-split bloom filter

`bsbf.cpp`, scalar kernels.  The high half of a term's hash picks a block of eight
words, the low half one bit in each.  The hash and the floating-point size formula
are parameters; the rounding of the size is the code's own.
-/

namespace Snii.Format.Bsbf

open Snii.Lib.ByteReader Snii.Common
open Snii.Encoding.ByteSource Snii.Encoding.Crc32c Snii.Io.FileReader

/-- A block is eight words of 32 bits. -/
def kBsbfBytesPerBlock : Nat := 32

/-- A filter has at least one block. -/
def kBsbfMinBytes : Nat := 32

/-- The cap on the size of a filter. -/
def kBsbfMaxBytes : Nat := 128 * 1024 * 1024

/-- The header in front of the bits. -/
def kBsbfHeaderSize : Nat := 28

/-- One odd multiplier for each word of a block. -/
def kBsbfSalt : List Nat :=
  [0x47b6137b, 0x44974d91, 0x8824ad5b, 0xa2b7289d, 0x705495c7, 0x2df1424b, 0x9efc4947, 0x5c6bfb31]

/-- XXH64 with seed 0, and the bits the size formula asks for before any rounding. -/
structure BsbfParams where
  xxh64 : Bytes → Nat
  formulaBits : Nat → Nat

/-- The key of a term. -/
def bsbfHash (p : BsbfParams) (term : Bytes) : Nat := p.xxh64 term % 2 ^ 64

/-- The doubling loop; 32 rounds pass every 32-bit number. -/
def nextPowerOfTwo : Nat → Nat → Nat → Nat
  | 0, pow, _ => pow
  | fuel + 1, pow, n => if pow < n then nextPowerOfTwo fuel (pow * 2) n else pow

/-- The size for `ndv` keys: a power of two between the two bounds. -/
def bsbfOptimalNumBytes (p : BsbfParams) (ndv : Nat) : Nat :=
  let bits := min (p.formulaBits ndv) (kBsbfMaxBytes * 8)
  let bits := if bits < kBsbfMinBytes * 8 then kBsbfMinBytes * 8 else bits
  let bits := if bits &&& (bits - 1) ≠ 0 then nextPowerOfTwo 32 1 bits else bits
  min bits (kBsbfMaxBytes * 8) / 8

/-- The upper half of the key, scaled to the number of blocks. -/
def bsbfBlockIndex (hash numBlocks : Nat) : Nat := hash / 2 ^ 32 * numBlocks / 2 ^ 32

/-- The bit of the key in word `i` of its block. -/
def mask (key i : Nat) : Nat := 2 ^ (key * kBsbfSalt.getD i 0 % 2 ^ 32 / 2 ^ 27)

/-- Whether a block has the key's bit in each of its words. -/
def bsbfBlockContains (hash : Nat) (block : Bytes) : Bool :=
  (List.range 8).all fun i =>
    let m := mask (hash % 2 ^ 32) i
    decide (leValue ((block.drop (4 * i)).take 4) &&& m = m)

/-! ## Builder -/

/-- The words of a filter. -/
structure BsbfBuilder where
  words : List Nat
  numBytes : Nat
  numBlocks : Nat
  ndv : Nat

/-- `BsbfBuilder::create`, over zeros. -/
def createBsbf (p : BsbfParams) (ndv : Nat) : BsbfBuilder :=
  let ndv := if ndv = 0 then 1 else ndv
  let numBytes := bsbfOptimalNumBytes p ndv
  { words := List.replicate (numBytes / 4) 0, numBytes := numBytes
    numBlocks := numBytes / kBsbfBytesPerBlock, ndv := ndv }

/-- Sets the key's bit in every word of its block. -/
def insertWords (words : List Nat) (block key : Nat) : List Nat :=
  (List.range 8).foldl (fun ws i => ws.modify (block * 8 + i) (· ||| mask key i)) words

/-- One key. -/
def BsbfBuilder.insert (b : BsbfBuilder) (hash : Nat) : BsbfBuilder :=
  { b with words := insertWords b.words (bsbfBlockIndex hash b.numBlocks) (hash % 2 ^ 32) }

/-- Whether all bits of a key are set in the words of a block. -/
def findWords (words : List Nat) (block key : Nat) : Bool :=
  (List.range 8).all fun i =>
    let m := mask key i
    decide (words.getD (block * 8 + i) 0 &&& m = m)

/-- `maybe_contains`, which may answer yes for a key that was never inserted. -/
def BsbfBuilder.maybeContains (b : BsbfBuilder) (hash : Nat) : Bool :=
  findWords b.words (bsbfBlockIndex hash b.numBlocks) (hash % 2 ^ 32)

/-- The words as bytes. -/
def BsbfBuilder.bitset (b : BsbfBuilder) : Bytes := b.words.flatMap putFixed32

/-- The part of the header that its checksum covers. -/
def headerFields (b : BsbfBuilder) : Bytes :=
  [0x42, 0x53, 0x42, 0x46, 1, 0, 0, 0] ++ putFixed32 b.numBytes ++ putFixed32 b.numBlocks ++
    putFixed32 b.ndv

/-- Header, its checksum, the checksum of the bits, the bits. -/
def BsbfBuilder.serialize (b : BsbfBuilder) : Result Bytes :=
  if b.numBytes = 0 then .error (.invalidArgument "bsbf: not built")
  else .ok (headerFields b ++ putFixed32 (crc32c (headerFields b)) ++
    putFixed32 (crc32c b.bitset) ++ b.bitset)

/-! ## Reader -/

/-- The header as read, with where the bits start in the file. -/
structure BsbfHeader where
  numBytes : Nat
  numBlocks : Nat
  bitsetCrc : Nat
  bitsetBase : Nat
deriving DecidableEq

/-- A byte of the header. -/
def byteAt (h : Bytes) (i : Nat) : Nat := (h.getD i 0).toNat

/-- A number of the header. -/
def word32 (h : Bytes) (off : Nat) : Nat := leValue ((h.drop off).take 4)

/-- `parse_bsbf_header`: magic, version, strategy bytes, sizes and checksum. -/
def parseBsbfHeader (h : Bytes) (sectionBase : Nat) : Result BsbfHeader :=
  if h.length < kBsbfHeaderSize then .error (.corruption "bsbf: short header")
  else if byteAt h 0 ≠ 0x42 ∨ byteAt h 1 ≠ 0x53 ∨ byteAt h 2 ≠ 0x42 ∨ byteAt h 3 ≠ 0x46 then
    .error (.corruption "bsbf: bad magic")
  else if byteAt h 4 ≠ 1 then .error (.corruption "bsbf: bad version")
  else if byteAt h 5 ≠ 0 then .error (.corruption "bsbf: unsupported hash strategy")
  else if byteAt h 6 ≠ 0 then .error (.corruption "bsbf: unsupported index strategy")
  else if crc32c (h.take 20) ≠ word32 h 20 then .error (.corruption "bsbf: header crc mismatch")
  else
    let nb := word32 h 8
    let nblk := word32 h 12
    if nb < kBsbfMinBytes ∨ nb > kBsbfMaxBytes ∨ nb &&& (nb - 1) ≠ 0 then
      .error (.corruption "bsbf: num_bytes out of range or not power of 2")
    else if nblk ≠ nb / kBsbfBytesPerBlock then .error (.corruption "bsbf: num_blocks mismatch")
    else .ok { numBytes := nb, numBlocks := nblk, bitsetCrc := word32 h 24
               bitsetBase := sectionBase + kBsbfHeaderSize }

/-- Where the block of a key is in the file. -/
def BsbfHeader.blockOffset (h : BsbfHeader) (hash : Nat) : Nat :=
  h.bitsetBase + bsbfBlockIndex hash h.numBlocks * kBsbfBytesPerBlock

/-- The probe of one block in the file. -/
def bsbfProbe (file : Bytes) (h : BsbfHeader) (hash : Nat) : Result Bool := do
  let block ← readAt file (h.blockOffset hash) kBsbfBytesPerBlock
  .ok (bsbfBlockContains hash block)

/-! ## No false negatives -/

/-- Setting more bits clears none. -/
theorem or_and_of_and {w x m : Nat} (h : w &&& m = m) : (w ||| x) &&& m = m := by
  rw [Nat.and_or_distrib_right, h]
  exact Nat.eq_of_testBit_eq fun i => by
    simp only [Nat.testBit_or, Nat.testBit_and]
    cases m.testBit i <;> simp

/-- A mask is one bit of 32. -/
theorem mask_lt (key i : Nat) : mask key i < 2 ^ 32 := by
  refine Nat.pow_lt_pow_right (by decide) ?_
  exact Nat.div_lt_of_lt_mul (Nat.mod_lt _ (by decide))

/-- The insertion loop over some of the eight words. -/
private def orMasks (block key : Nat) (words : List Nat) (is : List Nat) : List Nat :=
  is.foldl (fun ws i => ws.modify (block * 8 + i) (· ||| mask key i)) words

private theorem orMasks_grows {block key : Nat} {words is : List Nat} {j w : Nat}
    (h : words[j]? = some w) : ∃ x, (orMasks block key words is)[j]? = some (w ||| x) := by
  induction is generalizing words w with
  | nil => exact ⟨0, by rw [Nat.or_zero]; exact h⟩
  | cons i is ih =>
      have hstep : ∃ y, (words.modify (block * 8 + i) (· ||| mask key i))[j]? = some (w ||| y) := by
        rw [List.getElem?_modify, h]
        by_cases hj : block * 8 + i = j
        · exact ⟨mask key i, by simp [hj]⟩
        · exact ⟨0, by simp [hj]⟩
      obtain ⟨y, hy⟩ := hstep
      obtain ⟨x, hx⟩ := ih hy
      exact ⟨y ||| x, by rw [← Nat.or_assoc]; exact hx⟩

private theorem orMasks_sets {block key : Nat} {words is : List Nat} {i w : Nat} (hi : i ∈ is)
    (h : words[block * 8 + i]? = some w) :
    ∃ w', (orMasks block key words is)[block * 8 + i]? = some w' ∧
      w' &&& mask key i = mask key i := by
  induction is generalizing words w with
  | nil => simp at hi
  | cons k is ih =>
      rcases List.mem_cons.mp hi with rfl | hi
      · have hset : (words.modify (block * 8 + i) (· ||| mask key i))[block * 8 + i]? =
            some (w ||| mask key i) := by
          rw [List.getElem?_modify, h]
          simp
        obtain ⟨x, hx⟩ := @orMasks_grows block key _ is _ _ hset
        refine ⟨_, hx, or_and_of_and ?_⟩
        rw [Nat.or_comm]
        exact or_and_of_and (Nat.and_self _)
      · obtain ⟨x, hx⟩ := @orMasks_grows block key _ [k] _ _ h
        exact ih hi hx

/-- The words of a block hold all bits of a key. -/
def Holds (words : List Nat) (block key : Nat) : Prop :=
  ∀ i < 8, ∃ w, words[block * 8 + i]? = some w ∧ w &&& mask key i = mask key i

/-- An insert keeps what the filter holds. -/
theorem Holds.insertWords {words : List Nat} {block key : Nat} (h : Holds words block key)
    (block' key' : Nat) : Holds (insertWords words block' key') block key := by
  intro i hi
  obtain ⟨w, hw, hm⟩ := h i hi
  obtain ⟨x, hx⟩ := @orMasks_grows block' key' _ (List.range 8) _ _ hw
  exact ⟨_, hx, or_and_of_and hm⟩

/-- An insert makes the filter hold the key. -/
theorem holds_insertWords {words : List Nat} {block : Nat} (h : block * 8 + 8 ≤ words.length)
    (key : Nat) : Holds (insertWords words block key) block key := by
  intro i hi
  have hlt : block * 8 + i < words.length := by omega
  exact orMasks_sets (List.mem_range.mpr hi) (List.getElem?_eq_getElem hlt)

theorem length_insertWords (words : List Nat) (block key : Nat) :
    (insertWords words block key).length = words.length := by
  rw [insertWords]
  generalize List.range 8 = is
  induction is generalizing words with
  | nil => rfl
  | cons i is ih => rw [List.foldl_cons, ih, List.length_modify]

/-- An insert keeps words of 32 bits. -/
theorem insertWords_lt {words : List Nat} (h : ∀ w ∈ words, w < 2 ^ 32) (block key : Nat) :
    ∀ w ∈ insertWords words block key, w < 2 ^ 32 := by
  rw [insertWords]
  generalize List.range 8 = is
  induction is generalizing words with
  | nil => exact h
  | cons i is ih =>
      refine ih ?_
      intro w hw
      obtain ⟨j, hj⟩ := List.mem_iff_getElem?.mp hw
      rw [List.getElem?_modify] at hj
      obtain ⟨v, hv, hvw⟩ := Option.map_eq_some_iff.mp hj
      have hlt := h v (List.mem_of_getElem? hv)
      split at hvw
      · rw [← hvw]
        exact Nat.or_lt_two_pow hlt (mask_lt key i)
      · rw [← hvw]
        exact hlt

/-! ## Size of the filter -/

/-- The bit trick is right: what passes it is a power of two. -/
theorem exists_eq_two_pow {n : Nat} (hpos : 0 < n) (h : n &&& (n - 1) = 0) : ∃ k, n = 2 ^ k := by
  have hle : 2 ^ n.log2 ≤ n := Nat.log2_self_le (by omega)
  have hlt : n < 2 ^ (n.log2 + 1) := Nat.lt_log2_self
  refine ⟨n.log2, ?_⟩
  by_contra hne
  -- otherwise `n - 1` has the top bit of `n` too
  have hbit : (n &&& (n - 1)).testBit n.log2 = true := by
    rw [Nat.testBit_and, Nat.testBit_of_two_pow_le_and_two_pow_add_one_gt hle hlt,
      Nat.testBit_of_two_pow_le_and_two_pow_add_one_gt (by omega) (by omega)]
    rfl
  rw [h, Nat.zero_testBit] at hbit
  exact Bool.false_ne_true hbit

theorem two_pow_and_pred (k : Nat) : 2 ^ k &&& (2 ^ k - 1) = 0 := by
  rw [Nat.and_two_pow_sub_one_eq_mod, Nat.mod_self]

/-- The least power of two from `n` on. -/
theorem nextPowerOfTwo_spec {fuel j n : Nat} (hn : n ≤ 2 ^ (j + fuel)) :
    ∃ k, nextPowerOfTwo fuel (2 ^ j) n = 2 ^ k ∧ n ≤ 2 ^ k ∧ (k = j ∨ 2 ^ (k - 1) < n) := by
  induction fuel generalizing j with
  | zero => exact ⟨j, rfl, hn, .inl rfl⟩
  | succ fuel ih =>
      rw [nextPowerOfTwo]
      by_cases hlt : 2 ^ j < n
      · rw [if_pos hlt, ← Nat.pow_succ]
        obtain ⟨k, hk, hle, hlast⟩ := @ih (j + 1) (by rwa [Nat.add_right_comm])
        refine ⟨k, hk, hle, .inr ?_⟩
        rcases hlast with rfl | hlast
        · exact hlt
        · exact hlast
      · rw [if_neg hlt]
        exact ⟨j, rfl, Nat.not_lt.mp hlt, .inl rfl⟩

/-- The filter has a power of two of bytes, from 32 to 128 MiB. -/
theorem bsbfOptimalNumBytes_eq (p : BsbfParams) (ndv : Nat) :
    ∃ k, 5 ≤ k ∧ k ≤ 27 ∧ bsbfOptimalNumBytes p ndv = 2 ^ k := by
  have hmin : kBsbfMinBytes * 8 = 2 ^ 8 := rfl
  have hmax : kBsbfMaxBytes * 8 = 2 ^ 30 := rfl
  have hdiv : ∀ k, 8 ≤ k → k ≤ 30 → min (2 ^ k) (2 ^ 30) / 8 = 2 ^ (k - 3) := by
    intro k h8 h30
    rw [Nat.min_eq_left (Nat.pow_le_pow_right (by decide) h30), show k = k - 3 + 3 by omega,
      Nat.pow_add, Nat.add_sub_cancel]
    exact Nat.mul_div_cancel _ (by decide)
  rw [bsbfOptimalNumBytes, hmin, hmax]
  generalize hbits : (if min (p.formulaBits ndv) (2 ^ 30) < 2 ^ 8 then 2 ^ 8
    else min (p.formulaBits ndv) (2 ^ 30)) = bits
  have hlo : 2 ^ 8 ≤ bits := by
    rw [← hbits]
    split <;> omega
  have hhi : bits ≤ 2 ^ 30 := by
    rw [← hbits]
    split
    · decide
    · exact Nat.min_le_right _ _
  have hpow : ∃ k, 8 ≤ k ∧ k ≤ 30 ∧
      (if bits &&& (bits - 1) ≠ 0 then nextPowerOfTwo 32 1 bits else bits) = 2 ^ k := by
    by_cases hand : bits &&& (bits - 1) = 0
    · obtain ⟨k, hk⟩ := exists_eq_two_pow (by omega) hand
      rw [hk] at hlo hhi
      refine ⟨k, (Nat.pow_le_pow_iff_right (by decide)).mp hlo,
        (Nat.pow_le_pow_iff_right (by decide)).mp hhi, ?_⟩
      rw [if_neg (by simpa using hand), hk]
    · obtain ⟨k, hk, hle, hlast⟩ := @nextPowerOfTwo_spec 32 0 bits (by omega)
      rw [if_pos hand]
      refine ⟨k, (Nat.pow_le_pow_iff_right (by decide)).mp (hlo.trans hle), ?_, hk⟩
      rcases hlast with rfl | hlast
      · omega
      · have := (Nat.pow_lt_pow_iff_right (by decide)).mp (hlast.trans_le hhi)
        omega
  obtain ⟨k, h8, h30, hk⟩ := hpow
  refine ⟨k - 3, by omega, by omega, ?_⟩
  simp only [hk]
  exact hdiv k h8 h30

/-! ## Filters of a set of terms -/

/-- A filter of the builder: whole blocks of 32-bit words, a size the reader accepts. -/
structure BuilderOk (b : BsbfBuilder) : Prop where
  numBytes : ∃ k, 5 ≤ k ∧ k ≤ 27 ∧ b.numBytes = 2 ^ k
  numBlocks : b.numBlocks = b.numBytes / kBsbfBytesPerBlock
  length : b.words.length = b.numBytes / 4
  words : ∀ w ∈ b.words, w < 2 ^ 32

/-- The empty filter of a size. -/
def sizedBsbf (numBytes ndv : Nat) : BsbfBuilder where
  words := List.replicate (numBytes / 4) 0
  numBytes := numBytes
  numBlocks := numBytes / kBsbfBytesPerBlock
  ndv := ndv

/-- A sized filter is well formed. -/
theorem sizedBsbf_ok {k : Nat} (hlo : 5 ≤ k) (hhi : k ≤ 27) (ndv : Nat) :
    BuilderOk (sizedBsbf (2 ^ k) ndv) where
  numBytes := ⟨k, hlo, hhi, rfl⟩
  numBlocks := rfl
  length := List.length_replicate
  words := by
    intro w hw
    rw [List.eq_of_mem_replicate hw]
    decide

/-- So is one that is sized for its keys. -/
theorem createBsbf_ok (p : BsbfParams) (ndv : Nat) : BuilderOk (createBsbf p ndv) := by
  obtain ⟨k, hlo, hhi, hk⟩ := bsbfOptimalNumBytes_eq p (if ndv = 0 then 1 else ndv)
  have hsized := sizedBsbf_ok hlo hhi (if ndv = 0 then 1 else ndv)
  rw [← hk] at hsized
  exact hsized

/-- An insert keeps a filter well formed. -/
theorem BuilderOk.insert {b : BsbfBuilder} (h : BuilderOk b) (hash : Nat) :
    BuilderOk (b.insert hash) where
  numBytes := h.numBytes
  numBlocks := h.numBlocks
  length := (length_insertWords _ _ _).trans h.length
  words := insertWords_lt h.words _ _

/-- The sizes of a well-formed filter in words, blocks and bytes. -/
theorem BuilderOk.blocks {b : BsbfBuilder} (h : BuilderOk b) :
    0 < b.numBlocks ∧ b.numBytes = 32 * b.numBlocks ∧ b.words.length = 8 * b.numBlocks ∧
      b.numBytes < 2 ^ 32 ∧ b.numBlocks < 2 ^ 32 := by
  obtain ⟨k, h5, h27, hk⟩ := h.numBytes
  have hsplit : b.numBytes = 32 * 2 ^ (k - 5) := by
    rw [hk, show (32 : Nat) = 2 ^ 5 from rfl, ← Nat.pow_add, Nat.add_sub_cancel' h5]
  have hpos : 0 < 2 ^ (k - 5) := Nat.pow_pos (by decide)
  have hle : b.numBytes ≤ 2 ^ 27 := by
    rw [hk]
    exact Nat.pow_le_pow_right (show 2 > 0 by decide) h27
  have hblocks := h.numBlocks
  have hlen := h.length
  rw [kBsbfBytesPerBlock] at hblocks
  omega

/-- A key has a block of the filter. -/
theorem bsbfBlockIndex_lt {hash n : Nat} (hh : hash < 2 ^ 64) (hn : 0 < n) :
    bsbfBlockIndex hash n < n := by
  rw [bsbfBlockIndex, Nat.div_lt_iff_lt_mul (by decide), Nat.mul_comm]
  exact Nat.mul_lt_mul_of_pos_left (by omega) hn

/-- The key of a hash is in the filter. -/
def BsbfBuilder.HoldsHash (b : BsbfBuilder) (hash : Nat) : Prop :=
  Holds b.words (bsbfBlockIndex hash b.numBlocks) (hash % 2 ^ 32)

/-- An inserted key is held. -/
theorem holdsHash_insert {b : BsbfBuilder} (h : BuilderOk b) {hash : Nat} (hh : hash < 2 ^ 64) :
    (b.insert hash).HoldsHash hash := by
  obtain ⟨hpos, -, hlen, -⟩ := h.blocks
  have hlt := bsbfBlockIndex_lt hh hpos
  exact holds_insertWords (by omega) _

theorem BuilderOk.foldl {b : BsbfBuilder} (h : BuilderOk b) (hashes : List Nat) :
    BuilderOk (hashes.foldl BsbfBuilder.insert b) := by
  induction hashes generalizing b with
  | nil => exact h
  | cons x hashes ih => exact ih (h.insert x)

/-- Every inserted key stays in the filter. -/
theorem holdsHash_foldl {b : BsbfBuilder} (h : BuilderOk b) {hashes : List Nat}
    (hh : ∀ x ∈ hashes, x < 2 ^ 64) {hash : Nat} (hmem : hash ∈ hashes ∨ b.HoldsHash hash) :
    (hashes.foldl BsbfBuilder.insert b).HoldsHash hash := by
  induction hashes generalizing b with
  | nil => exact hmem.resolve_left (by simp)
  | cons x hashes ih =>
      apply ih (h.insert x) fun y hy => hh y (List.mem_cons_of_mem _ hy)
      rcases hmem with hmem | hheld
      · rcases List.mem_cons.mp hmem with rfl | hmem
        · exact .inr (holdsHash_insert h (hh _ List.mem_cons_self))
        · exact .inl hmem
      · exact .inr (Holds.insertWords hheld _ _)

/-! ## Probing the serialized filter -/

/-- A word's place among the bytes. -/
theorem word_bitset {words : List Nat} {j w : Nat} (h : words[j]? = some w) :
    ((words.flatMap putFixed32).drop (4 * j)).take 4 = putFixed32 w := by
  induction words generalizing j with
  | nil => simp at h
  | cons x words ih =>
      have hx : (putFixed32 x).length = 4 := length_putFixed32 x
      rw [List.flatMap_cons]
      cases j with
      | zero =>
          rw [List.getElem?_cons_zero, Option.some_inj] at h
          rw [Nat.mul_zero, List.drop_zero, ← hx, List.take_left, h]
      | succ j =>
          rw [List.getElem?_cons_succ] at h
          rw [show 4 * (j + 1) = (putFixed32 x).length + 4 * j by omega, List.drop_append,
            List.drop_of_length_le (Nat.le_add_right _ _), Nat.add_sub_cancel_left,
            List.nil_append]
          exact ih h

theorem length_bitset (words : List Nat) : (words.flatMap putFixed32).length = 4 * words.length := by
  induction words with
  | nil => rfl
  | cons w words ih =>
      rw [List.flatMap_cons, List.length_append, ih, length_putFixed32, List.length_cons]
      omega

/-- The bytes of one block of the bitset. -/
def BsbfBuilder.blockBytes (b : BsbfBuilder) (block : Nat) : Bytes :=
  (b.bitset.drop (block * kBsbfBytesPerBlock)).take kBsbfBytesPerBlock

/-- A word's place in its block. -/
theorem word_blockBytes {b : BsbfBuilder} {block i w : Nat} (hi : i < 8)
    (hw : b.words[block * 8 + i]? = some w) :
    ((b.blockBytes block).drop (4 * i)).take 4 = putFixed32 w := by
  rw [BsbfBuilder.blockBytes, kBsbfBytesPerBlock, BsbfBuilder.bitset, List.drop_take,
    List.take_take, Nat.min_eq_left (by omega), List.drop_drop, ← word_bitset hw]
  congr 2
  omega

/-- **The two kernels agree**: a block's bytes answer as the builder's words do. -/
theorem blockContains_eq {b : BsbfBuilder} (h : BuilderOk b) {hash : Nat} (hh : hash < 2 ^ 64) :
    bsbfBlockContains hash (b.blockBytes (bsbfBlockIndex hash b.numBlocks)) =
      b.maybeContains hash := by
  obtain ⟨hpos, -, hlen, -⟩ := h.blocks
  have hblock := bsbfBlockIndex_lt hh hpos
  rw [bsbfBlockContains, BsbfBuilder.maybeContains, findWords, Bool.eq_iff_iff, List.all_eq_true,
    List.all_eq_true]
  apply forall₂_congr
  intro i hi
  rw [List.mem_range] at hi
  have hin : bsbfBlockIndex hash b.numBlocks * 8 + i < b.words.length := by omega
  have hw := List.getElem?_eq_getElem hin
  have hlt : b.words[bsbfBlockIndex hash b.numBlocks * 8 + i] < 256 ^ 4 :=
    h.words _ (List.getElem_mem hin)
  have hvalue : leValue (putFixed32 b.words[bsbfBlockIndex hash b.numBlocks * 8 + i]) = _ :=
    leValue_leBytes hlt
  simp only [word_blockBytes hi hw, hvalue, List.getD_eq_getElem?_getD, hw, Option.getD_some]

/-- **No false negative**: the probe of a held key succeeds. -/
theorem maybeContains_of_holds {b : BsbfBuilder} {hash : Nat} (hheld : b.HoldsHash hash) :
    b.maybeContains hash = true := by
  rw [BsbfBuilder.maybeContains, findWords, List.all_eq_true]
  intro i hi
  rw [List.mem_range] at hi
  obtain ⟨w, hw, hm⟩ := hheld i hi
  simp only [List.getD_eq_getElem?_getD, hw, Option.getD_some, hm, decide_true]

/-- The header's bytes. -/
def BsbfBuilder.head (b : BsbfBuilder) : Bytes :=
  headerFields b ++ putFixed32 (crc32c (headerFields b)) ++ putFixed32 (crc32c b.bitset)

theorem length_head (b : BsbfBuilder) : b.head.length = kBsbfHeaderSize := rfl

theorem BuilderOk.length_bitset {b : BsbfBuilder} (h : BuilderOk b) :
    b.bitset.length = b.numBytes := by
  obtain ⟨-, hbytes, hlen, -⟩ := h.blocks
  rw [BsbfBuilder.bitset, Bsbf.length_bitset]
  omega

/-- A well-formed filter is its header and its bits. -/
theorem serialize_eq {b : BsbfBuilder} (h : BuilderOk b) :
    b.serialize = .ok (b.head ++ b.bitset) := by
  obtain ⟨hpos, hbytes, -⟩ := h.blocks
  rw [BsbfBuilder.serialize, if_neg (by omega)]
  rfl

/-- What the reader knows of the filter. -/
def BsbfBuilder.headerAt (b : BsbfBuilder) (sectionBase : Nat) : BsbfHeader where
  numBytes := b.numBytes
  numBlocks := b.numBlocks
  bitsetCrc := crc32c b.bitset
  bitsetBase := sectionBase + kBsbfHeaderSize

/-- **Round trip** of the header. -/
theorem parseBsbfHeader_head {b : BsbfBuilder} (h : BuilderOk b) (sectionBase : Nat) :
    parseBsbfHeader b.head sectionBase = .ok (b.headerAt sectionBase) := by
  obtain ⟨hpos, hbytes, -, hlt, hlt'⟩ := h.blocks
  obtain ⟨k, h5, h27, hk⟩ := h.numBytes
  have hvalue : ∀ v < 2 ^ 32, leValue (putFixed32 v) = v := fun v hv => @leValue_leBytes 4 v hv
  have hnb : word32 b.head 8 = b.numBytes := hvalue _ hlt
  have hnblk : word32 b.head 12 = b.numBlocks := hvalue _ hlt'
  have hcrc : word32 b.head 20 = crc32c (headerFields b) := hvalue _ (crc32c_lt _)
  have hbit : word32 b.head 24 = crc32c b.bitset := hvalue _ (crc32c_lt _)
  have htake : b.head.take 20 = headerFields b := rfl
  have hlow : kBsbfMinBytes ≤ b.numBytes := by
    rw [hk]
    exact Nat.pow_le_pow_right (show 2 > 0 by decide) h5
  have hhigh : b.numBytes ≤ kBsbfMaxBytes := by
    rw [hk]
    exact Nat.pow_le_pow_right (show 2 > 0 by decide) h27
  have hpow : b.numBytes &&& (b.numBytes - 1) = 0 := by
    rw [hk]
    exact two_pow_and_pred k
  have hmagic : byteAt b.head 0 = 0x42 ∧ byteAt b.head 1 = 0x53 ∧ byteAt b.head 2 = 0x42 ∧
      byteAt b.head 3 = 0x46 ∧ byteAt b.head 4 = 1 ∧ byteAt b.head 5 = 0 ∧ byteAt b.head 6 = 0 :=
    ⟨rfl, rfl, rfl, rfl, rfl, rfl, rfl⟩
  obtain ⟨m0, m1, m2, m3, m4, m5, m6⟩ := hmagic
  rw [parseBsbfHeader, if_neg (by rw [length_head]; omega), if_neg (by omega), if_neg (by omega),
    if_neg (by omega), if_neg (by omega), if_neg (by rw [htake, hcrc]; simp)]
  simp only [hnb, hnblk, hbit]
  rw [if_neg (by omega), if_neg (by rw [h.numBlocks]; simp)]
  rfl

end Snii.Format.Bsbf
