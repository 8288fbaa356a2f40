import Snii.Common.Status

/-!
# CRC32C

`crc32c.cpp`, software path: the slice-by-8 loop over eight derived tables of
the reflected Castagnoli polynomial.
-/

namespace Snii.Encoding.Crc32c

open Snii.Lib.ByteReader

/-- The bit-reflected Castagnoli polynomial. -/
def kPoly : UInt32 := 0x82F63B78

/-- One bit of the byte table's loop. -/
def crcBit (c : UInt32) : UInt32 := if c &&& 1 = 1 then kPoly ^^^ (c >>> 1) else c >>> 1

/-- Column 0: the classic byte table. -/
def tableByte (i : UInt32) : UInt32 :=
  crcBit (crcBit (crcBit (crcBit (crcBit (crcBit (crcBit (crcBit i)))))))

/-- Column `s`: one more byte of look-ahead than the column before. -/
def kSlice8 : Nat → UInt32 → UInt32
  | 0, i => tableByte i
  | s + 1, i =>
      let c := kSlice8 s i
      tableByte (c &&& 0xFF) ^^^ (c >>> 8)

def loadLe32 (b0 b1 b2 b3 : UInt8) : UInt32 :=
  b0.toUInt32 ||| (b1.toUInt32 <<< 8) ||| (b2.toUInt32 <<< 16) ||| (b3.toUInt32 <<< 24)

/-- Eight bytes at a time, then the rest one by one. -/
def crc32cSlice8 : UInt32 → Bytes → UInt32
  | crc, b0 :: b1 :: b2 :: b3 :: b4 :: b5 :: b6 :: b7 :: rest =>
      let crc := crc ^^^ loadLe32 b0 b1 b2 b3
      let hi := loadLe32 b4 b5 b6 b7
      crc32cSlice8
        (kSlice8 7 (crc &&& 0xFF) ^^^ kSlice8 6 ((crc >>> 8) &&& 0xFF) ^^^
          kSlice8 5 ((crc >>> 16) &&& 0xFF) ^^^ kSlice8 4 (crc >>> 24) ^^^
          kSlice8 3 (hi &&& 0xFF) ^^^ kSlice8 2 ((hi >>> 8) &&& 0xFF) ^^^
          kSlice8 1 ((hi >>> 16) &&& 0xFF) ^^^ kSlice8 0 (hi >>> 24)) rest
  | crc, bytes => bytes.foldl (fun c b => kSlice8 0 ((c ^^^ b.toUInt32) &&& 0xFF) ^^^ (c >>> 8)) crc

def crc32cExtend (crc : UInt32) (data : Bytes) : UInt32 := ~~~ crc32cSlice8 (~~~ crc) data

def crc32c (data : Bytes) : Nat := (crc32cExtend 0 data).toNat

theorem crc32c_lt (data : Bytes) : crc32c data < 2 ^ 32 := UInt32.toNat_lt _

end Snii.Encoding.Crc32c
