import Snii.Common.Status

/-!
# Zstandard

`zstd_codec.cpp` over the zstd library, which is a parameter: a compressor for
each level and a decompressor into a buffer of a given size.
-/

namespace Snii.Encoding.Compression

open Snii.Lib.ByteReader Snii.Common

/-- The two library calls; an error carries its name. -/
structure Zstd where
  compress : Int → Bytes → Except String Bytes
  decompress : Bytes → Nat → Except String Bytes

def zstdCompress (z : Zstd) (input : Bytes) (level : Int) : Result Bytes :=
  match z.compress level input with
  | .error name => .error (.internal ("zstd compress: " ++ name))
  | .ok out => .ok out

def zstdDecompress (z : Zstd) (input : Bytes) (expectedUncompLen : Nat) : Result Bytes :=
  match z.decompress input expectedUncompLen with
  | .error name => .error (.corruption ("zstd decompress: " ++ name))
  | .ok out =>
      if out.length ≠ expectedUncompLen then
        .error (.corruption "zstd decompressed length mismatch")
      else .ok out

/-- What the code relies on: compression succeeds within `ZSTD_compressBound`, and
decompressing returns the input. -/
structure Zstd.Lossless (z : Zstd) : Prop where
  roundTrip : ∀ (level : Int) (input : Bytes), ∃ comp, z.compress level input = .ok comp ∧
    comp.length ≤ input.length + input.length / 256 + 64 ∧
    z.decompress comp input.length = .ok input

theorem Zstd.Lossless.compress_ok {z : Zstd} (hz : z.Lossless) (level : Int) (input : Bytes) :
    ∃ comp, zstdCompress z input level = .ok comp ∧
      comp.length ≤ input.length + input.length / 256 + 64 ∧
      zstdDecompress z comp input.length = .ok input := by
  obtain ⟨comp, hcomp, hlen, hdec⟩ := hz.roundTrip level input
  exact ⟨comp, by rw [zstdCompress, hcomp], hlen, by simp [zstdDecompress, hdec]⟩

/-- The library that stores its input. -/
def Zstd.store : Zstd where
  compress _ input := .ok input
  decompress input _ := .ok input

theorem Zstd.store_lossless : Zstd.store.Lossless :=
  ⟨fun _ input => ⟨input, rfl, by omega, rfl⟩⟩

end Snii.Encoding.Compression
