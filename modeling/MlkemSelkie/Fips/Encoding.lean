import Mathlib.Algebra.Order.Round
import Mathlib.Data.Rat.Floor
import MlkemSelkie.Fips.Ring

/-!
# Encoding and compression in FIPS 203

Section 4.2.1: byte strings as bit strings, `ByteEncode` and `ByteDecode` (Algorithms 5 and 6), and compression with the
rounding of rational numbers.
-/

namespace Fips203

/-- The bit `t` of a byte string, least-significant bit first. -/
def bit (bytes : List UInt8) (t : Nat) : Bool := (bytes[t / 8]!).toNat.testBit (t % 8)

/-- The `d`-bit little-endian field `i` of a byte string. -/
def field (d : Nat) (bytes : List UInt8) (i : Nat) : Nat := Nat.ofBits fun j : Fin d => bit bytes (i * d + j)

/-- Algorithm 5: `ByteEncode_d`. Bit `i * d + j` of the output is bit `j` of the integer `i`. -/
def byteEncode (d : Nat) (F : Fin 256 → Nat) : List UInt8 :=
  (List.range (32 * d)).map fun k => UInt8.ofNat (Nat.ofBits fun j : Fin 8 =>
    (F (Fin.ofNat 256 ((8 * k + j) / d))).testBit ((8 * k + j) % d))

/-- Algorithm 6: `ByteDecode_d`, for `d < 12` modulo `2^d` and for `d = 12` modulo q. -/
def byteDecode (d : Nat) (bytes : List UInt8) : Fin 256 → Nat := fun i =>
  field d bytes i % (if d < 12 then 2 ^ d else 3329)

/-- `Compress_d`: `round(2^d / q * x) mod 2^d`. -/
def compress (d : Nat) (x : Zq) : Nat := (round ((2 ^ d / 3329 : ℚ) * x.val) % 2 ^ d).toNat

/-- `Decompress_d`: `round(q / 2^d * y)`. -/
def decompress (d : Nat) (y : Nat) : Zq := (round ((3329 / 2 ^ d : ℚ) * y) : Int)

end Fips203
