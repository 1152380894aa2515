import MlkemSelkie.Lib.Loops

/-!
# Little-endian words

The value of a list of bytes read least-significant byte first, and the bytes of a word.
-/

namespace LittleEndian

/-- The value of a list of bytes, least-significant byte first. -/
def ofBytes (l : List UInt8) : Nat :=
  l.foldr (fun b acc => b.toNat + 256 * acc) 0

/-- The `n` low bytes of a word, least-significant byte first. -/
def toBytes (n : Nat) (w : Nat) : List UInt8 :=
  (List.range n).map fun i => UInt8.ofNat (w >>> (8 * i))

end LittleEndian
