import MlkemSelkie.Lib.LittleEndian
import MlkemSelkie.Parameters

/-!
# The portable bit packing

`encoding/arch/generic.rs`: both directions run a 128-bit accumulator against 64-bit words. A value has 16 bits and the bit
count stays below 64 while packing and below 64 + d while unpacking, so no bit ever leaves the accumulator and a `Nat`
holds it.
-/

namespace MlkemSelkie.Encoding.Generic

/-- The local variables of `pack`: the output, the 8-byte chunks of it already yielded, the accumulator and its bit count. -/
structure PackState where
  out : Vector UInt8 384
  words : Nat
  accumulator : Nat
  bits : Nat

/-- Writes the 64-bit word `word` into the chunk `i` of the output; past the last chunk nothing is written. -/
def writeWord (out : Vector UInt8 384) (i : Nat) (word : Nat) : Vector UInt8 384 :=
  if i < 48 then
    Vector.ofFn fun k => if k.val / 8 = i then (LittleEndian.toBytes 8 word)[k.val % 8]! else out[k]
  else out

/-- The body of the loop of `pack`. -/
def packValue (d : Nat) (s : PackState) (value : UInt16) : PackState :=
  let accumulator := s.accumulator ||| (value.toNat <<< s.bits)
  let bits := s.bits + d
  if 64 ≤ bits then
    { out := writeWord s.out s.words (accumulator % 2 ^ 64), words := s.words + 1,
      accumulator := accumulator >>> 64, bits := bits - 64 }
  else
    { s with accumulator := accumulator, bits := bits }

/-- Packs the `d`-bit values into the leading `32 * d` bytes, least-significant bit first; the tail stays zero. -/
def pack (values : Vector UInt16 N) (d : Nat) : Vector UInt8 384 :=
  (values.toList.foldl (packValue d) { out := Vector.replicate 384 0, words := 0, accumulator := 0, bits := 0 }).out

/-- The next 64-bit word of a byte slice, a partial one zero-padded and zero past the end, and the bytes left. -/
def nextWord (bytes : List UInt8) : Nat × List UInt8 :=
  if 8 ≤ bytes.length then (LittleEndian.ofBytes (bytes.take 8), bytes.drop 8)
  else if bytes ≠ [] then (LittleEndian.ofBytes (bytes ++ List.replicate (8 - bytes.length) 0), [])
  else (0, [])

/-- The local variables of `unpack`: the bytes not yet read, the accumulator and its bit count. -/
structure UnpackState where
  bytes : List UInt8
  accumulator : Nat
  bits : Nat

/-- The closure `unpack` calls for each value. -/
def unpackValue (d : Nat) : StateM UnpackState UInt16 := fun s =>
  let s :=
    if s.bits < d then
      let (word, bytes) := nextWord s.bytes
      { bytes := bytes, accumulator := s.accumulator ||| (word <<< s.bits), bits := s.bits + 64 }
    else s
  let value := UInt16.ofNat (s.accumulator % 2 ^ 32 &&& (1 <<< d) - 1)
  (value, { s with accumulator := s.accumulator >>> d, bits := s.bits - d })

/-- Unpacks `d`-bit values, least-significant bit first; a short input is zero-padded. -/
def unpack (bytes : List UInt8) (d : Nat) : Vector UInt16 N :=
  ((Vector.ofFnM fun _ : Fin N => unpackValue d).run { bytes := bytes, accumulator := 0, bits := 0 }).1

end MlkemSelkie.Encoding.Generic
