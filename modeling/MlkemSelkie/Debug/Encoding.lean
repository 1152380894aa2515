import MlkemSelkie.Debug.Poly

/-!
# Serialization with its assertions

`encoding.rs` and `encoding/arch/generic.rs` as a build with debug assertions and overflow checks runs them. A mutable
slice is split, written and put together again.
-/

namespace MlkemSelkie

open Runs

variable {P : ParameterSet}

namespace Encoding.Generic

/-- The local variables of `pack`: the chunks of the output already yielded and those left, the accumulator and its bit
count. -/
structure DebugPackState where
  written : List UInt8
  words : List UInt8
  accumulator : Nat
  bits : Nat

/-- Writes a word into the next chunk, as long as there is one. -/
def debugWriteWord (s : DebugPackState) (word : Nat) : Run DebugPackState :=
  if 8 ≤ s.words.length then do
    let chunk ← copyFromSlice (s.words.take 8) (LittleEndian.toBytes 8 word)
    return { s with written := s.written ++ chunk, words := s.words.drop 8 }
  else .ok s

/-- The body of the loop of `pack`. -/
def debugPackValue (d : Nat) (s : DebugPackState) (value : UInt16) : Run DebugPackState := do
  assert (s.bits < 128)
  let accumulator := s.accumulator ||| ((value.toNat <<< s.bits) % 2 ^ 128)
  let bits ← usize (s.bits + d)
  if 64 ≤ bits then do
    let s ← debugWriteWord s (accumulator % 2 ^ 64)
    return { s with accumulator := accumulator >>> 64, bits := ← sub bits 64 }
  else return { s with accumulator, bits }

/-- `pack` of the portable backend. -/
def debugPack (values : Vector UInt16 N) (d : Nat) : Run (Vector UInt8 384) := do
  let s ← values.toList.foldlM (debugPackValue d)
    { written := [], words := List.replicate 384 0, accumulator := 0, bits := 0 }
  return Loops.arrayOf 384 (s.written ++ s.words)

/-- The local variables of `unpack`: the whole words not yet read, the partial one behind them, the accumulator and its bit
count. -/
structure DebugUnpackState where
  words : List (List UInt8)
  tail : Option (List UInt8)
  accumulator : Nat
  bits : Nat

/-- The closure `next_word`: the next word, and the words and the rest left. -/
def debugNextWord (words : List (List UInt8)) (tail : Option (List UInt8)) :
    Run (Nat × List (List UInt8) × Option (List UInt8)) :=
  match words with
  | chunk :: words => do
    let word ← copyIntoArray 8 chunk
    return (LittleEndian.ofBytes word.toList, words, tail)
  | [] =>
    match tail with
    | some rest => do
      let (padded, zeros) ← splitAt rest.length (List.replicate 8 0)
      let padded ← copyFromSlice padded rest
      return (LittleEndian.ofBytes (padded ++ zeros), [], none)
    | none => .ok (0, [], none)

/-- Reads the next word where fewer bits than a value's are left. -/
def debugRefill (d : Nat) (s : DebugUnpackState) : Run DebugUnpackState :=
  if s.bits < d then do
    let (word, words, tail) ← debugNextWord s.words s.tail
    assert (s.bits < 128)
    return { words, tail, accumulator := s.accumulator ||| ((word <<< s.bits) % 2 ^ 128), bits := ← usize (s.bits + 64) }
  else .ok s

/-- The closure `unpack` calls for each value. -/
def debugUnpackValue (d mask : Nat) : StateT DebugUnpackState Run UInt16 := fun s => do
  let s ← debugRefill d s
  let value := UInt16.ofNat (s.accumulator % 2 ^ 32 &&& mask)
  assert (d < 128)
  return (value, { s with accumulator := s.accumulator >>> d, bits := ← sub s.bits d })

/-- `unpack` of the portable backend. -/
def debugUnpack (bytes : List UInt8) (d : Nat) : Run (Vector UInt16 N) := do
  assert (d < 32)
  let mask ← sub ((1 <<< d) % 2 ^ 32) 1
  let words ← chunksExact 8 bytes
  let (values, _) ← Vector.ofFnM (fun _ : Fin N => debugUnpackValue d mask)
    { words, tail := (some (remainder 8 bytes)).filter fun rest => !rest.isEmpty, accumulator := 0, bits := 0 }
  return values

end Encoding.Generic

/-- `pack`. -/
def Encoding.debugPack (size : Nat) (values : Vector UInt16 N) (d : Nat) : Run (Vector UInt8 size) := do
  assert (N * d / 8 ≤ size)
  let full ← Encoding.Generic.debugPack values d
  let (out, rest) ← splitAt (min size 384) (List.replicate size 0)
  let (source, _) ← splitAt (min size 384) full.toList
  let out ← copyFromSlice out source
  return Loops.arrayOf size (out ++ rest)

namespace TqElement

/-- `canonical` and `byte_encode`. -/
def debugByteEncode (t : TqElement) : Run (Vector UInt8 384) := do
  Encoding.debugPack 384 (← Poly.Generic.debugCanonical t.inner) 12

/-- `byte_decode`. -/
def debugByteDecode (bytes : List UInt8) : Run TqElement := do
  let values ← Encoding.Generic.debugUnpack bytes 12
  TqElement.debugNew (← Vector.ofFnM fun i => FieldElement.debugNew values[i])

end TqElement

namespace RqElement

/-- `compress_encode`. -/
def debugCompressEncode (f : RqElement) (d : Nat) : Run (Vector UInt8 352) := do
  Encoding.debugPack 352 (← Poly.Generic.debugCompress f.inner d) d

/-- `decode_decompress`. -/
def debugDecodeDecompress (bytes : List UInt8) (d : Nat) : Run RqElement := do
  return ⟨← Poly.Generic.debugDecompress (← Encoding.Generic.debugUnpack bytes d) d⟩

/-- `from_message`. -/
def debugFromMessage (message : Vector UInt8 32) : Run RqElement := debugDecodeDecompress message.toList 1

/-- `compress_message`. -/
def debugCompressMessage (f : RqElement) : Run (Vector UInt8 32) := do
  Encoding.debugPack 32 (← Poly.Generic.debugCompress f.inner 1) 1

end RqElement

namespace TqVector

/-- `byte_encoded`. -/
def debugByteEncoded (v : TqVector P) : Run (Vector (Vector UInt8 384) P.K) :=
  fromNext P.K TqElement.debugByteEncode v.polys.toList

/-- `byte_decode`. -/
def debugByteDecode (bytes : List UInt8) : Run (TqVector P) := do
  let chunks ← chunksExact 384 bytes
  return ⟨← fromNext P.K TqElement.debugByteDecode chunks⟩

end TqVector

/-- `decode_decompress` of a vector. -/
def RqVector.debugDecodeDecompress (bytes : List UInt8) (d : Nat) : Run (RqVector P) := do
  let chunks ← chunksExact (32 * d) bytes
  return ⟨← fromNext P.K (RqElement.debugDecodeDecompress · d) chunks⟩

end MlkemSelkie
