import MlkemSelkie.Vector
import MlkemSelkie.Encoding.Generic

/-!
# Byte serialization and compression

`encoding.rs`: `ByteEncode_d` and `ByteDecode_d` of section 4.2.1 of FIPS 203, fused with compression except for the
12-bit key encoding.
-/

namespace MlkemSelkie

open Encoding Loops

variable {P : ParameterSet}

/-- `pack`: the packed values in a `size`-byte array, the tail zero. -/
def Encoding.pack (size : Nat) (values : Vector UInt16 N) (d : Nat) : Vector UInt8 size :=
  let full := Generic.pack values d
  Vector.ofFn fun i => full[i.val]!

namespace TqElement

/-- `ByteEncode_12`. -/
def byteEncode (t : TqElement) : Vector UInt8 384 := Encoding.pack 384 t.canonical 12

/-- `ByteDecode_12`: every 12-bit value is reduced mod q. -/
def byteDecode (bytes : List UInt8) : TqElement :=
  TqElement.new ((Encoding.Generic.unpack bytes 12).map FieldElement.new)

end TqElement

namespace RqElement

/-- `ByteEncode_d(Compress_d(f))` in the leading `32 * d` bytes. -/
def compressEncode (f : RqElement) (d : Nat) : Vector UInt8 352 := Encoding.pack 352 (f.compressed d) d

/-- `Decompress_d(ByteDecode_d(bytes))`. -/
def decodeDecompress (bytes : List UInt8) (d : Nat) : RqElement :=
  RqElement.decompress (Encoding.Generic.unpack bytes d) d

/-- The polynomial of a message: each bit becomes 0 or `(q + 1) / 2`. -/
def fromMessage (message : Vector UInt8 32) : RqElement := decodeDecompress message.toList 1

/-- The message of a polynomial, by `Compress_1`. -/
def compressMessage (f : RqElement) : Vector UInt8 32 := Encoding.pack 32 (f.compressed 1) 1

end RqElement

namespace TqVector

/-- `ByteEncode_12` of every component. -/
def byteEncoded (v : TqVector P) : Vector (Vector UInt8 384) P.K := v.polys.map TqElement.byteEncode

/-- `ByteDecode_12` componentwise, of the consecutive 384-byte chunks. -/
def byteDecode (bytes : List UInt8) : TqVector P :=
  ⟨Vector.ofFn fun i => TqElement.byteDecode ((chunksExact 384 bytes)[i.val]?.getD [])⟩

end TqVector

/-- `Decompress_d(ByteDecode_d(.))` componentwise, of the consecutive chunks of `32 * d` bytes. -/
def RqVector.decodeDecompress (bytes : List UInt8) (d : Nat) : RqVector P :=
  ⟨Vector.ofFn fun i => RqElement.decodeDecompress ((chunksExact (32 * d) bytes)[i.val]?.getD []) d⟩

end MlkemSelkie
