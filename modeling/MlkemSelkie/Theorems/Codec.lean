import MlkemSelkie.Lemmas.Decryption
import MlkemSelkie.Lemmas.Pke

/-!
# Round trips of the ciphertext codec

Re-encoding a decoded ciphertext returns its bytes, and decoding an encoded pair returns every coefficient within half a
step of the compression, whatever the representatives.
-/

namespace Fips203

open Loops MlkemSelkie

/-- Compressing and encoding what a byte string decodes and decompresses to. -/
theorem byteEncode_compress_decompress {d : Nat} (hd : 1 ≤ d) (hd' : d ≤ 11) {bytes : List UInt8}
    (hlen : bytes.length = 32 * d) :
    (byteEncode d fun j => compress d (decompress d (byteDecode d bytes j))) = bytes := by
  have hfield : ∀ j : Fin 256, compress d (decompress d (byteDecode d bytes j)) = field d bytes j := fun j => by
    rw [byteDecode, if_pos (by omega), Nat.mod_eq_of_lt (field_lt d bytes j)]
    exact compress_decompress hd hd' (field_lt d bytes j)
  rw [funext hfield, byteEncode_field hlen]

/-- Compressing the pair that a byte string decompresses to. -/
theorem compressPair_decompress {p : Params} (hdu : 1 ≤ p.du ∧ p.du ≤ 11) (hdv : 1 ≤ p.dv ∧ p.dv ≤ 11) {c : List UInt8}
    (hlen : c.length = 32 * p.du * p.k + 32 * p.dv) :
    compressPair p (fun i : Fin p.k => decompressU p c i) (decompressV p c) = c := by
  have hslice : ∀ i : Fin p.k, (byteEncode p.du fun j => compress p.du (decompressU p c i j)) =
      ((c.take (32 * p.du * p.k)).drop (32 * p.du * i)).take (32 * p.du) := fun i => by
    have hle := Nat.mul_le_mul_left (32 * p.du) (Nat.succ_le_of_lt i.isLt)
    rw [Nat.mul_succ] at hle
    rw [take_drop_take c hle]
    refine byteEncode_compress_decompress hdu.1 hdu.2 ?_
    rw [List.length_take, List.length_drop]
    omega
  have hu : (List.ofFn fun i : Fin p.k => byteEncode p.du fun j => compress p.du (decompressU p c i j)).flatten =
      c.take (32 * p.du * p.k) := by
    rw [funext hslice]
    exact flatten_slices (by rw [List.length_take]; omega)
  have hv : (byteEncode p.dv fun j => compress p.dv (decompressV p c j)) = c.drop (32 * p.du * p.k) :=
    byteEncode_compress_decompress hdv.1 hdv.2 (by rw [List.length_drop]; omega)
  rw [compressPair, hu, hv, List.take_append_drop]

end Fips203

namespace MlkemSelkie

open Fips203

variable {P : ParameterSet}

/-- Re-encoding the pair that a ciphertext decodes to. -/
theorem fromUv_decodeDecompress (c : Ciphertext P) :
    Ciphertext.fromUv (RqVector.decodeDecompress (c.bytes.toList.take (32 * P.dU * P.K)) P.dU)
      (RqElement.decodeDecompress (c.bytes.toList.drop (32 * P.dU * P.K)) P.dV) = c := by
  obtain ⟨hu, hv⟩ := decompress_represents c
  refine Ciphertext.toList_inj.mp ?_
  rw [Ciphertext.fromUv_toList, hu.toRq_eq, show RqElement.toRq _ = _ from hv.2]
  refine compressPair_decompress (p := P.fips) (widths P).1 (widths P).2 ?_
  rw [Vector.length_toList, ParameterSet.ciphertextSize, Nat.mul_add, Nat.mul_assoc]

/-- Compressing the polynomial of a message. -/
theorem compressMessage_fromMessage (m : Vector UInt8 32) : (RqElement.fromMessage m).compressMessage = m := by
  refine Vector.toList_inj.mp ?_
  rw [compressMessage_toList, show RqElement.toRq _ = _ from (fromMessage_represents m).2]
  exact byteEncode_compress_decompress (by decide) (by decide) Vector.length_toList

/-- Decoding an encoded pair returns every coefficient within half a step. -/
theorem decodeDecompress_fromUv (u : RqVector P) (v : RqElement) :
    let c := (Ciphertext.fromUv u v).bytes.toList
    let u' : RqVector P := RqVector.decodeDecompress (c.take (32 * P.dU * P.K)) P.dU
    let v' := RqElement.decodeDecompress (c.drop (32 * P.dU * P.K)) P.dV
    (∀ i j, ((ZMod.valMinAbs (u'.toRq i j - u.toRq i j)).natAbs : Int) ≤ round ((3329 : ℚ) / 2 ^ (P.dU + 1))) ∧
      ∀ j, ((ZMod.valMinAbs (v'.toRq j - v.toRq j)).natAbs : Int) ≤ round ((3329 : ℚ) / 2 ^ (P.dV + 1)) := by
  obtain ⟨⟨hdU, hdU'⟩, hdV, hdV'⟩ := widths P
  obtain ⟨hu, hv⟩ := decompress_represents (Ciphertext.fromUv u v)
  rw [Ciphertext.fromUv_toList] at hu hv
  simp only [Ciphertext.fromUv_toList, hu.toRq_eq, show RqElement.toRq _ = _ from hv.2]
  refine ⟨fun i j => ?_, fun j => ?_⟩
  · rw [decompressU_compressPair (p := P.fips) _ _ hdU hdU' i, Pi.add_apply, add_sub_cancel_left]
    exact decompress_compress hdU hdU' _
  · rw [decompressV_compressPair (p := P.fips) _ _ hdV hdV', Pi.add_apply, add_sub_cancel_left]
    exact decompress_compress hdV hdV' _

/-- The round trips of the ciphertext codec. -/
theorem ciphertext_codec_roundtrip (P : ParameterSet) :
    (∀ c : Ciphertext P, (Ciphertext.fromUv (RqVector.decodeDecompress (c.bytes.toList.take (32 * P.dU * P.K)) P.dU)
      (RqElement.decodeDecompress (c.bytes.toList.drop (32 * P.dU * P.K)) P.dV)).bytes = c.bytes) ∧
    (∀ m : Vector UInt8 32, (RqElement.fromMessage m).compressMessage = m) ∧
    ∀ (u : RqVector P) (v : RqElement),
      let c := (Ciphertext.fromUv u v).bytes.toList
      let u' : RqVector P := RqVector.decodeDecompress (c.take (32 * P.dU * P.K)) P.dU
      let v' := RqElement.decodeDecompress (c.drop (32 * P.dU * P.K)) P.dV
      (∀ i j, ((ZMod.valMinAbs (u'.toRq i j - u.toRq i j)).natAbs : Int) ≤ round ((3329 : ℚ) / 2 ^ (P.dU + 1))) ∧
        ∀ j, ((ZMod.valMinAbs (v'.toRq j - v.toRq j)).natAbs : Int) ≤ round ((3329 : ℚ) / 2 ^ (P.dV + 1)) :=
  ⟨fun c => congrArg Ciphertext.bytes (fromUv_decodeDecompress c), compressMessage_fromMessage, decodeDecompress_fromUv⟩

end MlkemSelkie
