import MlkemSelkie.Fips.Kem
import MlkemSelkie.Lemmas.Packing
import MlkemSelkie.Lemmas.Vector

/-!
# Serialization in the code and in FIPS 203

The encodings of ring elements are those of FIPS 203 on the exact elements they stand for, whatever the representatives;
the decodings are canonical representatives.
-/

namespace MlkemSelkie

open Fips203 Loops FieldElement

variable {P : ParameterSet}

/-! ## Ring elements -/

theorem canonical_eq (t : TqElement) (k : Fin 256) : (t.canonical[k]).toNat = (t.toTq k).val := by
  have hpos := (storagePos k).isLt
  rw [TqElement.toTq_apply, ← value_eq_val, TqElement.canonical, Loops.getElem_fin, Poly.Generic.canonical,
    Vector.getElem_ofFn, getElem!_pos _ (k.val % 2 * 128 + k.val / 2) hpos]
  rfl

/-- `ByteEncode_12` of the code. -/
theorem byteEncode_toList (t : TqElement) : t.byteEncode.toList = Fips203.byteEncode 12 fun j => (t.toTq j).val := by
  have h := pack_eq_byteEncode (d := 12) (by decide) t.canonical (fun j => (t.toTq j).val)
    (fun j => Nat.lt_trans (ZMod.val_lt _) (by decide)) (canonical_eq t) 384 (by decide) (by decide)
  rw [List.take_of_length_le (by rw [Vector.length_toList])] at h
  exact h

/-- `ByteDecode_12` of the code. -/
theorem byteDecode_represents (bytes : List UInt8) :
    (TqElement.byteDecode bytes).Represents 3328 fun j => (Fips203.byteDecode 12 bytes j : Zq) := by
  have hwithin : Coefficients.Within 3328 ((Encoding.Generic.unpack bytes 12).map FieldElement.new) := by
    intro i
    rw [Loops.getElem_fin, Vector.getElem_map]
    exact new_within _
  have hzq : Coefficients.toZq ((Encoding.Generic.unpack bytes 12).map FieldElement.new) =
      fun j => (Fips203.byteDecode 12 bytes j : Zq) := by
    funext j
    rw [Coefficients.toZq, Loops.getElem_fin, Vector.getElem_map, toZq_new]
    have h := Encoding.Generic.unpack_toNat (d := 12) (by decide) (by decide) bytes j
    rw [Loops.getElem_fin] at h
    rw [h, byteDecode_eq, if_neg (by decide), ZMod.natCast_mod]
  rw [← hzq]
  exact TqElement.new_represents hwithin

theorem compress_lt (d : Nat) (x : Zq) : Fips203.compress d x < 2 ^ d := by
  have h := Int.emod_lt_of_pos (round ((2 ^ d / 3329 : ℚ) * x.val)) (show (0 : Int) < 2 ^ d by positivity)
  rw [Fips203.compress]
  have hcast : ((2 ^ d : Nat) : Int) = 2 ^ d := by push_cast; rfl
  omega

theorem compressed_eq (f : RqElement) {d : Nat} (hd : d ≤ 11) (j : Fin 256) :
    ((f.compressed d)[j]).toNat = Fips203.compress d (f.toRq j) := by
  rw [RqElement.compressed, Poly.Generic.compress, Loops.getElem_fin, Vector.getElem_map]
  exact compress_eq _ d hd

/-- `ByteEncode_d(Compress_d(.))` of the code. -/
theorem compressEncode_toList (f : RqElement) {d : Nat} (hd : 1 ≤ d) (hd' : d ≤ 11) :
    (f.compressEncode d).toList.take (32 * d) = Fips203.byteEncode d fun j => Fips203.compress d (f.toRq j) :=
  pack_eq_byteEncode (by omega) _ _ (fun _ => compress_lt d _) (compressed_eq f hd') 352 (by omega) (by decide)

/-- `compress_message` of the code. -/
theorem compressMessage_toList (f : RqElement) :
    f.compressMessage.toList = Fips203.byteEncode 1 fun j => Fips203.compress 1 (f.toRq j) := by
  have h := pack_eq_byteEncode (d := 1) (by decide) (f.compressed 1) (fun j => Fips203.compress 1 (f.toRq j))
    (fun _ => compress_lt 1 _) (compressed_eq f (by decide)) 32 (by decide) (by decide)
  rw [List.take_of_length_le (by rw [Vector.length_toList])] at h
  exact h

/-- `Decompress_d(ByteDecode_d(.))` of the code. -/
theorem decodeDecompress_represents (bytes : List UInt8) {d : Nat} (hd : 1 ≤ d) (hd' : d ≤ 11) :
    (RqElement.decodeDecompress bytes d).Represents 3328 fun j => Fips203.decompress d (Fips203.byteDecode d bytes j) := by
  have hfield : ∀ j : Fin 256, ((Encoding.Generic.unpack bytes d)[j]).toNat = Fips203.byteDecode d bytes j := by
    intro j
    rw [Encoding.Generic.unpack_toNat hd (by omega), byteDecode_eq, if_pos (by omega), Nat.mod_mod]
  have hlt : ∀ j : Fin 256, ((Encoding.Generic.unpack bytes d)[j]).toNat < 2 ^ d := by
    intro j
    rw [Encoding.Generic.unpack_toNat hd (by omega)]
    exact Nat.mod_lt _ (Nat.two_pow_pos d)
  have hget : ∀ j : Fin 256, (RqElement.decodeDecompress bytes d).inner[j] =
      FieldElement.decompress (Encoding.Generic.unpack bytes d)[j] d := by
    intro j
    rw [RqElement.decodeDecompress, RqElement.decompress, Poly.Generic.decompress, Loops.getElem_fin, Vector.getElem_map]
    rfl
  refine ⟨fun j => ?_, funext fun j => ?_⟩
  · rw [hget, FieldElement.Within, decompress_toInt _ d hd (hlt j)]
    have := Nat.mod_lt ((3329 * ((Encoding.Generic.unpack bytes d)[j]).toNat + 2 ^ (d - 1)) / 2 ^ d)
      (show 0 < 3329 by decide)
    omega
  · rw [RqElement.toRq, Coefficients.toZq, hget, decompress_eq _ d hd (hlt j), hfield]

/-! ## Vectors -/

/-- A slice of a prefix is a slice of the whole. -/
theorem take_drop_take {α : Type} (l : List α) {n off size : Nat} (h : off + size ≤ n) :
    ((l.take n).drop off).take size = (l.drop off).take size := by
  rw [List.drop_take, List.take_take, Nat.min_eq_left (by omega)]

/-- The chunks of a prefix that `K` whole chunks fill. -/
theorem chunk_of_take {bytes : List UInt8} {size : Nat} (hsize : 0 < size) (hlen : size * P.K ≤ bytes.length) (i : Fin P.K) :
    (chunksExact size (bytes.take (size * P.K)))[i.val]?.getD [] = (bytes.drop (size * i)).take size := by
  have hle := Nat.mul_le_mul_left size (Nat.succ_le_of_lt i.isLt)
  rw [Nat.mul_succ] at hle
  rw [chunksExact_getElem?, Option.getD_some, take_drop_take _ hle]
  rw [List.length_take, Nat.min_eq_left hlen, Nat.mul_div_cancel_left _ hsize]
  exact i.isLt

/-- `ByteDecode_12` of a vector. -/
theorem vector_byteDecode_represents (bytes : List UInt8) (hlen : 384 * P.K ≤ bytes.length) :
    (TqVector.byteDecode (bytes.take (384 * P.K)) : TqVector P).Represents 3328 fun i => decodeVector bytes i := by
  intro i
  rw [TqVector.byteDecode, Loops.getElem_fin, Vector.getElem_ofFn]
  simp only []
  rw [chunk_of_take (by decide) hlen i]
  exact byteDecode_represents _

/-- `ByteEncode_12` of a vector, concatenated. -/
theorem vector_byteEncoded (v : TqVector P) : (v.byteEncoded.toList.map (·.toList)).flatten = encodeVector v.toTq := by
  rw [TqVector.byteEncoded, encodeVector, Vector.toList_map, List.map_map]
  refine congrArg List.flatten (List.ext_getElem ?_ fun i h1 h2 => ?_)
  · rw [List.length_map, Vector.length_toList, List.length_ofFn]
  · rw [List.getElem_map, List.getElem_ofFn, Function.comp_apply, Vector.getElem_toList, byteEncode_toList]
    rfl

theorem length_encodeVector {k : Nat} (x : Fin k → Tq) : (encodeVector x).length = 384 * k := by
  rw [encodeVector, List.length_flatten, List.map_ofFn, List.sum_ofFn]
  simp only [Function.comp_apply, length_byteEncode, Finset.sum_const, Finset.card_univ, Fintype.card_fin, smul_eq_mul]
  omega

/-- `Decompress_d(ByteDecode_d(.))` of a vector. -/
theorem vector_decodeDecompress_represents (bytes : List UInt8) {d : Nat} (hd : 1 ≤ d) (hd' : d ≤ 11)
    (hlen : 32 * d * P.K ≤ bytes.length) :
    (RqVector.decodeDecompress (bytes.take (32 * d * P.K)) d : RqVector P).Represents 3328 fun i j =>
      Fips203.decompress d (Fips203.byteDecode d ((bytes.drop (32 * d * i)).take (32 * d)) j) := by
  intro i
  rw [RqVector.decodeDecompress, Loops.getElem_fin, Vector.getElem_ofFn]
  simp only []
  rw [chunk_of_take (by omega) hlen i]
  exact decodeDecompress_represents _ hd hd'

end MlkemSelkie
