import Mathlib.Data.ZMod.ValMinAbs
import Mathlib.Tactic.IntervalCases
import MlkemSelkie.Lemmas.Encoding

/-!
# Round trips of the encodings of FIPS 203

Decoding undoes encoding on every integer of the width, and encoding undoes decoding on the byte strings whose fields are
such integers: for the 12-bit encoding, the ones below q. Compression undoes decompression, and decompression returns a
compressed element within half a step.
-/

namespace Fips203

open Loops Digits LittleEndian MlkemSelkie

/-! ## Fields -/

theorem field_lt (d : Nat) (bytes : List UInt8) (i : Nat) : field d bytes i < 2 ^ d := by
  rw [field_eq]
  exact Nat.mod_lt _ (Nat.two_pow_pos d)

/-- The fields of an encoding are its integers. -/
theorem field_byteEncode {d : Nat} (F : Fin 256 → Nat) (hF : ∀ i, F i < 2 ^ d) (i : Fin 256) :
    field d (byteEncode d F) i = F i := by
  have hv : ∀ j : Fin 256, F (Fin.ofNat 256 j) = F j := fun j => congrArg F (Fin.ext (Nat.mod_eq_of_lt j.isLt))
  rw [field_eq, ofBytes_byteEncode F hF (fun n => F (Fin.ofNat 256 n)) hv, value_digit (fun j _ => hF _) i i.isLt, hv]

/-- The encoding of the fields of a byte string. -/
theorem byteEncode_field {d : Nat} {bytes : List UInt8} (hlen : bytes.length = 32 * d) :
    byteEncode d (fun i => field d bytes i) = bytes := by
  refine ofBytes_inj (by rw [length_byteEncode, hlen]) ?_
  have hlt := ofBytes_lt bytes
  have hfields : value d (field d bytes) 256 = value d (fun i => ofBytes bytes / 2 ^ (d * i) % 2 ^ d) 256 :=
    value_congr fun i _ => field_eq d bytes i
  rw [ofBytes_byteEncode _ (fun i => field_lt d bytes i) (field d bytes) fun _ => rfl, hfields, value_digits,
    Nat.mod_eq_of_lt (by rwa [hlen, show 8 * (32 * d) = d * 256 by omega] at hlt)]

/-- The fields of a slice. -/
theorem field_slice {d : Nat} (bytes : List UInt8) (k : Nat) (i : Fin 256) :
    field d ((bytes.drop (32 * d * k)).take (32 * d)) i = field d bytes (256 * k + i) := by
  have hle : d * i + d ≤ 8 * (32 * d) := by
    have := Nat.mul_le_mul_left d (Nat.succ_le_of_lt i.isLt)
    rw [Nat.mul_succ] at this
    omega
  rw [field_eq, field_eq, ofBytes_take, ofBytes_drop, digit_window _ hle, Nat.mul_add,
    show 8 * (32 * d * k) = d * (256 * k) by ring]

/-! ## The 12-bit encoding -/

theorem byteDecode_byteEncode {d : Nat} (F : Fin 256 → Nat) (hF : ∀ i, F i < 2 ^ d)
    (hF' : ∀ i, F i < if d < 12 then 2 ^ d else 3329) : byteDecode d (byteEncode d F) = F := by
  funext i
  rw [byteDecode, field_byteEncode F hF, Nat.mod_eq_of_lt (hF' i)]

/-- Decoding undoes the encoding of a vector, whatever follows it. -/
theorem decodeVector_encodeVector {k : Nat} (x : Fin k → Tq) (rest : List UInt8) (i : Fin k) :
    decodeVector (encodeVector x ++ rest) i = x i := by
  have hval : ∀ i j, (x i j).val < 3329 := fun i j => ZMod.val_lt _
  have hblock : ∀ i, (byteEncode 12 fun j => (x i j).val).length = 384 := fun i => length_byteEncode 12 _
  funext j
  rw [decodeVector, encodeVector, slice_flatten_ofFn hblock,
    byteDecode_byteEncode _ (fun j => Nat.lt_trans (hval i j) (by decide))
      (fun j => by rw [if_neg (by decide)]; exact hval i j), ZMod.natCast_zmod_val]

/-- A decoded coefficient is its field reduced modulo q. -/
theorem decodeVector_val (bytes : List UInt8) (i : Nat) (j : Fin 256) :
    (decodeVector bytes i j).val = field 12 bytes (256 * i + j) % 3329 := by
  rw [← field_slice (d := 12) bytes i j, decodeVector, ZMod.val_natCast, byteDecode, if_neg (by decide), Nat.mod_mod]

/-- Encoding undoes the decoding of a vector exactly when every 12-bit field is below q. -/
theorem encodeVector_decodeVector_iff {k : Nat} {bytes : List UInt8} (hlen : bytes.length = 384 * k) :
    encodeVector (fun i : Fin k => decodeVector bytes i) = bytes ↔ ∀ n < 256 * k, field 12 bytes n < 3329 := by
  have hblock : ∀ i : Fin k, ((bytes.drop (384 * i)).take 384).length = 32 * 12 := fun i => by
    have := Nat.mul_le_mul_left 384 (Nat.succ_le_of_lt i.isLt)
    rw [Nat.mul_succ] at this
    rw [List.length_take, List.length_drop]
    omega
  rw [encodeVector, flatten_ofFn_eq_iff (fun i => length_byteEncode 12 _) hlen]
  refine ⟨fun h n hn => ?_, fun h i => ?_⟩
  · have hi : n / 256 < k := Nat.div_lt_of_lt_mul hn
    have hfield := congrArg (fun b => field 12 b (n % 256)) (h ⟨n / 256, hi⟩)
    have hencode := field_byteEncode (d := 12) (fun j => (decodeVector bytes (n / 256) j).val)
      (fun j => Nat.lt_trans (ZMod.val_lt _) (by decide)) ⟨n % 256, Nat.mod_lt n (by decide)⟩
    have hslice := field_slice (d := 12) bytes (n / 256) ⟨n % 256, Nat.mod_lt n (by decide)⟩
    simp only [Nat.div_add_mod] at hfield hencode hslice
    rw [← hslice]
    exact (hfield.symm.trans hencode).trans_lt (ZMod.val_lt _)
  · rw [← byteEncode_field (hblock i)]
    refine congrArg (byteEncode 12) (funext fun j => ?_)
    rw [decodeVector_val, field_slice (d := 12) bytes i j]
    have hj := j.isLt
    have hi := i.isLt
    exact Nat.mod_eq_of_lt (h _ (by omega))

/-! ## Compression -/

/-- Compressing what `d` bits decompress to, on natural numbers. -/
theorem compress_decompress_nat {d : Nat} (hd : 1 ≤ d) (hd' : d ≤ 11) {y : Nat} (hy : y < 2 ^ d) :
    ((3329 * y + 2 ^ (d - 1)) / 2 ^ d % 3329 * 2 ^ d + 1664) / 3329 % 2 ^ d = y := by
  have hpow : 2 ^ d = 2 * 2 ^ (d - 1) := by rw [← pow_succ', Nat.sub_add_cancel hd]
  have hhalf : 2 ^ (d - 1) ≤ 1024 := Nat.pow_le_pow_right (n := 2) (by decide) (show d - 1 ≤ 10 by omega)
  have hlt : (3329 * y + 2 ^ (d - 1)) / 2 ^ d < 3329 := Nat.div_lt_of_lt_mul (by omega)
  have hdiv := Nat.div_add_mod (3329 * y + 2 ^ (d - 1)) (2 ^ d)
  have hrem := Nat.mod_lt (3329 * y + 2 ^ (d - 1)) (Nat.two_pow_pos d)
  rw [Nat.mod_eq_of_lt hlt, Nat.mul_comm _ (2 ^ d),
    show (2 ^ d * ((3329 * y + 2 ^ (d - 1)) / 2 ^ d) + 1664) / 3329 = y by omega,
    Nat.mod_eq_of_lt hy]

/-- Compression undoes decompression. -/
theorem compress_decompress {d : Nat} (hd : 1 ≤ d) (hd' : d ≤ 11) {y : Nat} (hy : y < 2 ^ d) :
    compress d (decompress d y) = y := by
  rw [FieldElement.compress_val, FieldElement.decompress_val hd, ZMod.val_natCast]
  exact compress_decompress_nat hd hd' hy

/-- Decompressing what an integer compresses to, on natural numbers. -/
theorem decompress_compress_nat {d : Nat} (hd : 1 ≤ d) (hd' : d ≤ 11) (v : Nat) :
    (((3329 * ((v * 2 ^ d + 1664) / 3329) + 2 ^ (d - 1)) / 2 ^ d : Nat) - (v : Int)).natAbs ≤
      (2 * 3329 + 2 ^ (d + 1)) / (2 * 2 ^ (d + 1)) := by
  interval_cases d <;> norm_num <;> omega

/-- A representative bounds the centered one. -/
theorem valMinAbs_le_of_cast {z : Zq} {t : Int} {B : Nat} (h : (t : Zq) = z) (ht : t.natAbs ≤ B) :
    (ZMod.valMinAbs z).natAbs ≤ B :=
  Nat.le_trans (ZMod.natAbs_min_of_le_div_two 3329 (ZMod.valMinAbs z) t (by rw [ZMod.coe_valMinAbs, h])
    (ZMod.natAbs_valMinAbs_le z)) ht

/-- Decompression is periodic. -/
theorem decompress_mod {d : Nat} (hd : 1 ≤ d) (y : Nat) : decompress d (y % 2 ^ d) = decompress d y := by
  have hq : ((3329 : Nat) : Zq) = 0 := ZMod.natCast_self 3329
  have hsplit : 3329 * y + 2 ^ (d - 1) = 3329 * (y % 2 ^ d) + 2 ^ (d - 1) + 2 ^ d * (3329 * (y / 2 ^ d)) := by
    calc 3329 * y + 2 ^ (d - 1) = 3329 * (y % 2 ^ d + 2 ^ d * (y / 2 ^ d)) + 2 ^ (d - 1) := by rw [Nat.mod_add_div]
      _ = _ := by ring
  rw [FieldElement.decompress_val hd, FieldElement.decompress_val hd, hsplit, Nat.add_mul_div_left _ _ (Nat.two_pow_pos d),
    Nat.cast_add, Nat.cast_mul, hq, zero_mul, add_zero]

/-- Decompression returns a compressed element within half a step of `q / 2^d`. -/
theorem decompress_compress {d : Nat} (hd : 1 ≤ d) (hd' : d ≤ 11) (x : Zq) :
    ((ZMod.valMinAbs (decompress d (compress d x) - x)).natAbs : Int) ≤ round ((3329 : ℚ) / 2 ^ (d + 1)) := by
  have hround : round ((3329 : ℚ) / 2 ^ (d + 1)) = ((2 * 3329 + 2 ^ (d + 1)) / (2 * 2 ^ (d + 1)) : Nat) := by
    have h := FieldElement.round_div 3329 (2 ^ (d + 1)) (Nat.two_pow_pos _)
    push_cast at h ⊢
    exact h
  rw [hround, Int.ofNat_le]
  refine valMinAbs_le_of_cast ?_ (decompress_compress_nat hd hd' (ZMod.val x))
  rw [FieldElement.compress_val, decompress_mod hd, FieldElement.decompress_val hd, Int.cast_sub, Int.cast_natCast,
    Int.cast_natCast, ZMod.natCast_zmod_val]

end Fips203
