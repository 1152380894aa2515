import MlkemSelkie.Lemmas.VectorPacking

/-!
# Bit packing places and recovers every bit

Packing writes the number whose digits are the values, unpacking reads the digits of the number that the bytes are: one
number lies between the two, whatever the width. The vector kernels write and read the same number.
-/

namespace MlkemSelkie.Encoding.Generic

open Digits LittleEndian

variable {d : Nat}

/-- The number that packed values are the digits of. -/
def packedValue (d : Nat) (values : Vector UInt16 N) : Nat := value d (fun i => (values[i]!).toNat) 256

/-- The values are digits of `d` bits. -/
def Fit (d : Nat) (values : Vector UInt16 N) : Prop := ∀ i : Fin 256, values[i].toNat < 2 ^ d

theorem Fit.digit {values : Vector UInt16 N} (h : Fit d values) : ∀ i < 256, (values[i]!).toNat < 2 ^ d := by
  intro i hi
  rw [getElem!_pos values i hi]
  exact h ⟨i, hi⟩

theorem packedValue_lt {values : Vector UInt16 N} (h : Fit d values) : packedValue d values < 2 ^ (8 * (32 * d)) := by
  have hlt := value_lt h.digit
  rwa [show d * 256 = 8 * (32 * d) by omega] at hlt

/-- The packed bytes are the bytes of the number. -/
theorem ofBytes_pack (hd : d ≤ 12) {values : Vector UInt16 N} (h : Fit d values) :
    ofBytes (pack values d).toList = packedValue d values := by
  have hlt := ofBytes_lt (pack values d).toList
  rw [Vector.length_toList] at hlt
  have hvalue : packedValue d values < 2 ^ (8 * 384) :=
    (packedValue_lt h).trans_le (pow_le_pow_right₀ (by decide) (by omega))
  refine eq_of_digits hlt hvalue fun k hk => ?_
  have hbyte := pack_toNat hd values (fun i hi => h ⟨i, hi⟩) k hk
  rw [ofBytes_digit, getElem!_pos _ k (by rwa [Vector.length_toList]), Vector.getElem_toList]
  exact hbyte

/-- Bit `j` of the value `i` lands at bit `i * d + j`. -/
theorem bit_pack (hd : d ≤ 12) {values : Vector UInt16 N} (h : Fit d values) (i : Fin 256) {j : Nat} (hj : j < d) :
    Fips203.bit (pack values d).toList (i * d + j) = values[i].toNat.testBit j := by
  have hle := Nat.mul_le_mul_right d (Nat.succ_le_of_lt i.isLt)
  rw [Nat.succ_mul] at hle
  have hpos : i.val * d + j < d * 256 := by omega
  have hdiv : (i.val * d + j) / d = i.val := Nat.div_eq_of_lt_le (by omega) (by rw [Nat.succ_mul]; omega)
  have hmod : (i.val * d + j) % d = j := by rw [Nat.mul_add_mod_self_right, Nat.mod_eq_of_lt hj]
  rw [Fips203.bit, ← testBit_ofBytes, ofBytes_pack hd h, packedValue, testBit_value h.digit _ hpos, hdiv, hmod,
    getElem!_pos values i.val i.isLt]
  rfl

/-- The bytes past the packed values are zero. -/
theorem pack_tail (hd : d ≤ 12) {values : Vector UInt16 N} (h : Fit d values) (k : Fin 384) (hk : 32 * d ≤ k.val) :
    (pack values d)[k] = 0 := by
  have hbyte := pack_toNat hd values (fun i hi => h ⟨i, hi⟩) k k.isLt
  have hle : 2 ^ (8 * (32 * d)) ≤ 2 ^ (8 * k.val) := Nat.pow_le_pow_right (by decide) (by omega)
  rw [show value d (fun i => (values[i]!).toNat) 256 = packedValue d values from rfl,
    Nat.div_eq_of_lt (Nat.lt_of_lt_of_le (packedValue_lt h) hle)] at hbyte
  exact UInt8.toNat_inj.mp hbyte

/-- Two unpackings agree when the numbers they read have the same digits. -/
theorem unpack_congr (hd : 1 ≤ d) (hd' : d ≤ 12) {bytes : List UInt8} {values : Vector UInt16 N}
    (h : ∀ i : Fin 256, values[i].toNat = ofBytes bytes / 2 ^ (d * i) % 2 ^ d) : unpack bytes d = values := by
  refine Vector.ext fun i hi => UInt16.toNat_inj.mp ?_
  rw [show (values[i]).toNat = _ from h ⟨i, hi⟩]
  exact unpack_toNat hd hd' bytes ⟨i, hi⟩

/-- The packed bytes unpack to the values. -/
theorem unpack_pack (hd : 1 ≤ d) (hd' : d ≤ 12) {values : Vector UInt16 N} (h : Fit d values) :
    unpack ((pack values d).toList.take (32 * d)) d = values := by
  refine unpack_congr hd hd' fun i => ?_
  rw [ofBytes_take, ofBytes_pack hd' h, Nat.mod_eq_of_lt (packedValue_lt h), packedValue, value_digit h.digit i i.isLt,
    getElem!_pos values i.val i.isLt]
  rfl

theorem unpack_fit (hd : 1 ≤ d) (hd' : d ≤ 12) (bytes : List UInt8) : Fit d (unpack bytes d) := by
  intro i
  rw [unpack_toNat hd hd' bytes i]
  exact Nat.mod_lt _ (Nat.two_pow_pos d)

/-- Unpacked bytes pack to themselves, and zeros after them. -/
theorem pack_unpack (hd : 1 ≤ d) (hd' : d ≤ 12) {bytes : List UInt8} (hlen : bytes.length = 32 * d) :
    (pack (unpack bytes d) d).toList = bytes ++ List.replicate (384 - 32 * d) 0 := by
  have hlt := ofBytes_lt bytes
  have hdigits : packedValue d (unpack bytes d) = value d (fun i => ofBytes bytes / 2 ^ (d * i) % 2 ^ d) 256 :=
    value_congr fun i hi => by
      rw [getElem!_pos _ i hi]
      exact unpack_toNat hd hd' bytes ⟨i, hi⟩
  refine ofBytes_inj ?_ ?_
  · rw [Vector.length_toList, List.length_append, List.length_replicate, hlen]
    omega
  · rw [ofBytes_pack hd' (unpack_fit hd hd' bytes), hdigits, value_digits, ofBytes_append, ofBytes_replicate_zero,
      Nat.mul_zero, Nat.add_zero, Nat.mod_eq_of_lt]
    rwa [hlen, show 8 * (32 * d) = d * 256 by omega] at hlt

/-- Unpacking reads the first `32 d` bytes, and zeros where the bytes end before. -/
theorem unpack_resize (hd : 1 ≤ d) (hd' : d ≤ 12) (bytes : List UInt8) :
    unpack bytes d = unpack (bytes.take (32 * d) ++ List.replicate (32 * d - bytes.length) 0) d := by
  refine unpack_congr hd hd' fun i => ?_
  have hle := Nat.mul_le_mul_left d (Nat.succ_le_of_lt i.isLt)
  rw [Nat.mul_succ] at hle
  rw [unpack_toNat hd hd' _ i, ofBytes_append, ofBytes_replicate_zero, Nat.mul_zero, Nat.add_zero, ofBytes_take,
    digit_mod _ (by omega)]

/-- Bit packing places every bit, and each direction recovers what the other one read. -/
theorem pack_and_unpack (hd : 1 ≤ d) (hd' : d ≤ 12) :
    (∀ values : Vector UInt16 N, Fit d values →
      (∀ (i : Fin 256) (j : Nat), j < d → Fips203.bit (pack values d).toList (i * d + j) = values[i].toNat.testBit j) ∧
      (∀ k : Fin 384, 32 * d ≤ k.val → (pack values d)[k] = 0) ∧
      unpack ((pack values d).toList.take (32 * d)) d = values) ∧
    (∀ bytes : List UInt8, bytes.length = 32 * d →
      (pack (unpack bytes d) d).toList = bytes ++ List.replicate (384 - 32 * d) 0) ∧
    ∀ bytes : List UInt8, unpack bytes d = unpack (bytes.take (32 * d) ++ List.replicate (32 * d - bytes.length) 0) d :=
  ⟨fun _ h => ⟨fun i _ => bit_pack hd' h i, pack_tail hd' h, unpack_pack hd hd' h⟩, fun _ => pack_unpack hd hd',
    unpack_resize hd hd'⟩

/-- The largest values of 11 bits, a packed string of ones, and an empty string to unpack. -/
theorem pack_and_unpack_eleven :
    Fips203.bit (pack (Vector.replicate N 2047) 11).toList (255 * 11 + 10) = (2047 : Nat).testBit 10 ∧
      (pack (Vector.replicate N 2047) 11)[352] = 0 ∧
      unpack ((pack (Vector.replicate N 2047) 11).toList.take 352) 11 = Vector.replicate N 2047 ∧
      (pack (unpack (List.replicate 352 0xFF) 11) 11).toList = List.replicate 352 0xFF ++ List.replicate 32 0 ∧
      unpack [] 11 = unpack (List.replicate 352 0) 11 := by
  have hfit : Fit 11 (Vector.replicate N 2047) := fun i => by
    rw [Loops.getElem_fin, Vector.getElem_replicate]
    decide
  obtain ⟨hvalues, hbytes, hresize⟩ := pack_and_unpack (d := 11) (by decide) (by decide)
  obtain ⟨hbits, htail, hround⟩ := hvalues _ hfit
  exact ⟨hbits 255 10 (by decide), htail 352 (by decide), hround, hbytes _ List.length_replicate, hresize []⟩

end MlkemSelkie.Encoding.Generic

namespace MlkemSelkie.Encoding

/-! ## The vector kernels -/

/-- Both backends unpack a slice of any length as the portable kernel does, and every load lies inside the slice: a load that
does not fails. -/
theorem unpack_kernels_agree (d : Nat) (bytes : List UInt8) :
    Avx2.unpack bytes d = some (Generic.unpack bytes d) ∧ Neon.unpack bytes d = some (Generic.unpack bytes d) :=
  ⟨Avx2.unpack_eq bytes d, Neon.unpack_eq bytes d⟩

/-- Both backends pack values of the width as the portable kernel does, also when a store fails that leaves the packed
bytes. -/
theorem pack_kernels_agree {d : Nat} (hd : d ≤ 12) {values : Vector UInt16 N} (h : Generic.Fit d values) :
    (Avx2.pack values d = some (Generic.pack values d) ∧ Neon.pack values d = some (Generic.pack values d)) ∧
      Avx2.packWithin (32 * d) values d = some (Generic.pack values d) ∧
      Neon.packWithin (32 * d) values d = some (Generic.pack values d) :=
  ⟨⟨Avx2.packWithin_eq h (by omega), Neon.packWithin_eq h (by omega)⟩, Avx2.packWithin_eq h (Nat.le_refl _),
    Neon.packWithin_eq h (Nat.le_refl _)⟩

/-- The largest values of 11 bits. -/
theorem pack_kernels_agree_eleven :
    ∃ values : Vector UInt16 N, values = Vector.replicate N 2047 ∧
      (Avx2.pack values 11 = some (Generic.pack values 11) ∧ Neon.pack values 11 = some (Generic.pack values 11)) ∧
      Avx2.packWithin 352 values 11 = some (Generic.pack values 11) ∧
      Neon.packWithin 352 values 11 = some (Generic.pack values 11) := by
  have hfit : Generic.Fit 11 (Vector.replicate N 2047) := fun i => by
    rw [Loops.getElem_fin, Vector.getElem_replicate]
    decide
  exact ⟨_, rfl, pack_kernels_agree (by decide) hfit⟩

end MlkemSelkie.Encoding
