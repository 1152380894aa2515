import MlkemSelkie.Fips.Evaluation
import MlkemSelkie.Fips.Transform
import MlkemSelkie.Lemmas.Decryption

/-!
# The algorithms on numbers compute the algorithms of FIPS 203

Every step of `Fips/Evaluation.lean` takes the packed polynomials of its arguments to the packed polynomial of the result.
-/

namespace Fips203.Packed

open Digits LittleEndian Loops MlkemSelkie

/-- The number that packs the first 256 elements of a sequence. -/
def packed (a : Nat → Zq) : Nat := value 12 (fun i => (a i).val) 256

section Packing

variable {a b : Nat → Zq} {f : Nat → Nat}

/-- A packed coefficient is read back. -/
theorem coeff_packed (a : Nat → Zq) {i : Nat} (hi : i < 256) : coeff (packed a) i = (a i).val :=
  value_digit (fun i _ => Nat.lt_trans (ZMod.val_lt (a i)) (by decide)) i hi

/-- Read back as a residue, it is the coefficient itself. -/
theorem cast_coeff (a : Nat → Zq) {i : Nat} (hi : i < 256) : (coeff (packed a) i : Zq) = a i := by
  rw [coeff_packed a hi, ZMod.natCast_zmod_val]

/-- Only the first 256 coefficients are packed. -/
theorem packed_congr (h : ∀ i < 256, a i = b i) : packed a = packed b :=
  value_congr fun i hi => congrArg ZMod.val (h i hi)

/-- Packing the integers of a sequence of residues. -/
theorem pack_eq (h : ∀ i < 256, (f i : Zq) = a i) : pack f = packed a :=
  value_congr fun i hi => by rw [← h i hi, ZMod.val_natCast]

/-- A constant packed by its integers. -/
theorem coeff_pack (f : Nat → Nat) {i : Nat} (hi : i < 256) : (coeff (pack f) i : Zq) = f i := by
  rw [pack_eq (a := fun i => (f i : Zq)) fun _ _ => rfl, cast_coeff _ hi]

/-- The product with 3328 is the negation. -/
theorem minus_one : ((3328 : Nat) : Zq) = -1 := by decide +kernel

/-- The coefficients of a sum. -/
theorem seq_apply_add (f g : Fin 256 → Zq) {i : Nat} (hi : i < 256) : seq (f + g) i = seq f i + seq g i := by
  rw [seq_lt _ i hi, seq_lt f i hi, seq_lt g i hi, Pi.add_apply]

/-- The coefficients of a difference. -/
theorem seq_apply_sub (f g : Fin 256 → Zq) {i : Nat} (hi : i < 256) : seq (f - g) i = seq f i - seq g i := by
  rw [seq_lt _ i hi, seq_lt f i hi, seq_lt g i hi, Pi.sub_apply]

end Packing

/-! ## The rings -/

section Rings

variable (f g : Fin 256 → Zq)

/-- The packed sum. -/
theorem add_packed : add (packed (seq f)) (packed (seq g)) = packed (seq (f + g)) := by
  refine pack_eq fun i hi => ?_
  rw [Nat.cast_add, cast_coeff _ hi, cast_coeff _ hi, seq_apply_add f g hi]

/-- The packed difference. -/
theorem sub_packed : sub (packed (seq f)) (packed (seq g)) = packed (seq (f - g)) := by
  refine pack_eq fun i hi => ?_
  rw [Nat.cast_add, Nat.cast_mul, cast_coeff _ hi, cast_coeff _ hi, minus_one, seq_apply_sub f g hi]
  ring

/-- The sum of the terms of a list, packed one by one. -/
theorem sum_packed {k : Nat} {F : Nat → Nat} {f : Fin k → Fin 256 → Zq} (h : ∀ j : Fin k, F j = packed (seq (f j))) :
    sum ((List.range k).map F) = packed (seq (∑ j, f j)) := by
  refine pack_eq fun i hi => ?_
  rw [List.map_map, seq_lt _ i hi, Finset.sum_apply]
  induction k with
  | zero => rfl
  | succ k ih =>
    have hlast := h (Fin.last k)
    rw [Fin.val_last] at hlast
    rw [List.range_succ, List.map_append, List.sum_append, Nat.cast_add, ih fun j => h j.castSucc, Fin.sum_univ_castSucc]
    refine congrArg (_ + ·) ?_
    rw [List.map_cons, List.map_nil, List.sum_cons, List.sum_nil, Nat.add_zero, Function.comp_apply, hlast, cast_coeff _ hi,
      seq_lt _ i hi]

/-- The constants of the stages. -/
theorem coeff_zetas {k : Nat} (hk : k < 256) : (coeff zetas k : Zq) = Fips203.zetas k := by
  rw [zetas, coeff_pack _ hk, Nat.cast_pow]
  rfl

/-- The table of the moduli of base multiplication. -/
theorem coeff_gammas {k : Nat} (hk : k < 256) : (coeff gammas k : Zq) = gamma k := by
  rw [gammas, coeff_pack _ hk, Nat.cast_pow]
  rfl

/-- The lower half of a block has its upper half below 256, and the constant of the block is in the table. -/
theorem block_bounds {s i : Nat} (hs : s < 7) (hi : i < 256) :
    (i % (2 * (2 ^ (6 - s) * 2)) < 2 ^ (6 - s) * 2 → i + 2 ^ (6 - s) * 2 < 256) ∧
      2 ^ s + i / (2 * (2 ^ (6 - s) * 2)) < 256 := by
  interval_cases s <;> norm_num <;> omega

/-- One packed stage of the forward transform. -/
theorem forward_packed {s : Nat} (hs : s < 7) (a : Nat → Zq) :
    forward s (packed a) = packed (Ntt.forward (fun b => Fips203.zetas (2 ^ s + b)) (2 ^ (6 - s) * 2) a) := by
  refine pack_eq fun i hi => ?_
  obtain ⟨hlower, htable⟩ := block_bounds hs hi
  rw [Ntt.forward]
  by_cases hhalf : i % (2 * (2 ^ (6 - s) * 2)) < 2 ^ (6 - s) * 2
  · rw [if_pos hhalf, if_pos hhalf, Nat.cast_add, Nat.cast_mul, coeff_zetas htable, cast_coeff a hi,
      cast_coeff a (hlower hhalf)]
  · rw [if_neg hhalf, if_neg hhalf, Nat.cast_add, Nat.cast_mul, Nat.cast_mul, coeff_zetas htable, cast_coeff a hi,
      cast_coeff a (Nat.lt_of_le_of_lt (Nat.sub_le _ _) hi), minus_one]
    ring

/-- The packed stages up to the one numbered `s`. -/
theorem transform_packed (a : Nat → Zq) {s : Nat} (hs : s ≤ 7) :
    transform s (packed a) = packed (Ntt.transform Fips203.zetas 2 7 s a) := by
  induction s with
  | zero => rfl
  | succ s ih => rw [transform, ih (Nat.le_of_succ_le hs), forward_packed hs, Ntt.transform]

/-- The packed forward transform is Algorithm 9. -/
theorem ntt_packed : ntt (packed (seq f)) = packed (seq (Fips203.ntt f)) := by
  rw [ntt, transform_packed _ (Nat.le_refl 7)]
  exact packed_congr fun i hi => (seq_ntt f i hi).symm

/-- One packed stage of the inverse transform. -/
theorem inverse_packed {t : Nat} (ht : t < 7) (a : Nat → Zq) :
    inverse t (packed a) = packed (Ntt.inverse (fun b => Fips203.zetas (2 ^ (7 - t) - 1 - b)) (2 ^ t * 2) a) := by
  refine pack_eq fun i hi => ?_
  have hlower := (block_bounds (s := 6 - t) (by omega) hi).1
  rw [show 6 - (6 - t) = t by omega] at hlower
  have htable : 2 ^ (7 - t) - 1 - i / (2 * (2 ^ t * 2)) < 256 := by
    have hpow : 2 ^ (7 - t) ≤ 2 ^ 7 := Nat.pow_le_pow_right (by decide) (Nat.sub_le 7 t)
    have hle : 2 ^ (7 - t) - 1 - i / (2 * (2 ^ t * 2)) ≤ 2 ^ (7 - t) := (Nat.sub_le _ _).trans (Nat.sub_le _ _)
    exact Nat.lt_of_le_of_lt (hle.trans hpow) (by decide)
  rw [Ntt.inverse]
  by_cases hhalf : i % (2 * (2 ^ t * 2)) < 2 ^ t * 2
  · rw [if_pos hhalf, if_pos hhalf, Nat.cast_add, cast_coeff a hi, cast_coeff a (hlower hhalf)]
  · rw [if_neg hhalf, if_neg hhalf, Nat.cast_mul, Nat.cast_add, Nat.cast_mul, coeff_zetas htable, cast_coeff a hi,
      cast_coeff a (Nat.lt_of_le_of_lt (Nat.sub_le _ _) hi), minus_one]
    ring

/-- The packed stages of the inverse transform up to the one numbered `t`. -/
theorem inverseTransform_packed (a : Nat → Zq) {t : Nat} (ht : t ≤ 7) :
    inverseTransform t (packed a) = packed (Ntt.inverseTransform Fips203.zetas 2 7 t a) := by
  induction t with
  | zero => rfl
  | succ t ih => rw [inverseTransform, ih (Nat.le_of_succ_le ht), inverse_packed ht, Ntt.inverseTransform]

/-- The packed inverse transform is Algorithm 10. -/
theorem nttInverse_packed : nttInverse (packed (seq f)) = packed (seq (Fips203.nttInverse f)) := by
  refine pack_eq fun i hi => ?_
  rw [inverseTransform_packed _ (Nat.le_refl 7), Nat.cast_mul, cast_coeff _ hi, seq_nttInverse f i hi]
  rfl

/-- The packed product is Algorithm 11. -/
theorem multiplyNtts_packed :
    multiplyNtts (packed (seq f)) (packed (seq g)) = packed (seq (Fips203.multiplyNtts f g)) := by
  refine pack_eq fun k hk => ?_
  have heven : 2 * (k / 2) < 256 := by omega
  have hodd : 2 * (k / 2) + 1 < 256 := by omega
  have htable : k / 2 < 256 := by omega
  rw [seq_lt _ k hk, Fips203.multiplyNtts]
  by_cases hmod : k % 2 = 0
  · rw [if_pos hmod, if_pos hmod]
    simp only [Nat.cast_add, Nat.cast_mul, cast_coeff _ heven, cast_coeff _ hodd, coeff_gammas htable]
  · rw [if_neg hmod, if_neg hmod]
    simp only [Nat.cast_add, Nat.cast_mul, cast_coeff _ heven, cast_coeff _ hodd]

end Rings

/-! ## Sampling and compression -/

/-- Packing a list is the number with its digits. -/
theorem packList_eq (l : List Nat) : packList l = value 12 (fun i => l.getD i 0) l.length := by
  induction l with
  | nil => rfl
  | cons c l ih => rw [packList, ih, List.length_cons, value_succ]; rfl

/-- The accepted positions are as many as are counted, and the position `j` of them is the `j`-th. -/
theorem accepted_spec (stream : Nat → UInt8) (limit : Nat) :
    (accepted stream limit).length = Nat.count (Fips203.Accepted stream) limit ∧
      ∀ (j : Nat) (hj : j < (accepted stream limit).length),
        (accepted stream limit)[j] = Nat.nth (Fips203.Accepted stream) j := by
  induction limit with
  | zero => exact ⟨by rw [Nat.count_zero]; rfl, fun j hj => absurd hj (Nat.not_lt_zero j)⟩
  | succ n ih =>
    obtain ⟨hlen, hnth⟩ := ih
    have hsucc : accepted stream (n + 1) = accepted stream n ++ [n].filter fun t => decide (Fips203.Accepted stream t) := by
      rw [accepted, List.range_succ, List.filter_append, accepted]
    by_cases hacc : Fips203.Accepted stream n
    · rw [List.filter_eq_self.mpr fun t ht => by
        obtain rfl := List.mem_singleton.mp ht
        exact decide_eq_true hacc] at hsucc
      simp only [hsucc, List.length_append, List.length_singleton, Nat.count_succ, if_pos hacc, hlen, true_and]
      intro j hj
      by_cases hlast : j < (accepted stream n).length
      · rw [List.getElem_append_left hlast, hnth j hlast]
      · obtain rfl : j = Nat.count (Fips203.Accepted stream) n := by omega
        rw [List.getElem_append_right (Nat.le_of_not_lt hlast), Nat.nth_count hacc]
        simp only [hlen, Nat.sub_self, List.getElem_cons_zero]
    · rw [List.filter_eq_nil_iff.mpr fun t ht => by
        obtain rfl := List.mem_singleton.mp ht
        rwa [decide_eq_true_iff], List.append_nil] at hsucc
      rw [Nat.count_succ, if_neg hacc, Nat.add_zero]
      simp only [hsucc]
      exact ⟨hlen, hnth⟩

/-- Algorithm 7, when the candidates read contain 256 accepted ones. -/
theorem sampleNtt_packed {stream : Nat → UInt8} {limit : Nat} (h : 256 ≤ Nat.count (Fips203.Accepted stream) limit) :
    sampleNtt limit stream = packed (seq (Fips203.sampleNtt stream)) := by
  obtain ⟨hlen, hnth⟩ := accepted_spec stream limit
  have htake : (((accepted stream limit).take 256).map (candidate stream)).length = 256 := by
    rw [List.length_map, List.length_take, hlen, Nat.min_eq_left h]
  rw [sampleNtt, packList_eq, htake]
  refine value_congr fun j hj => ?_
  have hj' : j < (accepted stream limit).length := by omega
  have hmem : (accepted stream limit)[j] ∈ (List.range limit).filter fun t => decide (Fips203.Accepted stream t) :=
    List.getElem_mem hj'
  have hlt : candidate stream (accepted stream limit)[j] < 3329 := of_decide_eq_true (List.mem_filter.mp hmem).2
  rw [List.getD_eq_getElem _ _ (by rw [htake]; exact hj), List.getElem_map, List.getElem_take, seq_lt _ j hj,
    Fips203.sampleNtt, ← hnth j hj', ZMod.val_natCast, Nat.mod_eq_of_lt hlt]

/-- Algorithm 8. -/
theorem samplePolyCbd_packed (eta : Nat) (bytes : List UInt8) :
    samplePolyCbd eta bytes = packed (seq (Fips203.samplePolyCbd eta bytes)) := by
  refine pack_eq fun i hi => ?_
  simp only [testBit_ofBytes]
  rw [seq_lt _ i hi, Nat.cast_add, Nat.cast_mul, minus_one, neg_one_mul, ← sub_eq_add_neg]
  rfl

/-- The packed error of rounding to `d` bits. -/
theorem compressionError_packed {d : Nat} (hd : 1 ≤ d) (f : Rq) :
    compressionError d (packed (seq f)) = packed (seq (Fips203.compressionError d f)) := by
  refine pack_eq fun i hi => ?_
  rw [seq_lt _ i hi, Fips203.compressionError, FieldElement.compress_val, FieldElement.decompress_val hd, Nat.cast_add,
    Nat.cast_mul, minus_one, cast_coeff _ hi, coeff_packed _ hi, seq_lt f i hi, neg_one_mul, ← sub_eq_add_neg]

/-- The polynomial of a message. -/
theorem ofMessage_packed (m : List UInt8) :
    ofMessage m = packed (seq fun i => Fips203.decompress 1 (byteDecode 1 m i)) := by
  refine pack_eq fun i hi => ?_
  have hfield : byteDecode 1 m ⟨i, hi⟩ = ((ofBytes m).testBit i).toNat := by
    rw [byteDecode, if_pos (by decide), Nat.mod_eq_of_lt (field_lt 1 m _), field, Nat.ofBits_succ, Nat.ofBits_zero,
      Nat.mul_zero, Nat.zero_add, testBit_ofBytes, ← bit]
    simp
  rw [seq_lt _ i hi, hfield, FieldElement.decompress_val (Nat.le_refl 1)]
  refine congrArg Nat.cast ?_
  have hbit := ((ofBytes m).testBit i).toNat_le
  omega

/-! ## Bytes -/

/-- The bytes of a number give back the number, as far as they reach. -/
theorem ofBytes_toBytes (n x : Nat) : ofBytes (toBytes n x) = x % 2 ^ (8 * n) := by
  have hlen : (toBytes n x).length = n := by rw [toBytes, List.length_map, List.length_range]
  have hlt := ofBytes_lt (toBytes n x)
  rw [hlen] at hlt
  refine eq_of_digits hlt (Nat.mod_lt _ (Nat.two_pow_pos _)) fun j hj => ?_
  rw [ofBytes_digit, getElem!_pos _ j (by rw [hlen]; exact hj), digit_mod x (by omega)]
  simp only [toBytes, List.getElem_map, List.getElem_range]
  rw [UInt8.toNat_ofNat']

/-- The 12-bit encoding writes the bytes of the number. -/
theorem byteEncode_packed (f : Tq) : toBytes 384 (packed (seq f)) = byteEncode 12 fun j => (f j).val := by
  have hlt : ∀ i, (seq f i).val < 2 ^ 12 := fun i => Nat.lt_trans (ZMod.val_lt _) (by decide)
  have hvalue : packed (seq f) < 2 ^ (8 * 384) := by
    rw [show 8 * 384 = 12 * 256 from rfl]
    exact value_lt fun i _ => hlt i
  refine ofBytes_inj (by rw [length_byteEncode, toBytes, List.length_map, List.length_range]) ?_
  rw [ofBytes_toBytes, Nat.mod_eq_of_lt hvalue, ofBytes_byteEncode (fun j => (f j).val)
    (fun j => Nat.lt_trans (ZMod.val_lt _) (by decide)) (fun i => (seq f i).val) fun j => by rw [seq_lt f j j.isLt]]
  rfl

/-- The bytes of packed elements are their encoding. -/
theorem encodeVector_packed {k : Nat} {F : Nat → Nat} {f : Fin k → Tq} (h : ∀ i : Fin k, F i = packed (seq (f i))) :
    ((List.range k).map fun i => toBytes 384 (F i)).flatten = encodeVector f := by
  rw [encodeVector]
  refine congrArg List.flatten (List.ext_getElem (by rw [List.length_map, List.length_range, List.length_ofFn])
    fun i h1 h2 => ?_)
  have hi : i < k := by rwa [List.length_ofFn] at h2
  rw [List.getElem_map, List.getElem_range, List.getElem_ofFn, h ⟨i, hi⟩, byteEncode_packed]

/-! ## K-PKE -/

section Pke

variable {p : Params} {h : Hashes} {limit : Nat} {d : Vector UInt8 32}

/-- The first `limit` candidates of every stream of a matrix contain 256 accepted ones. -/
def Reached (p : Params) (h : Hashes) (limit : Nat) (rho : List UInt8) : Prop :=
  ∀ i j : Fin p.k, 256 ≤ Nat.count (Fips203.Accepted (h.XOF (rho ++ [UInt8.ofNat j, UInt8.ofNat i]))) limit

/-- An entry of the packed matrix is the sample of its stream, where the candidates read suffice. -/
theorem matrix_packed {rho : List UInt8} (hA : Reached p h limit rho) (i j : Fin p.k) :
    matrix h limit rho i j = packed (seq (Fips203.matrix p h rho i j)) :=
  sampleNtt_packed (hA i j)

/-- Packed noise is Algorithm 8 on its stream. -/
theorem noise_packed (eta : Nat) (seed : Vector UInt8 32) (b : Nat) :
    noise h eta seed b = packed (seq (Fips203.noise h eta seed b)) :=
  samplePolyCbd_packed eta _

variable (hA : Reached p h limit (h.G (d.toList ++ [UInt8.ofNat p.k])).1.toList)

include hA

/-- The packed vector of the encryption key. -/
theorem tHat_packed (i : Fin p.k) : tHat p h limit d i = packed (seq (decodeVector (kpkeKeyGen p h d).1 i)) := by
  rw [(kpkeKeyGen_decode p h d).1 i, tHat,
    sum_packed fun j => by rw [matrix_packed hA i j, noise_packed, ntt_packed, multiplyNtts_packed], noise_packed,
    ntt_packed, add_packed]

/-- The encryption key of Algorithm 13. -/
theorem encryptionKey_eq : encryptionKey p h limit d = (kpkeKeyGen p h d).1 := by
  rw [encryptionKey, encodeVector_packed fun i => (tHat_packed hA i).trans (congrArg (fun f => packed (seq f))
    ((kpkeKeyGen_decode p h d).1 i))]
  rfl

/-- The packed first part of a ciphertext, before compression. -/
theorem u_packed (m : List UInt8) (r : Vector UInt8 32) (i : Fin p.k) :
    u p h limit d r i = packed (seq ((kpkeCore p h (kpkeKeyGen p h d).1 m r).1 i)) := by
  rw [u, kpkeCore, (kpkeKeyGen_decode p h d).2.1,
    sum_packed fun j => by rw [matrix_packed hA j i, noise_packed, ntt_packed, multiplyNtts_packed], nttInverse_packed,
    noise_packed, add_packed]

/-- The packed second part. -/
theorem v_packed (m : List UInt8) (r : Vector UInt8 32) :
    v p h limit d m r = packed (seq (kpkeCore p h (kpkeKeyGen p h d).1 m r).2) := by
  rw [v, kpkeCore, sum_packed fun j => by rw [tHat_packed hA j, noise_packed, ntt_packed, multiplyNtts_packed],
    nttInverse_packed, noise_packed, add_packed, ofMessage_packed, add_packed]

/-- The noise of a decryption. -/
theorem decryptionNoise_packed (hdu : 1 ≤ p.du) (hdv : 1 ≤ p.dv) (m : List UInt8) (r : Vector UInt8 32) :
    decryptionNoise p h limit d m r = packed (seq (Fips203.decryptionNoise p h d m r)) := by
  rw [decryptionNoise, Fips203.decryptionNoise]
  simp only []
  rw [sum_packed fun i => by rw [noise_packed, ntt_packed, noise_packed, ntt_packed, multiplyNtts_packed],
    sum_packed fun i => by rw [noise_packed, ntt_packed, noise_packed, u_packed hA m r i, compressionError_packed hdu,
      add_packed, ntt_packed, multiplyNtts_packed],
    nttInverse_packed, nttInverse_packed, sum_multiply, sum_multiply, v_packed hA, compressionError_packed hdv,
    noise_packed, add_packed, add_packed, sub_packed]

/-- The noise fits when the digits of the number say so. -/
theorem noiseFits_of_packed (hdu : 1 ≤ p.du) (hdv : 1 ≤ p.dv) {m : List UInt8} {r : Vector UInt8 32}
    (hfits : ∀ i < 256, (coeff (decryptionNoise p h limit d m r) i + 832) % 3329 ≤ 1663) :
    NoiseFits (Fips203.decryptionNoise p h d m r) := by
  intro j
  have hj := hfits j j.isLt
  have hlt := ZMod.val_lt (Fips203.decryptionNoise p h d m r j)
  have hseq : seq (Fips203.decryptionNoise p h d m r) j = Fips203.decryptionNoise p h d m r j := seq_lt _ j j.isLt
  rw [decryptionNoise_packed hA hdu hdv, coeff_packed _ j.isLt, hseq] at hj
  rw [ZMod.valMinAbs_def_pos]
  split
  · omega
  · omega

end Pke

end Fips203.Packed
