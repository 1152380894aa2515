import MlkemSelkie.Lemmas.Codec

/-!
# Decryption undoes encryption when the noise fits

What Algorithm 15 compresses is the message plus the noise of the two algorithms: the matrix cancels. Compression to one
bit returns the message as long as every coefficient of the noise is in `[-832, 831]`, an interval that is not symmetric.
-/

namespace Fips203

open Loops MlkemSelkie

/-- What compression to `d` bits adds to a polynomial. -/
def compressionError (d : Nat) (f : Rq) : Rq := fun j => decompress d (compress d (f j)) - f j

/-- Every coefficient has its centered representative in the interval that decryption tolerates. -/
def NoiseFits (f : Rq) : Prop := ∀ j, -832 ≤ ZMod.valMinAbs (f j) ∧ ZMod.valMinAbs (f j) ≤ 831

/-- The noise of a decryption: `e^T y + e2 + c_v - s^T (e1 + c_u)`. -/
noncomputable def decryptionNoise (p : Params) (h : Hashes) (d : Vector UInt8 32) (m : List UInt8) (r : Vector UInt8 32) :
    Rq :=
  let sigma := (h.G (d.toList ++ [UInt8.ofNat p.k])).2
  let s := fun i : Fin p.k => noise h p.eta1 sigma i
  let e := fun i : Fin p.k => noise h p.eta1 sigma (p.k + i)
  let y := fun i : Fin p.k => noise h p.eta1 r i
  let e1 := fun i : Fin p.k => noise h p.eta2 r (p.k + i)
  let e2 := noise h p.eta2 r (2 * p.k)
  let u := (kpkeCore p h (kpkeKeyGen p h d).1 m r).1
  let v := (kpkeCore p h (kpkeKeyGen p h d).1 m r).2
  let cu := fun i => compressionError p.du (u i)
  let cv := compressionError p.dv v
  ∑ i, multiply (e i) (y i) + e2 + cv - ∑ i, multiply (s i) (e1 i + cu i)

/-! ## The decompressed pair -/

section Pair

variable {p : Params} (u : Fin p.k → Rq) (v : Rq)

theorem decompressU_compressPair (hdu : 1 ≤ p.du) (hdu' : p.du ≤ 11) (i : Fin p.k) :
    decompressU p (compressPair p u v) i = u i + compressionError p.du (u i) := by
  funext j
  rw [decompressU, compressPair, slice_flatten_ofFn (fun i => length_byteEncode p.du _),
    byteDecode_byteEncode _ (fun j => compress_lt p.du _) fun j => by rw [if_pos (by omega)]; exact compress_lt p.du _]
  simp only [Pi.add_apply, compressionError, add_sub_cancel]

theorem decompressV_compressPair (hdv : 1 ≤ p.dv) (hdv' : p.dv ≤ 11) :
    decompressV p (compressPair p u v) = v + compressionError p.dv v := by
  have hlen : (List.ofFn fun i => byteEncode p.du fun j => compress p.du (u i j)).flatten.length = 32 * p.du * p.k :=
    length_flatten_ofFn fun i => length_byteEncode p.du _
  funext j
  rw [decompressV, compressPair, ← hlen, List.drop_left,
    byteDecode_byteEncode _ (fun j => compress_lt p.dv _) fun j => by rw [if_pos (by omega)]; exact compress_lt p.dv _]
  simp only [Pi.add_apply, compressionError, add_sub_cancel]

end Pair

/-! ## The matrix cancels -/

section Cancel

variable {k : Nat} (A : Fin k → Fin k → Tq) (s e y f : Fin k → Rq)

theorem sum_multiply (a b : Fin k → Rq) :
    nttInverse (∑ i, multiplyNtts (ntt (a i)) (ntt (b i))) = ∑ i, multiply (a i) (b i) := by
  rw [nttInverse_sum]
  exact Finset.sum_congr rfl fun i _ => nttInverse_multiplyNtts (a i) (b i)

/-- The products with the matrix on the two sides are one double sum. -/
theorem matrix_swap (s y : Fin k → Tq) :
    ∑ i, multiplyNtts (∑ j, multiplyNtts (A i j) (s j)) (y i) = ∑ i,
      multiplyNtts (s i) (∑ j, multiplyNtts (A j i) (y j)) := by
  simp only [multiplyNtts_sum, multiplyNtts_comm (∑ j, _) _]
  rw [Finset.sum_comm]
  refine Finset.sum_congr rfl fun i _ => Finset.sum_congr rfl fun j _ => ?_
  rw [multiplyNtts_comm (A j i) (s i), ← multiplyNtts_assoc, multiplyNtts_comm (y j) (s i), multiplyNtts_assoc,
    multiplyNtts_comm (y j)]

/-- `t^T y - s^T (A^T y + f) = e^T y - s^T f`. -/
theorem matrix_cancels :
    nttInverse (∑ i, multiplyNtts (∑ j, multiplyNtts (A i j) (ntt (s j)) + ntt (e i)) (ntt (y i))) -
        nttInverse (∑ i, multiplyNtts (ntt (s i)) (ntt (nttInverse (∑ j, multiplyNtts (A j i) (ntt (y j))) + f i))) =
      ∑ i, multiply (e i) (y i) - ∑ i, multiply (s i) (f i) := by
  have hleft : ∀ i, multiplyNtts (∑ j, multiplyNtts (A i j) (ntt (s j)) + ntt (e i)) (ntt (y i)) =
      multiplyNtts (∑ j, multiplyNtts (A i j) (ntt (s j))) (ntt (y i)) + multiplyNtts (ntt (e i)) (ntt (y i)) := fun i => by
    rw [multiplyNtts_comm, multiplyNtts_add, multiplyNtts_comm (ntt (y i)), multiplyNtts_comm (ntt (y i))]
  simp only [hleft, ntt_add, ntt_nttInverse, multiplyNtts_add, Finset.sum_add_distrib, nttInverse_add, sum_multiply,
    matrix_swap]
  exact add_sub_add_left_eq_sub _ _ _

end Cancel

/-! ## Decryption -/

/-- One bit survives noise in `[-832, 831]`. -/
theorem compress_one {b : Nat} (hb : b < 2) {t : Int} (ht : -832 ≤ t ∧ t ≤ 831) {x : Zq}
    (hx : x = decompress 1 b + (t : Zq)) :
    compress 1 x = b := by
  have hmu : decompress 1 b = ((1665 * b : Int) : Zq) := by
    rw [FieldElement.decompress_val (by decide), show (3329 * b + 2 ^ (1 - 1)) / 2 ^ 1 = 1665 * b by omega]
    push_cast
    rfl
  have hval : (x.val : Int) = (1665 * b + t) % 3329 := by
    rw [hx, hmu, ← Int.cast_add, ZMod.val_intCast]
    rfl
  rw [FieldElement.compress_val]
  rcases Nat.le_one_iff_eq_zero_or_eq_one.mp (Nat.le_of_lt_succ hb) with rfl | rfl <;> omega

/-- The message that decryption returns, when the noise fits. -/
theorem byteEncode_compress {m : List UInt8} (hm : m.length = 32) {f : Rq} (hf : NoiseFits f) {w : Rq}
    (hw : w = (fun i => decompress 1 (byteDecode 1 m i)) + f) : (byteEncode 1 fun j => compress 1 (w j)) = m := by
  have hbit : ∀ j : Fin 256, compress 1 (w j) = field 1 m j := fun j => by
    have hdecode : byteDecode 1 m j = field 1 m j := by
      rw [byteDecode, if_pos (by decide), Nat.mod_eq_of_lt (field_lt 1 m j)]
    refine compress_one (field_lt 1 m j) (hf j) ?_
    rw [hw, Pi.add_apply, hdecode, ZMod.coe_valMinAbs]
  rw [funext hbit, byteEncode_field hm]

/-- What the algorithms read back of the keys of Algorithm 13. -/
theorem kpkeKeyGen_decode (p : Params) (h : Hashes) (d : Vector UInt8 32) :
    let rho := (h.G (d.toList ++ [UInt8.ofNat p.k])).1
    let sigma := (h.G (d.toList ++ [UInt8.ofNat p.k])).2
    (∀ i : Fin p.k, decodeVector (kpkeKeyGen p h d).1 i =
        ∑ j, multiplyNtts (matrix p h rho.toList i j) (ntt (noise h p.eta1 sigma j)) +
          ntt (noise h p.eta1 sigma (p.k + i))) ∧
      ((kpkeKeyGen p h d).1.drop (384 * p.k)).take 32 = rho.toList ∧
      ∀ i : Fin p.k, decodeVector (kpkeKeyGen p h d).2 i = ntt (noise h p.eta1 sigma i) := by
  refine ⟨fun i => decodeVector_encodeVector _ _ i, ?_, fun i => ?_⟩
  · rw [kpkeKeyGen, ← length_encodeVector (k := p.k), List.drop_left,
      List.take_of_length_le (Nat.le_of_eq Vector.length_toList)]
  · rw [← List.append_nil (kpkeKeyGen p h d).2]
    exact decodeVector_encodeVector _ _ i

/-- What Algorithm 15 compresses, of a ciphertext of Algorithm 14 under the keys of Algorithm 13: the message and the
noise. -/
theorem kpkeDecrypt_kpkeEncrypt_eq {p : Params} (h : Hashes) (hdu : 1 ≤ p.du ∧ p.du ≤ 11) (hdv : 1 ≤ p.dv ∧ p.dv ≤ 11)
    (d : Vector UInt8 32) (m : List UInt8) (r : Vector UInt8 32) :
    kpkeDecrypt p (kpkeKeyGen p h d).2 (kpkeEncrypt p h (kpkeKeyGen p h d).1 m r) =
      byteEncode 1 fun j => compress 1 (((fun i => decompress 1 (byteDecode 1 m i)) + decryptionNoise p h d m r) j) := by
  obtain ⟨ht, hrho, hs⟩ := kpkeKeyGen_decode p h d
  refine congrArg (fun w : Rq => byteEncode 1 fun j => compress 1 (w j)) ?_
  rw [kpkeEncrypt, decompressV_compressPair _ _ hdv.1 hdv.2]
  simp only [decompressU_compressPair _ _ hdu.1 hdu.2, hs]
  rw [decryptionNoise]
  simp only []
  -- the compression errors are the same on both sides, whatever they are
  generalize compressionError p.dv _ = cv
  generalize hcu : (fun i => compressionError p.du ((kpkeCore p h (kpkeKeyGen p h d).1 m r).1 i)) = cu
  have hcu' : ∀ i, compressionError p.du ((kpkeCore p h (kpkeKeyGen p h d).1 m r).1 i) = cu i := fun i => congrFun hcu i
  simp only [hcu']
  simp only [kpkeCore, ht, hrho, add_assoc]
  generalize h.G (d.toList ++ [UInt8.ofNat p.k]) = g
  have hcancel := matrix_cancels (matrix p h g.1.toList) (fun i => noise h p.eta1 g.2 i)
    (fun i => noise h p.eta1 g.2 (p.k + i)) (fun i => noise h p.eta1 r i) (fun i => noise h p.eta2 r (p.k + i) + cu i)
  rw [sub_eq_iff_eq_add] at hcancel
  rw [hcancel]
  abel

/-- Algorithm 15 undoes Algorithm 14 under the keys of Algorithm 13, when the noise fits. -/
theorem kpkeDecrypt_kpkeEncrypt {p : Params} (h : Hashes) (hdu : 1 ≤ p.du ∧ p.du ≤ 11) (hdv : 1 ≤ p.dv ∧ p.dv ≤ 11)
    (d : Vector UInt8 32) {m : List UInt8} (hm : m.length = 32) (r : Vector UInt8 32)
    (hf : NoiseFits (decryptionNoise p h d m r)) :
    kpkeDecrypt p (kpkeKeyGen p h d).2 (kpkeEncrypt p h (kpkeKeyGen p h d).1 m r) = m := by
  rw [kpkeDecrypt_kpkeEncrypt_eq h hdu hdv]
  exact byteEncode_compress hm hf rfl

end Fips203
