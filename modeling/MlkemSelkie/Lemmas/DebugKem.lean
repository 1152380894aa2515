import MlkemSelkie.Debug.Kem
import MlkemSelkie.Lemmas.Bytes
import MlkemSelkie.Lemmas.DebugSampling
import MlkemSelkie.Lemmas.Kem

/-!
# Serialized keys and ciphertexts never panic

One lemma for each serializer and each parser of `Debug/Kem.lean`: every region of a buffer has the length of what is copied
into it, and the staging buffers reach as far as they are read.
-/

namespace MlkemSelkie

open Runs Fips203

variable {P : ParameterSet} {Γ : Crates}

/-- A sum that is a byte does not overflow. -/
theorem addU8_ok {x y : UInt8} (h : x.toNat + y.toNat < 2 ^ 8) : addU8 x y = .ok (x + y) := by
  rw [addU8, below_ok h, ok_bind]
  exact congrArg Except.ok (UInt8.toNat_inj.mp (by rw [UInt8.toNat_ofNat_of_lt' h, UInt8.toNat_add, Nat.mod_eq_of_lt h]))

/-- A product that is a byte does not overflow. -/
theorem mulU8_ok {x y : UInt8} (h : x.toNat * y.toNat < 2 ^ 8) : mulU8 x y = .ok (x * y) := by
  rw [mulU8, below_ok h, ok_bind]
  exact congrArg Except.ok (UInt8.toNat_inj.mp (by rw [UInt8.toNat_ofNat_of_lt' h, UInt8.toNat_mul, Nat.mod_eq_of_lt h]))

/-- A staging buffer that begins with the bytes of an array. -/
theorem collect_ok {size : Nat} {v : Vector UInt8 size} {staged r : List UInt8} (h : staged = v.toList ++ r) :
    collect size staged = .ok v := by
  have hbyte (i : Fin size) : lift .fallback staged[i.val]? = .ok v[i] := by
    have hi : i.val < v.toList.length := by rw [Vector.length_toList]; exact i.isLt
    rw [h, List.getElem?_append_left hi, List.getElem?_eq_getElem hi, Vector.getElem_toList]
    rfl
  rw [collect, ofFnM_ok hbyte]
  exact congrArg Except.ok (Vector.ext fun i hi => by rw [Vector.getElem_ofFn, Loops.getElem_fin])

/-- Packing into a window of the width. -/
theorem RqElement.debugPackInto_ok (f : RqElement) {d : Nat} (hd : d ≤ 11) {s : List UInt8} (hs : s.length = 32 * d) :
    f.debugPackInto d s = .ok ((f.compressEncode d).toList.take (32 * d)) := by
  have hpacked : (f.compressEncode d).toList.length = 352 := Vector.length_toList
  rw [debugPackInto, debugCompressEncode_ok f hd, ok_bind, hs, splitAt_ok (by omega), ok_bind,
    copyFromSlice_ok (by rw [hs, List.length_take]; omega)]

namespace Ciphertext

/-- The constructor asserts the length that its callers check. -/
theorem debugFromBytes_ok {bytes : List UInt8} (hlen : bytes.length = P.ciphertextSize) :
    debugFromBytes bytes = .ok (fromBytes bytes : Ciphertext P) := by
  have hbytes : bytes = (fromBytes bytes : Ciphertext P).bytes.toList ++ [] := by
    rw [List.append_nil]
    exact (Loops.toList_ofFn_getD hlen 0).symm
  rw [debugFromBytes, assert_ok hlen, ok_bind, collect_ok hbytes, ok_bind]
  rfl

/-- The comparison reads whole words. -/
theorem debugCtEq_ok (a b : Ciphertext P) : a.debugCtEq Γ b = .ok (a.ctEq Γ b) := by
  have hwhole : a.bytes.toList.length % 8 = 0 := by
    rw [Vector.length_toList, ParameterSet.ciphertextSize]
    omega
  rw [debugCtEq, assert_ok hwhole, ok_bind]
  rfl

/-- The two parts of a ciphertext. -/
theorem fromUv_parts (u : RqVector P) (v : RqElement) :
    (fromUv u v).bytes.toList = (u.polys.toList.map fun f => (f.compressEncode P.dU).toList.take (32 * P.dU)).flatten ++
      (v.compressEncode P.dV).toList.take (32 * P.dV) := by
  obtain ⟨⟨hdU, hdU'⟩, hdV, hdV'⟩ := widths P
  rw [fromUv_toList, compressPair, compressEncode_toList v hdV hdV']
  refine congrArg (List.flatten · ++ _) (List.ext_getElem ?_ fun i h1 h2 => ?_)
  · rw [List.length_ofFn, List.length_map, Vector.length_toList]
  · rw [List.getElem_ofFn, List.getElem_map, Vector.getElem_toList, compressEncode_toList _ hdU hdU']
    rfl

/-- The windows of a ciphertext fit its buffer. -/
theorem debugFromUv_ok (u : RqVector P) (v : RqElement) : debugFromUv u v = .ok (fromUv u v) := by
  obtain ⟨⟨hdU, hdU'⟩, _, hdV'⟩ := widths P
  have hsize := P.sizes_le.2.2
  have hsplit : P.ciphertextSize = 32 * P.dU * P.K + 32 * P.dV := by
    rw [ParameterSet.ciphertextSize, Nat.mul_add, Nat.mul_assoc]
  have huPart := zipChunksMut_replicate (by omega)
    (fun (f : RqElement) _ chunk hchunk => f.debugPackInto_ok hdU' hchunk)
    (n := 32 * P.dU * P.K) (show _ = _ * u.polys.toList.length by rw [Vector.length_toList]) (0 : UInt8)
  rw [debugFromUv]
  simp only []
  rw [assert_ok (by rw [List.length_replicate]; exact hsize), ok_bind, splitAt_replicate (by omega), ok_bind]
  simp only []
  rw [huPart, ok_bind, splitAt_replicate (by omega), ok_bind]
  simp only []
  rw [v.debugPackInto_ok hdV' List.length_replicate, ok_bind,
    collect_ok (v := (fromUv u v).bytes) (by rw [fromUv_parts, List.append_assoc]), ok_bind]
  rfl

end Ciphertext

namespace EncryptionKey

/-- The parts of an encryption key fill its buffer. -/
theorem debugToBytes_ok (ek : EncryptionKey P) : ek.debugToBytes = .ok ek.toBytes := by
  have hsize := P.sizes_le.1
  have hkey : P.encryptionKeySize = 384 * P.K + 32 := rfl
  have hpoly : ∀ t ∈ ek.tHat.polys.toList, ∀ chunk : List UInt8, chunk.length = 384 → (do
      copyFromSlice chunk (← t.debugByteEncode).toList) = .ok t.byteEncode.toList := fun t _ chunk hchunk => by
    rw [TqElement.debugByteEncode_ok, ok_bind, copyFromSlice_ok (by rw [hchunk, Vector.length_toList])]
  have hblocks : (ek.tHat.polys.toList.map fun t => t.byteEncode.toList).flatten = encodeVector ek.tHat.toTq := by
    rw [← vector_byteEncoded, TqVector.byteEncoded, Vector.toList_map, List.map_map]
    rfl
  have hvector := zipChunksMut_replicate (by decide) hpoly (n := 384 * P.K) (by rw [Vector.length_toList]) 0
  rw [hblocks] at hvector
  rw [debugToBytes]
  simp only []
  rw [assert_ok (by rw [List.length_replicate]; exact hsize), ok_bind, splitAt_replicate hsize, ok_bind]
  simp only []
  rw [splitAt_replicate (by omega), ok_bind]
  simp only []
  rw [hvector, ok_bind, copyFromSlice_replicate (by rw [Vector.length_toList]; omega), ok_bind]
  exact collect_ok (by rw [toBytes_toList])

/-- The parser stops only where the matrix never comes. -/
theorem debugFromBytes_eq {bytes : List UInt8} (hlen : bytes.length = P.encryptionKeySize) :
    (debugFromBytes Γ bytes : Run (EncryptionKey P)) = lift .endless (fromBytes Γ bytes) := by
  have hkey : P.encryptionKeySize = 384 * P.K + 32 := rfl
  rw [debugFromBytes, assert_ok hlen, ok_bind, splitAt_ok (by omega), ok_bind]
  simp only []
  rw [TqVector.debugByteDecode_ok (by rw [List.length_take]; omega), ok_bind,
    copyIntoArray_ok (by rw [List.length_drop]; omega), ok_bind, TqMatrix.debugExpand_eq]
  refine lift_bind fun aHat _ => ?_
  rw [TqMatrix.debugTranspose_ok, ok_bind]
  rfl

end EncryptionKey

namespace DecryptionKey

/-- The parts of a decryption key fill its buffer. -/
theorem debugToBytes_ok (dk : DecryptionKey P) : dk.debugToBytes = .ok dk.toBytes := by
  rw [debugToBytes, TqVector.debugByteEncoded_ok, ok_bind]
  exact collect_ok (by rw [List.append_nil, toBytes_toList, vector_byteEncoded])

/-- A decryption key of the right length is parsed. -/
theorem debugFromBytes_ok {bytes : List UInt8} (hlen : bytes.length = P.decryptionKeySize) :
    debugFromBytes bytes = .ok (fromBytes bytes : DecryptionKey P) := by
  rw [debugFromBytes, assert_ok hlen, ok_bind, TqVector.debugByteDecode_ok (Nat.le_of_eq hlen.symm), ok_bind,
    CachedTqVector.debugOf_ok, ok_bind]
  rfl

end DecryptionKey

/-! ## The public interface -/

/-- The length is checked before the constructor asserts it. -/
theorem Ciphertext.debugTryFrom_ok (bytes : List UInt8) :
    debugTryFrom bytes = .ok (tryFrom bytes : Except Error (Ciphertext P)) := by
  rw [debugTryFrom, tryFrom]
  by_cases hlen : bytes.length ≠ P.ciphertextSize
  · rw [if_pos hlen, if_pos hlen]
    rfl
  · rw [if_neg hlen, if_neg hlen, Ciphertext.debugFromBytes_ok (not_not.mp hlen), ok_bind]
    rfl

namespace EncapsulationKey

/-- The hash of a key is that of its bytes. -/
theorem debugOf_ok (ekPke : EncryptionKey P) : debugOf Γ ekPke = .ok (of Γ ekPke) := by
  rw [debugOf, EncryptionKey.debugToBytes_ok, ok_bind]
  rfl

/-- An encapsulation key is serialized as its encryption key. -/
theorem debugToBytes_ok (ek : EncapsulationKey P) : ek.debugToBytes = .ok ek.toBytes := ek.ekPke.debugToBytes_ok

/-- The parser takes any bytes; it stops only where the matrix never comes. -/
theorem debugFromBytes_eq (bytes : List UInt8) :
    (debugFromBytes Γ bytes : Run (Except Error (EncapsulationKey P))) = lift .endless (fromBytes Γ bytes) := by
  rw [debugFromBytes, fromBytes]
  by_cases hlen : bytes.length ≠ P.encapsKeySize
  · rw [if_pos hlen, if_pos hlen]
    rfl
  · rw [if_neg hlen, if_neg hlen, EncryptionKey.debugFromBytes_eq (not_not.mp hlen)]
    refine lift_bind fun ekPke _ => ?_
    rw [EncryptionKey.debugToBytes_ok, ok_bind]
    by_cases hmodulus : ekPke.toBytes.toList ≠ bytes
    · rw [if_pos hmodulus, if_pos hmodulus]
      rfl
    · rw [if_neg hmodulus, if_neg hmodulus, debugOf_ok, ok_bind]
      rfl

end EncapsulationKey

namespace DecapsulationKey

/-- The four parts of a decapsulation key fill its buffer. -/
theorem debugToBytes_ok (dk : DecapsulationKey P) : dk.debugToBytes = .ok dk.toBytes := by
  have hsize := P.sizes_le.2.1
  have hsizes : P.decapsKeySize = 768 * P.K + 96 ∧ P.decryptionKeySize = 384 * P.K ∧ P.encryptionKeySize = 384 * P.K + 32 ∧
      P.encapsKeySize = 384 * P.K + 32 := ⟨rfl, rfl, rfl, rfl⟩
  rw [debugToBytes]
  simp only []
  rw [assert_ok (by rw [List.length_replicate]; exact hsize), ok_bind, splitAt_replicate hsize, ok_bind]
  simp only []
  rw [splitAt_replicate (by omega), ok_bind]
  simp only []
  rw [DecryptionKey.debugToBytes_ok, ok_bind, copyFromSlice_replicate Vector.length_toList, ok_bind,
    splitAt_replicate (by omega), ok_bind]
  simp only []
  rw [EncryptionKey.debugToBytes_ok, ok_bind, copyFromSlice_replicate (by rw [Vector.length_toList]; omega), ok_bind,
    splitAt_replicate (by omega), ok_bind]
  simp only []
  rw [copyFromSlice_replicate Vector.length_toList, ok_bind,
    copyFromSlice_replicate (by rw [Vector.length_toList]; omega), ok_bind]
  exact collect_ok (r := List.replicate (3168 - P.decapsKeySize) 0) (by simp only [toBytes_toList, List.append_assoc])

/-- The parser takes any bytes; it stops only where the matrix never comes. -/
theorem debugFromBytes_eq (bytes : List UInt8) :
    (debugFromBytes Γ bytes : Run (Except Error (DecapsulationKey P))) = lift .endless (fromBytes Γ bytes) := by
  rw [debugFromBytes, fromBytes]
  by_cases hlen : bytes.length ≠ P.decapsKeySize
  · rw [if_pos hlen, if_pos hlen]
    rfl
  · have hsizes : P.decapsKeySize = 768 * P.K + 96 ∧ P.decryptionKeySize = 384 * P.K ∧ P.encapsKeySize = 384 * P.K + 32 ∧
        P.encryptionKeySize = 384 * P.K + 32 := ⟨rfl, rfl, rfl, rfl⟩
    rw [if_neg hlen, if_neg hlen, splitAt_ok (by omega), ok_bind]
    simp only []
    rw [splitAt_ok (by rw [List.length_drop]; omega), ok_bind]
    simp only []
    rw [splitAt_ok (by rw [List.length_drop, List.length_drop]; omega), ok_bind]
    simp only []
    rw [DecryptionKey.debugFromBytes_ok (by rw [List.length_take]; omega), ok_bind,
      EncryptionKey.debugFromBytes_eq (by rw [List.length_take, List.length_drop]; omega)]
    refine lift_bind fun ekPke _ => ?_
    rw [EncapsulationKey.debugOf_ok, ok_bind, copyIntoArray_ok (by
      rw [List.length_take, List.length_drop, List.length_drop]
      omega), ok_bind]
    split
    · rfl
    · rw [copyIntoArray_ok (by rw [List.length_drop, List.length_drop, List.length_drop]; omega), ok_bind]
      rfl

end DecapsulationKey

end MlkemSelkie
