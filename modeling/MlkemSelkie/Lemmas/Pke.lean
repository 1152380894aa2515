import MlkemSelkie.Lemmas.Bytes
import MlkemSelkie.Lemmas.Matrix

/-!
# K-PKE on valid keys

A valid key is what the code relies on of its keys: bounded representatives, a matrix that is the one of the seed, and
caches that belong to their vector. On valid keys the code computes Algorithms 13 to 15 on the serialized keys.
-/

namespace MlkemSelkie

open Fips203 Loops

variable {P : ParameterSet} {Γ : Crates}

/-- An encryption key whose representatives are bounded and whose matrix is that of its seed. -/
structure EncryptionKey.Valid (Γ : Crates) (ek : EncryptionKey P) : Prop where
  within : ∀ i : Fin P.K, Coefficients.Within 3500 ek.tHat.polys[i].inner
  matrix : ∃ m : TqMatrix P, TqMatrix.expand Γ ek.rho = some m ∧ ek.aHatTranspose = m.transpose

/-- A decryption key whose representatives are bounded and whose caches are those of its vector. -/
structure DecryptionKey.Valid (dk : DecryptionKey P) : Prop where
  within : ∀ i : Fin P.K, Coefficients.Within 3328 dk.sHat.vector.polys[i].inner
  cached : dk.sHat = CachedTqVector.of dk.sHat.vector

/-! ## The matrix -/

/-- An expanded matrix represents the matrix of FIPS 203. -/
theorem expand_represents (hΓ : Γ.Lawful) {rho : Vector UInt8 32} {m : TqMatrix P} (h : TqMatrix.expand Γ rho = some m) :
    m.Represents 3328 (matrix P.fips Γ.hashes rho.toList) := by
  intro i j
  obtain ⟨hsuff, heq⟩ := expand_getElem hΓ h i j
  rw [heq]
  exact sampled_represents hsuff

/-! ## Encryption -/

/-- The exact polynomial of a message. -/
theorem fromMessage_represents (m : Vector UInt8 32) :
    (RqElement.fromMessage m).Represents 3328 fun i => decompress 1 (byteDecode 1 m.toList i) :=
  decodeDecompress_represents m.toList (by decide) (by decide)

/-- What a key serializes to. -/
theorem EncryptionKey.decode_toBytes (ek : EncryptionKey P) :
    (∀ i : Fin P.K, decodeVector ek.toBytes.toList i = ek.tHat.toTq i) ∧
      (ek.toBytes.toList.drop (384 * P.K)).take 32 = ek.rho.toList := by
  rw [ek.toBytes_toList]
  refine ⟨fun i => decodeVector_encodeVector _ _ i, ?_⟩
  rw [← length_encodeVector ek.tHat.toTq, List.drop_left, List.take_of_length_le (Nat.le_of_eq Vector.length_toList)]

/-- The parts of a valid key represent what the key serializes to. -/
theorem EncryptionKey.Valid.represents (hΓ : Γ.Lawful) {ek : EncryptionKey P} (hek : ek.Valid Γ) :
    ek.tHat.Represents 3500 (fun i => decodeVector ek.toBytes.toList i) ∧
      ek.aHatTranspose.Represents 3500 fun i j => Fips203.matrix P.fips Γ.hashes ek.rho.toList j i := by
  obtain ⟨hwithin, matrix, hexpand, hmatrix⟩ := hek
  refine ⟨fun i => ⟨hwithin i, (ek.decode_toBytes.1 i).symm⟩, ?_⟩
  rw [hmatrix]
  exact (expand_represents hΓ hexpand).transpose.mono (by decide)

/-- The noise of an encryption: `y` from one sampler, `e1` and `e2` from another. -/
theorem encrypt_noise (hΓ : Γ.Lawful) (P : ParameterSet) (r : Vector UInt8 32) :
    let e1 : RqVector P × CbdSampler := CbdSampler.sampleVector Γ
      (CbdSampler.new Γ P.eta2 r (UInt8.ofNat P.K) (UInt8.ofNat P.K + 1))
    (CbdSampler.sampleVector Γ (CbdSampler.new Γ P.eta1 r 0 (UInt8.ofNat P.K)) : RqVector P × CbdSampler).1.Represents 3
        (fun i => noise Γ.hashes P.fips.eta1 r i) ∧
      e1.1.Represents 3 (fun i => noise Γ.hashes P.fips.eta2 r (P.K + i)) ∧
      (CbdSampler.sampleElement Γ e1.2).1.Represents 3 (noise Γ.hashes P.fips.eta2 r (2 * P.K)) := by
  have hy := (CbdSampler.sampleVector_spec (P := P) hΓ (CbdSampler.new_invariant hΓ P.eta1 r 0 (UInt8.ofNat P.K))).1
  obtain ⟨he1, hnext⟩ := CbdSampler.sampleVector_spec (P := P) hΓ
    (CbdSampler.new_invariant hΓ P.eta2 r P.K (UInt8.ofNat P.K + 1))
  have he2 := (CbdSampler.sampleElement_spec hΓ hnext).1
  simp only [Nat.zero_add] at hy
  rw [Nat.zero_add, ← Nat.two_mul] at he2
  exact ⟨hy, he1, he2⟩

/-- The pair that `encrypt` compresses represents the one of Algorithm 14. -/
theorem encrypt_core (hΓ : Γ.Lawful) {ek : EncryptionKey P} (hek : ek.Valid Γ) (m r : Vector UInt8 32) :
    ∃ (u : RqVector P) (v : RqElement), ek.encrypt Γ m r = Ciphertext.fromUv u v ∧
      u.Represents 2198 (kpkeCore P.fips Γ.hashes ek.toBytes.toList m.toList r).1 ∧
      v.Represents 5526 (kpkeCore P.fips Γ.hashes ek.toBytes.toList m.toList r).2 := by
  obtain ⟨_, hrho⟩ := ek.decode_toBytes
  obtain ⟨ht, hA⟩ := hek.represents hΓ
  obtain ⟨hy, he1, he2⟩ := encrypt_noise hΓ P r
  have hyHat := (hy.mono noise_le_forward).ntt
  have hu := (hA.mul hyHat dotBounds_fresh).nttInverse_mul.add he1 (by decide)
  have hv := (((ht.mul hyHat dotBounds_fresh).nttInverse_mul (by decide)).add he2 (by decide)).add
    (fromMessage_represents m) (by decide)
  rw [← hrho] at hu
  exact ⟨_, _, rfl, hu, hv⟩

/-- `encrypt` is Algorithm 14 on the serialized key. -/
theorem encrypt_toList (hΓ : Γ.Lawful) {ek : EncryptionKey P} (hek : ek.Valid Γ) (m r : Vector UInt8 32) :
    (ek.encrypt Γ m r).bytes.toList = kpkeEncrypt P.fips Γ.hashes ek.toBytes.toList m.toList r := by
  obtain ⟨u, v, hrun, hu, hv⟩ := encrypt_core hΓ hek m r
  rw [hrun, Ciphertext.fromUv_toList, hu.toRq_eq, show v.toRq = _ from hv.2]
  rfl

/-! ## Decryption -/

/-- The pair that a ciphertext decompresses to. -/
theorem decompress_represents (c : Ciphertext P) :
    (RqVector.decodeDecompress (c.bytes.toList.take (32 * P.dU * P.K)) P.dU : RqVector P).Represents 3328
        (fun i => decompressU P.fips c.bytes.toList i) ∧
      (RqElement.decodeDecompress (c.bytes.toList.drop (32 * P.dU * P.K)) P.dV).Represents 3328
        (decompressV P.fips c.bytes.toList) := by
  obtain ⟨⟨hdU, hdU'⟩, hdV, hdV'⟩ := widths P
  refine ⟨vector_decodeDecompress_represents c.bytes.toList hdU hdU' ?_, decodeDecompress_represents _ hdV hdV'⟩
  rw [Vector.length_toList, ParameterSet.ciphertextSize, Nat.mul_add, Nat.mul_assoc]
  exact Nat.le_add_right _ _

/-- The polynomial that `decrypt` compresses represents the one of Algorithm 15. -/
theorem decrypt_core {dk : DecryptionKey P} (hdk : dk.Valid) (c : Ciphertext P) :
    ∃ w : RqElement, dk.decrypt c = w.compressMessage ∧ w.Represents 5523 (decompressV P.fips c.bytes.toList -
      nttInverse (∑ i : Fin P.K, multiplyNtts (dk.sHat.vector.toTq i) (ntt (decompressU P.fips c.bytes.toList i)))) := by
  obtain ⟨hwithin, hcached⟩ := hdk
  obtain ⟨hu, hv⟩ := decompress_represents c
  have hs : dk.sHat.vector.Represents 3328 dk.sHat.vector.toTq := fun i => ⟨hwithin i, rfl⟩
  have hproduct := ((hu.mono (Nat.le_succ 3328)).ntt.mul hs dotBounds_parsed).nttInverse_mul (by decide)
  rw [← hcached] at hproduct
  simp only [multiplyNtts_comm (ntt _)] at hproduct
  exact ⟨_, rfl, hv.sub hproduct (by decide)⟩

/-- What a key serializes to. -/
theorem DecryptionKey.decode_toBytes (dk : DecryptionKey P) (i : Fin P.K) :
    decodeVector dk.toBytes.toList i = dk.sHat.vector.toTq i := by
  rw [dk.toBytes_toList, ← List.append_nil (encodeVector _), decodeVector_encodeVector]

/-- `decrypt` is Algorithm 15 on the serialized key. -/
theorem decrypt_toList {dk : DecryptionKey P} (hdk : dk.Valid) (c : Ciphertext P) :
    (dk.decrypt c).toList = kpkeDecrypt P.fips dk.toBytes.toList c.bytes.toList := by
  obtain ⟨w, hrun, hw⟩ := decrypt_core hdk c
  rw [hrun, compressMessage_toList, hw.2, kpkeDecrypt]
  simp only [dk.decode_toBytes]

/-! ## Key generation -/

/-- The noise of key generation: `s` and `e` from one sampler. -/
theorem newDerand_noise (hΓ : Γ.Lawful) (P : ParameterSet) (sigma : Vector UInt8 32) :
    let s : RqVector P × CbdSampler := CbdSampler.sampleVector Γ (CbdSampler.new Γ P.eta1 sigma 0 (2 * UInt8.ofNat P.K))
    s.1.Represents 3 (fun i => noise Γ.hashes P.fips.eta1 sigma i) ∧
      (CbdSampler.sampleVector Γ s.2 : RqVector P × CbdSampler).1.Represents 3
        (fun i => noise Γ.hashes P.fips.eta1 sigma (P.K + i)) := by
  obtain ⟨hs, hnext⟩ := CbdSampler.sampleVector_spec (P := P) hΓ
    (CbdSampler.new_invariant hΓ P.eta1 sigma 0 (2 * UInt8.ofNat P.K))
  have he := (CbdSampler.sampleVector_spec (P := P) hΓ hnext).1
  simp only [Nat.zero_add] at hs he
  exact ⟨hs, he⟩

/-- The keys that `new_derand` returns are valid, and serialize to those of Algorithm 13. -/
theorem newDerand_spec (hΓ : Γ.Lawful) {seed : Vector UInt8 32} {pair : KeyPair P}
    (h : KeyPair.newDerand Γ seed = some pair) :
    pair.ekPke.Valid Γ ∧ pair.dkPke.Valid ∧
      (pair.ekPke.toBytes.toList, pair.dkPke.toBytes.toList) = kpkeKeyGen P.fips Γ.hashes seed := by
  obtain ⟨m, hexpand, hpair⟩ := Option.bind_eq_some_iff.mp h
  obtain rfl := Option.some.inj hpair
  have hA := (expand_represents hΓ hexpand).mono canonical_le_dot
  obtain ⟨hs, he⟩ := newDerand_noise hΓ P (Γ.G (seed.toList ++ [UInt8.ofNat P.K])).2
  have hsHat := (hs.mono noise_le_forward).ntt
  have heHat := (he.mono noise_le_forward).ntt
  have htHat := ((hA.mul hsHat dotBounds_fresh).toMontgomery_mul).add heHat (by decide)
  refine ⟨⟨fun i => (htHat i).1.mono (by decide), m, hexpand, rfl⟩, ⟨fun i => (hsHat i).1.mono (by decide), rfl⟩, ?_⟩
  rw [EncryptionKey.toBytes_toList, DecryptionKey.toBytes_toList]
  exact Prod.ext (congrArg (encodeVector · ++ _) htHat.toTq_eq) (congrArg encodeVector hsHat.toTq_eq)

end MlkemSelkie
