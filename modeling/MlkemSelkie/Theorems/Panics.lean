import MlkemSelkie.Lemmas.DebugKem
import MlkemSelkie.Lemmas.Fips202
import MlkemSelkie.Theorems.Sampling

/-!
# Nothing panics

A build with debug assertions and overflow checks has the values of the code on every key that a program can hold and on
every seed, message, ciphertext and byte string. No assertion fails, no index leaves its array, no split, copy or
conversion has the wrong length, no arithmetic overflows and no fallback is taken; the one run without a value is a
rejection loop without end. The noise sampler, which the schemes call within its count, panics exactly where a caller
draws past it.
-/

namespace MlkemSelkie

open Fips203 Runs

variable {P : ParameterSet} {Γ : Crates}

/-! ## K-PKE -/

theorem ofNat_K (P : ParameterSet) : (UInt8.ofNat P.K).toNat = P.K := by
  cases P <;> rfl

/-- `K-PKE.Encrypt` under a valid key. -/
theorem EncryptionKey.debugEncrypt_ok (hΓ : Γ.Lawful) {ek : EncryptionKey P} (hek : ek.Valid Γ) (m r : Vector UInt8 32) :
    ek.debugEncrypt Γ m r = .ok (ek.encrypt Γ m r) := by
  have hK := P.K_bounds.2
  have hcount := ofNat_K P
  obtain ⟨ht, hA⟩ := hek.represents hΓ
  obtain ⟨hy, _, _⟩ := encrypt_noise hΓ P r
  have hyHat := (hy.mono noise_le_forward).ntt
  have hstreams : (UInt8.ofNat P.K + 1).toNat = 1 + P.K := by
    rw [UInt8.toNat_add, hcount, UInt8.toNat_one, Nat.mod_eq_of_lt (by omega), Nat.add_comm]
  have hyRun := (CbdSampler.debugSampleVector_ok (Γ := Γ)
    (CbdSampler.new_ready (Γ := Γ) P.eta1 r 0 (hcount.trans (Nat.zero_add P.K).symm))).1
  obtain ⟨he1Run, he2Ready⟩ := CbdSampler.debugSampleVector_ok (Γ := Γ)
    (CbdSampler.new_ready (Γ := Γ) P.eta2 r (UInt8.ofNat P.K) hstreams)
  have he2Run := (CbdSampler.debugSampleElement_ok (Γ := Γ) he2Ready).1
  have hcountRun := addU8_ok (x := UInt8.ofNat P.K) (y := 1) (by rw [hcount, UInt8.toNat_one]; omega)
  simp only [debugEncrypt, CbdSampler.debugNew_ok, ok_bind, hyRun, hcountRun, he1Run, he2Run, RqVector.debugNtt_ok,
    CachedTqVector.debugOf_ok, TqMatrix.debugProduct_ok hA hyHat dotBounds_fresh, TqVector.debugNttInverse_ok,
    RqElement.debugFromMessage_ok, TqVector.debugDot_ok ht hyHat dotBounds_fresh, TqElement.debugNttInverse_ok,
    Ciphertext.debugFromUv_ok]
  rfl

/-- `K-PKE.Decrypt` under a valid key. -/
theorem DecryptionKey.debugDecrypt_ok {dk : DecryptionKey P} (hdk : dk.Valid) (c : Ciphertext P) :
    dk.debugDecrypt c = .ok (dk.decrypt c) := by
  obtain ⟨⟨hdU, hdU'⟩, hdV, hdV'⟩ := widths P
  obtain ⟨hwithin, hcached⟩ := hdk
  obtain ⟨hu, _⟩ := decompress_represents c
  have hs : dk.sHat.vector.Represents 3328 dk.sHat.vector.toTq := fun i => ⟨hwithin i, rfl⟩
  have huHat := (hu.mono (Nat.le_succ 3328)).ntt
  have hrun := TqVector.debugDot_ok huHat hs dotBounds_parsed
  rw [← hcached] at hrun
  have hlen : c.bytes.toList.length = 32 * P.dU * P.K + 32 * P.dV := by
    rw [Vector.length_toList, ParameterSet.ciphertextSize, Nat.mul_add, Nat.mul_assoc]
  have huRun : RqVector.debugDecodeDecompress (c.bytes.toList.take (32 * P.dU * P.K)) P.dU =
      .ok (RqVector.decodeDecompress (c.bytes.toList.take (32 * P.dU * P.K)) P.dU : RqVector P) :=
    RqVector.debugDecodeDecompress_ok hdU (by omega) (by rw [List.length_take]; omega)
  have hvRun := RqElement.debugDecodeDecompress_ok (c.bytes.toList.drop (32 * P.dU * P.K)) hdV (by omega)
  simp only [debugDecrypt, splitAt_ok (show 32 * P.dU * P.K ≤ c.bytes.toList.length by omega), ok_bind, huRun, hvRun,
    RqVector.debugNtt_ok, hrun, TqElement.debugNttInverse_ok, RqElement.debugCompressMessage_ok]
  rfl

/-- `K-PKE.KeyGen` stops only where the matrix never comes. -/
theorem KeyPair.debugNewDerand_eq (hΓ : Γ.Lawful) (seed : Vector UInt8 32) :
    (KeyPair.debugNewDerand Γ seed : Run (KeyPair P)) = lift .endless (KeyPair.newDerand Γ seed) := by
  have hK := P.K_bounds.2
  have hcount := ofNat_K P
  have hpreimage : assemble (List.replicate 33 0) seed.toList [UInt8.ofNat P.K] 32 =
    .ok (seed.toList ++ [UInt8.ofNat P.K]) :=
    assemble_ok Vector.length_toList (by rw [List.length_replicate, Vector.length_toList]; rfl)
  have htwo : (2 : UInt8).toNat * (UInt8.ofNat P.K).toNat < 2 ^ 8 := by
    rw [hcount, show (2 : UInt8).toNat = 2 from rfl]
    omega
  have hstreams : (2 * UInt8.ofNat P.K).toNat = P.K + P.K := by
    rw [UInt8.toNat_mul, hcount, show (2 : UInt8).toNat = 2 from rfl, Nat.mod_eq_of_lt (by omega), Nat.two_mul]
  rw [debugNewDerand, hpreimage, ok_bind, Crates.debugG_ok, ok_bind]
  simp only []
  rw [TqMatrix.debugExpand_eq]
  refine lift_bind fun aHat hexpand => ?_
  have hA := (expand_represents hΓ hexpand).mono canonical_le_dot
  obtain ⟨hs, _⟩ := newDerand_noise hΓ P (Γ.G (seed.toList ++ [UInt8.ofNat P.K])).2
  have hsHat := (hs.mono noise_le_forward).ntt
  obtain ⟨hsRun, heReady⟩ := CbdSampler.debugSampleVector_ok (Γ := Γ)
    (CbdSampler.new_ready (Γ := Γ) P.eta1 (Γ.G (seed.toList ++ [UInt8.ofNat P.K])).2 0 hstreams)
  have heRun := (CbdSampler.debugSampleVector_ok (P := P) (Γ := Γ) (k := 0) (by rwa [Nat.zero_add])).1
  simp only [mulU8_ok htwo, ok_bind, CbdSampler.debugNew_ok, hsRun, heRun, RqVector.debugNtt_ok, CachedTqVector.debugOf_ok,
    TqMatrix.debugProduct_ok hA hsHat dotBounds_fresh, TqVector.debugToMontgomery_ok, TqMatrix.debugTranspose_ok]
  rfl

/-! ## ML-KEM -/

/-- A preimage of two 32-byte values. -/
theorem assemble_halves (left right : Vector UInt8 32) :
    assemble (List.replicate 64 0) left.toList right.toList 32 = .ok (left.toList ++ right.toList) :=
  assemble_ok Vector.length_toList (by rw [List.length_replicate, Vector.length_toList, Vector.length_toList])

/-- Key generation stops only where the matrix never comes. -/
theorem DecapsulationKey.debugGenerateDerand_eq (hΓ : Γ.Lawful) (seed : Vector UInt8 64) :
    (DecapsulationKey.debugGenerateDerand Γ seed : Run (DecapsulationKey P)) =
      lift .endless (DecapsulationKey.generateDerand Γ seed) := by
  obtain ⟨d, z, rfl⟩ := exists_halves seed
  have hd : d.toList.length = 32 := Vector.length_toList
  rw [debugGenerateDerand, generateDerand, seed_left, seed_right, Vector.toList_append, splitAt_append hd, ok_bind]
  simp only []
  rw [copyIntoArray_toList, ok_bind, copyIntoArray_toList, ok_bind, KeyPair.debugNewDerand_eq hΓ]
  refine lift_bind fun pair _ => ?_
  rw [EncapsulationKey.debugOf_ok, ok_bind]
  rfl

theorem EncapsulationKey.debugEncapsulateDerand_ok (hΓ : Γ.Lawful) {ek : EncapsulationKey P} (hek : ek.Valid Γ)
    (m : Vector UInt8 32) : ek.debugEncapsulateDerand Γ m = .ok (ek.encapsulateDerand Γ m) := by
  rw [debugEncapsulateDerand, assemble_halves, ok_bind, Crates.debugG_ok, ok_bind]
  simp only []
  rw [EncryptionKey.debugEncrypt_ok hΓ hek.ekPke, ok_bind]
  rfl

theorem DecapsulationKey.debugDecapsulate_ok (hΓ : Γ.Lawful) {dk : DecapsulationKey P} (hdk : dk.Valid Γ)
    (c : Ciphertext P) :
    dk.debugDecapsulate Γ c = .ok (dk.decapsulate Γ c) := by
  rw [debugDecapsulate, DecryptionKey.debugDecrypt_ok hdk.dkPke, ok_bind, assemble_halves, ok_bind, Crates.debugG_ok,
    ok_bind]
  simp only []
  rw [EncryptionKey.debugEncrypt_ok hΓ hdk.ek.ekPke, ok_bind, Ciphertext.debugCtEq_ok, ok_bind]
  rfl

/-- Every call of a program comes to the value of the code, or samples without end where the code does; so do the serial
sampler and the product of two elements, which no scheme calls. -/
theorem nothing_panics (hΓ : Γ.Lawful) (P : ParameterSet) :
    (∀ seed : Vector UInt8 64, (DecapsulationKey.debugGenerateDerand Γ seed : Run (DecapsulationKey P)) =
      lift .endless (DecapsulationKey.generateDerand Γ seed)) ∧
    (∀ bytes : List UInt8,
      (DecapsulationKey.debugFromBytes Γ bytes : Run (Except Error (DecapsulationKey P))) =
        lift .endless (DecapsulationKey.fromBytes Γ bytes) ∧
      (EncapsulationKey.debugFromBytes Γ bytes : Run (Except Error (EncapsulationKey P))) =
        lift .endless (EncapsulationKey.fromBytes Γ bytes) ∧
      Ciphertext.debugTryFrom bytes = .ok (Ciphertext.tryFrom bytes : Except Error (Ciphertext P))) ∧
    (∀ ek : EncapsulationKey P, ek.Obtained Γ → ek.debugToBytes = .ok ek.toBytes ∧
      ∀ m, ek.debugEncapsulateDerand Γ m = .ok (ek.encapsulateDerand Γ m)) ∧
    (∀ dk : DecapsulationKey P, dk.Obtained Γ → dk.debugToBytes = .ok dk.toBytes ∧
      ∀ c, dk.debugDecapsulate Γ c = .ok (dk.decapsulate Γ c)) ∧
    (∀ (rho : Vector UInt8 32) (i j : UInt8),
      TqElement.debugSampleNtt Γ rho i j = lift .endless (TqElement.sampleNtt Γ rho i j)) ∧
    ∀ a b : TqElement, a.debugMul b = .ok (a * b) := by
  refine ⟨DecapsulationKey.debugGenerateDerand_eq hΓ, fun bytes => ⟨?_, ?_, ?_⟩,
    fun ek hek => ⟨ek.debugToBytes_ok, fun m => ?_⟩,
    fun dk hdk => ⟨dk.debugToBytes_ok, fun c => ?_⟩, TqElement.debugSampleNtt_eq, TqElement.debugMul_ok⟩
  · exact DecapsulationKey.debugFromBytes_eq bytes
  · exact EncapsulationKey.debugFromBytes_eq bytes
  · exact Ciphertext.debugTryFrom_ok bytes
  · exact EncapsulationKey.debugEncapsulateDerand_ok hΓ (hek.valid hΓ) m
  · exact DecapsulationKey.debugDecapsulate_ok hΓ (hdk.valid hΓ) c

/-- The keys of the seed of zeros, the three parsers on the empty string, and one sample. -/
theorem nothing_panics_zero :
    ∃ (dk : DecapsulationKey .mlkem512) (c : Ciphertext .mlkem512) (t : TqElement),
      DecapsulationKey.debugGenerateDerand Crates.fips202 (zeroSeed ++ zeroSeed) = .ok dk ∧ dk.debugToBytes =
        .ok dk.toBytes ∧
      dk.encapsulationKey.debugToBytes = .ok dk.encapsulationKey.toBytes ∧
      dk.encapsulationKey.debugEncapsulateDerand Crates.fips202 zeroSeed =
        .ok (dk.encapsulationKey.encapsulateDerand Crates.fips202 zeroSeed) ∧
      dk.debugDecapsulate Crates.fips202 c = .ok (dk.decapsulate Crates.fips202 c) ∧
      (DecapsulationKey.debugFromBytes Crates.fips202 [] : Run (Except Error (DecapsulationKey .mlkem512))) =
        .ok (.error .invalidDecapsulationKeyLength) ∧
      (EncapsulationKey.debugFromBytes Crates.fips202 [] : Run (Except Error (EncapsulationKey .mlkem512))) =
        .ok (.error .invalidEncapsulationKeyLength) ∧
      (Ciphertext.debugTryFrom [] : Run (Except Error (Ciphertext .mlkem512))) = .ok (.error .invalidCiphertextLength) ∧
      TqElement.debugSampleNtt Crates.fips202 exampleRho 0 0 = .ok t ∧ t.debugMul t = .ok (t * t) := by
  obtain ⟨hgenerate, hbytes, hek, hdk, hsample, hmul⟩ := nothing_panics Crates.fips202_lawful .mlkem512
  obtain ⟨dk, hrun⟩ := generateDerand_ends Crates.fips202_lawful zeroSeed zeroSeed_suffices
  have hobtained := DecapsulationKey.Obtained.generated hrun
  obtain ⟨hdkBytes, hdecapsulate⟩ := hdk dk hobtained
  obtain ⟨hekBytes, hencapsulate⟩ := hek _ (.ofDecapsulationKey hobtained)
  obtain ⟨hdkParse, hekParse, hcParse⟩ := hbytes []
  obtain ⟨t, ht⟩ : ∃ t, TqElement.sampleNtt Crates.fips202 exampleRho 0 0 = some t :=
    ⟨_, sampleNtt_eq Crates.fips202_lawful exampleRho 0 0 (zeroSeed_suffices 0 (by decide))⟩
  refine ⟨dk, ⟨Vector.replicate _ 0⟩, t, ?_, hdkBytes, hekBytes, hencapsulate _, hdecapsulate _, hdkParse, hekParse,
    hcParse, ?_, hmul _ _⟩
  · rw [hgenerate, hrun]
    rfl
  · rw [hsample, ht]
    rfl

/-! ## The count of the noise sampler -/

namespace NoiseCall

end NoiseCall

end MlkemSelkie
