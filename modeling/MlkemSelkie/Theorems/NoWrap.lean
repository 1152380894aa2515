import MlkemSelkie.Lemmas.CheckedVector
import MlkemSelkie.Lemmas.Fips202

/-!
# No arithmetic wraps

Every run of key generation, encapsulation and decapsulation has the value of its checked run: on no key that a program can
hold, and on no message, seed or ciphertext, does an operation leave its range.
-/

namespace MlkemSelkie

open Fips203 SignedWords

variable {P : ParameterSet} {Γ : Crates}

/-- `K-PKE.Encrypt` under a valid key. -/
theorem EncryptionKey.checkedEncrypt_eq (hΓ : Γ.Lawful) {ek : EncryptionKey P} (hek : ek.Valid Γ) (m r : Vector UInt8 32) :
    ek.checkedEncrypt Γ m r = some (ek.encrypt Γ m r) := by
  obtain ⟨ht, hA⟩ := hek.represents hΓ
  obtain ⟨hy, he1, he2⟩ := encrypt_noise hΓ P r
  have hyWide := hy.mono noise_le_forward
  have hyHat := hyWide.ntt
  have hproduct := hA.mul hyHat dotBounds_fresh
  have hdot := ht.mul hyHat dotBounds_fresh
  have hv := (hdot.nttInverse_mul (by decide)).add he2 (by decide)
  simp only [checkedEncrypt, encrypt, CbdSampler.checkedSampleVector_eq, CbdSampler.checkedSampleElement_eq,
    CachedTqVector.checkedOf_eq, some_bind,
    RqVector.checkedNtt_eq hyWide, TqMatrix.checkedProduct_eq hA hyHat dotBounds_fresh,
    TqVector.checkedNttInverse_eq (hproduct.mono dot_le_inverse),
    RqVector.checkedAdd_eq hproduct.nttInverse_mul he1 (by decide), TqVector.checkedDot_eq ht hyHat dotBounds_fresh,
    TqElement.checkedNttInverse_eq (hdot.mono dot_le_inverse).1,
    RqElement.checkedAdd_eq (hdot.nttInverse_mul (by decide)).1 he2.1 (by decide),
    RqElement.checkedAdd_eq hv.1 (fromMessage_represents m).1 (by decide)]
  rfl

/-- `K-PKE.Decrypt` under a valid key. -/
theorem DecryptionKey.checkedDecrypt_eq {dk : DecryptionKey P} (hdk : dk.Valid) (c : Ciphertext P) :
    dk.checkedDecrypt c = some (dk.decrypt c) := by
  obtain ⟨hwithin, hcached⟩ := hdk
  obtain ⟨hu, hv⟩ := decompress_represents c
  have hs : dk.sHat.vector.Represents 3328 dk.sHat.vector.toTq := fun i => ⟨hwithin i, rfl⟩
  have huWide := hu.mono (Nat.le_succ 3328)
  have huHat := huWide.ntt
  have hdot := huHat.mul hs dotBounds_parsed
  have hrun := TqVector.checkedDot_eq huHat hs dotBounds_parsed
  rw [← hcached] at hdot hrun
  simp only [checkedDecrypt, decrypt, RqVector.checkedNtt_eq huWide, hrun,
    TqElement.checkedNttInverse_eq (hdot.mono dot_le_inverse).1,
    RqElement.checkedSub_eq hv.1 (hdot.nttInverse_mul (by decide)).1 (by decide), some_bind]
  rfl

/-- `K-PKE.KeyGen`: the matrix is expanded before any arithmetic. -/
theorem KeyPair.checkedNewDerand_eq (hΓ : Γ.Lawful) {seed : Vector UInt8 32} {pair : KeyPair P}
    (h : KeyPair.newDerand Γ seed = some pair) : KeyPair.checkedNewDerand Γ seed = some pair := by
  obtain ⟨m, hexpand, hpair⟩ := Option.bind_eq_some_iff.mp h
  replace hexpand : TqMatrix.expand Γ (Γ.G (seed.toList ++ [UInt8.ofNat P.K])).1 = some m := hexpand
  have hA := (expand_represents hΓ hexpand).mono canonical_le_dot
  obtain ⟨hs, he⟩ := newDerand_noise hΓ P (Γ.G (seed.toList ++ [UInt8.ofNat P.K])).2
  have hsWide := hs.mono noise_le_forward
  have heWide := he.mono noise_le_forward
  have hsHat := hsWide.ntt
  have heHat := heWide.ntt
  have hproduct := hA.mul hsHat dotBounds_fresh
  simp only [checkedNewDerand, hexpand, CbdSampler.checkedSampleVector_eq, CachedTqVector.checkedOf_eq, some_bind,
    RqVector.checkedNtt_eq hsWide, RqVector.checkedNtt_eq heWide,
    TqMatrix.checkedProduct_eq hA hsHat dotBounds_fresh, TqVector.checkedToMontgomery_eq,
    TqVector.checkedAdd_eq hproduct.toMontgomery_mul heHat (by decide)]
  exact hpair

/-- Key generation, whenever it ends. -/
theorem DecapsulationKey.checkedGenerateDerand_eq (hΓ : Γ.Lawful) {seed : Vector UInt8 64} {dk : DecapsulationKey P}
    (h : DecapsulationKey.generateDerand Γ seed = some dk) : DecapsulationKey.checkedGenerateDerand Γ seed = some dk := by
  obtain ⟨pair, hpair, hdk⟩ := Option.bind_eq_some_iff.mp h
  rw [← hdk, checkedGenerateDerand, KeyPair.checkedNewDerand_eq hΓ hpair]
  rfl

theorem EncapsulationKey.checkedEncapsulateDerand_eq (hΓ : Γ.Lawful) {ek : EncapsulationKey P} (hek : ek.Valid Γ)
    (m : Vector UInt8 32) : ek.checkedEncapsulateDerand Γ m = some (ek.encapsulateDerand Γ m) := by
  simp only [checkedEncapsulateDerand, EncryptionKey.checkedEncrypt_eq hΓ hek.ekPke, some_bind]
  rfl

theorem DecapsulationKey.checkedDecapsulate_eq (hΓ : Γ.Lawful) {dk : DecapsulationKey P} (hdk : dk.Valid Γ)
    (c : Ciphertext P) : dk.checkedDecapsulate Γ c = some (dk.decapsulate Γ c) := by
  simp only [checkedDecapsulate, DecryptionKey.checkedDecrypt_eq hdk.dkPke, EncryptionKey.checkedEncrypt_eq hΓ hdk.ek.ekPke,
    some_bind]
  rfl

/-- No arithmetic wraps on any run, under any key that a program can hold. -/
theorem no_arithmetic_wraps (hΓ : Γ.Lawful) (P : ParameterSet) :
    (∀ (seed : Vector UInt8 64) (dk : DecapsulationKey P), DecapsulationKey.generateDerand Γ seed = some dk →
      DecapsulationKey.checkedGenerateDerand Γ seed = some dk) ∧
    (∀ ek : EncapsulationKey P, ek.Obtained Γ → ∀ m, ek.checkedEncapsulateDerand Γ m = some (ek.encapsulateDerand Γ m)) ∧
    ∀ dk : DecapsulationKey P, dk.Obtained Γ → ∀ c, dk.checkedDecapsulate Γ c = some (dk.decapsulate Γ c) :=
  ⟨fun _ _ h => DecapsulationKey.checkedGenerateDerand_eq hΓ h,
    fun _ hek m => EncapsulationKey.checkedEncapsulateDerand_eq hΓ (hek.valid hΓ) m,
    fun _ hdk c => DecapsulationKey.checkedDecapsulate_eq hΓ (hdk.valid hΓ) c⟩

/-- The three operations on the seed, the message and the ciphertext of zeros. -/
theorem no_arithmetic_wraps_zero :
    ∃ (dk : DecapsulationKey .mlkem512) (c : Ciphertext .mlkem512),
      DecapsulationKey.checkedGenerateDerand Crates.fips202 (zeroSeed ++ zeroSeed) = some dk ∧
      dk.encapsulationKey.checkedEncapsulateDerand Crates.fips202 zeroSeed =
        some (dk.encapsulationKey.encapsulateDerand Crates.fips202 zeroSeed) ∧
      dk.checkedDecapsulate Crates.fips202 c = some (dk.decapsulate Crates.fips202 c) := by
  obtain ⟨hgenerate, hencapsulate, hdecapsulate⟩ := no_arithmetic_wraps Crates.fips202_lawful .mlkem512
  obtain ⟨dk, hrun⟩ := generateDerand_ends Crates.fips202_lawful zeroSeed zeroSeed_suffices
  have hdk := DecapsulationKey.Obtained.generated hrun
  exact ⟨dk, ⟨Vector.replicate _ 0⟩, hgenerate _ dk hrun, hencapsulate _ (.ofDecapsulationKey hdk) _, hdecapsulate dk hdk _⟩

end MlkemSelkie
