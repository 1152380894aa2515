import MlkemSelkie.Lemmas.Decryption
import MlkemSelkie.Lemmas.Fips202
import MlkemSelkie.Lemmas.Kem

/-!
# Correctness whenever the noise fits

Decryption returns the message and decapsulation the shared secret, for generated keys and for the keys parsed back from
their serializations.
-/

namespace MlkemSelkie

open Fips203

variable {P : ParameterSet} {Γ : Crates}

/-- A ciphertext survives its serialization. -/
theorem Ciphertext.tryFrom_toList (c : Ciphertext P) : Ciphertext.tryFrom c.bytes.toList = .ok c := by
  rw [Ciphertext.tryFrom, if_neg (not_not.mpr Vector.length_toList)]
  exact congrArg Except.ok (Ciphertext.toList_inj.mp (Loops.toList_ofFn_getD Vector.length_toList 0))

/-- Valid keys that serialize to a key pair of K-PKE decrypt what they encrypt, when the noise fits. -/
theorem decrypt_encrypt (hΓ : Γ.Lawful) {ek : EncryptionKey P} {dk : DecryptionKey P} (hek : ek.Valid Γ) (hdk : dk.Valid)
    {d : Vector UInt8 32} (hkeys : (ek.toBytes.toList, dk.toBytes.toList) = kpkeKeyGen P.fips Γ.hashes d)
    {m r : Vector UInt8 32} (hf : NoiseFits (decryptionNoise P.fips Γ.hashes d m.toList r)) :
    dk.decrypt (ek.encrypt Γ m r) = m := by
  obtain ⟨hekBytes, hdkBytes⟩ := Prod.mk.inj hkeys
  refine Vector.toList_inj.mp ?_
  rw [decrypt_toList hdk, encrypt_toList hΓ hek, hekBytes, hdkBytes]
  exact kpkeDecrypt_kpkeEncrypt Γ.hashes (widths P).1 (widths P).2 d Vector.length_toList r hf

/-- The K-PKE keys in valid keys that serialize to a key pair. -/
theorem keyGen_parts {ek : EncapsulationKey P} {dk : DecapsulationKey P} {d z : Vector UInt8 32}
    (hkeys : (ek.toBytes.toList, dk.toBytes.toList) = keyGen P.fips Γ.hashes d z) :
    (ek.ekPke.toBytes.toList, dk.dkPke.toBytes.toList) = kpkeKeyGen P.fips Γ.hashes d ∧
      dk.ek.toBytes.toList = ek.toBytes.toList := by
  obtain ⟨hekBytes, hdkBytes⟩ := Prod.mk.inj hkeys
  obtain ⟨hslice1, hslice2, _, _⟩ := dk.slices
  have hlen1 : (kpkeKeyGen P.fips Γ.hashes d).2.length = 384 * P.K := length_encodeVector _
  have hlen2 : (kpkeKeyGen P.fips Γ.hashes d).1.length = 384 * P.K + 32 := by
    rw [kpkeKeyGen, List.length_append, length_encodeVector, Vector.length_toList]
  rw [hdkBytes, List.append_assoc, List.append_assoc, ← hlen1, List.take_left] at hslice1
  rw [hdkBytes, List.append_assoc, List.append_assoc, ← hlen1, List.drop_left, hlen1, ← hlen2, List.take_left] at hslice2
  exact ⟨Prod.ext hekBytes hslice1.symm, hslice2.symm.trans hekBytes.symm⟩

/-- Valid keys that serialize to a key pair agree on the shared secret, when the noise fits. -/
theorem decapsulate_encapsulate (hΓ : Γ.Lawful) {ek : EncapsulationKey P} {dk : DecapsulationKey P} (hek : ek.Valid Γ)
    (hdk : dk.Valid Γ) {d z : Vector UInt8 32} (hkeys : (ek.toBytes.toList, dk.toBytes.toList) = keyGen P.fips Γ.hashes d z)
    {m : Vector UInt8 32}
    (hf : NoiseFits (decryptionNoise P.fips Γ.hashes d m.toList (Γ.G (m.toList ++ (Γ.H ek.toBytes.toList).toList)).2)) :
    dk.decapsulate Γ (ek.encapsulateDerand Γ m).2 = (ek.encapsulateDerand Γ m).1 := by
  obtain ⟨hpair, hsame⟩ := keyGen_parts hkeys
  have hhash : dk.hEk = ek.hEk := by rw [hdk.hEk_eq, hdk.ek.hEk_eq, hsame, hek.hEk_eq]
  rw [← hek.hEk_eq] at hf
  have hm := decrypt_encrypt hΓ hek.ekPke hdk.dkPke hpair hf
  have hsecond : ∀ r, dk.ek.ekPke.encrypt Γ m r = ek.ekPke.encrypt Γ m r := fun r => by
    refine Ciphertext.toList_inj.mp ?_
    rw [encrypt_toList hΓ hdk.ek.ekPke, encrypt_toList hΓ hek.ekPke]
    exact congrArg (kpkeEncrypt P.fips Γ.hashes · m.toList r) hsame
  show dk.decapsulate Γ (ek.ekPke.encrypt Γ m (Γ.G (m.toList ++ ek.hEk.toList)).2) = (Γ.G (m.toList ++ ek.hEk.toList)).1
  rw [decapsulate_eq hΓ]
  simp only [hm, hhash, hsecond, if_true]

/-- Correctness of generated keys, and of the keys parsed back from what they serialize to. -/
theorem generateDerand_correct (hΓ : Γ.Lawful) (d z m : Vector UInt8 32) :
    (Γ.Suffices P (Γ.G (d.toList ++ [UInt8.ofNat P.K])).1 →
      ∃ dk : DecapsulationKey P, DecapsulationKey.generateDerand Γ (d ++ z) = some dk) ∧
    ∀ dk : DecapsulationKey P, DecapsulationKey.generateDerand Γ (d ++ z) = some dk →
      ∃ (dk' : DecapsulationKey P) (ek' : EncapsulationKey P),
        DecapsulationKey.fromBytes Γ dk.toBytes.toList = some (.ok dk') ∧
        EncapsulationKey.fromBytes Γ dk.encapsulationKey.toBytes.toList = some (.ok ek') ∧
        (∀ c : Ciphertext P, Ciphertext.tryFrom c.bytes.toList = .ok c) ∧
        (∀ r, NoiseFits (decryptionNoise P.fips Γ.hashes d m.toList r) →
          dk.dkPke.decrypt (dk.ek.ekPke.encrypt Γ m r) = m ∧ dk'.dkPke.decrypt (ek'.ekPke.encrypt Γ m r) = m) ∧
        (NoiseFits (decryptionNoise P.fips Γ.hashes d m.toList
            (Γ.G (m.toList ++ (Γ.H dk.encapsulationKey.toBytes.toList).toList)).2) →
          dk.decapsulate Γ (dk.encapsulationKey.encapsulateDerand Γ m).2 = (dk.encapsulationKey.encapsulateDerand Γ m).1 ∧
          dk'.decapsulate Γ (ek'.encapsulateDerand Γ m).2 = (dk.encapsulationKey.encapsulateDerand Γ m).1) := by
  refine ⟨generateDerand_ends hΓ z, fun dk hgen => ?_⟩
  obtain ⟨hdk, hkeys⟩ := generateDerand_spec hΓ hgen
  obtain ⟨dk', hdkParse, hdk', hdkBytes⟩ := DecapsulationKey.fromBytes_toBytes hdk
  obtain ⟨ek', hekParse, hek', hekBytes⟩ := EncapsulationKey.fromBytes_toBytes hdk.ek
  have hkeys' : (ek'.toBytes.toList, dk'.toBytes.toList) = keyGen P.fips Γ.hashes d z := by
    rw [hdkBytes, hekBytes]
    exact hkeys
  refine ⟨dk', ek', hdkParse, hekParse, Ciphertext.tryFrom_toList, fun r hf => ⟨?_, ?_⟩, fun hf => ⟨?_, ?_⟩⟩
  · exact decrypt_encrypt hΓ hdk.ek.ekPke hdk.dkPke (keyGen_parts hkeys).1 hf
  · exact decrypt_encrypt hΓ hek'.ekPke hdk'.dkPke (keyGen_parts hkeys').1 hf
  · exact decapsulate_encapsulate hΓ hdk.ek hdk hkeys hf
  · rw [decapsulate_encapsulate hΓ hek' hdk' hkeys' (by rw [hekBytes]; exact hf)]
    have h1 := congrArg Prod.fst (encapsulateDerand_spec hΓ hek' m)
    rw [hekBytes] at h1
    exact h1.trans (congrArg Prod.fst (encapsulateDerand_spec hΓ hdk.ek m)).symm

/-- The key that the seed of zeros generates is the one computed on numbers. -/
theorem zeroSeed_key {dk : DecapsulationKey .mlkem512}
    (hrun : DecapsulationKey.generateDerand Crates.fips202 (zeroSeed ++ zeroSeed) = some dk) :
    dk.encapsulationKey.toBytes.toList = zeroKey := by
  obtain ⟨hbytes, _⟩ := Prod.mk.inj (generateDerand_spec Crates.fips202_lawful hrun).2
  rw [zeroKey_eq]
  exact hbytes

/-- The message of zeros comes back from its encapsulation. -/
theorem zeroSeed_decrypts {dk : DecapsulationKey .mlkem512}
    (hrun : DecapsulationKey.generateDerand Crates.fips202 (zeroSeed ++ zeroSeed) = some dk) :
    dk.dkPke.decrypt (dk.encapsulationKey.encapsulateDerand Crates.fips202 zeroSeed).2 = zeroSeed := by
  obtain ⟨hdk, hkeys⟩ := generateDerand_spec Crates.fips202_lawful hrun
  have hhash : dk.encapsulationKey.hEk = Crates.fips202.H dk.encapsulationKey.toBytes.toList := hdk.ek.hEk_eq
  show dk.dkPke.decrypt (dk.ek.ekPke.encrypt Crates.fips202 zeroSeed
    (Crates.fips202.G (zeroSeed.toList ++ dk.encapsulationKey.hEk.toList)).2) = zeroSeed
  rw [hhash, zeroSeed_key hrun, ← zeroCoins_eq]
  exact decrypt_encrypt Crates.fips202_lawful hdk.ek.ekPke hdk.dkPke (keyGen_parts hkeys).1 zeroSeed_fits

/-- On the seed of zeros, where the noise of the message of zeros is computed and fits: the generated keys and the
parsed ones return the message and agree on the secret. -/
theorem generateDerand_correct_zero :
    ∃ (dk dk' : DecapsulationKey .mlkem512) (ek' : EncapsulationKey .mlkem512),
      DecapsulationKey.generateDerand Crates.fips202 (zeroSeed ++ zeroSeed) = some dk ∧
      DecapsulationKey.fromBytes Crates.fips202 dk.toBytes.toList = some (.ok dk') ∧
      EncapsulationKey.fromBytes Crates.fips202 dk.encapsulationKey.toBytes.toList = some (.ok ek') ∧
      dk.dkPke.decrypt (dk.ek.ekPke.encrypt Crates.fips202 zeroSeed zeroCoins) = zeroSeed ∧
      dk'.dkPke.decrypt (ek'.ekPke.encrypt Crates.fips202 zeroSeed zeroCoins) = zeroSeed ∧
      dk.decapsulate Crates.fips202 (dk.encapsulationKey.encapsulateDerand Crates.fips202 zeroSeed).2 =
        (dk.encapsulationKey.encapsulateDerand Crates.fips202 zeroSeed).1 ∧
      dk'.decapsulate Crates.fips202 (ek'.encapsulateDerand Crates.fips202 zeroSeed).2 =
        (dk.encapsulationKey.encapsulateDerand Crates.fips202 zeroSeed).1 := by
  obtain ⟨hends, hcorrect⟩ := generateDerand_correct (P := .mlkem512) Crates.fips202_lawful zeroSeed zeroSeed zeroSeed
  obtain ⟨dk, hrun⟩ := hends zeroSeed_suffices
  obtain ⟨dk', ek', hdk', hek', _, hdecrypt, hdecapsulate⟩ := hcorrect dk hrun
  obtain ⟨h1, h2⟩ := hdecrypt zeroCoins zeroSeed_fits
  obtain ⟨h3, h4⟩ := hdecapsulate (by rw [zeroSeed_key hrun, ← zeroCoins_eq]; exact zeroSeed_fits)
  exact ⟨dk, dk', ek', hrun, hdk', hek', h1, h2, h3, h4⟩

end MlkemSelkie
