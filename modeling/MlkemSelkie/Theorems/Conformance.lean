import MlkemSelkie.Lemmas.Fips202
import MlkemSelkie.Lemmas.Kem

/-!
# Conformance to FIPS 203

Key generation, encapsulation and decapsulation compute Algorithms 16, 17 and 18 over the exact field, on every key that a
program can hold.
-/

namespace MlkemSelkie

open Fips203

variable {P : ParameterSet} {Γ : Crates}

/-- Key generation is Algorithm 16. -/
theorem generateDerand_conforms (hΓ : Γ.Lawful) (d z : Vector UInt8 32)
    (hrho : Γ.Suffices P (Γ.G (d.toList ++ [UInt8.ofNat P.K])).1) :
    ∃ dk : DecapsulationKey P, DecapsulationKey.generateDerand Γ (d ++ z) = some dk ∧
      dk.toBytes.toList = (keyGen P.fips Γ.hashes d z).2 ∧
      dk.encapsulationKey.toBytes.toList = (keyGen P.fips Γ.hashes d z).1 := by
  obtain ⟨dk, hrun⟩ := generateDerand_ends hΓ z hrho
  obtain ⟨hek, hdk⟩ := Prod.mk.inj (generateDerand_spec hΓ hrun).2
  exact ⟨dk, hrun, hdk, hek⟩

/-- The keys of the seed of zeros. -/
theorem generateDerand_conforms_zero :
    ∃ dk : DecapsulationKey .mlkem512, DecapsulationKey.generateDerand Crates.fips202 (zeroSeed ++ zeroSeed) = some dk ∧
      dk.toBytes.toList = (keyGen ParameterSet.mlkem512.fips Crates.fips202.hashes zeroSeed zeroSeed).2 ∧
      dk.encapsulationKey.toBytes.toList = (keyGen ParameterSet.mlkem512.fips Crates.fips202.hashes zeroSeed zeroSeed).1 :=
  generateDerand_conforms Crates.fips202_lawful zeroSeed zeroSeed zeroSeed_suffices

/-- Encapsulation is Algorithm 17 on the serialized key. -/
theorem encapsulateDerand_conforms (hΓ : Γ.Lawful) {ek : EncapsulationKey P} (hek : ek.Obtained Γ) (m : Vector UInt8 32) :
    ((ek.encapsulateDerand Γ m).1, (ek.encapsulateDerand Γ m).2.bytes.toList) =
      encaps P.fips Γ.hashes ek.toBytes.toList m :=
  encapsulateDerand_spec hΓ (hek.valid hΓ) m

/-- The message of zeros under them. -/
theorem encapsulateDerand_conforms_zero :
    ∃ ek : EncapsulationKey .mlkem512, ek.Obtained Crates.fips202 ∧
      ((ek.encapsulateDerand Crates.fips202 zeroSeed).1, (ek.encapsulateDerand Crates.fips202 zeroSeed).2.bytes.toList) =
        encaps ParameterSet.mlkem512.fips Crates.fips202.hashes ek.toBytes.toList zeroSeed := by
  obtain ⟨dk, hrun⟩ := generateDerand_ends Crates.fips202_lawful zeroSeed zeroSeed_suffices
  have hek := EncapsulationKey.Obtained.ofDecapsulationKey (.generated hrun)
  exact ⟨_, hek, encapsulateDerand_conforms Crates.fips202_lawful hek zeroSeed⟩

/-- Decapsulation is Algorithm 18 on the serialized key, with the hash of its encapsulation key: the comparison of the
ciphertexts is the equality of all their bytes. -/
theorem decapsulate_conforms (hΓ : Γ.Lawful) {dk : DecapsulationKey P} (hdk : dk.Obtained Γ) (c : Ciphertext P) :
    let ek := (dk.toBytes.toList.drop (384 * P.K)).take (384 * P.K + 32)
    let z := (dk.toBytes.toList.drop (768 * P.K + 64)).take 32
    let m' := kpkeDecrypt P.fips (dk.toBytes.toList.take (384 * P.K)) c.bytes.toList
    let K' := (Γ.hashes.G (m' ++ (Γ.hashes.H ek).toList)).1
    let r' := (Γ.hashes.G (m' ++ (Γ.hashes.H ek).toList)).2
    let c' := kpkeEncrypt P.fips Γ.hashes ek m' r'
    dk.decapsulate Γ c = (if c.bytes.toList = c' then K' else Γ.hashes.J (z ++ c.bytes.toList)) ∧
      dk.decapsulate Γ c = decaps P.fips Γ.hashes dk.toBytes.toList c.bytes.toList ∧
      ek = dk.encapsulationKey.toBytes.toList ∧
      ∀ a b : Ciphertext P, a.ctEq Γ b = true ↔ a.bytes.toList = b.bytes.toList := by
  have hvalid := hdk.valid hΓ
  obtain ⟨_, hek, hhash, _⟩ := dk.slices
  have hspec := decapsulate_spec hΓ hvalid c
  refine ⟨?_, hspec, hek, fun a b => (ctEq_iff hΓ a b).trans Ciphertext.toList_inj.symm⟩
  rw [hspec, decaps, hhash, hvalid.hEk_eq, hvalid.ek.hEk_eq, hek]
  rfl

/-- The key of the seed of zeros on a ciphertext of zeros. -/
theorem decapsulate_conforms_zero :
    ∃ (dk : DecapsulationKey .mlkem512) (c : Ciphertext .mlkem512), dk.Obtained Crates.fips202 ∧
      dk.decapsulate Crates.fips202 c =
        decaps ParameterSet.mlkem512.fips Crates.fips202.hashes dk.toBytes.toList c.bytes.toList ∧
      (dk.toBytes.toList.drop (384 * ParameterSet.mlkem512.K)).take (384 * ParameterSet.mlkem512.K + 32) =
        dk.encapsulationKey.toBytes.toList ∧
      ∀ b : Ciphertext .mlkem512, c.ctEq Crates.fips202 b = true ↔ c.bytes.toList = b.bytes.toList := by
  obtain ⟨dk, hrun⟩ := generateDerand_ends Crates.fips202_lawful zeroSeed zeroSeed_suffices
  have hdk := DecapsulationKey.Obtained.generated hrun
  have hconforms := (decapsulate_conforms Crates.fips202_lawful hdk ⟨Vector.replicate _ 0⟩).2
  exact ⟨dk, _, hdk, hconforms.1, hconforms.2.1, hconforms.2.2 _⟩

end MlkemSelkie
