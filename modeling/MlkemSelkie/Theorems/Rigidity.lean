import MlkemSelkie.Lib.Counting
import MlkemSelkie.Theorems.Correctness

/-!
# Which ciphertexts are accepted

Decapsulation accepts a ciphertext that re-encrypts to itself. An accepted ciphertext is an encapsulation, of the
message that it decrypts to, and no two of them decrypt to one message: of all ciphertexts, at most one for each message
is not rejected.
-/

namespace MlkemSelkie

open Counting

variable {P : ParameterSet} {Γ : Crates}

/-- The ciphertext is what its decrypted message encrypts to. -/
def DecapsulationKey.Accepts (Γ : Crates) (dk : DecapsulationKey P) (c : Ciphertext P) : Prop :=
  c = dk.ek.ekPke.encrypt Γ (dk.dkPke.decrypt c) (Γ.G ((dk.dkPke.decrypt c).toList ++ dk.hEk.toList)).2

namespace DecapsulationKey

variable {dk : DecapsulationKey P}

/-- A ciphertext that is not accepted yields the rejection secret. -/
theorem decapsulate_rejected (hΓ : Γ.Lawful) {c : Ciphertext P} (h : ¬dk.Accepts Γ c) :
    dk.decapsulate Γ c = Γ.J dk.z c.bytes.toList :=
  (decapsulate_eq hΓ dk c).trans (if_neg h)

/-- An accepted ciphertext is an encapsulation of the message that it decrypts to. -/
theorem Accepts.encapsulates (hΓ : Γ.Lawful) (hhash : dk.hEk = dk.ek.hEk) {c : Ciphertext P} (h : dk.Accepts Γ c) :
    dk.encapsulationKey.encapsulateDerand Γ (dk.dkPke.decrypt c) = (dk.decapsulate Γ c, c) := by
  refine Prod.ext ?_ ?_
  · refine Eq.trans ?_ ((decapsulate_eq hΓ dk c).trans (if_pos h)).symm
    rw [hhash]
    rfl
  · refine Eq.trans ?_ h.symm
    rw [hhash]
    rfl

/-- An encapsulation that decrypts to its message is accepted. -/
theorem accepts_encapsulation (hhash : dk.hEk = dk.ek.hEk) {m : Vector UInt8 32} {c : Ciphertext P}
    (hencaps : (dk.encapsulationKey.encapsulateDerand Γ m).2 = c) (hdecrypt : dk.dkPke.decrypt c = m) : dk.Accepts Γ c := by
  rw [Accepts, hdecrypt, hhash]
  exact hencaps.symm

/-- Accepted ciphertexts that decrypt to one message are one ciphertext. -/
theorem Accepts.eq_of_decrypt {c c' : Ciphertext P} (h : dk.Accepts Γ c) (h' : dk.Accepts Γ c')
    (hsame : dk.dkPke.decrypt c = dk.dkPke.decrypt c') : c = c' := by
  rw [Accepts] at h h'
  rw [h, h', hsame]

/-- A ciphertext is accepted exactly when it is an encapsulation that decrypts to its message; every other ciphertext,
so all but one of those that decrypt to a message and all but `2^256` of them in all, yields the rejection secret. -/
theorem decapsulation_rigid (hΓ : Γ.Lawful) (hdk : dk.Obtained Γ) :
    (∀ c m K, dk.encapsulationKey.encapsulateDerand Γ m = (K, c) → dk.dkPke.decrypt c = m → dk.decapsulate Γ c = K) ∧
    (∀ c, dk.decapsulate Γ c ≠ Γ.J dk.z c.bytes.toList →
      dk.encapsulationKey.encapsulateDerand Γ (dk.dkPke.decrypt c) = (dk.decapsulate Γ c, c)) ∧
    (∀ c c', c ≠ c' → dk.dkPke.decrypt c = dk.dkPke.decrypt c' →
      dk.decapsulate Γ c = Γ.J dk.z c.bytes.toList ∨ dk.decapsulate Γ c' = Γ.J dk.z c'.bytes.toList) ∧
    Nat.card {c : Ciphertext P // dk.decapsulate Γ c ≠ Γ.J dk.z c.bytes.toList} ≤ 2 ^ 256 := by
  have hhash := (hdk.valid hΓ).hEk_eq
  have haccepts : ∀ c, dk.decapsulate Γ c ≠ Γ.J dk.z c.bytes.toList → dk.Accepts Γ c := fun c h => by
    by_contra hnot
    exact h (decapsulate_rejected hΓ hnot)
  refine ⟨fun c m K hencaps hdecrypt => ?_, fun c h => (haccepts c h).encapsulates hΓ hhash, fun c c' hne hsame => ?_, ?_⟩
  · have h := (accepts_encapsulation hhash (congrArg Prod.snd hencaps) hdecrypt).encapsulates hΓ hhash
    rw [hdecrypt, hencaps] at h
    exact (congrArg Prod.fst h).symm
  · by_contra hboth
    obtain ⟨h, h'⟩ := not_or.mp hboth
    exact hne ((haccepts c h).eq_of_decrypt (haccepts c' h') hsame)
  · have hinjective : Function.Injective fun c : {c : Ciphertext P // dk.decapsulate Γ c ≠ Γ.J dk.z c.bytes.toList} =>
        dk.dkPke.decrypt c.val := fun c c' hsame =>
      Subtype.ext ((haccepts _ c.property).eq_of_decrypt (haccepts _ c'.property) hsame)
    have hcard := Nat.card_le_card_of_injective _ hinjective
    rw [card_bytes, show 256 = 2 ^ 8 from rfl, ← pow_mul] at hcard
    exact hcard

/-- On the keys of the seed of zeros, with the encapsulation of the message of zeros as an accepted ciphertext. -/
theorem decapsulation_rigid_zero :
    ∃ dk : DecapsulationKey .mlkem512, DecapsulationKey.generateDerand Crates.fips202 (zeroSeed ++ zeroSeed) = some dk ∧
      dk.decapsulate Crates.fips202 (dk.encapsulationKey.encapsulateDerand Crates.fips202 zeroSeed).2 =
        (dk.encapsulationKey.encapsulateDerand Crates.fips202 zeroSeed).1 ∧
      (∀ c, dk.decapsulate Crates.fips202 c ≠ Crates.fips202.J dk.z c.bytes.toList →
        dk.encapsulationKey.encapsulateDerand Crates.fips202 (dk.dkPke.decrypt c) = (dk.decapsulate Crates.fips202 c, c)) ∧
      (∀ c, c ≠ (dk.encapsulationKey.encapsulateDerand Crates.fips202 zeroSeed).2 → dk.dkPke.decrypt c = zeroSeed →
        dk.decapsulate Crates.fips202 c = Crates.fips202.J dk.z c.bytes.toList ∨
          dk.decapsulate Crates.fips202 (dk.encapsulationKey.encapsulateDerand Crates.fips202 zeroSeed).2 =
            Crates.fips202.J dk.z (dk.encapsulationKey.encapsulateDerand Crates.fips202 zeroSeed).2.bytes.toList) ∧
      Nat.card {c : Ciphertext .mlkem512 // dk.decapsulate Crates.fips202 c ≠ Crates.fips202.J dk.z c.bytes.toList} ≤
        2 ^ 256 := by
  obtain ⟨dk, hrun⟩ := generateDerand_ends Crates.fips202_lawful zeroSeed zeroSeed_suffices
  obtain ⟨haccepted, hencapsulates, hother, hcard⟩ := decapsulation_rigid Crates.fips202_lawful (.generated hrun)
  have hdecrypts := zeroSeed_decrypts hrun
  refine ⟨dk, hrun, haccepted _ zeroSeed _ rfl hdecrypts, hencapsulates, fun c hne hsame => ?_, hcard⟩
  exact hother c _ hne (hsame.trans hdecrypts.symm)

end DecapsulationKey

end MlkemSelkie
