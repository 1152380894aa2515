import MlkemSelkie.Lemmas.Fips202
import MlkemSelkie.Lemmas.Kem

/-!
# Serialization keeps the behaviour of a key

What a valid key computes is a function of its serialization, so a key and its parsed serialization cannot be told apart,
however their representatives differ.
-/

namespace MlkemSelkie

variable {P : ParameterSet} {Γ : Crates}

/-- Valid encapsulation keys with one serialization encapsulate alike. -/
theorem EncapsulationKey.encapsulateDerand_congr (hΓ : Γ.Lawful) {a b : EncapsulationKey P} (ha : a.Valid Γ)
    (hb : b.Valid Γ) (h : a.toBytes.toList = b.toBytes.toList) (m : Vector UInt8 32) :
    a.encapsulateDerand Γ m = b.encapsulateDerand Γ m := by
  have hspec := encapsulateDerand_spec hΓ ha m
  rw [h, ← encapsulateDerand_spec hΓ hb m] at hspec
  obtain ⟨hsecret, hbytes⟩ := Prod.mk.inj hspec
  exact Prod.ext hsecret (Ciphertext.toList_inj.mp hbytes)

/-- Valid decapsulation keys with one serialization decapsulate alike. -/
theorem DecapsulationKey.decapsulate_congr (hΓ : Γ.Lawful) {a b : DecapsulationKey P} (ha : a.Valid Γ) (hb : b.Valid Γ)
    (h : a.toBytes.toList = b.toBytes.toList) (c : Ciphertext P) : a.decapsulate Γ c = b.decapsulate Γ c := by
  rw [decapsulate_spec hΓ ha, decapsulate_spec hΓ hb, h]

/-- Keys survive their serialization with unchanged behaviour. -/
theorem DecapsulationKey.survives_serialization (hΓ : Γ.Lawful) {k : DecapsulationKey P} (hk : k.Obtained Γ) :
    (∃ k2 : DecapsulationKey P, DecapsulationKey.fromBytes Γ k.toBytes.toList = some (.ok k2) ∧
      k2.toBytes = k.toBytes ∧ ∀ c, k2.decapsulate Γ c = k.decapsulate Γ c) ∧
    ∃ e2 : EncapsulationKey P, EncapsulationKey.fromBytes Γ k.encapsulationKey.toBytes.toList = some (.ok e2) ∧
      ∀ m, e2.encapsulateDerand Γ m = k.encapsulationKey.encapsulateDerand Γ m := by
  have hvalid := hk.valid hΓ
  obtain ⟨k2, hparse, hk2, hbytes⟩ := DecapsulationKey.fromBytes_toBytes hvalid
  obtain ⟨e2, hparseEk, he2, hbytesEk⟩ := EncapsulationKey.fromBytes_toBytes hvalid.ek
  refine ⟨⟨k2, hparse, Vector.toList_inj.mp hbytes, fun c => ?_⟩, e2, hparseEk, fun m => ?_⟩
  · exact DecapsulationKey.decapsulate_congr hΓ hk2 hvalid hbytes c
  · exact EncapsulationKey.encapsulateDerand_congr hΓ he2 hvalid.ek hbytesEk m

/-- The keys of the seed of zeros, serialized and parsed. -/
theorem DecapsulationKey.survives_serialization_zero :
    ∃ k : DecapsulationKey .mlkem512, k.Obtained Crates.fips202 ∧
      (∃ k2 : DecapsulationKey .mlkem512, DecapsulationKey.fromBytes Crates.fips202 k.toBytes.toList = some (.ok k2) ∧
        k2.toBytes = k.toBytes ∧ ∀ c, k2.decapsulate Crates.fips202 c = k.decapsulate Crates.fips202 c) ∧
      ∃ e2 : EncapsulationKey .mlkem512,
        EncapsulationKey.fromBytes Crates.fips202 k.encapsulationKey.toBytes.toList = some (.ok e2) ∧
        ∀ m, e2.encapsulateDerand Crates.fips202 m = k.encapsulationKey.encapsulateDerand Crates.fips202 m := by
  obtain ⟨k, hrun⟩ := generateDerand_ends Crates.fips202_lawful zeroSeed zeroSeed_suffices
  have hk := DecapsulationKey.Obtained.generated hrun
  exact ⟨k, hk, DecapsulationKey.survives_serialization Crates.fips202_lawful hk⟩

end MlkemSelkie
