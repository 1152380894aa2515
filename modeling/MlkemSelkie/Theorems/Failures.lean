import MlkemSelkie.Theorems.Correctness

/-!
# When decryption fails

Decryption is exact bit by bit: a bit of the message comes back if and only if its coefficient of the noise lies in an
interval that depends on the bit. Decapsulation of a ciphertext that fails to decrypt ends in the rejection secret, or
in the secret of another message with the same ciphertext.
-/

namespace Fips203

open MlkemSelkie

/-- The noise that a bit of the message survives: an interval around zero, one shorter on the right when the bit is set. -/
def Tolerated (bit : Bool) (x : Zq) : Prop := -832 ≤ ZMod.valMinAbs x ∧ ZMod.valMinAbs x ≤ 832 - bit.toNat

/-- One bit survives exactly the noise that it tolerates. -/
theorem compress_one_iff (bit : Bool) (x : Zq) : compress 1 (decompress 1 bit.toNat + x) = bit.toNat ↔ Tolerated bit x := by
  have hmu : decompress 1 bit.toNat = ((1665 * bit.toNat : Int) : Zq) := by
    rw [FieldElement.decompress_val (by decide), show (3329 * bit.toNat + 2 ^ (1 - 1)) / 2 ^ 1 = 1665 * bit.toNat by
      have := bit.toNat_le; omega]
    push_cast
    rfl
  have hval : ((decompress 1 bit.toNat + x).val : Int) = (1665 * bit.toNat + x.valMinAbs) % 3329 := by
    rw [hmu, ← ZMod.coe_valMinAbs x, ← Int.cast_add, ZMod.val_intCast, ZMod.coe_valMinAbs]
    rfl
  have hlow := ZMod.valMinAbs_mem_Ioc x
  have hrange : -3329 < x.valMinAbs * 2 ∧ x.valMinAbs * 2 ≤ 3329 := hlow
  rw [FieldElement.compress_val, Tolerated]
  cases bit with
  | false =>
    rw [Bool.toNat_false] at *
    omega
  | true =>
    rw [Bool.toNat_true] at *
    omega

/-- Noise that fits is tolerated whatever the bit. -/
theorem tolerated_of_fits {f : Rq} (h : NoiseFits f) {bit : Bool} (j : Fin 256) : Tolerated bit (f j) := by
  obtain ⟨hlow, hhigh⟩ := h j
  have hbit := bit.toNat_le
  exact ⟨hlow, by omega⟩

/-- A field of one bit is the bit. -/
theorem field_one (bytes : List UInt8) (j : Nat) : field 1 bytes j = (bit bytes j).toNat := by
  rw [field, Nat.ofBits_succ, Nat.ofBits_zero, Nat.mul_zero, Nat.zero_add, Nat.mul_one]
  rfl

/-- A string of 32 bytes is its 256 bits. -/
theorem message_ext {m m' : List UInt8} (hm : m.length = 32) (hm' : m'.length = 32)
    (h : ∀ j : Fin 256, bit m j = bit m' j) : m = m' := by
  rw [← byteEncode_field (d := 1) hm, ← byteEncode_field (d := 1) hm']
  exact congrArg (byteEncode 1) (funext fun j => by rw [field_one, field_one, h j])

variable {p : Params} (h : Hashes) (hdu : 1 ≤ p.du ∧ p.du ≤ 11) (hdv : 1 ≤ p.dv ∧ p.dv ≤ 11)

include hdu hdv

/-- Algorithm 15 returns exactly the bits of the message that survive the noise. -/
theorem kpkeDecrypt_bit (d : Vector UInt8 32) (m : List UInt8) (r : Vector UInt8 32) (j : Fin 256) :
    bit (kpkeDecrypt p (kpkeKeyGen p h d).2 (kpkeEncrypt p h (kpkeKeyGen p h d).1 m r)) j = bit m j ↔
      Tolerated (bit m j) (decryptionNoise p h d m r j) := by
  have hdecode : byteDecode 1 m j = (bit m j).toNat := by
    rw [byteDecode, if_pos (by decide), Nat.mod_eq_of_lt (field_lt 1 m j), field_one]
  have hlt : ∀ w : Rq, ∀ j : Fin 256, compress 1 (w j) < 2 ^ 1 := fun w j => compress_lt 1 (w j)
  have hbits : ∀ a b : Bool, a = b ↔ a.toNat = b.toNat := by decide
  rw [kpkeDecrypt_kpkeEncrypt_eq h hdu hdv, hbits, ← field_one, field_byteEncode _ (hlt _) j, Pi.add_apply, hdecode]
  exact compress_one_iff (bit m j) _

end Fips203

namespace MlkemSelkie

open Fips203

variable {P : ParameterSet} {Γ : Crates}

/-- Every bit of a message survives the noise of its decryption. -/
def Survives (P : ParameterSet) (Γ : Crates) (d m r : Vector UInt8 32) : Prop :=
  ∀ j : Fin 256, Tolerated (bit m.toList j) (decryptionNoise P.fips Γ.hashes d m.toList r j)

/-- Valid keys of a key pair return exactly the bits that survive. -/
theorem decrypt_bit (hΓ : Γ.Lawful) {ek : EncryptionKey P} {dk : DecryptionKey P} (hek : ek.Valid Γ) (hdk : dk.Valid)
    {d : Vector UInt8 32} (hkeys : (ek.toBytes.toList, dk.toBytes.toList) = kpkeKeyGen P.fips Γ.hashes d)
    (m r : Vector UInt8 32) (j : Fin 256) : bit (dk.decrypt (ek.encrypt Γ m r)).toList j = bit m.toList j ↔
      Tolerated (bit m.toList j) (decryptionNoise P.fips Γ.hashes d m.toList r j) := by
  obtain ⟨hekBytes, hdkBytes⟩ := Prod.mk.inj hkeys
  rw [decrypt_toList hdk, encrypt_toList hΓ hek, hekBytes, hdkBytes]
  exact kpkeDecrypt_bit Γ.hashes (widths P).1 (widths P).2 d m.toList r j

/-- Decryption of what a generated key encrypts returns each bit of the message if and only if the noise of its
coefficient is tolerated. Decapsulation of an encapsulated message returns the secret when all bits survive; otherwise
it returns the rejection secret, or the secret of another message that has the same ciphertext. -/
theorem decryption_exact (hΓ : Γ.Lawful) {d z : Vector UInt8 32} {dk : DecapsulationKey P}
    (hgen : DecapsulationKey.generateDerand Γ (d ++ z) = some dk) (m : Vector UInt8 32) {K : SharedSecret} {c : Ciphertext P}
    (hencaps : dk.encapsulationKey.encapsulateDerand Γ m = (K, c)) :
    (∀ (r : Vector UInt8 32) (j : Fin 256),
      bit (dk.dkPke.decrypt (dk.ek.ekPke.encrypt Γ m r)).toList j = bit m.toList j ↔
        Tolerated (bit m.toList j) (decryptionNoise P.fips Γ.hashes d m.toList r j)) ∧
    (Survives P Γ d m (Γ.G (m.toList ++ (Γ.H dk.encapsulationKey.toBytes.toList).toList)).2 → dk.decapsulate Γ c = K) ∧
    (¬Survives P Γ d m (Γ.G (m.toList ++ (Γ.H dk.encapsulationKey.toBytes.toList).toList)).2 →
      dk.decapsulate Γ c = Γ.J dk.z c.bytes.toList ∨
        ∃ m', m' ≠ m ∧ dk.encapsulationKey.encapsulateDerand Γ m' = (dk.decapsulate Γ c, c)) := by
  obtain ⟨hdk, hkeys⟩ := generateDerand_spec hΓ hgen
  have hbit := decrypt_bit hΓ hdk.ek.ekPke hdk.dkPke (keyGen_parts hkeys).1 m
  have hhash : dk.hEk = Γ.H dk.encapsulationKey.toBytes.toList := hdk.hEk_eq.trans hdk.ek.hEk_eq
  rw [← hhash]
  have hsecond : dk.ek.ekPke.encrypt Γ m (Γ.G (m.toList ++ dk.hEk.toList)).2 = c := by
    rw [hdk.hEk_eq]
    exact congrArg Prod.snd hencaps
  have hfirst : (Γ.G (m.toList ++ dk.hEk.toList)).1 = K := by
    rw [hdk.hEk_eq]
    exact congrArg Prod.fst hencaps
  have hdecrypted : dk.dkPke.decrypt c = m ↔ Survives P Γ d m (Γ.G (m.toList ++ dk.hEk.toList)).2 := by
    rw [← hsecond]
    refine ⟨fun h j => (hbit _ j).mp (by rw [h]), fun h => ?_⟩
    exact Vector.toList_inj.mp (message_ext Vector.length_toList Vector.length_toList fun j => (hbit _ j).mpr (h j))
  refine ⟨hbit, fun hsurvives => ?_, fun hfails => ?_⟩
  · rw [decapsulate_eq hΓ]
    simp only [hdecrypted.mpr hsurvives, hsecond, hfirst, if_true]
  · have hother : dk.dkPke.decrypt c ≠ m := fun h => hfails (hdecrypted.mp h)
    have hrun := decapsulate_eq hΓ dk c
    by_cases hsame : c = dk.ek.ekPke.encrypt Γ (dk.dkPke.decrypt c) (Γ.G ((dk.dkPke.decrypt c).toList ++ dk.hEk.toList)).2
    · refine Or.inr ⟨dk.dkPke.decrypt c, hother, ?_⟩
      refine Prod.ext ?_ ?_
      · refine Eq.trans ?_ (hrun.trans (if_pos hsame)).symm
        rw [hdk.hEk_eq]
        rfl
      · refine Eq.trans ?_ hsame.symm
        rw [hdk.hEk_eq]
        rfl
    · exact Or.inl (hrun.trans (if_neg hsame))

/-- On the keys of the seed of zeros: the bits of every message, the secret of the message of zeros, whose bits survive,
and what is left for the messages whose bits do not. -/
theorem decryption_exact_zero :
    ∃ dk : DecapsulationKey .mlkem512, DecapsulationKey.generateDerand Crates.fips202 (zeroSeed ++ zeroSeed) = some dk ∧
      (∀ (m r : Vector UInt8 32) (j : Fin 256),
        bit (dk.dkPke.decrypt (dk.ek.ekPke.encrypt Crates.fips202 m r)).toList j = bit m.toList j ↔
          Tolerated (bit m.toList j) (decryptionNoise ParameterSet.mlkem512.fips Crates.fips202.hashes zeroSeed m.toList
            r j)) ∧
      dk.decapsulate Crates.fips202 (dk.encapsulationKey.encapsulateDerand Crates.fips202 zeroSeed).2 =
        (dk.encapsulationKey.encapsulateDerand Crates.fips202 zeroSeed).1 ∧
      ∀ (m : Vector UInt8 32) (K : SharedSecret) (c : Ciphertext .mlkem512),
        dk.encapsulationKey.encapsulateDerand Crates.fips202 m = (K, c) →
        ¬Survives .mlkem512 Crates.fips202 zeroSeed m
          (Crates.fips202.G (m.toList ++ (Crates.fips202.H dk.encapsulationKey.toBytes.toList).toList)).2 →
        dk.decapsulate Crates.fips202 c = Crates.fips202.J dk.z c.bytes.toList ∨
          ∃ m', m' ≠ m ∧ dk.encapsulationKey.encapsulateDerand Crates.fips202 m' = (dk.decapsulate Crates.fips202 c, c) := by
  obtain ⟨dk, hrun⟩ := generateDerand_ends (P := .mlkem512) Crates.fips202_lawful zeroSeed zeroSeed_suffices
  have hsurvives : Survives .mlkem512 Crates.fips202 zeroSeed zeroSeed
      (Crates.fips202.G (zeroSeed.toList ++ (Crates.fips202.H dk.encapsulationKey.toBytes.toList).toList)).2 := by
    rw [zeroSeed_key hrun, ← zeroCoins_eq]
    exact fun j => tolerated_of_fits zeroSeed_fits j
  refine ⟨dk, hrun, fun m => (decryption_exact Crates.fips202_lawful hrun m rfl).1, ?_, fun m K c hencaps => ?_⟩
  · exact (decryption_exact Crates.fips202_lawful hrun zeroSeed rfl).2.1 hsurvives
  · exact (decryption_exact Crates.fips202_lawful hrun m hencaps).2.2

end MlkemSelkie
