import MlkemSelkie.Theorems.Parsing
import MlkemSelkie.Theorems.Serialization

/-!
# The encodings of a decapsulation key

The decapsulation key check reads both vectors modulo q, so a key has one encoding with all fields below q and an alias
for every field that can be raised by q. What a parsed key serializes to is the canonical one, and its aliases are
accepted as the same key.
-/

namespace MlkemSelkie

open Fips203 Loops

variable {P : ParameterSet} {Γ : Crates}

/-- The byte string of a decapsulation key with every 12-bit field of its two vectors reduced modulo q. -/
def reducedKey (P : ParameterSet) (bytes : List UInt8) : List UInt8 :=
  encodeVector (fun i : Fin P.K => decodeVector bytes i) ++ canonicalKey P (embeddedKey P bytes) ++
    bytes.drop (768 * P.K + 32)

theorem decodeVector_take {bytes : List UInt8} (i : Fin P.K) :
    decodeVector (bytes.take (384 * P.K)) i = decodeVector bytes i := by
  have hi := Nat.mul_le_mul_left 384 (Nat.succ_le_of_lt i.isLt)
  rw [Nat.mul_succ] at hi
  funext j
  rw [decodeVector, decodeVector, take_drop_take _ hi]

/-- A decapsulation key in its three parts: the decryption key, the encryption key, and the hash with the seed. -/
theorem key_parts (bytes : List UInt8) :
    bytes.take (384 * P.K) ++ embeddedKey P bytes ++ bytes.drop (768 * P.K + 32) = bytes := by
  have hrest : bytes.drop (768 * P.K + 32) = (bytes.drop (384 * P.K)).drop (384 * P.K + 32) := by
    rw [List.drop_drop]
    exact congrArg bytes.drop (by omega)
  rw [hrest, embeddedKey, List.append_assoc, List.take_append_drop, List.take_append_drop]

/-- The hash and the seed behind the two keys. -/
theorem tail_parts {bytes : List UInt8} (hlen : bytes.length = P.decapsKeySize) :
    (arrayOf 32 (storedHash P bytes)).toList ++ (arrayOf 32 (bytes.drop (768 * P.K + 64))).toList =
      bytes.drop (768 * P.K + 32) := by
  rw [ParameterSet.decapsKeySize] at hlen
  have hhash : (arrayOf 32 (storedHash P bytes)).toList = storedHash P bytes := by
    refine toList_arrayOf ?_
    rw [storedHash, List.length_take, List.length_drop]
    omega
  have hseed : (arrayOf 32 (bytes.drop (768 * P.K + 64))).toList = (bytes.drop (768 * P.K + 32)).drop 32 := by
    rw [List.drop_drop]
    refine toList_arrayOf ?_
    rw [List.length_drop]
    omega
  rw [hhash, hseed, storedHash, List.take_append_drop]

/-- An accepted key serializes to its bytes with the fields reduced. -/
theorem DecapsulationKey.fromBytes_toBytes_eq {bytes : List UInt8} {dk : DecapsulationKey P}
    (hparse : DecapsulationKey.fromBytes Γ bytes = some (.ok dk)) :
    bytes.length = P.decapsKeySize ∧ dk.toBytes.toList = reducedKey P bytes := by
  by_cases hlen : bytes.length = P.decapsKeySize
  · refine ⟨hlen, ?_⟩
    rw [DecapsulationKey.fromBytes_eq hlen] at hparse
    obtain ⟨ekPke, hek, hcheck⟩ := Option.map_eq_some_iff.mp hparse
    by_cases hhash : Γ.H ekPke.toBytes.toList = arrayOf 32 (storedHash P bytes)
    · rw [if_neg (not_not.mpr hhash)] at hcheck
      obtain rfl := Except.ok.inj hcheck
      have hdkLen : (bytes.take (384 * P.K)).length = 384 * P.K := by
        rw [List.length_take, hlen, ParameterSet.decapsKeySize]
        omega
      rw [DecapsulationKey.toBytes_toList, (DecryptionKey.fromBytes_spec hdkLen).2, reducedKey, funext decodeVector_take,
        List.append_assoc, tail_parts hlen]
      exact congrArg (_ ++ · ++ _) (EncryptionKey.fromBytes_spec (length_embeddedKey hlen) hek).2
    · rw [if_pos hhash] at hcheck
      cases hcheck
  · rw [DecapsulationKey.fromBytes, if_pos hlen] at hparse
    cases hparse

/-- Reduction changes nothing exactly when the fields of both vectors are below q. -/
theorem reducedKey_eq_iff {bytes : List UInt8} (hlen : bytes.length = P.decapsKeySize) :
    reducedKey P bytes = bytes ↔ FieldsBelow P bytes ∧ FieldsBelow P (embeddedKey P bytes) := by
  have hdkLen : (bytes.take (384 * P.K)).length = 384 * P.K := by
    rw [List.length_take, hlen, ParameterSet.decapsKeySize]
    omega
  have hvector := encodeVector_decodeVector_iff hdkLen
  rw [funext decodeVector_take] at hvector
  have hfields : (∀ n < 256 * P.K, field 12 (bytes.take (384 * P.K)) n < 3329) ↔ FieldsBelow P bytes :=
    forall₂_congr fun n hn => by rw [field_take hn]
  have hsame : (encodeVector fun i : Fin P.K => decodeVector bytes i).length = (bytes.take (384 * P.K)).length := by
    rw [length_encodeVector, hdkLen]
  have hparts : reducedKey P bytes = bytes.take (384 * P.K) ++ embeddedKey P bytes ++ bytes.drop (768 * P.K + 32) ↔
      encodeVector (fun i : Fin P.K => decodeVector bytes i) = bytes.take (384 * P.K) ∧
        canonicalKey P (embeddedKey P bytes) = embeddedKey P bytes := by
    rw [reducedKey, List.append_left_inj]
    exact ⟨fun h => List.append_inj h hsame, fun h => by rw [h.1, h.2]⟩
  rw [key_parts] at hparts
  rw [hparts, hvector, hfields, canonicalKey_eq_iff (length_embeddedKey hlen)]

theorem length_canonicalKey {bytes : List UInt8} (hlen : bytes.length = P.decapsKeySize) :
    (canonicalKey P (embeddedKey P bytes)).length = 384 * P.K + 32 := by
  rw [canonicalKey, List.length_append, length_encodeVector, List.length_drop, length_embeddedKey hlen]
  omega

/-- Byte strings that reduce alike embed keys that reduce alike, and end alike. -/
theorem reducedKey_inj {a b : List UInt8} (ha : a.length = P.decapsKeySize) (hb : b.length = P.decapsKeySize)
    (h : reducedKey P a = reducedKey P b) :
    canonicalKey P (embeddedKey P a) = canonicalKey P (embeddedKey P b) ∧ a.drop (768 * P.K + 32) =
      b.drop (768 * P.K + 32) := by
  rw [reducedKey, reducedKey] at h
  obtain ⟨hkeys, htail⟩ := List.append_inj h (by
    rw [List.length_append, List.length_append, length_encodeVector, length_encodeVector, length_canonicalKey ha,
      length_canonicalKey hb])
  exact ⟨(List.append_inj hkeys (by rw [length_encodeVector, length_encodeVector])).2, htail⟩

/-- Reduction keeps the seed of the matrix. -/
theorem drop_canonicalKey (bytes : List UInt8) : (canonicalKey P bytes).drop (384 * P.K) = bytes.drop (384 * P.K) := by
  rw [canonicalKey, ← length_encodeVector (fun i : Fin P.K => decodeVector bytes i), List.drop_left, length_encodeVector]

/-- A byte string that reduces as an accepted one does is accepted too, as a key with the same serialization. -/
theorem DecapsulationKey.fromBytes_alias {a b : List UInt8} {dk : DecapsulationKey P}
    (hparse : DecapsulationKey.fromBytes Γ a = some (.ok dk)) (hlen : b.length = a.length)
      (h : reducedKey P b = reducedKey P a) :
    ∃ dk' : DecapsulationKey P, DecapsulationKey.fromBytes Γ b = some (.ok dk') ∧ dk'.toBytes = dk.toBytes := by
  obtain ⟨ha, hbytes⟩ := DecapsulationKey.fromBytes_toBytes_eq hparse
  have hb : b.length = P.decapsKeySize := hlen.trans ha
  obtain ⟨hkey, htail⟩ := reducedKey_inj hb ha h
  have hstored : storedHash P b = storedHash P a := congrArg (List.take 32) htail
  rw [DecapsulationKey.fromBytes_eq ha] at hparse
  obtain ⟨ekPke, hek, hcheck⟩ := Option.map_eq_some_iff.mp hparse
  have hhash : Γ.H ekPke.toBytes.toList = arrayOf 32 (storedHash P a) := by
    by_contra hne
    rw [if_pos hne] at hcheck
    cases hcheck
  have hekBytes := (EncryptionKey.fromBytes_spec (length_embeddedKey ha) hek).2
  -- the seeds are the same, so the matrix of the other key expands too
  have hseed : (embeddedKey P b).drop (384 * P.K) = (embeddedKey P a).drop (384 * P.K) := by
    rw [← drop_canonicalKey, hkey, drop_canonicalKey]
  rw [EncryptionKey.fromBytes_eq] at hek
  obtain ⟨m, hexpand, _⟩ := Option.map_eq_some_iff.mp hek
  obtain ⟨ekPke', hek'⟩ : ∃ ekPke' : EncryptionKey P, EncryptionKey.fromBytes Γ (embeddedKey P b) = some ekPke' :=
    ⟨_, by rw [EncryptionKey.fromBytes_eq, hseed, hexpand]; rfl⟩
  have hekBytes' := (EncryptionKey.fromBytes_spec (length_embeddedKey hb) hek').2
  have hhash' : Γ.H ekPke'.toBytes.toList = arrayOf 32 (storedHash P b) := by
    rw [hekBytes', hkey, ← hekBytes, hhash, hstored]
  have hparse' := DecapsulationKey.fromBytes_eq (Γ := Γ) hb
  rw [hek', Option.map_some, if_neg (not_not.mpr hhash')] at hparse'
  refine ⟨_, hparse', Vector.toList_inj.mp ?_⟩
  rw [(DecapsulationKey.fromBytes_toBytes_eq hparse').2, h, hbytes]

/-- What a parsed decapsulation key serializes to is its encoding with all fields below q: the bytes it was parsed from
exactly when their fields are below q. Every byte string that differs from it by multiples of q in the fields is
accepted as the same key. -/
theorem DecapsulationKey.encodings (hΓ : Γ.Lawful) {bytes : List UInt8} {dk : DecapsulationKey P}
    (hparse : DecapsulationKey.fromBytes Γ bytes = some (.ok dk)) :
    dk.toBytes.toList = reducedKey P bytes ∧
    (dk.toBytes.toList = bytes ↔ FieldsBelow P bytes ∧ FieldsBelow P (embeddedKey P bytes)) ∧
    ∀ bytes' : List UInt8, bytes'.length = bytes.length → reducedKey P bytes' = reducedKey P bytes →
      ∃ dk' : DecapsulationKey P, DecapsulationKey.fromBytes Γ bytes' = some (.ok dk') ∧ dk'.toBytes = dk.toBytes ∧
        (∀ c, dk'.decapsulate Γ c = dk.decapsulate Γ c) ∧
        ∀ m, dk'.encapsulationKey.encapsulateDerand Γ m = dk.encapsulationKey.encapsulateDerand Γ m := by
  obtain ⟨hlen, hbytes⟩ := DecapsulationKey.fromBytes_toBytes_eq hparse
  refine ⟨hbytes, by rw [hbytes]; exact reducedKey_eq_iff hlen, fun bytes' hlen' h => ?_⟩
  obtain ⟨dk', hparse', hsame⟩ := DecapsulationKey.fromBytes_alias hparse hlen' h
  have hvalid := DecapsulationKey.fromBytes_spec hparse
  have hvalid' := DecapsulationKey.fromBytes_spec hparse'
  have hlist : dk'.toBytes.toList = dk.toBytes.toList := congrArg Vector.toList hsame
  refine ⟨dk', hparse', hsame, DecapsulationKey.decapsulate_congr hΓ hvalid' hvalid hlist, ?_⟩
  refine EncapsulationKey.encapsulateDerand_congr hΓ hvalid'.ek hvalid.ek ?_
  exact dk'.slices.2.1.symm.trans
    ((congrArg (fun l => (l.drop (384 * P.K)).take (384 * P.K + 32)) hlist).trans dk.slices.2.1)

/-- A decapsulation key whose embedded key has q in its first field, with the hash of the reduced key. -/
def aliasKey : List UInt8 :=
  List.replicate 768 0 ++ (oversizedVector ++ exampleRho.toList) ++
    (Crates.fips202.H (List.replicate 768 0 ++ exampleRho.toList)).toList ++ List.replicate 32 0

theorem aliasKey_parts : aliasKey.length = 1632 ∧ embeddedKey .mlkem512 aliasKey = oversizedVector ++ exampleRho.toList ∧
    storedHash .mlkem512 aliasKey = (Crates.fips202.H (List.replicate 768 0 ++ exampleRho.toList)).toList :=
  storedKey_parts length_oversizedVector_rho _

/-- The parser accepts it. -/
theorem fromBytes_aliasKey : ∃ k : DecapsulationKey .mlkem512,
    DecapsulationKey.fromBytes Crates.fips202 aliasKey = some (.ok k) := by
  obtain ⟨hlen, hkey, hstored⟩ := aliasKey_parts
  have hsuffices := oversizedVector_suffices
  rw [← hkey] at hsuffices
  rcases decapsulationKey_fromBytes Crates.fips202_lawful hlen hsuffices with ⟨_, hrun⟩ | ⟨hne, _⟩
  · exact hrun
  · rw [hkey, canonicalKey_oversized] at hne
    exact absurd hstored hne

/-- Two byte strings of one key: the alias parses to a key that serializes to another string, its reduction, and that string
parses to a key with the same behaviour. -/
theorem DecapsulationKey.encodings_alias :
    ∃ k k' : DecapsulationKey .mlkem512, DecapsulationKey.fromBytes Crates.fips202 aliasKey = some (.ok k) ∧
      k.toBytes.toList = reducedKey .mlkem512 aliasKey ∧ k.toBytes.toList ≠ aliasKey ∧
      DecapsulationKey.fromBytes Crates.fips202 (reducedKey .mlkem512 aliasKey) = some (.ok k') ∧ k'.toBytes = k.toBytes ∧
      (∀ c, k'.decapsulate Crates.fips202 c = k.decapsulate Crates.fips202 c) ∧
      ∀ m, k'.encapsulationKey.encapsulateDerand Crates.fips202 m =
        k.encapsulationKey.encapsulateDerand Crates.fips202 m := by
  obtain ⟨k, hparse⟩ := fromBytes_aliasKey
  obtain ⟨hbytes, hsame, halias⟩ := DecapsulationKey.encodings Crates.fips202_lawful hparse
  -- the reduction is reduced: it is what its key serializes to
  obtain ⟨k2, hparse2, _, hbytes2⟩ := DecapsulationKey.fromBytes_toBytes (DecapsulationKey.fromBytes_spec hparse)
  have hreduced := (DecapsulationKey.fromBytes_toBytes_eq hparse2).2
  rw [hbytes2, hbytes] at hreduced
  have hlen : (reducedKey .mlkem512 aliasKey).length = aliasKey.length := by
    rw [← hbytes, aliasKey_parts.1]
    exact Vector.length_toList
  obtain ⟨k', hparse', hcongr⟩ := halias _ hlen hreduced.symm
  have hother : k.toBytes.toList ≠ aliasKey := fun h => oversized_not_below (aliasKey_parts.2.1 ▸ (hsame.mp h).2)
  exact ⟨k, k', hparse, hbytes, hother, hparse', hcongr⟩

end MlkemSelkie
