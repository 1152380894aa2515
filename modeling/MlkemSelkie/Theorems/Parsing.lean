import MlkemSelkie.Lemmas.Fips202
import MlkemSelkie.Lemmas.Kem

/-!
# The key checks

Which byte strings the two parsers accept, against the checks of sections 7.2 and 7.3 of FIPS 203. The encapsulation key
check is exact. The decapsulation key check hashes the embedded key with its fields reduced modulo q, not its bytes.
-/

namespace MlkemSelkie

open Fips203 Loops

variable {P : ParameterSet} {Γ : Crates}

/-- Every 12-bit field of the vector of a serialized key is below q. -/
def FieldsBelow (P : ParameterSet) (bytes : List UInt8) : Prop := ∀ n < 256 * P.K, field 12 bytes n < 3329

theorem field_take {bytes : List UInt8} {n : Nat} (hn : n < 256 * P.K) :
    field 12 (bytes.take (384 * P.K)) n = field 12 bytes n := by
  rw [field_eq, field_eq, Digits.ofBytes_take, Digits.digit_mod _ (by omega)]

/-- Reducing the fields changes nothing exactly when they are below q. -/
theorem canonicalKey_eq_iff {bytes : List UInt8} (hlen : bytes.length = 384 * P.K + 32) :
    canonicalKey P bytes = bytes ↔ FieldsBelow P bytes := by
  have htake : (bytes.take (384 * P.K)).length = 384 * P.K := by rw [List.length_take]; omega
  have hdecode : ∀ i : Fin P.K, decodeVector (bytes.take (384 * P.K)) i = decodeVector bytes i := fun i => by
    have hi := Nat.mul_le_mul_left 384 (Nat.succ_le_of_lt i.isLt)
    rw [Nat.mul_succ] at hi
    funext j
    rw [decodeVector, decodeVector, take_drop_take _ hi]
  have hiff := encodeVector_decodeVector_iff htake
  rw [funext hdecode] at hiff
  have hfields : (∀ n < 256 * P.K, field 12 (bytes.take (384 * P.K)) n < 3329) ↔ FieldsBelow P bytes :=
    forall₂_congr fun n hn => by rw [field_take hn]
  have hencode : canonicalKey P bytes = bytes.take (384 * P.K) ++ bytes.drop (384 * P.K) ↔
      encodeVector (fun i : Fin P.K => decodeVector bytes i) = bytes.take (384 * P.K) := List.append_left_inj _
  rw [List.take_append_drop] at hencode
  exact hencode.trans (hiff.trans hfields)

/-! ## A key with a field that is q -/

/-- The vector part of an encapsulation key whose first field is 3329, all the others zero. -/
def oversizedVector : List UInt8 := [0x01, 0x0D] ++ List.replicate 766 0

theorem length_oversizedVector : oversizedVector.length = 768 := by
  rw [oversizedVector, List.length_append, List.length_replicate]
  rfl

theorem length_oversizedVector_rho : (oversizedVector ++ exampleRho.toList).length = 800 := by
  rw [List.length_append, length_oversizedVector, Vector.length_toList]

/-- The reduced key: every field is zero. -/
theorem canonicalKey_oversized : canonicalKey .mlkem512 (oversizedVector ++ exampleRho.toList) =
    List.replicate 768 0 ++ exampleRho.toList := by
  have hfields : ∀ n : Fin 512, LittleEndian.ofBytes oversizedVector / 2 ^ (12 * n.val) % 2 ^ 12 % 3329 = 0 := by
    decide +kernel
  have hzero : ∀ i : Fin 2, decodeVector (oversizedVector ++ exampleRho.toList) i = 0 := fun i => funext fun j => by
    have hn : 256 * i.val + j.val < 256 * ParameterSet.mlkem512.K := by
      have hK : ParameterSet.mlkem512.K = 2 := rfl
      omega
    refine (ZMod.val_eq_zero _).mp ?_
    rw [decodeVector_val, ← field_take hn, show 384 * ParameterSet.mlkem512.K = 768 from rfl, ← length_oversizedVector,
      List.take_left, field_eq]
    exact hfields ⟨256 * i.val + j.val, hn⟩
  have hencode : encodeVector (fun _ : Fin 2 => (0 : Tq)) = List.replicate 768 0 := by decide +kernel
  rw [canonicalKey, show 384 * ParameterSet.mlkem512.K = 768 from rfl, ← length_oversizedVector, List.drop_left,
    length_oversizedVector]
  exact congrArg (· ++ _) ((congrArg encodeVector (funext hzero)).trans hencode)

/-- Its first field is not below q. -/
theorem oversized_not_below : ¬FieldsBelow .mlkem512 (oversizedVector ++ exampleRho.toList) := by
  rw [← canonicalKey_eq_iff length_oversizedVector_rho, canonicalKey_oversized, List.append_left_inj]
  decide

/-- The streams of the embedded matrix seed suffice. -/
theorem oversizedVector_suffices : Crates.fips202.Suffices .mlkem512
    (Loops.arrayOf 32 ((oversizedVector ++ exampleRho.toList).drop (384 * ParameterSet.mlkem512.K))) := by
  rw [show 384 * ParameterSet.mlkem512.K = 768 from rfl, List.drop_left' length_oversizedVector, arrayOf_toList]
  exact zeroSeed_suffices

/-! ## Encapsulation keys -/

/-- The encapsulation key check accepts exactly the byte strings of the right length whose fields are below q, without
loss, and names the check that failed. -/
theorem encapsulationKey_fromBytes (hΓ : Γ.Lawful) (bytes : List UInt8) :
    ((bytes.length = 384 * P.K + 32 → Γ.Suffices P (arrayOf 32 (bytes.drop (384 * P.K)))) →
      ∃ r : Except Error (EncapsulationKey P), EncapsulationKey.fromBytes Γ bytes = some r) ∧
    ∀ r : Except Error (EncapsulationKey P), EncapsulationKey.fromBytes Γ bytes = some r →
      ((∃ ek, r = .ok ek) ↔ bytes.length = 384 * P.K + 32 ∧ FieldsBelow P bytes) ∧
      (∀ ek, r = .ok ek → ek.toBytes.toList = bytes) ∧
      (r = .error .invalidEncapsulationKeyLength ↔ bytes.length ≠ 384 * P.K + 32) ∧
      (r = .error .encapsulationKeyModulusCheckFailed ↔ bytes.length = 384 * P.K + 32 ∧ ¬FieldsBelow P bytes) := by
  by_cases hlen : bytes.length = 384 * P.K + 32
  · rw [EncapsulationKey.fromBytes_eq hlen]
    refine ⟨fun hrho => ?_, fun r hr => ?_⟩
    · obtain ⟨ekPke, hparse⟩ := EncryptionKey.fromBytes_ends hΓ (hrho hlen)
      exact ⟨_, by rw [hparse]; rfl⟩
    · obtain ⟨ekPke, hparse, rfl⟩ := Option.map_eq_some_iff.mp hr
      obtain ⟨_, hbytes⟩ := EncryptionKey.fromBytes_spec hlen hparse
      have hiff := canonicalKey_eq_iff hlen
      rw [← hbytes] at hiff
      by_cases hbelow : FieldsBelow P bytes
      · have heq := hiff.mpr hbelow
        rw [if_neg (not_not.mpr heq)]
        refine ⟨⟨fun _ => ⟨hlen, hbelow⟩, fun _ => ⟨_, rfl⟩⟩, fun ek hek => ?_, by simp [hlen], by simp [hbelow]⟩
        obtain rfl := Except.ok.inj hek
        exact heq
      · rw [if_pos (mt hiff.mp hbelow)]
        simp [hlen, hbelow]
  · have hrun : (EncapsulationKey.fromBytes Γ bytes : Option (Except Error (EncapsulationKey P))) =
        some (.error .invalidEncapsulationKeyLength) := if_pos hlen
    rw [hrun]
    refine ⟨fun _ => ⟨_, rfl⟩, fun r hr => ?_⟩
    obtain rfl := Option.some.inj hr
    simp [hlen]

/-- A generated key, which is parsed without loss; a key with a field that is q, and the empty string, each refused by
its check. -/
theorem encapsulationKey_fromBytes_zero :
    (∃ (dk : DecapsulationKey .mlkem512) (ek : EncapsulationKey .mlkem512),
      DecapsulationKey.generateDerand Crates.fips202 (zeroSeed ++ zeroSeed) = some dk ∧
      EncapsulationKey.fromBytes Crates.fips202 dk.encapsulationKey.toBytes.toList = some (.ok ek) ∧
      ek.toBytes.toList = dk.encapsulationKey.toBytes.toList) ∧
    (EncapsulationKey.fromBytes Crates.fips202 (oversizedVector ++ exampleRho.toList) :
      Option (Except Error (EncapsulationKey .mlkem512))) = some (.error .encapsulationKeyModulusCheckFailed) ∧
    (EncapsulationKey.fromBytes Crates.fips202 [] : Option (Except Error (EncapsulationKey .mlkem512))) =
      some (.error .invalidEncapsulationKeyLength) := by
  refine ⟨?_, ?_, ?_⟩
  · obtain ⟨dk, hgen⟩ := generateDerand_ends Crates.fips202_lawful zeroSeed zeroSeed_suffices
    obtain ⟨ek, hparse, _, _⟩ :=
      EncapsulationKey.fromBytes_toBytes (generateDerand_spec Crates.fips202_lawful hgen).1.ek
    exact ⟨dk, ek, hgen, hparse, ((encapsulationKey_fromBytes Crates.fips202_lawful _).2 _ hparse).2.1 ek rfl⟩
  · obtain ⟨hends, hchecks⟩ := encapsulationKey_fromBytes (P := .mlkem512) Crates.fips202_lawful
      (oversizedVector ++ exampleRho.toList)
    obtain ⟨r, hr⟩ := hends fun _ => oversizedVector_suffices
    rw [hr, (hchecks r hr).2.2.2.mpr ⟨length_oversizedVector_rho, oversized_not_below⟩]
  · obtain ⟨hends, hchecks⟩ := encapsulationKey_fromBytes (P := .mlkem512) Crates.fips202_lawful []
    obtain ⟨r, hr⟩ := hends fun hlen => absurd hlen (by decide)
    rw [hr, (hchecks r hr).2.2.1.mpr (by decide)]

/-! ## Decapsulation keys -/

/-- The parser accepts exactly the byte strings of the right length that store the hash of the encapsulation key embedded
in them, and names the check that failed. -/
def HashCheckExact (Γ : Crates) (P : ParameterSet) (bytes : List UInt8) : Prop :=
  ∃ r : Except Error (DecapsulationKey P), DecapsulationKey.fromBytes Γ bytes = some r ∧
    ((∃ dk, r = .ok dk) ↔ bytes.length = 768 * P.K + 96 ∧ storedHash P bytes = (Γ.H (embeddedKey P bytes)).toList) ∧
    (r = .error .invalidDecapsulationKeyLength ↔ bytes.length ≠ 768 * P.K + 96) ∧
    (r = .error .decapsulationKeyHashMismatch ↔
      bytes.length = 768 * P.K + 96 ∧ storedHash P bytes ≠ (Γ.H (embeddedKey P bytes)).toList)

/-- What the parser returns on a byte string of the right length: it compares the stored hash with that of the reduced
key. -/
theorem decapsulationKey_fromBytes (hΓ : Γ.Lawful) {bytes : List UInt8} (hlen : bytes.length = 768 * P.K + 96)
    (hrho : Γ.Suffices P (arrayOf 32 ((embeddedKey P bytes).drop (384 * P.K)))) :
    (storedHash P bytes = (Γ.H (canonicalKey P (embeddedKey P bytes))).toList ∧
      ∃ dk : DecapsulationKey P, DecapsulationKey.fromBytes Γ bytes = some (.ok dk)) ∨
    (storedHash P bytes ≠ (Γ.H (canonicalKey P (embeddedKey P bytes))).toList ∧
      (DecapsulationKey.fromBytes Γ bytes : Option (Except Error (DecapsulationKey P))) =
        some (.error .decapsulationKeyHashMismatch)) := by
  obtain ⟨ekPke, hparse⟩ := EncryptionKey.fromBytes_ends hΓ hrho
  have hbytes := (EncryptionKey.fromBytes_spec (length_embeddedKey hlen) hparse).2
  have hstored : (arrayOf 32 (storedHash P bytes)).toList = storedHash P bytes := by
    refine toList_arrayOf ?_
    rw [storedHash, List.length_take, List.length_drop]
    omega
  rw [DecapsulationKey.fromBytes_eq hlen, hparse, Option.map_some, ← hbytes]
  by_cases heq : Γ.H ekPke.toBytes.toList = arrayOf 32 (storedHash P bytes)
  · rw [if_neg (not_not.mpr heq)]
    exact .inl ⟨by rw [heq, hstored], _, rfl⟩
  · rw [if_pos heq]
    refine .inr ⟨fun h => heq (Vector.toList_inj.mp ?_), rfl⟩
    rw [hstored, h]

/-- On a byte string of the right length the check is exact when the two hashes give the same answer. -/
theorem hashCheckExact_of_length (hΓ : Γ.Lawful) {bytes : List UInt8} (hlen : bytes.length = 768 * P.K + 96)
    (hrho : Γ.Suffices P (arrayOf 32 ((embeddedKey P bytes).drop (384 * P.K)))) :
    HashCheckExact Γ P bytes ↔ (storedHash P bytes = (Γ.H (embeddedKey P bytes)).toList ↔
      storedHash P bytes = (Γ.H (canonicalKey P (embeddedKey P bytes))).toList) := by
  rcases decapsulationKey_fromBytes hΓ hlen hrho with ⟨hhash, dk, hrun⟩ | ⟨hhash, hrun⟩
  · rw [HashCheckExact, hrun]
    simp [hlen, hhash]
  · rw [HashCheckExact, hrun]
    simp [hlen, hhash]

/-- The hash check is the one of section 7.3 exactly when reducing the fields of the embedded key cannot change its
outcome: on a wrong length, on fields below q, on a stored hash that is neither that of the embedded key nor that of the
reduced one, and on equal hashes. -/
theorem hashCheckExact_iff (hΓ : Γ.Lawful) (bytes : List UInt8)
    (hrho : bytes.length = 768 * P.K + 96 → Γ.Suffices P (arrayOf 32 ((embeddedKey P bytes).drop (384 * P.K)))) :
    HashCheckExact Γ P bytes ↔
      bytes.length ≠ 768 * P.K + 96 ∨ FieldsBelow P (embeddedKey P bytes) ∨
      (storedHash P bytes ≠ (Γ.H (embeddedKey P bytes)).toList ∧
        storedHash P bytes ≠ (Γ.H (canonicalKey P (embeddedKey P bytes))).toList) ∨
      Γ.H (embeddedKey P bytes) = Γ.H (canonicalKey P (embeddedKey P bytes)) := by
  by_cases hlen : bytes.length = 768 * P.K + 96
  · have hcanonical := canonicalKey_eq_iff (length_embeddedKey hlen)
    rw [hashCheckExact_of_length hΓ hlen (hrho hlen)]
    refine ⟨fun h => ?_, fun h => ?_⟩
    · by_cases hraw : storedHash P bytes = (Γ.H (embeddedKey P bytes)).toList
      · exact .inr (.inr (.inr (Vector.toList_inj.mp (hraw.symm.trans (h.mp hraw)))))
      · exact .inr (.inr (.inl ⟨hraw, mt h.mpr hraw⟩))
    · rcases h with h | h | h | h
      · exact absurd hlen h
      · rw [hcanonical.mpr h]
      · exact ⟨fun hraw => absurd hraw h.1, fun hreduced => absurd hreduced h.2⟩
      · rw [h]
  · have hrun : (DecapsulationKey.fromBytes Γ bytes : Option (Except Error (DecapsulationKey P))) =
        some (.error .invalidDecapsulationKeyLength) := if_pos hlen
    rw [HashCheckExact, hrun]
    simp [hlen]

/-- A decapsulation key that stores the hash of its embedded key, whose first field is q. -/
def oversizedKey : List UInt8 :=
  List.replicate 768 0 ++ (oversizedVector ++ exampleRho.toList) ++
    (Crates.fips202.H (oversizedVector ++ exampleRho.toList)).toList ++ List.replicate 32 0

/-- Where a decapsulation key holds its encapsulation key and its hash. -/
theorem storedKey_parts {key : List UInt8} (hkey : key.length = 800) (hash : Vector UInt8 32) :
    (List.replicate 768 0 ++ key ++ hash.toList ++ List.replicate 32 0).length = 1632 ∧
    embeddedKey .mlkem512 (List.replicate 768 0 ++ key ++ hash.toList ++ List.replicate 32 0) = key ∧
    storedHash .mlkem512 (List.replicate 768 0 ++ key ++ hash.toList ++ List.replicate 32 0) = hash.toList := by
  rw [embeddedKey, storedHash, show 384 * ParameterSet.mlkem512.K = 768 from rfl,
    show 768 * ParameterSet.mlkem512.K + 32 = 1568 from rfl]
  have hhash : hash.toList.length = 32 := Vector.length_toList
  refine ⟨by simp only [List.length_append, List.length_replicate, hkey, hhash], ?_, ?_⟩
  · rw [List.append_assoc, List.append_assoc, List.drop_left' List.length_replicate, List.take_left' hkey]
  · rw [List.append_assoc, List.drop_left' (by rw [List.length_append, List.length_replicate, hkey]), List.take_left' hhash]

theorem oversizedKey_parts : oversizedKey.length = 1632 ∧
    embeddedKey .mlkem512 oversizedKey = oversizedVector ++ exampleRho.toList ∧
    storedHash .mlkem512 oversizedKey = (Crates.fips202.H (oversizedVector ++ exampleRho.toList)).toList :=
  storedKey_parts length_oversizedVector_rho _

/-- The hash of the embedded key is not that of the reduced one. -/
theorem oversized_hash_ne :
    Crates.fips202.H (oversizedVector ++ exampleRho.toList) ≠
      Crates.fips202.H (List.replicate 768 0 ++ exampleRho.toList) := by
  intro h
  have hbyte := congrArg (fun v : Vector UInt8 32 => v[0]) h
  simp only [Crates.H, Crates.fips202, sha3, Vector.getElem_ofFn] at hbyte
  revert hbyte
  decide +kernel

theorem oversizedKey_suffices :
    Crates.fips202.Suffices .mlkem512
      (Loops.arrayOf 32 ((embeddedKey .mlkem512 oversizedKey).drop (384 * ParameterSet.mlkem512.K))) := by
  rw [oversizedKey_parts.2.1]
  exact oversizedVector_suffices

/-- A key that stores the hash of the bytes it embeds, refused by the parser. -/
theorem hashCheckExact_oversized :
    ¬HashCheckExact Crates.fips202 .mlkem512 oversizedKey ∧ oversizedKey.length = 768 * ParameterSet.mlkem512.K + 96 ∧
      storedHash .mlkem512 oversizedKey = (Crates.fips202.H (embeddedKey .mlkem512 oversizedKey)).toList ∧
      (DecapsulationKey.fromBytes Crates.fips202 oversizedKey : Option (Except Error (DecapsulationKey .mlkem512))) =
        some (.error .decapsulationKeyHashMismatch) := by
  obtain ⟨hlen, hkey, hstored⟩ := oversizedKey_parts
  have hne : storedHash .mlkem512 oversizedKey ≠
      (Crates.fips202.H (canonicalKey .mlkem512 (embeddedKey .mlkem512 oversizedKey))).toList := by
    rw [hstored, hkey, canonicalKey_oversized]
    exact fun h => oversized_hash_ne (Vector.toList_inj.mp h)
  rw [← hkey] at hstored
  refine ⟨fun h => ?_, hlen, hstored, ?_⟩
  · exact hne (((hashCheckExact_of_length Crates.fips202_lawful hlen oversizedKey_suffices).mp h).mp hstored)
  · rcases decapsulationKey_fromBytes Crates.fips202_lawful hlen oversizedKey_suffices with ⟨h, _⟩ | ⟨_, hrun⟩
    · exact absurd h hne
    · exact hrun

/-- The condition on the key that is refused. -/
theorem hashCheckExact_iff_oversized : HashCheckExact Crates.fips202 .mlkem512 oversizedKey ↔
    oversizedKey.length ≠ 768 * ParameterSet.mlkem512.K + 96 ∨ FieldsBelow .mlkem512 (embeddedKey .mlkem512 oversizedKey) ∨
    (storedHash .mlkem512 oversizedKey ≠ (Crates.fips202.H (embeddedKey .mlkem512 oversizedKey)).toList ∧
      storedHash .mlkem512 oversizedKey ≠
        (Crates.fips202.H (canonicalKey .mlkem512 (embeddedKey .mlkem512 oversizedKey))).toList) ∨
    Crates.fips202.H (embeddedKey .mlkem512 oversizedKey) =
      Crates.fips202.H (canonicalKey .mlkem512 (embeddedKey .mlkem512 oversizedKey)) :=
  hashCheckExact_iff Crates.fips202_lawful oversizedKey fun _ => oversizedKey_suffices

end MlkemSelkie
