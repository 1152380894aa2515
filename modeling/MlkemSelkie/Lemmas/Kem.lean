import MlkemSelkie.Lemmas.Pke

/-!
# ML-KEM on valid keys

Key generation and parsing yield valid keys, and on valid keys encapsulation and decapsulation are functions of the
serialized keys: Algorithms 17 and 18.
-/

namespace MlkemSelkie

open Fips203 Loops

variable {P : ParameterSet} {Γ : Crates}

/-- An encapsulation key with a valid encryption key and its own hash. -/
structure EncapsulationKey.Valid (Γ : Crates) (ek : EncapsulationKey P) : Prop where
  ekPke : ek.ekPke.Valid Γ
  hEk_eq : ek.hEk = Γ.H ek.toBytes.toList

/-- A decapsulation key with valid keys and the hash of its encapsulation key. -/
structure DecapsulationKey.Valid (Γ : Crates) (dk : DecapsulationKey P) : Prop where
  dkPke : dk.dkPke.Valid
  ek : dk.ek.Valid Γ
  hEk_eq : dk.hEk = dk.ek.hEk

theorem EncapsulationKey.of_valid {ekPke : EncryptionKey P} (h : ekPke.Valid Γ) : (EncapsulationKey.of Γ ekPke).Valid Γ :=
  ⟨h, rfl⟩

/-! ## Parsing -/

/-- The byte string of an encryption key with every 12-bit field reduced modulo q. -/
def canonicalKey (P : ParameterSet) (bytes : List UInt8) : List UInt8 :=
  encodeVector (fun i : Fin P.K => decodeVector bytes i) ++ bytes.drop (384 * P.K)

/-- Parsing expands the matrix of the seed, and nothing else can keep it from ending. -/
theorem EncryptionKey.fromBytes_eq (bytes : List UInt8) :
    (EncryptionKey.fromBytes Γ bytes : Option (EncryptionKey P)) =
      (TqMatrix.expand Γ (arrayOf 32 (bytes.drop (384 * P.K)))).map fun m =>
        ⟨TqVector.byteDecode (bytes.take (384 * P.K)), arrayOf 32 (bytes.drop (384 * P.K)), m.transpose⟩ := by
  rw [EncryptionKey.fromBytes]
  show Option.bind _ _ = _
  cases (TqMatrix.expand Γ (arrayOf 32 (bytes.drop (384 * P.K))) : Option (TqMatrix P)) <;> rfl

/-- A parsed key is valid, and serializes to the reduced byte string. -/
theorem EncryptionKey.fromBytes_spec {bytes : List UInt8} (hlen : bytes.length = 384 * P.K + 32) {ek : EncryptionKey P}
    (h : EncryptionKey.fromBytes Γ bytes = some ek) : ek.Valid Γ ∧ ek.toBytes.toList = canonicalKey P bytes := by
  rw [EncryptionKey.fromBytes_eq] at h
  obtain ⟨m, hexpand, rfl⟩ := Option.map_eq_some_iff.mp h
  have ht := vector_byteDecode_represents (P := P) bytes (by omega)
  refine ⟨⟨fun i => (ht i).1.mono (by decide), m, hexpand, rfl⟩, ?_⟩
  rw [EncryptionKey.toBytes_toList, ht.toTq_eq]
  exact congrArg (_ ++ ·) (toList_arrayOf (by rw [List.length_drop]; omega))

/-- Parsing what a valid key serializes to ends, in a key that serializes to the same. -/
theorem EncryptionKey.fromBytes_toBytes {ek : EncryptionKey P} (hek : ek.Valid Γ) :
    ∃ ek' : EncryptionKey P, EncryptionKey.fromBytes Γ ek.toBytes.toList = some ek' ∧
      ek'.toBytes.toList = ek.toBytes.toList := by
  obtain ⟨_, m, hexpand, _⟩ := hek
  obtain ⟨hdecode, hrho⟩ := ek.decode_toBytes
  have hlen : ek.toBytes.toList.length = 384 * P.K + 32 := Vector.length_toList
  have hdrop : ek.toBytes.toList.drop (384 * P.K) = ek.rho.toList := by
    rw [← hrho, List.take_of_length_le (by rw [List.length_drop]; omega)]
  have hseed : arrayOf 32 (ek.toBytes.toList.drop (384 * P.K)) = ek.rho := by
    rw [hdrop, arrayOf_toList]
  have hparse : EncryptionKey.fromBytes Γ ek.toBytes.toList =
      some (⟨TqVector.byteDecode (ek.toBytes.toList.take (384 * P.K)), ek.rho, m.transpose⟩ : EncryptionKey P) := by
    rw [EncryptionKey.fromBytes_eq, hseed, hexpand]
    rfl
  refine ⟨_, hparse, (EncryptionKey.fromBytes_spec hlen hparse).2.trans ?_⟩
  rw [canonicalKey, hdrop, funext hdecode, ← EncryptionKey.toBytes_toList]

/-- Parsing ends when the streams suffice. -/
theorem EncryptionKey.fromBytes_ends (hΓ : Γ.Lawful) {bytes : List UInt8}
    (hrho : Γ.Suffices P (arrayOf 32 (bytes.drop (384 * P.K)))) :
    ∃ ek : EncryptionKey P, EncryptionKey.fromBytes Γ bytes = some ek := by
  obtain ⟨m, hexpand⟩ := expand_ends hΓ hrho
  exact ⟨_, by rw [EncryptionKey.fromBytes_eq, hexpand]; rfl⟩

theorem DecryptionKey.fromBytes_spec {bytes : List UInt8} (hlen : bytes.length = 384 * P.K) :
    (DecryptionKey.fromBytes bytes : DecryptionKey P).Valid ∧
      (DecryptionKey.fromBytes bytes : DecryptionKey P).toBytes.toList =
        encodeVector fun i : Fin P.K => decodeVector bytes i := by
  have hs := vector_byteDecode_represents (P := P) bytes (by omega)
  rw [List.take_of_length_le (by omega)] at hs
  exact ⟨⟨fun i => (hs i).1, rfl⟩, by rw [DecryptionKey.toBytes_toList]; exact congrArg encodeVector hs.toTq_eq⟩

/-- The parts of a serialized decapsulation key: the encryption key and the stored hash. -/
def embeddedKey (P : ParameterSet) (bytes : List UInt8) : List UInt8 := (bytes.drop (384 * P.K)).take (384 * P.K + 32)

/-- The hash that a serialized decapsulation key stores. -/
def storedHash (P : ParameterSet) (bytes : List UInt8) : List UInt8 := (bytes.drop (768 * P.K + 32)).take 32

theorem EncapsulationKey.fromBytes_eq {bytes : List UInt8} (hlen : bytes.length = P.encapsKeySize) :
    (EncapsulationKey.fromBytes Γ bytes : Option (Except Error (EncapsulationKey P))) =
      (EncryptionKey.fromBytes Γ bytes).map fun ekPke : EncryptionKey P =>
        if ekPke.toBytes.toList ≠ bytes then .error .encapsulationKeyModulusCheckFailed
        else .ok (EncapsulationKey.of Γ ekPke) := by
  rw [EncapsulationKey.fromBytes, if_neg (not_not.mpr hlen)]
  cases (EncryptionKey.fromBytes Γ bytes : Option (EncryptionKey P)) with
  | none => rfl
  | some ekPke =>
    show (if _ then _ else _) = some (if _ then _ else _)
    split <;> rfl

/-- An accepted encapsulation key is valid, and serializes to the bytes it was parsed from. -/
theorem EncapsulationKey.fromBytes_spec {bytes : List UInt8} {ek : EncapsulationKey P}
    (h : EncapsulationKey.fromBytes Γ bytes = some (.ok ek)) : ek.Valid Γ ∧ ek.toBytes.toList = bytes := by
  by_cases hlen : bytes.length = P.encapsKeySize
  · rw [EncapsulationKey.fromBytes_eq hlen] at h
    obtain ⟨ekPke, hparse, hcheck⟩ := Option.map_eq_some_iff.mp h
    obtain ⟨hvalid, _⟩ := EncryptionKey.fromBytes_spec hlen hparse
    by_cases heq : ekPke.toBytes.toList = bytes
    · rw [if_neg (not_not.mpr heq)] at hcheck
      obtain rfl := Except.ok.inj hcheck
      exact ⟨EncapsulationKey.of_valid hvalid, heq⟩
    · rw [if_pos heq] at hcheck
      nomatch hcheck
  · rw [EncapsulationKey.fromBytes, if_pos hlen] at h
    nomatch h

theorem DecapsulationKey.fromBytes_eq {bytes : List UInt8} (hlen : bytes.length = P.decapsKeySize) :
    (DecapsulationKey.fromBytes Γ bytes : Option (Except Error (DecapsulationKey P))) =
      (EncryptionKey.fromBytes Γ (embeddedKey P bytes)).map fun ekPke : EncryptionKey P =>
        if Γ.H ekPke.toBytes.toList ≠ arrayOf 32 (storedHash P bytes) then .error .decapsulationKeyHashMismatch
        else .ok ⟨DecryptionKey.fromBytes (bytes.take (384 * P.K)), EncapsulationKey.of Γ ekPke,
          arrayOf 32 (storedHash P bytes), arrayOf 32 (bytes.drop (768 * P.K + 64))⟩ := by
  have hkey : (bytes.drop P.decryptionKeySize).take P.encapsKeySize = embeddedKey P bytes := rfl
  have hhash : ((bytes.drop P.decryptionKeySize).drop P.encapsKeySize).take 32 = storedHash P bytes := by
    rw [List.drop_drop, storedHash, ParameterSet.decryptionKeySize, ParameterSet.encapsKeySize,
      show 384 * P.K + (384 * P.K + 32) = 768 * P.K + 32 by omega]
  have hseed : ((bytes.drop P.decryptionKeySize).drop P.encapsKeySize).drop 32 = bytes.drop (768 * P.K + 64) := by
    rw [List.drop_drop, List.drop_drop, ParameterSet.decryptionKeySize, ParameterSet.encapsKeySize,
      show 384 * P.K + (384 * P.K + 32 + 32) = 768 * P.K + 64 by omega]
  rw [DecapsulationKey.fromBytes, if_neg (not_not.mpr hlen)]
  simp only [hkey, hhash, hseed]
  cases (EncryptionKey.fromBytes Γ (embeddedKey P bytes) : Option (EncryptionKey P)) with
  | none => rfl
  | some ekPke =>
    show (if Γ.H ekPke.toBytes.toList ≠ arrayOf 32 (storedHash P bytes) then _ else _) = some (if _ then _ else _)
    by_cases heq : Γ.H ekPke.toBytes.toList ≠ arrayOf 32 (storedHash P bytes)
    · rw [if_pos heq, if_pos heq]
      rfl
    · rw [if_neg heq, if_neg heq]
      rfl

theorem length_embeddedKey {bytes : List UInt8} (hlen : bytes.length = P.decapsKeySize) :
    (embeddedKey P bytes).length = 384 * P.K + 32 := by
  rw [ParameterSet.decapsKeySize] at hlen
  rw [embeddedKey, List.length_take, List.length_drop]
  omega

/-- An accepted decapsulation key is valid. -/
theorem DecapsulationKey.fromBytes_spec {bytes : List UInt8} {dk : DecapsulationKey P}
    (h : DecapsulationKey.fromBytes Γ bytes = some (.ok dk)) : dk.Valid Γ := by
  by_cases hlen : bytes.length = P.decapsKeySize
  · rw [DecapsulationKey.fromBytes_eq hlen] at h
    obtain ⟨ekPke, hparse, hcheck⟩ := Option.map_eq_some_iff.mp h
    have hvalid := (EncryptionKey.fromBytes_spec (length_embeddedKey hlen) hparse).1
    by_cases heq : Γ.H ekPke.toBytes.toList = arrayOf 32 (storedHash P bytes)
    · rw [if_neg (not_not.mpr heq)] at hcheck
      obtain rfl := Except.ok.inj hcheck
      rw [ParameterSet.decapsKeySize] at hlen
      exact ⟨(DecryptionKey.fromBytes_spec (by rw [List.length_take]; omega)).1, EncapsulationKey.of_valid hvalid, heq.symm⟩
    · rw [if_pos heq] at hcheck
      nomatch hcheck
  · rw [DecapsulationKey.fromBytes, if_pos hlen] at h
    nomatch h

/-! ## Key generation -/

/-- A seed is the concatenation of its halves. -/
theorem exists_halves (seed : Vector UInt8 64) : ∃ d z : Vector UInt8 32, seed = d ++ z :=
  ⟨Vector.ofFn fun i => seed[i.val], Vector.ofFn fun i => seed[32 + i.val], Vector.ext fun i hi => by
    rw [Vector.getElem_append]
    split
    · rw [Vector.getElem_ofFn]
    · simp only [Vector.getElem_ofFn, show 32 + (i - 32) = i by omega]⟩

/-- The first half of a seed. -/
theorem seed_left (d z : Vector UInt8 32) : (Vector.ofFn fun i : Fin 32 => (d ++ z : Vector UInt8 64)[i.castAdd 32]) = d :=
  Vector.ext fun i hi => by
    rw [Vector.getElem_ofFn, Loops.getElem_fin]
    exact Vector.getElem_append_left hi

/-- The second half of a seed. -/
theorem seed_right (d z : Vector UInt8 32) : (Vector.ofFn fun i : Fin 32 => (d ++ z : Vector UInt8 64)[i.natAdd 32]) = z :=
  Vector.ext fun i hi => by
    rw [Vector.getElem_ofFn, Loops.getElem_fin]
    refine (Vector.getElem_append_right (Nat.add_lt_add_left hi 32) (Nat.le_add_right 32 i)).trans ?_
    simp only [Nat.add_sub_cancel_left]

/-- `generate_derand` returns a valid key, and its serializations are those of Algorithm 16. -/
theorem generateDerand_spec (hΓ : Γ.Lawful) {d z : Vector UInt8 32} {dk : DecapsulationKey P}
    (h : DecapsulationKey.generateDerand Γ (d ++ z) = some dk) :
    dk.Valid Γ ∧ (dk.encapsulationKey.toBytes.toList, dk.toBytes.toList) = keyGen P.fips Γ.hashes d z := by
  obtain ⟨pair, hpair, hkey⟩ := Option.bind_eq_some_iff.mp h
  obtain rfl := Option.some.inj hkey
  rw [seed_left] at hpair
  obtain ⟨hek, hdk, hbytes⟩ := newDerand_spec hΓ hpair
  obtain ⟨h1, h2⟩ := Prod.mk.inj hbytes
  refine ⟨⟨hdk, EncapsulationKey.of_valid hek, rfl⟩, Prod.ext h1 ?_⟩
  show (DecapsulationKey.toBytes _).toList = _
  rw [DecapsulationKey.toBytes_toList]
  simp only [seed_right, EncapsulationKey.of, EncapsulationKey.hash, keyGen, h1, h2]
  rfl

/-- Key generation ends when the streams suffice. -/
theorem generateDerand_ends (hΓ : Γ.Lawful) {d : Vector UInt8 32} (z : Vector UInt8 32)
    (hrho : Γ.Suffices P (Γ.G (d.toList ++ [UInt8.ofNat P.K])).1) :
    ∃ dk : DecapsulationKey P, DecapsulationKey.generateDerand Γ (d ++ z) = some dk := by
  obtain ⟨m, hexpand⟩ := expand_ends hΓ hrho
  rw [← seed_left d z] at hexpand
  exact ⟨_, Option.bind_eq_some_iff.mpr ⟨_, Option.bind_eq_some_iff.mpr ⟨m, hexpand, rfl⟩, rfl⟩⟩

/-! ## Encapsulation and decapsulation -/

/-- `encapsulate_derand` is Algorithm 17 on the serialized key. -/
theorem encapsulateDerand_spec (hΓ : Γ.Lawful) {ek : EncapsulationKey P} (hek : ek.Valid Γ) (m : Vector UInt8 32) :
    ((ek.encapsulateDerand Γ m).1, (ek.encapsulateDerand Γ m).2.bytes.toList) =
      encaps P.fips Γ.hashes ek.toBytes.toList m := by
  refine Prod.ext ?_ ?_
  · show (Γ.G (m.toList ++ ek.hEk.toList)).1 = _
    rw [hek.hEk_eq]
    rfl
  · show (ek.ekPke.encrypt Γ m (Γ.G (m.toList ++ ek.hEk.toList)).2).bytes.toList = _
    rw [encrypt_toList hΓ hek.ekPke, hek.hEk_eq]
    rfl

/-- Selecting byte by byte selects the whole secret. -/
theorem zipWith_select (hΓ : Γ.Lawful) (c : Bool) (x y : SharedSecret) :
    Vector.zipWith (fun kp kb => Γ.conditionalSelect kb kp c) x y = if c then x else y := by
  refine Vector.ext fun i hi => ?_
  rw [Vector.getElem_zipWith, hΓ.conditionalSelect]
  cases c <;> rfl

/-- `decapsulate` returns the derived secret exactly when the ciphertext is the re-encrypted one. -/
theorem decapsulate_eq (hΓ : Γ.Lawful) (dk : DecapsulationKey P) (c : Ciphertext P) :
    dk.decapsulate Γ c =
      let m := dk.dkPke.decrypt c
      let r := (Γ.G (m.toList ++ dk.hEk.toList)).2
      if c = dk.ek.ekPke.encrypt Γ m r then (Γ.G (m.toList ++ dk.hEk.toList)).1 else Γ.J dk.z c.bytes.toList := by
  show Vector.zipWith (fun kp kb => Γ.conditionalSelect kb kp
    (c.ctEq Γ (dk.ek.ekPke.encrypt Γ (dk.dkPke.decrypt c) (Γ.G ((dk.dkPke.decrypt c).toList ++ dk.hEk.toList)).2))) _ _ = _
  rw [zipWith_select hΓ]
  simp only [ctEq_iff hΓ]
  rfl

/-- The serialized parts of a decapsulation key. -/
theorem DecapsulationKey.slices (dk : DecapsulationKey P) :
    dk.toBytes.toList.take (384 * P.K) = dk.dkPke.toBytes.toList ∧
      (dk.toBytes.toList.drop (384 * P.K)).take (384 * P.K + 32) = dk.ek.toBytes.toList ∧
      (dk.toBytes.toList.drop (768 * P.K + 32)).take 32 = dk.hEk.toList ∧
      (dk.toBytes.toList.drop (768 * P.K + 64)).take 32 = dk.z.toList := by
  have h1 : dk.dkPke.toBytes.toList.length = 384 * P.K := Vector.length_toList
  have h2 : dk.ek.ekPke.toBytes.toList.length = 384 * P.K + 32 := Vector.length_toList
  have h3 : dk.hEk.toList.length = 32 := Vector.length_toList
  have h4 : dk.z.toList.length = 32 := Vector.length_toList
  rw [dk.toBytes_toList, EncapsulationKey.toBytes]
  generalize dk.dkPke.toBytes.toList = a at h1
  generalize dk.ek.ekPke.toBytes.toList = b at h2
  generalize dk.hEk.toList = c at h3
  generalize dk.z.toList = d at h4
  refine ⟨?_, ?_, ?_, ?_⟩
  · rw [List.append_assoc, List.append_assoc, ← h1, List.take_left]
  · rw [List.append_assoc, List.append_assoc, ← h1, List.drop_left, h1, ← h2, List.take_left]
  · rw [List.append_assoc, show 768 * P.K + 32 = (a ++ b).length by rw [List.length_append]; omega, List.drop_left, ← h3,
      List.take_left]
  · rw [show 768 * P.K + 64 = (a ++ b ++ c).length by rw [List.length_append, List.length_append]; omega, List.drop_left,
      List.take_of_length_le (by omega)]

/-- `decapsulate` is Algorithm 18 on the serialized key. -/
theorem decapsulate_spec (hΓ : Γ.Lawful) {dk : DecapsulationKey P} (hdk : dk.Valid Γ) (c : Ciphertext P) :
    dk.decapsulate Γ c = decaps P.fips Γ.hashes dk.toBytes.toList c.bytes.toList := by
  obtain ⟨hslice1, hslice2, hslice3, hslice4⟩ := dk.slices
  obtain ⟨hdkPke, hek, hhash⟩ := hdk
  simp only [decaps, hslice1, hslice2, hslice3, hslice4, ← decrypt_toList hdkPke]
  rw [EncapsulationKey.toBytes, ← encrypt_toList hΓ hek.ekPke, decapsulate_eq hΓ]
  simp only [Ciphertext.toList_inj]
  rfl

/-! ## Serialization -/

/-- Parsing what a valid encapsulation key serializes to yields a valid key with the same serialization. -/
theorem EncapsulationKey.fromBytes_toBytes {ek : EncapsulationKey P} (hek : ek.Valid Γ) :
    ∃ ek' : EncapsulationKey P, EncapsulationKey.fromBytes Γ ek.toBytes.toList = some (.ok ek') ∧ ek'.Valid Γ ∧
      ek'.toBytes.toList = ek.toBytes.toList := by
  obtain ⟨ekPke, hparse, hbytes⟩ := EncryptionKey.fromBytes_toBytes hek.ekPke
  have hrun : EncapsulationKey.fromBytes Γ ek.toBytes.toList = some (.ok (EncapsulationKey.of Γ ekPke)) := by
    rw [EncapsulationKey.fromBytes_eq Vector.length_toList, EncapsulationKey.toBytes, hparse, Option.map_some,
      if_neg (not_not.mpr hbytes)]
  exact ⟨_, hrun, (EncapsulationKey.fromBytes_spec hrun).1, hbytes⟩

/-- Parsing what a valid decapsulation key serializes to yields a valid key with the same serialization. -/
theorem DecapsulationKey.fromBytes_toBytes {dk : DecapsulationKey P} (hdk : dk.Valid Γ) :
    ∃ dk' : DecapsulationKey P, DecapsulationKey.fromBytes Γ dk.toBytes.toList = some (.ok dk') ∧ dk'.Valid Γ ∧
      dk'.toBytes.toList = dk.toBytes.toList := by
  obtain ⟨hslice1, hslice2, hslice3, hslice4⟩ := dk.slices
  obtain ⟨ekPke, hparse, hbytes⟩ := EncryptionKey.fromBytes_toBytes hdk.ek.ekPke
  have hlen : dk.toBytes.toList.length = P.decapsKeySize := Vector.length_toList
  have hseed : arrayOf 32 (dk.toBytes.toList.drop (768 * P.K + 64)) = dk.z := by
    rw [← arrayOf_toList dk.z, ← hslice4, List.take_of_length_le]
    rw [List.length_drop, hlen, ParameterSet.decapsKeySize]
    omega
  have hhash : Γ.H ekPke.toBytes.toList = dk.hEk := by
    rw [hbytes, hdk.hEk_eq, hdk.ek.hEk_eq]
    rfl
  have hrun : DecapsulationKey.fromBytes Γ dk.toBytes.toList = some (.ok
      (⟨DecryptionKey.fromBytes dk.dkPke.toBytes.toList, EncapsulationKey.of Γ ekPke, dk.hEk, dk.z⟩ :
        DecapsulationKey P)) := by
    rw [DecapsulationKey.fromBytes_eq hlen, embeddedKey, storedHash, hslice1, hslice2, hslice3, hseed, arrayOf_toList,
      EncapsulationKey.toBytes, hparse, Option.map_some, if_neg (not_not.mpr hhash)]
  have hsHat : (DecryptionKey.fromBytes dk.dkPke.toBytes.toList : DecryptionKey P).toBytes.toList =
      dk.dkPke.toBytes.toList := by
    have hkey : dk.dkPke.toBytes.toList.length = 384 * P.K := Vector.length_toList
    rw [(DecryptionKey.fromBytes_spec hkey).2, funext dk.dkPke.decode_toBytes, ← DecryptionKey.toBytes_toList]
  refine ⟨_, hrun, DecapsulationKey.fromBytes_spec hrun, Vector.toList_inj.mpr (Vector.toList_inj.mp ?_)⟩
  rw [DecapsulationKey.toBytes_toList, DecapsulationKey.toBytes_toList, hsHat]
  exact congrArg (_ ++ · ++ _ ++ _) hbytes

/-! ## The keys that a program can hold -/

/-- A decapsulation key returned by `generate_derand` or by a successful `from_bytes`. -/
inductive DecapsulationKey.Obtained (Γ : Crates) : DecapsulationKey P → Prop
  | generated {seed : Vector UInt8 64} {dk : DecapsulationKey P} (h : DecapsulationKey.generateDerand Γ seed = some dk) :
      Obtained Γ dk
  | parsed {bytes : List UInt8} {dk : DecapsulationKey P} (h : DecapsulationKey.fromBytes Γ bytes = some (.ok dk)) :
      Obtained Γ dk

/-- The encapsulation key of an obtained decapsulation key, or one returned by a successful `from_bytes`. -/
inductive EncapsulationKey.Obtained (Γ : Crates) : EncapsulationKey P → Prop
  | ofDecapsulationKey {dk : DecapsulationKey P} (h : dk.Obtained Γ) : Obtained Γ dk.encapsulationKey
  | parsed {bytes : List UInt8} {ek : EncapsulationKey P} (h : EncapsulationKey.fromBytes Γ bytes = some (.ok ek)) :
      Obtained Γ ek

theorem DecapsulationKey.Obtained.valid (hΓ : Γ.Lawful) {dk : DecapsulationKey P} (h : dk.Obtained Γ) : dk.Valid Γ := by
  cases h with
  | @generated seed _ h =>
    obtain ⟨d, z, rfl⟩ := exists_halves seed
    exact (generateDerand_spec hΓ h).1
  | parsed h => exact DecapsulationKey.fromBytes_spec h

theorem EncapsulationKey.Obtained.valid (hΓ : Γ.Lawful) {ek : EncapsulationKey P} (h : ek.Obtained Γ) : ek.Valid Γ := by
  cases h with
  | ofDecapsulationKey h => exact (h.valid hΓ).ek
  | parsed h => exact (EncapsulationKey.fromBytes_spec h).1

end MlkemSelkie
