import MlkemSelkie.Pke

/-!
# ML-KEM

`lib.rs`: the key encapsulation mechanism over K-PKE, with its key parsing and the checks of section 7 of FIPS 203.
-/

namespace MlkemSelkie

open Loops

variable {P : ParameterSet} (Γ : Crates)

/-- The errors of the public interface. -/
inductive Error where
  | invalidEncapsulationKeyLength
  | encapsulationKeyModulusCheckFailed
  | invalidDecapsulationKeyLength
  | decapsulationKeyHashMismatch
  | invalidCiphertextLength
  deriving DecidableEq, Repr

/-- A 32-byte shared secret. -/
abbrev SharedSecret : Type := Vector UInt8 32

/-- The hash of an encapsulation key. -/
abbrev EncapsulationKeyHash : Type := Vector UInt8 32

/-- An encapsulation key: the K-PKE encryption key and its cached hash. -/
structure EncapsulationKey (P : ParameterSet) where
  ekPke : EncryptionKey P
  hEk : EncapsulationKeyHash
  deriving DecidableEq

/-- A decapsulation key: the K-PKE decryption key, the encapsulation key, its hash and the rejection seed. -/
structure DecapsulationKey (P : ParameterSet) where
  dkPke : DecryptionKey P
  ek : EncapsulationKey P
  hEk : EncapsulationKeyHash
  z : Vector UInt8 32
  deriving DecidableEq

/-- `TryFrom<&[u8]>` for the public `Ciphertext`. -/
def Ciphertext.tryFrom (bytes : List UInt8) : Except Error (Ciphertext P) :=
  if bytes.length ≠ P.ciphertextSize then .error .invalidCiphertextLength
  else .ok (Ciphertext.fromBytes bytes)

namespace EncapsulationKey

/-- `EncapsulationKeyHash::from`: the hash of the serialized key. -/
def hash (ekPke : EncryptionKey P) : EncapsulationKeyHash := Γ.H ekPke.toBytes.toList

/-- `From<EncryptionKey>`: wraps a K-PKE encryption key, caching its hash. -/
def of (ekPke : EncryptionKey P) : EncapsulationKey P := ⟨ekPke, hash Γ ekPke⟩

/-- The derived `Clone`: a copy of every field. -/
def clone (ek : EncapsulationKey P) : EncapsulationKey P := { ekPke := ek.ekPke.clone, hEk := ek.hEk }

/-- Serializes the key. -/
def toBytes (ek : EncapsulationKey P) : Vector UInt8 P.encapsKeySize := ek.ekPke.toBytes

/-- `TryFrom<&[u8]>`: the type check and the modulus check of section 7.2. -/
def fromBytes (bytes : List UInt8) : Option (Except Error (EncapsulationKey P)) :=
  if bytes.length ≠ P.encapsKeySize then some (.error .invalidEncapsulationKeyLength)
  else do
    let ekPke : EncryptionKey P ← EncryptionKey.fromBytes Γ bytes
    if ekPke.toBytes.toList ≠ bytes then return .error .encapsulationKeyModulusCheckFailed
    return .ok (EncapsulationKey.of Γ ekPke)

/-- `ML-KEM.Encaps_internal`. -/
def encapsulateDerand (ek : EncapsulationKey P) (m : Vector UInt8 32) : SharedSecret × Ciphertext P :=
  let (k, r) := Γ.G (m.toList ++ ek.hEk.toList)
  (k, ek.ekPke.encrypt Γ m r)

end EncapsulationKey

namespace DecapsulationKey

/-- `ML-KEM.KeyGen_internal`: the seed is `d ‖ z`. -/
def generateDerand (seed : Vector UInt8 64) : Option (DecapsulationKey P) := do
  let d : Vector UInt8 32 := Vector.ofFn fun i => seed[i.castAdd 32]
  let z : Vector UInt8 32 := Vector.ofFn fun i => seed[i.natAdd 32]
  let pair : KeyPair P ← KeyPair.newDerand Γ d
  let ek := EncapsulationKey.of Γ pair.ekPke
  return { dkPke := pair.dkPke, ek, hEk := ek.hEk, z }

/-- The derived `Zeroize`: `ek` and `h_ek` are skipped. -/
def zeroize (dk : DecapsulationKey P) : DecapsulationKey P :=
  { dkPke := dk.dkPke.zeroize, ek := dk.ek, hEk := dk.hEk, z := Vector.replicate 32 0 }

/-- The encapsulation key. -/
def encapsulationKey (dk : DecapsulationKey P) : EncapsulationKey P := dk.ek

/-- Serializes `dk_PKE ‖ ek ‖ H(ek) ‖ z`. -/
def toBytes (dk : DecapsulationKey P) : Vector UInt8 P.decapsKeySize :=
  let encoded : Vector UInt8 3168 := Vector.replicate 3168 0
  let encoded := copyAt encoded 0 dk.dkPke.toBytes.toList
  let encoded := copyAt encoded P.decryptionKeySize dk.ek.ekPke.toBytes.toList
  let encoded := copyAt encoded (P.decryptionKeySize + P.encryptionKeySize) dk.hEk.toList
  let encoded := copyAt encoded (P.decryptionKeySize + P.encryptionKeySize + 32) dk.z.toList
  Vector.ofFn fun i => encoded[i.val]?.getD 0

/-- `TryFrom<&[u8]>`: the type check and the hash check of section 7.3. -/
def fromBytes (bytes : List UInt8) : Option (Except Error (DecapsulationKey P)) :=
  if bytes.length ≠ P.decapsKeySize then some (.error .invalidDecapsulationKeyLength)
  else do
    let dkPkeBytes := bytes.take P.decryptionKeySize
    let rest := bytes.drop P.decryptionKeySize
    let ekBytes := rest.take P.encapsKeySize
    let rest := rest.drop P.encapsKeySize
    let hEkBytes := rest.take 32
    let zBytes := rest.drop 32
    let dkPke : DecryptionKey P := DecryptionKey.fromBytes dkPkeBytes
    let ekPke : EncryptionKey P ← EncryptionKey.fromBytes Γ ekBytes
    let ek := EncapsulationKey.of Γ ekPke
    let hEk := arrayOf 32 hEkBytes
    if ek.hEk ≠ hEk then return .error .decapsulationKeyHashMismatch
    return .ok { dkPke, ek, hEk, z := arrayOf 32 zBytes }

/-- `ML-KEM.Decaps`, with implicit rejection. -/
def decapsulate (dk : DecapsulationKey P) (ciphertext : Ciphertext P) : SharedSecret :=
  let mPrime := dk.dkPke.decrypt ciphertext
  let (kPrime, rPrime) := Γ.G (mPrime.toList ++ dk.hEk.toList)
  let kBar := Γ.J dk.z ciphertext.bytes.toList
  let cPrime := dk.ek.ekPke.encrypt Γ mPrime rPrime
  let matches' := ciphertext.ctEq Γ cPrime
  Vector.zipWith (fun kp kb => Γ.conditionalSelect kb kp matches') kPrime kBar

end DecapsulationKey

end MlkemSelkie
