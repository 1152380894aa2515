import MlkemSelkie.Debug.Sampling

/-!
# K-PKE and ML-KEM with their assertions

`PKE.rs` and `lib.rs` as a build with debug assertions and overflow checks runs them, from the parsers to the shared secrets.
-/

namespace MlkemSelkie

open Runs

variable {P : ParameterSet} (Γ : Crates)

/-- A sum of `u8`s. -/
def addU8 (x y : UInt8) : Run UInt8 := do
  return UInt8.ofNat (← below (2 ^ 8) (x.toNat + y.toNat))

/-- A product of `u8`s. -/
def mulU8 (x y : UInt8) : Run UInt8 := do
  return UInt8.ofNat (← below (2 ^ 8) (x.toNat * y.toNat))

/-- Byte `i` of a staging buffer, and the fallback behind its end. -/
def collect (size : Nat) (staged : List UInt8) : Run (Vector UInt8 size) :=
  Vector.ofFnM fun i => lift .fallback staged[i.val]?

/-! ## K-PKE -/

/-- Packs an element and copies the leading bytes over a slice. -/
def RqElement.debugPackInto (f : RqElement) (d : Nat) (slice : List UInt8) : Run (List UInt8) := do
  let packed ← f.debugCompressEncode d
  copyFromSlice slice (← splitAt slice.length packed.toList).1

namespace Ciphertext

/-- `from_uv`. -/
def debugFromUv (u : RqVector P) (v : RqElement) : Run (Ciphertext P) := do
  let staged : List UInt8 := List.replicate 1568 0
  assert (P.ciphertextSize ≤ staged.length)
  let (uPart, vPart) ← splitAt (32 * P.dU * P.K) staged
  let uPart ← zipChunksMut (32 * P.dU) (fun poly chunk => poly.debugPackInto P.dU chunk) u.polys.toList uPart
  let (vExact, rest) ← splitAt (32 * P.dV) vPart
  let vExact ← v.debugPackInto P.dV vExact
  return ⟨← collect P.ciphertextSize (uPart ++ (vExact ++ rest))⟩

/-- `from_bytes`. -/
def debugFromBytes (bytes : List UInt8) : Run (Ciphertext P) := do
  assert (bytes.length = P.ciphertextSize)
  return ⟨← collect P.ciphertextSize bytes⟩

/-- `ct_eq`. -/
def debugCtEq (a b : Ciphertext P) : Run Bool := do
  assert (a.bytes.toList.length % 8 = 0)
  return a.ctEq Γ b

end Ciphertext

namespace EncryptionKey

/-- `to_bytes`. -/
def debugToBytes (ek : EncryptionKey P) : Run (Vector UInt8 P.encapsKeySize) := do
  let assembled : List UInt8 := List.replicate 1568 0
  assert (P.encryptionKeySize ≤ assembled.length)
  let (encoded, rest) ← splitAt P.encryptionKeySize assembled
  let (tPart, rhoPart) ← splitAt (384 * P.K) encoded
  let tPart ← zipChunksMut 384 (fun (t : TqElement) chunk => do
    copyFromSlice chunk (← t.debugByteEncode).toList) ek.tHat.polys.toList tPart
  let rhoPart ← copyFromSlice rhoPart ek.rho.toList
  collect P.encapsKeySize (tPart ++ rhoPart ++ rest)

/-- `from_bytes`. -/
def debugFromBytes (bytes : List UInt8) : Run (EncryptionKey P) := do
  assert (bytes.length = P.encryptionKeySize)
  let (encodedT, rhoBytes) ← splitAt (384 * P.K) bytes
  let tHat ← TqVector.debugByteDecode encodedT
  let rho ← copyIntoArray 32 rhoBytes
  let aHat : TqMatrix P ← TqMatrix.debugExpand Γ rho
  return { tHat, rho, aHatTranspose := ← aHat.debugTranspose }

/-- `encrypt`. -/
def debugEncrypt (ek : EncryptionKey P) (message randomness : Vector UInt8 32) : Run (Ciphertext P) := do
  let k := UInt8.ofNat P.K
  let (y, _) : RqVector P × CbdSampler ← CbdSampler.debugSampleVector Γ (← CbdSampler.debugNew Γ P.eta1 randomness 0 k)
  let noise ← CbdSampler.debugNew Γ P.eta2 randomness k (← addU8 k 1)
  let (e1, noise) : RqVector P × CbdSampler ← CbdSampler.debugSampleVector Γ noise
  let (e2, _) ← CbdSampler.debugSampleElement Γ noise
  let yHat ← CachedTqVector.debugOf (← y.debugNtt)
  let u := (← (← ek.aHatTranspose.debugProduct yHat).debugNttInverse) + e1
  let mu ← RqElement.debugFromMessage message
  let v := (← (← ek.tHat.debugDot yHat).debugNttInverse) + e2 + mu
  Ciphertext.debugFromUv u v

end EncryptionKey

namespace DecryptionKey

/-- `to_bytes`. -/
def debugToBytes (dk : DecryptionKey P) : Run (Vector UInt8 P.decryptionKeySize) := do
  let blocks ← dk.sHat.vector.debugByteEncoded
  collect P.decryptionKeySize (blocks.toList.map (·.toList)).flatten

/-- `from_bytes`. -/
def debugFromBytes (bytes : List UInt8) : Run (DecryptionKey P) := do
  assert (bytes.length = P.decryptionKeySize)
  return ⟨← CachedTqVector.debugOf (← TqVector.debugByteDecode bytes)⟩

/-- `decrypt`. -/
def debugDecrypt (dk : DecryptionKey P) (ciphertext : Ciphertext P) : Run (Vector UInt8 32) := do
  let (c1, c2) ← splitAt (32 * P.dU * P.K) ciphertext.bytes.toList
  let u : RqVector P ← RqVector.debugDecodeDecompress c1 P.dU
  let v ← RqElement.debugDecodeDecompress c2 P.dV
  let w := v - (← (← (← u.debugNtt).debugDot dk.sHat).debugNttInverse)
  w.debugCompressMessage

end DecryptionKey

/-- `new_derand`. -/
def KeyPair.debugNewDerand (seed : Vector UInt8 32) : Run (KeyPair P) := do
  let (rho, sigma) ← Γ.debugG (← assemble (List.replicate 33 0) seed.toList [UInt8.ofNat P.K] 32)
  let aHat : TqMatrix P ← TqMatrix.debugExpand Γ rho
  let noise ← CbdSampler.debugNew Γ P.eta1 sigma 0 (← mulU8 2 (UInt8.ofNat P.K))
  let (s, noise) : RqVector P × CbdSampler ← CbdSampler.debugSampleVector Γ noise
  let (e, _) : RqVector P × CbdSampler ← CbdSampler.debugSampleVector Γ noise
  let sHat ← CachedTqVector.debugOf (← s.debugNtt)
  let eHat ← e.debugNtt
  let tHat := (← (← aHat.debugProduct sHat).debugToMontgomery) + eHat
  return { dkPke := ⟨sHat⟩, ekPke := { tHat, rho, aHatTranspose := ← aHat.debugTranspose } }

/-! ## ML-KEM -/

/-- `TryFrom<&[u8]>` for the public `Ciphertext`. -/
def Ciphertext.debugTryFrom (bytes : List UInt8) : Run (Except Error (Ciphertext P)) := do
  if bytes.length ≠ P.ciphertextSize then return .error .invalidCiphertextLength
  else return .ok (← Ciphertext.debugFromBytes bytes)

namespace EncapsulationKey

/-- `From<EncryptionKey>`. -/
def debugOf (ekPke : EncryptionKey P) : Run (EncapsulationKey P) := do
  return ⟨ekPke, Γ.H (← ekPke.debugToBytes).toList⟩

/-- `to_bytes`. -/
def debugToBytes (ek : EncapsulationKey P) : Run (Vector UInt8 P.encapsKeySize) := ek.ekPke.debugToBytes

/-- `TryFrom<&[u8]>`. -/
def debugFromBytes (bytes : List UInt8) : Run (Except Error (EncapsulationKey P)) := do
  if bytes.length ≠ P.encapsKeySize then return .error .invalidEncapsulationKeyLength
  else do
    let ekPke : EncryptionKey P ← EncryptionKey.debugFromBytes Γ bytes
    if (← ekPke.debugToBytes).toList ≠ bytes then return .error .encapsulationKeyModulusCheckFailed
    return .ok (← debugOf Γ ekPke)

/-- `encapsulate_derand`. -/
def debugEncapsulateDerand (ek : EncapsulationKey P) (m : Vector UInt8 32) : Run (SharedSecret × Ciphertext P) := do
  let (k, r) ← Γ.debugG (← assemble (List.replicate 64 0) m.toList ek.hEk.toList 32)
  return (k, ← ek.ekPke.debugEncrypt Γ m r)

end EncapsulationKey

namespace DecapsulationKey

/-- `generate_derand`. -/
def debugGenerateDerand (seed : Vector UInt8 64) : Run (DecapsulationKey P) := do
  let (d, z) ← splitAt 32 seed.toList
  let dSeed ← copyIntoArray 32 d
  let zSeed ← copyIntoArray 32 z
  let pair : KeyPair P ← KeyPair.debugNewDerand Γ dSeed
  let ek ← EncapsulationKey.debugOf Γ pair.ekPke
  return { dkPke := pair.dkPke, ek, hEk := ek.hEk, z := zSeed }

/-- `to_bytes`. -/
def debugToBytes (dk : DecapsulationKey P) : Run (Vector UInt8 P.decapsKeySize) := do
  let encoded : List UInt8 := List.replicate 3168 0
  assert (P.decapsKeySize ≤ encoded.length)
  let (valid, unused) ← splitAt P.decapsKeySize encoded
  let (dkPart, rest) ← splitAt P.decryptionKeySize valid
  let dkPart ← copyFromSlice dkPart (← dk.dkPke.debugToBytes).toList
  let (ekPart, rest) ← splitAt P.encryptionKeySize rest
  let ekPart ← copyFromSlice ekPart (← dk.ek.ekPke.debugToBytes).toList
  let (hPart, zPart) ← splitAt 32 rest
  let hPart ← copyFromSlice hPart dk.hEk.toList
  let zPart ← copyFromSlice zPart dk.z.toList
  collect P.decapsKeySize (dkPart ++ (ekPart ++ (hPart ++ zPart)) ++ unused)

/-- `TryFrom<&[u8]>`. -/
def debugFromBytes (bytes : List UInt8) : Run (Except Error (DecapsulationKey P)) := do
  if bytes.length ≠ P.decapsKeySize then return .error .invalidDecapsulationKeyLength
  else do
    let (dkPkeBytes, rest) ← splitAt P.decryptionKeySize bytes
    let (ekBytes, rest) ← splitAt P.encapsKeySize rest
    let (hEkBytes, zBytes) ← splitAt 32 rest
    let dkPke : DecryptionKey P ← DecryptionKey.debugFromBytes dkPkeBytes
    let ek ← EncapsulationKey.debugOf Γ (← EncryptionKey.debugFromBytes Γ ekBytes)
    let hEk ← copyIntoArray 32 hEkBytes
    if ek.hEk ≠ hEk then return .error .decapsulationKeyHashMismatch
    return .ok { dkPke, ek, hEk, z := ← copyIntoArray 32 zBytes }

/-- `decapsulate`. -/
def debugDecapsulate (dk : DecapsulationKey P) (ciphertext : Ciphertext P) : Run SharedSecret := do
  let mPrime ← dk.dkPke.debugDecrypt ciphertext
  let (kPrime, rPrime) ← Γ.debugG (← assemble (List.replicate 64 0) mPrime.toList dk.hEk.toList 32)
  let kBar := Γ.J dk.z ciphertext.bytes.toList
  let cPrime ← dk.ek.ekPke.debugEncrypt Γ mPrime rPrime
  let matches' ← ciphertext.debugCtEq Γ cPrime
  return Vector.zipWith (fun kp kb => Γ.conditionalSelect kb kp matches') kPrime kBar

end DecapsulationKey

end MlkemSelkie
