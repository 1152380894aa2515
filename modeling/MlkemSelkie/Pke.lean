import MlkemSelkie.Encoding
import MlkemSelkie.Sampling

/-!
# K-PKE

`PKE.rs`: key generation, encryption and decryption of the inner public-key scheme. A key that holds the expanded matrix is
built by the rejection sampler, so its constructors are `Option`s (`none`: the sampler never ends).
-/

namespace MlkemSelkie

open Loops

variable {P : ParameterSet} (Γ : Crates)

/-- A K-PKE encryption key: `t_hat`, the matrix seed `rho`, and the expanded transpose of the matrix. -/
structure EncryptionKey (P : ParameterSet) where
  tHat : TqVector P
  rho : Vector UInt8 32
  aHatTranspose : TqMatrix P
  deriving DecidableEq

/-- A K-PKE decryption key: `s_hat` with its caches. -/
structure DecryptionKey (P : ParameterSet) where
  sHat : CachedTqVector P
  deriving DecidableEq

/-- A ciphertext: the serialized, compressed pair `(u, v)`. The public `Ciphertext` is a thin wrapper over the same bytes. -/
structure Ciphertext (P : ParameterSet) where
  bytes : Vector UInt8 P.ciphertextSize
  deriving DecidableEq

/-- A K-PKE key pair. -/
structure KeyPair (P : ParameterSet) where
  dkPke : DecryptionKey P
  ekPke : EncryptionKey P

namespace Ciphertext

/-- Serializes `ByteEncode_du(Compress_du(u)) ‖ ByteEncode_dv(Compress_dv(v))` through one staging buffer. -/
def fromUv (u : RqVector P) (v : RqElement) : Ciphertext P :=
  let staged : Vector UInt8 1568 := Vector.replicate 1568 0
  let staged := u.polys.toList.zipIdx.foldl
    (fun staged p => copyAt staged (32 * P.dU * p.2) ((p.1.compressEncode P.dU).toList.take (32 * P.dU))) staged
  let staged := copyAt staged (32 * P.dU * P.K) ((v.compressEncode P.dV).toList.take (32 * P.dV))
  ⟨Vector.ofFn fun i => staged[i.val]?.getD 0⟩

/-- Copies `ciphertextSize` bytes; callers have checked the length. -/
def fromBytes (bytes : List UInt8) : Ciphertext P := ⟨Vector.ofFn fun i => bytes[i.val]?.getD 0⟩

/-- The comparison of the re-encryption check: the words' differences folded into one accumulator. -/
def ctEq (a b : Ciphertext P) : Bool :=
  let words (c : Ciphertext P) : List UInt64 :=
    (chunksExact 8 c.bytes.toList).map fun word => UInt64.ofNat (LittleEndian.ofBytes word)
  let acc := ((words a).zip (words b)).foldl (fun acc p => acc ||| (p.1 ^^^ p.2)) 0
  Γ.ctEqU64 acc 0

end Ciphertext

namespace EncryptionKey

/-- The derived `Clone`: a copy of every field. -/
def clone (ek : EncryptionKey P) : EncryptionKey P := { tHat := ek.tHat, rho := ek.rho, aHatTranspose := ek.aHatTranspose }

/-- Serializes the key block-wise: `ByteEncode_12(t_hat) ‖ rho`. -/
def toBytes (ek : EncryptionKey P) : Vector UInt8 P.encapsKeySize :=
  let assembled : Vector UInt8 1568 := Vector.replicate 1568 0
  let assembled := ek.tHat.byteEncoded.toList.zipIdx.foldl
    (fun assembled p => copyAt assembled (384 * p.2) p.1.toList) assembled
  let assembled := copyAt assembled (384 * P.K) ek.rho.toList
  Vector.ofFn fun i => assembled[i.val]?.getD 0

/-- Parses `384 * K + 32` bytes, whose number the callers have checked, and expands the matrix. -/
def fromBytes (bytes : List UInt8) : Option (EncryptionKey P) := do
  let tHat := TqVector.byteDecode (bytes.take (384 * P.K))
  let rho := arrayOf 32 (bytes.drop (384 * P.K))
  let aHat : TqMatrix P ← TqMatrix.expand Γ rho
  return { tHat, rho, aHatTranspose := aHat.transpose }

/-- `K-PKE.Encrypt`. -/
def encrypt (ek : EncryptionKey P) (message randomness : Vector UInt8 32) : Ciphertext P :=
  let y : RqVector P := (CbdSampler.sampleVector Γ
    (CbdSampler.new Γ P.eta1 randomness 0 (UInt8.ofNat P.K))).1
  let noise := CbdSampler.new Γ P.eta2 randomness (UInt8.ofNat P.K) (UInt8.ofNat P.K + 1)
  let (e1, noise) : RqVector P × CbdSampler := CbdSampler.sampleVector Γ noise
  let (e2, _) := CbdSampler.sampleElement Γ noise
  let yHat := CachedTqVector.of y.ntt
  let u := (ek.aHatTranspose * yHat).nttInverse + e1
  let mu := RqElement.fromMessage message
  let v := (ek.tHat * yHat).nttInverse + e2 + mu
  Ciphertext.fromUv u v

end EncryptionKey

namespace DecryptionKey

/-- The derived `Zeroize`. -/
def zeroize (dk : DecryptionKey P) : DecryptionKey P := ⟨dk.sHat.zeroize⟩

/-- Serializes `ByteEncode_12(s_hat)`. -/
def toBytes (dk : DecryptionKey P) : Vector UInt8 P.decryptionKeySize :=
  let bytes := (dk.sHat.vector.byteEncoded.toList.map (·.toList)).flatten
  Vector.ofFn fun i => bytes[i.val]?.getD 0

/-- Parses `384 * K` bytes, whose number the callers have checked. -/
def fromBytes (bytes : List UInt8) : DecryptionKey P := ⟨CachedTqVector.of (TqVector.byteDecode bytes)⟩

/-- `K-PKE.Decrypt`. -/
def decrypt (dk : DecryptionKey P) (ciphertext : Ciphertext P) : Vector UInt8 32 :=
  let c1 := ciphertext.bytes.toList.take (32 * P.dU * P.K)
  let c2 := ciphertext.bytes.toList.drop (32 * P.dU * P.K)
  let u : RqVector P := RqVector.decodeDecompress c1 P.dU
  let v := RqElement.decodeDecompress c2 P.dV
  let w := v - (u.ntt * dk.sHat).nttInverse
  w.compressMessage

end DecryptionKey

/-- `K-PKE.KeyGen`: derives a key pair from the seed `d`. -/
def KeyPair.newDerand (seed : Vector UInt8 32) : Option (KeyPair P) := do
  let (rho, sigma) := Γ.G (seed.toList ++ [UInt8.ofNat P.K])
  let aHat : TqMatrix P ← TqMatrix.expand Γ rho
  let noise := CbdSampler.new Γ P.eta1 sigma 0 (2 * UInt8.ofNat P.K)
  let (s, noise) : RqVector P × CbdSampler := CbdSampler.sampleVector Γ noise
  let (e, _) : RqVector P × CbdSampler := CbdSampler.sampleVector Γ noise
  let sHat := CachedTqVector.of s.ntt
  let eHat := e.ntt
  let tHat := (aHat * sHat).toMontgomery + eHat
  return { dkPke := ⟨sHat⟩, ekPke := { tHat, rho, aHatTranspose := aHat.transpose } }

end MlkemSelkie
