import MlkemSelkie.Encoding.Avx2
import MlkemSelkie.Encoding.Neon
import MlkemSelkie.Kem
import MlkemSelkie.Poly.Avx2
import MlkemSelkie.Poly.Neon
import MlkemSelkie.Sampling.Avx2
import MlkemSelkie.Sampling.Neon

/-!
# The crate over a backend

The three `arch` modules pick the kernels of one backend when the crate is built. Here is the crate once more, with
every call of a kernel going to a backend that is an argument. A kernel that reads or writes through raw pointers may
fail, an access outside the array it was given being its failure; so every function on top of one is an `Option`, and
`none` is also the sampler that never ends.
-/

namespace MlkemSelkie

open Loops Sampling

/-- The kernels of the `arch` modules of the polynomials, the bit packing and the rejection sampler. -/
structure Backend where
  ntt : Coefficients → Option Coefficients
  nttInverse : Coefficients → Coefficients
  multiply : Coefficients → Coefficients → Coefficients
  basemulAccumulate : ProductAccumulator → Coefficients → Coefficients → Vector FieldElement 128 → ProductAccumulator
  basemulReduce : ProductAccumulator → Coefficients
  pack : Coefficients → Coefficients
  unpack : Coefficients → Coefficients
  canonical : Coefficients → Vector UInt16 N
  compress : Coefficients → Nat → Vector UInt16 N
  decompress : Vector UInt16 N → Nat → Coefficients
  packBits : Vector UInt16 N → Nat → Option (Vector UInt8 384)
  unpackBits : List UInt8 → Nat → Option (Vector UInt16 N)
  reject : List UInt8 → RejectState → Option RejectState

namespace Backend

/-- The portable kernels. -/
def generic : Backend where
  ntt cs := some (Poly.Generic.ntt cs)
  nttInverse := Poly.Generic.nttInverse
  multiply := Poly.Generic.multiply
  basemulAccumulate := Poly.Generic.basemulAccumulate
  basemulReduce := Poly.Generic.basemulReduce
  pack := Poly.Generic.pack
  unpack := Poly.Generic.unpack
  canonical := Poly.Generic.canonical
  compress := Poly.Generic.compress
  decompress := Poly.Generic.decompress
  packBits values d := some (Encoding.Generic.pack values d)
  unpackBits bytes d := some (Encoding.Generic.unpack bytes d)
  reject bytes s := some (Sampling.Generic.reject bytes s)

/-- The AVX2 kernels. -/
def avx2 : Backend where
  ntt cs := some (Poly.Avx2.ntt cs)
  nttInverse := Poly.Avx2.nttInverse
  multiply := Poly.Avx2.multiply
  basemulAccumulate := Poly.Avx2.basemulAccumulate
  basemulReduce := Poly.Avx2.basemulReduce
  pack := Poly.Avx2.pack
  unpack := Poly.Avx2.unpack
  canonical := Poly.Avx2.canonical
  compress := Poly.Avx2.compress
  decompress := Poly.Avx2.decompress
  packBits := Encoding.Avx2.pack
  unpackBits := Encoding.Avx2.unpack
  reject := Sampling.Avx2.reject

/-- The NEON kernels without the assembly stages. -/
def neon : Backend where
  ntt cs := some (Poly.Neon.ntt cs)
  nttInverse := Poly.Neon.nttInverse
  multiply := Poly.Neon.multiply
  basemulAccumulate := Poly.Neon.basemulAccumulate
  basemulReduce := Poly.Neon.basemulReduce
  pack := Poly.Neon.pack
  unpack := Poly.Neon.unpack
  canonical := Poly.Neon.canonical
  compress := Poly.Neon.compress
  decompress := Poly.Neon.decompress
  packBits := Encoding.Neon.pack
  unpackBits := Encoding.Neon.unpack
  reject := Sampling.Neon.reject

end Backend

variable {P : ParameterSet} (Γ : Crates) (B : Backend)

/-! ## Ring elements -/

namespace TqElement

/-- `new`. -/
def newOn (coefficients : Coefficients) : TqElement := ⟨B.pack coefficients⟩

/-- `coefficients`. -/
def coefficientsOn (t : TqElement) : Coefficients := B.unpack t.inner

/-- `ntt_inverse`. -/
def nttInverseOn (t : TqElement) : RqElement := ⟨B.nttInverse (B.unpack t.inner)⟩

/-- `accumulated_dot`. -/
def accumulatedDotOn (f g : List TqElement) (caches : List TqMulCache) : TqElement :=
  let acc := ((f.zip g).zip caches).foldl
    (fun acc p => B.basemulAccumulate acc p.1.1.inner p.1.2.inner p.2.inner) ProductAccumulator.zero
  ⟨B.basemulReduce acc⟩

/-- `canonical`. -/
def canonicalOn (t : TqElement) : Vector UInt16 N := B.canonical t.inner

/-- `Mul`. -/
def mulOn (a b : TqElement) : TqElement := ⟨B.multiply a.inner b.inner⟩

end TqElement

namespace RqElement

/-- `ntt`. -/
def nttOn (f : RqElement) : Option TqElement := do
  return TqElement.newOn B (← B.ntt f.inner)

/-- `compressed`. -/
def compressedOn (f : RqElement) (d : Nat) : Vector UInt16 N := B.compress f.inner d

/-- `decompress`. -/
def decompressOn (values : Vector UInt16 N) (d : Nat) : RqElement := ⟨B.decompress values d⟩

end RqElement

/-! ## Encoding -/

/-- `pack`. -/
def Encoding.packOn (size : Nat) (values : Vector UInt16 N) (d : Nat) : Option (Vector UInt8 size) := do
  let full ← B.packBits values d
  return Vector.ofFn fun i => full[i.val]!

namespace TqElement

/-- `byte_encode`. -/
def byteEncodeOn (t : TqElement) : Option (Vector UInt8 384) := Encoding.packOn B 384 (t.canonicalOn B) 12

/-- `byte_decode`. -/
def byteDecodeOn (bytes : List UInt8) : Option TqElement := do
  return newOn B ((← B.unpackBits bytes 12).map FieldElement.new)

end TqElement

namespace RqElement

/-- `compress_encode`. -/
def compressEncodeOn (f : RqElement) (d : Nat) : Option (Vector UInt8 352) := Encoding.packOn B 352 (f.compressedOn B d) d

/-- `decode_decompress`. -/
def decodeDecompressOn (bytes : List UInt8) (d : Nat) : Option RqElement := do
  return decompressOn B (← B.unpackBits bytes d) d

/-- `from_message`. -/
def fromMessageOn (message : Vector UInt8 32) : Option RqElement := decodeDecompressOn B message.toList 1

/-- `compress_message`. -/
def compressMessageOn (f : RqElement) : Option (Vector UInt8 32) := Encoding.packOn B 32 (f.compressedOn B 1) 1

end RqElement

/-! ## Vectors and matrices -/

namespace RqVector

/-- `ntt` of a vector. -/
def nttOn (v : RqVector P) : Option (TqVector P) := do
  return ⟨← Vector.ofFnM fun i => v.polys[i].nttOn B⟩

/-- `decode_decompress` of a vector. -/
def decodeDecompressOn (bytes : List UInt8) (d : Nat) : Option (RqVector P) := do
  return ⟨← Vector.ofFnM fun i => RqElement.decodeDecompressOn B ((chunksExact (32 * d) bytes)[i.val]?.getD []) d⟩

end RqVector

namespace TqVector

/-- `ntt_inverse` of a vector. -/
def nttInverseOn (v : TqVector P) : RqVector P := ⟨Vector.ofFn fun i => v.polys[i].nttInverseOn B⟩

/-- The dot product with a vector that has no caches. -/
def mulOn (a b : TqVector P) : TqElement :=
  (a.polys.toList.zip b.polys.toList).foldl (fun result p => result + p.1.mulOn B p.2) TqElement.zero

/-- The dot product with a cached vector. -/
def dotOn (a : TqVector P) (b : CachedTqVector P) : TqElement :=
  TqElement.accumulatedDotOn B a.polys.toList b.vector.polys.toList b.caches.toList

/-- `byte_encoded`. -/
def byteEncodedOn (v : TqVector P) : Option (Vector (Vector UInt8 384) P.K) :=
  Vector.ofFnM fun i => v.polys[i].byteEncodeOn B

/-- `byte_decode` of a vector. -/
def byteDecodeOn (bytes : List UInt8) : Option (TqVector P) := do
  return ⟨← Vector.ofFnM fun i => TqElement.byteDecodeOn B ((chunksExact 384 bytes)[i.val]?.getD [])⟩

end TqVector

/-- The product of a matrix with a column vector. -/
def TqMatrix.mulOn (a : TqMatrix P) (b : TqVector P) : TqVector P := ⟨Vector.ofFn fun i => a.rows[i].mulOn B b⟩

/-- The product of a matrix with a cached vector. -/
def TqMatrix.productOn (a : TqMatrix P) (b : CachedTqVector P) : TqVector P := ⟨Vector.ofFn fun i => a.rows[i].dotOn B b⟩

/-! ## The rejection sampler -/

namespace TqElement

/-- `from_reject_buffer`. -/
def fromRejectBufferOn (s : RejectState) : TqElement := newOn B (Vector.ofFn fun i => s.buffer[i.val]!)

/-- The body of the loop of `sample_ntt`. -/
def sampleNttPassOn (p : RejectState × Γ.shake128.Squeezing) : Option (RejectState × Γ.shake128.Squeezing) := do
  let (block, reader) := Γ.shake128.read p.2 168
  return (← B.reject block.toList p.1, reader)

/-- `sample_ntt`. -/
def sampleNttOn (rho : Vector UInt8 32) (i j : UInt8) : Option TqElement :=
  (While.runAttempt (fun p => p.1.count < N) (sampleNttPassOn Γ B) (emptyReject, Γ.xof rho i j)).map fun p =>
    fromRejectBufferOn B p.1

/-- `reject_into`. -/
def rejectIntoOn {size : Nat} (blocks : Vector (Vector UInt8 size) 4) (lanes : Vector RejectState 4) :
    Option (Vector RejectState 4 × Bool) := do
  let lanes ← Vector.ofFnM fun l => B.reject blocks[l].toList lanes[l]
  return (lanes, lanes.all fun s => decide (N ≤ s.count))

/-- The body of the loop of `sample_ntt_x4`. -/
def sampleNttX4PassOn (p : Γ.shake128X4.Squeezing × Vector RejectState 4 × Bool) :
    Option (Γ.shake128X4.Squeezing × Vector RejectState 4 × Bool) := do
  let (blocks, state) := Γ.shake128X4.squeeze p.1 168
  return (state, ← rejectIntoOn B blocks p.2.1)

/-- `sample_ntt_x4`. -/
def sampleNttX4On (rho : Vector UInt8 32) (indices : Vector (UInt8 × UInt8) 4) : Option (Vector TqElement 4) := do
  let (blocks, state) := Γ.shake128X4.squeeze (Γ.xofX4 rho indices) (3 * 168)
  let (lanes, done) ← rejectIntoOn B blocks (Vector.replicate 4 emptyReject)
  let p ← While.runAttempt (fun p => !p.2.2) (sampleNttX4PassOn Γ B) (state, lanes, done)
  return p.2.1.map (fromRejectBufferOn B)

end TqElement

namespace TqMatrix

/-- `next` of the entry iterator. -/
def nextEntryOn (rho : Vector UInt8 32) (k : Nat) : StateT EntryState Option (Option TqElement) := do
  let s ← get
  let s ←
    if s.taken = 4 then do
      let indices : Vector (UInt8 × UInt8) 4 := Vector.ofFn fun lane =>
        let n := s.next + lane.val
        (UInt8.ofNat (n % k), UInt8.ofNat (n / k))
      let batch ← TqElement.sampleNttX4On Γ B rho indices
      pure { next := s.next + 4, batch, taken := 0 : EntryState }
    else pure s
  set { s with taken := s.taken + 1 }
  return s.batch[s.taken]?

/-- `expand`. -/
def expandOn (rho : Vector UInt8 32) : Option (TqMatrix P) :=
  let row : StateT EntryState Option (TqVector P) := do
    return ⟨← Vector.ofFnM fun _ => do return (← nextEntryOn Γ B rho P.K).getD TqElement.zero⟩
  let matrix : StateT EntryState Option (TqMatrix P) := do
    return ⟨← Vector.ofFnM fun _ => row⟩
  matrix.run' { next := 0, batch := Vector.replicate 4 TqElement.zero, taken := 4 }

end TqMatrix

/-! ## K-PKE -/

/-- `Ciphertext::from_uv`. -/
def Ciphertext.fromUvOn (u : RqVector P) (v : RqElement) : Option (Ciphertext P) := do
  let staged : Vector UInt8 1568 := Vector.replicate 1568 0
  let staged ← u.polys.toList.zipIdx.foldlM (fun staged p => do
    return copyAt staged (32 * P.dU * p.2) ((← p.1.compressEncodeOn B P.dU).toList.take (32 * P.dU))) staged
  let staged := copyAt staged (32 * P.dU * P.K) ((← v.compressEncodeOn B P.dV).toList.take (32 * P.dV))
  return ⟨Vector.ofFn fun i => staged[i.val]?.getD 0⟩

namespace EncryptionKey

/-- `to_bytes`. -/
def toBytesOn (ek : EncryptionKey P) : Option (Vector UInt8 P.encapsKeySize) := do
  let assembled : Vector UInt8 1568 := Vector.replicate 1568 0
  let assembled := (← ek.tHat.byteEncodedOn B).toList.zipIdx.foldl
    (fun assembled p => copyAt assembled (384 * p.2) p.1.toList) assembled
  let assembled := copyAt assembled (384 * P.K) ek.rho.toList
  return Vector.ofFn fun i => assembled[i.val]?.getD 0

/-- `from_bytes`. -/
def fromBytesOn (bytes : List UInt8) : Option (EncryptionKey P) := do
  let tHat ← TqVector.byteDecodeOn B (bytes.take (384 * P.K))
  let rho := arrayOf 32 (bytes.drop (384 * P.K))
  let aHat : TqMatrix P ← TqMatrix.expandOn Γ B rho
  return { tHat, rho, aHatTranspose := aHat.transpose }

/-- `encrypt`. -/
def encryptOn (ek : EncryptionKey P) (message randomness : Vector UInt8 32) : Option (Ciphertext P) := do
  let y : RqVector P := (CbdSampler.sampleVector Γ
    (CbdSampler.new Γ P.eta1 randomness 0 (UInt8.ofNat P.K))).1
  let noise := CbdSampler.new Γ P.eta2 randomness (UInt8.ofNat P.K) (UInt8.ofNat P.K + 1)
  let (e1, noise) : RqVector P × CbdSampler := CbdSampler.sampleVector Γ noise
  let (e2, _) := CbdSampler.sampleElement Γ noise
  let yHat := CachedTqVector.of (← y.nttOn B)
  let u := (ek.aHatTranspose.productOn B yHat).nttInverseOn B + e1
  let mu ← RqElement.fromMessageOn B message
  let v := (ek.tHat.dotOn B yHat).nttInverseOn B + e2 + mu
  Ciphertext.fromUvOn B u v

end EncryptionKey

namespace DecryptionKey

/-- `to_bytes`. -/
def toBytesOn (dk : DecryptionKey P) : Option (Vector UInt8 P.decryptionKeySize) := do
  let bytes := ((← dk.sHat.vector.byteEncodedOn B).toList.map (·.toList)).flatten
  return Vector.ofFn fun i => bytes[i.val]?.getD 0

/-- `from_bytes`. -/
def fromBytesOn (bytes : List UInt8) : Option (DecryptionKey P) := do
  return ⟨CachedTqVector.of (← TqVector.byteDecodeOn B bytes)⟩

/-- `decrypt`. -/
def decryptOn (dk : DecryptionKey P) (ciphertext : Ciphertext P) : Option (Vector UInt8 32) := do
  let c1 := ciphertext.bytes.toList.take (32 * P.dU * P.K)
  let c2 := ciphertext.bytes.toList.drop (32 * P.dU * P.K)
  let u : RqVector P ← RqVector.decodeDecompressOn B c1 P.dU
  let v ← RqElement.decodeDecompressOn B c2 P.dV
  let w := v - ((← u.nttOn B).dotOn B dk.sHat).nttInverseOn B
  w.compressMessageOn B

end DecryptionKey

/-- `KeyPair::new_derand`. -/
def KeyPair.newDerandOn (seed : Vector UInt8 32) : Option (KeyPair P) := do
  let (rho, sigma) := Γ.G (seed.toList ++ [UInt8.ofNat P.K])
  let aHat : TqMatrix P ← TqMatrix.expandOn Γ B rho
  let noise := CbdSampler.new Γ P.eta1 sigma 0 (2 * UInt8.ofNat P.K)
  let (s, noise) : RqVector P × CbdSampler := CbdSampler.sampleVector Γ noise
  let (e, _) : RqVector P × CbdSampler := CbdSampler.sampleVector Γ noise
  let sHat := CachedTqVector.of (← s.nttOn B)
  let eHat ← e.nttOn B
  let tHat := (aHat.productOn B sHat).toMontgomery + eHat
  return { dkPke := ⟨sHat⟩, ekPke := { tHat, rho, aHatTranspose := aHat.transpose } }

/-! ## ML-KEM -/

namespace EncapsulationKey

/-- `EncapsulationKeyHash::from`. -/
def hashOn (ekPke : EncryptionKey P) : Option EncapsulationKeyHash := do
  return Γ.H (← ekPke.toBytesOn B).toList

/-- `From<EncryptionKey>`. -/
def ofOn (ekPke : EncryptionKey P) : Option (EncapsulationKey P) := do
  return ⟨ekPke, ← hashOn Γ B ekPke⟩

/-- `to_bytes`. -/
def toBytesOn (ek : EncapsulationKey P) : Option (Vector UInt8 P.encapsKeySize) := ek.ekPke.toBytesOn B

/-- `TryFrom<&[u8]>`. -/
def fromBytesOn (bytes : List UInt8) : Option (Except Error (EncapsulationKey P)) :=
  if bytes.length ≠ P.encapsKeySize then some (.error .invalidEncapsulationKeyLength)
  else do
    let ekPke : EncryptionKey P ← EncryptionKey.fromBytesOn Γ B bytes
    if (← ekPke.toBytesOn B).toList ≠ bytes then return .error .encapsulationKeyModulusCheckFailed
    return .ok (← ofOn Γ B ekPke)

/-- `encapsulate_derand`. -/
def encapsulateDerandOn (ek : EncapsulationKey P) (m : Vector UInt8 32) : Option (SharedSecret × Ciphertext P) := do
  let (k, r) := Γ.G (m.toList ++ ek.hEk.toList)
  return (k, ← ek.ekPke.encryptOn Γ B m r)

end EncapsulationKey

namespace DecapsulationKey

/-- `generate_derand`. -/
def generateDerandOn (seed : Vector UInt8 64) : Option (DecapsulationKey P) := do
  let d : Vector UInt8 32 := Vector.ofFn fun i => seed[i.castAdd 32]
  let z : Vector UInt8 32 := Vector.ofFn fun i => seed[i.natAdd 32]
  let pair : KeyPair P ← KeyPair.newDerandOn Γ B d
  let ek ← EncapsulationKey.ofOn Γ B pair.ekPke
  return { dkPke := pair.dkPke, ek, hEk := ek.hEk, z }

/-- `to_bytes`. -/
def toBytesOn (dk : DecapsulationKey P) : Option (Vector UInt8 P.decapsKeySize) := do
  let encoded : Vector UInt8 3168 := Vector.replicate 3168 0
  let encoded := copyAt encoded 0 (← dk.dkPke.toBytesOn B).toList
  let encoded := copyAt encoded P.decryptionKeySize (← dk.ek.ekPke.toBytesOn B).toList
  let encoded := copyAt encoded (P.decryptionKeySize + P.encryptionKeySize) dk.hEk.toList
  let encoded := copyAt encoded (P.decryptionKeySize + P.encryptionKeySize + 32) dk.z.toList
  return Vector.ofFn fun i => encoded[i.val]?.getD 0

/-- `TryFrom<&[u8]>`. -/
def fromBytesOn (bytes : List UInt8) : Option (Except Error (DecapsulationKey P)) :=
  if bytes.length ≠ P.decapsKeySize then some (.error .invalidDecapsulationKeyLength)
  else do
    let dkPkeBytes := bytes.take P.decryptionKeySize
    let rest := bytes.drop P.decryptionKeySize
    let ekBytes := rest.take P.encapsKeySize
    let rest := rest.drop P.encapsKeySize
    let hEkBytes := rest.take 32
    let zBytes := rest.drop 32
    let dkPke : DecryptionKey P ← DecryptionKey.fromBytesOn B dkPkeBytes
    let ekPke : EncryptionKey P ← EncryptionKey.fromBytesOn Γ B ekBytes
    let ek ← EncapsulationKey.ofOn Γ B ekPke
    let hEk := arrayOf 32 hEkBytes
    if ek.hEk ≠ hEk then return .error .decapsulationKeyHashMismatch
    return .ok { dkPke, ek, hEk, z := arrayOf 32 zBytes }

/-- `decapsulate`. -/
def decapsulateOn (dk : DecapsulationKey P) (ciphertext : Ciphertext P) : Option SharedSecret := do
  let mPrime ← dk.dkPke.decryptOn B ciphertext
  let (kPrime, rPrime) := Γ.G (mPrime.toList ++ dk.hEk.toList)
  let kBar := Γ.J dk.z ciphertext.bytes.toList
  let cPrime ← dk.ek.ekPke.encryptOn Γ B mPrime rPrime
  let matches' := ciphertext.ctEq Γ cPrime
  return Vector.zipWith (fun kp kb => Γ.conditionalSelect kb kp matches') kPrime kBar

end DecapsulationKey

end MlkemSelkie
