import Mathlib.Algebra.BigOperators.Fin
import MlkemSelkie.Fips.Sampling

/-!
# ML-KEM in FIPS 203

The component scheme K-PKE (Algorithms 13 to 15) and the internal algorithms of ML-KEM (Algorithms 16 to 18), on byte
strings. The parameters and the hash functions are arguments; the extendable-output function is its unbounded stream.
-/

namespace Fips203

/-- A parameter set. -/
structure Params where
  k : Nat
  eta1 : Nat
  eta2 : Nat
  du : Nat
  dv : Nat

/-- The symmetric primitives of section 4.1. -/
structure Hashes where
  G : List UInt8 → Vector UInt8 32 × Vector UInt8 32
  H : List UInt8 → Vector UInt8 32
  J : List UInt8 → Vector UInt8 32
  PRF : Nat → Vector UInt8 32 → UInt8 → List UInt8
  XOF : List UInt8 → Nat → UInt8

variable (p : Params) (h : Hashes)

/-- The matrix of a seed: `A[i][j] = SampleNTT(rho ‖ j ‖ i)`. -/
noncomputable def matrix (rho : List UInt8) (i j : Fin p.k) : Tq :=
  sampleNtt (h.XOF (rho ++ [UInt8.ofNat j.val, UInt8.ofNat i.val]))

/-- The noise polynomial of the stream `b` of a seed. -/
def noise (eta : Nat) (seed : Vector UInt8 32) (b : Nat) : Rq := samplePolyCbd eta (h.PRF eta seed (UInt8.ofNat b))

/-- `ByteEncode_12` of every component, concatenated. -/
def encodeVector {k : Nat} (v : Fin k → Tq) : List UInt8 :=
  (List.ofFn fun i => byteEncode 12 fun j => (v i j).val).flatten

/-- `ByteDecode_12` of the component `i` of a byte string. -/
def decodeVector (bytes : List UInt8) (i : Nat) : Tq := fun j => byteDecode 12 ((bytes.drop (384 * i)).take 384) j

/-- Algorithm 13: `K-PKE.KeyGen`, the encryption and the decryption key. -/
noncomputable def kpkeKeyGen (d : Vector UInt8 32) : List UInt8 × List UInt8 :=
  let rho := (h.G (d.toList ++ [UInt8.ofNat p.k])).1
  let sigma := (h.G (d.toList ++ [UInt8.ofNat p.k])).2
  let A := matrix p h rho.toList
  let s := fun i : Fin p.k => noise h p.eta1 sigma i
  let e := fun i : Fin p.k => noise h p.eta1 sigma (p.k + i)
  let sHat := fun i => ntt (s i)
  let tHat := fun i => ∑ j, multiplyNtts (A i j) (sHat j) + ntt (e i)
  (encodeVector tHat ++ rho.toList, encodeVector sHat)

/-- The pair `(u, v)` that `K-PKE.Encrypt` compresses. -/
noncomputable def kpkeCore (ek m : List UInt8) (r : Vector UInt8 32) : (Fin p.k → Rq) × Rq :=
  let tHat := fun i : Fin p.k => decodeVector ek i
  let A := matrix p h ((ek.drop (384 * p.k)).take 32)
  let yHat := fun i : Fin p.k => ntt (noise h p.eta1 r i)
  let e1 := fun i : Fin p.k => noise h p.eta2 r (p.k + i)
  let e2 := noise h p.eta2 r (2 * p.k)
  let mu : Rq := fun i => decompress 1 (byteDecode 1 m i)
  let u := fun i => nttInverse (∑ j, multiplyNtts (A j i) (yHat j)) + e1 i
  let v := nttInverse (∑ j, multiplyNtts (tHat j) (yHat j)) + e2 + mu
  (u, v)

/-- The byte string of a compressed pair. -/
def compressPair (u : Fin p.k → Rq) (v : Rq) : List UInt8 :=
  (List.ofFn fun i => byteEncode p.du fun j => compress p.du (u i j)).flatten ++
    byteEncode p.dv fun j => compress p.dv (v j)

/-- Algorithm 14: `K-PKE.Encrypt`. -/
noncomputable def kpkeEncrypt (ek m : List UInt8) (r : Vector UInt8 32) : List UInt8 :=
  compressPair p (kpkeCore p h ek m r).1 (kpkeCore p h ek m r).2

/-- The component `i` of the decompressed vector of a ciphertext. -/
def decompressU (c : List UInt8) (i : Nat) : Rq := fun j =>
  decompress p.du (byteDecode p.du ((c.drop (32 * p.du * i)).take (32 * p.du)) j)

/-- The decompressed polynomial of a ciphertext. -/
def decompressV (c : List UInt8) : Rq := fun j => decompress p.dv (byteDecode p.dv (c.drop (32 * p.du * p.k)) j)

/-- Algorithm 15: `K-PKE.Decrypt`. -/
def kpkeDecrypt (dk c : List UInt8) : List UInt8 :=
  let sHat := fun i : Fin p.k => decodeVector dk i
  let w := decompressV p c - nttInverse (∑ i : Fin p.k, multiplyNtts (sHat i) (ntt (decompressU p c i)))
  byteEncode 1 fun j => compress 1 (w j)

/-- Algorithm 16: `ML-KEM.KeyGen_internal`, the encapsulation and the decapsulation key. -/
noncomputable def keyGen (d z : Vector UInt8 32) : List UInt8 × List UInt8 :=
  let ek := (kpkeKeyGen p h d).1
  let dkPke := (kpkeKeyGen p h d).2
  (ek, dkPke ++ ek ++ (h.H ek).toList ++ z.toList)

/-- Algorithm 17: `ML-KEM.Encaps_internal`, the shared secret and the ciphertext. -/
noncomputable def encaps (ek : List UInt8) (m : Vector UInt8 32) : Vector UInt8 32 × List UInt8 :=
  let K := (h.G (m.toList ++ (h.H ek).toList)).1
  let r := (h.G (m.toList ++ (h.H ek).toList)).2
  (K, kpkeEncrypt p h ek m.toList r)

/-- Algorithm 18: `ML-KEM.Decaps_internal`. -/
noncomputable def decaps (dk c : List UInt8) : Vector UInt8 32 :=
  let dkPke := dk.take (384 * p.k)
  let ek := (dk.drop (384 * p.k)).take (384 * p.k + 32)
  let hEk := (dk.drop (768 * p.k + 32)).take 32
  let z := (dk.drop (768 * p.k + 64)).take 32
  let m' := kpkeDecrypt p dkPke c
  let K' := (h.G (m' ++ hEk)).1
  let r' := (h.G (m' ++ hEk)).2
  let c' := kpkeEncrypt p h ek m' r'
  if c = c' then K' else h.J (z ++ c)

end Fips203
