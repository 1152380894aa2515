import MlkemSelkie.Kem
import MlkemSelkie.Lib.SignedWords

/-!
# The arithmetic with its ranges checked

The arithmetic of the scalar backend once more, operation by operation, with the range of every result that the code leaves
to a wrapping or a narrowing word. A computation here has a value only when no operation on its way leaves its range:
sums and differences of elements, products and their sums, Montgomery reductions, the accumulators of a dot product, and
the inputs of the inverse transform.
-/

namespace MlkemSelkie

open Loops SignedWords

variable {P : ParameterSet} (Γ : Crates)

/-! ## The field -/

namespace FieldElement

/-- `Add`: the exact sum is a word. -/
def checkedAdd (a b : FieldElement) : Option FieldElement := check (Fits16 (a.toInt + b.toInt)) (a + b)

/-- `Sub`: the exact difference is a word. -/
def checkedSub (a b : FieldElement) : Option FieldElement := check (Fits16 (a.toInt - b.toInt)) (a - b)

/-- `montgomery_reduce`: neither `m * q` nor the difference leaves 32 bits, and the narrowed quotient is a word. -/
def checkedMontgomeryReduce (a : Int32) : Option Int16 :=
  let m := a.toInt16 * qInv
  let difference := a.toInt - m.toInt * 3329
  check (Fits32 (m.toInt * 3329) ∧ Fits32 difference ∧ Fits16 (difference / 65536)) (montgomeryReduce a)

/-- `widening_mul`: the product fits 32 bits. -/
def checkedWideningMul (a b : FieldElement) : Option Int32 := check (Fits32 (a.toInt * b.toInt)) (a.wideningMul b)

/-- `from_product_sum`. -/
def checkedFromProductSum (sum : Int32) : Option FieldElement := do
  return ⟨← checkedMontgomeryReduce sum⟩

/-- `from_product_sum` as a build with overflow checks runs it: the product and the difference fit 32 bits, and the cast
of the quotient truncates. -/
def debugFromProductSum (sum : Int32) : Option FieldElement :=
  let m := sum.toInt16 * qInv
  check (Fits32 (m.toInt * 3329) ∧ Fits32 (sum.toInt - m.toInt * 3329)) (fromProductSum sum)

/-- `Mul`. -/
def checkedMul (a b : FieldElement) : Option FieldElement := do
  return ⟨← checkedMontgomeryReduce (← a.checkedWideningMul b)⟩

/-- `to_montgomery`. -/
def checkedToMontgomery (a : FieldElement) : Option FieldElement := do
  return ⟨← checkedMontgomeryReduce (← a.checkedWideningMul ⟨montRSquared⟩)⟩

end FieldElement

/-! ## The kernels -/

namespace Poly.Generic

/-- The body of the innermost loop of `ntt`. -/
def checkedNttButterfly (zeta zetaBar : Int16) (len : Nat) (coefficients : Coefficients) (j : Nat) :
    Option Coefficients := do
  let t := coefficients[j + len]!.barrettConstMul zeta zetaBar
  let coefficients := coefficients.set! (j + len) (← coefficients[j]!.checkedSub t)
  return coefficients.set! j (← coefficients[j]!.checkedAdd t)

/-- One stage of `ntt`. -/
def checkedNttStage (s : Nat × Coefficients) (len : Nat) : Option (Nat × Coefficients) :=
  (stepBy 256 (2 * len)).foldlM (fun s start => do
    let zeta := zetaRaw[s.1]!.toInt16
    let zetaBar := zetaBarrett[s.1]!
    return (s.1 + 1, ← (List.range' start len).foldlM (checkedNttButterfly zeta zetaBar len) s.2)) s

/-- `ntt`. -/
def checkedNtt (coefficients : Coefficients) : Option Coefficients := do
  let s ← nttSeries.foldlM checkedNttStage (1, coefficients)
  return s.2.map FieldElement.reduce

/-- The body of the innermost loop of `ntt_inverse`, under any demand on the sums of a stage. -/
def nttInverseButterflyWith (ok : Nat → Int → Prop) [∀ len, DecidablePred (ok len)] (zeta zetaBar : Int16) (len : Nat)
    (coefficients : Coefficients) (j : Nat) : Option Coefficients := do
  let t := coefficients[j]!
  let sum ← check (ok len (t.toInt + coefficients[j + len]!.toInt)) (t + coefficients[j + len]!)
  let coefficients := coefficients.set! j (if len = 2 ∨ len = 16 then sum.reduce else sum)
  let difference ← coefficients[j + len]!.checkedSub t
  return coefficients.set! (j + len) (difference.barrettConstMul zeta zetaBar)

/-- One stage of `ntt_inverse`, under any demand on its sums. -/
def nttInverseStageWith (ok : Nat → Int → Prop) [∀ len, DecidablePred (ok len)] (s : Nat × Coefficients) (len : Nat) :
    Option (Nat × Coefficients) :=
  (stepBy 256 (2 * len)).foldlM (fun s start => do
    let zeta := zetaRaw[s.1]!.toInt16
    let zetaBar := zetaBarrett[s.1]!
    return (s.1 - 1, ← (List.range' start len).foldlM (nttInverseButterflyWith ok zeta zetaBar len) s.2)) s

/-- `ntt_inverse`, under any demand on the sums of a stage. -/
def nttInverseWith (ok : Nat → Int → Prop) [∀ len, DecidablePred (ok len)] (coefficients : Coefficients) :
    Option Coefficients := do
  let coefficients ← check (∀ i : Fin 256, coefficients[i].toInt.natAbs ≤ 16383) coefficients
  let s ← nttSeries.reverse.foldlM (nttInverseStageWith ok) (127, coefficients)
  Vector.ofFnM fun i => s.2[i].checkedMul nttInverseScale

/-- `ntt_inverse`: every input is at most 16383 in absolute value, and every sum a word. -/
def checkedNttInverse (coefficients : Coefficients) : Option Coefficients := nttInverseWith (fun _ => Fits16) coefficients

/-- What the lazy reduction demands: a sum is a word, and at most `8q` in absolute value in every stage but the first,
whose sums are reduced at once. -/
def LazySum (len : Nat) (sum : Int) : Prop := Fits16 sum ∧ (len = 2 ∨ sum.natAbs ≤ 8 * Q)

instance (len : Nat) : DecidablePred (LazySum len) := fun _ => inferInstanceAs (Decidable (_ ∧ _))

/-- Adds two products to a sum of an accumulator under any demand on the new sum: the products and their own sum fit 32
bits. -/
def accumulateWith (ok : Int → Prop) [DecidablePred ok] (sum : Int32) (p q : FieldElement × FieldElement) :
    Option Int32 := do
  let p ← p.1.checkedWideningMul p.2
  let q ← q.1.checkedWideningMul q.2
  let both ← check (Fits32 (p.toInt + q.toInt)) (p + q)
  check (ok (sum.toInt + both.toInt)) (sum + both)

/-- `basemul_accumulate`, under any demand on the sums. -/
def basemulAccumulateWith (ok : Int → Prop) [DecidablePred ok] (acc : ProductAccumulator) (f g : Coefficients)
    (cache : Vector FieldElement 128) : Option ProductAccumulator := do
  let even ← Vector.ofFnM fun i =>
    accumulateWith ok acc.even[i] (f[i.val]!, g[i.val]!) (f[128 + i.val]!, cache[i])
  let odd ← Vector.ofFnM fun i =>
    accumulateWith ok acc.odd[i] (f[i.val]!, g[128 + i.val]!) (f[128 + i.val]!, g[i.val]!)
  return { even, odd }

/-- What the accumulation demands: a sum stays within `12 q^2`. -/
def AccumulatorSum (sum : Int) : Prop := sum.natAbs ≤ 12 * 3329 ^ 2

instance : DecidablePred AccumulatorSum := fun _ => inferInstanceAs (Decidable (_ ≤ _))

/-- `multiply`. -/
def checkedMultiply (f g : Coefficients) : Option Coefficients :=
  Vector.ofFnM fun k => do
    if k.val < 128 then
      let low ← f[k.val]!.checkedMul g[k.val]!
      let high ← f[128 + k.val]!.checkedMul g[128 + k.val]!
      low.checkedAdd (← high.checkedMul gammaMont[k.val]!)
    else
      let low ← f[k.val - 128]!.checkedMul g[k.val]!
      low.checkedAdd (← f[k.val]!.checkedMul g[k.val - 128]!)

/-- `basemul_reduce`. -/
def checkedBasemulReduce (acc : ProductAccumulator) : Option Coefficients :=
  Vector.ofFnM fun k =>
    if k.val < 128 then FieldElement.checkedFromProductSum acc.even[k.val]!
    else FieldElement.checkedFromProductSum acc.odd[k.val - 128]!

end Poly.Generic

/-! ## Ring elements -/

namespace TqElement

/-- `ntt_inverse`. -/
def checkedNttInverse (t : TqElement) : Option RqElement := do
  return ⟨← Poly.Generic.checkedNttInverse (Poly.Generic.unpack t.inner)⟩

/-- `to_montgomery`. -/
def checkedToMontgomery (t : TqElement) : Option TqElement := do
  return ⟨← Vector.ofFnM fun i => t.inner[i].checkedToMontgomery⟩

/-- `mul_cache`. -/
def checkedMulCache (t : TqElement) : Option TqMulCache := do
  return ⟨← Vector.ofFnM fun i => t.inner[128 + i.val]!.checkedMul gammaMont[i]⟩

/-- `accumulated_dot`, under any demand on the sums. -/
def accumulatedDotWith (ok : Int → Prop) [DecidablePred ok] (f g : List TqElement) (caches : List TqMulCache) :
    Option TqElement := do
  let acc ← ((f.zip g).zip caches).foldlM
    (fun acc p => Poly.Generic.basemulAccumulateWith ok acc p.1.1.inner p.1.2.inner p.2.inner) ProductAccumulator.zero
  return ⟨← Poly.Generic.checkedBasemulReduce acc⟩

/-- `accumulated_dot`: every sum of an accumulator stays within `12 q^2`. -/
def checkedAccumulatedDot (f g : List TqElement) (caches : List TqMulCache) : Option TqElement :=
  accumulatedDotWith Poly.Generic.AccumulatorSum f g caches

/-- `Add`. -/
def checkedAdd (a b : TqElement) : Option TqElement := do
  return ⟨← Vector.ofFnM fun i => a.inner[i].checkedAdd b.inner[i]⟩

/-- `Mul`. -/
def checkedMul (a b : TqElement) : Option TqElement := do
  return ⟨← Poly.Generic.checkedMultiply a.inner b.inner⟩

end TqElement

namespace RqElement

/-- `ntt`. -/
def checkedNtt (f : RqElement) : Option TqElement := do
  return TqElement.new (← Poly.Generic.checkedNtt f.inner)

/-- `Add`. -/
def checkedAdd (a b : RqElement) : Option RqElement := do
  return ⟨← Vector.ofFnM fun i => a.inner[i].checkedAdd b.inner[i]⟩

/-- `Sub`. -/
def checkedSub (a b : RqElement) : Option RqElement := do
  return ⟨← Vector.ofFnM fun i => a.inner[i].checkedSub b.inner[i]⟩

/-- `sample_cbd_eta2`. -/
def checkedSampleCbdEta2 (bytes : List UInt8) : Option RqElement := do
  let mask := 0x55555555
  return ⟨← Vector.ofFnM fun i =>
    match (chunksExact 4 bytes)[i.val / 8]? with
    | none => some FieldElement.zero
    | some word =>
      let t := LittleEndian.ofBytes word
      let sums := (t &&& mask) + ((t >>> 1) &&& mask)
      let j := i.val % 8
      let a := (sums >>> (4 * j)) &&& 0x3
      let b := (sums >>> (4 * j + 2)) &&& 0x3
      (FieldElement.new (UInt16.ofNat a)).checkedSub (FieldElement.new (UInt16.ofNat b))⟩

/-- `sample_cbd_eta3`. -/
def checkedSampleCbdEta3 (bytes : List UInt8) : Option RqElement := do
  let mask := 0x00249249
  return ⟨← Vector.ofFnM fun i =>
    match (chunksExact 3 bytes)[i.val / 4]? with
    | none => some FieldElement.zero
    | some word =>
      let t := LittleEndian.ofBytes word
      let sums := (t &&& mask) + ((t >>> 1) &&& mask) + ((t >>> 2) &&& mask)
      let j := i.val % 4
      let a := (sums >>> (6 * j)) &&& 0x7
      let b := (sums >>> (6 * j + 3)) &&& 0x7
      (FieldElement.new (UInt16.ofNat a)).checkedSub (FieldElement.new (UInt16.ofNat b))⟩

/-- `sample_cbd`. -/
def checkedSampleCbd (eta : Eta) (bytes : List UInt8) : Option RqElement :=
  match eta with
  | .two => checkedSampleCbdEta2 bytes
  | .three => checkedSampleCbdEta3 bytes

end RqElement

namespace CbdSampler

/-- `sample_element`. -/
def checkedSampleElement : StateT CbdSampler Option RqElement := fun s => do
  let s :=
    if s.taken = s.batch.len then
      let batch := squeeze Γ s.eta s.seed s.next s.remaining
      { s with batch, next := s.next + UInt8.ofNat batch.len, taken := 0 }
    else s
  let lane := s.batch.lane s.taken
  let remaining := if s.remaining = 0 then 0 else s.remaining - 1
  return (← RqElement.checkedSampleCbd s.eta lane, { s with taken := s.taken + 1, remaining })

/-- `sample_vector`. -/
def checkedSampleVector : StateT CbdSampler Option (RqVector P) := do
  return ⟨← Vector.ofFnM fun _ => checkedSampleElement Γ⟩

end CbdSampler

/-! ## Vectors and matrices -/

/-- `ntt` of a vector. -/
def RqVector.checkedNtt (v : RqVector P) : Option (TqVector P) := do
  return ⟨← Vector.ofFnM fun i => v.polys[i].checkedNtt⟩

/-- `Add`. -/
def RqVector.checkedAdd (a b : RqVector P) : Option (RqVector P) := do
  return ⟨← Vector.ofFnM fun i => a.polys[i].checkedAdd b.polys[i]⟩

/-- `From<TqVector>`. -/
def CachedTqVector.checkedOf (vector : TqVector P) : Option (CachedTqVector P) := do
  return ⟨vector, ← Vector.ofFnM fun i => vector.polys[i].checkedMulCache⟩

namespace TqVector

/-- `ntt_inverse` of a vector. -/
def checkedNttInverse (v : TqVector P) : Option (RqVector P) := do
  return ⟨← Vector.ofFnM fun i => v.polys[i].checkedNttInverse⟩

/-- `to_montgomery` of a vector. -/
def checkedToMontgomery (v : TqVector P) : Option (TqVector P) := do
  return ⟨← Vector.ofFnM fun i => v.polys[i].checkedToMontgomery⟩

/-- `Add`. -/
def checkedAdd (a b : TqVector P) : Option (TqVector P) := do
  return ⟨← Vector.ofFnM fun i => a.polys[i].checkedAdd b.polys[i]⟩

/-- The dot product with a vector that has no caches. -/
def checkedMul (a b : TqVector P) : Option TqElement :=
  (a.polys.toList.zip b.polys.toList).foldlM (fun result p => do result.checkedAdd (← p.1.checkedMul p.2)) TqElement.zero

/-- The dot product with a cached vector, under any demand on the sums. -/
def dotWith (ok : Int → Prop) [DecidablePred ok] (a : TqVector P) (b : CachedTqVector P) : Option TqElement :=
  TqElement.accumulatedDotWith ok a.polys.toList b.vector.polys.toList b.caches.toList

/-- The dot product with a cached vector. -/
def checkedDot (a : TqVector P) (b : CachedTqVector P) : Option TqElement := a.dotWith Poly.Generic.AccumulatorSum b

end TqVector

/-- The product of a matrix with a cached vector. -/
def TqMatrix.checkedProduct (a : TqMatrix P) (b : CachedTqVector P) : Option (TqVector P) := do
  return ⟨← Vector.ofFnM fun i => a.rows[i].checkedDot b⟩

/-! ## K-PKE and ML-KEM -/

/-- `K-PKE.KeyGen`. -/
def KeyPair.checkedNewDerand (seed : Vector UInt8 32) : Option (KeyPair P) := do
  let (rho, sigma) := Γ.G (seed.toList ++ [UInt8.ofNat P.K])
  let aHat : TqMatrix P ← TqMatrix.expand Γ rho
  let noise := CbdSampler.new Γ P.eta1 sigma 0 (2 * UInt8.ofNat P.K)
  let (s, noise) : RqVector P × CbdSampler ← CbdSampler.checkedSampleVector Γ noise
  let (e, _) : RqVector P × CbdSampler ← CbdSampler.checkedSampleVector Γ noise
  let sHat ← CachedTqVector.checkedOf (← s.checkedNtt)
  let eHat ← e.checkedNtt
  let tHat ← (← (← aHat.checkedProduct sHat).checkedToMontgomery).checkedAdd eHat
  return { dkPke := ⟨sHat⟩, ekPke := { tHat, rho, aHatTranspose := aHat.transpose } }

/-- `K-PKE.Encrypt`. -/
def EncryptionKey.checkedEncrypt (ek : EncryptionKey P) (message randomness : Vector UInt8 32) : Option (Ciphertext P) := do
  let (y, _) : RqVector P × CbdSampler ← CbdSampler.checkedSampleVector Γ
    (CbdSampler.new Γ P.eta1 randomness 0 (UInt8.ofNat P.K))
  let noise := CbdSampler.new Γ P.eta2 randomness (UInt8.ofNat P.K) (UInt8.ofNat P.K + 1)
  let (e1, noise) : RqVector P × CbdSampler ← CbdSampler.checkedSampleVector Γ noise
  let (e2, _) ← CbdSampler.checkedSampleElement Γ noise
  let yHat ← CachedTqVector.checkedOf (← y.checkedNtt)
  let u ← (← (← ek.aHatTranspose.checkedProduct yHat).checkedNttInverse).checkedAdd e1
  let mu := RqElement.fromMessage message
  let v ← (← (← (← ek.tHat.checkedDot yHat).checkedNttInverse).checkedAdd e2).checkedAdd mu
  return Ciphertext.fromUv u v

/-- `K-PKE.Decrypt`. -/
def DecryptionKey.checkedDecrypt (dk : DecryptionKey P) (ciphertext : Ciphertext P) : Option (Vector UInt8 32) := do
  let c1 := ciphertext.bytes.toList.take (32 * P.dU * P.K)
  let c2 := ciphertext.bytes.toList.drop (32 * P.dU * P.K)
  let u : RqVector P := RqVector.decodeDecompress c1 P.dU
  let v := RqElement.decodeDecompress c2 P.dV
  let w ← v.checkedSub (← (← (← u.checkedNtt).checkedDot dk.sHat).checkedNttInverse)
  return w.compressMessage

/-- `ML-KEM.KeyGen_internal`. -/
def DecapsulationKey.checkedGenerateDerand (seed : Vector UInt8 64) : Option (DecapsulationKey P) := do
  let d : Vector UInt8 32 := Vector.ofFn fun i => seed[i.castAdd 32]
  let z : Vector UInt8 32 := Vector.ofFn fun i => seed[i.natAdd 32]
  let pair : KeyPair P ← KeyPair.checkedNewDerand Γ d
  let ek := EncapsulationKey.of Γ pair.ekPke
  return { dkPke := pair.dkPke, ek, hEk := ek.hEk, z }

/-- `ML-KEM.Encaps_internal`. -/
def EncapsulationKey.checkedEncapsulateDerand (ek : EncapsulationKey P) (m : Vector UInt8 32) :
    Option (SharedSecret × Ciphertext P) := do
  let (k, r) := Γ.G (m.toList ++ ek.hEk.toList)
  return (k, ← ek.ekPke.checkedEncrypt Γ m r)

/-- `ML-KEM.Decaps`. -/
def DecapsulationKey.checkedDecapsulate (dk : DecapsulationKey P) (ciphertext : Ciphertext P) : Option SharedSecret := do
  let mPrime ← dk.dkPke.checkedDecrypt ciphertext
  let (kPrime, rPrime) := Γ.G (mPrime.toList ++ dk.hEk.toList)
  let kBar := Γ.J dk.z ciphertext.bytes.toList
  let cPrime ← dk.ek.ekPke.checkedEncrypt Γ mPrime rPrime
  let matches' := ciphertext.ctEq Γ cPrime
  return Vector.zipWith (fun kp kb => Γ.conditionalSelect kb kp matches') kPrime kBar

end MlkemSelkie
