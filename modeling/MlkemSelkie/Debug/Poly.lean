import MlkemSelkie.Checked
import MlkemSelkie.Lib.Runs

/-!
# The code as a build with its assertions runs it

The portable backend once more, with every operation that can panic in a build with debug assertions and overflow
checks: asserted lengths and counts, signed and unsigned arithmetic outside the wrapping operations, indices, splits of
a slice, copies between slices, chunks and conversions of a chunk to an array. A sampling loop may run without end, and
a fallback that the source calls unreachable stops a run here, so that a run that comes to a value never took one.
`usize` has at least 16 bits.
-/

namespace MlkemSelkie

open Runs SignedWords

variable {P : ParameterSet} (Γ : Crates)

/-- A sum of `usize`s. -/
def usize (x : Nat) : Run Nat := below (2 ^ 16) x

/-! ## The field -/

namespace FieldElement

/-- `new`. -/
def debugNew (value : UInt16) : Run FieldElement := do
  let product ← below (2 ^ 64) (value.toNat * barrettDivQ)
  let multiple ← below (2 ^ 64) (product >>> 33 * Q)
  let rest ← sub value.toNat multiple
  return ⟨Int16.ofInt (rest : Int)⟩

/-- `barrett`: the product and the sum fit 32 bits. -/
def debugBarrett (a : Int16) : Run Int16 :=
  lift .panic (check (Fits32 (20159 * a.toInt) ∧ Fits32 (20159 * a.toInt + 2 ^ 25)) (barrett a))

/-- `montgomery_reduce`: the product and the difference fit 32 bits. -/
def debugMontgomeryReduce (a : Int32) : Run Int16 :=
  let m := a.toInt16 * qInv
  lift .panic (check (Fits32 (m.toInt * 3329) ∧ Fits32 (a.toInt - m.toInt * 3329)) (montgomeryReduce a))

/-- `value`: the corrected representative fits 16 bits. -/
def debugValue (a : FieldElement) : Run UInt16 := do
  let r ← debugBarrett a.rep
  let correction := (r >>> 15) &&& qI16
  lift .panic (check (Fits16 (r.toInt + correction.toInt)) (r + correction).toUInt16)

/-- `reduce`. -/
def debugReduce (a : FieldElement) : Run FieldElement := do
  return ⟨← debugBarrett a.rep⟩

/-- `widening_mul`: the product fits 32 bits. -/
def debugWideningMul (a b : FieldElement) : Run Int32 := lift .panic (a.checkedWideningMul b)

/-- `Mul`. -/
def debugMul (a b : FieldElement) : Run FieldElement := do
  return ⟨← debugMontgomeryReduce (← a.debugWideningMul b)⟩

/-- `to_montgomery`. -/
def debugToMontgomery (a : FieldElement) : Run FieldElement := do
  return ⟨← debugMontgomeryReduce (← a.debugWideningMul ⟨montRSquared⟩)⟩

/-- `barrett_const_mul`: the product with the multiplier and the rounded product fit 32 bits. -/
def debugBarrettConstMul (x : FieldElement) (b bBar : Int16) : Run FieldElement :=
  lift .panic (check (Fits32 (x.toInt * bBar.toInt) ∧ Fits32 (x.toInt * bBar.toInt + 0x4000)) (x.barrettConstMul b bBar))

/-- `compress`: a shift by less than 32, and a numerator and a product that fit their words. -/
def debugCompress (x : FieldElement) (d : Nat) : Run UInt16 := do
  let value ← x.debugValue
  assert (d < 32)
  let numerator ← below (2 ^ 32) ((value.toNat <<< d) % 2 ^ 32 + Q / 2)
  let product ← below (2 ^ 64) (numerator * barrettDivQ)
  let mask ← sub ((1 <<< d) % 2 ^ 32) 1
  return UInt16.ofNat (product >>> 33 % 2 ^ 32 &&& mask)

/-- `decompress`: shifts by less than 32, and a numerator that fits its word. -/
def debugDecompress (value : UInt16) (d : Nat) : Run FieldElement := do
  let product ← below (2 ^ 32) (Q * value.toNat)
  let shift ← sub d 1
  assert (shift < 32)
  let numerator ← below (2 ^ 32) (product + (1 <<< shift) % 2 ^ 32)
  assert (d < 32)
  debugNew (UInt16.ofNat (numerator >>> d))

end FieldElement

/-! ## The kernels -/

namespace Poly.Generic

/-- The body of the innermost loop of `ntt`. -/
def debugNttButterfly (zeta zetaBar : Int16) (len : Nat) (coefficients : Coefficients) (j : Nat) : Run Coefficients := do
  let t ← (← readAt coefficients (j + len)).debugBarrettConstMul zeta zetaBar
  let coefficients ← writeAt coefficients (j + len) ((← readAt coefficients j) - t)
  writeAt coefficients j ((← readAt coefficients j) + t)

/-- One stage of `ntt`. -/
def debugNttStage (s : Nat × Coefficients) (len : Nat) : Run (Nat × Coefficients) := do
  let starts ← stepBy 256 (2 * len)
  starts.foldlM (fun s start => do
    let zeta := (← readAt zetaRaw s.1).toInt16
    let zetaBar ← readAt zetaBarrett s.1
    let k ← usize (s.1 + 1)
    return (k, ← (List.range' start len).foldlM (debugNttButterfly zeta zetaBar len) s.2)) s

/-- `ntt`. -/
def debugNtt (coefficients : Coefficients) : Run Coefficients := do
  let s ← nttSeries.foldlM debugNttStage (1, coefficients)
  Vector.ofFnM fun i => s.2[i].debugReduce

/-- The sum of a butterfly of `ntt_inverse`: only the len-2 and len-16 stages reduce. -/
def debugLazySum (len : Nat) (x y : FieldElement) : Run FieldElement :=
  if len = 2 ∨ len = 16 then (x + y).debugReduce else .ok (x + y)

/-- The body of the innermost loop of `ntt_inverse`. -/
def debugNttInverseButterfly (zeta zetaBar : Int16) (len : Nat) (coefficients : Coefficients) (j : Nat) :
    Run Coefficients := do
  let t ← readAt coefficients j
  let sum ← debugLazySum len t (← readAt coefficients (j + len))
  let coefficients ← writeAt coefficients j sum
  let upper ← readAt coefficients (j + len)
  writeAt coefficients (j + len) (← (upper - t).debugBarrettConstMul zeta zetaBar)

/-- One stage of `ntt_inverse`. -/
def debugNttInverseStage (s : Nat × Coefficients) (len : Nat) : Run (Nat × Coefficients) := do
  let starts ← stepBy 256 (2 * len)
  starts.foldlM (fun s start => do
    let zeta := (← readAt zetaRaw s.1).toInt16
    let zetaBar ← readAt zetaBarrett s.1
    let k ← sub s.1 1
    return (k, ← (List.range' start len).foldlM (debugNttInverseButterfly zeta zetaBar len) s.2)) s

/-- `ntt_inverse`. -/
def debugNttInverse (coefficients : Coefficients) : Run Coefficients := do
  let s ← nttSeries.reverse.foldlM debugNttInverseStage (127, coefficients)
  Vector.ofFnM fun i => s.2[i].debugMul nttInverseScale

/-- `compress`. -/
def debugCompress (coefficients : Coefficients) (d : Nat) : Run (Vector UInt16 N) :=
  Vector.ofFnM fun i => coefficients[i].debugCompress d

/-- `decompress`. -/
def debugDecompress (values : Vector UInt16 N) (d : Nat) : Run Coefficients :=
  Vector.ofFnM fun i => FieldElement.debugDecompress values[i] d

/-- `canonical`. -/
def debugCanonical (coefficients : Coefficients) : Run (Vector UInt16 N) :=
  (List.range 128).foldlM (fun natural i => do
    let natural ← writeAt natural (2 * i) (← (← readAt coefficients i).debugValue)
    writeAt natural (2 * i + 1) (← (← readAt coefficients (128 + i)).debugValue)) (Vector.replicate N 0)

/-- `multiply`. -/
def debugMultiply (f g : Coefficients) : Run Coefficients :=
  (List.range 128).foldlM (fun h i => do
    let gamma ← readAt gammaMont i
    let low ← (← readAt f i).debugMul (← readAt g i)
    let high ← (← (← readAt f (128 + i)).debugMul (← readAt g (128 + i))).debugMul gamma
    let h ← writeAt h i (low + high)
    let low ← (← readAt f i).debugMul (← readAt g (128 + i))
    let high ← (← readAt f (128 + i)).debugMul (← readAt g i)
    writeAt h (128 + i) (low + high)) (Vector.replicate N FieldElement.zero)

/-- `pack`. -/
def debugPack (natural : Coefficients) : Run Coefficients :=
  (List.range 128).foldlM (fun halves i => do
    let halves ← writeAt halves i (← readAt natural (2 * i))
    writeAt halves (128 + i) (← readAt natural (2 * i + 1))) (Vector.replicate N FieldElement.zero)

/-- `unpack`. -/
def debugUnpack (halves : Coefficients) : Run Coefficients :=
  (List.range 128).foldlM (fun natural i => do
    let natural ← writeAt natural (2 * i) (← readAt halves i)
    writeAt natural (2 * i + 1) (← readAt halves (128 + i))) (Vector.replicate N FieldElement.zero)

/-- The body of the loop of `basemul_accumulate`: the products, their sum and the sums of the accumulator fit 32 bits. -/
def debugBasemulPair (f g : Coefficients) (cache : Vector FieldElement 128) (acc : ProductAccumulator) (i : Nat) :
    Run ProductAccumulator := do
  let even ← readAt acc.even i
  let even ← lift .panic (accumulateWith Fits32 even (← readAt f i, ← readAt g i) (← readAt f (128 + i), ← readAt cache i))
  let evens ← writeAt acc.even i even
  let odd ← readAt acc.odd i
  let odd ← lift .panic (accumulateWith Fits32 odd (← readAt f i, ← readAt g (128 + i)) (← readAt f (128 + i), ← readAt g i))
  return { even := evens, odd := ← writeAt acc.odd i odd }

/-- `basemul_accumulate`. -/
def debugBasemulAccumulate (acc : ProductAccumulator) (f g : Coefficients) (cache : Vector FieldElement 128) :
    Run ProductAccumulator :=
  (List.range 128).foldlM (debugBasemulPair f g cache) acc

/-- `basemul_reduce`. -/
def debugBasemulReduce (acc : ProductAccumulator) : Run Coefficients :=
  (List.range 128).foldlM (fun h i => do
    let h ← writeAt h i (← lift .panic (FieldElement.debugFromProductSum (← readAt acc.even i)))
    writeAt h (128 + i) (← lift .panic (FieldElement.debugFromProductSum (← readAt acc.odd i))))
    (Vector.replicate N FieldElement.zero)

end Poly.Generic

/-! ## Ring elements, vectors and matrices -/

namespace TqElement

/-- `new`. -/
def debugNew (coefficients : Coefficients) : Run TqElement := do
  return ⟨← Poly.Generic.debugPack coefficients⟩

/-- `ntt_inverse`. -/
def debugNttInverse (t : TqElement) : Run RqElement := do
  return ⟨← Poly.Generic.debugNttInverse (← Poly.Generic.debugUnpack t.inner)⟩

/-- `to_montgomery`. -/
def debugToMontgomery (t : TqElement) : Run TqElement := do
  return ⟨← Vector.ofFnM fun i => t.inner[i].debugToMontgomery⟩

/-- `mul_cache`. -/
def debugMulCache (t : TqElement) : Run TqMulCache := do
  return ⟨← Vector.ofFnM fun i : Fin 128 => do (← readAt t.inner (128 + i.val)).debugMul (← readAt gammaMont i.val)⟩

/-- `Mul`. -/
def debugMul (a b : TqElement) : Run TqElement := do
  return ⟨← Poly.Generic.debugMultiply a.inner b.inner⟩

/-- `accumulated_dot`. -/
def debugAccumulatedDot (f g : List TqElement) (caches : List TqMulCache) : Run TqElement := do
  let acc ← ((f.zip g).zip caches).foldlM
    (fun acc p => Poly.Generic.debugBasemulAccumulate acc p.1.1.inner p.1.2.inner p.2.inner) ProductAccumulator.zero
  return ⟨← Poly.Generic.debugBasemulReduce acc⟩

end TqElement

/-- `ntt`. -/
def RqElement.debugNtt (f : RqElement) : Run TqElement := do
  TqElement.debugNew (← Poly.Generic.debugNtt f.inner)

/-- `ntt` of a vector. -/
def RqVector.debugNtt (v : RqVector P) : Run (TqVector P) := do
  return ⟨← Vector.ofFnM fun i : Fin P.K => do (← readAt v.polys i.val).debugNtt⟩

/-- `From<TqVector>`. -/
def CachedTqVector.debugOf (vector : TqVector P) : Run (CachedTqVector P) := do
  return ⟨vector, ← Vector.ofFnM fun i : Fin P.K => do (← readAt vector.polys i.val).debugMulCache⟩

namespace TqVector

/-- `ntt_inverse` of a vector. -/
def debugNttInverse (v : TqVector P) : Run (RqVector P) := do
  return ⟨← Vector.ofFnM fun i : Fin P.K => do (← readAt v.polys i.val).debugNttInverse⟩

/-- `to_montgomery` of a vector. -/
def debugToMontgomery (v : TqVector P) : Run (TqVector P) := do
  return ⟨← Vector.ofFnM fun i : Fin P.K => do (← readAt v.polys i.val).debugToMontgomery⟩

/-- The dot product with a cached vector. -/
def debugDot (a : TqVector P) (b : CachedTqVector P) : Run TqElement :=
  TqElement.debugAccumulatedDot a.polys.toList b.vector.polys.toList b.caches.toList

end TqVector

namespace TqMatrix

/-- `transpose`. -/
def debugTranspose (a : TqMatrix P) : Run (TqMatrix P) := do
  return ⟨← Vector.ofFnM fun j : Fin P.K => do
    return ⟨← Vector.ofFnM fun i : Fin P.K => do readAt (← readAt a.rows i.val).polys j.val⟩⟩

/-- The product with a cached vector. -/
def debugProduct (a : TqMatrix P) (b : CachedTqVector P) : Run (TqVector P) := do
  return ⟨← Vector.ofFnM fun i : Fin P.K => do (← readAt a.rows i.val).debugDot b⟩

end TqMatrix

end MlkemSelkie
