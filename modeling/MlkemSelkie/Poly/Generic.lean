import MlkemSelkie.Lib.Loops
import MlkemSelkie.Poly.Arch

/-!
# The portable polynomial kernels

`algebraic/poly/arch/generic.rs`. A loop over positions that only writes its own position is written as a map; the two
transforms, which update the array in place, are folds over the same ranges as the source's loops.
-/

namespace MlkemSelkie.Poly.Generic

open Loops

/-- `NTT_SERIES`: the strides of the stages, in the direction of the forward transform. -/
def nttSeries : List Nat := [128, 64, 32, 16, 8, 4, 2]

/-- `NTT_INVERSE_SCALE`: `128^-1 * R^2 mod q`. -/
def nttInverseScale : FieldElement := FieldElement.fromMontgomeryTable 1441

/-- The body of the innermost loop of `ntt`. -/
def nttButterfly (zeta zetaBar : Int16) (len : Nat) (coefficients : Coefficients) (j : Nat) : Coefficients :=
  let t := coefficients[j + len]!.barrettConstMul zeta zetaBar
  let coefficients := coefficients.set! (j + len) (coefficients[j]! - t)
  coefficients.set! j (coefficients[j]! + t)

/-- One stage of `ntt`: every block takes the next zeta. The state is the zeta index `k` and the coefficients. -/
def nttStage (s : Nat × Coefficients) (len : Nat) : Nat × Coefficients :=
  (stepBy 256 (2 * len)).foldl (fun s start =>
    let zeta := zetaRaw[s.1]!.toInt16
    let zetaBar := zetaBarrett[s.1]!
    (s.1 + 1, (List.range' start len).foldl (nttButterfly zeta zetaBar len) s.2)) s

/-- The forward transform, and the final reduction of every coefficient. -/
def ntt (coefficients : Coefficients) : Coefficients :=
  (nttSeries.foldl nttStage (1, coefficients)).2.map FieldElement.reduce

/-- The body of the innermost loop of `ntt_inverse`: only the len-2 and len-16 stages reduce. -/
def nttInverseButterfly (zeta zetaBar : Int16) (len : Nat) (coefficients : Coefficients) (j : Nat) : Coefficients :=
  let t := coefficients[j]!
  let sum := t + coefficients[j + len]!
  let coefficients := coefficients.set! j (if len = 2 ∨ len = 16 then sum.reduce else sum)
  coefficients.set! (j + len) ((coefficients[j + len]! - t).barrettConstMul zeta zetaBar)

/-- One stage of `ntt_inverse`: the zeta index counts down. -/
def nttInverseStage (s : Nat × Coefficients) (len : Nat) : Nat × Coefficients :=
  (stepBy 256 (2 * len)).foldl (fun s start =>
    let zeta := zetaRaw[s.1]!.toInt16
    let zetaBar := zetaBarrett[s.1]!
    (s.1 - 1, (List.range' start len).foldl (nttInverseButterfly zeta zetaBar len) s.2)) s

/-- The inverse transform, and the final scale of every coefficient. -/
def nttInverse (coefficients : Coefficients) : Coefficients :=
  (nttSeries.reverse.foldl nttInverseStage (127, coefficients)).2.map (· * nttInverseScale)

/-- `Compress_d` of every coefficient. -/
def compress (coefficients : Coefficients) (d : Nat) : Vector UInt16 N :=
  coefficients.map (·.compress d)

/-- `Decompress_d` of every value. -/
def decompress (values : Vector UInt16 N) (d : Nat) : Coefficients :=
  values.map (FieldElement.decompress · d)

/-- The canonical representative of every coefficient of an evens-then-odds storage, in natural order. -/
def canonical (coefficients : Coefficients) : Vector UInt16 N :=
  Vector.ofFn fun k => coefficients[(k.val % 2) * 128 + k.val / 2]!.value

/-- Base multiplication: 128 degree-one products modulo `X^2 - gamma`, scaled by `R^-1`. -/
def multiply (f g : Coefficients) : Coefficients :=
  Vector.ofFn fun k =>
    if k.val < 128 then
      f[k.val]! * g[k.val]! + f[128 + k.val]! * g[128 + k.val]! * gammaMont[k.val]!
    else
      f[k.val - 128]! * g[k.val]! + f[k.val]! * g[k.val - 128]!

/-- Splits natural coefficient order into the evens-then-odds storage. -/
def pack (natural : Coefficients) : Coefficients :=
  Vector.ofFn fun k => if k.val < 128 then natural[2 * k.val]! else natural[2 * (k.val - 128) + 1]!

/-- Re-interleaves the evens-then-odds storage to natural order. -/
def unpack (halves : Coefficients) : Coefficients :=
  Vector.ofFn fun k => halves[(k.val % 2) * 128 + k.val / 2]!

/-- Accumulates one component of a dot product: raw products, no reduction. -/
def basemulAccumulate (acc : ProductAccumulator) (f g : Coefficients) (cache : Vector FieldElement 128) :
    ProductAccumulator where
  even := Vector.ofFn fun i => acc.even[i] + (f[i.val]!.wideningMul g[i.val]! + f[128 + i.val]!.wideningMul cache[i])
  odd := Vector.ofFn fun i => acc.odd[i] + (f[i.val]!.wideningMul g[128 + i.val]! + f[128 + i.val]!.wideningMul g[i.val]!)

/-- Montgomery-reduces the accumulated sums into the storage halves. -/
def basemulReduce (acc : ProductAccumulator) : Coefficients :=
  Vector.ofFn fun k =>
    if k.val < 128 then FieldElement.fromProductSum acc.even[k.val]! else FieldElement.fromProductSum acc.odd[k.val - 128]!

end MlkemSelkie.Poly.Generic

namespace MlkemSelkie.Poly

open Loops

/-- The body of the innermost loop of the scalar head that the vector kernels have of `ntt_inverse`: only the len-2
stage reduces. -/
def headButterfly (zeta zetaBar : Int16) (len : Nat) (coefficients : Coefficients) (j : Nat) : Coefficients :=
  let t := coefficients[j]!
  let sum := t + coefficients[j + len]!
  let coefficients := coefficients.set! j (if len = 2 then sum.reduce else sum)
  coefficients.set! (j + len) ((coefficients[j + len]! - t).barrettConstMul zeta zetaBar)

/-- One stage of the scalar head. -/
def headStage (s : Nat × Coefficients) (len : Nat) : Nat × Coefficients :=
  (stepBy 256 (2 * len)).foldl (fun s start =>
    let zeta := zetaRaw[s.1]!.toInt16
    let zetaBar := zetaBarrett[s.1]!
    (s.1 - 1, (List.range' start len).foldl (headButterfly zeta zetaBar len) s.2)) s

end MlkemSelkie.Poly
