import MlkemSelkie.Encoding

/-!
# The oracles of the property tests

`tests/algebraic_properties.rs`: the reference multiplication of Rq in the canonical values, and the elements that the
generators of the property tests build.
-/

namespace MlkemSelkie

/-- `rq`: an element of Rq from 256 values. -/
def rq (coeffs : Vector UInt16 N) : RqElement := ⟨coeffs.map FieldElement.new⟩

/-- An element of Tq from 256 values. -/
def tq (coeffs : Vector UInt16 N) : TqElement := TqElement.new (coeffs.map FieldElement.new)

/-- The body of the innermost loop of `schoolbook`. -/
def schoolbookStep (f g : Vector UInt16 N) (i : Nat) (result : Coefficients) (j : Nat) : Coefficients :=
  let product := (FieldElement.new f[i]!).mulReference (FieldElement.new g[j]!)
  let k := i + j
  if k < N then result.set! k (result[k]! + product).reduce
  else result.set! (k - N) (result[k - N]! - product).reduce

/-- `schoolbook`: multiplication modulo `X^256 + 1`, every sum reduced. -/
def schoolbook (f g : Vector UInt16 N) : RqElement :=
  ⟨(List.range N).foldl (fun result i => (List.range N).foldl (schoolbookStep f g i) result)
    (Vector.replicate N FieldElement.zero)⟩

end MlkemSelkie
