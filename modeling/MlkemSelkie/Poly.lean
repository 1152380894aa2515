import MlkemSelkie.Poly.Generic

/-!
# The polynomial rings Rq and Tq

`algebraic/poly.rs` on the portable backend: `RqElement` is the standard domain, `TqElement` the transform's, stored
evens-then-odds. The two are distinct types, so an element of one cannot be used as an element of the other.
-/

namespace MlkemSelkie

open MlkemSelkie.Poly

/-- An element of Rq, in natural coefficient order. -/
structure RqElement where
  inner : Coefficients
  deriving DecidableEq, Inhabited

/-- An element of Tq: the 128 even coefficients, then the 128 odd ones. -/
structure TqElement where
  inner : Coefficients
  deriving DecidableEq, Inhabited

/-- The base-multiplication cache of an element `g` of Tq: the 128 products `gamma_i * g_(2i+1)`. -/
structure TqMulCache where
  inner : Vector FieldElement 128
  deriving DecidableEq, Inhabited

/-- `Zeroize`: one bulk write of zeros. -/
def TqMulCache.zeroize (_ : TqMulCache) : TqMulCache := ⟨Vector.replicate 128 FieldElement.zero⟩

/-- The derived `PartialEq` of the arrays of coefficients. -/
def Coefficients.eq (a b : Coefficients) : Bool := (List.finRange N).all fun i => a[i].eq b[i]

namespace TqElement

/-- `ZERO`. -/
def zero : TqElement := ⟨Vector.replicate N FieldElement.zero⟩

/-- `Zeroize`: one bulk write of zeros. -/
def zeroize (_ : TqElement) : TqElement := zero

/-- Splits natural-order coefficients into the storage. -/
def new (coefficients : Coefficients) : TqElement := ⟨Generic.pack coefficients⟩

/-- The coefficients in natural order. -/
def coefficients (t : TqElement) : Coefficients := Generic.unpack t.inner

/-- `Index`: the natural position, mapped onto the split storage; past its end the array panics. -/
def index (t : TqElement) (i : Nat) : Option FieldElement := t.inner[i % 2 * (N / 2) + i / 2]?

/-- The inverse transform, with the scale that undoes the `R^-1` of a base multiplication. -/
def nttInverse (t : TqElement) : RqElement := ⟨Generic.nttInverse (Generic.unpack t.inner)⟩

/-- Scales every coefficient by `R`. -/
def toMontgomery (t : TqElement) : TqElement := ⟨t.inner.map FieldElement.toMontgomery⟩

/-- The base-multiplication cache of the element. -/
def mulCache (t : TqElement) : TqMulCache := ⟨Vector.ofFn fun i => t.inner[128 + i.val]! * gammaMont[i]⟩

/-- The dot product of two component slices, `caches` holding the cache of each component of `g`. -/
def accumulatedDot (f g : List TqElement) (caches : List TqMulCache) : TqElement :=
  let acc := ((f.zip g).zip caches).foldl
    (fun acc p => Generic.basemulAccumulate acc p.1.1.inner p.1.2.inner p.2.inner) ProductAccumulator.zero
  ⟨Generic.basemulReduce acc⟩

/-- The derived `PartialEq`. -/
def eq (a b : TqElement) : Bool := a.inner.eq b.inner

/-- The canonical representatives, in natural order. -/
def canonical (t : TqElement) : Vector UInt16 N := Generic.canonical t.inner

instance : Add TqElement := ⟨fun a b => ⟨Vector.zipWith (· + ·) a.inner b.inner⟩⟩

/-- Base multiplication, scaled by `R^-1`. -/
instance : Mul TqElement := ⟨fun a b => ⟨Generic.multiply a.inner b.inner⟩⟩

end TqElement

namespace RqElement

/-- The forward transform. -/
def ntt (f : RqElement) : TqElement := TqElement.new (Generic.ntt f.inner)

/-- `Index`: past the end the array panics. -/
def index (f : RqElement) (i : Nat) : Option FieldElement := f.inner[i]?

/-- The derived `PartialEq`. -/
def eq (a b : RqElement) : Bool := a.inner.eq b.inner

/-- `Compress_d` of every coefficient. -/
def compressed (f : RqElement) (d : Nat) : Vector UInt16 N := Generic.compress f.inner d

/-- `Decompress_d` of every value. -/
def decompress (values : Vector UInt16 N) (d : Nat) : RqElement := ⟨Generic.decompress values d⟩

instance : Add RqElement := ⟨fun a b => ⟨Vector.zipWith (· + ·) a.inner b.inner⟩⟩

instance : Sub RqElement := ⟨fun a b => ⟨Vector.zipWith (· - ·) a.inner b.inner⟩⟩

end RqElement

end MlkemSelkie
