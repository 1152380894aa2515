import MlkemSelkie.Poly

/-!
# Vectors and matrices of ring elements

`algebraic/vector.rs` and `algebraic/matrix.rs`: vectors of `K` elements, a vector bundled with the base-multiplication
cache of each of its components, and `K`-by-`K` matrices stored as rows.
-/

namespace MlkemSelkie

variable {P : ParameterSet}

/-- A vector of `K` elements of Rq. -/
structure RqVector (P : ParameterSet) where
  polys : Vector RqElement P.K

/-- A vector of `K` elements of Tq. -/
structure TqVector (P : ParameterSet) where
  polys : Vector TqElement P.K
  deriving DecidableEq

/-- A vector with each component's base-multiplication cache, index-aligned. -/
structure CachedTqVector (P : ParameterSet) where
  vector : TqVector P
  caches : Vector TqMulCache P.K
  deriving DecidableEq

/-- A `K`-by-`K` matrix, as its rows. -/
structure TqMatrix (P : ParameterSet) where
  rows : Vector (TqVector P) P.K
  deriving DecidableEq

namespace RqVector

/-- The forward transform of every component. -/
def ntt (v : RqVector P) : TqVector P := ⟨Vector.ofFn fun i => v.polys[i].ntt⟩

instance : Add (RqVector P) := ⟨fun a b => ⟨Vector.zipWith (· + ·) a.polys b.polys⟩⟩

end RqVector

namespace TqVector

/-- The inverse transform of every component. -/
def nttInverse (v : TqVector P) : RqVector P := ⟨Vector.ofFn fun i => v.polys[i].nttInverse⟩

/-- Scales every component by `R`. -/
def toMontgomery (v : TqVector P) : TqVector P := ⟨Vector.ofFn fun i => v.polys[i].toMontgomery⟩

instance : Add (TqVector P) := ⟨fun a b => ⟨Vector.zipWith (· + ·) a.polys b.polys⟩⟩

/-- The derived `Zeroize`: every component. -/
def zeroize (v : TqVector P) : TqVector P := ⟨v.polys.map TqElement.zeroize⟩

/-- The dot product, one base multiplication per component, the products added up. -/
instance : HMul (TqVector P) (TqVector P) TqElement :=
  ⟨fun a b => (a.polys.toList.zip b.polys.toList).foldl (fun result p => result + p.1 * p.2) TqElement.zero⟩

end TqVector

/-- `CachedTqVector::from`: computes the cache of every component. -/
def CachedTqVector.of (vector : TqVector P) : CachedTqVector P :=
  ⟨vector, Vector.ofFn fun i => vector.polys[i].mulCache⟩

/-- The derived `Zeroize`: the vector and the caches, each on its own. -/
def CachedTqVector.zeroize (v : CachedTqVector P) : CachedTqVector P := ⟨v.vector.zeroize, v.caches.map TqMulCache.zeroize⟩

/-- The dot product against a cached vector, by accumulated base multiplication. -/
instance : HMul (TqVector P) (CachedTqVector P) TqElement :=
  ⟨fun a b => TqElement.accumulatedDot a.polys.toList b.vector.polys.toList b.caches.toList⟩

namespace TqMatrix

/-- The transpose. -/
def transpose (a : TqMatrix P) : TqMatrix P :=
  ⟨Vector.ofFn fun j => ⟨Vector.ofFn fun i => a.rows[i].polys[j]⟩⟩

/-- The product with a column vector. -/
instance : HMul (TqMatrix P) (TqVector P) (TqVector P) :=
  ⟨fun a b => ⟨Vector.ofFn fun i => a.rows[i] * b⟩⟩

/-- The product with a cached column vector. -/
instance : HMul (TqMatrix P) (CachedTqVector P) (TqVector P) :=
  ⟨fun a b => ⟨Vector.ofFn fun i => a.rows[i] * b⟩⟩

end TqMatrix

end MlkemSelkie
