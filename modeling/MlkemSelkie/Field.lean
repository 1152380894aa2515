import MlkemSelkie.Parameters

/-!
# The prime field Zq

`algebraic/field.rs`: an element is an `i16` representative of its residue class mod q, not necessarily canonical. The
words are Lean's own `Int16` and `Int32`, whose operations wrap as the release build's do; unsigned intermediates that no
input can make overflow (the `u32` and `u64` products of the two divisions by q) are `Nat`.
-/

namespace MlkemSelkie

/-- `Q: i16`. -/
def qI16 : Int16 := 3329

/-- `QINV`: the inverse of q mod 2^16, signed. -/
def qInv : Int16 := -3327

/-- `BARRETT_V`: the multiplier of the reduction by q. -/
def barrettV : Int32 := (((1 : Int32) <<< 26) + 3329 / 2) / 3329

/-- `MONT_R_SQUARED`: `R^2 mod q` with `R = 2^16`. -/
def montRSquared : Int16 := 1353

/-- `BARRETT_DIV_Q`: `ceil(2^33 / q)`, the multiplier of the division by q. -/
def barrettDivQ : Nat := 2580335

/-- An element of Z mod q: the stored value is a representative of the residue class. -/
structure FieldElement where
  rep : Int16
  deriving DecidableEq, Repr, Inhabited

namespace FieldElement

/-- The representative as an integer. -/
abbrev toInt (a : FieldElement) : Int := a.rep.toInt

/-- `ZERO`. -/
def zero : FieldElement := ⟨0⟩

/-- `FieldElement::new`: the canonical element of an integer, by the explicit division by q. -/
def new (value : UInt16) : FieldElement :=
  let v := value.toNat
  let quotient := (v * barrettDivQ) >>> 33
  ⟨Int16.ofInt ((v - quotient * Q : Nat) : Int)⟩

/-- Barrett reduction of a representative to `(-q/2, q/2]`. -/
def barrett (a : Int16) : Int16 :=
  let t := ((barrettV * a.toInt32 + (1 : Int32) <<< 25) >>> 26).toInt16
  a - t * qI16

/-- Montgomery reduction: `a * R^-1 mod q`. -/
def montgomeryReduce (a : Int32) : Int16 :=
  let m := a.toInt16 * qInv
  ((a - m.toInt32 * qI16.toInt32) >>> 16).toInt16

/-- The canonical representative: q is added when the reduced one is negative. -/
def value (a : FieldElement) : UInt16 :=
  let r := barrett a.rep
  (r + ((r >>> 15) &&& qI16)).toUInt16

/-- `reduce`. -/
def reduce (a : FieldElement) : FieldElement := ⟨barrett a.rep⟩

/-- Scales by `R` mod q. -/
def toMontgomery (a : FieldElement) : FieldElement :=
  ⟨montgomeryReduce (a.rep.toInt32 * montRSquared.toInt32)⟩

/-- Wraps a raw Montgomery-form representative. -/
def fromMontgomeryTable (value : Int16) : FieldElement := ⟨value⟩

/-- The Montgomery-form elements of a table of canonical values. -/
def montgomeryTable (raw : Vector UInt16 128) : Vector FieldElement 128 :=
  raw.map fun r => (new r).toMontgomery

/-- The raw product of the two stored representatives. -/
def wideningMul (a b : FieldElement) : Int32 := a.rep.toInt32 * b.rep.toInt32

/-- Montgomery-reduces a sum of raw products. -/
def fromProductSum (sum : Int32) : FieldElement := ⟨montgomeryReduce sum⟩

/-- Multiplies by a canonical constant `b` with its multiplier `bBar = round(b * 2^15 / q)`. -/
def barrettConstMul (x : FieldElement) (b bBar : Int16) : FieldElement :=
  let a := x.rep.toInt32
  let cLow := (a * b.toInt32).toInt16
  let t := ((a * bBar.toInt32 + 0x4000) >>> 15).toInt16
  ⟨cLow - t * qI16⟩

/-- `Compress_d`: `round((2^d / q) * x) mod 2^d`, the division by q an explicit multiplication. -/
def compress (x : FieldElement) (d : Nat) : UInt16 :=
  let numerator := (x.value.toNat <<< d) + Q / 2
  let quotient := (numerator * barrettDivQ) >>> 33
  UInt16.ofNat (quotient &&& ((1 <<< d) - 1))

/-- `Decompress_d`: `round((q / 2^d) * y)`. -/
def decompress (value : UInt16) (d : Nat) : FieldElement :=
  let numerator := Q * value.toNat + (1 <<< (d - 1))
  new (UInt16.ofNat (numerator >>> d))

/-- `mul_reference`: the product of the canonical representatives, reduced mod q. -/
def mulReference (a b : FieldElement) : FieldElement :=
  let product := a.value.toNat * b.value.toNat
  new (UInt16.ofNat (product % Q))

/-- `PartialEq`: the canonical representatives are the same. -/
def eq (a b : FieldElement) : Bool := a.value == b.value

instance : Add FieldElement := ⟨fun a b => ⟨a.rep + b.rep⟩⟩

instance : Sub FieldElement := ⟨fun a b => ⟨a.rep - b.rep⟩⟩

instance : Neg FieldElement := ⟨fun a => ⟨-a.rep⟩⟩

/-- Montgomery multiplication: `a * b * R^-1 mod q`. -/
instance : Mul FieldElement := ⟨fun a b => ⟨montgomeryReduce (a.rep.toInt32 * b.rep.toInt32)⟩⟩

end FieldElement

end MlkemSelkie
