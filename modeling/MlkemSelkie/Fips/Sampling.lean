import Mathlib.Data.Nat.Nth
import MlkemSelkie.Fips.Encoding

/-!
# Sampling in FIPS 203

Section 4.2.2: the rejection sampler of Algorithm 7 over an unbounded stream, and the centered binomial sampler of
Algorithm 8.
-/

namespace Fips203

/-- The candidates of a stream: two 12-bit integers of every three bytes. -/
def candidate (stream : Nat → UInt8) (t : Nat) : Nat :=
  let i := 3 * (t / 2)
  if t % 2 = 0 then (stream i).toNat + 256 * ((stream (i + 1)).toNat % 16)
  else (stream (i + 1)).toNat / 16 + 16 * (stream (i + 2)).toNat

/-- The candidates that Algorithm 7 accepts. -/
def Accepted (stream : Nat → UInt8) (t : Nat) : Prop := candidate stream t < 3329

instance (stream : Nat → UInt8) : DecidablePred (Accepted stream) := fun t =>
  inferInstanceAs (Decidable (candidate stream t < 3329))

/-- The stream contains 256 accepted candidates: Algorithm 7 ends on it. -/
def Sufficient (stream : Nat → UInt8) : Prop := ∃ n, 256 ≤ Nat.count (Accepted stream) n

/-- Algorithm 7: `SampleNTT`, the first 256 accepted candidates of the stream. -/
noncomputable def sampleNtt (stream : Nat → UInt8) : Tq := fun j => candidate stream (Nat.nth (Accepted stream) j)

/-- Algorithm 8: `SamplePolyCBD_eta`. -/
def samplePolyCbd (eta : Nat) (bytes : List UInt8) : Rq := fun i =>
  let x := ((List.range eta).map fun j => (bit bytes (2 * i * eta + j)).toNat).sum
  let y := ((List.range eta).map fun j => (bit bytes (2 * i * eta + eta + j)).toNat).sum
  (x : Zq) - (y : Zq)

end Fips203
