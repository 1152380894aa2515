import MlkemSelkie.Fips.Transform
import MlkemSelkie.Lemmas.Field
import MlkemSelkie.Poly.Generic

/-!
# The constant tables

The zetas are the powers of 17 that FIPS 203 prescribes, each with a rounded multiplier; the gammas are the roots of the
128 factors in Montgomery form.
-/

namespace MlkemSelkie

open Fips203 FieldElement

/-- Every zeta is a canonical constant with its multiplier. -/
theorem zeta_multiplier : ∀ k < 128, Multiplier zetaRaw[k]!.toInt16 zetaBarrett[k]! := by decide +kernel

/-- The table of zetas holds the constants of the transform. -/
theorem zetaRaw_eq (k : Nat) (hk : k < 128) : (zetaRaw[k]!.toInt16.toInt : Zq) = zetas k := by
  have htable : ∀ k < 128, zetaRaw[k]!.toInt16.toInt = ((17 ^ bitRev7 k % 3329 : Nat) : Int) := by decide +kernel
  rw [htable k hk, Int.cast_natCast, ZMod.natCast_mod, Nat.cast_pow]
  rfl

theorem gammaMont_within : ∀ k : Fin 128, gammaMont[k].Within 1733 := by decide +kernel

/-- The table of gammas holds the roots of the factors, scaled by `R`. -/
theorem gammaMont_eq (k : Fin 128) : gammaMont[k].toZq = 2 ^ 16 * gamma k := by
  have htable : ∀ k : Fin 128, gammaMont[k].toInt =
      ((2 ^ 16 * 17 ^ (2 * bitRev7 k + 1) : Nat) : Int) -
        ((2 ^ 16 * 17 ^ (2 * bitRev7 k + 1) : Nat) - gammaMont[k].toInt) / 3329 * 3329 := by
    decide +kernel
  rw [toZq, cast_eq_of_sub_mul (htable k), Int.cast_natCast, Nat.cast_mul, Nat.cast_pow, Nat.cast_pow]
  rfl

/-- The scale of the inverse transform is `128^-1 * R^2`. -/
theorem nttInverseScale_eq : Poly.Generic.nttInverseScale.toZq = 2 ^ 16 * (2 ^ 16 * 3303) := by
  have h : Poly.Generic.nttInverseScale.toInt = 2 ^ 16 * (2 ^ 16 * 3303) - 4261422943 * 3329 := by decide +kernel
  rw [toZq, cast_eq_of_sub_mul h, Int.cast_mul, Int.cast_mul, Int.cast_pow]
  rfl

theorem nttInverseScale_within : Poly.Generic.nttInverseScale.Within 1441 := by decide +kernel

end MlkemSelkie
