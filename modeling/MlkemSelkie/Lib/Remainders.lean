import Mathlib.Algebra.Polynomial.RingDivision
import Mathlib.Algebra.Ring.GeomSum
import MlkemSelkie.Lib.Ntt

/-!
# Residues as remainders

The residues that the blocks of a transform hold are the coefficients of the remainders of polynomial division.
-/

namespace Ntt

open Finset Polynomial

variable {R : Type} [CommRing R]

/-- The polynomial with the first `n` values of a sequence as its coefficients. -/
noncomputable def polynomial (n : Nat) (f : Nat → R) : R[X] := ∑ j ∈ range n, C (f j) * X ^ j

theorem degree_polynomial_lt (n : Nat) (f : Nat → R) : (polynomial n f).degree < n := by
  refine (degree_lt_iff_coeff_zero _ n).mpr fun m hm => ?_
  rw [polynomial, finsetSum_coeff]
  refine sum_eq_zero fun j hj => ?_
  have hj : j < n := mem_range.mp hj
  rw [coeff_C_mul_X_pow, if_neg (by omega)]

/-- A polynomial by the positions in blocks of `len`. -/
theorem polynomial_blocks (len count : Nat) (f : Nat → R) :
    polynomial (len * count) f = ∑ r ∈ range len, ∑ t ∈ range count, C (f (len * t + r)) * (X ^ r * (X ^ len) ^ t) := by
  rw [sum_comm, polynomial]
  induction count with
  | zero => rfl
  | succ count ih =>
    rw [Nat.mul_succ, sum_range_add, ih, sum_range_succ]
    refine congrArg _ (sum_congr rfl fun r _ => ?_)
    rw [← pow_mul, ← pow_add, Nat.add_comm r]

/-- The residues modulo `X^len - root b` are the coefficients of the remainder. -/
theorem Residues.modByMonic [Nontrivial R] {root f a : Nat → R} {len count b : Nat} (h : Residues root len count f a)
    (hlen : 0 < len) (hb : b < count) :
    polynomial (len * count) f %ₘ (X ^ len - C (root b)) = polynomial len fun r => a (len * b + r) := by
  have hmonic : (X ^ len - C (root b)).Monic := monic_X_pow_sub_C (root b) (by omega)
  have hdvd : X ^ len - C (root b) ∣ polynomial (len * count) f - polynomial len fun r => a (len * b + r) := by
    rw [polynomial_blocks, polynomial, ← sum_sub_distrib]
    refine dvd_sum fun r hr => ?_
    rw [h b hb r (mem_range.mp hr), map_sum, sum_mul, ← sum_sub_distrib]
    refine dvd_sum fun t _ => ?_
    obtain ⟨p, hp⟩ := sub_dvd_pow_sub_pow (X ^ len) (C (root b)) t
    refine ⟨C (f (len * t + r)) * X ^ r * p, ?_⟩
    rw [map_mul, map_pow]
    linear_combination C (f (len * t + r)) * X ^ r * hp
  rw [modByMonic_eq_of_dvd_sub hmonic hdvd]
  refine (modByMonic_eq_self_iff hmonic).mpr ?_
  rw [degree_X_pow_sub_C hlen]
  exact degree_polynomial_lt len _

end Ntt
