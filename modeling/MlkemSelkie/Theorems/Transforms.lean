import MlkemSelkie.Lemmas.Avx2
import MlkemSelkie.Lemmas.Checked
import MlkemSelkie.Lemmas.Neon
import MlkemSelkie.Lib.Remainders

/-!
# The two transforms

The lazy inverse transform is exact on every array that its contract allows, and the forward transform takes a polynomial to
its remainders. The vector transforms compute the same representatives.
-/

namespace MlkemSelkie

open Fips203 FieldElement Poly.Generic

/-! ## The lazy inverse transform -/

/-- Every sum that an inverse stage makes of bounded coefficients meets the demand of the lazy reduction. -/
theorem inverseBound_lazy : ∀ t < 7, inverseBound t + inverseBound t ≤ 32767 ∧
    (2 ^ t * 2 = 2 ∨ inverseBound t + inverseBound t ≤ 8 * Q) := by decide

/-- The lazy inverse transform on its whole contract: no sum or difference wraps, no sum left unreduced exceeds `8q`, and the
result is Algorithm 10 scaled by `R`. -/
theorem nttInverse_lazy {cs : Coefficients} (hc : Coefficients.Within 16383 cs) :
    nttInverseWith LazySum cs = some (nttInverse cs) ∧
      ∀ i : Fin 256, (-3329 < (nttInverse cs)[i].toInt ∧ (nttInverse cs)[i].toInt < 3329) ∧
        (nttInverse cs)[i].toZq = 2 ^ 16 * Fips203.nttInverse (Coefficients.toZq cs) i := by
  obtain ⟨hwithin, hresidues⟩ := nttInverse_spec hc
  refine ⟨nttInverseWith_eq hc fun t ht x hx => ?_, fun i => ⟨?_, congrFun hresidues i⟩⟩
  · obtain ⟨hword, hlazy⟩ := inverseBound_lazy t ht
    exact ⟨⟨by omega, by omega⟩, hlazy.imp_right fun h => by omega⟩
  · obtain ⟨h1, h2⟩ := hwithin i
    exact ⟨by omega, by omega⟩

/-- The array that holds the bound everywhere. -/
theorem nttInverse_lazy_extremes :
    ∃ cs : Coefficients, cs = Vector.replicate N ⟨-16383⟩ ∧ nttInverseWith LazySum cs = some (nttInverse cs) ∧
      ∀ i : Fin 256, (-3329 < (nttInverse cs)[i].toInt ∧ (nttInverse cs)[i].toInt < 3329) ∧
        (nttInverse cs)[i].toZq = 2 ^ 16 * Fips203.nttInverse (Coefficients.toZq cs) i := by
  have hc : Coefficients.Within 16383 (Vector.replicate N ⟨-16383⟩) := .replicate (by decide)
  exact ⟨_, rfl, nttInverse_lazy hc⟩

/-! ## The forward transform -/

/-- The polynomial over the exact field that an array represents. -/
noncomputable def Coefficients.polynomial (cs : Coefficients) : Polynomial Zq :=
  ∑ j : Fin 256, Polynomial.C cs[j].toZq * Polynomial.X ^ j.val

theorem Coefficients.polynomial_eq (cs : Coefficients) : cs.polynomial = Ntt.polynomial (2 * 128) (seq (toZq cs)) := by
  rw [Ntt.polynomial, Finset.sum_range]
  refine Finset.sum_congr rfl fun j _ => ?_
  rw [seq_lt _ j.val j.isLt, toZq]

/-- The residue of a coefficient, by its position. -/
theorem seq_toZq (cs : Coefficients) {i : Nat} (hi : i < 256) : seq (Coefficients.toZq cs) i = cs[i]!.toZq := by
  rw [seq_lt _ i hi, Coefficients.toZq, getElem!_pos cs i hi]
  rfl

/-- The blocks of the forward transform are the remainders of the polynomial. -/
theorem ntt_remainder {cs : Coefficients} (hc : Coefficients.Within 3329 cs) (i : Fin 128) :
    cs.polynomial %ₘ (Polynomial.X ^ 2 - Polynomial.C (17 ^ (2 * bitRev7 i + 1))) =
      Polynomial.C (ntt cs)[2 * i.val]!.toZq + Polynomial.C (ntt cs)[2 * i.val + 1]!.toZq * Polynomial.X := by
  have hresidues := residues_ntt (Coefficients.toZq cs)
  rw [← (ntt_spec hc).2] at hresidues
  have hblock := hresidues.modByMonic (by decide) i.isLt
  rw [← Coefficients.polynomial_eq, gamma, zeta, Ntt.polynomial, Finset.sum_range_succ, Finset.sum_range_one, Nat.add_zero,
    seq_toZq _ (by omega), seq_toZq _ (by omega), pow_zero, mul_one, pow_one] at hblock
  exact hblock

/-- The forward transform is exact and centered: no addition or subtraction wraps, and the outputs are the remainders modulo
`X^2 - 17^(2 BitRev7(i) + 1)`. -/
theorem ntt_exact {cs : Coefficients} (hc : Coefficients.Within 3329 cs) :
    checkedNtt cs = some (ntt cs) ∧
      (∀ i : Fin 256, (ntt cs)[i].toInt.natAbs ≤ (Q - 1) / 2) ∧
      ∀ i : Fin 128, cs.polynomial %ₘ (Polynomial.X ^ 2 - Polynomial.C (17 ^ (2 * bitRev7 i + 1))) =
        Polynomial.C (ntt cs)[2 * i.val]!.toZq + Polynomial.C (ntt cs)[2 * i.val + 1]!.toZq * Polynomial.X := by
  refine ⟨checkedNtt_eq hc, fun i => ?_, ntt_remainder hc⟩
  obtain ⟨h1, h2⟩ := (ntt_spec hc).1 i
  rw [Q]
  omega

/-- The array that holds the bound everywhere. -/
theorem ntt_exact_extremes :
    ∃ cs : Coefficients, cs = Vector.replicate N ⟨-3329⟩ ∧ checkedNtt cs = some (ntt cs) ∧
      (∀ i : Fin 256, (ntt cs)[i].toInt.natAbs ≤ (Q - 1) / 2) ∧
      cs.polynomial %ₘ (Polynomial.X ^ 2 - Polynomial.C (17 ^ (2 * bitRev7 0 + 1))) =
        Polynomial.C (ntt cs)[0]!.toZq + Polynomial.C (ntt cs)[1]!.toZq * Polynomial.X := by
  have hc : Coefficients.Within 3329 (Vector.replicate N ⟨-3329⟩) := .replicate (by decide)
  obtain ⟨hrun, hcentered, hremainder⟩ := ntt_exact hc
  exact ⟨_, rfl, hrun, hcentered, hremainder 0⟩

/-! ## The vector transforms -/

/-- On every array of words, in range or not, the vector transforms leave the representatives that the portable ones
leave. -/
theorem Poly.Avx2.transforms_agree (cs : Coefficients) :
    Avx2.ntt cs = Generic.ntt cs ∧ Avx2.nttInverse cs = Generic.nttInverse cs :=
  ⟨ntt_eq cs, nttInverse_eq cs⟩

/-- The same of the transforms on registers of eight coefficients, the doubling product saturating as documented. -/
theorem Poly.Neon.trips_and_stages_agree (cs : Coefficients) :
    Neon.ntt cs = Generic.ntt cs ∧ Neon.nttInverse cs = Generic.nttInverse cs :=
  ⟨ntt_eq cs, nttInverse_eq cs⟩

end MlkemSelkie
