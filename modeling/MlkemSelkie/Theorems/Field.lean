import Mathlib.Data.Nat.Cast.Order.Field
import Mathlib.Data.Rat.Floor
import MlkemSelkie.Checked
import MlkemSelkie.Lemmas.Field

/-!
# Exactness of the word reductions

How far the two reductions of products are exact: the multiplication by a constant on every word, the reduction of an
accumulated sum on the sums that have a multiple of `2^16` close by.
-/

namespace MlkemSelkie

open SignedWords

namespace FieldElement

/-! ## Multiplication by a constant -/

/-- A rounded quotient is a multiplier: no rounding of a canonical constant is further off than half of q. -/
theorem multiplier_of_round {b bBar : Int16} (hb : 0 ≤ b.toInt ∧ b.toInt < 3329)
    (hbar : bBar.toInt = round ((b.toInt : ℚ) * 2 ^ 15 / 3329)) : Multiplier b bBar := by
  obtain ⟨h1, h2⟩ := hb
  have hquot : (b.toInt : ℚ) * 2 ^ 15 / 3329 = ((b.toInt * 32768 : Int) : ℚ) / (3329 : Nat) := by
    push_cast
    ring
  rw [hquot, round_div _ _ (by decide)] at hbar
  have hround : bBar.toInt = (2 * (b.toInt * 32768) + 3329) / 6658 := hbar
  rw [Multiplier]
  omega

/-- Multiplication by a constant is exact on every word: a representative of the product below q, with the bound that the
lazy reductions count on. -/
theorem barrettConstMul_exact (a : FieldElement) (b bBar : Int16) (hb : 0 ≤ b.toInt ∧ b.toInt < 3329)
    (hbar : bBar.toInt = round ((b.toInt : ℚ) * 2 ^ 15 / 3329)) :
    (a.barrettConstMul b bBar).toInt ≡ a.toInt * b.toInt [ZMOD 3329] ∧
      (-3329 < (a.barrettConstMul b bBar).toInt ∧ (a.barrettConstMul b bBar).toInt < 3329) ∧
      |((a.barrettConstMul b bBar).toInt : ℚ)| ≤ 3329 * (|(a.toInt : ℚ)| / 2 ^ 16 + 1 / 2) := by
  obtain ⟨hword1, hword2⟩ := a.within_word
  have hsize : a.toInt.natAbs ≤ 32768 := by omega
  have ha : a.Within a.toInt.natAbs := ⟨by omega, by omega⟩
  obtain ⟨⟨hlo, hhi⟩, hclass⟩ := barrettConstMul_spec ha hsize (multiplier_of_round hb hbar)
  have hbound : (constMulBound a.toInt.natAbs : ℚ) ≤ ((a.toInt.natAbs * 1664 + 54542336 : Nat) : ℚ) / ((32768 : Nat) : ℚ) :=
    Nat.cast_div_le
  refine ⟨?_, ⟨?_, ?_⟩, ?_⟩
  · rw [toZq, toZq, ← Int.cast_mul] at hclass
    exact (ZMod.intCast_eq_intCast_iff _ _ 3329).mp hclass
  · rw [constMulBound] at hlo
    omega
  · rw [constMulBound] at hhi
    omega
  · have habs : |((a.barrettConstMul b bBar).toInt : ℚ)| ≤ constMulBound a.toInt.natAbs := by
      rw [abs_le]
      exact ⟨by exact_mod_cast hlo, by exact_mod_cast hhi⟩
    have hcast : ((a.toInt.natAbs : Nat) : ℚ) = |(a.toInt : ℚ)| := by rw [Nat.cast_natAbs, Int.cast_abs]
    have hnonneg := abs_nonneg (a.toInt : ℚ)
    push_cast at hbound
    rw [hcast] at hbound
    linarith

/-- The largest difference that the first stage of the inverse transform multiplies. -/
theorem barrettConstMul_exact_extreme :
    (barrettConstMul ⟨32766⟩ 1729 17019).toInt ≡ 32766 * 1729 [ZMOD 3329] ∧
      (-3329 < (barrettConstMul ⟨32766⟩ 1729 17019).toInt ∧ (barrettConstMul ⟨32766⟩ 1729 17019).toInt < 3329) ∧
      |((barrettConstMul ⟨32766⟩ 1729 17019).toInt : ℚ)| ≤ 3329 * (|((32766 : Int) : ℚ)| / 2 ^ 16 + 1 / 2) := by
  have hb : (1729 : Int16).toInt = 1729 := by decide
  have hbar : (17019 : Int16).toInt = 17019 := by decide
  have hround : round (((1729 : Int16).toInt : ℚ) * 2 ^ 15 / 3329) = 17019 := by
    rw [hb, round_eq, Int.floor_eq_iff]
    norm_num
  exact barrettConstMul_exact ⟨32766⟩ 1729 17019 (by decide) (hbar.trans hround.symm)

/-! ## Reduction of a sum -/

/-- A sum is reduced exactly: no operation overflows, and the result times `2^16` is the sum mod q, with the documented
bound. -/
def ReducesExactly (sum : Int32) : Prop :=
  ∃ x, debugFromProductSum sum = some x ∧ x.toInt * 2 ^ 16 ≡ sum.toInt [ZMOD 3329] ∧
    |(x.toInt : ℚ)| ≤ |(sum.toInt : ℚ)| / 2 ^ 16 + 3329 / 2

/-- The multiple of `2^16` in the class of the sum that is closest to it, the upper one of two, is a double word. -/
def NearMultiple (sum : Int) : Prop :=
  ∃ n : Int, 2 ^ 16 ∣ n ∧ n ≡ sum [ZMOD 3329] ∧ sum - 3329 * 2 ^ 15 < n ∧ n ≤ sum + 3329 * 2 ^ 15 ∧ Fits32 n

/-- Two multiples of `2^16` in one class, both closer to a sum than half a step, are one. -/
theorem closest_unique {sum n d : Int} (hn : 2 ^ 16 ∣ n) (hd : 2 ^ 16 ∣ d) (hclass : n ≡ d [ZMOD 3329])
    (hn1 : sum - 3329 * 2 ^ 15 < n) (hn2 : n ≤ sum + 3329 * 2 ^ 15) (hd1 : sum - 3329 * 2 ^ 15 < d)
    (hd2 : d ≤ sum + 3329 * 2 ^ 15) : n = d := by
  obtain ⟨u, rfl⟩ := hn
  obtain ⟨v, rfl⟩ := hd
  have hq := hclass.dvd
  omega

/-- What is `2^16` times a result is no further from the sum than half of q allows. -/
theorem product_sum_bound {x sum m : Int} (hm : Fits16 m) (h : 65536 * x = sum - m * 3329) :
    |(x : ℚ)| ≤ |(sum : ℚ)| / 2 ^ 16 + 3329 / 2 := by
  obtain ⟨h1, h2⟩ := hm
  have hbound : 65536 * |x| ≤ |sum| + 32768 * 3329 := by
    rcases abs_cases x with ⟨hx, _⟩ | ⟨hx, _⟩ <;> rcases abs_cases sum with ⟨hs, _⟩ | ⟨hs, _⟩ <;> omega
  have hcast : 65536 * |(x : ℚ)| ≤ |(sum : ℚ)| + 32768 * 3329 := by exact_mod_cast hbound
  linarith

/-- The reduction of a sum is exact for the sums whose closest multiple of `2^16` is a double word, and for no other. -/
theorem fromProductSum_exact_iff (sum : Int32) : ReducesExactly sum ↔ NearMultiple sum.toInt := by
  obtain ⟨hm1, hm2⟩ := fits16_toInt (sum.toInt16 * MlkemSelkie.qInv)
  have hmul := montgomery_difference_dvd sum
  have hclass : sum.toInt - (sum.toInt16 * MlkemSelkie.qInv).toInt * 3329 ≡ sum.toInt [ZMOD 3329] := by
    rw [Int.modEq_iff_dvd]
    exact ⟨(sum.toInt16 * MlkemSelkie.qInv).toInt, by ring⟩
  constructor
  · rintro ⟨x, hx, _, _⟩
    rw [debugFromProductSum, check] at hx
    split at hx
    · rename_i hfits
      exact ⟨_, hmul, hclass, by omega, by omega, hfits.2⟩
    · nomatch hx
  · rintro ⟨n, hn, hn', hlow, hhigh, hfits⟩
    have heq := closest_unique hn hmul (hn'.trans hclass.symm) hlow hhigh (by omega) (by omega)
    subst heq
    have hexact := montgomeryReduce_of_fits hfits
    refine ⟨fromProductSum sum, check_eq ⟨⟨by omega, by omega⟩, hfits⟩ _, ?_, product_sum_bound ⟨hm1, hm2⟩ hexact⟩
    have hscaled : (fromProductSum sum).toInt * 2 ^ 16 = sum.toInt - (sum.toInt16 * MlkemSelkie.qInv).toInt * 3329 :=
      (Int.mul_comm _ _).trans hexact
    rw [hscaled]
    exact hclass

/-- A sum of `2^31 - 65535` has the low half one: the difference leaves 32 bits. -/
theorem fromProductSum_overflows : ¬ReducesExactly 2147418113 := by
  rintro ⟨x, hx, _, _⟩
  have hnone : debugFromProductSum 2147418113 = none := by decide
  rw [hnone] at hx
  nomatch hx

end FieldElement

end MlkemSelkie
