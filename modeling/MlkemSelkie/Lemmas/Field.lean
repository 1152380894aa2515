import Mathlib.Tactic.LinearCombination
import MlkemSelkie.Field
import MlkemSelkie.Fips.Encoding
import MlkemSelkie.Lib.SignedWords

/-!
# The field operations as integers and as residues

Each operation of `field.rs` is read twice: as an exact integer, with the bounds the lazy reductions rely on, and as an
element of the field of FIPS 203.
-/

namespace MlkemSelkie

open SignedWords Fips203

namespace FieldElement

/-- The residue class a representative stands for. -/
def toZq (a : FieldElement) : Zq := (a.toInt : Zq)

/-- The representative is at most `B` in absolute value. -/
def Within (B : Nat) (a : FieldElement) : Prop := -(B : Int) ≤ a.toInt ∧ a.toInt ≤ B

instance (B : Nat) (a : FieldElement) : Decidable (a.Within B) := inferInstanceAs (Decidable (_ ∧ _))

theorem Within.mono {B B' : Nat} {a : FieldElement} (h : a.Within B) (hB : B ≤ B') : a.Within B' := by
  obtain ⟨h1, h2⟩ := h
  exact ⟨by omega, by omega⟩

/-- Every representative is a 16-bit word. -/
theorem within_word (a : FieldElement) : a.Within 32768 := by
  obtain ⟨h1, h2⟩ := fits16_toInt a.rep
  exact ⟨h1, by simp only [toInt]; omega⟩

/-- Integers that differ by a multiple of q are one element of the field. -/
theorem cast_eq_of_sub_mul {x y t : Int} (h : x = y - t * 3329) : (x : Zq) = (y : Zq) := by
  have hq : ((3329 : Int) : Zq) = 0 := ZMod.natCast_self 3329
  rw [h, Int.cast_sub, Int.cast_mul, hq, mul_zero, sub_zero]

/-- The factor `R` of Montgomery form has the inverse 169. -/
theorem montgomery_unit : (2 ^ 16 : Zq) * 169 = 1 := by
  have h := cast_eq_of_sub_mul (show (2 ^ 16 * 169 : Int) = 1 - -3327 * 3329 by decide)
  rw [Int.cast_mul, Int.cast_pow] at h
  exact h

/-- The factor `R` cancels. -/
theorem montgomery_cancel {x y : Zq} (h : 2 ^ 16 * x = 2 ^ 16 * y) : x = y := by
  have h' := congrArg (fun t => t * 169) h
  simp only [mul_right_comm _ _ (169 : Zq), montgomery_unit, one_mul] at h'
  exact h'

/-- What `R` times an element is determines the element. -/
theorem montgomery_divide {x y : Zq} (h : 2 ^ 16 * x = y) : x = 169 * y :=
  montgomery_cancel (by rw [h, ← mul_assoc, montgomery_unit, one_mul])

/-! ## Addition and subtraction -/

/-- A sum that is a word does not wrap. -/
theorem toInt_add {a b : FieldElement} (h : Fits16 (a.toInt + b.toInt)) : (a + b).toInt = a.toInt + b.toInt :=
  toInt_add16 h

/-- A difference that is a word does not wrap. -/
theorem toInt_sub {a b : FieldElement} (h : Fits16 (a.toInt - b.toInt)) : (a - b).toInt = a.toInt - b.toInt :=
  toInt_sub16 h

/-- The sum of bounded representatives is exact when the bounds add up to a word. -/
theorem Within.fits_add {A B : Nat} {a b : FieldElement} (ha : a.Within A) (hb : b.Within B) (h : A + B ≤ 32767) :
    Fits16 (a.toInt + b.toInt) := by
  obtain ⟨ha1, ha2⟩ := ha
  obtain ⟨hb1, hb2⟩ := hb
  exact ⟨by omega, by omega⟩

/-- The difference of bounded elements is a word. -/
theorem Within.fits_sub {A B : Nat} {a b : FieldElement} (ha : a.Within A) (hb : b.Within B) (h : A + B ≤ 32767) :
    Fits16 (a.toInt - b.toInt) := by
  obtain ⟨ha1, ha2⟩ := ha
  obtain ⟨hb1, hb2⟩ := hb
  exact ⟨by omega, by omega⟩

/-- The sum of bounded elements is exact. -/
theorem Within.add {A B : Nat} {a b : FieldElement} (ha : a.Within A) (hb : b.Within B) (h : A + B ≤ 32767) :
    (a + b).Within (A + B) ∧ (a + b).toZq = a.toZq + b.toZq := by
  have hsum := toInt_add (ha.fits_add hb h)
  obtain ⟨ha1, ha2⟩ := ha
  obtain ⟨hb1, hb2⟩ := hb
  refine ⟨⟨by omega, by omega⟩, ?_⟩
  rw [toZq, hsum, Int.cast_add]
  rfl

/-- The difference of bounded elements is exact. -/
theorem Within.sub {A B : Nat} {a b : FieldElement} (ha : a.Within A) (hb : b.Within B) (h : A + B ≤ 32767) :
    (a - b).Within (A + B) ∧ (a - b).toZq = a.toZq - b.toZq := by
  have hsub := toInt_sub (ha.fits_sub hb h)
  obtain ⟨ha1, ha2⟩ := ha
  obtain ⟨hb1, hb2⟩ := hb
  refine ⟨⟨by omega, by omega⟩, ?_⟩
  rw [toZq, hsub, Int.cast_sub]
  rfl

/-! ## Barrett reduction -/

/-- The quotient estimate of Barrett reduction is a word, and leaves a centered remainder. -/
theorem barrett_quotient (a : Int) (h : Fits16 a) :
    -10 ≤ (20159 * a + 33554432) / 67108864 ∧ (20159 * a + 33554432) / 67108864 ≤ 10 ∧
      -1664 ≤ a - (20159 * a + 33554432) / 67108864 * 3329 ∧ a - (20159 * a + 33554432) / 67108864 * 3329 ≤ 1664 := by
  obtain ⟨h1, h2⟩ := h
  omega

/-- The quotient estimate that Barrett reduction computes. -/
theorem barrett_estimate (a : Int16) : ((barrettV * a.toInt32 + (1 : Int32) <<< 25) >>> 26).toInt16.toInt =
    (20159 * a.toInt + 33554432) / 67108864 := by
  have hv : barrettV.toInt = 20159 := by decide
  have hhalf : ((1 : Int32) <<< 25).toInt = 33554432 := by decide
  have ha := fits16_toInt a
  obtain ⟨h1, h2, _, _⟩ := barrett_quotient a.toInt ha
  rw [Fits16] at ha
  have hmul : (barrettV * a.toInt32).toInt = 20159 * a.toInt := by
    rw [toInt_mul32 (by rw [hv, Int16.toInt_toInt32, Fits32]; omega), hv, Int16.toInt_toInt32]
  have hsum : (barrettV * a.toInt32 + (1 : Int32) <<< 25).toInt = 20159 * a.toInt + 33554432 := by
    rw [toInt_add32 (by rw [hmul, hhalf, Fits32]; omega), hmul, hhalf]
  have hshift : ((barrettV * a.toInt32 + (1 : Int32) <<< 25) >>> 26).toInt = (20159 * a.toInt + 33554432) / 67108864 := by
    rw [toInt_shiftRight _ _ 26 (by decide), hsum]
    rfl
  rw [toInt_narrow (by rw [hshift]; exact ⟨by omega, by omega⟩), hshift]

/-- Barrett reduction takes off its quotient estimate times q. -/
theorem barrett_toInt (a : Int16) :
    (barrett a).toInt = a.toInt - (20159 * a.toInt + 33554432) / 67108864 * 3329 := by
  have hq : qI16.toInt = 3329 := by decide
  have ha := fits16_toInt a
  obtain ⟨_, _, h3, h4⟩ := barrett_quotient a.toInt ha
  rw [barrett, toInt_sub_mul16, barrett_estimate, hq]
  rw [barrett_estimate, hq]
  exact ⟨by omega, by omega⟩

/-- Barrett reduction subtracts a multiple of q and lands in the centered range. -/
theorem reduce_spec (a : FieldElement) : a.reduce.Within 1664 ∧ a.reduce.toZq = a.toZq := by
  obtain ⟨_, _, h3, h4⟩ := barrett_quotient a.toInt (fits16_toInt a.rep)
  have h := barrett_toInt a.rep
  refine ⟨⟨?_, ?_⟩, cast_eq_of_sub_mul h⟩
  · rw [toInt, reduce, h]
    exact h3
  · rw [toInt, reduce, h]
    exact h4

/-- The sign mask of a 16-bit word selects q exactly when the word is negative. -/
theorem toInt_sign_mask (r : Int16) : ((r >>> 15) &&& qI16).toInt = if r.toInt < 0 then 3329 else 0 := by
  have hshift : (r >>> 15).toInt = r.toInt / 32768 := toInt_shiftRight16 r 15 15 (by decide)
  obtain ⟨h1, h2⟩ := fits16_toInt r
  by_cases hneg : r.toInt < 0
  · have hmask : r >>> 15 = -1 := Int16.toInt_inj.mp (by rw [hshift]; exact (by omega : r.toInt / 32768 = -1))
    rw [hmask, if_pos hneg]
    decide
  · have hmask : r >>> 15 = 0 := Int16.toInt_inj.mp (by rw [hshift]; exact (by omega : r.toInt / 32768 = 0))
    rw [hmask, if_neg hneg]
    decide

/-- The canonical representative is the remainder modulo q. -/
theorem value_toNat (a : FieldElement) : (a.value.toNat : Int) = a.toInt % 3329 := by
  obtain ⟨_, _, h3, h4⟩ := barrett_quotient a.toInt (fits16_toInt a.rep)
  have hr : (barrett a.rep).toInt = a.toInt - (20159 * a.toInt + 33554432) / 67108864 * 3329 := barrett_toInt a.rep
  have hmask := toInt_sign_mask (barrett a.rep)
  generalize (20159 * a.toInt + 33554432) / 67108864 = t at h3 h4 hr
  have hsum : (barrett a.rep + ((barrett a.rep >>> 15) &&& qI16)).toInt = a.toInt % 3329 := by
    rw [toInt_add16] <;> rw [hmask, hr]
    · split <;> omega
    · split <;> exact ⟨by omega, by omega⟩
  have hnonneg : (0 : Int) ≤ a.toInt % 3329 := Int.emod_nonneg _ (by decide)
  have hval : a.value.toNat = (barrett a.rep + ((barrett a.rep >>> 15) &&& qI16)).toNatClampNeg :=
    Int16.toNat_toUInt16_of_le (Int16.le_iff_toInt_le.mpr (by rw [hsum]; exact hnonneg))
  rw [hval, Int16.toNatClampNeg, hsum]
  exact Int.toNat_of_nonneg hnonneg

/-- The canonical value is below q. -/
theorem value_lt (a : FieldElement) : a.value.toNat < 3329 := by
  have h := value_toNat a
  have := Int.emod_lt_of_pos a.toInt (show (0 : Int) < 3329 by decide)
  omega

/-- The canonical representative is the value of the residue class. -/
theorem value_eq_val (a : FieldElement) : a.value.toNat = a.toZq.val := by
  have h := value_toNat a
  have hval : (a.toZq.val : Int) = a.toInt % 3329 := by
    rw [toZq, ZMod.val_intCast]
    rfl
  omega

/-! ## Division by q -/

/-- The multiplication by `ceil(2^33 / q)` divides by q. -/
theorem div_q (n : Nat) (h : n < 13000000) : (n * barrettDivQ) >>> 33 = n / 3329 := by
  rw [Nat.shiftRight_eq_div_pow, barrettDivQ]
  omega

/-- A new element is the remainder of its value. -/
theorem new_toInt (v : UInt16) : (new v).toInt = ((v.toNat % 3329 : Nat) : Int) := by
  have hv : v.toNat < 65536 := v.toNat_lt
  have hmod : v.toNat - v.toNat / 3329 * Q = v.toNat % 3329 := by
    rw [Q]
    omega
  simp only [new, div_q v.toNat (by omega), hmod, toInt]
  exact Int16.toInt_ofInt_of_le (by omega) (by omega)

/-- A new element is canonical. -/
theorem new_within (v : UInt16) : (new v).Within 3328 := by
  rw [Within, new_toInt]
  omega

/-- The residue of a new element. -/
theorem toZq_new (v : UInt16) : (new v).toZq = (v.toNat : Zq) := by
  rw [toZq, new_toInt, Int.cast_natCast, ZMod.natCast_mod]

/-! ## Montgomery reduction -/

/-- The multiple of q that Montgomery reduction subtracts completes the value to a multiple of `2^16`. -/
theorem montgomery_difference_dvd (a : Int32) : 65536 ∣ a.toInt - (a.toInt16 * qInv).toInt * 3329 := by
  have hinv : qInv.toInt = -3327 := by decide
  obtain ⟨c1, hc1, _⟩ := exists_bmod_16 a.toInt
  obtain ⟨c2, hc2, _⟩ := exists_bmod_16 (a.toInt16.toInt * qInv.toInt)
  refine ⟨169 * a.toInt + 11075583 * c1 - 3329 * c2, ?_⟩
  rw [Int16.toInt_mul, hc2, Int32.toInt_toInt16, hc1, hinv]
  ring

/-- Where the difference is a double word, Montgomery reduction divides it by `2^16`. -/
theorem montgomeryReduce_of_fits {a : Int32} (h : Fits32 (a.toInt - (a.toInt16 * qInv).toInt * 3329)) :
    65536 * (montgomeryReduce a).toInt = a.toInt - (a.toInt16 * qInv).toInt * 3329 := by
  have hq : qI16.toInt = 3329 := by decide
  obtain ⟨t, ht⟩ := montgomery_difference_dvd a
  rw [montgomeryReduce]
  generalize a.toInt16 * qInv = m at h ht
  have hprod : (m.toInt32 * qI16.toInt32).toInt = m.toInt * 3329 := by rw [toInt_mul_widened, hq]
  have hdiff : (a - m.toInt32 * qI16.toInt32).toInt = a.toInt - m.toInt * 3329 := by
    rw [toInt_sub32, hprod]
    rwa [hprod]
  have hshift : ((a - m.toInt32 * qI16.toInt32) >>> 16).toInt = (a.toInt - m.toInt * 3329) / 65536 := by
    rw [toInt_shiftRight _ _ 16 (by decide), hdiff]
    rfl
  obtain ⟨h1, h2⟩ := h
  rw [toInt_narrow, hshift]
  · omega
  · rw [hshift]
    exact ⟨by omega, by omega⟩

/-- Montgomery reduction divides by `2^16` what a multiple of q completes to a multiple of `2^16`. -/
theorem montgomeryReduce_spec (a : Int32) (h : -2038398975 ≤ a.toInt ∧ a.toInt ≤ 2038398975) :
    ∃ m, Fits16 m ∧ 65536 * (montgomeryReduce a).toInt = a.toInt - m * 3329 := by
  have hfits := fits16_toInt (a.toInt16 * qInv)
  refine ⟨_, hfits, montgomeryReduce_of_fits ?_⟩
  obtain ⟨hm1, hm2⟩ := hfits
  exact ⟨by omega, by omega⟩

/-- The bound of a Montgomery-reduced value, from the bound of the value. -/
theorem montgomeryReduce_within {a : Int32} {B : Nat} (h : -(B : Int) ≤ a.toInt ∧ a.toInt ≤ B) (hB : B ≤ 2038398975) :
    FieldElement.Within ((B + 109084672) / 65536) ⟨montgomeryReduce a⟩ := by
  obtain ⟨m, ⟨hm1, hm2⟩, hm⟩ := montgomeryReduce_spec a (by omega)
  show -((_ : Nat) : Int) ≤ (montgomeryReduce a).toInt ∧ (montgomeryReduce a).toInt ≤ ((_ : Nat) : Int)
  omega

/-- Montgomery reduction divides by `R`. -/
theorem toZq_montgomeryReduce {a : Int32} (h : -2038398975 ≤ a.toInt ∧ a.toInt ≤ 2038398975) :
    2 ^ 16 * FieldElement.toZq ⟨montgomeryReduce a⟩ = (a.toInt : Zq) := by
  obtain ⟨m, _, hm⟩ := montgomeryReduce_spec a h
  have h := cast_eq_of_sub_mul hm
  rw [Int.cast_mul] at h
  exact h

/-- The product of two words, whatever they are, is inside the range of Montgomery reduction. -/
theorem product_bound (a b : FieldElement) {A B : Nat} (ha : a.Within A) (hb : b.Within B) :
    -((A * B : Nat) : Int) ≤ a.toInt * b.toInt ∧ a.toInt * b.toInt ≤ (A * B : Nat) := by
  have h : (a.toInt * b.toInt).natAbs ≤ A * B := by
    obtain ⟨ha1, ha2⟩ := ha
    obtain ⟨hb1, hb2⟩ := hb
    rw [Int.natAbs_mul]
    exact Nat.mul_le_mul (by omega) (by omega)
  omega

/-- The widening product is exact. -/
theorem wideningMul_toInt (a b : FieldElement) : (a.wideningMul b).toInt = a.toInt * b.toInt :=
  toInt_mul_widened a.rep b.rep

/-- Montgomery multiplication: the product over `R`, and its bound. -/
theorem mul_spec {a b : FieldElement} {A B : Nat} (ha : a.Within A) (hb : b.Within B) (h : A * B ≤ 2038398975) :
    (a * b).Within ((A * B + 109084672) / 65536) ∧ 2 ^ 16 * (a * b).toZq = a.toZq * b.toZq := by
  have hb := product_bound a b ha hb
  rw [← wideningMul_toInt] at hb
  refine ⟨montgomeryReduce_within hb h, ?_⟩
  have h2 := toZq_montgomeryReduce (a := a.wideningMul b) (by omega)
  rw [wideningMul_toInt, Int.cast_mul] at h2
  exact h2

/-- The representative of `R^2`. -/
theorem montRSquared_toInt : montRSquared.toInt = 1353 := by decide

/-- The scale by `R`. -/
theorem toMontgomery_spec {a : FieldElement} {A : Nat} (ha : a.Within A) (hA : A ≤ 32768) :
    a.toMontgomery.Within ((A * 1353 + 109084672) / 65536) ∧ a.toMontgomery.toZq = 2 ^ 16 * a.toZq := by
  have hr : FieldElement.Within 1353 ⟨montRSquared⟩ := by decide
  obtain ⟨h1, h2⟩ := mul_spec ha hr (by omega)
  refine ⟨h1, ?_⟩
  have hscale : FieldElement.toZq ⟨montRSquared⟩ = 2 ^ 16 * 2 ^ 16 := by
    rw [toZq, toInt, montRSquared_toInt, cast_eq_of_sub_mul (show (1353 : Int) = 2 ^ 16 * 2 ^ 16 - 1290167 * 3329 by decide),
      Int.cast_mul, Int.cast_pow]
    rfl
  rw [hscale] at h2
  refine montgomery_cancel (h2.trans ?_)
  ring

/-! ## Multiplication by a constant -/

/-- The multiplier `bBar` of a canonical constant `b`: `b * 2^15 / q`, rounded. -/
def Multiplier (b bBar : Int16) : Prop :=
  (0 ≤ b.toInt ∧ b.toInt ≤ 3328) ∧ (0 ≤ bBar.toInt ∧ bBar.toInt ≤ 32766) ∧
    -1664 ≤ b.toInt * 32768 - 3329 * bBar.toInt ∧ b.toInt * 32768 - 3329 * bBar.toInt ≤ 1664

instance (b bBar : Int16) : Decidable (Multiplier b bBar) := inferInstanceAs (Decidable (_ ∧ _))

/-- The bound of a product with a constant, from the bound of the other factor. -/
def constMulBound (A : Nat) : Nat := (A * 1664 + 54542336) / 32768

/-- The quotient estimate of a product with a constant is a word, and leaves a bounded remainder. -/
theorem constMul_quotient {A : Nat} {p r : Int} (hA : A ≤ 32768) (hrho : (32768 * p - 3329 * r).natAbs ≤ A * 1664)
    (hr : r.natAbs ≤ A * 32766) :
    Fits16 ((r + 16384) / 32768) ∧ Fits16 (p - (r + 16384) / 32768 * 3329) ∧
      -(constMulBound A : Int) ≤ p - (r + 16384) / 32768 * 3329 ∧
      p - (r + 16384) / 32768 * 3329 ≤ (constMulBound A : Int) := by
  rw [Fits16, Fits16, constMulBound]
  omega

/-- The product with a constant is a representative of the product, of bounded size. -/
theorem barrettConstMul_spec {x : FieldElement} {A : Nat} {b bBar : Int16} (hx : x.Within A) (hA : A ≤ 32768)
    (hb : Multiplier b bBar) :
    (x.barrettConstMul b bBar).Within (constMulBound A) ∧
      (x.barrettConstMul b bBar).toZq = x.toZq * (b.toInt : Zq) := by
  obtain ⟨⟨hb1, hb2⟩, ⟨hbar1, hbar2⟩, hrho1, hrho2⟩ := hb
  have hbound : ∀ c : Int, ∀ C : Nat, c.natAbs ≤ C → (x.toInt * c).natAbs ≤ A * C := by
    intro c C hc
    rw [Int.natAbs_mul]
    obtain ⟨hx1, hx2⟩ := hx
    exact Nat.mul_le_mul (by omega) hc
  have hrho := hbound (b.toInt * 32768 - 3329 * bBar.toInt) 1664 (by omega)
  have hbar := hbound bBar.toInt 32766 (by omega)
  have hq : qI16.toInt = 3329 := by decide
  have hround : (0x4000 : Int32).toInt = 16384 := by decide
  have hpb : (x.rep.toInt32 * b.toInt32).toInt = x.toInt * b.toInt := toInt_mul_widened _ _
  have hpbar : (x.rep.toInt32 * bBar.toInt32).toInt = x.toInt * bBar.toInt := toInt_mul_widened _ _
  have hexpand : x.toInt * (b.toInt * 32768 - 3329 * bBar.toInt) =
      32768 * (x.toInt * b.toInt) - 3329 * (x.toInt * bBar.toInt) := by ring
  rw [hexpand] at hrho
  obtain ⟨hfits, hexact, hlo, hhi⟩ := constMul_quotient hA hrho hbar
  have hsum : (x.rep.toInt32 * bBar.toInt32 + 0x4000).toInt = x.toInt * bBar.toInt + 16384 := by
    rw [toInt_add32, hpbar, hround]
    rw [hpbar, hround]
    exact ⟨by omega, by omega⟩
  have hshift : ((x.rep.toInt32 * bBar.toInt32 + 0x4000) >>> 15).toInt = (x.toInt * bBar.toInt + 16384) / 32768 := by
    rw [toInt_shiftRight _ _ 15 (by decide), hsum]
    rfl
  have ht := toInt_narrow (x := (x.rep.toInt32 * bBar.toInt32 + 0x4000) >>> 15)
    (by rw [hshift]; exact hfits)
  have hres : (x.barrettConstMul b bBar).toInt =
      x.toInt * b.toInt - (x.toInt * bBar.toInt + 16384) / 32768 * 3329 := by
    rw [toInt, barrettConstMul, toInt_narrow_sub_mul16, hpb, ht, hshift, hq]
    rw [hpb, ht, hshift, hq]
    exact hexact
  refine ⟨?_, ?_⟩
  · rw [Within, hres]
    exact ⟨hlo, hhi⟩
  · rw [toZq, cast_eq_of_sub_mul hres, Int.cast_mul]
    rfl

/-! ## Compression -/

/-- Rounding a quotient of integers, as a division. -/
theorem round_div (n : Int) (m : Nat) (hm : 0 < m) : round ((n : ℚ) / m) = (2 * n + m) / (2 * m : Nat) := by
  have hm' : (m : ℚ) ≠ 0 := by exact_mod_cast hm.ne'
  have h : (n : ℚ) / m + 1 / 2 = ((2 * n + m : Int) : ℚ) / ((2 * m : Nat) : ℚ) := by
    push_cast
    field_simp
  rw [round_eq, h, Rat.floor_intCast_div_natCast]

/-- `Compress_d` as a division of natural numbers. -/
theorem compress_val (d : Nat) (x : Zq) : Fips203.compress d x = (x.val * 2 ^ d + 1664) / 3329 % 2 ^ d := by
  have hround : round ((2 ^ d / 3329 : ℚ) * x.val) = ((x.val * 2 ^ d + 1664) / 3329 : Nat) := by
    rw [show (2 ^ d / 3329 : ℚ) * x.val = ((x.val * 2 ^ d : Nat) : Int) / (3329 : Nat) by push_cast; ring,
      round_div _ _ (by omega)]
    omega
  rw [Fips203.compress, hround]
  exact_mod_cast Int.toNat_natCast _

/-- `Decompress_d` as a division of natural numbers. -/
theorem decompress_val {d : Nat} (hd : 1 ≤ d) (y : Nat) :
    Fips203.decompress d y = ((3329 * y + 2 ^ (d - 1)) / 2 ^ d : Nat) := by
  have hpow : 2 ^ d = 2 * 2 ^ (d - 1) := by rw [← pow_succ', Nat.sub_add_cancel hd]
  have hround : round ((3329 / 2 ^ d : ℚ) * y) = ((3329 * y + 2 ^ (d - 1)) / 2 ^ d : Nat) := by
    rw [show (3329 / 2 ^ d : ℚ) * y = ((3329 * y : Nat) : Int) / (2 ^ d : Nat) by push_cast; ring,
      round_div _ _ (Nat.two_pow_pos d)]
    have hdouble : 2 * ((3329 * y : Nat) : Int) + (2 ^ d : Nat) = ((2 * (3329 * y + 2 ^ (d - 1)) : Nat) : Int) := by
      rw [hpow]
      push_cast
      ring
    rw [hdouble, ← Int.natCast_div, Nat.mul_div_mul_left _ _ (by omega)]
  rw [Fips203.decompress, hround, Int.cast_natCast]

/-- Compression to at most eleven bits is that of section 4.2.1. -/
theorem compress_eq (x : FieldElement) (d : Nat) (hd : d ≤ 11) : (x.compress d).toNat = Fips203.compress d x.toZq := by
  have hv := value_lt x
  have hpow : 2 ^ d ≤ 2048 := Nat.pow_le_pow_right (by omega) hd
  have hmul : x.value.toNat * 2 ^ d ≤ 3328 * 2048 := Nat.mul_le_mul (by omega) hpow
  rw [compress_val, ← value_eq_val]
  simp only [compress, Nat.shiftLeft_eq, Nat.one_mul, Q]
  rw [div_q _ (by omega), Nat.and_two_pow_sub_one_eq_mod]
  have hlt := Nat.mod_lt ((x.value.toNat * 2 ^ d + 3329 / 2) / 3329) (Nat.two_pow_pos d)
  rw [UInt16.toNat_ofNat', Nat.mod_eq_of_lt (by omega)]

/-- The representative that decompression yields. -/
theorem decompress_toInt (y : UInt16) (d : Nat) (hd : 1 ≤ d) (hy : y.toNat < 2 ^ d) :
    (decompress y d).toInt = ((3329 * y.toNat + 2 ^ (d - 1)) / 2 ^ d % 3329 : Nat) := by
  have hpow : 2 ^ d = 2 * 2 ^ (d - 1) := by rw [← pow_succ', Nat.sub_add_cancel hd]
  have hle : 3329 * y.toNat + 2 ^ (d - 1) < 3330 * 2 ^ d := by omega
  have hquot : (3329 * y.toNat + 2 ^ (d - 1)) / 2 ^ d < 3330 :=
    Nat.div_lt_of_lt_mul (by rw [Nat.mul_comm (2 ^ d)]; exact hle)
  simp only [decompress, Nat.shiftRight_eq_div_pow, Nat.shiftLeft_eq, Nat.one_mul, Q]
  rw [new_toInt, UInt16.toNat_ofNat', Nat.mod_eq_of_lt (Nat.lt_trans hquot (by decide))]

/-- Decompression of a value of its width is that of section 4.2.1. -/
theorem decompress_eq (y : UInt16) (d : Nat) (hd : 1 ≤ d) (hy : y.toNat < 2 ^ d) :
    (decompress y d).toZq = Fips203.decompress d y.toNat := by
  rw [toZq, decompress_toInt y d hd hy, decompress_val hd, Int.cast_natCast, ZMod.natCast_mod]

end FieldElement

end MlkemSelkie
