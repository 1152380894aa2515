import MlkemSelkie.Fips.Ring

/-!
# The transform of FIPS 203 is a ring isomorphism

Algorithms 9 and 10 are the incomplete transform of the library at 128 blocks of two coefficients, so they invert each
other, and the product of Algorithm 11 is the product modulo `X^256 + 1`.
-/

namespace Fips203

open Ntt

instance : Nontrivial Zq := ZMod.nontrivial_iff.mpr (by decide)

/-- The constants of the stages. -/
def zetas (k : Nat) : Zq := zeta ^ bitRev7 k

/-- The root of unity has order 256. -/
theorem zeta_pow_128 : zeta ^ 128 = -1 := by decide +kernel

/-- The sequence of an element at one of its positions. -/
theorem seq_lt (f : Fin 256 → Zq) (i : Nat) (h : i < 256) : seq f i = f ⟨i, h⟩ := dif_pos h

/-- Two elements are equal when their sequences agree below 256. -/
theorem ext_seq {f g : Fin 256 → Zq} (h : ∀ i < 256, seq f i = seq g i) : f = g := by
  funext i
  have := h i i.isLt
  rwa [seq_lt f i i.isLt, seq_lt g i i.isLt] at this

/-- An array read with a default is the sequence. -/
theorem getElem!_ofFn (f : Fin 256 → Zq) (i : Nat) (h : i < 256) : (Vector.ofFn f)[i]! = seq f i := by
  rw [getElem!_pos _ i h, Vector.getElem_ofFn, seq_lt f i h]

/-- The constants are square roots of the roots of their blocks. -/
theorem squareRoots_zetas : SquareRoots zetas 7 := by
  have hexp : ∀ k < 2 ^ 7, 2 ≤ k → bitRev7 k * 2 = bitRev7 (k / 2) + 128 * (k % 2) := by decide +kernel
  intro k hpos hk
  rw [zetas, ← pow_mul, rootOf]
  by_cases hone : k ≤ 1
  · rw [if_pos hone, show k = 1 by omega]
    exact zeta_pow_128
  · rw [if_neg hone, hexp k hk (by omega), pow_add, pow_mul]
    by_cases heven : k % 2 = 0
    · rw [if_pos heven, heven, pow_zero, mul_one, zetas]
    · rw [if_neg heven, show k % 2 = 1 by omega, pow_one, zeta_pow_128, mul_neg_one, zetas]

/-- The constants of the inverse stages are the negated inverses of those of the forward stages. -/
theorem opposite_zetas : Opposite zetas 7 := by
  have hexp : ∀ s < 7, ∀ b < 2 ^ s, bitRev7 (2 ^ (s + 1) - 1 - b) + bitRev7 (2 ^ s + b) = 128 := by decide +kernel
  intro s hs b hb
  rw [zetas, zetas, ← pow_add, hexp s hs b hb, zeta_pow_128]

/-- The root of the block `b` after the last stage. -/
theorem rootOf_last (b : Nat) (hb : b < 128) : rootOf zetas (128 + b) = gamma b := by
  have hexp : ∀ b < 128, 2 * bitRev7 b + 1 = bitRev7 ((128 + b) / 2) + 128 * (b % 2) := by decide +kernel
  rw [rootOf, if_neg (by omega), gamma, hexp b hb, pow_add, pow_mul, show (128 + b) % 2 = b % 2 by omega]
  by_cases heven : b % 2 = 0
  · rw [if_pos heven, heven, pow_zero, mul_one, zetas]
  · rw [if_neg heven, show b % 2 = 1 by omega, pow_one, zeta_pow_128, mul_neg_one, zetas]

/-- The moduli of base multiplication are roots of `X^128 + 1`. -/
theorem gamma_pow_128 (b : Nat) : gamma b ^ 128 = -1 := by
  rw [gamma, ← pow_mul, Nat.mul_comm, pow_mul, zeta_pow_128, pow_succ, pow_mul, neg_one_sq, one_pow, one_mul]

/-! ## The algorithms as transforms -/

/-- A stage of Algorithm 9. -/
theorem ntt_stage (s : Nat × Vector Zq 256) (len : Nat) (hlen : 0 < len) :
    (Loops.stepBy 256 (2 * len)).foldl (fun s start =>
      (s.1 + 1, (List.range' start len).foldl (fun f j =>
        (f.set! (j + len) (f[j]! - zeta ^ bitRev7 s.1 * f[j + len]!)).set! j
          ((f.set! (j + len) (f[j]! - zeta ^ bitRev7 s.1 * f[j + len]!))[j]! + zeta ^ bitRev7 s.1 * f[j + len]!)) s.2)) s =
      Butterfly.stage (fun k => k + 1) (forwardPair zetas) len s := by
  have hpair : ∀ z : Zq, (fun (f : Vector Zq 256) (j : Nat) => (f.set! (j + len) (f[j]! - z * f[j + len]!)).set! j
      ((f.set! (j + len) (f[j]! - z * f[j + len]!))[j]! + z * f[j + len]!)) =
      Butterfly.pair (fun x y => (x + z * y, x - z * y)) len := fun z => funext fun f => funext fun j =>
    Butterfly.pair_eq_upper_first (fun x y => x - z * y) (fun x y => x + z * y) len hlen f j
  simp only [hpair]
  rfl

/-- A stage of Algorithm 10. -/
theorem nttInverse_stage (s : Nat × Vector Zq 256) (len : Nat) (hlen : 0 < len) :
    (Loops.stepBy 256 (2 * len)).foldl (fun s start =>
      (s.1 - 1, (List.range' start len).foldl (fun f j =>
        (f.set! j (f[j]! + f[j + len]!)).set! (j + len)
          (zeta ^ bitRev7 s.1 * ((f.set! j (f[j]! + f[j + len]!))[j + len]! - f[j]!))) s.2)) s =
      Butterfly.stage (fun k => k - 1) (inversePair zetas) len s := by
  have hpair : ∀ z : Zq, (fun (f : Vector Zq 256) (j : Nat) => (f.set! j (f[j]! + f[j + len]!)).set! (j + len)
      (z * ((f.set! j (f[j]! + f[j + len]!))[j + len]! - f[j]!))) =
      Butterfly.pair (fun x y => (x + y, z * (y - x))) len := fun z => funext fun f => funext fun j =>
    Butterfly.pair_eq_lower_first (fun x y => z * (y - x)) (fun x y => x + y) len hlen f j
  simp only [hpair]
  rfl

/-- No stride is zero. -/
theorem strides_pos : ∀ len ∈ strides, 0 < len := by decide

/-- Algorithm 9 as a fold of butterfly stages. -/
theorem ntt_eq_fold (f : Rq) (i : Fin 256) : ntt f i =
    (strides.foldl (fun s len => Butterfly.stage (fun k => k + 1) (forwardPair zetas) len s) (1, Vector.ofFn f)).2[i] := by
  rw [ntt]
  simp only []
  rw [List.foldl_ext _ _ _ fun s len hlen => ntt_stage s len (strides_pos len hlen)]

/-- Algorithm 10 as a fold of butterfly stages. -/
theorem nttInverse_eq_fold (f : Tq) (i : Fin 256) : nttInverse f i =
    (strides.reverse.foldl (fun s len => Butterfly.stage (fun k => k - 1) (inversePair zetas) len s)
      (127, Vector.ofFn f)).2[i] * 3303 := by
  rw [nttInverse]
  simp only []
  rw [List.foldl_ext _ _ _ fun s len hlen => nttInverse_stage s len (strides_pos len (List.mem_reverse.mp hlen))]

/-- Algorithm 9 is the transform of seven stages. -/
theorem seq_ntt (f : Rq) (i : Nat) (hi : i < 256) : seq (ntt f) i = transform zetas 2 7 7 (seq f) i := by
  have hstrides : strides = (List.range 7).map fun t => 2 ^ (7 - 1 - t) * 2 := by decide
  have h := (fold_forward zetas (w := 2) (h := 7) (by omega) (by decide) (Vector.ofFn f) 7 (Nat.le_refl 7)).2 i hi
  rw [← hstrides, getElem!_pos _ i hi] at h
  rw [seq_lt _ i hi, ntt_eq_fold]
  exact h.trans (transform_congr (by omega) (fun j hj => getElem!_ofFn f j hj) 7 (Nat.le_refl 7) i hi)

/-- Algorithm 10 is the inverse transform with its final scale. -/
theorem seq_nttInverse (f : Tq) (i : Nat) (hi : i < 256) :
    seq (nttInverse f) i = inverseTransform zetas 2 7 7 (seq f) i * 3303 := by
  have hstrides : strides.reverse = (List.range 7).map fun t => 2 ^ t * 2 := by decide
  have h := (fold_inverse zetas (w := 2) (h := 7) (by omega) (by decide) (Vector.ofFn f) 7 (Nat.le_refl 7)).2 i hi
  rw [← hstrides, getElem!_pos _ i hi, inverseTransform_congr (by omega) (fun j hj => getElem!_ofFn f j hj) 7
    (Nat.le_refl 7) i hi] at h
  rw [seq_lt _ i hi, nttInverse_eq_fold, ← h]
  rfl

/-! ## The isomorphism -/

/-- The final scale undoes the doublings of seven stages. -/
theorem scale_128 : (2 ^ 7 : Zq) * 3303 = 1 := by decide +kernel

/-- The inverse transform undoes the transform. -/
theorem nttInverse_ntt (f : Rq) : nttInverse (ntt f) = f := by
  refine ext_seq fun i hi => ?_
  have hcongr : inverseTransform zetas 2 7 7 (seq (ntt f)) i =
    inverseTransform zetas 2 7 7 (transform zetas 2 7 7 (seq f)) i :=
    inverseTransform_congr (by omega) (fun j hj => seq_ntt f j hj) 7 (Nat.le_refl 7) i hi
  rw [seq_nttInverse _ i hi, hcongr, inverseTransform_transform (by omega) opposite_zetas _ 7 (Nat.le_refl 7) i hi,
    Nat.sub_self, transform, mul_right_comm, scale_128, one_mul]

/-- The transform undoes the inverse transform. -/
theorem ntt_nttInverse (f : Tq) : ntt (nttInverse f) = f := by
  refine ext_seq fun i hi => ?_
  have hscale : ∀ j < 2 ^ 7 * 2, seq (nttInverse f) j =
      3303 * inverseTransform zetas 2 7 7 (seq f) j + 0 * inverseTransform zetas 2 7 7 (seq f) j := by
    intro j hj
    rw [seq_nttInverse f j hj]
    ring
  rw [seq_ntt _ i hi, transform_congr (by omega) hscale 7 (Nat.le_refl 7) i hi, transform_linear, zero_mul, add_zero,
    transform_inverseTransform (by omega) opposite_zetas _ 7 (Nat.le_refl 7) i hi, Nat.sub_self, inverseTransform,
    ← mul_assoc, mul_comm 3303, scale_128, one_mul]

/-- A sum as a linear combination, for the linearity of the stages. -/
theorem seq_add (f g : Fin 256 → Zq) (i : Nat) (hi : i < 256) : seq (f + g) i = 1 * seq f i + 1 * seq g i := by
  rw [seq_lt _ i hi, seq_lt f i hi, seq_lt g i hi, one_mul, one_mul]
  rfl

/-- The transform is additive. -/
theorem ntt_add (f g : Rq) : ntt (f + g) = ntt f + ntt g := by
  refine ext_seq fun i hi => ?_
  rw [seq_ntt _ i hi, transform_congr (by omega) (fun j hj => seq_add f g j hj) 7 (Nat.le_refl 7) i hi, transform_linear,
    seq_add _ _ i hi, seq_ntt f i hi, seq_ntt g i hi]

theorem nttInverse_add (f g : Tq) : nttInverse (f + g) = nttInverse f + nttInverse g := by
  refine ext_seq fun i hi => ?_
  rw [seq_nttInverse _ i hi, inverseTransform_congr (by omega) (fun j hj => seq_add f g j hj) 7 (Nat.le_refl 7) i hi,
    inverseTransform_linear, seq_add _ _ i hi, seq_nttInverse f i hi, seq_nttInverse g i hi]
  ring

/-- The inverse transform commutes with a scale. -/
theorem nttInverse_smul (c : Zq) (f : Tq) : nttInverse (c • f) = c • nttInverse f := by
  have hseq : ∀ g : Fin 256 → Zq, ∀ j < 2 ^ 7 * 2, seq (c • g) j = c * seq g j + 0 * seq g j := by
    intro g j hj
    rw [seq_lt _ j hj, seq_lt g j hj, zero_mul, add_zero]
    rfl
  refine ext_seq fun i hi => ?_
  rw [seq_nttInverse _ i hi, inverseTransform_congr (by omega) (hseq f) 7 (Nat.le_refl 7) i hi, inverseTransform_linear,
    hseq _ i hi, seq_nttInverse f i hi]
  ring

/-- The inverse transform as a homomorphism of additive groups. -/
def nttInverseHom : Tq →+ Rq where
  toFun := nttInverse
  map_zero' := by
    have h := nttInverse_add 0 0
    rwa [add_zero, left_eq_add] at h
  map_add' := nttInverse_add

/-- The blocks of a transformed polynomial are its residues. -/
theorem residues_ntt (f : Rq) : Residues gamma 2 128 (seq f) (seq (ntt f)) := by
  intro b hb r hr
  have h := residues_transform (w := 2) squareRoots_zetas (seq f) 7 (Nat.le_refl 7) b hb r hr
  simp only [Nat.sub_self, pow_zero, Nat.one_mul, show (2 : Nat) ^ 7 = 128 by decide, rootOf_last b hb] at h
  rw [seq_ntt f _ (by omega)]
  exact h

/-! ## The product -/

/-- The even coefficient of a base product. -/
theorem multiplyNtts_even (f g : Tq) (i : Nat) (hi : i < 128) : seq (multiplyNtts f g) (2 * i) =
    seq f (2 * i) * seq g (2 * i) + seq f (2 * i + 1) * seq g (2 * i + 1) * gamma i := by
  rw [seq_lt _ (2 * i) (by omega)]
  simp only [multiplyNtts, Nat.mul_mod_right, if_true, Nat.mul_div_cancel_left i (show 0 < 2 by decide)]

/-- The odd coefficient of a base product. -/
theorem multiplyNtts_odd (f g : Tq) (i : Nat) (hi : i < 128) : seq (multiplyNtts f g) (2 * i + 1) =
    seq f (2 * i) * seq g (2 * i + 1) + seq f (2 * i + 1) * seq g (2 * i) := by
  have hmod : ¬(2 * i + 1) % 2 = 0 := by omega
  rw [seq_lt _ (2 * i + 1) (by omega)]
  simp only [multiplyNtts, hmod, if_false, show (2 * i + 1) / 2 = i by omega]

/-- Two elements are equal when their blocks of two are. -/
theorem ext_blocks {f g : Fin 256 → Zq}
    (h : ∀ i < 128, seq f (2 * i) = seq g (2 * i) ∧ seq f (2 * i + 1) = seq g (2 * i + 1)) :
    f = g := by
  refine ext_seq fun k hk => ?_
  obtain ⟨heven, hodd⟩ := h (k / 2) (by omega)
  rcases Nat.mod_two_eq_zero_or_one k with hmod | hmod
  · have hk : 2 * (k / 2) = k := by omega
    rwa [hk] at heven
  · have hk : 2 * (k / 2) + 1 = k := by omega
    rwa [hk] at hodd

/-- The transform turns the product modulo `X^256 + 1` into the product of Algorithm 11. -/
theorem ntt_multiply (f g : Rq) : ntt (multiply f g) = multiplyNtts (ntt f) (ntt g) := by
  refine ext_blocks fun i hi => ?_
  have hproduct : Residues gamma 2 128 (negacyclic (2 * 128) (seq f) (seq g)) (seq (ntt (multiply f g))) := by
    intro b hb r hr
    rw [residues_ntt (multiply f g) b hb r hr]
    refine Finset.sum_congr rfl fun t ht => ?_
    have ht : t < 128 := Finset.mem_range.mp ht
    rw [seq_lt _ (2 * t + r) (by omega), multiply]
  obtain ⟨heven, hodd⟩ :=
    residues_negacyclic (fun b _ => gamma_pow_128 b) (residues_ntt f) (residues_ntt g) hproduct i hi
  rw [multiplyNtts_even _ _ i hi, multiplyNtts_odd _ _ i hi, heven, hodd]
  exact ⟨by ring, rfl⟩

/-- The block `i` of a transformed element, in `Zq[X]/(X^2 - gamma i)`. -/
def pair (i : Fin 128) : Tq →ₗ[Zq] QuadraticAlgebra Zq (gamma i) 0 where
  toFun f := ⟨f ⟨2 * i.val, by omega⟩, f ⟨2 * i.val + 1, by omega⟩⟩
  map_add' _ _ := rfl
  map_smul' _ _ := rfl

/-- A block as an element of its quadratic extension. -/
theorem pair_eq (i : Fin 128) (f : Tq) : pair i f = ⟨seq f (2 * i), seq f (2 * i + 1)⟩ := by
  rw [seq_lt f (2 * i) (by omega), seq_lt f (2 * i + 1) (by omega)]
  rfl

/-- Algorithm 11 multiplies block by block. -/
theorem pair_multiplyNtts (i : Fin 128) (f g : Tq) : pair i (multiplyNtts f g) = pair i f * pair i g := by
  rw [pair_eq, pair_eq, pair_eq, multiplyNtts_even f g i i.isLt, multiplyNtts_odd f g i i.isLt, QuadraticAlgebra.mk_mul_mk]
  refine QuadraticAlgebra.ext ?_ ?_
  · ring
  · ring

/-- Multiplication in Tq is commutative. -/
theorem multiplyNtts_comm (f g : Tq) : multiplyNtts f g = multiplyNtts g f := by
  refine ext_blocks fun i hi => ?_
  simp only [multiplyNtts_even _ _ i hi, multiplyNtts_odd _ _ i hi]
  exact ⟨by ring, by ring⟩

theorem multiplyNtts_assoc (f g h : Tq) : multiplyNtts (multiplyNtts f g) h = multiplyNtts f (multiplyNtts g h) := by
  refine ext_blocks fun i hi => ?_
  simp only [multiplyNtts_even _ _ i hi, multiplyNtts_odd _ _ i hi]
  exact ⟨by ring, by ring⟩

/-- Multiplication in Tq distributes over sums. -/
theorem multiplyNtts_add (f g h : Tq) : multiplyNtts f (g + h) = multiplyNtts f g + multiplyNtts f h := by
  refine ext_blocks fun i hi => ?_
  simp only [multiplyNtts_even _ _ i hi, multiplyNtts_odd _ _ i hi, seq_add _ _ (2 * i) (by omega),
    seq_add _ _ (2 * i + 1) (by omega)]
  exact ⟨by ring, by ring⟩

/-- The product with a fixed left factor as a homomorphism of additive groups. -/
def multiplyHom (f : Tq) : Tq →+ Tq where
  toFun := multiplyNtts f
  map_zero' := by
    have h := multiplyNtts_add f 0 0
    rwa [add_zero, left_eq_add] at h
  map_add' := multiplyNtts_add f

/-- Multiplication in Tq distributes over finite sums. -/
theorem multiplyNtts_sum {k : Nat} (f : Tq) (g : Fin k → Tq) : multiplyNtts f (∑ i, g i) = ∑ i, multiplyNtts f (g i) :=
  map_sum (multiplyHom f) g Finset.univ

/-- The inverse transform of a finite sum. -/
theorem nttInverse_sum {k : Nat} (g : Fin k → Tq) : nttInverse (∑ i, g i) = ∑ i, nttInverse (g i) :=
  map_sum nttInverseHom g Finset.univ

/-- The product modulo `X^256 + 1` through the transform. -/
theorem nttInverse_multiplyNtts (f g : Rq) : nttInverse (multiplyNtts (ntt f) (ntt g)) = multiply f g := by
  rw [← ntt_multiply, nttInverse_ntt]

end Fips203
