import MlkemSelkie.Lemmas.BaseMultiplication
import MlkemSelkie.Lemmas.CheckedVector

/-!
# The products of transformed elements

Multiplication through the transform is multiplication modulo `X^256 + 1`, and the two dot products of vectors, one that
reduces at the end and one that reduces every product, agree and stay in range. The vector kernels compute the same
representatives.
-/

namespace MlkemSelkie

open Fips203 FieldElement

variable {P : ParameterSet}

/-! ## Multiplication through the transform -/

/-- The cached dot product of up to four pairs of transformed polynomials. -/
theorem accumulatedDot_ntt {k : Nat} (hk : k ≤ 4) {f g : Fin k → RqElement} (hf : ∀ j, Coefficients.Within 3329 (f j).inner)
    (hg : ∀ j, Coefficients.Within 3329 (g j).inner) :
    (TqElement.accumulatedDot (List.ofFn fun j => (f j).ntt) (List.ofFn fun j => (g j).ntt)
      (List.ofFn fun j => (g j).ntt.mulCache)).Represents 2396
      ((169 : Zq) • ∑ j, multiplyNtts (Fips203.ntt (f j).toRq) (Fips203.ntt (g j).toRq)) := by
  have hfHat : ∀ j, (f j).ntt.Represents 1664 (Fips203.ntt (f j).toRq) := fun j => RqElement.Represents.ntt ⟨hf j, rfl⟩
  have hgHat : ∀ j, (g j).ntt.Represents 1664 (Fips203.ntt (g j).toRq) := fun j => RqElement.Represents.ntt ⟨hg j, rfl⟩
  have hcache := fun j (i : Fin 128) => mulCache_spec (hgHat j).1 (by decide) i
  have hdot := accumulatedDot_spec (T := termBound) (List.ofFn fun j => (f j).ntt) (List.ofFn fun j => (g j).ntt)
    (List.ofFn fun j => (g j).ntt.mulCache)
  rw [zip_ofFn, List.length_ofFn, List.map_ofFn, List.sum_ofFn] at hdot
  have hrep := hdot
    (List.forall_mem_ofFn_iff.mpr fun j => Operands.of_within (hfHat j).1 (hgHat j).1 (fun i => (hcache j i).1) (by decide)
      (by decide) (by decide))
    (List.forall_mem_ofFn_iff.mpr fun j i => (hcache j i).2)
    (by rw [termBound]; omega)
  have hsum : ∑ j, multiplyNtts (f j).ntt.toTq (g j).ntt.toTq =
      ∑ j, multiplyNtts (Fips203.ntt (f j).toRq) (Fips203.ntt (g j).toRq) :=
    Finset.sum_congr rfl fun j _ => by rw [(hfHat j).2, (hgHat j).2]
  rw [← hsum]
  exact hrep.mono (by rw [termBound]; omega)

/-- The product of two transformed polynomials. -/
theorem mul_ntt {f g : RqElement} (hf : Coefficients.Within 3329 f.inner) (hg : Coefficients.Within 3329 g.inner) :
    (f.ntt * g.ntt).Represents 3415 ((169 : Zq) • multiplyNtts (Fips203.ntt f.toRq) (Fips203.ntt g.toRq)) := by
  have hfHat : f.ntt.Represents 1664 (Fips203.ntt f.toRq) := RqElement.Represents.ntt ⟨hf, rfl⟩
  have hgHat : g.ntt.Represents 1664 (Fips203.ntt g.toRq) := RqElement.Represents.ntt ⟨hg, rfl⟩
  exact (hfHat.multiply hgHat (by decide) (by decide)).mono (by decide)

/-- Multiplication through the transform is multiplication modulo `X^256 + 1`. -/
theorem nttInverse_multiplies :
    (∀ k ≤ 4, ∀ f g : Fin k → RqElement, (∀ j, Coefficients.Within 3329 (f j).inner) →
      (∀ j, Coefficients.Within 3329 (g j).inner) →
      (TqElement.accumulatedDot (List.ofFn fun j => (f j).ntt) (List.ofFn fun j => (g j).ntt)
        (List.ofFn fun j => (g j).ntt.mulCache)).nttInverse.toRq = ∑ j, multiply (f j).toRq (g j).toRq) ∧
    ∀ f g : RqElement, Coefficients.Within 3329 f.inner → Coefficients.Within 3329 g.inner →
      (f.ntt * g.ntt).nttInverse.toRq = multiply f.toRq g.toRq := by
  refine ⟨fun k hk f g hf hg => ?_, fun f g hf hg => ?_⟩
  · have hinverse := ((accumulatedDot_ntt hk hf hg).nttInverse_mul (by decide)).2
    rw [hinverse, nttInverse_sum]
    exact Finset.sum_congr rfl fun j _ => nttInverse_multiplyNtts _ _
  · have hinverse := ((mul_ntt hf hg).nttInverse_mul (by decide)).2
    rw [hinverse, nttInverse_multiplyNtts]

/-- The polynomial whose coefficients all have one representative. -/
def RqElement.all (r : Int16) : RqElement := ⟨Vector.replicate N ⟨r⟩⟩

/-- Coefficients at the bound everywhere. -/
theorem nttInverse_multiplies_extremes :
    ((TqElement.accumulatedDot (List.ofFn fun _ : Fin 4 => (RqElement.all 3329).ntt)
      (List.ofFn fun _ : Fin 4 => (RqElement.all (-3329)).ntt)
      (List.ofFn fun _ : Fin 4 => (RqElement.all (-3329)).ntt.mulCache)).nttInverse.toRq =
        ∑ _ : Fin 4, multiply (RqElement.all 3329).toRq (RqElement.all (-3329)).toRq) ∧
    ((RqElement.all 3329).ntt * (RqElement.all (-1664)).ntt).nttInverse.toRq =
      multiply (RqElement.all 3329).toRq (RqElement.all (-1664)).toRq := by
  obtain ⟨hcached, hplain⟩ := nttInverse_multiplies
  have hq : Coefficients.Within 3329 (RqElement.all 3329).inner := .replicate (by decide)
  exact ⟨hcached 4 (Nat.le_refl 4) _ _ (fun _ => hq) (fun _ => .replicate (by decide)),
    hplain _ _ hq (.replicate (by decide))⟩

/-! ## The two dot products of vectors -/

/-- The representatives of a vector are at most `3q/2` in absolute value. -/
def TqVector.Moderate (v : TqVector P) : Prop := ∀ (j : Fin P.K) (k : Fin 256), 2 * v.polys[j].inner[k].toInt.natAbs ≤ 3 * Q

theorem TqVector.Moderate.represents {v : TqVector P} (h : v.Moderate) : v.Represents 4993 v.toTq := by
  refine fun j => ⟨fun k => ?_, rfl⟩
  have hk := h j k
  rw [Q] at hk
  exact ⟨by omega, by omega⟩

theorem montgomery_inv : (2 ^ 16 : Zq)⁻¹ = 169 := by
  have hunit : IsUnit (2 ^ 16 : Zq) := IsUnit.of_mul_eq_one _ montgomery_unit
  exact montgomery_cancel ((ZMod.mul_inv_of_unit _ hunit).trans montgomery_unit.symm)

/-- Both dot products are `2^-16` times the sum of the products of the blocks, and no operation of either leaves its
range. -/
theorem TqVector.dot_products_agree {a b : TqVector P} (ha : a.Moderate) (hb : b.Moderate) :
    (∀ k : Fin 256, (a * CachedTqVector.of b).toTq k = (a * b).toTq k) ∧
    (∀ i : Fin 128,
      pair i (a * CachedTqVector.of b).toTq = (2 ^ 16 : Zq)⁻¹ • ∑ j, pair i (a.toTq j) * pair i (b.toTq j) ∧
      pair i (a * b).toTq = (2 ^ 16 : Zq)⁻¹ • ∑ j, pair i (a.toTq j) * pair i (b.toTq j)) ∧
    (do a.dotWith SignedWords.Fits32 (← CachedTqVector.checkedOf b)) = some (a * CachedTqVector.of b) ∧
    a.checkedMul b = some (a * b) := by
  have ha := ha.represents
  have hb := hb.represents
  have hops : ∀ i : Fin P.K, Operands 49860098 a.polys[i] b.polys[i] (CachedTqVector.of b).caches[i] := fun i => by
    rw [CachedTqVector.of_caches]
    exact Operands.of_within (ha i).1 (hb i).1 (fun j => (mulCache_spec (hb i).1 (by decide) j).1) (by decide) (by decide)
      (by decide)
  have hcached := (dot_spec (fun i => (hb i).1) (by decide) hops (by decide)).2
  have hplain := (Represents.dot ha hb (by decide) (by decide)).2
  have hpairs : ∀ i : Fin 128, pair i ((169 : Zq) • ∑ j, multiplyNtts (a.toTq j) (b.toTq j)) =
      (2 ^ 16 : Zq)⁻¹ • ∑ j, pair i (a.toTq j) * pair i (b.toTq j) := fun i => by
    rw [map_smul, map_sum, montgomery_inv]
    exact congrArg _ (Finset.sum_congr rfl fun j _ => pair_multiplyNtts i _ _)
  refine ⟨fun k => by rw [hcached, hplain], fun i => ?_, ?_, checkedMul_eq ha hb (by decide) (by decide)⟩
  · rw [hcached, hplain]
    exact ⟨hpairs i, hpairs i⟩
  · rw [CachedTqVector.checkedOf_eq, SignedWords.some_bind]
    exact dotWith_eq (by decide) hops

/-- The vector whose representatives are all one. -/
def TqVector.all (r : Int16) : TqVector P := ⟨Vector.replicate P.K ⟨Vector.replicate N ⟨r⟩⟩⟩

theorem TqVector.all_moderate {r : Int16} (h : 2 * r.toInt.natAbs ≤ 3 * Q) : (TqVector.all r : TqVector P).Moderate := by
  intro j k
  simp only [all, Loops.getElem_fin, Vector.getElem_replicate]
  exact h

/-- Four components at the bound, of opposite signs. -/
theorem TqVector.dot_products_agree_extremes :
    ∃ a b : TqVector .mlkem1024, a = TqVector.all 4993 ∧ b = TqVector.all (-4993) ∧
      (a * CachedTqVector.of b).toTq 0 = (a * b).toTq 0 ∧
      pair 0 (a * CachedTqVector.of b).toTq = (2 ^ 16 : Zq)⁻¹ • ∑ j, pair 0 (a.toTq j) * pair 0 (b.toTq j) ∧
      (do a.dotWith SignedWords.Fits32 (← CachedTqVector.checkedOf b)) = some (a * CachedTqVector.of b) ∧
      a.checkedMul b = some (a * b) := by
  have ha : (TqVector.all 4993 : TqVector .mlkem1024).Moderate := all_moderate (by decide)
  have hb : (TqVector.all (-4993) : TqVector .mlkem1024).Moderate := all_moderate (by decide)
  obtain ⟨hagree, hblocks, hcached, hplain⟩ := dot_products_agree ha hb
  exact ⟨_, _, rfl, rfl, hagree 0, (hblocks 0).1, hcached, hplain⟩

/-! ## The vector kernels -/

/-- The base multiplication of a backend. -/
structure ProductKernels where
  multiply : Coefficients → Coefficients → Coefficients
  basemulAccumulate : ProductAccumulator → Coefficients → Coefficients → Vector FieldElement 128 → ProductAccumulator
  basemulReduce : ProductAccumulator → Coefficients

def ProductKernels.generic : ProductKernels :=
  ⟨Poly.Generic.multiply, Poly.Generic.basemulAccumulate, Poly.Generic.basemulReduce⟩

def ProductKernels.avx2 : ProductKernels := ⟨Poly.Avx2.multiply, Poly.Avx2.basemulAccumulate, Poly.Avx2.basemulReduce⟩

def ProductKernels.neon : ProductKernels := ⟨Poly.Neon.multiply, Poly.Neon.basemulAccumulate, Poly.Neon.basemulReduce⟩

/-- The components of a dot product accumulated from zero and reduced. -/
def ProductKernels.dot (k : ProductKernels) (terms : List (Coefficients × Coefficients × Vector FieldElement 128)) :
    Coefficients :=
  k.basemulReduce (terms.foldl (fun acc t => k.basemulAccumulate acc t.1 t.2.1 t.2.2) .zero)

/-- The kernels return what the portable ones return, on arrays of any representatives. -/
structure ProductKernels.Agree (k : ProductKernels) : Prop where
  multiply : ∀ f g, k.multiply f g = Poly.Generic.multiply f g
  dot : ∀ terms, k.dot terms = generic.dot terms

/-- Accumulating keeps the planes in the order of the products. -/
theorem holds_foldl (terms : List (Coefficients × Coefficients × Vector FieldElement 128))
    {acc portable : ProductAccumulator}
    (h : Poly.Avx2.Holds acc portable) :
    Poly.Avx2.Holds (terms.foldl (fun acc t => Poly.Avx2.basemulAccumulate acc t.1 t.2.1 t.2.2) acc)
      (terms.foldl (fun acc t => Poly.Generic.basemulAccumulate acc t.1 t.2.1 t.2.2) portable) := by
  induction terms generalizing acc portable with
  | nil => exact h
  | cons t terms ih =>
    rw [List.foldl_cons, List.foldl_cons]
    exact ih (h.accumulate t.1 t.2.1 t.2.2)

/-- Both backends multiply as the portable one does, and no reduced double word that the AVX2 kernel packs saturates. -/
theorem productKernels_agree : ProductKernels.avx2.Agree ∧ ProductKernels.neon.Agree ∧
    ∀ (sums : Vector Int32 8) (l : Fin 8), SignedWords.Fits16 (Poly.Avx2.montgomeryReduceWide sums)[l].toInt := by
  refine ⟨⟨fun f g => ?_, fun terms => ?_⟩, ⟨fun f g => ?_, fun terms => ?_⟩, fun sums l => ?_⟩
  · exact Poly.Avx2.multiply_eq f g
  · simp only [ProductKernels.dot, ProductKernels.avx2, ProductKernels.generic]
    exact (holds_foldl terms Poly.Avx2.holds_zero).reduce
  · exact Poly.Neon.multiply_eq f g
  · simp only [ProductKernels.dot, ProductKernels.neon, ProductKernels.generic]
    simp only [Poly.Neon.basemulAccumulate_eq, Poly.Neon.basemulReduce_eq]
  · exact Poly.Avx2.montgomeryReduceWide_fits sums l.val l.isLt

end MlkemSelkie
