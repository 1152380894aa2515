import MlkemSelkie.Lemmas.Checked
import MlkemSelkie.Lemmas.Products

/-!
# No operation on vectors leaves its range

The componentwise operations, the dot products and the noise sampler: each component is the checked operation on ring
elements, under the bounds that the vector represents its exact value with.
-/

namespace MlkemSelkie

open Fips203 Loops

variable {P : ParameterSet} {Γ : Crates}

/-! ## Componentwise operations -/

theorem RqVector.checkedNtt_eq {v : RqVector P} {x : Fin P.K → Rq} (h : v.Represents 3329 x) :
    v.checkedNtt = some v.ntt := by
  have hrun : (Vector.ofFnM fun i : Fin P.K => v.polys[i].checkedNtt) = some v.ntt.polys := ofFnM_eq_some fun i => by
    rw [RqElement.checkedNtt_eq (h i).1, getElem_ntt]
  rw [checkedNtt, hrun]
  rfl

/-- The sum of bounded vectors over Rq. -/
theorem RqVector.checkedAdd_eq {A B : Nat} {v w : RqVector P} {x y : Fin P.K → Rq} (hv : v.Represents A x)
    (hw : w.Represents B y) (h : A + B ≤ 32767) : v.checkedAdd w = some (v + w) := by
  have hrun : (Vector.ofFnM fun i : Fin P.K => v.polys[i].checkedAdd w.polys[i]) = some (v + w).polys :=
    ofFnM_eq_some fun i => by
      rw [RqElement.checkedAdd_eq (hv i).1 (hw i).1 h]
      exact congrArg some (Vector.getElem_zipWith _).symm
  rw [checkedAdd, hrun]
  rfl

/-- Every product and every sum of an uncached base multiplication is in range. -/
theorem Poly.Generic.checkedMultiply_eq {A B : Nat} {f g : Coefficients} (hf : Coefficients.Within A f)
    (hg : Coefficients.Within B g) (h : A * B ≤ 2038398975) (hT : multiplyBound A B ≤ 32767) :
    checkedMultiply f g = some (multiply f g) := by
  rw [multiplyBound] at hT
  refine ofFnM_eq_some fun k => ?_
  have hk : k.val < 256 := k.isLt
  rw [Loops.getElem_fin, multiply, Vector.getElem_ofFn]
  simp only []
  by_cases hlow : k.val < 128
  · have hf0 := hf.getElem! k.val (by omega)
    have hf1 := hf.getElem! (128 + k.val) (by omega)
    have hg0 := hg.getElem! k.val (by omega)
    have hg1 := hg.getElem! (128 + k.val) (by omega)
    have hgamma : gammaMont[k.val]!.Within 1733 := by
      rw [getElem!_pos gammaMont k.val hlow]
      exact gammaMont_within ⟨k.val, hlow⟩
    have h1 := (product_spec hf0 hg0 h).1
    have h2 := (product_spec hf1 hg1 h).1
    have h3 := (product_spec h2 hgamma (by omega)).1
    rw [if_pos hlow, if_pos hlow, FieldElement.checkedMul_eq hf0 hg0 h, SignedWords.some_bind,
      FieldElement.checkedMul_eq hf1 hg1 h, SignedWords.some_bind, FieldElement.checkedMul_eq h2 hgamma (by omega),
      SignedWords.some_bind, FieldElement.checkedAdd_eq h1 h3 (by omega)]
  · have hf0 := hf.getElem! (k.val - 128) (by omega)
    have hf1 := hf.getElem! k.val (by omega)
    have hg0 := hg.getElem! (k.val - 128) (by omega)
    have hg1 := hg.getElem! k.val (by omega)
    have h1 := (product_spec hf0 hg1 h).1
    have h2 := (product_spec hf1 hg0 h).1
    rw [if_neg hlow, if_neg hlow, FieldElement.checkedMul_eq hf0 hg1 h, SignedWords.some_bind,
      FieldElement.checkedMul_eq hf1 hg0 h, SignedWords.some_bind, FieldElement.checkedAdd_eq h1 h2 (by omega)]

/-- The uncached product of bounded elements. -/
theorem TqElement.checkedMul_eq {A B : Nat} {f g : TqElement} (hf : Coefficients.Within A f.inner)
    (hg : Coefficients.Within B g.inner) (h : A * B ≤ 2038398975) (hT : multiplyBound A B ≤ 32767) :
    f.checkedMul g = some (f * g) := by
  rw [checkedMul, Poly.Generic.checkedMultiply_eq hf hg h hT]
  rfl

theorem CachedTqVector.checkedOf_eq (v : TqVector P) : CachedTqVector.checkedOf v = some (CachedTqVector.of v) := by
  have hrun : (Vector.ofFnM fun i : Fin P.K => v.polys[i].checkedMulCache) = some (CachedTqVector.of v).caches :=
    ofFnM_eq_some fun i => by rw [TqElement.checkedMulCache_eq, CachedTqVector.of_caches]
  rw [checkedOf, hrun]
  rfl

namespace TqVector

theorem checkedNttInverse_eq {v : TqVector P} {x : Fin P.K → Tq} (h : v.Represents 16383 x) :
    v.checkedNttInverse = some v.nttInverse := by
  have hrun : (Vector.ofFnM fun i : Fin P.K => v.polys[i].checkedNttInverse) = some v.nttInverse.polys :=
    ofFnM_eq_some fun i => by rw [TqElement.checkedNttInverse_eq (h i).1, getElem_nttInverse]
  rw [checkedNttInverse, hrun]
  rfl

theorem checkedToMontgomery_eq (v : TqVector P) : v.checkedToMontgomery = some v.toMontgomery := by
  have hrun : (Vector.ofFnM fun i : Fin P.K => v.polys[i].checkedToMontgomery) = some v.toMontgomery.polys :=
    ofFnM_eq_some fun i => by rw [TqElement.checkedToMontgomery_eq, getElem_toMontgomery]
  rw [checkedToMontgomery, hrun]
  rfl

/-- The sum of bounded vectors over Tq. -/
theorem checkedAdd_eq {A B : Nat} {v w : TqVector P} {x y : Fin P.K → Tq} (hv : v.Represents A x)
    (hw : w.Represents B y) (h : A + B ≤ 32767) : v.checkedAdd w = some (v + w) := by
  have hrun : (Vector.ofFnM fun i : Fin P.K => v.polys[i].checkedAdd w.polys[i]) = some (v + w).polys :=
    ofFnM_eq_some fun i => by
      rw [TqElement.checkedAdd_eq (hv i).1 (hw i).1 h]
      exact congrArg some (Vector.getElem_zipWith _).symm
  rw [checkedAdd, hrun]
  rfl

/-- The dot product with a cached vector: at most four components of at most `termBound` each. -/
theorem checkedDot_eq {F G : Nat} {a b : TqVector P} {x y : Fin P.K → Tq} (ha : a.Represents F x) (hb : b.Represents G y)
    (h : DotBounds F G) : a.checkedDot (CachedTqVector.of b) = some (a * CachedTqVector.of b) := by
  have hK : P.K * termBound ≤ 4 * termBound := Nat.mul_le_mul_right _ P.K_bounds.2
  have hzip := zip_operands a (CachedTqVector.of b)
  refine TqElement.checkedAccumulatedDot_eq (T := termBound) ?_ ?_
  · rw [hzip]
    exact List.forall_mem_ofFn_iff.mpr (operands_of_represents ha hb h)
  · rw [hzip, List.length_ofFn, Poly.Generic.accumulatorBound]
    rw [termBound] at *
    omega

/-- The dot product with a cached vector under the demand that no sum leaves the 32-bit words. -/
theorem dotWith_eq {T : Nat} {a b : TqVector P} (hT : 4 * T ≤ Poly.Generic.reducibleBound)
    (hops : ∀ i : Fin P.K, Operands T a.polys[i] b.polys[i] (CachedTqVector.of b).caches[i]) :
    a.dotWith SignedWords.Fits32 (CachedTqVector.of b) = some (a * CachedTqVector.of b) := by
  have hK : P.K * T ≤ 4 * T := Nat.mul_le_mul_right _ P.K_bounds.2
  have hzip := zip_operands a (CachedTqVector.of b)
  refine TqElement.accumulatedDotWith_eq (T := T) ?_ ?_ (Nat.le_refl _) fun x hx => ?_
  · rw [hzip]
    exact List.forall_mem_ofFn_iff.mpr hops
  · rw [hzip, List.length_ofFn]
    omega
  · rw [Poly.Generic.reducibleBound] at hx
    exact ⟨by omega, by omega⟩

/-- Adding up products: every partial sum is in range. -/
theorem checkedMul_run {A B : Nat} (hT : A * B ≤ 2038398975) (terms : List (TqElement × TqElement))
    (hf : ∀ p ∈ terms, Coefficients.Within A p.1.inner) (hg : ∀ p ∈ terms, Coefficients.Within B p.2.inner) :
    ∀ {C : Nat} {t : TqElement}, Coefficients.Within C t.inner → C + terms.length * multiplyBound A B ≤ 32767 →
      terms.foldlM (fun result p => do result.checkedAdd (← p.1.checkedMul p.2)) t =
        some (terms.foldl (fun result p => result + p.1 * p.2) t) := by
  induction terms with
  | nil => exact fun _ _ => rfl
  | cons p terms ih =>
    intro C t ht hC
    rw [List.length_cons, Nat.succ_mul] at hC
    have hp1 := hf p List.mem_cons_self
    have hp2 := hg p List.mem_cons_self
    have hproduct := TqElement.Represents.multiply ⟨hp1, rfl⟩ ⟨hp2, rfl⟩ hT (by omega)
    have hsum := TqElement.Represents.add ⟨ht, rfl⟩ hproduct (by omega)
    rw [List.foldlM_cons, TqElement.checkedMul_eq hp1 hp2 hT (by omega), SignedWords.some_bind,
      TqElement.checkedAdd_eq ht hproduct.1 (by omega), SignedWords.some_bind, List.foldl_cons]
    exact ih (fun r hr => hf r (List.mem_cons_of_mem _ hr)) (fun r hr => hg r (List.mem_cons_of_mem _ hr)) hsum.1 (by omega)

/-- The dot product with a vector that has no caches. -/
theorem checkedMul_eq {A B : Nat} {a b : TqVector P} {x y : Fin P.K → Tq} (ha : a.Represents A x) (hb : b.Represents B y)
    (h : A * B ≤ 2038398975) (hT : 4 * multiplyBound A B ≤ 32767) : a.checkedMul b = some (a * b) := by
  have hK : P.K * multiplyBound A B ≤ 4 * multiplyBound A B := Nat.mul_le_mul_right _ P.K_bounds.2
  have hrun := checkedMul_run h (List.ofFn fun i : Fin P.K => (a.polys[i], b.polys[i]))
    (List.forall_mem_ofFn_iff.mpr fun i => (ha i).1) (List.forall_mem_ofFn_iff.mpr fun i => (hb i).1)
    TqElement.zero_represents.1 (by rw [List.length_ofFn]; omega)
  rw [checkedMul, mul_eq, zip_components, hrun]

end TqVector

/-- The product of a matrix with a cached vector, a dot product for each row. -/
theorem TqMatrix.checkedProduct_eq {F G : Nat} {m : TqMatrix P} {v : TqVector P} {X : Fin P.K → Fin P.K → Tq}
    {y : Fin P.K → Tq} (hm : m.Represents F X) (hv : v.Represents G y) (h : DotBounds F G) :
    m.checkedProduct (CachedTqVector.of v) = some (m * CachedTqVector.of v) := by
  have hrun : (Vector.ofFnM fun i : Fin P.K => m.rows[i].checkedDot (CachedTqVector.of v)) =
      some (m * CachedTqVector.of v).polys := ofFnM_eq_some fun i => by
    rw [TqVector.checkedDot_eq (hm i) hv h, getElem_mul]
  rw [checkedProduct, hrun]
  rfl

/-! ## The noise sampler -/

namespace CbdSampler

/-- The noise sampler, one element. -/
theorem checkedSampleElement_eq (s : CbdSampler) : checkedSampleElement Γ s = some (sampleElement Γ s) := by
  simp only [checkedSampleElement, sampleElement, RqElement.checkedSampleCbd_eq]
  rfl

theorem checkedSampleVector_eq (s : CbdSampler) :
    (checkedSampleVector Γ s : Option (RqVector P × CbdSampler)) = some (sampleVector Γ s) := by
  have helement : ∀ (_ : Fin P.K) t, checkedSampleElement Γ t = some (sampleElement Γ t) := fun _ => checkedSampleElement_eq
  have hrun := ofFnM_stateT_pure helement s
  show Option.bind (Vector.ofFnM (fun _ => checkedSampleElement Γ) s) _ = _
  rw [hrun]
  rfl

end CbdSampler

end MlkemSelkie
