import MlkemSelkie.Lemmas.Poly

/-!
# The sums of a cached dot product

The comment on `from_product_sum` bounds the sums of a dot product by `12 q^2` and its coefficients by `1.2 q`, for up
to four components bounded by `3q/2`. The bounds hold of the operands whose integer products add up to no more than `12
q^2`, and of all operands bounded by `F` and `G` exactly when `k F G` is at most `6 q^2`.
-/

namespace MlkemSelkie

open FieldElement

variable {k : Nat}

/-! ## The documented bounds -/

/-- The representatives of an element are at most `3q/2` in absolute value. -/
def TqElement.Moderate (t : TqElement) : Prop := ∀ i : Fin 256, 2 * t.inner[i].toInt.natAbs ≤ 3 * Q

theorem TqElement.Moderate.within {t : TqElement} (h : t.Moderate) : Coefficients.Within 4993 t.inner := by
  intro i
  have hi := h i
  rw [Q] at hi
  exact ⟨by omega, by omega⟩

/-- The sums that `accumulated_dot` reduces, the caches those of `mul_cache`. -/
def productSums (f g : Fin k → TqElement) : ProductAccumulator :=
  (((List.ofFn f).zip (List.ofFn g)).zip (List.ofFn fun j => (g j).mulCache)).foldl
    (fun acc p => Poly.Generic.basemulAccumulate acc p.1.1.inner p.1.2.inner p.2.inner) ProductAccumulator.zero

/-- The dot product of the components, the caches those of `mul_cache`. -/
def cachedDot (f g : Fin k → TqElement) : TqElement :=
  TqElement.accumulatedDot (List.ofFn f) (List.ofFn g) (List.ofFn fun j => (g j).mulCache)

theorem cachedDot_inner (f g : Fin k → TqElement) :
    (cachedDot f g).inner = Poly.Generic.basemulReduce (productSums f g) := by
  rw [cachedDot, TqElement.accumulatedDot, productSums]

/-- What the comment promises of a dot product: no sum above `12 q^2`, no coefficient above `1.2 q`. -/
structure DocumentedBounds (f g : Fin k → TqElement) : Prop where
  even : ∀ i : Fin 128, (productSums f g).even[i].toInt.natAbs ≤ 12 * Q ^ 2
  odd : ∀ i : Fin 128, (productSums f g).odd[i].toInt.natAbs ≤ 12 * Q ^ 2
  coefficients : ∀ i : Fin 256, 10 * (cachedDot f g).inner[i].toInt.natAbs ≤ 12 * Q

/-- The integer products of the operands of a pair add up to at most `12 q^2`, in both planes and at every pair. -/
structure ProductsFit (f g : Fin k → TqElement) : Prop where
  even : ∀ i : Fin 128, (∑ j, evenTerm (f j) (g j) (g j).mulCache i).natAbs ≤ 12 * Q ^ 2
  odd : ∀ i : Fin 128, (∑ j, oddTerm (f j) (g j) i).natAbs ≤ 12 * Q ^ 2

/-- The sums are those of the integers, and grow by the bound of one component each. -/
theorem productSums_spec {T : Nat} {f g : Fin k → TqElement} (hops : ∀ j, Operands T (f j) (g j) (g j).mulCache)
    (hT : k * T ≤ 2147483647) : (productSums f g).Within (k * T) ∧ ∀ i : Fin 128,
      (productSums f g).even[i].toInt = ∑ j, evenTerm (f j) (g j) (g j).mulCache i ∧
      (productSums f g).odd[i].toInt = ∑ j, oddTerm (f j) (g j) i := by
  have hlen : (List.ofFn fun j => ((f j, g j), (g j).mulCache)).length = k := List.length_ofFn
  obtain ⟨hwithin, hsums⟩ := accumulate_run (List.ofFn fun j => ((f j, g j), (g j).mulCache)) ProductAccumulator.zero_within
    (List.forall_mem_ofFn_iff.mpr hops) (by rw [hlen]; omega)
  rw [hlen, Nat.zero_add] at hwithin
  rw [productSums, zip_ofFn]
  refine ⟨hwithin, fun i => ?_⟩
  obtain ⟨heven, hodd⟩ := hsums i
  rw [(ProductAccumulator.zero_toInt i).1, Int.zero_add, List.map_ofFn, List.sum_ofFn] at heven
  rw [(ProductAccumulator.zero_toInt i).2, Int.zero_add, List.map_ofFn, List.sum_ofFn] at hodd
  exact ⟨heven, hodd⟩

/-- The reduction of sums of at most `B`. -/
theorem cachedDot_within {B : Nat} {f g : Fin k → TqElement} (h : (productSums f g).Within B) (hB : B ≤ 2038398975) :
    Coefficients.Within ((B + 109084672) / 65536) (cachedDot f g).inner := by
  rw [cachedDot_inner]
  exact (basemulReduce_spec h hB).1

/-- Sums of at most `12 q^2` are reduced to coefficients of at most `1.2 q`. -/
theorem documentedBounds_of_within {f g : Fin k → TqElement} (h : (productSums f g).Within (12 * Q ^ 2)) :
    DocumentedBounds f g := by
  refine ⟨fun i => ?_, fun i => ?_, fun i => ?_⟩
  · obtain ⟨⟨h1, h2⟩, _⟩ := h i
    omega
  · obtain ⟨_, h1, h2⟩ := h i
    omega
  · obtain ⟨h1, h2⟩ := cachedDot_within h (by decide) i
    rw [Q] at *
    omega

/-! ## Operands of a domain -/

/-- What one component adds to a sum at most, from the bounds of its factors. -/
def componentBound (F G : Nat) : Nat := F * G + F * max G ((G * 1733 + 109084672) / 65536)

theorem componentBound_le {F G : Nat} (hF : F ≤ 4993) (hG : G ≤ 4993) : componentBound F G ≤ 49860098 := by
  have hlow : F * G ≤ 4993 * 4993 := Nat.mul_le_mul hF hG
  have hhigh : F * max G ((G * 1733 + 109084672) / 65536) ≤ 4993 * 4993 := Nat.mul_le_mul hF (by omega)
  rw [componentBound]
  omega

/-- Components bounded by `F` and `G` add at most `componentBound F G` each. -/
theorem operands_of_bounds {F G : Nat} {f g : TqElement} (hf : Coefficients.Within F f.inner)
    (hg : Coefficients.Within G g.inner) (hF : F ≤ 4993) (hG : G ≤ 4993) : Operands (componentBound F G) f g g.mulCache := by
  have hT := componentBound_le hF hG
  refine Operands.of_within hf hg (fun i => (mulCache_spec hg (by omega) i).1) (by omega) ?_ ?_
  · exact Nat.add_le_add_left (Nat.mul_le_mul_left F (Nat.le_max_right _ _)) _
  · exact Nat.add_le_add_left (Nat.mul_le_mul_left F (Nat.le_max_left _ _)) _

/-- Where a cached factor is larger than `G`, `G` is small and the sums are far from the bound. -/
theorem sums_le {F G : Nat} (hk : k ≤ 4) (hF : F ≤ 4993) (h : k * F * G ≤ 6 * Q ^ 2) :
    k * componentBound F G ≤ 12 * Q ^ 2 := by
  rw [Q] at *
  rw [componentBound, Nat.mul_add, ← Nat.mul_assoc, ← Nat.mul_assoc]
  rcases Nat.le_total ((G * 1733 + 109084672) / 65536) G with hcache | hcache
  · rw [Nat.max_eq_left hcache]
    omega
  · have hsmall : max G ((G * 1733 + 109084672) / 65536) ≤ 1710 := by omega
    have hkF : k * F ≤ 4 * 4993 := Nat.mul_le_mul hk hF
    have hlast := Nat.mul_le_mul hkF hsmall
    omega

/-- The sums of up to four components bounded by `F` and `G` are exact. -/
theorem productSums_of_bounds {F G : Nat} {f g : Fin k → TqElement} (hk : k ≤ 4) (hF : F ≤ 4993) (hG : G ≤ 4993)
    (hf : ∀ j, Coefficients.Within F (f j).inner) (hg : ∀ j, Coefficients.Within G (g j).inner) :
    (productSums f g).Within (k * componentBound F G) ∧ ∀ i : Fin 128,
      (productSums f g).even[i].toInt = ∑ j, evenTerm (f j) (g j) (g j).mulCache i ∧
      (productSums f g).odd[i].toInt = ∑ j, oddTerm (f j) (g j) i := by
  have hT : k * componentBound F G ≤ 4 * 49860098 := Nat.mul_le_mul hk (componentBound_le hF hG)
  exact productSums_spec (fun j => operands_of_bounds (hf j) (hg j) hF hG) (by omega)

/-- The element with the same representative everywhere. -/
def TqElement.all (r : Int16) : TqElement := ⟨Vector.replicate N ⟨r⟩⟩

theorem TqElement.all_within {r : Int16} {B : Nat} (h : r.toInt.natAbs ≤ B) :
    Coefficients.Within B (TqElement.all r).inner := by
  have hr : (FieldElement.mk r).toInt = r.toInt := rfl
  exact .replicate ⟨by omega, by omega⟩

/-- A bound is met by the element that has it everywhere. -/
theorem TqElement.all_ofNat_within {F : Nat} (hF : F ≤ 4993) :
    Coefficients.Within F (TqElement.all (Int16.ofNat F)).inner := by
  have hFi : (Int16.ofNat F).toInt = F := Int16.toInt_ofNat_of_lt (by omega)
  exact all_within (by omega)

theorem TqElement.all_moderate {r : Int16} (h : 2 * r.toInt.natAbs ≤ 3 * Q) : (TqElement.all r).Moderate := by
  intro i
  rw [all, Loops.getElem_fin, Vector.getElem_replicate]
  exact h

theorem TqElement.all_getElem! (r : Int16) (p : Nat) (hp : p < 256) : (TqElement.all r).inner[p]! = ⟨r⟩ := by
  rw [all, getElem!_pos _ p hp, Vector.getElem_replicate]

theorem oddTerm_all (r s : Int16) (i : Fin 128) : oddTerm (.all r) (.all s) i = 2 * (r.toInt * s.toInt) := by
  rw [oddTerm, TqElement.all_getElem! r _ (by omega), TqElement.all_getElem! s _ (by omega),
    TqElement.all_getElem! r _ (by omega), TqElement.all_getElem! s _ (by omega)]
  exact (Int.two_mul _).symm

/-- The odd sums of `k` components with the same representatives everywhere. -/
theorem productSums_all {F G : Nat} (hk : k ≤ 4) (hF : F ≤ 4993) (hG : G ≤ 4993) (i : Fin 128) :
    (productSums (fun _ : Fin k => .all (Int16.ofNat F)) fun _ => .all (Int16.ofNat G)).odd[i].toInt = 2 *
      (k * F * G : Nat) := by
  have hFi : (Int16.ofNat F).toInt = F := Int16.toInt_ofNat_of_lt (by omega)
  have hGi : (Int16.ofNat G).toInt = G := Int16.toInt_ofNat_of_lt (by omega)
  have hsums := (productSums_of_bounds hk hF hG (f := fun _ => .all (Int16.ofNat F)) (g := fun _ => .all (Int16.ofNat G))
    (fun _ => TqElement.all_ofNat_within hF) fun _ => TqElement.all_ofNat_within hG).2 i
  rw [hsums.2, Finset.sum_const, Finset.card_univ, Fintype.card_fin, oddTerm_all, hFi, hGi, nsmul_eq_mul]
  push_cast
  ring

/-! ## Where the documented bounds hold -/

/-- The bounds hold of the operands whose integer products fit, and of no other. -/
theorem documentedBounds_iff_fit {F G : Nat} {f g : Fin k → TqElement} (hk : k ≤ 4) (hF : F ≤ 4993) (hG : G ≤ 4993)
    (hf : ∀ j, Coefficients.Within F (f j).inner) (hg : ∀ j, Coefficients.Within G (g j).inner) :
    DocumentedBounds f g ↔ ProductsFit f g := by
  have hsums := (productSums_of_bounds hk hF hG hf hg).2
  constructor
  · rintro ⟨heven, hodd, _⟩
    refine ⟨fun i => ?_, fun i => ?_⟩
    · rw [← (hsums i).1]
      exact heven i
    · rw [← (hsums i).2]
      exact hodd i
  · rintro ⟨heven, hodd⟩
    refine documentedBounds_of_within fun i => ?_
    have h1 := heven i
    have h2 := hodd i
    rw [(hsums i).1, (hsums i).2]
    exact ⟨⟨by omega, by omega⟩, by omega, by omega⟩

/-- The documented bounds of a dot product of up to four components bounded by `F` and `G`, at most `3q/2` both: an
input meets them if and only if its integer products fit, and every input meets them if and only if `k F G` is at most
`6 q^2`. -/
theorem documentedBounds_iff {F G : Nat} (hk : k ≤ 4) (hF : 2 * F ≤ 3 * Q) (hG : 2 * G ≤ 3 * Q) :
    (∀ f g : Fin k → TqElement, (∀ j, Coefficients.Within F (f j).inner) → (∀ j, Coefficients.Within G (g j).inner) →
      (DocumentedBounds f g ↔ ProductsFit f g)) ∧
    ((∀ f g : Fin k → TqElement, (∀ j, Coefficients.Within F (f j).inner) → (∀ j, Coefficients.Within G (g j).inner) →
      DocumentedBounds f g) ↔ k * F * G ≤ 6 * Q ^ 2) := by
  have hF' : F ≤ 4993 := by
    rw [Q] at hF
    omega
  have hG' : G ≤ 4993 := by
    rw [Q] at hG
    omega
  refine ⟨fun f g hf hg => documentedBounds_iff_fit hk hF' hG' hf hg, ?_⟩
  constructor
  · intro hbounds
    -- the operands that all sit at their bounds add up to twice the product of the bounds, in every odd sum
    have hodd := (hbounds (fun _ => .all (Int16.ofNat F)) (fun _ => .all (Int16.ofNat G))
      (fun _ => TqElement.all_ofNat_within hF') fun _ => TqElement.all_ofNat_within hG').odd 0
    rw [productSums_all hk hF' hG'] at hodd
    omega
  · intro h f g hf hg
    have hwithin := (productSums_of_bounds hk hF' hG' hf hg).1
    exact documentedBounds_of_within (hwithin.mono (sums_le hk hF' h))

/-- A row of canonical representatives against fresh transforms, all of them at their bounds. -/
theorem documentedBounds_iff_fresh :
    DocumentedBounds (fun _ : Fin 4 => .all 3328) (fun _ => .all (-1664)) ∧
      ProductsFit (fun _ : Fin 4 => .all 3328) (fun _ => .all (-1664)) := by
  obtain ⟨hinput, hdomain⟩ := documentedBounds_iff (k := 4) (F := 3328) (G := 1664) (Nat.le_refl 4) (by decide) (by decide)
  have hf : ∀ _ : Fin 4, Coefficients.Within 3328 (TqElement.all 3328).inner := fun _ => TqElement.all_within (by decide)
  have hg : ∀ _ : Fin 4, Coefficients.Within 1664 (TqElement.all (-1664)).inner := fun _ => TqElement.all_within (by decide)
  have hbounds := hdomain.mpr (by decide) _ _ hf hg
  exact ⟨hbounds, (hinput _ _ hf hg).mp hbounds⟩

/-- Four components of representatives below `3q/2` add up to `198082560`, and leave a coefficient of `4687`: the documented
bounds are `132986892` and `3994`. -/
theorem documentedBounds_exceeded : ∃ f g : Fin 4 → TqElement, f = (fun _ => .all 4960) ∧ g = (fun _ => .all 4992) ∧
    (∀ j, (f j).Moderate) ∧ (∀ j, (g j).Moderate) ∧ (productSums f g).odd[0].toInt = 198082560 ∧
    (cachedDot f g).inner[(128 : Fin 256)].toInt = 4687 ∧ ¬DocumentedBounds f g := by
  have hsum : (productSums (fun _ : Fin 4 => .all 4960) fun _ => .all 4992).odd[(0 : Fin 128)].toInt = 198082560 :=
    productSums_all (F := 4960) (G := 4992) (Nat.le_refl 4) (by decide) (by decide) 0
  have hword : (productSums (fun _ : Fin 4 => .all 4960) fun _ => .all 4992).odd[(0 : Fin 128)] = 198082560 :=
    Int32.toInt_inj.mp hsum
  have hreduced := basemulReduce_odd (productSums (fun _ : Fin 4 => .all 4960) fun _ => .all 4992) 0
  rw [hword, ← cachedDot_inner, getElem!_pos _ (128 + (0 : Fin 128).val) (by decide)] at hreduced
  have hcoefficient := (congrArg FieldElement.toInt hreduced).trans (by decide : (fromProductSum 198082560).toInt = 4687)
  refine ⟨_, _, rfl, rfl, fun _ => TqElement.all_moderate (by decide), fun _ => TqElement.all_moderate (by decide), hsum,
    hcoefficient, ?_⟩
  rintro ⟨_, hodd, _⟩
  have hlt := hodd 0
  rw [hsum] at hlt
  revert hlt
  decide

/-! ## The whole documented domain -/

/-- On the whole documented domain the sums are at most `18 q^2`, and the coefficients are again at most `3q/2`. -/
theorem moderate_dot {f g : Fin k → TqElement} (hk : k ≤ 4) (hf : ∀ j, (f j).Moderate) (hg : ∀ j, (g j).Moderate) :
    (productSums f g).Within (18 * Q ^ 2) ∧ (cachedDot f g).Moderate := by
  have hmax : k * componentBound 4993 4993 ≤ 4 * 49860098 := Nat.mul_le_mul hk (by decide)
  have hwithin := (productSums_of_bounds hk (Nat.le_refl _) (Nat.le_refl _) (fun j => (hf j).within) fun j =>
    (hg j).within).1
  have hsums := hwithin.mono hmax
  refine ⟨hsums.mono (by decide), fun i => ?_⟩
  obtain ⟨h1, h2⟩ := cachedDot_within hsums (by decide) i
  rw [Q]
  omega

end MlkemSelkie
