import MlkemSelkie.Lemmas.Vector

/-!
# The uncached products

Base multiplication reduces every product on its own and adds unreduced terms: each term is bounded, so up to four of the
products still add up in a word.
-/

namespace MlkemSelkie

open Fips203 FieldElement

variable {P : ParameterSet}

/-- The bound of a Montgomery product, from the bounds of the factors. -/
def montgomeryBound (A B : Nat) : Nat := (A * B + 109084672) / 65536

/-- The bound of a base multiplication: the larger of the even and the odd sum of two terms. -/
def multiplyBound (A B : Nat) : Nat :=
  montgomeryBound A B + max (montgomeryBound A B) (montgomeryBound (montgomeryBound A B) 1733)

/-- A base multiplication in the storage halves. -/
theorem multiply_halves (f g : Coefficients) (i : Fin 128) :
    (Poly.Generic.multiply f g)[i.val]! =
        f[i.val]! * g[i.val]! + f[128 + i.val]! * g[128 + i.val]! * gammaMont[i] ∧
      (Poly.Generic.multiply f g)[128 + i.val]! = f[i.val]! * g[128 + i.val]! + f[128 + i.val]! * g[i.val]! := by
  refine ⟨?_, ?_⟩
  · rw [getElem!_pos _ i.val (show i.val < 256 by omega), Poly.Generic.multiply, Vector.getElem_ofFn]
    simp only [i.isLt, if_true, getElem!_pos gammaMont i.val i.isLt]
    rfl
  · rw [getElem!_pos _ (128 + i.val) (show 128 + i.val < 256 by omega), Poly.Generic.multiply, Vector.getElem_ofFn]
    simp only [show ¬128 + i.val < 128 by omega, if_false, Nat.add_sub_cancel_left]

/-- A product of two elements, under the name of its bound. -/
theorem product_spec {a b : FieldElement} {A B : Nat} (ha : a.Within A) (hb : b.Within B) (h : A * B ≤ 2038398975) :
    (a * b).Within (montgomeryBound A B) ∧ (a * b).toZq = 169 * (a.toZq * b.toZq) := by
  obtain ⟨h1, h2⟩ := mul_spec ha hb h
  exact ⟨h1, montgomery_divide h2⟩

/-- The even sum of a base multiplication. -/
theorem evenProduct_spec {A B : Nat} {a0 a1 b0 b1 : FieldElement} (ha0 : a0.Within A) (ha1 : a1.Within A)
    (hb0 : b0.Within B) (hb1 : b1.Within B) (h : A * B ≤ 2038398975) (hT : multiplyBound A B ≤ 32767) (i : Fin 128) :
    (a0 * b0 + a1 * b1 * gammaMont[i]).Within (multiplyBound A B) ∧
      (a0 * b0 + a1 * b1 * gammaMont[i]).toZq = 169 * (a0.toZq * b0.toZq + a1.toZq * b1.toZq * gamma i) := by
  rw [multiplyBound] at hT
  obtain ⟨hlow, hlow'⟩ := product_spec ha0 hb0 h
  obtain ⟨hhigh, hhigh'⟩ := product_spec ha1 hb1 h
  obtain ⟨hscaled, hscaled'⟩ := product_spec hhigh (gammaMont_within i) (by omega)
  obtain ⟨hsum, hsum'⟩ := hlow.add hscaled (by omega)
  refine ⟨hsum.mono (by rw [multiplyBound]; omega), ?_⟩
  rw [hsum', hlow', hscaled', hhigh', gammaMont_eq]
  linear_combination (169 * (a1.toZq * b1.toZq * gamma i)) * montgomery_unit

/-- The odd sum of a base multiplication. -/
theorem oddProduct_spec {A B : Nat} {a0 a1 b0 b1 : FieldElement} (ha0 : a0.Within A) (ha1 : a1.Within A)
    (hb0 : b0.Within B) (hb1 : b1.Within B) (h : A * B ≤ 2038398975) (hT : multiplyBound A B ≤ 32767) :
    (a0 * b1 + a1 * b0).Within (multiplyBound A B) ∧
      (a0 * b1 + a1 * b0).toZq = 169 * (a0.toZq * b1.toZq + a1.toZq * b0.toZq) := by
  rw [multiplyBound] at hT
  obtain ⟨hlow, hlow'⟩ := product_spec ha0 hb1 h
  obtain ⟨hhigh, hhigh'⟩ := product_spec ha1 hb0 h
  obtain ⟨hsum, hsum'⟩ := hlow.add hhigh (by omega)
  refine ⟨hsum.mono (by rw [multiplyBound]; omega), ?_⟩
  rw [hsum', hlow', hhigh']
  ring

/-- The uncached product represents the product of Algorithm 11, over `R`. -/
theorem TqElement.Represents.multiply {A B : Nat} {f g : TqElement} {x y : Tq} (hf : f.Represents A x)
    (hg : g.Represents B y)
    (h : A * B ≤ 2038398975) (hT : multiplyBound A B ≤ 32767) :
    (f * g).Represents (multiplyBound A B) ((169 : Zq) • multiplyNtts x y) := by
  obtain ⟨hf, rfl⟩ := hf
  obtain ⟨hg, rfl⟩ := hg
  have hterms : ∀ i : Fin 128,
      ((f * g).inner[i.val]!.Within (multiplyBound A B) ∧ (f * g).inner[128 + i.val]!.Within (multiplyBound A B)) ∧
      (f * g).inner[i.val]!.toZq = 169 * (f.inner[i.val]!.toZq * g.inner[i.val]!.toZq +
        f.inner[128 + i.val]!.toZq * g.inner[128 + i.val]!.toZq * gamma i) ∧
      (f * g).inner[128 + i.val]!.toZq = 169 * (f.inner[i.val]!.toZq * g.inner[128 + i.val]!.toZq +
        f.inner[128 + i.val]!.toZq * g.inner[i.val]!.toZq) := by
    intro i
    obtain ⟨heven, hodd⟩ := multiply_halves f.inner g.inner i
    have hf0 := hf.getElem! i.val (by omega)
    have hf1 := hf.getElem! (128 + i.val) (by omega)
    have hg0 := hg.getElem! i.val (by omega)
    have hg1 := hg.getElem! (128 + i.val) (by omega)
    obtain ⟨h1, h2⟩ := evenProduct_spec hf0 hf1 hg0 hg1 h hT i
    obtain ⟨h3, h4⟩ := oddProduct_spec hf0 hf1 hg0 hg1 h hT
    rw [← heven] at h1 h2
    rw [← hodd] at h3 h4
    exact ⟨⟨h1, h3⟩, h2, h4⟩
  refine ⟨fun k => ?_, ext_blocks fun i hi => ?_⟩
  · have hk : (f * g).inner[k] = (f * g).inner[k.val]! := (getElem!_pos (f * g).inner k.val k.isLt).symm
    have hlt : k.val < 256 := k.isLt
    rw [hk]
    by_cases hlow : k.val < 128
    · exact (hterms ⟨k.val, hlow⟩).1.1
    · have hhigh := (hterms ⟨k.val - 128, by omega⟩).1.2
      simp only [show 128 + (k.val - 128) = k.val by omega] at hhigh
      exact hhigh
  · obtain ⟨hf1, hf2⟩ := seq_toTq f i hi
    obtain ⟨hg1, hg2⟩ := seq_toTq g i hi
    obtain ⟨hp1, hp2⟩ := seq_toTq (f * g) i hi
    obtain ⟨_, heven, hodd⟩ := hterms ⟨i, hi⟩
    rw [seq_smul _ _ _ (by omega), seq_smul _ _ _ (by omega), multiplyNtts_even _ _ i hi, multiplyNtts_odd _ _ i hi,
      hf1, hf2, hg1, hg2, hp1, hp2]
    exact ⟨heven, hodd⟩

theorem TqElement.zero_represents : TqElement.zero.Represents 0 0 := by
  have hget : ∀ i : Fin 256, TqElement.zero.inner[i] = FieldElement.zero := fun i => Vector.getElem_replicate _
  refine ⟨fun i => ?_, funext fun k => ?_⟩
  · rw [hget]
    decide
  · rw [TqElement.toTq_apply, hget]
    rfl

/-- Adding up products: the bound grows by one product a component. -/
theorem multiply_run {A B : Nat} {ι : Type} (f g : ι → TqElement) (hT : A * B ≤ 2038398975) (terms : List ι)
    (hf : ∀ p ∈ terms, Coefficients.Within A (f p).inner) (hg : ∀ p ∈ terms, Coefficients.Within B (g p).inner) :
    ∀ {C : Nat} {t : TqElement} {x : Tq}, t.Represents C x → C + terms.length * multiplyBound A B ≤ 32767 →
      (terms.foldl (fun result p => result + f p * g p) t).Represents (C + terms.length * multiplyBound A B)
        (x + (169 : Zq) • (terms.map fun p => multiplyNtts (f p).toTq (g p).toTq).sum) := by
  induction terms with
  | nil =>
    intro C t x ht _
    rw [List.foldl_nil, List.length_nil, Nat.zero_mul, Nat.add_zero, List.map_nil, List.sum_nil, smul_zero, add_zero]
    exact ht
  | cons p terms ih =>
    intro C t x ht hC
    rw [List.length_cons, Nat.succ_mul] at hC
    have hproduct : (f p * g p).Represents (multiplyBound A B) ((169 : Zq) • multiplyNtts (f p).toTq (g p).toTq) :=
      TqElement.Represents.multiply ⟨hf p List.mem_cons_self, rfl⟩ ⟨hg p List.mem_cons_self, rfl⟩ hT (by omega)
    have hstep := ih (fun r hr => hf r (List.mem_cons_of_mem _ hr)) (fun r hr => hg r (List.mem_cons_of_mem _ hr))
      (ht.add hproduct (by omega)) (by omega)
    rw [List.foldl_cons, List.length_cons, Nat.succ_mul, Nat.add_comm (terms.length * _), ← Nat.add_assoc, List.map_cons,
      List.sum_cons, smul_add, ← add_assoc]
    exact hstep

/-- The components of an uncached dot product, by position. -/
theorem zip_components (a b : TqVector P) :
    a.polys.toList.zip b.polys.toList = List.ofFn fun i : Fin P.K => (a.polys[i], b.polys[i]) := by
  refine List.ext_getElem ?_ fun i h1 h2 => ?_
  · simp only [List.length_zip, Vector.length_toList, List.length_ofFn, Nat.min_self]
  · simp only [List.getElem_zip, List.getElem_ofFn, Vector.getElem_toList, Loops.getElem_fin]

theorem TqVector.mul_eq (a b : TqVector P) : a * b =
    (a.polys.toList.zip b.polys.toList).foldl (fun result p => result + p.1 * p.2) TqElement.zero := rfl

/-- The dot product with a vector that has no caches. -/
theorem TqVector.Represents.dot {A B : Nat} {a b : TqVector P} {x y : Fin P.K → Tq} (ha : a.Represents A x)
    (hb : b.Represents B y) (h : A * B ≤ 2038398975) (hT : 4 * multiplyBound A B ≤ 32767) :
    (a * b).Represents (P.K * multiplyBound A B) ((169 : Zq) • ∑ i, multiplyNtts (x i) (y i)) := by
  have hK : P.K * multiplyBound A B ≤ 4 * multiplyBound A B := Nat.mul_le_mul_right _ P.K_bounds.2
  have hrun := multiply_run (fun p : TqElement × TqElement => p.1) (fun p => p.2) h
    (List.ofFn fun i : Fin P.K => (a.polys[i], b.polys[i])) (List.forall_mem_ofFn_iff.mpr fun i => (ha i).1)
    (List.forall_mem_ofFn_iff.mpr fun i => (hb i).1) TqElement.zero_represents
    (by rw [List.length_ofFn]; omega)
  rw [List.length_ofFn, Nat.zero_add, zero_add, List.map_ofFn, List.sum_ofFn] at hrun
  simp only [Function.comp_apply] at hrun
  have hsum : ∑ i : Fin P.K, multiplyNtts a.polys[i].toTq b.polys[i].toTq = ∑ i, multiplyNtts (x i) (y i) :=
    Finset.sum_congr rfl fun i _ => by rw [(ha i).2, (hb i).2]
  rw [← hsum, TqVector.mul_eq, zip_components]
  exact hrun

end MlkemSelkie
