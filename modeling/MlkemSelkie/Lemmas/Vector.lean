import MlkemSelkie.Lemmas.Poly
import MlkemSelkie.Vector

/-!
# Vectors, matrices and their products

The products that key generation, encryption and decryption take, with the one bound that covers their operands: every
component adds at most twelve million to an accumulator, so a dot product of up to four stays within `12 q^2` and its
reduction within the input range of the inverse transform.
-/

namespace MlkemSelkie

open Fips203

variable {P : ParameterSet}

/-- A representative of the vector `x`, componentwise. -/
def RqVector.Represents (B : Nat) (v : RqVector P) (x : Fin P.K → Rq) : Prop := ∀ i : Fin P.K, v.polys[i].Represents B (x i)

/-- A representative of the vector `x`, componentwise. -/
def TqVector.Represents (B : Nat) (v : TqVector P) (x : Fin P.K → Tq) : Prop := ∀ i : Fin P.K, v.polys[i].Represents B (x i)

/-- The exact vector that a vector represents. -/
def TqVector.toTq (v : TqVector P) : Fin P.K → Tq := fun i => v.polys[i].toTq

/-- The exact vector that a vector represents. -/
def RqVector.toRq (v : RqVector P) : Fin P.K → Rq := fun i => v.polys[i].toRq

/-- A vector represents one exact vector only. -/
theorem TqVector.Represents.toTq_eq {B : Nat} {v : TqVector P} {x : Fin P.K → Tq} (h : v.Represents B x) : v.toTq = x :=
  funext fun i => (h i).2

/-- A vector represents one exact vector only. -/
theorem RqVector.Represents.toRq_eq {B : Nat} {v : RqVector P} {x : Fin P.K → Rq} (h : v.Represents B x) : v.toRq = x :=
  funext fun i => (h i).2

/-- A representative of the matrix `X`, entrywise. -/
def TqMatrix.Represents (B : Nat) (m : TqMatrix P) (X : Fin P.K → Fin P.K → Tq) : Prop :=
  ∀ i j : Fin P.K, m.rows[i].polys[j].Represents B (X i j)

/-- The largest sum that one component adds to an accumulator. -/
def termBound : Nat := 12000000

/-- Factors of these bounds add at most `termBound` per component. -/
def DotBounds (F G : Nat) : Prop :=
  G ≤ 32768 ∧ F * G + F * ((G * 1733 + 109084672) / 65536) ≤ termBound ∧ F * G + F * G ≤ termBound

instance (F G : Nat) : Decidable (DotBounds F G) := inferInstanceAs (Decidable (_ ∧ _ ∧ _))

/-- A matrix entry or a component of `t_hat` times a fresh transform. -/
theorem dotBounds_fresh : DotBounds 3500 1664 := by decide

/-- A fresh transform times a component of `s_hat`, parsed or fresh. -/
theorem dotBounds_parsed : DotBounds 1664 3328 := by decide

/-! The bounds that one operation leaves lie within those that the next one asks for. -/

/-- Noise can be transformed. -/
theorem noise_le_forward : 3 ≤ 3329 := by decide

/-- Canonical representatives can be factors of a dot product. -/
theorem canonical_le_dot : 3328 ≤ 3500 := by decide

/-- A dot product can be transformed back. -/
theorem dot_le_inverse : 2396 ≤ 16383 := by decide

theorem CachedTqVector.of_caches (v : TqVector P) (i : Fin P.K) : (CachedTqVector.of v).caches[i] = v.polys[i].mulCache := by
  rw [Loops.getElem_fin, CachedTqVector.of, Vector.getElem_ofFn]

/-- The operand triples of a dot product, by position. -/
theorem zip_operands (a : TqVector P) (b : CachedTqVector P) :
    (a.polys.toList.zip b.vector.polys.toList).zip b.caches.toList =
      List.ofFn fun i : Fin P.K => ((a.polys[i], b.vector.polys[i]), b.caches[i]) := by
  refine List.ext_getElem ?_ fun i h1 h2 => ?_
  · simp only [List.length_zip, Vector.length_toList, List.length_ofFn, Nat.min_self]
  · simp only [List.getElem_zip, List.getElem_ofFn, Vector.getElem_toList, Loops.getElem_fin]

/-- The operands of a dot product with a cached vector are within `termBound`. -/
theorem operands_of_represents {F G : Nat} {a b : TqVector P} {x y : Fin P.K → Tq} (ha : a.Represents F x)
    (hb : b.Represents G y) (h : DotBounds F G) (i : Fin P.K) :
    Operands termBound a.polys[i] b.polys[i] (CachedTqVector.of b).caches[i] := by
  obtain ⟨hG, heven, hodd⟩ := h
  rw [CachedTqVector.of_caches]
  exact Operands.of_within (ha i).1 (hb i).1 (fun j => (mulCache_spec (hb i).1 hG j).1) (by decide) heven hodd

/-- The dot product with a cached vector, from the bound of the sums of a component. -/
theorem TqVector.dot_spec {G T : Nat} {a b : TqVector P} (hb : ∀ i : Fin P.K, Coefficients.Within G b.polys[i].inner)
    (hG : G ≤ 32768) (hops : ∀ i : Fin P.K, Operands T a.polys[i] b.polys[i] (CachedTqVector.of b).caches[i])
    (hT : 4 * T ≤ 2038398975) :
    (a * CachedTqVector.of b).Represents ((4 * T + 109084672) / 65536)
      ((169 : Zq) • ∑ i, multiplyNtts (a.toTq i) (b.toTq i)) := by
  have hK : P.K * T ≤ 4 * T := Nat.mul_le_mul_right _ P.K_bounds.2
  have hdot := accumulatedDot_spec (T := T) a.polys.toList (CachedTqVector.of b).vector.polys.toList
    (CachedTqVector.of b).caches.toList
  rw [zip_operands a (CachedTqVector.of b), List.length_ofFn, List.map_ofFn, List.sum_ofFn] at hdot
  have hrep := hdot (List.forall_mem_ofFn_iff.mpr hops)
    (List.forall_mem_ofFn_iff.mpr fun i => by
      rw [CachedTqVector.of_caches]
      exact fun j => (mulCache_spec (hb i) hG j).2)
    (by omega)
  exact hrep.mono (Nat.div_le_div_right (by omega))

/-- The dot product with a cached vector. -/
theorem TqVector.Represents.mul {F G : Nat} {a b : TqVector P} {x y : Fin P.K → Tq} (ha : a.Represents F x)
    (hb : b.Represents G y) (h : DotBounds F G) :
    (a * CachedTqVector.of b).Represents 2396 ((169 : Zq) • ∑ i, multiplyNtts (x i) (y i)) := by
  rw [← ha.toTq_eq, ← hb.toTq_eq]
  exact (dot_spec (fun i => (hb i).1) h.1 (operands_of_represents ha hb h) (by decide)).mono (by decide)

/-- The inverse transform of a product undoes the division by `R` that base multiplication leaves. -/
theorem TqElement.Represents.nttInverse_mul {B : Nat} {t : TqElement} {x : Tq} (h : t.Represents B ((169 : Zq) • x))
    (hB : B ≤ 16383) : t.nttInverse.Represents 2195 (Fips203.nttInverse x) := by
  have h1 := (h.mono hB).nttInverse
  rw [← nttInverse_smul, smul_smul, FieldElement.montgomery_unit, one_smul] at h1
  exact h1

/-- The scale by `R` undoes the division by `R` that base multiplication leaves. -/
theorem TqElement.Represents.toMontgomery_mul {t : TqElement} {x : Tq} (h : t.Represents 2396 ((169 : Zq) • x)) :
    t.toMontgomery.Represents 1713 x := by
  have h1 := h.toMontgomery (by decide)
  rw [smul_smul, FieldElement.montgomery_unit, one_smul] at h1
  exact h1

/-! ## Componentwise operations -/

theorem RqVector.getElem_ntt (v : RqVector P) (i : Fin P.K) : v.ntt.polys[i] = v.polys[i].ntt := by
  rw [Loops.getElem_fin, ntt, Vector.getElem_ofFn]

theorem TqVector.getElem_nttInverse (v : TqVector P) (i : Fin P.K) : v.nttInverse.polys[i] = v.polys[i].nttInverse := by
  rw [Loops.getElem_fin, nttInverse, Vector.getElem_ofFn]

theorem TqVector.getElem_toMontgomery (v : TqVector P) (i : Fin P.K) :
    v.toMontgomery.polys[i] = v.polys[i].toMontgomery := by
  rw [Loops.getElem_fin, toMontgomery, Vector.getElem_ofFn]

/-- A component of a product is the dot product of its row. -/
theorem TqMatrix.getElem_mul (m : TqMatrix P) (v : CachedTqVector P) (i : Fin P.K) : (m * v).polys[i] = m.rows[i] * v := by
  rw [Loops.getElem_fin, show (m * v).polys = Vector.ofFn fun i => m.rows[i] * v from rfl, Vector.getElem_ofFn]

/-- The transform of a vector. -/
theorem RqVector.Represents.ntt {v : RqVector P} {x : Fin P.K → Rq} (h : v.Represents 3329 x) :
    v.ntt.Represents 1664 fun i => Fips203.ntt (x i) := by
  intro i
  rw [getElem_ntt]
  exact (h i).ntt

/-- The sum of two vectors over Rq. -/
theorem RqVector.Represents.add {A B : Nat} {v w : RqVector P} {x y : Fin P.K → Rq} (hv : v.Represents A x)
    (hw : w.Represents B y) (h : A + B ≤ 32767) : (v + w).Represents (A + B) fun i => x i + y i := by
  intro i
  rw [Loops.getElem_fin, show (v + w).polys = Vector.zipWith (· + ·) v.polys w.polys from rfl, Vector.getElem_zipWith]
  exact (hv i).add (hw i) h

/-- The sum of two vectors over Tq. -/
theorem TqVector.Represents.add {A B : Nat} {v w : TqVector P} {x y : Fin P.K → Tq} (hv : v.Represents A x)
    (hw : w.Represents B y) (h : A + B ≤ 32767) : (v + w).Represents (A + B) fun i => x i + y i := by
  intro i
  rw [Loops.getElem_fin, show (v + w).polys = Vector.zipWith (· + ·) v.polys w.polys from rfl, Vector.getElem_zipWith]
  exact (hv i).add (hw i) h

theorem TqVector.Represents.mono {B B' : Nat} {v : TqVector P} {x : Fin P.K → Tq} (h : v.Represents B x) (hB : B ≤ B') :
    v.Represents B' x := fun i => (h i).mono hB

theorem RqVector.Represents.mono {B B' : Nat} {v : RqVector P} {x : Fin P.K → Rq} (h : v.Represents B x) (hB : B ≤ B') :
    v.Represents B' x := fun i => (h i).mono hB

theorem TqMatrix.Represents.mono {B B' : Nat} {m : TqMatrix P} {X : Fin P.K → Fin P.K → Tq} (h : m.Represents B X)
    (hB : B ≤ B') : m.Represents B' X := fun i j => (h i j).mono hB

/-- The transpose of a matrix. -/
theorem TqMatrix.Represents.transpose {B : Nat} {m : TqMatrix P} {X : Fin P.K → Fin P.K → Tq} (h : m.Represents B X) :
    m.transpose.Represents B fun i j => X j i := by
  intro i j
  simp only [TqMatrix.transpose, Loops.getElem_fin, Vector.getElem_ofFn]
  exact h j i

/-- The product of a matrix and a cached vector. -/
theorem TqMatrix.Represents.mul {F G : Nat} {m : TqMatrix P} {v : TqVector P} {X : Fin P.K → Fin P.K → Tq}
    {y : Fin P.K → Tq} (hm : m.Represents F X) (hv : v.Represents G y) (h : DotBounds F G) :
    (m * CachedTqVector.of v).Represents 2396 fun i => (169 : Zq) • ∑ j, multiplyNtts (X i j) (y j) := by
  intro i
  rw [getElem_mul]
  exact TqVector.Represents.mul (hm i) hv h

/-- The inverse transform of a vector of products. -/
theorem TqVector.Represents.nttInverse_mul {v : TqVector P} {x : Fin P.K → Tq}
    (h : v.Represents 2396 fun i => (169 : Zq) • x i) : v.nttInverse.Represents 2195 fun i => Fips203.nttInverse (x i) := by
  intro i
  rw [getElem_nttInverse]
  exact (h i).nttInverse_mul (by decide)

/-- The scale of a vector of products. -/
theorem TqVector.Represents.toMontgomery_mul {v : TqVector P} {x : Fin P.K → Tq}
    (h : v.Represents 2396 fun i => (169 : Zq) • x i) : v.toMontgomery.Represents 1713 x := by
  intro i
  rw [getElem_toMontgomery]
  exact (h i).toMontgomery_mul

end MlkemSelkie
