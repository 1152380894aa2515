import MlkemSelkie.Lemmas.Ntt
import MlkemSelkie.Poly

/-!
# The ring elements of the code stand for those of FIPS 203

An `RqElement` holds its coefficients in natural order, a `TqElement` the even ones before the odd ones. Each operation
takes bounded representatives of exact elements to bounded representatives of the result; the powers of `R` that base
multiplication leaves are written out.
-/

namespace MlkemSelkie

open Fips203 FieldElement

namespace RqElement

/-- The polynomial of the residue classes. -/
def toRq (f : RqElement) : Rq := Coefficients.toZq f.inner

/-- A representative of the polynomial `x`, its coefficients at most `B` in absolute value. -/
def Represents (B : Nat) (f : RqElement) (x : Rq) : Prop := Coefficients.Within B f.inner ∧ f.toRq = x

end RqElement

namespace TqElement

/-- The element of the residue classes, in natural order. -/
def toTq (t : TqElement) : Tq := Coefficients.toZq t.coefficients

/-- A representative of the element `x`, its coefficients at most `B` in absolute value. -/
def Represents (B : Nat) (t : TqElement) (x : Tq) : Prop := Coefficients.Within B t.inner ∧ t.toTq = x

end TqElement

theorem RqElement.Represents.mono {B B' : Nat} {f : RqElement} {x : Rq} (h : f.Represents B x) (hB : B ≤ B') :
    f.Represents B' x := ⟨h.1.mono hB, h.2⟩

theorem TqElement.Represents.mono {B B' : Nat} {t : TqElement} {x : Tq} (h : t.Represents B x) (hB : B ≤ B') :
    t.Represents B' x := ⟨h.1.mono hB, h.2⟩

/-! ## The storage -/

/-- Unpacking undoes packing. -/
theorem unpack_pack (c : Coefficients) : Poly.Generic.unpack (Poly.Generic.pack c) = c := by
  refine Vector.ext fun k hk => ?_
  have hk : k < 256 := hk
  have hpos : k % 2 * 128 + k / 2 < 256 := by omega
  rw [Poly.Generic.unpack, Vector.getElem_ofFn, getElem!_pos _ (k % 2 * 128 + k / 2) hpos, Poly.Generic.pack,
    Vector.getElem_ofFn]
  rcases Nat.mod_two_eq_zero_or_one k with hmod | hmod
  · have heven : 2 * (k % 2 * 128 + k / 2) = k := by omega
    rw [if_pos (by simp only []; omega), heven, getElem!_pos]
  · have hodd : 2 * (k % 2 * 128 + k / 2 - 128) + 1 = k := by omega
    rw [if_neg (by simp only []; omega), hodd, getElem!_pos]

/-- Where the storage holds a coefficient of the natural order. -/
theorem unpack_getElem! (cs : Coefficients) (j : Nat) (hj : j < 256) :
    (Poly.Generic.unpack cs)[j]! = cs[j % 2 * 128 + j / 2]! := by
  rw [getElem!_pos (Poly.Generic.unpack cs) j hj, Poly.Generic.unpack, Vector.getElem_ofFn]

/-- Packing undoes unpacking. -/
theorem pack_unpack (cs : Coefficients) : Poly.Generic.pack (Poly.Generic.unpack cs) = cs := by
  refine Vector.ext fun k hk => ?_
  have hk : k < 256 := hk
  rw [Poly.Generic.pack, Vector.getElem_ofFn]
  simp only []
  split
  · rename_i hlow
    have heven : 2 * k % 2 * 128 + 2 * k / 2 = k := by omega
    rw [unpack_getElem! cs _ (by omega), heven, getElem!_pos cs k hk]
  · rename_i hhigh
    have hodd : (2 * (k - 128) + 1) % 2 * 128 + (2 * (k - 128) + 1) / 2 = k := by omega
    rw [unpack_getElem! cs _ (by omega), hodd, getElem!_pos cs k hk]

/-- Packing keeps bounds. -/
theorem pack_within {B : Nat} {c : Coefficients} (h : Coefficients.Within B c) :
    Coefficients.Within B (Poly.Generic.pack c) := by
  intro k
  have hk := k.isLt
  rw [Loops.getElem_fin, Poly.Generic.pack, Vector.getElem_ofFn]
  simp only []
  split
  · exact h.getElem! _ (by omega)
  · exact h.getElem! _ (by omega)

/-- Unpacking keeps bounds. -/
theorem unpack_within {B : Nat} {c : Coefficients} (h : Coefficients.Within B c) :
    Coefficients.Within B (Poly.Generic.unpack c) := by
  intro k
  have hk := k.isLt
  have hpos : k.val % 2 * 128 + k.val / 2 < 256 := by omega
  rw [Loops.getElem_fin, Poly.Generic.unpack, Vector.getElem_ofFn]
  exact h.getElem! _ hpos

/-- The even coefficients are the first half of the storage, the odd ones the second. -/
theorem seq_toTq (t : TqElement) (i : Nat) (hi : i < 128) :
    seq t.toTq (2 * i) = t.inner[i]!.toZq ∧ seq t.toTq (2 * i + 1) = t.inner[128 + i]!.toZq := by
  have heven : 2 * i % 2 * 128 + 2 * i / 2 = i := by omega
  have hodd : (2 * i + 1) % 2 * 128 + (2 * i + 1) / 2 = 128 + i := by omega
  refine ⟨?_, ?_⟩
  · rw [seq_lt _ (2 * i) (by omega), TqElement.toTq, Coefficients.toZq, Loops.getElem_fin, TqElement.coefficients,
      Poly.Generic.unpack, Vector.getElem_ofFn]
    simp only [heven]
  · rw [seq_lt _ (2 * i + 1) (by omega), TqElement.toTq, Coefficients.toZq, Loops.getElem_fin, TqElement.coefficients,
      Poly.Generic.unpack, Vector.getElem_ofFn]
    simp only [hodd]

/-- Splitting natural coefficients into the storage keeps the element. -/
theorem TqElement.new_represents {B : Nat} {c : Coefficients} (h : Coefficients.Within B c) :
    (TqElement.new c).Represents B (Coefficients.toZq c) := by
  refine ⟨pack_within h, ?_⟩
  rw [TqElement.toTq, TqElement.coefficients, TqElement.new, unpack_pack]

/-! ## The transforms -/

/-- The transform of an element is Algorithm 9, its coefficients centered. -/
theorem RqElement.Represents.ntt {f : RqElement} {x : Rq} (h : f.Represents 3329 x) :
    f.ntt.Represents 1664 (Fips203.ntt x) := by
  obtain ⟨hw, rfl⟩ := h
  obtain ⟨h1, h2⟩ := ntt_spec hw
  rw [RqElement.toRq, ← h2]
  exact TqElement.new_represents h1

/-- The inverse transform of an element is Algorithm 10 times `R`. -/
theorem TqElement.Represents.nttInverse {t : TqElement} {x : Tq} (h : t.Represents 16383 x) :
    t.nttInverse.Represents 2195 ((2 ^ 16 : Zq) • Fips203.nttInverse x) := by
  obtain ⟨hw, rfl⟩ := h
  exact nttInverse_spec (unpack_within hw)

/-! ## Sums and scales -/

/-- Sums of arrays, coefficient by coefficient. -/
theorem Represents.zipWith_add {A B : Nat} {a b : Coefficients} (ha : Coefficients.Within A a) (hb : Coefficients.Within B b)
    (h : A + B ≤ 32767) : Coefficients.Within (A + B) (Vector.zipWith (· + ·) a b) ∧
      ∀ i : Fin 256, (Vector.zipWith (· + ·) a b)[i].toZq = a[i].toZq + b[i].toZq := by
  refine ⟨fun i => ?_, fun i => ?_⟩
  · rw [Loops.getElem_fin, Vector.getElem_zipWith]
    exact ((ha i).add (hb i) h).1
  · rw [Loops.getElem_fin, Vector.getElem_zipWith]
    exact ((ha i).add (hb i) h).2

/-- The sum of two elements of Rq. -/
theorem RqElement.Represents.add {A B : Nat} {f g : RqElement} {x y : Rq} (hf : f.Represents A x) (hg : g.Represents B y)
    (h : A + B ≤ 32767) : (f + g).Represents (A + B) (x + y) := by
  obtain ⟨hf, rfl⟩ := hf
  obtain ⟨hg, rfl⟩ := hg
  obtain ⟨h1, h2⟩ := Represents.zipWith_add hf hg h
  exact ⟨h1, funext h2⟩

/-- The difference of two elements of Rq. -/
theorem RqElement.Represents.sub {A B : Nat} {f g : RqElement} {x y : Rq} (hf : f.Represents A x) (hg : g.Represents B y)
    (h : A + B ≤ 32767) : (f - g).Represents (A + B) (x - y) := by
  obtain ⟨hf, rfl⟩ := hf
  obtain ⟨hg, rfl⟩ := hg
  have hget : ∀ i : Fin 256, (f - g).inner[i] = f.inner[i] - g.inner[i] := fun i => Vector.getElem_zipWith _
  refine ⟨fun i => ?_, funext fun i => ?_⟩
  · rw [hget]
    exact ((hf i).sub (hg i) h).1
  · rw [RqElement.toRq, Coefficients.toZq, hget]
    exact ((hf i).sub (hg i) h).2

/-- Where the storage holds the coefficient `k`. -/
def storagePos (k : Fin 256) : Fin 256 := ⟨k.val % 2 * 128 + k.val / 2, by omega⟩

/-- A coefficient of an element, where the storage holds it. -/
theorem TqElement.toTq_apply (t : TqElement) (k : Fin 256) : t.toTq k = t.inner[storagePos k].toZq := by
  rw [TqElement.toTq, Coefficients.toZq, Loops.getElem_fin, TqElement.coefficients, Poly.Generic.unpack, Vector.getElem_ofFn,
    getElem!_pos _ (k.val % 2 * 128 + k.val / 2) (storagePos k).isLt]
  rfl

/-- The sum of two elements of Tq. -/
theorem TqElement.Represents.add {A B : Nat} {f g : TqElement} {x y : Tq} (hf : f.Represents A x) (hg : g.Represents B y)
    (h : A + B ≤ 32767) : (f + g).Represents (A + B) (x + y) := by
  obtain ⟨hf, rfl⟩ := hf
  obtain ⟨hg, rfl⟩ := hg
  obtain ⟨h1, h2⟩ := Represents.zipWith_add hf hg h
  refine ⟨h1, funext fun k => ?_⟩
  rw [Pi.add_apply, TqElement.toTq_apply, TqElement.toTq_apply, TqElement.toTq_apply]
  exact h2 (storagePos k)

/-- The scale by `R` of every coefficient. -/
theorem TqElement.Represents.toMontgomery {A : Nat} {t : TqElement} {x : Tq} (h : t.Represents A x) (hA : A ≤ 32768) :
    t.toMontgomery.Represents ((A * 1353 + 109084672) / 65536) ((2 ^ 16 : Zq) • x) := by
  obtain ⟨hw, rfl⟩ := h
  have hget : ∀ i : Fin 256, t.toMontgomery.inner[i] = t.inner[i].toMontgomery := fun i => by
    rw [Loops.getElem_fin, TqElement.toMontgomery, Vector.getElem_map]
    rfl
  refine ⟨fun i => ?_, funext fun k => ?_⟩
  · rw [hget]
    exact (toMontgomery_spec (hw i) hA).1
  · rw [Pi.smul_apply, TqElement.toTq_apply, TqElement.toTq_apply, hget]
    exact (toMontgomery_spec (hw (storagePos k)) hA).2

/-! ## Base multiplication -/

/-- The cache of an element holds the products of its odd coefficients with the roots. -/
theorem mulCache_spec {B : Nat} {g : TqElement} (hg : Coefficients.Within B g.inner) (hB : B ≤ 32768) (i : Fin 128) :
    g.mulCache.inner[i].Within ((B * 1733 + 109084672) / 65536) ∧
      g.mulCache.inner[i].toZq = g.inner[128 + i.val]!.toZq * gamma i := by
  have hget : g.mulCache.inner[i] = g.inner[128 + i.val]! * gammaMont[i] := by
    rw [Loops.getElem_fin, TqElement.mulCache, Vector.getElem_ofFn]
  obtain ⟨h1, h2⟩ := mul_spec (hg.getElem! (128 + i.val) (by omega)) (gammaMont_within i) (by omega)
  rw [hget]
  refine ⟨h1, montgomery_cancel (h2.trans ?_)⟩
  rw [gammaMont_eq]
  ring

/-- The sums of an accumulator are at most `B` in absolute value. -/
def ProductAccumulator.Within (B : Nat) (acc : ProductAccumulator) : Prop :=
  ∀ i : Fin 128, (-(B : Int) ≤ acc.even[i].toInt ∧ acc.even[i].toInt ≤ B) ∧ -(B : Int) ≤ acc.odd[i].toInt ∧
    acc.odd[i].toInt ≤ B

theorem ProductAccumulator.Within.mono {B B' : Nat} {acc : ProductAccumulator} (h : acc.Within B) (hB : B ≤ B') :
    acc.Within B' := by
  intro i
  obtain ⟨⟨h1, h2⟩, h3, h4⟩ := h i
  exact ⟨⟨by omega, by omega⟩, by omega, by omega⟩

/-- The even sum of one component of a dot product. -/
def evenTerm (f g : TqElement) (cache : TqMulCache) (i : Fin 128) : Int :=
  f.inner[i.val]!.toInt * g.inner[i.val]!.toInt + f.inner[128 + i.val]!.toInt * cache.inner[i].toInt

/-- The odd sum of one component of a dot product. -/
def oddTerm (f g : TqElement) (i : Fin 128) : Int :=
  f.inner[i.val]!.toInt * g.inner[128 + i.val]!.toInt + f.inner[128 + i.val]!.toInt * g.inner[i.val]!.toInt

/-- The operands of a base multiplication: their bounds keep both sums of a component within `T`. -/
structure Operands (T : Nat) (f g : TqElement) (cache : TqMulCache) : Prop where
  fits : T ≤ 2147483647
  even : ∀ i, -(T : Int) ≤ evenTerm f g cache i ∧ evenTerm f g cache i ≤ T
  odd : ∀ i, -(T : Int) ≤ oddTerm f g i ∧ oddTerm f g i ≤ T

/-- Bounds of the factors bound the sums. -/
theorem Operands.of_within {F G C T : Nat} {f g : TqElement} {cache : TqMulCache} (hf : Coefficients.Within F f.inner)
    (hg : Coefficients.Within G g.inner) (hc : ∀ i : Fin 128, cache.inner[i].Within C) (hT : T ≤ 2147483647)
    (heven : F * G + F * C ≤ T) (hodd : F * G + F * G ≤ T) : Operands T f g cache := by
  refine ⟨hT, fun i => ?_, fun i => ?_⟩
  · have h1 := product_bound _ _ (hf.getElem! i.val (by omega)) (hg.getElem! i.val (by omega))
    have h2 := product_bound _ _ (hf.getElem! (128 + i.val) (by omega)) (hc i)
    rw [evenTerm]
    omega
  · have h1 := product_bound _ _ (hf.getElem! i.val (by omega)) (hg.getElem! (128 + i.val) (by omega))
    have h2 := product_bound _ _ (hf.getElem! (128 + i.val) (by omega)) (hg.getElem! i.val (by omega))
    rw [oddTerm]
    omega

/-- A sum of two raw products is exact when it is a 32-bit word. -/
theorem productSum_toInt {a b c d : FieldElement} {x : Int32} {B T : Nat} (hx : -(B : Int) ≤ x.toInt ∧ x.toInt ≤ B)
    (h : -(T : Int) ≤ a.toInt * b.toInt + c.toInt * d.toInt ∧ a.toInt * b.toInt + c.toInt * d.toInt ≤ T)
    (hB : B + T ≤ 2147483647) :
    (x + (a.wideningMul b + c.wideningMul d)).toInt = x.toInt + (a.toInt * b.toInt + c.toInt * d.toInt) := by
  have hsum : (a.wideningMul b + c.wideningMul d).toInt = a.toInt * b.toInt + c.toInt * d.toInt := by
    rw [SignedWords.toInt_add32, wideningMul_toInt, wideningMul_toInt]
    rw [wideningMul_toInt, wideningMul_toInt]
    exact ⟨by omega, by omega⟩
  rw [SignedWords.toInt_add32, hsum]
  rw [hsum]
  exact ⟨by omega, by omega⟩

/-- One component adds its two sums to the accumulator, without a wrap. -/
theorem basemulAccumulate_spec {B T : Nat} {acc : ProductAccumulator} {f g : TqElement} {cache : TqMulCache}
    (hacc : acc.Within B) (h : Operands T f g cache) (hB : B + T ≤ 2147483647) (i : Fin 128) :
    (Poly.Generic.basemulAccumulate acc f.inner g.inner cache.inner).even[i].toInt = acc.even[i].toInt +
      evenTerm f g cache i ∧
    (Poly.Generic.basemulAccumulate acc f.inner g.inner cache.inner).odd[i].toInt = acc.odd[i].toInt + oddTerm f g i := by
  simp only [Poly.Generic.basemulAccumulate, Loops.getElem_fin, Vector.getElem_ofFn]
  exact ⟨productSum_toInt (hacc i).1 (h.even i) hB, productSum_toInt (hacc i).2 (h.odd i) hB⟩

/-- A component adds its bound to the bound of the accumulators. -/
theorem basemulAccumulate_within {B T : Nat} {acc : ProductAccumulator} {f g : TqElement} {cache : TqMulCache}
    (hacc : acc.Within B) (h : Operands T f g cache) (hB : B + T ≤ 2147483647) :
    (Poly.Generic.basemulAccumulate acc f.inner g.inner cache.inner).Within (B + T) := by
  intro i
  obtain ⟨h1, h2⟩ := basemulAccumulate_spec hacc h hB i
  obtain ⟨hacc1, hacc2⟩ := hacc i
  have heven := h.even i
  have hodd := h.odd i
  rw [h1, h2]
  omega

/-- The sums of the empty accumulator. -/
theorem ProductAccumulator.zero_toInt (i : Fin 128) :
    ProductAccumulator.zero.even[i].toInt = 0 ∧ ProductAccumulator.zero.odd[i].toInt = 0 := by
  simp only [ProductAccumulator.zero, Loops.getElem_fin, Vector.getElem_replicate]
  decide

/-- The empty accumulator has every bound. -/
theorem ProductAccumulator.zero_within : ProductAccumulator.zero.Within 0 := by
  intro i
  rw [(zero_toInt i).1, (zero_toInt i).2]
  decide

/-- The components of a dot product, one operand triple each. -/
abbrev Terms : Type := List ((TqElement × TqElement) × TqMulCache)

/-- The accumulation of the components: the sums are exact, and grow by `T` a component. -/
theorem accumulate_run {T : Nat} (terms : Terms) :
    ∀ {B : Nat} {acc : ProductAccumulator}, acc.Within B → (∀ p ∈ terms, Operands T p.1.1 p.1.2 p.2) →
      B + terms.length * T ≤ 2147483647 →
      (terms.foldl (fun acc p => Poly.Generic.basemulAccumulate acc p.1.1.inner p.1.2.inner p.2.inner) acc).Within
        (B + terms.length * T) ∧
      ∀ i : Fin 128,
        (terms.foldl (fun acc p => Poly.Generic.basemulAccumulate acc p.1.1.inner p.1.2.inner p.2.inner) acc).even[i].toInt =
          acc.even[i].toInt + (terms.map fun p => evenTerm p.1.1 p.1.2 p.2 i).sum ∧
        (terms.foldl (fun acc p => Poly.Generic.basemulAccumulate acc p.1.1.inner p.1.2.inner p.2.inner) acc).odd[i].toInt =
          acc.odd[i].toInt + (terms.map fun p => oddTerm p.1.1 p.1.2 i).sum := by
  induction terms with
  | nil =>
    intro B acc hacc _ _
    simp only [List.foldl_nil, List.length_nil, Nat.zero_mul, Nat.add_zero, List.map_nil, List.sum_nil, Int.add_zero]
    exact ⟨hacc, fun _ => ⟨trivial, trivial⟩⟩
  | cons p terms ih =>
    intro B acc hacc hops hB
    rw [List.length_cons, Nat.succ_mul] at hB
    have hop := hops p List.mem_cons_self
    have hstep := basemulAccumulate_within hacc hop (by omega)
    obtain ⟨ih1, ih2⟩ := ih hstep (fun r hr => hops r (List.mem_cons_of_mem _ hr)) (by omega)
    refine ⟨?_, fun i => ?_⟩
    · rw [List.foldl_cons, List.length_cons, Nat.succ_mul, Nat.add_comm (terms.length * T), ← Nat.add_assoc]
      exact ih1
    · obtain ⟨h1, h2⟩ := basemulAccumulate_spec hacc hop (by omega) i
      obtain ⟨h3, h4⟩ := ih2 i
      rw [List.foldl_cons, List.map_cons, List.sum_cons, List.map_cons, List.sum_cons, ← Int.add_assoc, ← Int.add_assoc,
        ← h1, ← h2]
      exact ⟨h3, h4⟩

/-- The operand triples of a dot product, by position. -/
theorem zip_ofFn {k : Nat} (f g : Fin k → TqElement) (caches : Fin k → TqMulCache) :
    ((List.ofFn f).zip (List.ofFn g)).zip (List.ofFn caches) = List.ofFn fun j => ((f j, g j), caches j) := by
  refine List.ext_getElem ?_ fun i h1 h2 => ?_
  · simp only [List.length_zip, List.length_ofFn, Nat.min_self]
  · simp only [List.getElem_zip, List.getElem_ofFn]

/-- A coefficient of a sum of a list. -/
theorem seq_sum {ι : Type} (l : List ι) (F : ι → Tq) (j : Nat) (hj : j < 256) :
    seq (l.map F).sum j = (l.map fun p => seq (F p) j).sum := by
  induction l with
  | nil => exact seq_lt _ j hj
  | cons p l ih => rw [List.map_cons, List.sum_cons, seq_add _ _ j hj, ih, List.map_cons, List.sum_cons, one_mul, one_mul]

/-- A coefficient of a multiple. -/
theorem seq_smul (c : Zq) (f : Fin 256 → Zq) (j : Nat) (hj : j < 256) : seq (c • f) j = c * seq f j := by
  rw [seq_lt _ j hj, seq_lt f j hj]
  rfl

/-- The sums of a component are the coefficients of the product of Algorithm 11. -/
theorem cast_terms {f g : TqElement} {cache : TqMulCache} (i : Fin 128)
    (hcache : cache.inner[i].toZq = g.inner[128 + i.val]!.toZq * gamma i) :
    ((evenTerm f g cache i : Int) : Zq) = seq (multiplyNtts f.toTq g.toTq) (2 * i) ∧
      ((oddTerm f g i : Int) : Zq) = seq (multiplyNtts f.toTq g.toTq) (2 * i + 1) := by
  obtain ⟨hf1, hf2⟩ := seq_toTq f i i.isLt
  obtain ⟨hg1, hg2⟩ := seq_toTq g i i.isLt
  rw [multiplyNtts_even _ _ i i.isLt, multiplyNtts_odd _ _ i i.isLt, hf1, hf2, hg1, hg2, evenTerm, oddTerm]
  push_cast
  rw [show ((cache.inner[i].toInt : Int) : Zq) = g.inner[128 + i.val]!.toZq * gamma i from hcache]
  exact ⟨by simp only [FieldElement.toZq]; ring, rfl⟩

/-- The two halves of the storage of the reduced sums. -/
theorem basemulReduce_even (acc : ProductAccumulator) (i : Fin 128) :
    (Poly.Generic.basemulReduce acc)[i.val]! = fromProductSum acc.even[i] := by
  have hi : i.val < 256 := by omega
  rw [getElem!_pos _ i.val hi, Poly.Generic.basemulReduce, Vector.getElem_ofFn]
  simp only [i.isLt, if_true, getElem!_pos acc.even i.val i.isLt]
  rfl

/-- An odd coefficient of a dot product is its reduced sum. -/
theorem basemulReduce_odd (acc : ProductAccumulator) (i : Fin 128) :
    (Poly.Generic.basemulReduce acc)[128 + i.val]! = fromProductSum acc.odd[i] := by
  have hi : 128 + i.val < 256 := by omega
  have hhalf : ¬128 + i.val < 128 := by omega
  rw [getElem!_pos _ (128 + i.val) hi, Poly.Generic.basemulReduce, Vector.getElem_ofFn]
  simp only [hhalf, if_false, Nat.add_sub_cancel_left, getElem!_pos acc.odd i.val i.isLt]
  rfl

/-- The Montgomery reduction of the sums divides both coefficients of every block by `R`. -/
theorem basemulReduce_spec {B : Nat} {acc : ProductAccumulator} (hacc : acc.Within B) (hB : B ≤ 2038398975) :
    Coefficients.Within ((B + 109084672) / 65536) (Poly.Generic.basemulReduce acc) ∧
      ∀ i : Fin 128, seq (TqElement.toTq ⟨Poly.Generic.basemulReduce acc⟩) (2 * i) = 169 * ((acc.even[i].toInt : Int) : Zq) ∧
        seq (TqElement.toTq ⟨Poly.Generic.basemulReduce acc⟩) (2 * i + 1) = 169 * ((acc.odd[i].toInt : Int) : Zq) := by
  refine ⟨fun k => ?_, fun i => ?_⟩
  · have hk : (Poly.Generic.basemulReduce acc)[k] = (Poly.Generic.basemulReduce acc)[k.val]! :=
      (getElem!_pos (Poly.Generic.basemulReduce acc) k.val k.isLt).symm
    rw [hk]
    by_cases hlow : k.val < 128
    · have h := basemulReduce_even acc ⟨k.val, hlow⟩
      rw [h]
      exact montgomeryReduce_within (hacc ⟨k.val, hlow⟩).1 hB
    · have h := basemulReduce_odd acc ⟨k.val - 128, by omega⟩
      have hpos : 128 + (k.val - 128) = k.val := by omega
      simp only [hpos] at h
      rw [h]
      exact montgomeryReduce_within (hacc ⟨k.val - 128, by omega⟩).2 hB
  · obtain ⟨hseq1, hseq2⟩ := seq_toTq ⟨Poly.Generic.basemulReduce acc⟩ i i.isLt
    obtain ⟨⟨h1, h2⟩, h3, h4⟩ := hacc i
    rw [hseq1, hseq2, basemulReduce_even, basemulReduce_odd]
    exact ⟨montgomery_divide (toZq_montgomeryReduce ⟨by omega, by omega⟩),
      montgomery_divide (toZq_montgomeryReduce ⟨by omega, by omega⟩)⟩

/-- What a dot product is a representative of: the sum of the products of Algorithm 11, over `R`. -/
theorem accumulatedDot_spec {T : Nat} (f g : List TqElement) (caches : List TqMulCache)
    (hops : ∀ p ∈ (f.zip g).zip caches, Operands T p.1.1 p.1.2 p.2)
    (hcache : ∀ p ∈ (f.zip g).zip caches, ∀ i : Fin 128, p.2.inner[i].toZq = p.1.2.inner[128 + i.val]!.toZq * gamma i)
    (hT : ((f.zip g).zip caches).length * T ≤ 2038398975) :
    (TqElement.accumulatedDot f g caches).Represents ((((f.zip g).zip caches).length * T + 109084672) / 65536)
      ((169 : Zq) • (((f.zip g).zip caches).map fun p => multiplyNtts p.1.1.toTq p.1.2.toTq).sum) := by
  generalize hterms : (f.zip g).zip caches = terms at hops hcache hT
  obtain ⟨hwithin, hsums⟩ := accumulate_run terms ProductAccumulator.zero_within hops (by omega)
  rw [Nat.zero_add] at hwithin
  rw [TqElement.accumulatedDot, hterms]
  obtain ⟨h1, h2⟩ := basemulReduce_spec hwithin hT
  refine ⟨h1, ext_blocks fun i hi => ?_⟩
  obtain ⟨heven, hodd⟩ := h2 ⟨i, hi⟩
  obtain ⟨hsum1, hsum2⟩ := hsums ⟨i, hi⟩
  rw [(ProductAccumulator.zero_toInt _).1, Int.zero_add] at hsum1
  rw [(ProductAccumulator.zero_toInt _).2, Int.zero_add] at hsum2
  have hcast := fun p (hp : p ∈ terms) => cast_terms (f := p.1.1) ⟨i, hi⟩ (hcache p hp ⟨i, hi⟩)
  refine ⟨heven.trans ?_, hodd.trans ?_⟩
  · rw [seq_smul _ _ _ (by omega), seq_sum _ _ _ (by omega), hsum1, Int.cast_list_sum, List.map_map]
    exact congrArg (169 * List.sum ·) (List.map_congr_left fun p hp => (hcast p hp).1)
  · rw [seq_smul _ _ _ (by omega), seq_sum _ _ _ (by omega), hsum2, Int.cast_list_sum, List.map_map]
    exact congrArg (169 * List.sum ·) (List.map_congr_left fun p hp => (hcast p hp).2)

end MlkemSelkie
