import MlkemSelkie.Checked
import MlkemSelkie.Lemmas.Kem

/-!
# No operation leaves its range

On bounded representatives every checked operation has the value of the operation that wraps. The bounds are those that the
residues were followed with: what holds of the start of a stage holds of every pair the stage still has to read.
-/

namespace MlkemSelkie

open Fips203 Loops SignedWords FieldElement

variable {P : ParameterSet} {Γ : Crates}

/-! ## The field -/

namespace FieldElement

/-- The sum of bounded elements is a word. -/
theorem checkedAdd_eq {A B : Nat} {a b : FieldElement} (ha : a.Within A) (hb : b.Within B) (h : A + B ≤ 32767) :
    a.checkedAdd b = some (a + b) := check_eq (ha.fits_add hb h) _

/-- So is their difference. -/
theorem checkedSub_eq {A B : Nat} {a b : FieldElement} (ha : a.Within A) (hb : b.Within B) (h : A + B ≤ 32767) :
    a.checkedSub b = some (a - b) := check_eq (ha.fits_sub hb h) _

/-- A bounded sum of products reduces to a word. -/
theorem checkedMontgomeryReduce_eq {a : Int32} (h : -2038398975 ≤ a.toInt ∧ a.toInt ≤ 2038398975) :
    checkedMontgomeryReduce a = some (montgomeryReduce a) := by
  obtain ⟨hm1, hm2⟩ := fits16_toInt (a.toInt16 * qInv)
  exact check_eq ⟨⟨by omega, by omega⟩, ⟨by omega, by omega⟩, by omega, by omega⟩ _

/-- A product of two words fits a double word. -/
theorem checkedWideningMul_eq (a b : FieldElement) : a.checkedWideningMul b = some (a.wideningMul b) := by
  have h := product_bound a b a.within_word b.within_word
  exact check_eq ⟨by omega, by omega⟩ _

/-- The product of bounded elements can be reduced. -/
theorem checkedMul_eq {A B : Nat} {a b : FieldElement} (ha : a.Within A) (hb : b.Within B) (h : A * B ≤ 2038398975) :
    a.checkedMul b = some (a * b) := by
  have hproduct := product_bound a b ha hb
  rw [← wideningMul_toInt] at hproduct
  rw [checkedMul, checkedWideningMul_eq]
  show (checkedMontgomeryReduce (a.wideningMul b)).bind _ = _
  rw [checkedMontgomeryReduce_eq (by omega)]
  rfl

/-- Every element can be scaled by `R`. -/
theorem checkedToMontgomery_eq (a : FieldElement) : a.checkedToMontgomery = some a.toMontgomery :=
  checkedMul_eq a.within_word (B := 1353) (b := ⟨montRSquared⟩) (by decide) (by decide)

/-- A bounded sum of products is reduced. -/
theorem checkedFromProductSum_eq {sum : Int32} (h : -2038398975 ≤ sum.toInt ∧ sum.toInt ≤ 2038398975) :
    checkedFromProductSum sum = some (fromProductSum sum) := by
  rw [checkedFromProductSum, checkedMontgomeryReduce_eq h]
  rfl

end FieldElement

/-! ## The forward transform -/

namespace Poly.Generic

open Butterfly

/-- A forward butterfly of bounded coefficients. -/
theorem checkedNttButterfly_eq {B k len : Nat} (hB : grow B ≤ 32767) (hk : k < 128) (hlen : 0 < len) (cs : Coefficients)
    (j : Nat) (hx : cs[j]!.Within B) (hy : cs[j + len]!.Within B) :
    checkedNttButterfly zetaRaw[k]!.toInt16 zetaBarrett[k]! len cs j = some (pair (nttPair k) len cs j) := by
  have ht := (barrettConstMul_spec hy (by rw [grow] at hB; omega) (zeta_multiplier k hk)).1
  have hpair := pair_eq_upper_first (fun x y : FieldElement => x - y.barrettConstMul zetaRaw[k]!.toInt16 zetaBarrett[k]!)
    (fun x y => x + y.barrettConstMul zetaRaw[k]!.toInt16 zetaBarrett[k]!) len hlen cs j
  rw [checkedNttButterfly, checkedSub_eq hx ht hB]
  -- the lower entry is read again after the upper one is written
  show (FieldElement.checkedAdd (cs.set! (j + len) _)[j]! _).bind _ = _
  rw [getElem!_set!_upper hlen] at hpair ⊢
  rw [checkedAdd_eq hx ht hB]
  exact congrArg some hpair

/-- A forward stage of bounded coefficients. -/
theorem checkedNttStage_eq {B len m : Nat} {s : Nat × Coefficients} (hB : grow B ≤ 32767) (hlen : 0 < len)
    (hm : m * (2 * len) = 256) (hk : s.1 + m ≤ 128) (h : ∀ i < 256, s.2[i]!.Within B) :
    checkedNttStage s len = some (nttStage s len) := by
  obtain ⟨k, cs⟩ := s
  rw [nttStage_eq _ _ hlen]
  refine stageM_eq (fun k => checkedNttButterfly zetaRaw[k]!.toInt16 zetaBarrett[k]! len) (fun k => k + 1) nttPair
    (P := Within B) hlen hm (fun b hb cs j hx hy => ?_) h
  rw [Ntt.iterate_succ_counter]
  exact checkedNttButterfly_eq hB (by simp only at hk; omega) hlen cs j hx hy

/-- The forward transform of canonical or centered coefficients. -/
theorem checkedNtt_eq {cs : Coefficients} (hc : Coefficients.Within 3329 cs) : checkedNtt cs = some (ntt cs) := by
  have hstages : ∀ s ≤ 7, (forwardStrides s).foldlM checkedNttStage (1, cs) =
    some ((forwardStrides s).foldl nttStage (1, cs)) := by
    intro s
    induction s with
    | zero => exact fun _ => rfl
    | succ s ih =>
      intro hs
      obtain ⟨hcounter, _, hwithin⟩ := nttStages_spec hc s (by omega)
      have hpow : 2 ^ s ≤ 64 := Nat.pow_le_pow_right (n := 2) (by decide) (show s ≤ 6 by omega)
      have hword := grow_words s (by omega)
      rw [Function.iterate_succ_apply'] at hword
      have hstage := checkedNttStage_eq hword (Nat.mul_pos (Nat.two_pow_pos (6 - s)) (by decide))
        (forwardStrides_fill (by omega)) (by omega) fun i hi => (hwithin i hi).1
      rw [forwardStrides_succ, List.foldlM_append, List.foldl_append, ih (by omega)]
      show [2 ^ (6 - s) * 2].foldlM checkedNttStage _ = _
      rw [List.foldlM_cons, hstage]
      rfl
  have hall := hstages 7 (Nat.le_refl 7)
  rw [show forwardStrides 7 = nttSeries by decide] at hall
  rw [checkedNtt, hall]
  rfl

/-! ## The inverse transform -/

section
variable {ok : Nat → Int → Prop} [∀ len, DecidablePred (ok len)]

/-- An inverse butterfly of bounded coefficients. -/
theorem nttInverseButterflyWith_eq {B k len : Nat} (hB : B + B ≤ 32767) (hok : ∀ x : Int, x.natAbs ≤ B + B → ok len x)
    (hlen : 0 < len) (cs : Coefficients) (j : Nat) (hx : cs[j]!.Within B) (hy : cs[j + len]!.Within B) :
    nttInverseButterflyWith ok zetaRaw[k]!.toInt16 zetaBarrett[k]! len cs j =
      some (pair (nttInversePair len k) len cs j) := by
  have hpair := pair_eq_lower_first (fun x y : FieldElement => (y - x).barrettConstMul zetaRaw[k]!.toInt16 zetaBarrett[k]!)
    (fun x y => if len = 2 ∨ len = 16 then (x + y).reduce else x + y) len hlen cs j
  have hsum : ok len (cs[j]!.toInt + cs[j + len]!.toInt) := hok _ (by
    obtain ⟨hx1, hx2⟩ := hx
    obtain ⟨hy1, hy2⟩ := hy
    omega)
  rw [nttInverseButterflyWith, check_eq hsum]
  -- the upper entry is read again after the lower one is written
  show (FieldElement.checkedSub (cs.set! j _)[j + len]! _).bind _ = _
  rw [getElem!_set!_lower hlen] at hpair ⊢
  rw [checkedSub_eq hy hx hB]
  exact congrArg some hpair

/-- An inverse stage of bounded coefficients. -/
theorem nttInverseStageWith_eq {B len m : Nat} {s : Nat × Coefficients} (hB : B + B ≤ 32767)
    (hok : ∀ x : Int, x.natAbs ≤ B + B → ok len x) (hlen : 0 < len) (hm : m * (2 * len) = 256)
    (h : ∀ i < 256, s.2[i]!.Within B) : nttInverseStageWith ok s len = some (nttInverseStage s len) := by
  obtain ⟨k, cs⟩ := s
  rw [nttInverseStage_eq _ _ hlen]
  exact stageM_eq (fun k => nttInverseButterflyWith ok zetaRaw[k]!.toInt16 zetaBarrett[k]! len) (fun k => k - 1)
    (nttInversePair len) (P := Within B) hlen hm (fun b hb cs j hx hy => nttInverseButterflyWith_eq hB hok hlen cs j hx hy) h

/-- The inverse transform of coefficients at most 16383 in absolute value, under a demand that the bounds of its stages
meet. -/
theorem nttInverseWith_eq {cs : Coefficients} (hc : Coefficients.Within 16383 cs)
    (hok : ∀ t < 7, ∀ x : Int, x.natAbs ≤ inverseBound t + inverseBound t → ok (2 ^ t * 2) x) :
    nttInverseWith ok cs = some (nttInverse cs) := by
  have hstages : ∀ t ≤ 7, (inverseStrides t).foldlM (nttInverseStageWith ok) (127, cs) =
      some ((inverseStrides t).foldl nttInverseStage (127, cs)) := by
    intro t
    induction t with
    | zero => exact fun _ => rfl
    | succ t ih =>
      intro ht
      obtain ⟨_, _, hwithin⟩ := nttInverseStages_spec hc t (by omega)
      have hstage := nttInverseStageWith_eq (inverseBound_words t (by omega)) (hok t (by omega))
        (Nat.mul_pos (Nat.two_pow_pos t) (by decide)) (inverseStrides_fill (by omega)) fun i hi => (hwithin i hi).1
      rw [inverseStrides_succ, List.foldlM_append, List.foldl_append, ih (by omega)]
      show [2 ^ t * 2].foldlM (nttInverseStageWith ok) _ = _
      rw [List.foldlM_cons, hstage]
      rfl
  have hall := hstages 7 (Nat.le_refl 7)
  obtain ⟨_, _, hwithin⟩ := nttInverseStages_spec hc 7 (Nat.le_refl 7)
  rw [show inverseStrides 7 = nttSeries.reverse by decide] at hall hwithin
  rw [show inverseBound 7 = 24128 by decide] at hwithin
  have hinput : ∀ i : Fin 256, cs[i].toInt.natAbs ≤ 16383 := fun i => by
    obtain ⟨h1, h2⟩ := hc i
    omega
  have hrun : nttInverseWith ok cs = (nttSeries.reverse.foldlM (nttInverseStageWith ok) (127, cs)).bind fun s =>
      Vector.ofFnM fun i => s.2[i].checkedMul nttInverseScale := by
    rw [nttInverseWith, check_eq hinput]
    rfl
  rw [hrun, hall, Option.bind_some]
  refine ofFnM_eq_some fun i => ?_
  have hi := (hwithin i i.isLt).1
  rw [getElem!_pos _ i.val i.isLt] at hi
  rw [Loops.getElem_fin, nttInverse, Loops.getElem_fin, Vector.getElem_map]
  exact checkedMul_eq hi nttInverseScale_within (by decide)

end

/-- The inverse transform of coefficients at most 16383 in absolute value: every sum is a word. -/
theorem checkedNttInverse_eq {cs : Coefficients} (hc : Coefficients.Within 16383 cs) :
    checkedNttInverse cs = some (nttInverse cs) :=
  nttInverseWith_eq hc fun t ht x hx => by
    have hword := inverseBound_words t ht
    exact ⟨by omega, by omega⟩

/-! ## Base multiplication -/

/-- The bound of the accumulators: `12 q^2`. -/
def accumulatorBound : Nat := 132986892

/-- The bound below which an accumulator can be reduced. -/
def reducibleBound : Nat := 2038398975

/-- The demand of the checked accumulation is the bound of the accumulators. -/
theorem accumulatorSum_of_bound (x : Int) (h : x.natAbs ≤ accumulatorBound) : AccumulatorSum x := h.trans (by decide)

section
variable {ok : Int → Prop} [DecidablePred ok] {M : Nat}

/-- A sum of two products, added to a bounded sum. -/
theorem accumulateWith_eq {sum : Int32} {a b c d : FieldElement} {B T : Nat} (hsum : -(B : Int) ≤ sum.toInt ∧ sum.toInt ≤ B)
    (h : -(T : Int) ≤ a.toInt * b.toInt + c.toInt * d.toInt ∧ a.toInt * b.toInt + c.toInt * d.toInt ≤ T)
    (hB : B + T ≤ M) (hM : M ≤ reducibleBound) (hok : ∀ x : Int, x.natAbs ≤ M → ok x) :
    accumulateWith ok sum (a, b) (c, d) = some (sum + (a.wideningMul b + c.wideningMul d)) := by
  rw [reducibleBound] at hM
  have hfits : Fits32 (a.toInt * b.toInt + c.toInt * d.toInt) := ⟨by omega, by omega⟩
  have hboth : (a.wideningMul b + c.wideningMul d).toInt = a.toInt * b.toInt + c.toInt * d.toInt := by
    rw [toInt_add32, wideningMul_toInt, wideningMul_toInt]
    rwa [wideningMul_toInt, wideningMul_toInt]
  rw [accumulateWith, checkedWideningMul_eq, checkedWideningMul_eq]
  show (check (Fits32 ((a.wideningMul b).toInt + (c.wideningMul d).toInt)) _).bind _ = _
  rw [wideningMul_toInt, wideningMul_toInt, check_eq hfits, Option.bind_some]
  refine check_eq (hok _ ?_) _
  rw [hboth]
  omega

/-- One component of a dot product. -/
theorem basemulAccumulateWith_eq {B T : Nat} {acc : ProductAccumulator} {f g : TqElement} {cache : TqMulCache}
    (hacc : acc.Within B) (h : Operands T f g cache) (hB : B + T ≤ M) (hM : M ≤ reducibleBound)
    (hok : ∀ x : Int, x.natAbs ≤ M → ok x) :
    basemulAccumulateWith ok acc f.inner g.inner cache.inner = some (basemulAccumulate acc f.inner g.inner cache.inner) := by
  have heven : (Vector.ofFnM fun i : Fin 128 => accumulateWith ok acc.even[i] (f.inner[i.val]!, g.inner[i.val]!)
      (f.inner[128 + i.val]!, cache.inner[i])) = some (basemulAccumulate acc f.inner g.inner cache.inner).even :=
    ofFnM_eq_some fun i => by
      rw [accumulateWith_eq (hacc i).1 (h.even i) hB hM hok, basemulAccumulate]
      simp only [Loops.getElem_fin, Vector.getElem_ofFn]
  have hodd : (Vector.ofFnM fun i : Fin 128 => accumulateWith ok acc.odd[i] (f.inner[i.val]!, g.inner[128 + i.val]!)
      (f.inner[128 + i.val]!, g.inner[i.val]!)) = some (basemulAccumulate acc f.inner g.inner cache.inner).odd :=
    ofFnM_eq_some fun i => by
      rw [accumulateWith_eq (hacc i).2 (h.odd i) hB hM hok, basemulAccumulate]
      simp only [Loops.getElem_fin, Vector.getElem_ofFn]
  rw [basemulAccumulateWith, heven, hodd]
  rfl

/-- The accumulation of the components of a dot product. -/
theorem accumulateWith_run {T : Nat} (hM : M ≤ reducibleBound) (hok : ∀ x : Int, x.natAbs ≤ M → ok x) (terms : Terms) :
    ∀ {B : Nat} {acc : ProductAccumulator}, acc.Within B → (∀ p ∈ terms, Operands T p.1.1 p.1.2 p.2) →
      B + terms.length * T ≤ M →
      terms.foldlM (fun acc p => basemulAccumulateWith ok acc p.1.1.inner p.1.2.inner p.2.inner) acc =
        some (terms.foldl (fun acc p => basemulAccumulate acc p.1.1.inner p.1.2.inner p.2.inner) acc) := by
  induction terms with
  | nil => exact fun _ _ _ => rfl
  | cons p terms ih =>
    intro B acc hacc hops hB
    rw [List.length_cons, Nat.succ_mul] at hB
    have hop := hops p List.mem_cons_self
    have hstep := basemulAccumulate_within hacc hop (by rw [reducibleBound] at hM; omega)
    rw [List.foldlM_cons, basemulAccumulateWith_eq hacc hop (by omega) hM hok, List.foldl_cons]
    exact ih hstep (fun r hr => hops r (List.mem_cons_of_mem _ hr)) (by omega)

end

/-- The reduction of bounded accumulators. -/
theorem checkedBasemulReduce_eq {B : Nat} {acc : ProductAccumulator} (hacc : acc.Within B) (hB : B ≤ reducibleBound) :
    checkedBasemulReduce acc = some (basemulReduce acc) := by
  rw [reducibleBound] at hB
  have heven : ∀ i : Fin 128, checkedFromProductSum acc.even[i] = some (fromProductSum acc.even[i]) := fun i => by
    obtain ⟨⟨h1, h2⟩, _⟩ := hacc i
    exact checkedFromProductSum_eq ⟨by omega, by omega⟩
  have hodd : ∀ i : Fin 128, checkedFromProductSum acc.odd[i] = some (fromProductSum acc.odd[i]) := fun i => by
    obtain ⟨_, h1, h2⟩ := hacc i
    exact checkedFromProductSum_eq ⟨by omega, by omega⟩
  refine ofFnM_eq_some fun k => ?_
  have hk : k.val < 256 := k.isLt
  rw [Loops.getElem_fin, basemulReduce, Vector.getElem_ofFn]
  simp only []
  by_cases hlow : k.val < 128
  · rw [if_pos hlow, if_pos hlow, getElem!_pos acc.even k.val hlow]
    exact heven ⟨k.val, hlow⟩
  · have hhigh : k.val - 128 < 128 := by omega
    rw [if_neg hlow, if_neg hlow]
    generalize k.val - 128 = j at hhigh
    rw [getElem!_pos acc.odd j hhigh]
    exact hodd ⟨j, hhigh⟩

end Poly.Generic

/-! ## Ring elements -/

namespace TqElement

/-- The inverse transform of an element at most 16383 in absolute value. -/
theorem checkedNttInverse_eq {t : TqElement} (h : Coefficients.Within 16383 t.inner) :
    t.checkedNttInverse = some t.nttInverse := by
  rw [checkedNttInverse, Poly.Generic.checkedNttInverse_eq (unpack_within h)]
  rfl

theorem checkedToMontgomery_eq (t : TqElement) : t.checkedToMontgomery = some t.toMontgomery := by
  have hrun : (Vector.ofFnM fun i : Fin 256 => t.inner[i].checkedToMontgomery) = some t.toMontgomery.inner :=
    ofFnM_eq_some fun i => by
      rw [FieldElement.checkedToMontgomery_eq, toMontgomery, Loops.getElem_fin, Loops.getElem_fin, Vector.getElem_map]
  rw [checkedToMontgomery, hrun]
  rfl

theorem checkedMulCache_eq (t : TqElement) : t.checkedMulCache = some t.mulCache := by
  have hrun : (Vector.ofFnM fun i : Fin 128 => t.inner[128 + i.val]!.checkedMul gammaMont[i]) = some t.mulCache.inner :=
    ofFnM_eq_some fun i => by
      rw [checkedMul_eq (within_word _) (gammaMont_within i) (by decide), mulCache, Loops.getElem_fin, Loops.getElem_fin,
        Vector.getElem_ofFn]
      rfl
  rw [checkedMulCache, hrun]
  rfl

/-- The sum of bounded elements of Tq. -/
theorem checkedAdd_eq {A B : Nat} {a b : TqElement} (ha : Coefficients.Within A a.inner) (hb : Coefficients.Within B b.inner)
    (h : A + B ≤ 32767) : a.checkedAdd b = some (a + b) := by
  have hrun : (Vector.ofFnM fun i : Fin 256 => a.inner[i].checkedAdd b.inner[i]) = some (a + b).inner :=
    ofFnM_eq_some fun i => by
      rw [FieldElement.checkedAdd_eq (ha i) (hb i) h]
      exact congrArg some (Vector.getElem_zipWith _).symm
  rw [checkedAdd, hrun]
  rfl

/-- A dot product whose components are bounded operands. -/
theorem accumulatedDotWith_eq {ok : Int → Prop} [DecidablePred ok] {M T : Nat} {f g : List TqElement}
    {caches : List TqMulCache}
    (hops : ∀ p ∈ (f.zip g).zip caches, Operands T p.1.1 p.1.2 p.2) (hT : ((f.zip g).zip caches).length * T ≤ M)
    (hM : M ≤ Poly.Generic.reducibleBound) (hok : ∀ x : Int, x.natAbs ≤ M → ok x) :
    accumulatedDotWith ok f g caches = some (accumulatedDot f g caches) := by
  have hstart := ProductAccumulator.zero_within
  have hrun := Poly.Generic.accumulateWith_run hM hok _ hstart hops (by omega)
  have hwithin := (accumulate_run _ hstart hops (by rw [Poly.Generic.reducibleBound] at hM; omega)).1
  rw [accumulatedDotWith, hrun, Option.bind_eq_bind, Option.bind_some,
    Poly.Generic.checkedBasemulReduce_eq hwithin (by omega)]
  rfl

/-- The checked dot product demands that every sum stays within the bound of the accumulators. -/
theorem checkedAccumulatedDot_eq {T : Nat} {f g : List TqElement} {caches : List TqMulCache}
    (hops : ∀ p ∈ (f.zip g).zip caches, Operands T p.1.1 p.1.2 p.2)
    (hT : ((f.zip g).zip caches).length * T ≤ Poly.Generic.accumulatorBound) :
    checkedAccumulatedDot f g caches = some (accumulatedDot f g caches) :=
  accumulatedDotWith_eq hops hT (by decide) Poly.Generic.accumulatorSum_of_bound

end TqElement

namespace RqElement

/-- The transform of a canonical or centered element. -/
theorem checkedNtt_eq {f : RqElement} (h : Coefficients.Within 3329 f.inner) : f.checkedNtt = some f.ntt := by
  rw [checkedNtt, Poly.Generic.checkedNtt_eq h]
  rfl

/-- The sum of bounded elements of Rq. -/
theorem checkedAdd_eq {A B : Nat} {a b : RqElement} (ha : Coefficients.Within A a.inner) (hb : Coefficients.Within B b.inner)
    (h : A + B ≤ 32767) : a.checkedAdd b = some (a + b) := by
  have hrun : (Vector.ofFnM fun i : Fin 256 => a.inner[i].checkedAdd b.inner[i]) = some (a + b).inner :=
    ofFnM_eq_some fun i => by
      rw [FieldElement.checkedAdd_eq (ha i) (hb i) h]
      exact congrArg some (Vector.getElem_zipWith _).symm
  rw [checkedAdd, hrun]
  rfl

/-- The difference of bounded elements of Rq. -/
theorem checkedSub_eq {A B : Nat} {a b : RqElement} (ha : Coefficients.Within A a.inner) (hb : Coefficients.Within B b.inner)
    (h : A + B ≤ 32767) : a.checkedSub b = some (a - b) := by
  have hrun : (Vector.ofFnM fun i : Fin 256 => a.inner[i].checkedSub b.inner[i]) = some (a - b).inner :=
    ofFnM_eq_some fun i => by
      rw [FieldElement.checkedSub_eq (ha i) (hb i) h]
      exact congrArg some (Vector.getElem_zipWith _).symm
  rw [checkedSub, hrun]
  rfl

/-- The difference of two canonical elements. -/
theorem checkedSub_new (a b : UInt16) : (new a).checkedSub (new b) = some (new a - new b) :=
  FieldElement.checkedSub_eq (new_within a) (new_within b) (by decide)

theorem checkedSampleCbdEta2_eq (bytes : List UInt8) : checkedSampleCbdEta2 bytes = some (sampleCbdEta2 bytes) := by
  rw [checkedSampleCbdEta2]
  show Option.bind (Vector.ofFnM _) _ = _
  rw [ofFnM_eq_some (v := (sampleCbdEta2 bytes).inner) fun i => ?_]
  · rfl
  · rw [sampleCbdEta2, Loops.getElem_fin, Vector.getElem_ofFn]
    simp only [checkedSub_new]
    cases (chunksExact 4 bytes)[i.val / 8]? <;> rfl

theorem checkedSampleCbdEta3_eq (bytes : List UInt8) : checkedSampleCbdEta3 bytes = some (sampleCbdEta3 bytes) := by
  rw [checkedSampleCbdEta3]
  show Option.bind (Vector.ofFnM _) _ = _
  rw [ofFnM_eq_some (v := (sampleCbdEta3 bytes).inner) fun i => ?_]
  · rfl
  · rw [sampleCbdEta3, Loops.getElem_fin, Vector.getElem_ofFn]
    simp only [checkedSub_new]
    cases (chunksExact 3 bytes)[i.val / 4]? <;> rfl

/-- Noise of either width. -/
theorem checkedSampleCbd_eq (eta : Eta) (bytes : List UInt8) : checkedSampleCbd eta bytes = some (sampleCbd eta bytes) := by
  cases eta with
  | two => exact checkedSampleCbdEta2_eq bytes
  | three => exact checkedSampleCbdEta3_eq bytes

end RqElement

end MlkemSelkie
