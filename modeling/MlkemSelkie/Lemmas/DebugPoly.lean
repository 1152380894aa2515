import MlkemSelkie.Debug.Poly
import MlkemSelkie.Lemmas.CheckedVector

/-!
# The arithmetic never panics

One lemma for each function of `Debug/Poly.lean`. The field's operations and the transforms come to their values on
every input: what they leave to the wrapping operations does not panic, and what they compute in wider words fits them.
The sums of a dot product fit their words when the ranges are those of the checked dot product.
-/

namespace MlkemSelkie

open Fips203 Runs SignedWords FieldElement

variable {P : ParameterSet} {Γ : Crates}

/-- A small value fits every `usize`. -/
theorem usize_ok {x : Nat} (h : x < 2 ^ 16) : usize x = .ok x := below_ok h

/-! ## The field -/

namespace FieldElement

/-- The multiple of q that `new` takes off is no larger than the value. -/
theorem debugNew_ok (value : UInt16) : debugNew value = .ok (new value) := by
  have hv := value.toNat_lt
  have hproduct : value.toNat * barrettDivQ < 2 ^ 64 := by
    rw [barrettDivQ]
    omega
  have hmultiple : (value.toNat * barrettDivQ) >>> 33 * Q ≤ value.toNat := by
    rw [Nat.shiftRight_eq_div_pow, barrettDivQ, Q]
    omega
  rw [debugNew, below_ok hproduct, ok_bind, below_ok (by omega), ok_bind, sub_ok hmultiple, ok_bind]
  rfl

/-- The quotient estimate and its product stay inside 32 bits for every word. -/
theorem debugBarrett_ok (a : Int16) : debugBarrett a = .ok (barrett a) := by
  obtain ⟨h1, h2⟩ := fits16_toInt a
  exact lift_check ⟨⟨by omega, by omega⟩, by omega, by omega⟩ _ _

/-- Montgomery reduction does not overflow on the sums that base multiplication gives it. -/
theorem debugMontgomeryReduce_ok {a : Int32} (h : -2038398975 ≤ a.toInt ∧ a.toInt ≤ 2038398975) :
    debugMontgomeryReduce a = .ok (montgomeryReduce a) := by
  obtain ⟨hm1, hm2⟩ := fits16_toInt (a.toInt16 * qInv)
  exact lift_check ⟨⟨by omega, by omega⟩, by omega, by omega⟩ _ _

/-- Canonicalization does not overflow, whatever the representative. -/
theorem debugValue_ok (a : FieldElement) : a.debugValue = .ok a.value := by
  obtain ⟨h1, h2⟩ : -1664 ≤ (barrett a.rep).toInt ∧ (barrett a.rep).toInt ≤ 1664 := (reduce_spec a).1
  rw [debugValue, debugBarrett_ok, ok_bind]
  refine lift_check ?_ _ _
  rw [toInt_sign_mask]
  split
  · exact ⟨by omega, by omega⟩
  · exact ⟨by omega, by omega⟩

theorem debugReduce_ok (a : FieldElement) : a.debugReduce = .ok a.reduce := by
  rw [debugReduce, debugBarrett_ok, ok_bind]
  rfl

/-- The product of two words fits a double word. -/
theorem debugWideningMul_ok (a b : FieldElement) : a.debugWideningMul b = .ok (a.wideningMul b) := by
  rw [debugWideningMul, checkedWideningMul_eq, lift_some]

/-- A product of any two representatives can be reduced. -/
theorem debugMul_ok (a b : FieldElement) : a.debugMul b = .ok (a * b) := by
  have hproduct := product_bound a b a.within_word b.within_word
  rw [← wideningMul_toInt] at hproduct
  rw [debugMul, debugWideningMul_ok, ok_bind, debugMontgomeryReduce_ok (by omega), ok_bind]
  rfl

/-- The scale by `R` is such a product. -/
theorem debugToMontgomery_ok (a : FieldElement) : a.debugToMontgomery = .ok a.toMontgomery := debugMul_ok a ⟨montRSquared⟩

/-- The product with the multiplier fits a double word, and so does the rounded one. -/
theorem debugBarrettConstMul_ok (x : FieldElement) (b bBar : Int16) :
    x.debugBarrettConstMul b bBar = .ok (x.barrettConstMul b bBar) := by
  have h : -1073741824 ≤ x.toInt * bBar.toInt ∧ x.toInt * bBar.toInt ≤ 1073741824 :=
    product_bound x ⟨bBar⟩ x.within_word (within_word ⟨bBar⟩)
  exact lift_check ⟨⟨by omega, by omega⟩, by omega, by omega⟩ _ _

/-- At a width of at most twelve bits the numerator and its product fit their words. -/
theorem debugCompress_ok (x : FieldElement) {d : Nat} (hd : d ≤ 12) : x.debugCompress d = .ok (x.compress d) := by
  have hvalue := value_lt x
  have hpow : 2 ^ d ≤ 4096 := Nat.pow_le_pow_right (n := 2) (j := 12) (by decide) hd
  have hpos := Nat.two_pow_pos d
  have hshift : x.value.toNat <<< d ≤ 3328 * 4096 := by
    rw [Nat.shiftLeft_eq]
    exact Nat.mul_le_mul (by omega) hpow
  have hone : 1 <<< d = 2 ^ d := by rw [Nat.shiftLeft_eq, Nat.one_mul]
  have hnumerator : (x.value.toNat <<< d) % 2 ^ 32 + Q / 2 = x.value.toNat <<< d + Q / 2 := by
    rw [Nat.mod_eq_of_lt (by omega)]
  have hproduct : (x.value.toNat <<< d + Q / 2) * barrettDivQ < 2 ^ 64 := by
    rw [barrettDivQ, Q]
    omega
  have hquotient : ((x.value.toNat <<< d + Q / 2) * barrettDivQ) >>> 33 % 2 ^ 32 =
      ((x.value.toNat <<< d + Q / 2) * barrettDivQ) >>> 33 :=
    Nat.mod_eq_of_lt (by rw [Nat.shiftRight_eq_div_pow]; omega)
  have hmask : (1 <<< d) % 2 ^ 32 = 1 <<< d := Nat.mod_eq_of_lt (by omega)
  rw [debugCompress, debugValue_ok, ok_bind, assert_ok (by omega), ok_bind, hnumerator, below_ok (by rw [Q]; omega), ok_bind,
    below_ok hproduct, ok_bind, hmask, sub_ok (by omega), ok_bind, hquotient]
  rfl

/-- At such a width the product and the rounded sum fit their word. -/
theorem debugDecompress_ok (value : UInt16) {d : Nat} (hd : 1 ≤ d) (hd' : d ≤ 12) :
    debugDecompress value d = .ok (decompress value d) := by
  have hvalue := value.toNat_lt
  have hproduct : Q * value.toNat ≤ 3329 * 65535 := Nat.mul_le_mul_left _ (by omega)
  have hpow : 1 <<< (d - 1) ≤ 4096 := by
    rw [Nat.shiftLeft_eq, Nat.one_mul]
    exact Nat.pow_le_pow_right (n := 2) (j := 12) (by decide) (by omega)
  rw [debugDecompress, below_ok (by omega), ok_bind, sub_ok hd, ok_bind, assert_ok (by omega), ok_bind,
    Nat.mod_eq_of_lt (show 1 <<< (d - 1) < 2 ^ 32 by omega), below_ok (by omega), ok_bind, assert_ok (by omega), ok_bind,
    debugNew_ok]
  rfl

end FieldElement

/-! ## The transforms -/

namespace Poly.Generic

/-- A butterfly whose upper index is inside the array. -/
theorem debugNttButterfly_ok (zeta zetaBar : Int16) {len j : Nat} (h : j + len < N) (cs : Coefficients) :
    debugNttButterfly zeta zetaBar len cs j = .ok (nttButterfly zeta zetaBar len cs j) := by
  have hj : j < N := Nat.lt_of_le_of_lt (Nat.le_add_right j len) h
  rw [debugNttButterfly, readAt_ok cs h, ok_bind, debugBarrettConstMul_ok, ok_bind, readAt_ok cs hj, ok_bind,
    writeAt_ok cs h, ok_bind, readAt_ok _ hj, ok_bind, writeAt_ok _ hj]
  rfl

/-- The sum of the inverse butterfly, reduced in the stages that the source names. -/
theorem debugLazySum_ok (len : Nat) (x y : FieldElement) :
    debugLazySum len x y = .ok (if len = 2 ∨ len = 16 then (x + y).reduce else x + y) := by
  rw [debugLazySum]
  split
  · exact debugReduce_ok (x + y)
  · rfl

/-- An inverse butterfly whose upper index is inside the array. -/
theorem debugNttInverseButterfly_ok (zeta zetaBar : Int16) {len j : Nat} (h : j + len < N) (cs : Coefficients) :
    debugNttInverseButterfly zeta zetaBar len cs j = .ok (nttInverseButterfly zeta zetaBar len cs j) := by
  have hj : j < N := Nat.lt_of_le_of_lt (Nat.le_add_right j len) h
  rw [debugNttInverseButterfly, readAt_ok cs hj, ok_bind, readAt_ok cs h, ok_bind, debugLazySum_ok, ok_bind,
    writeAt_ok cs hj, ok_bind, readAt_ok _ h, ok_bind, debugBarrettConstMul_ok, ok_bind, writeAt_ok _ h]
  rfl

/-- The number of blocks of a stage. -/
def blocks (len : Nat) : Nat := (Loops.stepBy 256 (2 * len)).length

/-- The blocks of a stage lie in the array. -/
def Fits (len : Nat) : Prop := 0 < len ∧ ∀ start ∈ Loops.stepBy 256 (2 * len), start + 2 * len ≤ 256

instance (len : Nat) : Decidable (Fits len) := inferInstanceAs (Decidable (_ ∧ _))

/-- A pass over a block of pairs inside the array. -/
theorem block_ok {body : Coefficients → Nat → Run Coefficients} {body' : Coefficients → Nat → Coefficients} {start len : Nat}
    (h : start + 2 * len ≤ 256) (hbody : ∀ cs j, j + len < N → body cs j = .ok (body' cs j)) (cs : Coefficients) :
    (List.range' start len).foldlM body cs = .ok ((List.range' start len).foldl body' cs) :=
  (foldlM_ok (I := fun _ _ => True) (fun _ cs _ j hj => by
    obtain ⟨i, hi, rfl⟩ := List.mem_range'.mp hj
    exact ⟨hbody cs _ (show _ < 256 by omega), trivial⟩) trivial).1

/-- A forward stage, as long as there is a zeta for each of its blocks. -/
theorem debugNttStage_ok {len : Nat} (hfits : Fits len) {s : Nat × Coefficients} (hk : s.1 + blocks len ≤ 128) :
    debugNttStage s len = .ok (nttStage s len) ∧ (nttStage s len).1 = s.1 + blocks len := by
  rw [debugNttStage, stepBy_ok (Nat.mul_pos (by decide) hfits.1), ok_bind]
  refine foldlM_ok (σ := Nat × Coefficients) (I := fun k s' => s'.1 + k = s.1 + blocks len)
    (fun k s' hs' start hstart => ⟨?_, ?_⟩) rfl
  · rw [readAt_ok zetaRaw (by omega), ok_bind, readAt_ok zetaBarrett (by omega), ok_bind, usize_ok (by omega), ok_bind,
      block_ok (hfits.2 start hstart) fun cs j hj => debugNttButterfly_ok _ _ hj cs]
    rfl
  · simp only []
    omega

/-- The forward stages left, as long as there is a zeta for each of their blocks. -/
theorem debugNttStages_ok {lens : List Nat} (hfits : ∀ len ∈ lens, Fits len) {s : Nat × Coefficients}
    (hk : s.1 + (lens.map blocks).sum ≤ 128) : lens.foldlM debugNttStage s = .ok (lens.foldl nttStage s) := by
  induction lens generalizing s with
  | nil => rfl
  | cons len lens ih =>
    rw [List.map_cons, List.sum_cons] at hk
    obtain ⟨hstage, hcounter⟩ := debugNttStage_ok (hfits len List.mem_cons_self) (s := s) (by omega)
    rw [List.foldlM_cons, hstage, ok_bind, List.foldl_cons]
    exact ih (fun len h => hfits len (List.mem_cons_of_mem _ h)) (by rw [hcounter]; omega)

/-- The forward transform: every zeta and every coefficient it reads exists. -/
theorem debugNtt_ok (cs : Coefficients) : debugNtt cs = .ok (ntt cs) := by
  have hzetas : 1 + (nttSeries.map blocks).sum ≤ 128 := by decide
  rw [debugNtt, debugNttStages_ok (by decide) hzetas, ok_bind, ofFnM_map _ debugReduce_ok]
  rfl

/-- An inverse stage, as long as there is a zeta for each of its blocks. -/
theorem debugNttInverseStage_ok {len : Nat} (hfits : Fits len) {s : Nat × Coefficients} (hk : s.1 < 128)
    (hblocks : blocks len ≤ s.1) :
    debugNttInverseStage s len = .ok (nttInverseStage s len) ∧ (nttInverseStage s len).1 + blocks len = s.1 := by
  rw [debugNttInverseStage, stepBy_ok (Nat.mul_pos (by decide) hfits.1), ok_bind]
  -- the passes left are at most the stage's, so that the counter stays below its start
  refine And.imp_right And.left (foldlM_ok (σ := Nat × Coefficients)
    (I := fun k s' => s'.1 + blocks len = s.1 + k ∧ k ≤ blocks len)
    (fun k s' hs' start hstart => ⟨?_, ?_⟩) ⟨rfl, Nat.le_refl _⟩)
  · rw [readAt_ok zetaRaw (by omega), ok_bind, readAt_ok zetaBarrett (by omega), ok_bind, sub_ok (by omega), ok_bind,
      block_ok (hfits.2 start hstart) fun cs j hj => debugNttInverseButterfly_ok _ _ hj cs]
    rfl
  · simp only []
    omega

/-- The inverse stages left, as long as there is a zeta for each of their blocks. -/
theorem debugNttInverseStages_ok {lens : List Nat} (hfits : ∀ len ∈ lens, Fits len) {s : Nat × Coefficients} (hk : s.1 < 128)
    (hblocks : (lens.map blocks).sum ≤ s.1) : lens.foldlM debugNttInverseStage s = .ok (lens.foldl nttInverseStage s) := by
  induction lens generalizing s with
  | nil => rfl
  | cons len lens ih =>
    rw [List.map_cons, List.sum_cons] at hblocks
    obtain ⟨hstage, hcounter⟩ := debugNttInverseStage_ok (hfits len List.mem_cons_self) hk (by omega)
    rw [List.foldlM_cons, hstage, ok_bind, List.foldl_cons]
    exact ih (fun len h => hfits len (List.mem_cons_of_mem _ h)) (by omega) (by omega)

/-- The inverse transform, on any representatives: its additions wrap by intent. -/
theorem debugNttInverse_ok (cs : Coefficients) : debugNttInverse cs = .ok (nttInverse cs) := by
  have hzetas : (nttSeries.reverse.map blocks).sum ≤ 127 := by decide
  rw [debugNttInverse, debugNttInverseStages_ok (by decide) (Nat.lt_succ_self 127) hzetas, ok_bind,
    ofFnM_map _ fun x => debugMul_ok x _]
  rfl

/-! ## The loops over the halves -/

theorem debugCompress_ok (cs : Coefficients) {d : Nat} (hd : d ≤ 12) : debugCompress cs d = .ok (compress cs d) := by
  rw [debugCompress, ofFnM_map cs fun x => x.debugCompress_ok hd]
  rfl

theorem debugDecompress_ok (values : Vector UInt16 N) {d : Nat} (hd : 1 ≤ d) (hd' : d ≤ 12) :
    debugDecompress values d = .ok (decompress values d) := by
  rw [debugDecompress, ofFnM_map values fun y => FieldElement.debugDecompress_ok y hd hd']
  rfl

/-- Every position of a natural order is even or odd, that of one of 128 pairs. -/
theorem interleaved (k : Fin N) : ∃ i < 128, k.val = 2 * i ∨ k.val = 2 * i + 1 := by
  have hk : k.val < 256 := k.isLt
  exact ⟨k.val / 2, by omega, by omega⟩

/-- Every position of a storage is in one of its halves. -/
theorem halved (k : Fin N) : ∃ i < 128, k.val = i ∨ k.val = 128 + i := by
  have hk : k.val < 256 := k.isLt
  exact ⟨k.val % 128, by omega, by omega⟩

/-- The storage is read inside its bounds. -/
theorem debugCanonical_ok (cs : Coefficients) : debugCanonical cs = .ok (canonical cs) := by
  refine fill_pairs_ok (fun i => 2 * i) (fun i => 2 * i + 1) (x := fun i => cs[i]!.value) (y := fun i => cs[128 + i]!.value)
    (fun i hi out => ?_) (fun i hi k hk => ?_) (fun i hi k hk => ?_) interleaved _
  · have hN : N = 256 := rfl
    rw [readAt_ok cs (by omega), ok_bind, debugValue_ok, ok_bind, writeAt_ok _ (by omega), ok_bind,
      readAt_ok cs (by omega), ok_bind, debugValue_ok, ok_bind, writeAt_ok _ (by omega)]
  · rw [hk, show 2 * i % 2 * 128 + 2 * i / 2 = i by omega]
  · rw [hk, show (2 * i + 1) % 2 * 128 + (2 * i + 1) / 2 = 128 + i by omega]

/-- Unpacking reads inside the storage. -/
theorem debugUnpack_ok (halves : Coefficients) : debugUnpack halves = .ok (unpack halves) := by
  refine fill_pairs_ok (fun i => 2 * i) (fun i => 2 * i + 1) (x := fun i => halves[i]!) (y := fun i => halves[128 + i]!)
    (fun i hi out => ?_) (fun i hi k hk => ?_) (fun i hi k hk => ?_) interleaved _
  · have hN : N = 256 := rfl
    rw [readAt_ok halves (by omega), ok_bind, writeAt_ok _ (by omega), ok_bind, readAt_ok halves (by omega), ok_bind,
      writeAt_ok _ (by omega)]
  · rw [hk, show 2 * i % 2 * 128 + 2 * i / 2 = i by omega]
  · rw [hk, show (2 * i + 1) % 2 * 128 + (2 * i + 1) / 2 = 128 + i by omega]

/-- Packing reads inside the natural order. -/
theorem debugPack_ok (natural : Coefficients) : debugPack natural = .ok (pack natural) := by
  refine fill_pairs_ok (fun i => i) (fun i => 128 + i) (x := fun i => natural[2 * i]!) (y := fun i => natural[2 * i + 1]!)
    (fun i hi out => ?_) (fun i hi k hk => ?_) (fun i hi k hk => ?_) halved _
  · have hN : N = 256 := rfl
    rw [readAt_ok natural (by omega), ok_bind, writeAt_ok _ (by omega), ok_bind, readAt_ok natural (by omega), ok_bind,
      writeAt_ok _ (by omega)]
  · rw [if_pos (by omega), hk]
  · rw [if_neg (by omega), hk, Nat.add_sub_cancel_left]

/-- Base multiplication reads inside its operands and its table. -/
theorem debugMultiply_ok (f g : Coefficients) : debugMultiply f g = .ok (multiply f g) := by
  refine fill_pairs_ok (fun i => i) (fun i => 128 + i)
    (x := fun i => f[i]! * g[i]! + f[128 + i]! * g[128 + i]! * gammaMont[i]!)
    (y := fun i => f[i]! * g[128 + i]! + f[128 + i]! * g[i]!)
    (fun i hi out => ?_) (fun i hi k hk => ?_) (fun i hi k hk => ?_) halved _
  · have hN : N = 256 := rfl
    have hlow : i < N := by omega
    have hhigh : 128 + i < N := by omega
    rw [readAt_ok gammaMont hi, ok_bind, readAt_ok f hlow, ok_bind, readAt_ok g hlow, ok_bind, debugMul_ok, ok_bind,
      readAt_ok f hhigh, ok_bind, readAt_ok g hhigh, ok_bind, debugMul_ok, ok_bind, debugMul_ok, ok_bind, writeAt_ok _ hlow,
      ok_bind, ok_bind, ok_bind, debugMul_ok, ok_bind, ok_bind, ok_bind, debugMul_ok, ok_bind, writeAt_ok _ hhigh]
  · rw [if_pos (by omega), hk]
  · rw [if_neg (by omega), hk, Nat.add_sub_cancel_left]

/-- Bounded accumulators can be reduced. -/
theorem debugBasemulReduce_ok {B : Nat} {acc : ProductAccumulator} (hacc : acc.Within B) (hB : B ≤ reducibleBound) :
    debugBasemulReduce acc = .ok (basemulReduce acc) := by
  rw [reducibleBound] at hB
  have hproduct {sum : Int32} (h : -(B : Int) ≤ sum.toInt ∧ sum.toInt ≤ B) :
      lift .panic (debugFromProductSum sum) = .ok (fromProductSum sum) := by
    obtain ⟨hm1, hm2⟩ := fits16_toInt (sum.toInt16 * qInv)
    exact lift_check ⟨⟨by omega, by omega⟩, by omega, by omega⟩ _ _
  refine fill_pairs_ok (fun i => i) (fun i => 128 + i) (x := fun i => fromProductSum acc.even[i]!)
    (y := fun i => fromProductSum acc.odd[i]!) (fun i hi out => ?_) (fun i hi k hk => ?_) (fun i hi k hk => ?_) halved _
  · have hN : N = 256 := rfl
    obtain ⟨heven, hodd⟩ := hacc ⟨i, hi⟩
    rw [Loops.getElem_fin] at heven hodd
    rw [readAt_ok acc.even hi, ok_bind, getElem!_pos acc.even i hi, hproduct heven, ok_bind, writeAt_ok _ (by omega),
      ok_bind, readAt_ok acc.odd hi, ok_bind, getElem!_pos acc.odd i hi, hproduct hodd, ok_bind, writeAt_ok _ (by omega)]
  · rw [if_pos (by omega), hk]
  · rw [if_neg (by omega), hk, Nat.add_sub_cancel_left]

/-! ## The dot product -/

/-- The sums after the first `t` passes: those of the later positions are still the old ones. -/
def advanced {n : Nat} (new old : Vector Int32 n) (t : Nat) : Vector Int32 n :=
  Vector.ofFn fun k => if k.val < t then new[k] else old[k]

/-- The entry that comes next is still the old one. -/
theorem advanced_getElem! {n t : Nat} (ht : t < n) (new old : Vector Int32 n) : (advanced new old t)[t]! = old[t]! := by
  rw [getElem!_pos _ t ht, advanced, Vector.getElem_ofFn, if_neg (Nat.lt_irrefl t), getElem!_pos old t ht]
  rfl

/-- Writing the next entry advances by one. -/
theorem advanced_set! {n t : Nat} (ht : t < n) (new old : Vector Int32 n) :
    (advanced new old t).set! t new[t]! = advanced new old (t + 1) := by
  refine Vector.ext fun i hi => ?_
  rw [Vector.set!_eq_setIfInBounds, Vector.getElem_setIfInBounds, advanced, advanced, Vector.getElem_ofFn,
    Vector.getElem_ofFn]
  by_cases hit : t = i
  · subst hit
    rw [if_pos rfl, if_pos (Nat.lt_succ_self _), getElem!_pos new _ ht]
    rfl
  · rw [if_neg hit]
    exact ite_congr (propext ⟨fun h => Nat.lt_succ_of_lt h, fun h => by simp only at h ⊢; omega⟩) (fun _ => rfl) fun _ => rfl

/-- No entry is new at first. -/
theorem advanced_zero {n : Nat} (new old : Vector Int32 n) : advanced new old 0 = old :=
  Vector.ext fun i hi => by
    rw [advanced, Vector.getElem_ofFn, if_neg (Nat.not_lt_zero i)]
    rfl

/-- All entries are new at last. -/
theorem advanced_all {n : Nat} (new old : Vector Int32 n) : advanced new old n = new :=
  Vector.ext fun i hi => by
    rw [advanced, Vector.getElem_ofFn, if_pos hi]
    rfl

/-- The accumulation of one component: pass `t` reads the sums `t` of the accumulator before it writes them. -/
theorem debugBasemulAccumulate_ok {B T : Nat} {acc : ProductAccumulator} {f g : TqElement} {cache : TqMulCache}
    (hacc : acc.Within B) (h : Operands T f g cache) (hB : B + T ≤ reducibleBound) :
    debugBasemulAccumulate acc f.inner g.inner cache.inner = .ok (basemulAccumulate acc f.inner g.inner cache.inner) := by
  have hwords : ∀ x : Int, x.natAbs ≤ reducibleBound → Fits32 x := fun x hx => by
    rw [reducibleBound] at hx
    exact ⟨by omega, by omega⟩
  generalize hacc' : basemulAccumulate acc f.inner g.inner cache.inner = acc'
  have hN : N = 256 := rfl
  have hpasses : ∀ t ≤ 128, (List.range t).foldlM (debugBasemulPair f.inner g.inner cache.inner) acc =
      .ok ⟨advanced acc'.even acc.even t, advanced acc'.odd acc.odd t⟩ := by
    intro t
    induction t with
    | zero =>
      intro _
      rw [advanced_zero, advanced_zero]
      rfl
    | succ t ih =>
      intro ht
      have hlow : t < N := by omega
      have hhigh : 128 + t < N := by omega
      have heven := accumulateWith_eq (hacc ⟨t, ht⟩).1 (h.even ⟨t, ht⟩) hB (Nat.le_refl _) hwords
      have hodd := accumulateWith_eq (hacc ⟨t, ht⟩).2 (h.odd ⟨t, ht⟩) hB (Nat.le_refl _) hwords
      rw [Loops.getElem_fin, ← getElem!_pos acc.even t ht, Loops.getElem_fin, ← getElem!_pos cache.inner t ht] at heven
      rw [Loops.getElem_fin, ← getElem!_pos acc.odd t ht] at hodd
      have hevens : acc'.even[t]! = acc.even[t]! + (f.inner[t]!.wideningMul g.inner[t]! +
          f.inner[128 + t]!.wideningMul cache.inner[t]!) := by
        rw [← hacc', basemulAccumulate, getElem!_pos _ t ht, Vector.getElem_ofFn, Loops.getElem_fin, Loops.getElem_fin,
          getElem!_pos acc.even t ht, getElem!_pos cache.inner t ht]
      have hodds : acc'.odd[t]! = acc.odd[t]! + (f.inner[t]!.wideningMul g.inner[128 + t]! +
          f.inner[128 + t]!.wideningMul g.inner[t]!) := by
        rw [← hacc', basemulAccumulate, getElem!_pos _ t ht, Vector.getElem_ofFn, Loops.getElem_fin,
          getElem!_pos acc.odd t ht]
      rw [List.range_succ, List.foldlM_append, ih (by omega), ok_bind, List.foldlM_cons, debugBasemulPair,
        readAt_ok _ ht, ok_bind, advanced_getElem! ht, readAt_ok f.inner hlow, ok_bind, readAt_ok g.inner hlow, ok_bind,
        readAt_ok f.inner hhigh, ok_bind, readAt_ok cache.inner ht, ok_bind, heven, lift_some, ok_bind,
        writeAt_ok _ ht, ok_bind, readAt_ok _ ht, ok_bind, advanced_getElem! ht, ok_bind, readAt_ok g.inner hhigh, ok_bind,
        ok_bind, ok_bind, hodd, lift_some, ok_bind, writeAt_ok _ ht, ok_bind, ← hevens, ← hodds, advanced_set! ht,
          advanced_set! ht]
      rfl
  have hall := hpasses 128 (Nat.le_refl 128)
  rw [advanced_all, advanced_all] at hall
  exact hall

/-- The accumulation of the components of a dot product. -/
theorem debugAccumulate_run {T : Nat} (terms : Terms) :
    ∀ {B : Nat} {acc : ProductAccumulator}, acc.Within B → (∀ p ∈ terms, Operands T p.1.1 p.1.2 p.2) →
      B + terms.length * T ≤ reducibleBound →
      terms.foldlM (fun acc p => debugBasemulAccumulate acc p.1.1.inner p.1.2.inner p.2.inner) acc =
        .ok (terms.foldl (fun acc p => basemulAccumulate acc p.1.1.inner p.1.2.inner p.2.inner) acc) := by
  induction terms with
  | nil => exact fun _ _ _ => rfl
  | cons p terms ih =>
    intro B acc hacc hops hB
    rw [List.length_cons, Nat.succ_mul] at hB
    have hop := hops p List.mem_cons_self
    have hstep := basemulAccumulate_within hacc hop (by rw [reducibleBound] at hB; omega)
    rw [List.foldlM_cons, debugBasemulAccumulate_ok hacc hop (by omega), ok_bind, List.foldl_cons]
    exact ih hstep (fun r hr => hops r (List.mem_cons_of_mem _ hr)) (by omega)

end Poly.Generic

/-! ## Ring elements -/

namespace TqElement

theorem debugNew_ok (cs : Coefficients) : debugNew cs = .ok (new cs) := by
  rw [debugNew, Poly.Generic.debugPack_ok, ok_bind]
  rfl

/-- The inverse transform of an element. -/
theorem debugNttInverse_ok (t : TqElement) : t.debugNttInverse = .ok t.nttInverse := by
  rw [debugNttInverse, Poly.Generic.debugUnpack_ok, ok_bind, Poly.Generic.debugNttInverse_ok, ok_bind]
  rfl

theorem debugToMontgomery_ok (t : TqElement) : t.debugToMontgomery = .ok t.toMontgomery := by
  rw [debugToMontgomery, ofFnM_map t.inner FieldElement.debugToMontgomery_ok, ok_bind]
  rfl

theorem debugMulCache_ok (t : TqElement) : t.debugMulCache = .ok t.mulCache := by
  have hN : N = 256 := rfl
  have hproduct (i : Fin 128) : (readAt t.inner (128 + i.val) >>= fun x => readAt gammaMont i.val >>= fun y =>
    x.debugMul y) = .ok (t.inner[128 + i.val]! * gammaMont[i]) := by
    rw [readAt_ok t.inner (by omega), ok_bind, readAt_fin, ok_bind, debugMul_ok, Loops.getElem_fin]
  rw [debugMulCache, ofFnM_ok hproduct, ok_bind]
  rfl

/-- The product of two elements, whatever their representatives. -/
theorem debugMul_ok (a b : TqElement) : a.debugMul b = .ok (a * b) := by
  rw [debugMul, Poly.Generic.debugMultiply_ok, ok_bind]
  rfl

/-- A dot product whose components are bounded operands. -/
theorem debugAccumulatedDot_ok {T : Nat} {f g : List TqElement} {caches : List TqMulCache}
    (hops : ∀ p ∈ (f.zip g).zip caches, Operands T p.1.1 p.1.2 p.2)
    (hT : ((f.zip g).zip caches).length * T ≤ Poly.Generic.reducibleBound) :
    debugAccumulatedDot f g caches = .ok (accumulatedDot f g caches) := by
  have hstart := ProductAccumulator.zero_within
  have hwithin := (accumulate_run _ hstart hops (by rw [Poly.Generic.reducibleBound] at hT; omega)).1
  rw [debugAccumulatedDot, Poly.Generic.debugAccumulate_run _ hstart hops (by omega), ok_bind,
    Poly.Generic.debugBasemulReduce_ok hwithin (by omega), ok_bind]
  rfl

end TqElement

/-- The transform of an element. -/
theorem RqElement.debugNtt_ok (f : RqElement) : f.debugNtt = .ok f.ntt := by
  rw [debugNtt, Poly.Generic.debugNtt_ok, ok_bind, TqElement.debugNew_ok]
  rfl

/-! ## Vectors and matrices -/

/-- A component read and passed on. -/
theorem readAt_bind {α β : Type} {n : Nat} {f : α → Run β} {g : α → β} (h : ∀ x, f x = .ok (g x)) (v : Vector α n)
    (i : Fin n) : (readAt v i.val >>= f) = .ok (g v[i]) := by
  rw [readAt_fin, ok_bind, h]

theorem RqVector.debugNtt_ok (v : RqVector P) : v.debugNtt = .ok v.ntt := by
  rw [debugNtt, ofFnM_ok (readAt_bind RqElement.debugNtt_ok v.polys), ok_bind]
  rfl

theorem CachedTqVector.debugOf_ok (v : TqVector P) : CachedTqVector.debugOf v = .ok (CachedTqVector.of v) := by
  rw [debugOf, ofFnM_ok (readAt_bind TqElement.debugMulCache_ok v.polys), ok_bind]
  rfl

namespace TqVector

theorem debugNttInverse_ok (v : TqVector P) : v.debugNttInverse = .ok v.nttInverse := by
  rw [debugNttInverse, ofFnM_ok (readAt_bind TqElement.debugNttInverse_ok v.polys), ok_bind]
  rfl

theorem debugToMontgomery_ok (v : TqVector P) : v.debugToMontgomery = .ok v.toMontgomery := by
  rw [debugToMontgomery, ofFnM_ok (readAt_bind TqElement.debugToMontgomery_ok v.polys), ok_bind]
  rfl

/-- The dot product with a cached vector: at most four components of at most `termBound` each. -/
theorem debugDot_ok {F G : Nat} {a b : TqVector P} {x y : Fin P.K → Tq} (ha : a.Represents F x) (hb : b.Represents G y)
    (h : DotBounds F G) : a.debugDot (CachedTqVector.of b) = .ok (a * CachedTqVector.of b) := by
  have hK : P.K * termBound ≤ 4 * termBound := Nat.mul_le_mul_right _ P.K_bounds.2
  have hzip := zip_operands a (CachedTqVector.of b)
  refine TqElement.debugAccumulatedDot_ok (T := termBound) ?_ ?_
  · rw [hzip]
    exact List.forall_mem_ofFn_iff.mpr (operands_of_represents ha hb h)
  · rw [hzip, List.length_ofFn, Poly.Generic.reducibleBound]
    rw [termBound] at *
    omega

end TqVector

namespace TqMatrix

/-- The transpose reads inside the matrix. -/
theorem debugTranspose_ok (a : TqMatrix P) : a.debugTranspose = .ok a.transpose := by
  have hcolumn (j : Fin P.K) : (do
      return (⟨← Vector.ofFnM fun i : Fin P.K => do readAt (← readAt a.rows i.val).polys j.val⟩ : TqVector P)) =
      (.ok ⟨Vector.ofFn fun i => a.rows[i].polys[j]⟩ : Run (TqVector P)) := by
    rw [ofFnM_ok (readAt_bind (fun row : TqVector P => readAt_fin row.polys j) a.rows), ok_bind]
    rfl
  rw [debugTranspose, ofFnM_ok hcolumn, ok_bind]
  rfl

/-- The product of a matrix with a cached vector, row by row. -/
theorem debugProduct_ok {F G : Nat} {m : TqMatrix P} {v : TqVector P} {X : Fin P.K → Fin P.K → Tq} {y : Fin P.K → Tq}
    (hm : m.Represents F X) (hv : v.Represents G y) (h : DotBounds F G) :
    m.debugProduct (CachedTqVector.of v) = .ok (m * CachedTqVector.of v) := by
  have hrow (i : Fin P.K) : (readAt m.rows i.val >>= fun row => row.debugDot (CachedTqVector.of v)) =
      .ok (m.rows[i] * CachedTqVector.of v) := by
    rw [readAt_fin, ok_bind]
    exact TqVector.debugDot_ok (hm i) hv h
  rw [debugProduct, ofFnM_ok hrow, ok_bind]
  rfl

end TqMatrix

end MlkemSelkie
