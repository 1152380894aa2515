import MlkemSelkie.Lemmas.Ntt
import MlkemSelkie.Poly.Avx2

/-!
# The registers compute what the loops compute

Every vector helper does in each lane what the scalar operation does, for every word, though the reductions are written with
other instructions. A pass over two stages leaves what the two stages leave, and a vector stage what the scalar stage leaves.
-/

namespace MlkemSelkie

open SignedWords Lanes Poly.Generic

namespace Poly.Avx2

/-! ## The lanes -/

section Lane

variable (a b bBar : Register) (l : Nat) (hl : l < 16)

/-- The rounded multiplier picks the quotient estimate of the scalar product. -/
theorem barrettConstMul_getElem :
    (barrettConstMul a b bBar)[l] = (FieldElement.barrettConstMul ⟨a[l]⟩ b[l] bBar[l]).rep := by
  simp only [barrettConstMul, subEpi16_getElem, mulloEpi16_getElem, mulhrsEpi16_getElem, set1Epi16_getElem, mulhrs_eq]
  rw [mullo_eq _ q]
  rfl

/-- The high half, rounded and shifted, is the quotient estimate of the scalar reduction. -/
theorem estimate_eq (x : Int16) : (mulhi x barrettV + (1 : Int16) <<< 9) >>> 10 =
    ((MlkemSelkie.barrettV * x.toInt32 + (1 : Int32) <<< 25) >>> 26).toInt16 := by
  have hv : barrettV.toInt = 20159 := by decide
  have hhalf : ((1 : Int16) <<< 9).toInt = 512 := by decide
  obtain ⟨h1, h2⟩ := fits16_toInt x
  have hhi : (mulhi x barrettV).toInt = x.toInt * 20159 / 65536 := by rw [mulhi_toInt, hv]
  have hsum : (mulhi x barrettV + (1 : Int16) <<< 9).toInt = x.toInt * 20159 / 65536 + 512 := by
    rw [toInt_add16 (by rw [hhi, hhalf, Fits16]; omega), hhi, hhalf]
  apply Int16.toInt_inj.mp
  rw [FieldElement.barrett_estimate, toInt_shiftRight16 _ _ 10 (by decide), hsum]
  show (x.toInt * 20159 / 65536 + 512) / 1024 = _
  omega

theorem barrettReduce_getElem : (barrettReduce a)[l] = FieldElement.barrett a[l] := by
  simp only [barrettReduce, subEpi16_getElem, mulloEpi16_getElem, mulhiEpi16_getElem, addEpi16_getElem, sraiEpi16_getElem,
    set1Epi16_getElem, estimate_eq, mullo_eq]
  rfl

/-- The two halves of the product and of the multiple of q cancel below, so the difference above is the exact quotient. -/
theorem fqmul_getElem : (fqmul a b)[l] = ((⟨a[l]⟩ : FieldElement) * ⟨b[l]⟩).rep := by
  have hq : q.toInt = 3329 := by decide
  simp only [fqmul, subEpi16_getElem, mulloEpi16_getElem, mulhiEpi16_getElem, set1Epi16_getElem]
  generalize a[l] = x, b[l] = y
  have hinverse : qInv * q = 1 := by decide
  have hlow : mullo x y = mullo (mullo (mullo x y) qInv) q := by
    rw [mullo_eq _ q, mullo_eq _ qInv, Int16.mul_assoc, hinverse, Int16.mul_one]
  have hp := natAbs_product_le x y
  obtain ⟨hm1, hm2⟩ := fits16_toInt (mullo (mullo x y) qInv)
  rw [mulhi_sub x y _ q hlow (by rw [hq, Fits32]; omega), mullo_eq _ qInv]
  rfl

/-- The scale that the lanes hold is the one of the portable transform, the factors in the other order. -/
theorem fqmul_scale_getElem :
    FieldElement.mk (fqmul (set1Epi16 nttInverseScale) a)[l] = FieldElement.mk a[l] * Poly.Generic.nttInverseScale := by
  rw [fqmul_getElem, set1Epi16_getElem]
  exact congrArg (fun x => FieldElement.mk (FieldElement.montgomeryReduce x))
    (Int32.mul_comm nttInverseScale.toInt32 a[l].toInt32)

end Lane

/-! ## The passes of the forward transform -/

section Trip

variable {cs : Coefficients}

theorem load_getElem (v l : Nat) (hl : l < 16) : (⟨(load cs v)[l]⟩ : FieldElement) = cs[16 * v + l]! := by
  rw [load, loaduSi256, Vector.getElem_map, Lanes.load_getElem]

theorem store_inside (v l : Nat) (x : Register) (hl : l < 16) (hv : v < 16) : (store cs v x)[16 * v + l]! = ⟨x[l]⟩ := by
  have hn : 16 * v + l < 256 := by omega
  rw [store, storeuSi256, Lanes.store_inside _ _ _ _ hl hn, Vector.getElem_map]

theorem store_outside (v i : Nat) (x : Register) (hi : i < 256) (h : i / 16 ≠ v) : (store cs v x)[i]! = cs[i]! :=
  Lanes.store_outside _ _ _ _ hi (by omega)

theorem butterfly_fst (a b : Register) (k l : Nat) (hl : l < 16) :
    (⟨(butterfly a b (zeta k)).1[l]⟩ : FieldElement) = (nttPair k ⟨a[l]⟩ ⟨b[l]⟩).1 := by
  simp only [butterfly, zeta, addEpi16_getElem, barrettConstMul_getElem, set1Epi16_getElem]
  rfl

theorem butterfly_snd (a b : Register) (k l : Nat) (hl : l < 16) :
    (⟨(butterfly a b (zeta k)).2[l]⟩ : FieldElement) = (nttPair k ⟨a[l]⟩ ⟨b[l]⟩).2 := by
  simp only [butterfly, zeta, subEpi16_getElem, barrettConstMul_getElem, set1Epi16_getElem]
  rfl

variable {v s k ka kb : Nat}

/-- A lane of a register that the pass holds goes through both levels of butterflies. -/
theorem trip_inside (hs : 0 < s) (hv : v + 3 * s < 16) {b l : Nat} (hb : b < 4) (hl : l < 16) :
    (trip v s (zeta k) (zeta ka) (zeta kb) cs)[16 * (v + s * b) + l]! =
      Butterfly.quadAt (nttPair k) (nttPair ka) (nttPair kb) (fun c => cs[16 * (v + s * c) + l]!) b := by
  have p0 : v + s * 0 = v := by omega
  have p1 : v + s * 1 = v + s := by omega
  have p2 : v + s * 2 = v + 2 * s := by omega
  have p3 : v + s * 3 = v + 3 * s := by omega
  unfold trip
  match b, hb with
  | 0, _ =>
    rw [p0, store_outside _ _ _ (by omega) (by omega), store_outside _ _ _ (by omega) (by omega),
      store_outside _ _ _ (by omega) (by omega), store_inside _ _ _ hl (by omega), butterfly_fst, butterfly_fst,
        butterfly_fst]
    simp only [load_getElem, Butterfly.quadAt, p0, p1, p2, p3]
  | 1, _ =>
    rw [p1, store_outside _ _ _ (by omega) (by omega), store_outside _ _ _ (by omega) (by omega),
      store_inside _ _ _ hl (by omega), butterfly_snd, butterfly_fst, butterfly_fst]
    simp only [load_getElem, Butterfly.quadAt, p0, p1, p2, p3]
  | 2, _ =>
    rw [p2, store_outside _ _ _ (by omega) (by omega), store_inside _ _ _ hl (by omega), butterfly_fst, butterfly_snd,
      butterfly_snd]
    simp only [load_getElem, Butterfly.quadAt, p0, p1, p2, p3]
  | 3, _ =>
    rw [p3, store_inside _ _ _ hl (by omega), butterfly_snd, butterfly_snd, butterfly_snd]
    simp only [load_getElem, Butterfly.quadAt, p0, p1, p2, p3]

/-- The registers that the pass does not hold stand. -/
theorem trip_outside {z za zb : Register × Register} {i : Nat} (hi : i < 256) (h0 : i / 16 ≠ v) (h1 : i / 16 ≠ v + s)
    (h2 : i / 16 ≠ v + 2 * s) (h3 : i / 16 ≠ v + 3 * s) : (trip v s z za zb cs)[i]! = cs[i]! := by
  unfold trip
  rw [store_outside _ _ _ hi h3, store_outside _ _ _ hi h2, store_outside _ _ _ hi h1, store_outside _ _ _ hi h0]

/-- Two stages of the portable kernel at once. -/
theorem nttStage_nttStage (cs : Coefficients) (k : Nat) {len m : Nat} (hlen : 0 < len) (hm : m * (2 * (2 * len)) = 256)
    {B b r : Nat} (hB : B < m) (hb : b < 4) (hr : r < len) :
    (nttStage (nttStage (k, cs) (2 * len)) len).2[4 * len * B + len * b + r]! =
      Butterfly.quadAt (nttPair (k + B)) (nttPair (k + (m + 2 * B))) (nttPair (k + (m + 2 * B + 1)))
        (fun c => cs[4 * len * B + len * c + r]!) b := by
  rw [nttStage_eq _ _ hlen, nttStage_eq _ _ (by omega), Butterfly.stage_stage _ nttPair k cs hlen hm hB hb hr,
    Ntt.iterate_succ_counter, Ntt.iterate_succ_counter, Ntt.iterate_succ_counter]

/-- A loop of four passes that share out the registers: every position goes through both levels of its own pass. -/
theorem foldl_trip (s : Nat) (v k ka kb slice level : Nat → Nat) (hs : 0 < s) (hv : ∀ i < 4, v i + 3 * s < 16)
    (hpos : ∀ p < 256, slice p < 4 ∧ level p < 4 ∧ p / 16 = v (slice p) + s * level p)
    (hmeet : ∀ i < 4, ∀ b < 4, ∀ l < 16, slice (16 * (v i + s * b) + l) = i) (cs : Coefficients) :
    ∀ p < 256, ((List.range 4).foldl (fun cs i => trip (v i) s (zeta (k i)) (zeta (ka i)) (zeta (kb i)) cs) cs)[p]! =
      Butterfly.quadAt (nttPair (k (slice p))) (nttPair (ka (slice p))) (nttPair (kb (slice p)))
        (fun c => cs[16 * (v (slice p) + s * c) + p % 16]!) (level p) := by
  have hstep : ∀ cs : Coefficients, ∀ i < 4, ∀ p < 256,
      (trip (v i) s (zeta (k i)) (zeta (ka i)) (zeta (kb i)) cs)[p]! = if slice p = i then
        Butterfly.quadAt (nttPair (k (slice p))) (nttPair (ka (slice p))) (nttPair (kb (slice p)))
          (fun c => cs[16 * (v (slice p) + s * c) + p % 16]!) (level p)
        else cs[p]! := by
    intro cs i hi p hp
    obtain ⟨_, hlevel, hreg⟩ := hpos p hp
    by_cases h : slice p = i
    · subst h
      have hp' : 16 * (v (slice p) + s * level p) + p % 16 = p := by omega
      rw [if_pos rfl, ← trip_inside hs (hv _ hi) hlevel (Nat.mod_lt p (by decide)), hp']
    · rw [if_neg h]
      have hother : ∀ b < 4, p / 16 ≠ v i + s * b := by
        intro b hb heq
        have hp' : 16 * (v i + s * b) + p % 16 = p := by omega
        have hslice := hmeet i hi b hb (p % 16) (Nat.mod_lt _ (by decide))
        rw [hp'] at hslice
        exact h hslice
      have h0 := hother 0 (by decide)
      have h1 := hother 1 (by decide)
      have h2 := hother 2 (by decide)
      have h3 := hother 3 (by decide)
      exact trip_outside hp (by omega) (by omega) (by omega) (by omega)
  -- the four positions that meet are of one slice
  have hmeets : ∀ cs d : Coefficients, ∀ p < 256, (∀ i < 256, slice i = slice p → cs[i]! = d[i]!) → ∀ c < 4,
      cs[16 * (v (slice p) + s * c) + p % 16]! = d[16 * (v (slice p) + s * c) + p % 16]! := by
    intro cs d p hp h c hc
    have hslice := (hpos p hp).1
    have hle := Nat.mul_le_mul_left s (Nat.le_of_lt_succ hc)
    have hlast := hv _ hslice
    exact h _ (by omega) (hmeet _ hslice c hc _ (Nat.mod_lt _ (by decide)))
  refine foldl_range_slices hstep (fun cs d p hp h => ?_) (fun p hp => (hpos p hp).1) cs
  rw [Butterfly.quadAt_congr _ _ _ (hmeets cs d p hp h)]

/-- The four passes of the first trip are the stages with stride 128 and 64: each holds one register of every quarter. -/
theorem headTrips_eq (cs : Coefficients) : (4, (List.range 4).foldl headTrip cs) = nttStage (nttStage (1, cs) 128) 64 := by
  have h128 : 1 * (2 * (2 * 64)) = 256 := rfl
  have h64 : 2 * (2 * 64) = 256 := rfl
  refine Prod.ext ?_ (Butterfly.ext_getElem! fun p (hp : p < 256) => ?_)
  · rw [nttStage_counter _ (by omega) h64, nttStage_counter _ (by omega) h128]
  have hb : p / 64 < 4 := by omega
  have hr : p % 64 < 64 := Nat.mod_lt _ (by decide)
  have hpos : 4 * 64 * 0 + 64 * (p / 64) + p % 64 = p := by omega
  have hstages := nttStage_nttStage cs 1 (by decide) h128 Nat.zero_lt_one hb hr
  rw [hpos] at hstages
  have htrips := foldl_trip 4 (fun i => i) (fun _ => 1) (fun _ => 2) (fun _ => 3) (fun p => p / 16 % 4) (fun p => p / 64)
    (by omega) (fun i hi => by omega) (fun p hp => by omega) (fun i hi b hb l hl => by omega) cs p hp
  refine (htrips.trans ?_).trans hstages.symm
  exact Butterfly.quadAt_congr _ _ _ (fun c _ => congrArg (fun i => cs[i]!) (by omega)) _

/-- The four passes of the second trip are the stages with stride 32 and 16: each holds the registers of one quarter. -/
theorem quarterTrips_eq (cs : Coefficients) :
    (16, (List.range 4).foldl quarterTrip cs) = nttStage (nttStage (4, cs) 32) 16 := by
  have h32 : 4 * (2 * (2 * 16)) = 256 := rfl
  have h16 : 8 * (2 * 16) = 256 := rfl
  refine Prod.ext ?_ (Butterfly.ext_getElem! fun p (hp : p < 256) => ?_)
  · rw [nttStage_counter _ (by omega) h16, nttStage_counter _ (by omega) h32]
  have hB : p / 64 < 4 := by omega
  have hb : p / 16 % 4 < 4 := Nat.mod_lt _ (by decide)
  have hr : p % 16 < 16 := Nat.mod_lt _ (by decide)
  have hpos : 4 * 16 * (p / 64) + 16 * (p / 16 % 4) + p % 16 = p := by omega
  have ha : 4 + (4 + 2 * (p / 64)) = 8 + 2 * (p / 64) := by omega
  have hz : 4 + (4 + 2 * (p / 64) + 1) = 9 + 2 * (p / 64) := by omega
  have hstages := nttStage_nttStage cs 4 (by decide) h32 hB hb hr
  rw [hpos, ha, hz] at hstages
  have htrips := foldl_trip 1 (fun i => 4 * i) (fun i => 4 + i) (fun i => 8 + 2 * i) (fun i => 9 + 2 * i) (fun p => p / 64)
    (fun p => p / 16 % 4) (by omega) (fun i hi => by omega) (fun p hp => by omega) (fun i hi b hb l hl => by omega) cs p hp
  refine (htrips.trans ?_).trans hstages.symm
  exact Butterfly.quadAt_congr _ _ _ (fun c _ => congrArg (fun i => cs[i]!) (by omega)) _

/-- The vector transform, its tail continuing with the zeta that the trips stop at. -/
theorem ntt_eq (cs : Coefficients) : ntt cs = Poly.Generic.ntt cs := by
  have htrips : (16, (List.range 4).foldl quarterTrip ((List.range 4).foldl headTrip cs)) =
      [128, 64, 32, 16].foldl nttStage (1, cs) := by
    rw [quarterTrips_eq, headTrips_eq]
    rfl
  rw [ntt, Poly.Generic.ntt, htrips, ← List.foldl_append]
  rfl

end Trip

/-! ## The stages of the inverse transform -/

/-- The body of the vector loop is sixteen butterflies of the portable stage. -/
theorem vectorButterfly_eq (k : Nat) {len : Nat} (hlen : len ≠ 2) (cs : Coefficients) (j : Nat) :
    vectorButterfly (set1Epi16 zetaRaw[k]!.toInt16) (set1Epi16 zetaBarrett[k]!) len cs j =
      windowPair (nttInversePair len k) 16 len cs j := by
  have hlower : (if len = 16 then barrettReduce (addEpi16 (loaduSi256 cs j) (loaduSi256 cs (j + len)))
      else addEpi16 (loaduSi256 cs j) (loaduSi256 cs (j + len))).map FieldElement.mk =
        Vector.zipWith (fun x y => (nttInversePair len k x y).1) (Lanes.load 16 cs j) (Lanes.load 16 cs (j + len)) := by
    apply Vector.ext
    intro l hl
    rw [Vector.getElem_map, Vector.getElem_zipWith]
    by_cases h : len = 16
    · simp only [barrettReduce_getElem, addEpi16_getElem, loaduSi256, Vector.getElem_map, nttInversePair, h, or_true,
        if_true]
      rfl
    · simp only [addEpi16_getElem, loaduSi256, Vector.getElem_map, nttInversePair, h, hlen, or_false, if_false]
      rfl
  have hupper : (barrettConstMul (subEpi16 (loaduSi256 cs (j + len)) (loaduSi256 cs j)) (set1Epi16 zetaRaw[k]!.toInt16)
      (set1Epi16 zetaBarrett[k]!)).map FieldElement.mk =
        Vector.zipWith (fun x y => (nttInversePair len k x y).2) (Lanes.load 16 cs j) (Lanes.load 16 cs (j + len)) := by
    apply Vector.ext
    intro l hl
    rw [Vector.getElem_map, Vector.getElem_zipWith, barrettConstMul_getElem]
    simp only [subEpi16_getElem, set1Epi16_getElem, loaduSi256, Vector.getElem_map, nttInversePair]
    rfl
  rw [vectorButterfly, windowPair, ← hlower, ← hupper]
  rfl

/-- The strides of the vector stages are whole registers, and their blocks fill the array. -/
theorem vectorStrides : ∀ len ∈ [16, 32, 64, 128], len ≠ 2 ∧ 16 ≤ len ∧ 16 * ((len + 15) / 16) = len ∧
    ∀ start ∈ Loops.stepBy 256 (2 * len), start + 2 * len ≤ 256 := by decide

/-- A vector stage is the portable stage. -/
theorem vectorStage_eq (t : Nat × Coefficients) {len : Nat} (hlen : len ∈ [16, 32, 64, 128]) :
    vectorStage t len = nttInverseStage t len := by
  obtain ⟨h2, h16, hwindows, hfit⟩ := vectorStrides len hlen
  rw [nttInverseStage_eq _ _ (by omega), vectorStage, Butterfly.stage]
  refine List.foldl_ext _ _ _ fun t start hstart => ?_
  have hend := hfit start hstart
  have hlast : start + len + 16 * ((len + 15) / 16) ≤ 256 := by omega
  have hbody : vectorButterfly (set1Epi16 zetaRaw[t.1]!.toInt16) (set1Epi16 zetaBarrett[t.1]!) len =
      windowPair (nttInversePair len t.1) 16 len := funext fun cs => funext fun j => vectorButterfly_eq t.1 h2 cs j
  simp only [hbody]
  rw [foldl_windowPair _ h16 _ _ hlast, hwindows]
  rfl

/-- The final scale, register by register. -/
theorem scale_eq (cs : Coefficients) : (Loops.stepBy 256 16).foldl (fun cs j =>
    storeuSi256 cs j (fqmul (set1Epi16 nttInverseScale) (loaduSi256 cs j))) cs =
      cs.map (· * Poly.Generic.nttInverseScale) := by
  have hbody : ∀ cs : Coefficients, ∀ j, storeuSi256 cs j (fqmul (set1Epi16 nttInverseScale) (loaduSi256 cs j)) =
      Lanes.store cs j ((Lanes.load 16 cs j).map (· * Poly.Generic.nttInverseScale)) := by
    intro cs j
    rw [storeuSi256]
    congr 1
    apply Vector.ext
    intro l hl
    rw [Vector.getElem_map, Vector.getElem_map, fqmul_scale_getElem, loaduSi256, Vector.getElem_map]
  have hfill : 16 * 16 = N := rfl
  simp only [hbody]
  exact foldl_windows_map _ (by decide) hfill cs

theorem nttInverse_eq (cs : Coefficients) : nttInverse cs = Poly.Generic.nttInverse cs := by
  have hhead : [2, 4, 8].foldl headStage (127, cs) = [2, 4, 8].foldl nttInverseStage (127, cs) :=
    List.foldl_ext _ _ _ fun t len hlen => headStage_eq t ((by decide : ∀ len ∈ [2, 4, 8], len ≠ 16) len hlen)
  have hvector : ∀ t : Nat × Coefficients,
    [16, 32, 64, 128].foldl vectorStage t = [16, 32, 64, 128].foldl nttInverseStage t :=
    fun t => List.foldl_ext _ _ _ fun t len hlen => vectorStage_eq t hlen
  rw [nttInverse, Poly.Generic.nttInverse, scale_eq, hhead, hvector, ← List.foldl_append]
  rfl

end Poly.Avx2

end MlkemSelkie
