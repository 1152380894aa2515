import MlkemSelkie.Lemmas.Ntt
import MlkemSelkie.Poly.Neon

/-!
# The NEON registers compute what the loops compute

Every vector helper does in each lane what the scalar operation does. A trip holds the registers of a slice through several
levels of butterflies; the trips of a loop share out the array, and leave what the stages one after the other leave.
-/

namespace MlkemSelkie

open SignedWords NeonLanes Poly.Generic

namespace Poly.Neon

/-! ## The lanes -/

section Lane

variable (a b bBar : Register) (l : Nat) (hl : l < 8)

/-- With a multiplier that does not saturate, the doubling product picks the quotient estimate of the scalar product. -/
theorem barrettConstMul_getElem (hbar : -32768 < bBar[l].toInt) :
    (barrettConstMul a b bBar)[l] = (FieldElement.barrettConstMul ⟨a[l]⟩ b[l] bBar[l]).rep := by
  simp only [barrettConstMul, vmlsS16_getElem, vmulS16_getElem, vqrdmulhS16_getElem, vdupNS16_getElem, qrdmulh16_eq _ hbar]
  rw [← Lanes.mullo_eq a[l]]
  rfl

/-- Narrowing the difference of a half is the wrapping difference of words. -/
theorem narrow_remainder (x : Int16) :
    (x.toInt32 - ((1 : Int32) <<< 25 + x.toInt32 * barrettV) >>> 26 * q.toInt32).toInt16 = FieldElement.barrett x := by
  rw [Int32.toInt16_sub, Int32.toInt16_mul, Int16.toInt16_toInt32, Int16.toInt16_toInt32, FieldElement.barrett,
    Int32.add_comm, Int32.mul_comm x.toInt32]
  rfl

/-- A lane of the Barrett reduction. -/
theorem barrettReduce_getElem : (barrettReduce a)[l] = FieldElement.barrett a[l] := by
  rw [← getElem!_pos a l hl]
  unfold barrettReduce
  refine vcombineS16_getElem (g := fun l => FieldElement.barrett a[l]!) (fun l hl => ?_) (fun l hl => ?_) l hl
  · simp only [vmovnS32_getElem, vsubS32_getElem, vmulNS32_getElem, vshrNS32_getElem, vmlaNS32_getElem, vdupNS32_getElem,
      vmovlS16_getElem, vgetLowS16_getElem, narrow_remainder]
  · simp only [vmovnS32_getElem, vsubS32_getElem, vmulNS32_getElem, vshrNS32_getElem, vmlaNS32_getElem, vdupNS32_getElem,
      vmovlHighS16_getElem, narrow_remainder]

/-- A lane of the Montgomery reduction. -/
theorem montgomeryReduce_getElem (e : Vector Int32 4) (l : Nat) (hl : l < 4) :
    (montgomeryReduce e (vdupNS16 q) (vdupNS16 qInv))[l] = FieldElement.montgomeryReduce e[l] := by
  simp only [montgomeryReduce, vshrnNS32_getElem, vsubS32_getElem, vmullS16_getElem, vmulS16_getElem, vmovnS32_getElem,
    vdupNS16_getElem]
  rfl

/-- A lane of the Montgomery product. -/
theorem fqmul_getElem : (fqmul a b)[l] = ((⟨a[l]⟩ : FieldElement) * ⟨b[l]⟩).rep := by
  have hlanes : ∀ l (hl : l < 8), (fqmul a b)[l] = FieldElement.montgomeryReduce (a[l]!.toInt32 * b[l]!.toInt32) := by
    refine vcombineS16_getElem (fun l hl => ?_) (fun l hl => ?_)
    · rw [montgomeryReduce_getElem, vmullS16_getElem, vgetLowS16_getElem, vgetLowS16_getElem]
    · rw [montgomeryReduce_getElem, vmullHighS16_getElem]
  rw [hlanes l hl, getElem!_pos a l hl, getElem!_pos b l hl]
  rfl

/-- The scale that the lanes hold is the one of the portable transform, the factors in the other order. -/
theorem fqmul_scale_getElem :
    FieldElement.mk (fqmul (vdupNS16 nttInverseScale) a)[l] = FieldElement.mk a[l] * Poly.Generic.nttInverseScale := by
  rw [fqmul_getElem, vdupNS16_getElem]
  exact congrArg (fun x => FieldElement.mk (FieldElement.montgomeryReduce x))
    (Int32.mul_comm nttInverseScale.toInt32 a[l].toInt32)

end Lane

/-! ## The trips of the forward transform -/

section Trip

variable {cs : Coefficients}

/-- No multiplier of the table saturates. -/
theorem zetaBarrett_lower (k : Nat) : -32768 < zetaBarrett[k]!.toInt := by
  by_cases hk : k < 128
  · obtain ⟨_, ⟨hnonneg, _⟩, _⟩ := zeta_multiplier k hk
    exact Int.lt_of_lt_of_le (by decide) hnonneg
  · rw [getElem!_neg zetaBarrett k hk]
    decide

theorem vld1qS16_getElem (j l : Nat) (hl : l < 8) : (⟨(vld1qS16 cs j)[l]⟩ : FieldElement) = cs[j + l]! := by
  rw [vld1qS16, Vector.getElem_map, Lanes.load_getElem]

/-- The lower register of a butterfly. -/
theorem butterfly_fst (a b : Register) (k l : Nat) (hl : l < 8) :
    (⟨(butterfly a b (zeta k)).1[l]⟩ : FieldElement) = (nttPair k ⟨a[l]⟩ ⟨b[l]⟩).1 := by
  have hbar : -32768 < ((zeta k).2[l]).toInt := by
    rw [zeta, vdupNS16_getElem]
    exact zetaBarrett_lower k
  simp only [butterfly, vaddS16_getElem, barrettConstMul_getElem _ _ _ l hl hbar]
  simp only [zeta, vdupNS16_getElem]
  rfl

/-- The upper register of a butterfly. -/
theorem butterfly_snd (a b : Register) (k l : Nat) (hl : l < 8) :
    (⟨(butterfly a b (zeta k)).2[l]⟩ : FieldElement) = (nttPair k ⟨a[l]⟩ ⟨b[l]⟩).2 := by
  have hbar : -32768 < ((zeta k).2[l]).toInt := by
    rw [zeta, vdupNS16_getElem]
    exact zetaBarrett_lower k
  simp only [butterfly, vsubS16_getElem, barrettConstMul_getElem _ _ _ l hl hbar]
  simp only [zeta, vdupNS16_getElem]
  rfl

/-- The two levels of the head trip on four values. -/
def headLevels (x : Nat → FieldElement) : Nat → FieldElement :=
  Butterfly.levelAt (fun j => nttPair (2 + j)) 1 (Butterfly.levelAt (fun j => nttPair (1 + j)) 2 x)

/-- The three levels of the quarter trip on eight values. -/
def quarterLevels (quarter : Nat) (x : Nat → FieldElement) : Nat → FieldElement :=
  Butterfly.levelAt (fun j => nttPair (16 + (4 * quarter + j))) 1
    (Butterfly.levelAt (fun j => nttPair (8 + (2 * quarter + j))) 2
      (Butterfly.levelAt (fun j => nttPair (4 + (quarter + j))) 4 x))

/-- The levels of the head trip read four values. -/
theorem headLevels_congr {x y : Nat → FieldElement} (h : ∀ i < 4, x i = y i) {b : Nat} (hb : b < 4) :
    headLevels x b = headLevels y b :=
  Butterfly.levelAt_congr _ (m := 2) (fun _ hi => Butterfly.levelAt_congr _ (m := 1) h hi) hb

/-- The levels of a quarter trip read eight. -/
theorem quarterLevels_congr {quarter : Nat} {x y : Nat → FieldElement} (h : ∀ i < 8, x i = y i) {b : Nat} (hb : b < 8) :
    quarterLevels quarter x b = quarterLevels quarter y b :=
  Butterfly.levelAt_congr _ (m := 4) (fun _ hi => Butterfly.levelAt_congr _ (m := 2)
    (fun _ hi => Butterfly.levelAt_congr _ (m := 1) h hi) hi) hb

/-- The registers that the head trip stores, from those that it loads. -/
def headRegisters (v : Nat → Register) : List Register :=
  let (v0, v2) := butterfly (v 0) (v 2) (zeta 1)
  let (v1, v3) := butterfly (v 1) (v 3) (zeta 1)
  let (v0, v1) := butterfly v0 v1 (zeta 2)
  let (v2, v3) := butterfly v2 v3 (zeta 3)
  [v0, v1, v2, v3]

/-- The registers that the quarter trip stores, from those that it loads. -/
def quarterRegisters (quarter : Nat) (v : Nat → Register) : List Register :=
  let (v0, v4) := butterfly (v 0) (v 4) (zeta (4 + quarter))
  let (v1, v5) := butterfly (v 1) (v 5) (zeta (4 + quarter))
  let (v2, v6) := butterfly (v 2) (v 6) (zeta (4 + quarter))
  let (v3, v7) := butterfly (v 3) (v 7) (zeta (4 + quarter))
  let (v0, v2) := butterfly v0 v2 (zeta (8 + 2 * quarter))
  let (v1, v3) := butterfly v1 v3 (zeta (8 + 2 * quarter))
  let (v4, v6) := butterfly v4 v6 (zeta (9 + 2 * quarter))
  let (v5, v7) := butterfly v5 v7 (zeta (9 + 2 * quarter))
  let (v0, v1) := butterfly v0 v1 (zeta (16 + 4 * quarter))
  let (v2, v3) := butterfly v2 v3 (zeta (17 + 4 * quarter))
  let (v4, v5) := butterfly v4 v5 (zeta (18 + 4 * quarter))
  let (v6, v7) := butterfly v6 v7 (zeta (19 + 4 * quarter))
  [v0, v1, v2, v3, v4, v5, v6, v7]

/-- A head trip stores its registers where it loaded them. -/
theorem headTrip_eq (cs : Coefficients) (i : Nat) : headTrip cs i =
    Lanes.storeAll (fun b => 8 * (i + 8 * b))
      ((headRegisters fun b => vld1qS16 cs (8 * (i + 8 * b))).map fun x => x.map FieldElement.mk) 0 cs := rfl

/-- A quarter trip stores its registers where it loaded them. -/
theorem quarterTrip_eq (cs : Coefficients) (quarter : Nat) : quarterTrip cs quarter =
    Lanes.storeAll (fun b => 8 * (8 * quarter + b))
      ((quarterRegisters quarter fun b => vld1qS16 cs (8 * (8 * quarter + b))).map fun x => x.map FieldElement.mk)
      0 cs := rfl

/-- A lane of the registers of a head trip. -/
theorem headRegisters_getElem (v : Nat → Register) (b l : Nat) (hb : b < (headRegisters v).length) (hl : l < 8) :
    (⟨(headRegisters v)[b][l]⟩ : FieldElement) = headLevels (fun i => ⟨(v i)[l]⟩) b := by
  match b, hb with
  | 0, _ => simp [headRegisters, headLevels, Butterfly.levelAt, butterfly_fst]
  | 1, _ => simp [headRegisters, headLevels, Butterfly.levelAt, butterfly_fst, butterfly_snd]
  | 2, _ => simp [headRegisters, headLevels, Butterfly.levelAt, butterfly_fst, butterfly_snd]
  | 3, _ => simp [headRegisters, headLevels, Butterfly.levelAt, butterfly_snd]

/-- A lane of the registers of a quarter trip. -/
theorem quarterRegisters_getElem (quarter : Nat) (v : Nat → Register) (b l : Nat)
    (hb : b < (quarterRegisters quarter v).length)
    (hl : l < 8) : (⟨(quarterRegisters quarter v)[b][l]⟩ : FieldElement) =
      quarterLevels quarter (fun i => ⟨(v i)[l]⟩) b := by
  have h9 : 9 + 2 * quarter = 8 + (2 * quarter + 1) := by omega
  have h17 : 17 + 4 * quarter = 16 + (4 * quarter + 1) := by omega
  have h18 : 18 + 4 * quarter = 16 + (4 * quarter + 2) := by omega
  have h19 : 19 + 4 * quarter = 16 + (4 * quarter + 3) := by omega
  match b, hb with
  | 0, _ => simp [quarterRegisters, quarterLevels, Butterfly.levelAt, butterfly_fst]
  | 1, _ => simp [quarterRegisters, quarterLevels, Butterfly.levelAt, butterfly_fst, butterfly_snd]
  | 2, _ => simp [quarterRegisters, quarterLevels, Butterfly.levelAt, butterfly_fst, butterfly_snd, h17]
  | 3, _ => simp [quarterRegisters, quarterLevels, Butterfly.levelAt, butterfly_fst, butterfly_snd, h17]
  | 4, _ => simp [quarterRegisters, quarterLevels, Butterfly.levelAt, butterfly_fst, butterfly_snd, h9, h18]
  | 5, _ => simp [quarterRegisters, quarterLevels, Butterfly.levelAt, butterfly_fst, butterfly_snd, h9, h18]
  | 6, _ => simp [quarterRegisters, quarterLevels, Butterfly.levelAt, butterfly_fst, butterfly_snd, h9, h19]
  | 7, _ => simp [quarterRegisters, quarterLevels, Butterfly.levelAt, butterfly_snd, h9, h19]

/-- A lane of a register that the head trip holds goes through both levels. -/
theorem headTrip_inside (cs : Coefficients) {i b l : Nat} (hi : i < 8) (hb : b < 4) (hl : l < 8) :
    (headTrip cs i)[8 * (i + 8 * b) + l]! = headLevels (fun k => cs[8 * (i + 8 * k) + l]!) b := by
  have hn : 8 * (i + 8 * b) + l < 256 := by omega
  have hlen : b < ((headRegisters fun b => vld1qS16 cs (8 * (i + 8 * b))).map fun x => x.map FieldElement.mk).length := by
    rw [List.length_map]
    exact hb
  have hstore := Lanes.storeAll_inside (j := fun b => 8 * (i + 8 * b)) (fun a b hab => by omega) hl _ 0 b cs hlen
    (by rw [Nat.zero_add]; exact hn)
  rw [Nat.zero_add, List.getElem_map, Vector.getElem_map, headRegisters_getElem] at hstore
  rw [headTrip_eq, hstore]
  simp only [vld1qS16_getElem]

/-- The registers of the other head trips stand. -/
theorem headTrip_outside (cs : Coefficients) {i p : Nat} (hp : p < 256) (hi : i < 8) (h : p / 8 % 8 ≠ i) :
    (headTrip cs i)[p]! = cs[p]! := by
  rw [headTrip_eq]
  refine Lanes.storeAll_outside hp _ _ _ fun b _ => ?_
  rw [Nat.zero_add]
  omega

/-- A lane of a register that the quarter trip holds goes through the three levels. -/
theorem quarterTrip_inside (cs : Coefficients) {quarter b l : Nat} (hq : quarter < 4) (hb : b < 8) (hl : l < 8) :
    (quarterTrip cs quarter)[8 * (8 * quarter + b) + l]! =
      quarterLevels quarter (fun k => cs[8 * (8 * quarter + k) + l]!) b := by
  have hn : 8 * (8 * quarter + b) + l < 256 := by omega
  have hlen : b < ((quarterRegisters quarter fun b => vld1qS16 cs (8 * (8 * quarter + b))).map
      fun x => x.map FieldElement.mk).length := by
    rw [List.length_map]
    exact hb
  have hstore := Lanes.storeAll_inside (j := fun b => 8 * (8 * quarter + b)) (fun a b hab => by omega) hl _ 0 b cs hlen
    (by rw [Nat.zero_add]; exact hn)
  rw [Nat.zero_add, List.getElem_map, Vector.getElem_map, quarterRegisters_getElem] at hstore
  rw [quarterTrip_eq, hstore]
  simp only [vld1qS16_getElem]

/-- The other quarters stand. -/
theorem quarterTrip_outside (cs : Coefficients) {quarter p : Nat} (hp : p < 256) (h : p / 64 ≠ quarter) :
    (quarterTrip cs quarter)[p]! = cs[p]! := by
  rw [quarterTrip_eq]
  refine Lanes.storeAll_outside hp _ _ _ fun b hb => ?_
  rw [List.length_map] at hb
  have hb : b < 8 := hb
  rw [Nat.zero_add]
  omega

/-- The head trips share out the array: every position goes through the levels of its own trip. -/
theorem foldl_headTrip (cs : Coefficients) : ∀ p < 256,
    ((List.range 8).foldl headTrip cs)[p]! = headLevels (fun k => cs[64 * k + p % 64]!) (p / 64) := by
  have hstep : ∀ cs : Coefficients, ∀ i < 8, ∀ p < 256, (headTrip cs i)[p]! =
      if p / 8 % 8 = i then headLevels (fun k => cs[64 * k + p % 64]!) (p / 64) else cs[p]! := by
    intro cs i hi p hp
    by_cases h : p / 8 % 8 = i
    · have hpos : 8 * (i + 8 * (p / 64)) + p % 8 = p := by omega
      have hinside := headTrip_inside cs hi (b := p / 64) (by omega) (Nat.mod_lt p (show 0 < 8 by decide))
      rw [hpos] at hinside
      rw [if_pos h, hinside]
      exact headLevels_congr (fun k _ => congrArg (fun i => cs[i]!) (by omega)) (by omega)
    · rw [if_neg h, headTrip_outside cs hp hi h]
  have hmeet : ∀ cs d : Coefficients, ∀ p < 256, (∀ i < 256, i / 8 % 8 = p / 8 % 8 → cs[i]! = d[i]!) →
      headLevels (fun k => cs[64 * k + p % 64]!) (p / 64) = headLevels (fun k => d[64 * k + p % 64]!) (p / 64) :=
    fun cs d p hp h => headLevels_congr (fun k hk => h _ (by omega) (by omega)) (by omega)
  exact Lanes.foldl_range_slices hstep hmeet (fun p _ => Nat.mod_lt _ (by decide)) cs

/-- The quarter trips share out the array: every position goes through the levels of its own trip. -/
theorem foldl_quarterTrip (cs : Coefficients) : ∀ p < 256,
    ((List.range 4).foldl quarterTrip cs)[p]! =
      quarterLevels (p / 64) (fun k => cs[64 * (p / 64) + 8 * k + p % 8]!) (p / 8 % 8) := by
  have hlevel : ∀ p : Nat, p / 8 % 8 < 8 := fun p => Nat.mod_lt _ (by decide)
  have hstep : ∀ cs : Coefficients, ∀ i < 4, ∀ p < 256, (quarterTrip cs i)[p]! =
      if p / 64 = i then quarterLevels (p / 64) (fun k => cs[64 * (p / 64) + 8 * k + p % 8]!) (p / 8 % 8) else cs[p]! := by
    intro cs i hi p hp
    by_cases h : p / 64 = i
    · have hpos : 8 * (8 * i + p / 8 % 8) + p % 8 = p := by omega
      have hinside := quarterTrip_inside cs hi (hlevel p) (Nat.mod_lt p (show 0 < 8 by decide))
      rw [hpos] at hinside
      rw [if_pos h, hinside, h]
      exact quarterLevels_congr (fun k _ => congrArg (fun i => cs[i]!) (by omega)) (hlevel p)
    · rw [if_neg h, quarterTrip_outside cs hp h]
  have hmeet : ∀ cs d : Coefficients, ∀ p < 256, (∀ i < 256, i / 64 = p / 64 → cs[i]! = d[i]!) →
      quarterLevels (p / 64) (fun k => cs[64 * (p / 64) + 8 * k + p % 8]!) (p / 8 % 8) =
        quarterLevels (p / 64) (fun k => d[64 * (p / 64) + 8 * k + p % 8]!) (p / 8 % 8) :=
    fun cs d p hp h => quarterLevels_congr (fun k hk => h _ (by omega) (by omega)) (hlevel p)
  exact Lanes.foldl_range_slices hstep hmeet (fun p (hp : p < 256) => by omega) cs

/-- The trips of the first loop are the stages with stride 128 and 64. -/
theorem headTrips_eq (cs : Coefficients) : (4, (List.range 8).foldl headTrip cs) = nttStage (nttStage (1, cs) 128) 64 := by
  have h128 : 1 * (2 * 128) = 256 := rfl
  have h64 : 2 * (2 * 64) = 256 := rfl
  have hk : (nttStage (1, cs) 128).1 = 2 := nttStage_counter (1, cs) (by decide) h128
  refine Prod.ext ?_ (Butterfly.ext_getElem! fun p (hp : p < 256) => ?_)
  · rw [nttStage_counter _ (by decide) h64, hk]
  have hr : p % 64 < 64 := Nat.mod_lt _ (by decide)
  have hpos : 0 + 64 * (p / 64) + p % 64 = p := by omega
  have hwide : ∀ b < 4, (nttStage (1, cs) 128).2[0 + 64 * b + p % 64]! =
      Butterfly.levelAt (fun j => nttPair (1 + (0 + j))) 2 (fun i => cs[0 + 64 * i + p % 64]!) b :=
    fun b hb => nttStage_level (1, cs) (by decide) (by decide) rfl h128 rfl hr (by omega)
  have hnarrow : (nttStage (nttStage (1, cs) 128) 64).2[0 + 64 * (p / 64) + p % 64]! =
      Butterfly.levelAt (fun j => nttPair ((nttStage (1, cs) 128).1 + (0 + j))) 1
        (fun i => (nttStage (1, cs) 128).2[0 + 64 * i + p % 64]!) (p / 64) :=
    nttStage_level _ (by decide) (by decide) rfl h64 rfl hr (by omega)
  rw [Butterfly.levelAt_congr _ (m := 2) hwide (by omega), hk, hpos] at hnarrow
  simp only [Nat.zero_add] at hnarrow
  rw [hnarrow, foldl_headTrip cs p hp, headLevels]

/-- The trips of the second loop are the stages with stride 32, 16 and 8. -/
theorem quarterTrips_eq (cs : Coefficients) :
    (32, (List.range 4).foldl quarterTrip cs) = nttStage (nttStage (nttStage (4, cs) 32) 16) 8 := by
  have h32 : 4 * (2 * 32) = 256 := rfl
  have h16 : 8 * (2 * 16) = 256 := rfl
  have h8 : 16 * (2 * 8) = 256 := rfl
  have hk32 : (nttStage (4, cs) 32).1 = 8 := nttStage_counter (4, cs) (by decide) h32
  have hk16 : (nttStage (nttStage (4, cs) 32) 16).1 = 16 := by rw [nttStage_counter _ (by decide) h16, hk32]
  refine Prod.ext ?_ (Butterfly.ext_getElem! fun p (hp : p < 256) => ?_)
  · rw [nttStage_counter _ (by decide) h8, hk16]
  obtain ⟨X, hX⟩ : ∃ X, X = 64 * (p / 64) := ⟨_, rfl⟩
  have hr : p % 8 < 8 := Nat.mod_lt _ (by decide)
  have hb : p / 8 % 8 < 8 := Nat.mod_lt _ (by decide)
  have hpos : X + 8 * (p / 8 % 8) + p % 8 = p := by omega
  have hwide : ∀ b < 8, (nttStage (4, cs) 32).2[X + 8 * b + p % 8]! =
      Butterfly.levelAt (fun j => nttPair (4 + (p / 64 + j))) 4 (fun i => cs[X + 8 * i + p % 8]!) b :=
    fun b hb => nttStage_level (4, cs) (by decide) (by decide) rfl h32 hX hr (by omega)
  have hmiddle : ∀ b < 8, (nttStage (nttStage (4, cs) 32) 16).2[X + 8 * b + p % 8]! =
      Butterfly.levelAt (fun j => nttPair (8 + (2 * (p / 64) + j))) 2
        (Butterfly.levelAt (fun j => nttPair (4 + (p / 64 + j))) 4 (fun i => cs[X + 8 * i + p % 8]!)) b := by
    intro b hb
    have hlevel : (nttStage (nttStage (4, cs) 32) 16).2[X + 8 * b + p % 8]! =
        Butterfly.levelAt (fun j => nttPair ((nttStage (4, cs) 32).1 + (2 * (p / 64) + j))) 2
          (fun i => (nttStage (4, cs) 32).2[X + 8 * i + p % 8]!) b :=
      nttStage_level _ (by decide) (by decide) rfl h16 (by omega) hr (by omega)
    rw [Butterfly.levelAt_congr _ (m := 2) hwide hb, hk32] at hlevel
    exact hlevel
  have hnarrow : (nttStage (nttStage (nttStage (4, cs) 32) 16) 8).2[X + 8 * (p / 8 % 8) + p % 8]! =
      Butterfly.levelAt (fun j => nttPair ((nttStage (nttStage (4, cs) 32) 16).1 + (4 * (p / 64) + j))) 1
        (fun i => (nttStage (nttStage (4, cs) 32) 16).2[X + 8 * i + p % 8]!) (p / 8 % 8) :=
    nttStage_level _ (by decide) (by decide) rfl h8 (by omega) hr (by omega)
  rw [Butterfly.levelAt_congr _ (m := 4) hmiddle hb, hk16, hpos] at hnarrow
  rw [hnarrow, foldl_quarterTrip cs p hp, quarterLevels, ← hX]

/-- The vector transform, its tail continuing with the zeta that the trips stop at. -/
theorem ntt_eq (cs : Coefficients) : ntt cs = Poly.Generic.ntt cs := by
  have htrips : (32, (List.range 4).foldl quarterTrip ((List.range 8).foldl headTrip cs)) =
      [128, 64, 32, 16, 8].foldl nttStage (1, cs) := by
    rw [quarterTrips_eq, headTrips_eq]
    simp only [List.foldl_cons, List.foldl_nil]
  rw [ntt, nttTail, Poly.Generic.ntt, htrips, ← List.foldl_append]
  rfl

end Trip

/-! ## The stages of the inverse transform -/

/-- The body of the vector loop is eight butterflies of the portable stage. -/
theorem vectorButterfly_eq (k : Nat) {len : Nat} (hlen : len ≠ 2) (cs : Coefficients) (j : Nat) :
    vectorButterfly (vdupNS16 zetaRaw[k]!.toInt16) (vdupNS16 zetaBarrett[k]!) len cs j =
      Lanes.windowPair (nttInversePair len k) 8 len cs j := by
  have hlower : (if len = 16 then barrettReduce (vaddS16 (vld1qS16 cs j) (vld1qS16 cs (j + len)))
      else vaddS16 (vld1qS16 cs j) (vld1qS16 cs (j + len))).map FieldElement.mk =
        Vector.zipWith (fun x y => (nttInversePair len k x y).1) (Lanes.load 8 cs j) (Lanes.load 8 cs (j + len)) := by
    apply Vector.ext
    intro l hl
    rw [Vector.getElem_map, Vector.getElem_zipWith]
    by_cases h : len = 16
    · simp only [barrettReduce_getElem, vaddS16_getElem, vld1qS16, Vector.getElem_map, nttInversePair, h, or_true, if_true]
      rfl
    · simp only [vaddS16_getElem, vld1qS16, Vector.getElem_map, nttInversePair, h, hlen, or_false, if_false]
      rfl
  have hupper : (barrettConstMul (vsubS16 (vld1qS16 cs (j + len)) (vld1qS16 cs j)) (vdupNS16 zetaRaw[k]!.toInt16)
      (vdupNS16 zetaBarrett[k]!)).map FieldElement.mk =
        Vector.zipWith (fun x y => (nttInversePair len k x y).2) (Lanes.load 8 cs j) (Lanes.load 8 cs (j + len)) := by
    apply Vector.ext
    intro l hl
    rw [Vector.getElem_map, Vector.getElem_zipWith,
      barrettConstMul_getElem _ _ _ l hl (by rw [vdupNS16_getElem]; exact zetaBarrett_lower k)]
    simp only [vsubS16_getElem, vdupNS16_getElem, vld1qS16, Vector.getElem_map, nttInversePair]
    rfl
  rw [vectorButterfly, Lanes.windowPair, ← hlower, ← hupper]
  rfl

/-- The strides of the vector stages are whole registers, and their blocks fill the array. -/
theorem vectorStrides : ∀ len ∈ [8, 16, 32, 64, 128], len ≠ 2 ∧ 8 ≤ len ∧ 8 * ((len + 7) / 8) = len ∧
    ∀ start ∈ Loops.stepBy 256 (2 * len), start + 2 * len ≤ 256 := by decide

/-- A vector stage is the portable stage. -/
theorem vectorStage_eq (t : Nat × Coefficients) {len : Nat} (hlen : len ∈ [8, 16, 32, 64, 128]) :
    vectorStage t len = nttInverseStage t len := by
  obtain ⟨h2, h8, hwindows, hfit⟩ := vectorStrides len hlen
  rw [nttInverseStage_eq _ _ (by omega), vectorStage, Butterfly.stage]
  refine List.foldl_ext _ _ _ fun t start hstart => ?_
  have hend := hfit start hstart
  have hlast : start + len + 8 * ((len + 7) / 8) ≤ 256 := by omega
  have hbody : vectorButterfly (vdupNS16 zetaRaw[t.1]!.toInt16) (vdupNS16 zetaBarrett[t.1]!) len =
      Lanes.windowPair (nttInversePair len t.1) 8 len := funext fun cs => funext fun j => vectorButterfly_eq t.1 h2 cs j
  simp only [hbody]
  rw [Lanes.foldl_windowPair _ h8 _ _ hlast, hwindows]
  rfl

/-- The final scale, register by register. -/
theorem scale_eq (cs : Coefficients) : (Loops.stepBy 256 8).foldl (fun cs j =>
    vst1qS16 cs j (fqmul (vdupNS16 nttInverseScale) (vld1qS16 cs j))) cs = cs.map (· * Poly.Generic.nttInverseScale) := by
  have hbody : ∀ cs : Coefficients, ∀ j, vst1qS16 cs j (fqmul (vdupNS16 nttInverseScale) (vld1qS16 cs j)) =
      Lanes.store cs j ((Lanes.load 8 cs j).map (· * Poly.Generic.nttInverseScale)) := by
    intro cs j
    rw [vst1qS16]
    congr 1
    apply Vector.ext
    intro l hl
    rw [Vector.getElem_map, Vector.getElem_map, fqmul_scale_getElem, vld1qS16, Vector.getElem_map]
  have hfill : 8 * 32 = N := rfl
  simp only [hbody]
  exact Lanes.foldl_windows_map _ (by decide) hfill cs

/-- The inverse transform on registers is the portable one on every array. -/
theorem nttInverse_eq (cs : Coefficients) : nttInverse cs = Poly.Generic.nttInverse cs := by
  have hhead : [2, 4].foldl headStage (127, cs) = [2, 4].foldl nttInverseStage (127, cs) :=
    List.foldl_ext _ _ _ fun t len hlen => headStage_eq t ((by decide : ∀ len ∈ [2, 4], len ≠ 16) len hlen)
  have hvector : ∀ t : Nat × Coefficients, [8, 16, 32, 64, 128].foldl vectorStage t =
      [8, 16, 32, 64, 128].foldl nttInverseStage t :=
    fun t => List.foldl_ext _ _ _ fun t len hlen => vectorStage_eq t hlen
  rw [nttInverse, Poly.Generic.nttInverse, scale_eq, hhead, hvector, ← List.foldl_append]
  rfl

end Poly.Neon

end MlkemSelkie
