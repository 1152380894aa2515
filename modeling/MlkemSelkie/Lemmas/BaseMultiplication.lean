import MlkemSelkie.Lemmas.Storage

/-!
# The vector base multiplication

Products window by window, and the planes of raw sums. A plane of the AVX2 backend holds every block of sixteen pairs in the
order in which the products are unpacked; packing the reduced sums undoes that order.
-/

namespace MlkemSelkie

open Lanes X86 NeonLanes SignedWords

/-- A loop that updates the two planes apart. -/
theorem foldl_planes (f g : Vector Int32 128 → Nat → Vector Int32 128) (acc : ProductAccumulator) (is : List Nat) :
    is.foldl (fun acc i => (⟨f acc.even i, g acc.odd i⟩ : ProductAccumulator)) acc =
      ⟨is.foldl f acc.even, is.foldl g acc.odd⟩ := by
  induction is generalizing acc with
  | nil => rfl
  | cons i is ih => rw [List.foldl_cons, ih]; rfl

/-- The two results of a pair. -/
def evenProduct (f g : Coefficients) (p : Nat) : FieldElement :=
  f[p]! * g[p]! + f[128 + p]! * g[128 + p]! * gammaMont[p]!

def oddProduct (f g : Coefficients) (p : Nat) : FieldElement := f[p]! * g[128 + p]! + f[128 + p]! * g[p]!

/-- The two halves of the storage of a product. -/
theorem multiply_getElem! (f g : Coefficients) (p : Nat) (hp : p < 256) : (Poly.Generic.multiply f g)[p]! =
    if p < 128 then evenProduct f g p else oddProduct f g (p - 128) := by
  rw [getElem!_pos _ p hp, Poly.Generic.multiply, Vector.getElem_ofFn]
  simp only []
  by_cases h : p < 128
  · rw [if_pos h, if_pos h, evenProduct]
  · have hpos : 128 + (p - 128) = p := by omega
    rw [if_neg h, if_neg h, oddProduct, hpos]

/-- The gains of the two planes at a position. -/
def evenGain (f g : Coefficients) (cache : Vector FieldElement 128) (p : Nat) : Int32 :=
  f[p]!.wideningMul g[p]! + f[128 + p]!.wideningMul cache[p]!

def oddGain (f g : Coefficients) (p : Nat) : Int32 := f[p]!.wideningMul g[128 + p]! + f[128 + p]!.wideningMul g[p]!

/-- What the portable kernel adds to its two sums. -/
theorem basemulAccumulate_planes (acc : ProductAccumulator) (f g : Coefficients) (cache : Vector FieldElement 128) (p : Nat)
    (hp : p < 128) : (Poly.Generic.basemulAccumulate acc f g cache).even[p]! = acc.even[p]! + evenGain f g cache p ∧
      (Poly.Generic.basemulAccumulate acc f g cache).odd[p]! = acc.odd[p]! + oddGain f g p := by
  constructor
  · rw [getElem!_pos _ p hp, getElem!_pos acc.even p hp, evenGain, getElem!_pos cache p hp, Poly.Generic.basemulAccumulate,
      Vector.getElem_ofFn]
    rfl
  · rw [getElem!_pos _ p hp, getElem!_pos acc.odd p hp, oddGain, Poly.Generic.basemulAccumulate, Vector.getElem_ofFn]
    rfl

/-- The two halves of the storage of the reduced sums. -/
theorem basemulReduce_getElem! (acc : ProductAccumulator) (p : Nat) (hp : p < 256) : (Poly.Generic.basemulReduce acc)[p]! =
    if p < 128 then FieldElement.fromProductSum acc.even[p]! else FieldElement.fromProductSum acc.odd[p - 128]! := by
  rw [getElem!_pos _ p hp, Poly.Generic.basemulReduce, Vector.getElem_ofFn]

/-- The sum of two products of lanes. -/
def laneGain {w : Nat} (a0 b0 a1 b1 : Vector Int16 w) (s : Nat) : Int32 :=
  (FieldElement.mk a0[s]!).wideningMul (.mk b0[s]!) + (FieldElement.mk a1[s]!).wideningMul (.mk b1[s]!)

namespace Poly.Avx2

/-- A half register of a table. -/
theorem loaduHalf_getElem! (table : Vector FieldElement 128) (j l : Nat) (hl : l < 16) :
    FieldElement.mk (loaduHalf table j)[l]! = table[j + l]! := by
  rw [loaduHalf, getElem!_map _ _ l hl, Lanes.load_getElem! _ _ _ hl]

/-! ## Products -/

/-- The first result of a window of pairs. -/
theorem product_even (a0 a1 b0 b1 gamma : Register) (l : Nat) (hl : l < 16) :
    FieldElement.mk (addEpi16 (fqmul a0 b0) (fqmul (fqmul a1 b1) gamma))[l]! =
      FieldElement.mk a0[l]! * .mk b0[l]! + FieldElement.mk a1[l]! * .mk b1[l]! * .mk gamma[l]! := by
  rw [getElem!_pos (addEpi16 _ _) l hl, addEpi16_getElem, fqmul_getElem, fqmul_getElem, fqmul_getElem, getElem!_pos a0 l hl,
    getElem!_pos a1 l hl, getElem!_pos b0 l hl, getElem!_pos b1 l hl, getElem!_pos gamma l hl]
  rfl

/-- The second result of a window of pairs. -/
theorem product_odd (a0 a1 b0 b1 : Register) (l : Nat) (hl : l < 16) :
    FieldElement.mk (addEpi16 (fqmul a0 b1) (fqmul a1 b0))[l]! =
      FieldElement.mk a0[l]! * .mk b1[l]! + FieldElement.mk a1[l]! * .mk b0[l]! := by
  rw [getElem!_pos (addEpi16 _ _) l hl, addEpi16_getElem, fqmul_getElem, fqmul_getElem, getElem!_pos a0 l hl,
    getElem!_pos a1 l hl, getElem!_pos b0 l hl, getElem!_pos b1 l hl]
  rfl

/-- The AVX2 base multiplication is the portable one on every array. -/
theorem multiply_eq (f g : Coefficients) : multiply f g = Poly.Generic.multiply f g := by
  refine Butterfly.ext_getElem! fun p (hp : p < 256) => ?_
  rw [multiply_getElem! f g p hp]
  refine foldl_store_halves (F := evenProduct f g) (G := oddProduct f g) (m := 8) (k := 128) (by decide) rfl rfl ?_ ?_ _ p hp
  · intro i l hl _
    rw [getElem!_map _ _ _ hl, product_even _ _ _ _ _ _ hl]
    simp only [loaduSi256_getElem! _ _ _ hl, loaduHalf_getElem! _ _ _ hl, Nat.add_assoc]
    rfl
  · intro i l hl _
    rw [getElem!_map _ _ _ hl, product_odd _ _ _ _ _ hl]
    simp only [loaduSi256_getElem! _ _ _ hl, Nat.add_assoc]
    rfl

/-! ## The order of the planes -/

/-- The pair of a block that a position of a plane holds. -/
def order (p : Nat) : Nat :=
  16 * (p / 16) + if p % 16 < 8 then 8 * (p % 16 / 4) + p % 16 % 4 else 8 * ((p % 16 - 8) / 4) + 4 + (p % 16 - 8) % 4

/-- The low and the high product of a lane are the words of its whole product. -/
theorem dword_lanes (a b : Register) (s : Nat) (hs : s < 16) :
    dword (mulloEpi16 a b)[s]! (mulhiEpi16 a b)[s]! = (FieldElement.mk a[s]!).wideningMul (.mk b[s]!) := by
  rw [getElem!_pos (mulloEpi16 a b) s hs, getElem!_pos (mulhiEpi16 a b) s hs, mulloEpi16_getElem, mulhiEpi16_getElem,
    dword_product, getElem!_pos a s hs, getElem!_pos b s hs]
  rfl

/-- The whole products of the low half of each 128-bit lane. -/
theorem wideningMulLo_getElem! (a b : Register) (k : Nat) (hk : k < 8) : (wideningMulLo a b)[k]! =
    (FieldElement.mk a[8 * (k / 4) + k % 4]!).wideningMul (.mk b[8 * (k / 4) + k % 4]!) := by
  have hs : 8 * (k / 4) + k % 4 < 16 := by omega
  have hlo : 8 * (2 * k / 8) + 2 * k % 8 / 2 = 8 * (k / 4) + k % 4 := by omega
  have hhi : 8 * ((2 * k + 1) / 8) + (2 * k + 1) % 8 / 2 = 8 * (k / 4) + k % 4 := by omega
  rw [getElem!_pos _ k hk, wideningMulLo, asDwords_getElem, unpackloEpi16_getElem! _ _ _ (by omega),
    unpackloEpi16_getElem! _ _ _ (by omega), if_pos (by omega), if_neg (by omega), hlo, hhi]
  exact dword_lanes a b _ hs

/-- The whole products of the high half. -/
theorem wideningMulHi_getElem! (a b : Register) (k : Nat) (hk : k < 8) : (wideningMulHi a b)[k]! =
    (FieldElement.mk a[8 * (k / 4) + 4 + k % 4]!).wideningMul (.mk b[8 * (k / 4) + 4 + k % 4]!) := by
  have hs : 8 * (k / 4) + 4 + k % 4 < 16 := by omega
  have hlo : 8 * (2 * k / 8) + 4 + 2 * k % 8 / 2 = 8 * (k / 4) + 4 + k % 4 := by omega
  have hhi : 8 * ((2 * k + 1) / 8) + 4 + (2 * k + 1) % 8 / 2 = 8 * (k / 4) + 4 + k % 4 := by omega
  rw [getElem!_pos _ k hk, wideningMulHi, asDwords_getElem, unpackhiEpi16_getElem! _ _ _ (by omega),
    unpackhiEpi16_getElem! _ _ _ (by omega), if_pos (by omega), if_neg (by omega), hlo, hhi]
  exact dword_lanes a b _ hs

/-- What the first store of a window adds. -/
theorem gain_low (a0 b0 a1 b1 : Register) (l : Nat) (hl : l < 8) (v : Vector Int32 8) :
    (addEpi32 v (addEpi32 (wideningMulLo a0 b0) (wideningMulLo a1 b1)))[l]! =
      v[l]! + laneGain a0 b0 a1 b1 (8 * (l / 4) + l % 4) := by
  rw [getElem!_pos (addEpi32 _ _) l hl, addEpi32_getElem, addEpi32_getElem, laneGain, ← wideningMulLo_getElem! _ _ _ hl,
    ← wideningMulLo_getElem! _ _ _ hl, getElem!_pos v l hl, getElem!_pos (wideningMulLo a0 b0) l hl,
    getElem!_pos (wideningMulLo a1 b1) l hl]

/-- What the second store adds. -/
theorem gain_high (a0 b0 a1 b1 : Register) (l : Nat) (hl : l < 8) (v : Vector Int32 8) :
    (addEpi32 v (addEpi32 (wideningMulHi a0 b0) (wideningMulHi a1 b1)))[l]! =
      v[l]! + laneGain a0 b0 a1 b1 (8 * (l / 4) + 4 + l % 4) := by
  rw [getElem!_pos (addEpi32 _ _) l hl, addEpi32_getElem, addEpi32_getElem, laneGain, ← wideningMulHi_getElem! _ _ _ hl,
    ← wideningMulHi_getElem! _ _ _ hl, getElem!_pos v l hl, getElem!_pos (wideningMulHi a0 b0) l hl,
    getElem!_pos (wideningMulHi a1 b1) l hl]

/-- The part of a pass that updates one plane: the window gains `a0 * b0 + a1 * b1`. -/
def updatePlane (a0 b0 a1 b1 : Nat → Register) (plane : Vector Int32 128) (i : Nat) : Vector Int32 128 :=
  let plane := Lanes.store plane (16 * i) (addEpi32 (Lanes.load 8 plane (16 * i))
    (addEpi32 (wideningMulLo (a0 i) (b0 i)) (wideningMulLo (a1 i) (b1 i))))
  Lanes.store plane (16 * i + 8) (addEpi32 (Lanes.load 8 plane (16 * i + 8))
    (addEpi32 (wideningMulHi (a0 i) (b0 i)) (wideningMulHi (a1 i) (b1 i))))

/-- Every position of a plane gains the products of the pair it holds. -/
theorem updatePlane_getElem! (a0 b0 a1 b1 : Nat → Register) (plane : Vector Int32 128) (p : Nat) (hp : p < 128) :
    ((List.range 8).foldl (updatePlane a0 b0 a1 b1) plane)[p]! =
      plane[p]! + laneGain (a0 (p / 16)) (b0 (p / 16)) (a1 (p / 16)) (b1 (p / 16)) (order p % 16) := by
  have hpass : ∀ plane, ∀ i < 8, updatePlane a0 b0 a1 b1 plane i =
      Lanes.store (Lanes.store plane (2 * 8 * i) (addEpi32 (Lanes.load 8 plane (2 * 8 * i))
        (addEpi32 (wideningMulLo (a0 i) (b0 i)) (wideningMulLo (a1 i) (b1 i))))) (2 * 8 * i + 8)
        (addEpi32 (Lanes.load 8 plane (2 * 8 * i + 8))
          (addEpi32 (wideningMulHi (a0 i) (b0 i)) (wideningMulHi (a1 i) (b1 i)))) := by
    intro plane i hi
    unfold updatePlane
    simp only []
    rw [Lanes.load_store_behind _ _ _ (by omega)]
  rw [foldl_update_twice (f := fun i v => addEpi32 v (addEpi32 (wideningMulLo (a0 i) (b0 i)) (wideningMulLo (a1 i) (b1 i))))
    (g := fun i v => addEpi32 v (addEpi32 (wideningMulHi (a0 i) (b0 i)) (wideningMulHi (a1 i) (b1 i))))
    (F := fun i l x => x + laneGain (a0 i) (b0 i) (a1 i) (b1 i) (8 * (l / 4) + l % 4))
    (G := fun i l x => x + laneGain (a0 i) (b0 i) (a1 i) (b1 i) (8 * (l / 4) + 4 + l % 4)) hpass
    (fun i v l hl => gain_low (a0 i) (b0 i) (a1 i) (b1 i) l hl v)
      (fun i v l hl => gain_high (a0 i) (b0 i) (a1 i) (b1 i) l hl v)
    (by decide) rfl plane p hp]
  by_cases h : p % (2 * 8) < 8
  · have horder : order p % 16 = 8 * (p % (2 * 8) / 4) + p % (2 * 8) % 4 := by
      rw [order, if_pos h]
      omega
    rw [if_pos h, horder]
  · have horder : order p % 16 = 8 * ((p % (2 * 8) - 8) / 4) + 4 + (p % (2 * 8) - 8) % 4 := by
      rw [order, if_neg h]
      omega
    rw [if_neg h, horder]

/-- The order of the sums stays within a block of sixteen. -/
theorem order_block (p : Nat) : 16 * (p / 16) + order p % 16 = order p := by
  unfold order
  split <;> omega

/-- The AVX2 kernel adds the same, its sums in the order of its registers. -/
theorem basemulAccumulate_planes (acc : ProductAccumulator) (f g : Coefficients) (cache : Vector FieldElement 128) (p : Nat)
    (hp : p < 128) : (basemulAccumulate acc f g cache).even[p]! = acc.even[p]! + evenGain f g cache (order p) ∧
      (basemulAccumulate acc f g cache).odd[p]! = acc.odd[p]! + oddGain f g (order p) := by
  have hplanes : basemulAccumulate acc f g cache = _ := foldl_planes
    (updatePlane (fun i => loaduSi256 f (16 * i)) (fun i => loaduSi256 g (16 * i)) (fun i => loaduSi256 f (128 + 16 * i))
      fun i => loaduHalf cache (16 * i))
    (updatePlane (fun i => loaduSi256 f (16 * i)) (fun i => loaduSi256 g (128 + 16 * i))
      (fun i => loaduSi256 f (128 + 16 * i))
      fun i => loaduSi256 g (16 * i)) acc (List.range 8)
  have hr : order p % 16 < 16 := Nat.mod_lt _ (by decide)
  rw [hplanes]
  simp only [updatePlane_getElem! _ _ _ _ _ p hp, laneGain, loaduSi256_getElem! _ _ _ hr, loaduHalf_getElem! _ _ _ hr,
    Nat.add_assoc, order_block]
  exact ⟨rfl, rfl⟩

/-! ## The reduction of the planes -/

/-- A lane of the reduction of whole products. -/
theorem montgomeryReduceWide_getElem (a : Vector Int32 8) (l : Nat) (hl : l < 8) :
    (montgomeryReduceWide a)[l] = (a[l] - (a[l].toInt16 * qInv).toInt32 * q.toInt32) >>> (16 : Int32) := by
  simp only [montgomeryReduceWide, sraiEpi32_getElem, slliEpi32_getElem, subEpi32_getElem, mulloEpi32_getElem,
    set1Epi32_getElem, sign_extension, Int32.toInt16_mul]
  rfl

/-- The reduced double words are words: packing them never saturates. -/
theorem montgomeryReduceWide_fits (a : Vector Int32 8) (l : Nat) (hl : l < 8) :
    Fits16 (montgomeryReduceWide a)[l].toInt := by
  rw [montgomeryReduceWide_getElem]
  generalize a[l] - (a[l].toInt16 * qInv).toInt32 * q.toInt32 = x
  have h1 := x.le_toInt
  have h2 := x.toInt_lt
  rw [toInt_shiftRight _ _ 16 (by decide)]
  exact ⟨by omega, by omega⟩

/-- A reduced double word packed is the reduced sum. -/
theorem pack_reduced (a : Vector Int32 8) (l : Nat) (hl : l < 8) :
    FieldElement.mk (saturate16 (montgomeryReduceWide a)[l]!.toInt) = FieldElement.fromProductSum a[l]! := by
  rw [getElem!_pos (montgomeryReduceWide a) l hl, saturate16_narrow (montgomeryReduceWide_fits a l hl),
    montgomeryReduceWide_getElem, getElem!_pos a l hl]
  rfl

/-- The position of a plane that packing puts at a position of a half. -/
def slot (p : Nat) : Nat :=
  16 * (p / 16) + if p % 16 % 8 < 4 then 4 * (p % 16 / 8) + p % 16 % 8 else 8 + (4 * (p % 16 / 8) + (p % 16 % 8 - 4))

/-- Packing undoes the order in which the planes are filled. -/
theorem order_slot (p : Nat) : order (slot p) = p := by
  unfold order slot
  split <;> split <;> omega

/-- A window packed from a plane. -/
theorem packs_getElem! (plane : Vector Int32 128) (i l : Nat) (hl : l < 16) :
    FieldElement.mk (packsEpi32 16 (montgomeryReduceWide (Lanes.load 8 plane (16 * i)))
      (montgomeryReduceWide (Lanes.load 8 plane (16 * i + 8))))[l]! =
        FieldElement.fromProductSum plane[slot (16 * i + l)]! := by
  have hblock : (16 * i + l) / 16 = i := by omega
  have hmod : (16 * i + l) % 16 = l := by omega
  rw [packsEpi32_getElem! _ _ _ hl, slot, hblock, hmod]
  split
  · rw [pack_reduced _ _ (by omega), Lanes.load_getElem! _ _ _ (by omega)]
  · rw [pack_reduced _ _ (by omega), Lanes.load_getElem! _ _ _ (by omega), Nat.add_assoc]

/-- Planes that hold the portable ones in the order of the products. -/
def Holds (acc portable : ProductAccumulator) : Prop :=
  ∀ p < 128, acc.even[p]! = portable.even[order p]! ∧ acc.odd[p]! = portable.odd[order p]!

/-- The order of the sums stays within the array. -/
theorem order_lt {p : Nat} (hp : p < 128) : order p < 128 := by
  unfold order
  split <;> omega

/-- So does its inverse. -/
theorem slot_lt {p : Nat} (hp : p < 128) : slot p < 128 := by
  unfold slot
  split <;> omega

/-- The empty accumulators hold the same. -/
theorem holds_zero : Holds .zero .zero := by
  intro p hp
  have hzero : ∀ i < 128, (Vector.replicate 128 (0 : Int32))[i]! = 0 := by
    intro i hi
    rw [getElem!_pos _ i hi, Vector.getElem_replicate]
  have hplane : (Vector.replicate 128 (0 : Int32))[p]! = (Vector.replicate 128 (0 : Int32))[order p]! := by
    rw [hzero p hp, hzero _ (order_lt hp)]
  exact ⟨hplane, hplane⟩

/-- A component keeps the accumulators alike. -/
theorem Holds.accumulate {acc portable : ProductAccumulator} (h : Holds acc portable) (f g : Coefficients)
    (cache : Vector FieldElement 128) :
    Holds (basemulAccumulate acc f g cache) (Poly.Generic.basemulAccumulate portable f g cache) := by
  intro p hp
  obtain ⟨heven, hodd⟩ := h p hp
  obtain ⟨heven', hodd'⟩ := basemulAccumulate_planes acc f g cache p hp
  obtain ⟨heven'', hodd''⟩ := MlkemSelkie.basemulAccumulate_planes portable f g cache (order p) (order_lt hp)
  exact ⟨by rw [heven', heven'', heven], by rw [hodd', hodd'', hodd]⟩

/-- Accumulators that are alike reduce to the same element. -/
theorem Holds.reduce {acc portable : ProductAccumulator} (h : Holds acc portable) :
    basemulReduce acc = Poly.Generic.basemulReduce portable := by
  refine Butterfly.ext_getElem! fun p (hp : p < 256) => ?_
  rw [basemulReduce_getElem! _ p hp]
  refine foldl_store_halves (F := fun p => FieldElement.fromProductSum portable.even[p]!)
    (G := fun p => FieldElement.fromProductSum portable.odd[p]!) (m := 8) (k := 128) (by decide) rfl rfl ?_ ?_ _ p hp
  · intro i l hl hp
    rw [getElem!_map _ _ _ hl, packs_getElem! _ _ _ hl, (h _ (slot_lt hp)).1, order_slot]
  · intro i l hl hp
    rw [getElem!_map _ _ _ hl, packs_getElem! _ _ _ hl, (h _ (slot_lt hp)).2, order_slot]

end Poly.Avx2

namespace Poly.Neon

/-- A register of a table. -/
theorem vld1qS16_half (table : Vector FieldElement 128) (j l : Nat) (hl : l < 8) :
    FieldElement.mk (vld1qS16 table j)[l]! = table[j + l]! := by
  rw [vld1qS16, getElem!_map _ _ l hl, Lanes.load_getElem! _ _ _ hl]

/-! ## Products -/

/-- The even lane of a base product. -/
theorem product_even (a0 a1 b0 b1 gamma : Register) (l : Nat) (hl : l < 8) :
    FieldElement.mk (vaddS16 (fqmul a0 b0) (fqmul (fqmul a1 b1) gamma))[l]! =
      FieldElement.mk a0[l]! * .mk b0[l]! + FieldElement.mk a1[l]! * .mk b1[l]! * .mk gamma[l]! := by
  rw [getElem!_pos (vaddS16 _ _) l hl, vaddS16_getElem, fqmul_getElem, fqmul_getElem, fqmul_getElem, getElem!_pos a0 l hl,
    getElem!_pos a1 l hl, getElem!_pos b0 l hl, getElem!_pos b1 l hl, getElem!_pos gamma l hl]
  rfl

/-- The odd lane of a base product. -/
theorem product_odd (a0 a1 b0 b1 : Register) (l : Nat) (hl : l < 8) :
    FieldElement.mk (vaddS16 (fqmul a0 b1) (fqmul a1 b0))[l]! =
      FieldElement.mk a0[l]! * .mk b1[l]! + FieldElement.mk a1[l]! * .mk b0[l]! := by
  rw [getElem!_pos (vaddS16 _ _) l hl, vaddS16_getElem, fqmul_getElem, fqmul_getElem, getElem!_pos a0 l hl,
    getElem!_pos a1 l hl, getElem!_pos b0 l hl, getElem!_pos b1 l hl]
  rfl

/-- The NEON base multiplication is the portable one on every array. -/
theorem multiply_eq (f g : Coefficients) : multiply f g = Poly.Generic.multiply f g := by
  refine Butterfly.ext_getElem! fun p (hp : p < 256) => ?_
  rw [multiply_getElem! f g p hp]
  refine foldl_store_halves (F := evenProduct f g) (G := oddProduct f g) (m := 16) (k := 128) (by decide) rfl rfl ?_ ?_
    _ p hp
  · intro i l hl _
    rw [getElem!_map _ _ _ hl, product_even _ _ _ _ _ _ hl]
    simp only [vld1qS16_getElem! _ _ _ hl, vld1qS16_half _ _ _ hl, Nat.add_assoc]
    rfl
  · intro i l hl _
    rw [getElem!_map _ _ _ hl, product_odd _ _ _ _ _ hl]
    simp only [vld1qS16_getElem! _ _ _ hl, Nat.add_assoc]
    rfl

/-! ## The planes -/

/-- What the first store of a window adds. -/
theorem gain_low (a0 b0 a1 b1 : Register) (l : Nat) (hl : l < 4) (v : Vector Int32 4) :
    (vmlalS16 (vmlalS16 v (vgetLowS16 a0) (vgetLowS16 b0)) (vgetLowS16 a1) (vgetLowS16 b1))[l]! =
      v[l]! + laneGain a0 b0 a1 b1 l := by
  rw [getElem!_pos (vmlalS16 _ _ _) l hl, vmlalS16_getElem, vmlalS16_getElem, vgetLowS16_getElem, vgetLowS16_getElem,
    vgetLowS16_getElem, vgetLowS16_getElem, getElem!_pos v l hl, Int32.add_assoc]
  rfl

/-- What the second store adds. -/
theorem gain_high (a0 b0 a1 b1 : Register) (l : Nat) (hl : l < 4) (v : Vector Int32 4) :
    (vmlalHighS16 (vmlalHighS16 v a0 b0) a1 b1)[l]! = v[l]! + laneGain a0 b0 a1 b1 (4 + l) := by
  rw [getElem!_pos (vmlalHighS16 _ _ _) l hl, vmlalHighS16_getElem, vmlalHighS16_getElem, getElem!_pos v l hl,
    Int32.add_assoc]
  rfl

/-- The part of a pass that updates one plane: the window gains `a0 * b0 + a1 * b1`. -/
def updatePlane (a0 b0 a1 b1 : Nat → Register) (plane : Vector Int32 128) (i : Nat) : Vector Int32 128 :=
  Lanes.store (Lanes.store plane (2 * 4 * i)
    (vmlalS16 (vmlalS16 (Lanes.load 4 plane (2 * 4 * i)) (vgetLowS16 (a0 i)) (vgetLowS16 (b0 i))) (vgetLowS16 (a1 i))
      (vgetLowS16 (b1 i)))) (2 * 4 * i + 4)
    (vmlalHighS16 (vmlalHighS16 (Lanes.load 4 plane (2 * 4 * i + 4)) (a0 i) (b0 i)) (a1 i) (b1 i))

/-- Every position of a plane gains the products of its pair. -/
theorem updatePlane_getElem! (a0 b0 a1 b1 : Nat → Register) (plane : Vector Int32 128) (p : Nat) (hp : p < 128) :
    ((List.range 16).foldl (updatePlane a0 b0 a1 b1) plane)[p]! =
      plane[p]! + laneGain (a0 (p / 8)) (b0 (p / 8)) (a1 (p / 8)) (b1 (p / 8)) (p % 8) := by
  rw [foldl_update_twice
    (f := fun i v => vmlalS16 (vmlalS16 v (vgetLowS16 (a0 i)) (vgetLowS16 (b0 i))) (vgetLowS16 (a1 i)) (vgetLowS16 (b1 i)))
    (g := fun i v => vmlalHighS16 (vmlalHighS16 v (a0 i) (b0 i)) (a1 i) (b1 i))
    (F := fun i l x => x + laneGain (a0 i) (b0 i) (a1 i) (b1 i) l)
    (G := fun i l x => x + laneGain (a0 i) (b0 i) (a1 i) (b1 i) (4 + l))
    (fun plane i _ => (rfl : updatePlane a0 b0 a1 b1 plane i = _))
    (fun i v l hl => gain_low (a0 i) (b0 i) (a1 i) (b1 i) l hl v)
      (fun i v l hl => gain_high (a0 i) (b0 i) (a1 i) (b1 i) l hl v)
    (by decide) rfl plane p hp]
  by_cases h : p % (2 * 4) < 4
  · rw [if_pos h]
  · have hlane : 4 + (p % (2 * 4) - 4) = p % 8 := by omega
    rw [if_neg h, hlane]

/-- The NEON accumulation is the portable one. -/
theorem basemulAccumulate_eq (acc : ProductAccumulator) (f g : Coefficients) (cache : Vector FieldElement 128) :
    basemulAccumulate acc f g cache = Poly.Generic.basemulAccumulate acc f g cache := by
  have hplanes : basemulAccumulate acc f g cache = _ := foldl_planes
    (updatePlane (fun i => vld1qS16 f (8 * i)) (fun i => vld1qS16 g (8 * i)) (fun i => vld1qS16 f (128 + 8 * i))
      fun i => vld1qS16 cache (8 * i))
    (updatePlane (fun i => vld1qS16 f (8 * i)) (fun i => vld1qS16 g (128 + 8 * i)) (fun i => vld1qS16 f (128 + 8 * i))
      fun i => vld1qS16 g (8 * i)) acc (List.range 16)
  have hpos : ∀ p, 8 * (p / 8) + p % 8 = p := fun p => by omega
  rw [hplanes, Poly.Generic.basemulAccumulate, ProductAccumulator.mk.injEq]
  constructor
  · refine Butterfly.ext_getElem! fun p hp => ?_
    have hr : p % 8 < 8 := Nat.mod_lt _ (by decide)
    refine Eq.trans ?_ (basemulAccumulate_planes acc f g cache p hp).1.symm
    simp only [updatePlane_getElem! _ _ _ _ _ p hp, laneGain, vld1qS16_getElem! _ _ _ hr, vld1qS16_half _ _ _ hr,
      Nat.add_assoc, hpos]
    rfl
  · refine Butterfly.ext_getElem! fun p hp => ?_
    have hr : p % 8 < 8 := Nat.mod_lt _ (by decide)
    refine Eq.trans ?_ (basemulAccumulate_planes acc f g cache p hp).2.symm
    simp only [updatePlane_getElem! _ _ _ _ _ p hp, laneGain, vld1qS16_getElem! _ _ _ hr, Nat.add_assoc, hpos]
    rfl

/-- A window reduced from a plane. -/
theorem reduced_getElem! (plane : Vector Int32 128) (i l : Nat) (hl : l < 8) :
    FieldElement.mk (vcombineS16 (montgomeryReduce (Lanes.load 4 plane (8 * i)) (vdupNS16 q) (vdupNS16 qInv))
      (montgomeryReduce (Lanes.load 4 plane (8 * i + 4)) (vdupNS16 q) (vdupNS16 qInv)))[l]! =
      FieldElement.fromProductSum plane[8 * i + l]! := by
  rw [getElem!_pos (vcombineS16 _ _) l hl,
    vcombineS16_getElem (g := fun l => FieldElement.montgomeryReduce plane[8 * i + l]!) ?_ ?_ l hl]
  · rfl
  · intro l hl
    rw [montgomeryReduce_getElem, Lanes.load_getElem]
  · intro l hl
    rw [montgomeryReduce_getElem, Lanes.load_getElem, Nat.add_assoc]

/-- The NEON reduction is the portable one. -/
theorem basemulReduce_eq (acc : ProductAccumulator) : basemulReduce acc = Poly.Generic.basemulReduce acc := by
  refine Butterfly.ext_getElem! fun p (hp : p < 256) => ?_
  rw [basemulReduce_getElem! _ p hp]
  unfold basemulReduce vst1qS16
  refine foldl_store_halves (F := fun p => FieldElement.fromProductSum acc.even[p]!)
    (G := fun p => FieldElement.fromProductSum acc.odd[p]!) (m := 16) (k := 128) (by decide) rfl rfl ?_ ?_ _ p hp
  · intro i l hl _
    rw [getElem!_map _ _ _ hl, reduced_getElem! _ _ _ hl]
  · intro i l hl _
    rw [getElem!_map _ _ _ hl, reduced_getElem! _ _ _ hl]

end Poly.Neon

end MlkemSelkie
