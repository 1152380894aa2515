import MlkemSelkie.Lemmas.Avx2
import MlkemSelkie.Lemmas.Neon
import MlkemSelkie.Lemmas.Poly

/-!
# The shuffles of the storage

What the vector kernels leave at each position when they split an array into its even and its odd coefficients and when they
put it together again.
-/

namespace MlkemSelkie

open Lanes X86 NeonLanes

/-- The storage holds the pair of a position in its halves. -/
theorem storage_position {β : Type} (g : FieldElement → β) (cs : Coefficients) {p j : Nat} (hj : j = p / 2) :
    (if p % 2 = 0 then g cs[j]! else g cs[128 + j]!) = g cs[p % 2 * 128 + p / 2]! := by
  subst hj
  rcases Nat.mod_two_eq_zero_or_one p with h | h
  · rw [if_pos h, h, Nat.zero_mul, Nat.zero_add]
  · rw [if_neg (by omega), h, Nat.one_mul]

/-- The two halves of the storage of a polynomial. -/
theorem pack_getElem! (natural : Coefficients) (p : Nat) (hp : p < 256) : (Poly.Generic.pack natural)[p]! =
    if p < 128 then natural[2 * p]! else natural[2 * (p - 128) + 1]! := by
  rw [getElem!_pos _ p hp, Poly.Generic.pack, Vector.getElem_ofFn]

namespace Poly.Avx2

/-- The word that the deinterleaving control selects for a word. -/
def deinterleaved (l : Nat) : Nat := if l % 8 < 4 then 2 * (l % 8) else 2 * (l % 8 - 4) + 1

theorem deinterleave_controls : ∀ l < 16, deinterleave[2 * l]!.toNat = 2 * deinterleaved l ∧
    deinterleave[2 * l + 1]!.toNat = 2 * deinterleaved l + 1 ∧ deinterleaved l < 8 := by decide

theorem shuffleWords_getElem! (v : Register) (l : Nat) (hl : l < 16) :
    (shuffleWords v deinterleave)[l]! = v[8 * (l / 8) + deinterleaved l]! := by
  obtain ⟨hlo, hhi, hs⟩ := deinterleave_controls l hl
  rw [shuffleWords, getElem!_map _ _ l hl, getElem!_pos _ l hl, asWords_getElem, word_shuffleEpi8 _ _ (by omega) hlo hhi hs,
    getElem!_map _ _ _ (by omega), Int16.toInt16_toUInt16]

/-- The even words of a register, then the odd ones. -/
theorem deinterleave_getElem! (v : Register) (l : Nat) (hl : l < 16) :
    (permute4x64 0xD8 (shuffleWords v deinterleave))[l]! = if l < 8 then v[2 * l]! else v[2 * (l - 8) + 1]! := by
  rw [permute4x64_middle _ l hl]
  have hquarter : l < 4 ∨ (4 ≤ l ∧ l < 8) ∨ (8 ≤ l ∧ l < 12) ∨ 12 ≤ l := by omega
  rcases hquarter with h | ⟨h, h'⟩ | ⟨h, h'⟩ | h
  · have hpos : 8 * (l / 8) + 2 * (l % 8) = 2 * l := by omega
    rw [if_pos h, if_pos (by omega), shuffleWords_getElem! v l hl, deinterleaved, if_pos (by omega), hpos]
  · have hpos : 8 * ((l + 4) / 8) + 2 * ((l + 4) % 8) = 2 * l := by omega
    rw [if_neg (by omega), if_pos h', if_pos h', shuffleWords_getElem! v _ (by omega), deinterleaved, if_pos (by omega),
      hpos]
  · have hpos : 8 * ((l - 4) / 8) + (2 * ((l - 4) % 8 - 4) + 1) = 2 * (l - 8) + 1 := by omega
    rw [if_neg (by omega), if_neg (by omega), if_pos h', if_neg (by omega), shuffleWords_getElem! v _ (by omega),
      deinterleaved, if_neg (by omega), hpos]
  · have hpos : 8 * (l / 8) + (2 * (l % 8 - 4) + 1) = 2 * (l - 8) + 1 := by omega
    rw [if_neg (by omega), if_neg (by omega), if_neg (by omega), if_neg (by omega), shuffleWords_getElem! v l hl,
      deinterleaved, if_neg (by omega), hpos]

theorem loaduSi256_getElem! (cs : Coefficients) (j l : Nat) (hl : l < 16) :
    FieldElement.mk (loaduSi256 cs j)[l]! = cs[j + l]! := by
  rw [loaduSi256, getElem!_map _ _ l hl, getElem!_pos _ l hl, Lanes.load_getElem]

/-- Gathering the low halves of two deinterleaved registers gathers the even coefficients. -/
theorem gather_low (natural : Coefficients) (i l : Nat) (hl : l < 16) :
    FieldElement.mk (permute2x128 0x20 (permute4x64 0xD8 (shuffleWords (loaduSi256 natural (32 * i)) deinterleave))
      (permute4x64 0xD8 (shuffleWords (loaduSi256 natural (32 * i + 16)) deinterleave)))[l]! = natural[32 * i + 2 * l]! := by
  rw [permute2x128_low _ _ l hl rfl]
  by_cases h : l < 8
  · rw [if_pos h, deinterleave_getElem! _ _ (by omega), if_pos h, loaduSi256_getElem! _ _ _ (by omega)]
  · have hpos : 32 * i + 16 + 2 * (l - 8) = 32 * i + 2 * l := by omega
    rw [if_neg h, deinterleave_getElem! _ _ (by omega), if_pos (by omega), loaduSi256_getElem! _ _ _ (by omega), hpos]

/-- Gathering the high halves gathers the odd coefficients. -/
theorem gather_high (natural : Coefficients) (i l : Nat) (hl : l < 16) :
    FieldElement.mk (permute2x128 0x31 (permute4x64 0xD8 (shuffleWords (loaduSi256 natural (32 * i)) deinterleave))
      (permute4x64 0xD8 (shuffleWords (loaduSi256 natural (32 * i + 16)) deinterleave)))[l]! =
        natural[32 * i + (2 * l + 1)]! := by
  rw [permute2x128_high _ _ l hl rfl]
  by_cases h : l < 8
  · have hpos : 2 * (16 / 2 + l - 8) + 1 = 2 * l + 1 := by omega
    rw [if_pos h, deinterleave_getElem! _ _ (by omega), if_neg (by omega), loaduSi256_getElem! _ _ _ (by omega), hpos]
  · have hpos : 32 * i + 16 + (2 * (l - 8) + 1) = 32 * i + (2 * l + 1) := by omega
    rw [if_neg h, deinterleave_getElem! _ _ hl, if_neg (by omega), loaduSi256_getElem! _ _ _ (by omega), hpos]

theorem pack_eq (natural : Coefficients) : pack natural = Poly.Generic.pack natural := by
  refine Butterfly.ext_getElem! fun p (hp : p < 256) => ?_
  rw [pack_getElem! natural p hp]
  refine foldl_store_halves (F := fun p => natural[2 * p]!) (G := fun p => natural[2 * p + 1]!) (m := 8) (k := 128)
    (by decide) rfl rfl ?_ ?_ _ p hp
  · intro i l hl _
    have hpos : 32 * i + 2 * l = 2 * (16 * i + l) := by omega
    rw [getElem!_map _ _ _ hl, gather_low _ _ _ hl, hpos]
  · intro i l hl _
    have hpos : 32 * i + (2 * l + 1) = 2 * (16 * i + l) + 1 := by omega
    rw [getElem!_map _ _ _ hl, gather_high _ _ _ hl, hpos]

theorem unpack_eq (halves : Coefficients) : unpack halves = Poly.Generic.unpack halves := by
  refine Butterfly.ext_getElem! fun p (hp : p < 256) => ?_
  have hr : p % 32 / 2 < 16 := by omega
  refine Eq.trans (foldl_interleave FieldElement.mk (fun i => loaduSi256 halves (16 * i))
    (fun i => loaduSi256 halves (128 + 16 * i)) (m := 8) rfl _ p hp) ?_
  rw [apply_ite FieldElement.mk, loaduSi256_getElem! _ _ _ hr, loaduSi256_getElem! _ _ _ hr, Nat.add_assoc,
    getElem!_pos _ p hp, Poly.Generic.unpack, Vector.getElem_ofFn]
  exact storage_position id halves (by omega)

/-- A lane canonicalized is the canonical representative. -/
theorem canonicalLanes_getElem! (x : Register) (l : Nat) (hl : l < 16) :
    (canonicalLanes x)[l]!.toUInt16 = (FieldElement.mk x[l]!).value := by
  rw [getElem!_pos _ l hl, getElem!_pos x l hl]
  simp only [canonicalLanes, addEpi16_getElem, andSi256_getElem, sraiEpi16_getElem, set1Epi16_getElem, barrettReduce_getElem]
  rfl

theorem canonical_eq (cs : Coefficients) : canonical cs = Poly.Generic.canonical cs := by
  refine Butterfly.ext_getElem! fun p (hp : p < 256) => ?_
  have hr : p % 32 / 2 < 16 := by omega
  refine Eq.trans (foldl_interleave Int16.toUInt16 (fun i => canonicalLanes (loaduSi256 cs (16 * i)))
    (fun i => canonicalLanes (loaduSi256 cs (128 + 16 * i))) (m := 8) rfl _ p hp) ?_
  rw [apply_ite Int16.toUInt16, canonicalLanes_getElem! _ _ hr, canonicalLanes_getElem! _ _ hr, loaduSi256_getElem! _ _ _ hr,
    loaduSi256_getElem! _ _ _ hr, Nat.add_assoc, getElem!_pos _ p hp, Poly.Generic.canonical, Vector.getElem_ofFn]
  exact storage_position FieldElement.value cs (by omega)

end Poly.Avx2

namespace Poly.Neon

theorem vld1qS16_getElem! (cs : Coefficients) (j l : Nat) (hl : l < 8) :
    FieldElement.mk (vld1qS16 cs j)[l]! = cs[j + l]! := by
  rw [getElem!_pos _ l hl, vld1qS16_getElem]

/-- The even and the odd coefficients of a window, each in a register. -/
theorem vld2_even (natural : Coefficients) (i l : Nat) (hl : l < 8) (hn : 16 * i + 16 ≤ 256) :
    FieldElement.mk (vld2 (natural.map FieldElement.rep) (16 * i)).1[l]! = natural[16 * i + 2 * l]! := by
  have hpos : 16 * i + 2 * l < 256 := by omega
  rw [vld2_fst _ _ _ hl, getElem!_map _ _ _ hpos]

theorem vld2_odd (natural : Coefficients) (i l : Nat) (hl : l < 8) (hn : 16 * i + 16 ≤ 256) :
    FieldElement.mk (vld2 (natural.map FieldElement.rep) (16 * i)).2[l]! = natural[16 * i + (2 * l + 1)]! := by
  have hpos : 16 * i + (2 * l + 1) < 256 := by omega
  rw [vld2_snd _ _ _ hl, getElem!_map _ _ _ hpos]

theorem pack_eq (natural : Coefficients) : pack natural = Poly.Generic.pack natural := by
  refine Butterfly.ext_getElem! fun p (hp : p < 256) => ?_
  rw [pack_getElem! natural p hp]
  refine foldl_store_halves (F := fun p => natural[2 * p]!) (G := fun p => natural[2 * p + 1]!) (m := 16) (k := 128)
    (by decide) rfl rfl ?_ ?_ _ p hp
  · intro i l hl _
    have hpos : 16 * i + 2 * l = 2 * (8 * i + l) := by omega
    rw [getElem!_map _ _ _ hl, vld2_even _ _ _ hl (by omega), hpos]
  · intro i l hl _
    have hpos : 16 * i + (2 * l + 1) = 2 * (8 * i + l) + 1 := by omega
    rw [getElem!_map _ _ _ hl, vld2_odd _ _ _ hl (by omega), hpos]

theorem unpack_eq (halves : Coefficients) : unpack halves = Poly.Generic.unpack halves := by
  refine Butterfly.ext_getElem! fun p (hp : p < 256) => ?_
  have hr : p % 16 / 2 < 8 := by omega
  refine Eq.trans (foldl_vst2 (fun i => ((vld1qS16 halves (8 * i)).map FieldElement.mk,
    (vld1qS16 halves (128 + 8 * i)).map FieldElement.mk)) (m := 16) rfl _ p hp) ?_
  rw [getElem!_map _ _ _ hr, getElem!_map _ _ _ hr, vld1qS16_getElem! _ _ _ hr, vld1qS16_getElem! _ _ _ hr, Nat.add_assoc,
    getElem!_pos _ p hp, Poly.Generic.unpack, Vector.getElem_ofFn]
  exact storage_position id halves (by omega)

/-- A lane canonicalized is the canonical representative. -/
theorem canonicalLanes_getElem! (x : Register) (l : Nat) (hl : l < 8) :
    (canonicalLanes x)[l]!.toUInt16 = (FieldElement.mk x[l]!).value := by
  rw [getElem!_pos _ l hl, getElem!_pos x l hl]
  simp only [canonicalLanes, vaddS16_getElem, vandS16_getElem, vshrNS16_getElem, vdupNS16_getElem, barrettReduce_getElem]
  rfl

theorem canonical_eq (cs : Coefficients) : canonical cs = Poly.Generic.canonical cs := by
  refine Butterfly.ext_getElem! fun p (hp : p < 256) => ?_
  have hr : p % 16 / 2 < 8 := by omega
  refine Eq.trans (foldl_vst2 (fun i => ((canonicalLanes (vld1qS16 cs (8 * i))).map Int16.toUInt16,
    (canonicalLanes (vld1qS16 cs (128 + 8 * i))).map Int16.toUInt16)) (m := 16) rfl _ p hp) ?_
  rw [getElem!_map _ _ _ hr, getElem!_map _ _ _ hr, canonicalLanes_getElem! _ _ hr, canonicalLanes_getElem! _ _ hr,
    vld1qS16_getElem! _ _ _ hr, vld1qS16_getElem! _ _ _ hr, Nat.add_assoc, getElem!_pos _ p hp, Poly.Generic.canonical,
    Vector.getElem_ofFn]
  exact storage_position FieldElement.value cs (by omega)

end Poly.Neon

end MlkemSelkie
