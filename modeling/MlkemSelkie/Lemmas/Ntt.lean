import MlkemSelkie.Lemmas.Tables

/-!
# The transforms of the code are those of FIPS 203

The forward transform never reduces between its stages and the inverse transform only in two of them. Each stage keeps a
bound on its coefficients; as long as the bound is a word, no addition wraps and the residues follow Algorithms 9 and 10.
-/

namespace MlkemSelkie

open Fips203 FieldElement Poly.Generic

namespace Coefficients

/-- The residue classes of the coefficients. -/
def toZq (cs : Coefficients) : Fin 256 → Zq := fun i => cs[i].toZq

/-- Every coefficient is at most `B` in absolute value. -/
def Within (B : Nat) (cs : Coefficients) : Prop := ∀ i : Fin 256, cs[i].Within B

theorem Within.mono {B B' : Nat} {cs : Coefficients} (h : Within B cs) (hB : B ≤ B') : Within B' cs :=
  fun i => (h i).mono hB

theorem Within.getElem! {B : Nat} {cs : Coefficients} (h : Within B cs) (i : Nat) (hi : i < 256) : cs[i]!.Within B := by
  rw [getElem!_pos cs i hi]
  exact h ⟨i, hi⟩

theorem Within.replicate {B : Nat} {a : FieldElement} (h : a.Within B) : Within B (Vector.replicate N a) := by
  intro i
  rw [Loops.getElem_fin, Vector.getElem_replicate]
  exact h

end Coefficients

/-- A bounded representative of a residue class. -/
def Represents (B : Nat) (a : FieldElement) (x : Zq) : Prop := a.Within B ∧ a.toZq = x

/-! ## The forward transform -/

/-- The two values that the loop body of `ntt` computes, under the zeta `k`. -/
def nttPair (k : Nat) (x y : FieldElement) : FieldElement × FieldElement :=
  (x + y.barrettConstMul zetaRaw[k]!.toInt16 zetaBarrett[k]!, x - y.barrettConstMul zetaRaw[k]!.toInt16 zetaBarrett[k]!)

/-- The loop body of `ntt` replaces a pair. -/
theorem nttButterfly_eq (k : Nat) {len : Nat} (hlen : 0 < len) :
    nttButterfly zetaRaw[k]!.toInt16 zetaBarrett[k]! len = Butterfly.pair (nttPair k) len := by
  funext cs j
  exact Butterfly.pair_eq_upper_first (fun x y : FieldElement => x - y.barrettConstMul zetaRaw[k]!.toInt16 zetaBarrett[k]!)
    (fun x y => x + y.barrettConstMul zetaRaw[k]!.toInt16 zetaBarrett[k]!) len hlen cs j

theorem nttStage_eq (s : Nat × Coefficients) (len : Nat) (hlen : 0 < len) :
    nttStage s len = Butterfly.stage (fun k => k + 1) nttPair len s := by
  simp only [nttStage, nttButterfly_eq _ hlen]
  rfl

/-- A stage takes one zeta a block. -/
theorem nttStage_counter (t : Nat × Coefficients) {len m : Nat} (hlen : 0 < len) (hm : m * (2 * len) = 256) :
    (nttStage t len).1 = t.1 + m := by
  rw [nttStage_eq _ _ hlen, (Butterfly.stage_spec _ nttPair len m t hlen hm).1, Ntt.iterate_succ_counter]

/-- A stage on the coefficients that are whole units apart. -/
theorem nttStage_level (t : Nat × Coefficients) {stride len s m X B b r : Nat} (hlen : 0 < len) (hs : 0 < s)
    (hstride : stride = len * s) (hm : m * (2 * stride) = 256) (hX : X = 2 * stride * B) (hr : r < len)
    (hi : X + len * b + r < 256) : (nttStage t stride).2[X + len * b + r]! =
      Butterfly.levelAt (fun j => nttPair (t.1 + (B + j))) s (fun i => t.2[X + len * i + r]!) b := by
  have hpos : 0 < stride := hstride ▸ Nat.mul_pos hlen hs
  rw [nttStage_eq _ _ hpos, (Butterfly.stage_spec _ nttPair _ m t hpos hm).2 _ hi]
  subst hstride
  rw [Butterfly.stageAt_level _ nttPair t.1 t.2 hlen hs hX hr]
  simp only [Ntt.iterate_succ_counter]

/-- The growth of the bound in one forward stage. -/
def grow (B : Nat) : Nat := B + constMulBound B

/-- A forward butterfly is the butterfly of Algorithm 9 on the residues, and its bound grows. -/
theorem nttPair_spec {B k : Nat} (hB : grow B ≤ 32767) (hk : k < 128) {x y : FieldElement} {x' y' : Zq}
    (hx : Represents B x x') (hy : Represents B y y') :
    Represents (grow B) (nttPair k x y).1 (Ntt.forwardPair zetas k x' y').1 ∧
      Represents (grow B) (nttPair k x y).2 (Ntt.forwardPair zetas k x' y').2 := by
  obtain ⟨hx, rfl⟩ := hx
  obtain ⟨hy, rfl⟩ := hy
  obtain ⟨ht, htz⟩ := barrettConstMul_spec hy (by rw [grow] at hB; omega) (zeta_multiplier k hk)
  rw [zetaRaw_eq k hk, mul_comm] at htz
  obtain ⟨hadd, haddz⟩ := hx.add ht hB
  obtain ⟨hsub, hsubz⟩ := hx.sub ht hB
  exact ⟨⟨hadd, by rw [nttPair, haddz, htz]; rfl⟩, ⟨hsub, by rw [nttPair, hsubz, htz]; rfl⟩⟩

/-- One stage keeps the relation to Algorithm 9, with the next bound. -/
theorem nttStage_spec {B len m : Nat} {s : Nat × Coefficients} {d : Nat × Vector Zq 256} (hB : grow B ≤ 32767)
    (hlen : 0 < len) (hm : m * (2 * len) = 256) (hk : s.1 + m ≤ 128) (hd : d.1 = s.1)
    (h : ∀ i < 256, Represents B s.2[i]! d.2[i]!) :
    (nttStage s len).1 = s.1 + m ∧
      (Butterfly.stage (fun k => k + 1) (Ntt.forwardPair zetas) len d).1 = s.1 + m ∧
      ∀ i < 256, Represents (grow B) (nttStage s len).2[i]!
        (Butterfly.stage (fun k => k + 1) (Ntt.forwardPair zetas) len d).2[i]! := by
  obtain ⟨k, cs⟩ := s
  obtain ⟨k', d⟩ := d
  obtain rfl : k' = k := hd
  rw [nttStage_eq _ _ hlen]
  refine ⟨?_, ?_, ?_⟩
  · rw [(Butterfly.stage_spec _ nttPair len m _ hlen hm).1, Ntt.iterate_succ_counter]
  · rw [(Butterfly.stage_spec _ (Ntt.forwardPair zetas) len m _ hlen hm).1, Ntt.iterate_succ_counter]
  · refine Butterfly.stage_simulates (Represents B) (Represents (grow B)) _ _ _ hlen hm (fun b hb x y x' y' hx hy => ?_) h
    rw [Ntt.iterate_succ_counter]
    exact nttPair_spec hB (by simp only at hk; omega) hx hy

/-- The strides of the first stages. -/
def forwardStrides (s : Nat) : List Nat := (List.range s).map fun t => 2 ^ (6 - t) * 2

theorem forwardStrides_succ (s : Nat) : forwardStrides (s + 1) = forwardStrides s ++ [2 ^ (6 - s) * 2] := by
  rw [forwardStrides, List.range_succ, List.map_append]
  rfl

/-- The blocks of a forward stage fill the array. -/
theorem forwardStrides_fill {s : Nat} (hs : s ≤ 6) : 2 ^ s * (2 * (2 ^ (6 - s) * 2)) = 256 := by
  have hsum : s + (6 - s) = 6 := by omega
  calc 2 ^ s * (2 * (2 ^ (6 - s) * 2)) = 2 ^ (s + (6 - s)) * 4 := by rw [pow_add]; ring
    _ = 256 := by rw [hsum]; rfl

/-- The bounds of the forward stages, from the canonical range on, are words. -/
theorem grow_words : ∀ s < 7, grow^[s + 1] 3329 ≤ 32767 := by decide

/-- The first stages keep the relation to Algorithm 9. -/
theorem nttStages_spec {cs : Coefficients} (hc : Coefficients.Within 3329 cs) :
    ∀ s ≤ 7,
      ((forwardStrides s).foldl nttStage (1, cs)).1 = 2 ^ s ∧
      ((forwardStrides s).foldl (fun s len => Butterfly.stage (fun k => k + 1) (Ntt.forwardPair zetas) len s)
        (1, Vector.ofFn (Coefficients.toZq cs))).1 = 2 ^ s ∧
      ∀ i < 256, Represents (grow^[s] 3329) ((forwardStrides s).foldl nttStage (1, cs)).2[i]!
        ((forwardStrides s).foldl (fun s len => Butterfly.stage (fun k => k + 1) (Ntt.forwardPair zetas) len s)
          (1, Vector.ofFn (Coefficients.toZq cs))).2[i]! := by
  intro s
  induction s with
  | zero =>
    intro _
    refine ⟨rfl, rfl, fun i hi => ⟨hc.getElem! i hi, ?_⟩⟩
    rw [forwardStrides, List.range_zero, List.map_nil, List.foldl_nil, List.foldl_nil, getElem!_pos _ i hi,
      getElem!_pos _ i hi, Vector.getElem_ofFn]
    rfl
  | succ s ih =>
    intro hs
    obtain ⟨ih1, ih2, ih3⟩ := ih (by omega)
    rw [forwardStrides_succ, List.foldl_append, List.foldl_append]
    have hlen : 0 < 2 ^ (6 - s) * 2 := Nat.mul_pos (Nat.two_pow_pos _) (by decide)
    have hpow : 2 ^ s ≤ 64 := Nat.pow_le_pow_right (n := 2) (by decide) (Nat.le_of_lt_succ hs)
    have hword := grow_words s (by omega)
    rw [Function.iterate_succ_apply'] at hword ⊢
    have hnext := nttStage_spec hword hlen (forwardStrides_fill (by omega)) (by omega) (ih2.trans ih1.symm) ih3
    rw [ih1, ← Nat.mul_two, ← pow_succ] at hnext
    exact hnext

/-- The forward transform is Algorithm 9 on the residues, and its coefficients are centered. -/
theorem ntt_spec {cs : Coefficients} (hc : Coefficients.Within 3329 cs) :
    Coefficients.Within 1664 (Poly.Generic.ntt cs) ∧
      Coefficients.toZq (Poly.Generic.ntt cs) = Fips203.ntt (Coefficients.toZq cs) := by
  obtain ⟨_, _, h⟩ := nttStages_spec hc 7 (Nat.le_refl 7)
  rw [show forwardStrides 7 = nttSeries by decide] at h
  refine ⟨fun i => ?_, funext fun i => ?_⟩
  · simp only [Poly.Generic.ntt, Loops.getElem_fin, Vector.getElem_map]
    exact (reduce_spec _).1
  · have hi := (h i i.isLt).2
    rw [getElem!_pos _ i.val i.isLt, getElem!_pos _ i.val i.isLt] at hi
    rw [ntt_eq_fold, Coefficients.toZq, Loops.getElem_fin, Loops.getElem_fin]
    simp only [Poly.Generic.ntt, Vector.getElem_map]
    rw [(reduce_spec _).2, hi]
    rfl

/-! ## The inverse transform -/

/-- The two values that the loop body of `ntt_inverse` computes, under the zeta `k`. -/
def nttInversePair (len k : Nat) (x y : FieldElement) : FieldElement × FieldElement :=
  (if len = 2 ∨ len = 16 then (x + y).reduce else x + y,
    (y - x).barrettConstMul zetaRaw[k]!.toInt16 zetaBarrett[k]!)

theorem nttInverseStage_eq (s : Nat × Coefficients) (len : Nat) (hlen : 0 < len) :
    nttInverseStage s len = Butterfly.stage (fun k => k - 1) (nttInversePair len) len s := by
  have hpair : ∀ z zBar : Int16, nttInverseButterfly z zBar len =
      Butterfly.pair
        (fun x y => (if len = 2 ∨ len = 16 then (x + y).reduce else x + y, (y - x).barrettConstMul z zBar)) len :=
    fun z zBar => funext fun cs => funext fun j => Butterfly.pair_eq_lower_first
      (fun x y : FieldElement => (y - x).barrettConstMul z zBar)
      (fun x y : FieldElement => if len = 2 ∨ len = 16 then (x + y).reduce else x + y) len hlen cs j
  simp only [nttInverseStage, hpair]
  rfl

/-- The bound after one inverse stage. -/
def shrink (B len : Nat) : Nat := max (if len = 2 ∨ len = 16 then 1664 else B + B) (constMulBound (B + B))

/-- An inverse butterfly is the butterfly of Algorithm 10 on the residues. -/
theorem nttInversePair_spec {B len k : Nat} (hB : B + B ≤ 32767) (hk : k < 128) {x y : FieldElement} {x' y' : Zq}
    (hx : Represents B x x') (hy : Represents B y y') :
    Represents (shrink B len) (nttInversePair len k x y).1 (Ntt.inversePair zetas k x' y').1 ∧
      Represents (shrink B len) (nttInversePair len k x y).2 (Ntt.inversePair zetas k x' y').2 := by
  obtain ⟨hx, rfl⟩ := hx
  obtain ⟨hy, rfl⟩ := hy
  obtain ⟨hadd, haddz⟩ := hx.add hy hB
  obtain ⟨hsub, hsubz⟩ := hy.sub hx hB
  obtain ⟨ht, htz⟩ := barrettConstMul_spec hsub (by omega) (zeta_multiplier k hk)
  rw [zetaRaw_eq k hk, mul_comm, hsubz] at htz
  refine ⟨?_, ⟨ht.mono (Nat.le_max_right _ _), htz⟩⟩
  by_cases hred : len = 2 ∨ len = 16
  · obtain ⟨hr, hrz⟩ := reduce_spec (x + y)
    simp only [nttInversePair, shrink, if_pos hred]
    exact ⟨hr.mono (Nat.le_max_left _ _), hrz.trans haddz⟩
  · simp only [nttInversePair, shrink, if_neg hred]
    exact ⟨hadd.mono (Nat.le_max_left _ _), haddz⟩

/-- One inverse stage keeps the relation to Algorithm 10, with the next bound. -/
theorem nttInverseStage_spec {B len m : Nat} {s : Nat × Coefficients} {d : Nat × Vector Zq 256} (hB : B + B ≤ 32767)
    (hlen : 0 < len) (hm : m * (2 * len) = 256) (hk : s.1 < 128) (hd : d.1 = s.1)
    (h : ∀ i < 256, Represents B s.2[i]! d.2[i]!) :
    (nttInverseStage s len).1 = s.1 - m ∧
      (Butterfly.stage (fun k => k - 1) (Ntt.inversePair zetas) len d).1 = s.1 - m ∧
      ∀ i < 256, Represents (shrink B len) (nttInverseStage s len).2[i]!
        (Butterfly.stage (fun k => k - 1) (Ntt.inversePair zetas) len d).2[i]! := by
  obtain ⟨k, cs⟩ := s
  obtain ⟨k', d⟩ := d
  obtain rfl : k' = k := hd
  rw [nttInverseStage_eq _ _ hlen]
  refine ⟨?_, ?_, ?_⟩
  · rw [(Butterfly.stage_spec _ (nttInversePair len) len m _ hlen hm).1, Ntt.iterate_pred_counter]
  · rw [(Butterfly.stage_spec _ (Ntt.inversePair zetas) len m _ hlen hm).1, Ntt.iterate_pred_counter]
  · refine Butterfly.stage_simulates (Represents B) (Represents (shrink B len)) _ _ _ hlen hm
      (fun b hb x y x' y' hx hy => ?_) h
    rw [Ntt.iterate_pred_counter]
    exact nttInversePair_spec hB (by simp only at hk; omega) hx hy

/-- The strides of the first inverse stages. -/
def inverseStrides (t : Nat) : List Nat := (List.range t).map fun t => 2 ^ t * 2

theorem inverseStrides_succ (t : Nat) : inverseStrides (t + 1) = inverseStrides t ++ [2 ^ t * 2] := by
  rw [inverseStrides, List.range_succ, List.map_append]
  rfl

/-- The blocks of an inverse stage fill the array. -/
theorem inverseStrides_fill {t : Nat} (ht : t ≤ 6) : 2 ^ (6 - t) * (2 * (2 ^ t * 2)) = 256 := by
  have hsum : 6 - t + t = 6 := by omega
  calc 2 ^ (6 - t) * (2 * (2 ^ t * 2)) = 2 ^ (6 - t + t) * 4 := by rw [pow_add]; ring
    _ = 256 := by rw [hsum]; rfl

/-- The bound after the first inverse stages. -/
def inverseBound (t : Nat) : Nat := (inverseStrides t).foldl shrink 16383

/-- Twice the bound of every inverse stage is a word: the sums and differences of the next stage fit. -/
theorem inverseBound_words : ∀ t < 7, inverseBound t + inverseBound t ≤ 32767 := by decide

/-- The first inverse stages keep the relation to Algorithm 10. -/
theorem nttInverseStages_spec {cs : Coefficients} (hc : Coefficients.Within 16383 cs) :
    ∀ t ≤ 7,
      ((inverseStrides t).foldl nttInverseStage (127, cs)).1 = 2 ^ (7 - t) - 1 ∧
      ((inverseStrides t).foldl (fun s len => Butterfly.stage (fun k => k - 1) (Ntt.inversePair zetas) len s)
        (127, Vector.ofFn (Coefficients.toZq cs))).1 = 2 ^ (7 - t) - 1 ∧
      ∀ i < 256, Represents (inverseBound t) ((inverseStrides t).foldl nttInverseStage (127, cs)).2[i]!
        ((inverseStrides t).foldl (fun s len => Butterfly.stage (fun k => k - 1) (Ntt.inversePair zetas) len s)
          (127, Vector.ofFn (Coefficients.toZq cs))).2[i]! := by
  intro t
  induction t with
  | zero =>
    intro _
    refine ⟨rfl, rfl, fun i hi => ⟨hc.getElem! i hi, ?_⟩⟩
    rw [inverseStrides, List.range_zero, List.map_nil, List.foldl_nil, List.foldl_nil, getElem!_pos _ i hi,
      getElem!_pos _ i hi, Vector.getElem_ofFn]
    rfl
  | succ t ih =>
    intro ht
    obtain ⟨ih1, ih2, ih3⟩ := ih (by omega)
    have hbound : inverseBound (t + 1) = shrink (inverseBound t) (2 ^ t * 2) := by
      rw [inverseBound, inverseStrides_succ, List.foldl_append]
      rfl
    rw [hbound, inverseStrides_succ, List.foldl_append, List.foldl_append]
    have hlen : 0 < 2 ^ t * 2 := Nat.mul_pos (Nat.two_pow_pos _) (by decide)
    have hpow : 2 ^ (7 - t) ≤ 2 ^ 7 := Nat.pow_le_pow_right (by decide) (by omega)
    have hnum : 6 - t + 1 = 7 - t := by omega
    have hcount : 7 - (t + 1) = 6 - t := by omega
    have hhalf : 2 ^ (7 - t) = 2 ^ (6 - t) * 2 := by rw [← pow_succ, hnum]
    have hpos := Nat.two_pow_pos (6 - t)
    have hnext :=
      nttInverseStage_spec (inverseBound_words t (by omega)) hlen (inverseStrides_fill (by omega)) (by omega)
        (ih2.trans ih1.symm) ih3
    have hcounter : 2 ^ (7 - t) - 1 - 2 ^ (6 - t) = 2 ^ (7 - (t + 1)) - 1 := by
      rw [hcount]
      omega
    rw [ih1, hcounter] at hnext
    exact hnext

/-- The inverse transform is Algorithm 10 on the residues, scaled by `R`. -/
theorem nttInverse_spec {cs : Coefficients} (hc : Coefficients.Within 16383 cs) :
    Coefficients.Within 2195 (Poly.Generic.nttInverse cs) ∧
      Coefficients.toZq (Poly.Generic.nttInverse cs) = fun i => 2 ^ 16 * Fips203.nttInverse (Coefficients.toZq cs) i := by
  obtain ⟨_, _, h⟩ := nttInverseStages_spec hc 7 (Nat.le_refl 7)
  rw [show inverseStrides 7 = nttSeries.reverse by decide, show inverseBound 7 = 24128 by decide] at h
  have hmul : ∀ i : Fin 256, (Poly.Generic.nttInverse cs)[i] =
      (nttSeries.reverse.foldl nttInverseStage (127, cs)).2[i] * nttInverseScale := by
    intro i
    simp only [Poly.Generic.nttInverse, Loops.getElem_fin, Vector.getElem_map]
  have hscaled : ∀ i : Fin 256, Represents 2195 (Poly.Generic.nttInverse cs)[i]
    (2 ^ 16 * Fips203.nttInverse (Coefficients.toZq cs) i) := by
    intro i
    obtain ⟨hw, hz⟩ := h i i.isLt
    rw [getElem!_pos _ i.val i.isLt] at hw hz
    rw [getElem!_pos _ i.val i.isLt] at hz
    obtain ⟨h1, h2⟩ := mul_spec hw nttInverseScale_within (by decide)
    rw [hz, nttInverseScale_eq] at h2
    rw [hmul i, nttInverse_eq_fold, show strides = nttSeries from rfl]
    refine ⟨h1, montgomery_cancel (h2.trans ?_)⟩
    simp only [Loops.getElem_fin]
    ring
  exact ⟨fun i => (hscaled i).1, funext fun i => (hscaled i).2⟩

/-! ## The scalar head of the vector kernels -/

namespace Poly

open Generic

/-- The scalar head runs the portable stage: its strides are not the one that the vector loop reduces. -/
theorem headStage_eq (t : Nat × Coefficients) {len : Nat} (hlen : len ≠ 16) : headStage t len = nttInverseStage t len := by
  have hbody : ∀ z zBar : Int16, headButterfly z zBar len = nttInverseButterfly z zBar len := by
    intro z zBar
    funext cs j
    simp only [headButterfly, nttInverseButterfly, hlen, or_false]
  simp only [headStage, hbody]
  rfl

end Poly

end MlkemSelkie
