import MlkemSelkie.Lemmas.NeonAsm

/-!
# The assembly stages

The two software-pipelined blocks compute the stages of the portable transform that they stand for, in place, and touch every
element of their windows in turn.
-/

namespace MlkemSelkie.Poly.Neon

open A64 NeonLanes Poly.Generic

/-- The coefficients in memory, from a base on. -/
def coefficientsAt (mem : UInt64 → UInt8) (base : UInt64) : Coefficients := Vector.ofFn fun i => ⟨element mem base i⟩

theorem coefficientsAt_getElem! (mem : UInt64 → UInt8) (base : UInt64) (i : Nat) (hi : i < 256) :
    (coefficientsAt mem base)[i]! = ⟨element mem base i⟩ := by
  rw [getElem!_pos _ i hi, coefficientsAt, Vector.getElem_ofFn]

/-- The words of a zeta pair as the blocks take them. -/
def enterZeta (m : Machine Operand) (ptr : UInt64) (k : Nat) : Machine Operand :=
  enter m ptr zetaRaw[k]!.toInt16 zetaBarrett[k]!

/-- The product of the lanes is the product of the loop. -/
theorem productWord_zeta (k : Nat) (x : Int16) : (⟨productWord zetaRaw[k]!.toInt16 zetaBarrett[k]! x⟩ : FieldElement) =
    FieldElement.barrettConstMul ⟨x⟩ zetaRaw[k]!.toInt16 zetaBarrett[k]! := by
  rw [productWord, qrdmulh16_eq x (zetaBarrett_lower k), ← Lanes.mullo_eq x]
  rfl

/-- The target of a window is what a pair of the loop leaves there. -/
theorem target_zeta (mem : UInt64 → UInt8) (base : UInt64) (k len i : Nat) :
    (⟨target mem base zetaRaw[k]!.toInt16 zetaBarrett[k]! len i⟩ : FieldElement) =
      if i < len then (nttPair k ⟨element mem base i⟩ ⟨element mem base (i + len)⟩).1
      else (nttPair k ⟨element mem base (i - len)⟩ ⟨element mem base i⟩).2 := by
  unfold target nttPair
  split
  · rw [← productWord_zeta]
    rfl
  · rw [← productWord_zeta]
    rfl

/-- A window written with its target is a block of the loop, whatever array it lies in. -/
theorem coefficientsAt_written {mem₀ mem : UInt64 → UInt8} (base : UInt64) (start : Nat) {k len : Nat} (hlen : 0 < len)
    (hstart : start + 2 * len ≤ 256) (h : Written (base + UInt64.ofNat (2 * start)) (2 * len)
      (target mem₀ (base + UInt64.ofNat (2 * start)) zetaRaw[k]!.toInt16 zetaBarrett[k]! len) mem₀ (fun _ => True) mem) :
    coefficientsAt mem base = (List.range' start len).foldl (nttButterfly zetaRaw[k]!.toInt16 zetaBarrett[k]! len)
      (coefficientsAt mem₀ base) := by
  have hwindow : ∀ (mem : UInt64 → UInt8) i,
    element mem (base + UInt64.ofNat (2 * start)) i = element mem base (start + i) := by
    intro mem i
    rw [element, offset_add, element]
  rw [nttButterfly_eq k hlen]
  refine Butterfly.ext_getElem! fun i hN => ?_
  have hi : i < 256 := hN
  refine Eq.trans ?_ (Butterfly.block_getElem! (nttPair k) len start (coefficientsAt mem₀ base) hstart i hi).symm
  rw [coefficientsAt_getElem! _ _ _ hi]
  by_cases hin : start ≤ i ∧ i < start + 2 * len
  · obtain ⟨j, rfl⟩ := Nat.exists_eq_add_of_le hin.1
    rw [← hwindow mem, h.done j (by omega) trivial, target_zeta]
    by_cases hj : j < len
    · rw [if_pos hj, if_pos (by omega), coefficientsAt_getElem! _ _ _ hi, coefficientsAt_getElem! _ _ _ (by omega), hwindow,
        hwindow, Nat.add_assoc]
    · have hlower : start + (j - len) = start + j - len := by omega
      rw [if_neg hj, if_neg (by omega), if_pos (by omega), coefficientsAt_getElem! _ _ _ hi,
        coefficientsAt_getElem! _ _ _ (by omega), hwindow, hwindow, hlower]
  · rw [if_neg (by omega), if_neg (by omega), coefficientsAt_getElem! _ _ _ hi,
      h.element_outside (by omega) (by omega) (by omega)]

/-- The first stage is a single block. -/
theorem nttStage_single (k : Nat) (cs : Coefficients) : (nttStage (k, cs) 128).2 =
    (List.range' 0 128).foldl (nttButterfly zetaRaw[k]!.toInt16 zetaBarrett[k]! 128) cs := by
  have hblocks : Loops.stepBy 256 (2 * 128) = [0] := rfl
  simp only [nttStage, hblocks, List.foldl_cons, List.foldl_nil]

/-- `ntt_stride128_asm` leaves the first stage of the portable transform, and `ntt_stride64_group_asm` one group of the
second, for every zeta pair, window and memory; each loads an element of its window before it overwrites it, writes it
once, and touches nothing else. -/
theorem assembly_stages (m : Machine Operand) (base : UInt64) (k : Fin 128) :
    (∃ m', Leaves nttStride128Asm (enterZeta m base k) m' ∧
      coefficientsAt m'.mem base = (nttStage (k, coefficientsAt m.mem base) 128).2 ∧
      (∀ p, 512 ≤ (p - base).toNat → m'.mem p = m.mem p) ∧ OnceEach base 512 m'.log) ∧
    ∀ start : Fin 129, ∃ m', Leaves nttStride64GroupAsm (enterZeta m (base + UInt64.ofNat (2 * start)) k) m' ∧
      coefficientsAt m'.mem base = (List.range' start 64).foldl (nttButterfly zetaRaw[k.val]!.toInt16 zetaBarrett[k.val]! 64)
        (coefficientsAt m.mem base) ∧
      (∀ p, 256 ≤ (p - (base + UInt64.ofNat (2 * start))).toNat → m'.mem p = m.mem p) ∧
      OnceEach (base + UInt64.ofNat (2 * start)) 256 m'.log := by
  refine ⟨?_, fun start => ?_⟩
  · obtain ⟨m', hleaves, hwritten, hlog⟩ := Stride128.leaves m base zetaRaw[k.val]!.toInt16 zetaBarrett[k.val]!
    refine ⟨m', hleaves, ?_, hwritten.outside, ?_⟩
    · have hbase : base + UInt64.ofNat (2 * 0) = base := UInt64.add_zero base
      have hgroup := coefficientsAt_written base 0 (by decide) (by decide) (hbase.symm ▸ hwritten)
      rw [hgroup, nttStage_single]
    · rw [hlog]
      exact InTurn.onceEach (by decide) (by decide) (by decide)
  · obtain ⟨m', hleaves, hwritten, hlog⟩ :=
      Stride64.leaves m (base + UInt64.ofNat (2 * start)) zetaRaw[k.val]!.toInt16 zetaBarrett[k.val]!
    refine ⟨m', hleaves, coefficientsAt_written base start (by decide) (by omega) hwritten, hwritten.outside, ?_⟩
    rw [hlog]
    exact InTurn.onceEach (by decide) (by decide) (by decide)

end MlkemSelkie.Poly.Neon
