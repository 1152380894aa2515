import MlkemSelkie.Backend
import MlkemSelkie.Theorems.Assembly

/-!
# The forward transform on Apple targets

There the first two stages of `neon::ntt` are three assembly blocks on the memory of the array; the rest is the code
that both kinds of targets share. The registers on entry of a block are whatever the surrounding code left in them.
-/

namespace MlkemSelkie.Poly.Neon

open A64 Poly.Generic

/-- The coefficients laid out in memory, from a base on. -/
def storeCoefficients (mem : UInt64 → UInt8) (base : UInt64) (coefficients : Coefficients) : UInt64 → UInt8 :=
  layout mem base N fun i => coefficients[i]!.rep

/-- A block run on a memory: `registers` are the other contents of the machine, `k` is the index of the zeta pair. -/
def stageAsm (program : List (Instr Operand)) (registers : Machine Operand) (mem : UInt64 → UInt8) (ptr : UInt64) (k : Nat) :
    Option (UInt64 → UInt8) :=
  (exec program (enterZeta { registers with mem } ptr k)).map (·.mem)

/-- `ntt` under `mlkem_selkie_neon_asm`, on the array at `ptr`. -/
def nttAsm (registers : Fin 3 → Machine Operand) (mem : UInt64 → UInt8) (ptr : UInt64) : Option (UInt64 → UInt8) := do
  let mem ← stageAsm nttStride128Asm (registers 0) mem ptr 1
  let mem ← stageAsm nttStride64GroupAsm (registers 1) mem ptr 2
  let mem ← stageAsm nttStride64GroupAsm (registers 2) mem (ptr + 256) 3
  return storeCoefficients mem ptr (nttTail (coefficientsAt mem ptr))

section

variable {mem : UInt64 → UInt8} {base : UInt64} (coefficients : Coefficients)

@[simp] theorem coefficientsAt_store : coefficientsAt (storeCoefficients mem base coefficients) base = coefficients := by
  refine Vector.ext fun i hi => ?_
  rw [coefficientsAt, Vector.getElem_ofFn, storeCoefficients, element_layout _ _ _ hi (by decide),
    getElem!_pos coefficients i hi]

theorem storeCoefficients_outside {p : UInt64} (hp : 512 ≤ (p - base).toNat) :
    storeCoefficients mem base coefficients p = mem p :=
  layout_outside _ hp

end

variable (registers : Machine Operand) (mem : UInt64 → UInt8) (base : UInt64)

/-- The first block leaves the first stage. -/
theorem stage128 : ∃ mem', stageAsm nttStride128Asm registers mem base 1 = some mem' ∧
    coefficientsAt mem' base = (nttStage (1, coefficientsAt mem base) 128).2 ∧
    ∀ p, 512 ≤ (p - base).toNat → mem' p = mem p := by
  obtain ⟨m', hleaves, hwritten, _⟩ :=
    Stride128.leaves { registers with mem } base zetaRaw[1]!.toInt16 zetaBarrett[1]!
  have hbase : base + UInt64.ofNat (2 * 0) = base := UInt64.add_zero base
  refine ⟨m'.mem, ?_, ?_, hwritten.outside⟩
  · rw [stageAsm, enterZeta, hleaves.exec, Option.map_some]
  · rw [coefficientsAt_written base 0 (by decide) (by decide) (hbase.symm ▸ hwritten), nttStage_single]

/-- A second block leaves the group of the second stage from `start` on. -/
theorem stage64 {start : Nat} (k : Nat) (hstart : start ≤ 128) : ∃ mem',
    stageAsm nttStride64GroupAsm registers mem (base + UInt64.ofNat (2 * start)) k = some mem' ∧
    coefficientsAt mem' base = (List.range' start 64).foldl (nttButterfly zetaRaw[k]!.toInt16 zetaBarrett[k]! 64)
      (coefficientsAt mem base) ∧
    ∀ p, 512 ≤ (p - base).toNat → mem' p = mem p := by
  obtain ⟨m', hleaves, hwritten, _⟩ :=
    Stride64.leaves { registers with mem } (base + UInt64.ofNat (2 * start)) zetaRaw[k]!.toInt16 zetaBarrett[k]!
  refine ⟨m'.mem, ?_, coefficientsAt_written base start (by decide) (by omega) hwritten, fun p hp => hwritten.outside p ?_⟩
  · rw [stageAsm, enterZeta, hleaves.exec, Option.map_some]
  · have hp' := p.toNat_lt
    have hbase := base.toNat_lt
    have hoffset : 2 * start % 2 ^ 64 = 2 * start := Nat.mod_eq_of_lt (by omega)
    rw [UInt64.toNat_sub, UInt64.toNat_add, UInt64.toNat_ofNat', hoffset]
    rw [UInt64.toNat_sub] at hp
    omega

/-- The second stage is two groups. -/
theorem nttStage_pair (cs : Coefficients) : nttStage (2, cs) 64 = (4,
    (List.range' 128 64).foldl (nttButterfly zetaRaw[3]!.toInt16 zetaBarrett[3]! 64)
      ((List.range' 0 64).foldl (nttButterfly zetaRaw[2]!.toInt16 zetaBarrett[2]! 64) cs)) := by
  have hblocks : Loops.stepBy 256 (2 * 64) = [0, 128] := rfl
  simp only [nttStage, hblocks, List.foldl_cons, List.foldl_nil]

/-- The shared part is the rest of the portable transform. -/
theorem nttTail_stages (cs : Coefficients) : nttTail (nttStage (nttStage (1, cs) 128) 64).2 = Poly.Generic.ntt cs := by
  rw [← headTrips_eq]
  exact ntt_eq cs

/-- Whatever the registers and the memory, the transform of the Apple targets ends, leaves the portable transform in the
array and everything else in the memory as it was. -/
theorem nttAsm_transforms (registers : Fin 3 → Machine Operand) (mem : UInt64 → UInt8) (ptr : UInt64) :
    ∃ mem', nttAsm registers mem ptr = some mem' ∧
      coefficientsAt mem' ptr = Poly.Generic.ntt (coefficientsAt mem ptr) ∧
      ∀ p, 512 ≤ (p - ptr).toNat → mem' p = mem p := by
  obtain ⟨mem₁, hfirst, hstage₁, hout₁⟩ := stage128 (registers 0) mem ptr
  obtain ⟨mem₂, hsecond, hstage₂, hout₂⟩ := stage64 (registers 1) mem₁ ptr 2 (Nat.zero_le 128)
  obtain ⟨mem₃, hthird, hstage₃, hout₃⟩ := stage64 (registers 2) mem₂ ptr 3 (Nat.le_refl 128)
  have hbase : ptr + UInt64.ofNat (2 * 0) = ptr := UInt64.add_zero ptr
  rw [hbase] at hsecond
  have hstages : coefficientsAt mem₃ ptr = (nttStage (nttStage (1, coefficientsAt mem ptr) 128) 64).2 := by
    have hblocks : 1 * (2 * 128) = 256 := rfl
    have hcounter : (nttStage (1, coefficientsAt mem ptr) 128).1 = 2 := nttStage_counter _ (by decide) hblocks
    rw [show nttStage (1, coefficientsAt mem ptr) 128 = (2, coefficientsAt mem₁ ptr) from Prod.ext hcounter hstage₁.symm,
      nttStage_pair, hstage₃, hstage₂]
  refine ⟨storeCoefficients mem₃ ptr (nttTail (coefficientsAt mem₃ ptr)), ?_, ?_, fun p hp => ?_⟩
  · rw [nttAsm, hfirst, SignedWords.some_bind, hsecond, SignedWords.some_bind]
    exact congrArg (Option.bind · _) hthird
  · rw [coefficientsAt_store, hstages, nttTail_stages]
  · rw [storeCoefficients_outside _ hp, hout₃ p hp, hout₂ p hp, hout₁ p hp]

end MlkemSelkie.Poly.Neon
