import MlkemSelkie.Lib.Neon
import MlkemSelkie.Sampling.Arch

/-!
# The NEON rejection kernel

`sampling/arch/neon.rs`: eight candidates of twelve bytes at a time, aligned by a shift of every lane. The weights of
the accepted lanes add up to the row of the table that packs them to the front.
-/

namespace MlkemSelkie.Sampling.Neon

open Lanes NeonLanes

/-- `GATHER`: the byte pair of every candidate of a group. -/
def gather : Vector UInt8 16 := (#[0, 1, 1, 2, 3, 4, 4, 5, 6, 7, 7, 8, 9, 10, 10, 11] : Array UInt8).toVector

/-- `SHIFTS`. -/
def shifts : Vector Int16 8 := (#[0, -4, 0, -4, 0, -4, 0, -4] : Array Int16).toVector

/-- `BIT_WEIGHTS`. -/
def bitWeights : Vector UInt8 8 := #v[1, 2, 4, 8, 16, 32, 64, 128]

/-- `COMPACT`. -/
def compact : Vector (Vector UInt8 16) 256 := compactTable 0xFF

/-- The eight candidates of a group. -/
def candidates (data : Vector UInt8 16) : Vector UInt16 8 :=
  let low12 := vdupNU (0x0FFF : UInt16)
  let pairs := asWords 8 (vqtbl1qU8 data gather)
  vandU (vshlU16 pairs shifts) low12

/-- The bits of the accepted lanes. -/
def acceptance (candidates : Vector UInt16 8) : UInt8 :=
  let q := vdupNU (UInt16.ofNat Q)
  let accepted := vcltU16 candidates q
  vaddvU8 (vandU (vmovnU16 accepted) bitWeights)

/-- The body of the loop of `reject`: once 256 coefficients are collected the loop has been left. -/
def rejectGroup (bytes : List UInt8) (s : RejectState) (group : Nat) : Option RejectState :=
  if N ≤ s.count then some s
  else do
    let data ← groupWindow bytes (12 * group)
    let candidates := candidates data
    let mask := acceptance candidates
    let control ← compact[mask.toNat]?
    append s (vqtbl1qU8 (asBytes 16 candidates) control) (countOnes 8 mask.toNat)

/-- `reject`: the groups of a block, the count clamped behind them. -/
def reject (bytes : List UInt8) (s : RejectState) : Option RejectState := do
  let s ← (List.range (bytes.length / 12)).foldlM (rejectGroup bytes) s
  return { s with count := min s.count N }

end MlkemSelkie.Sampling.Neon
