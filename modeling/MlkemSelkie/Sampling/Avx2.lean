import MlkemSelkie.Lib.X86
import MlkemSelkie.Sampling.Arch

/-!
# The AVX2 rejection kernel

`sampling/arch/avx2.rs`: eight candidates of twelve bytes at a time. A comparison gives one bit a lane, and a table of
shuffles packs the accepted lanes to the front.
-/

namespace MlkemSelkie.Sampling.Avx2

open Lanes X86

/-- `GATHER`: the byte pair of every candidate of a group. -/
def gather : Vector UInt8 16 := (#[0, 1, 1, 2, 3, 4, 4, 5, 6, 7, 7, 8, 9, 10, 10, 11] : Array UInt8).toVector

/-- `COMPACT`. -/
def compact : Vector (Vector UInt8 16) 256 := compactTable 0x80

/-- The eight candidates of a group: even lanes keep their low twelve bits, odd lanes discard the shared half byte. -/
def candidates (data : Vector UInt8 16) : Vector UInt16 8 :=
  let low12 := Vector.replicate 8 (0x0FFF : UInt16)
  let pairs := asWords 8 (shuffleEpi8 data gather)
  blendEpi16 0b10101010 (andSi256 pairs low12) (srliEpi16 4 pairs)

/-- The bits of the accepted lanes. -/
def acceptance (candidates : Vector UInt16 8) : Nat :=
  let q := set1Epi16 (Int16.ofNat Q)
  let accepted := cmpltEpi16 (candidates.map UInt16.toInt16) q
  movemaskEpi8 (packsEpi16 accepted (set1Epi16 0)) &&& 0xFF

/-- The body of the loop of `reject`: once 256 coefficients are collected the loop has been left. -/
def rejectGroup (bytes : List UInt8) (s : RejectState) (group : Nat) : Option RejectState :=
  if N ≤ s.count then some s
  else do
    let data ← groupWindow bytes (12 * group)
    let candidates := candidates data
    let mask := acceptance candidates
    let control ← compact[mask]?
    append s (shuffleEpi8 (asBytes 16 candidates) control) (countOnes 32 mask)

/-- `reject`: the groups of a block, the count clamped behind them. -/
def reject (bytes : List UInt8) (s : RejectState) : Option RejectState := do
  let s ← (List.range (bytes.length / 12)).foldlM (rejectGroup bytes) s
  return { s with count := min s.count N }

end MlkemSelkie.Sampling.Avx2
