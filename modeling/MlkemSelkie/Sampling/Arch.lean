import MlkemSelkie.Lib.Lanes
import MlkemSelkie.Sampling.Generic

/-!
# What the vector rejection kernels share

`sampling/arch.rs` and the code that both `reject` kernels repeat: the table that packs the accepted lanes, the window
of a group of twelve bytes and the store of eight lanes.
-/

namespace MlkemSelkie.Sampling

open Lanes

/-- A row of `compact_table`: the byte pairs of the set bits of `mask` in ascending order, `padding` behind them. -/
def compactRow (padding : UInt8) (mask : Nat) : Vector UInt8 16 :=
  ((List.range 8).foldl (fun (s : Vector UInt8 16 × Nat) lane =>
    if mask.testBit lane then
      ((s.1.set! (2 * s.2) (UInt8.ofNat (2 * lane))).set! (2 * s.2 + 1) (UInt8.ofNat (2 * lane + 1)), s.2 + 1)
    else s) (Vector.replicate 16 padding, 0)).1

/-- `compact_table`. -/
def compactTable (padding : UInt8) : Vector (Vector UInt8 16) 256 := Vector.ofFn fun mask => compactRow padding mask

/-- `count_ones` of an integer of `w` bits. -/
def countOnes (w mask : Nat) : Nat := ((List.range w).filter mask.testBit).length

/-- The 16 bytes from `start` on, or the twelve bytes of the group zero-padded where the block ends before. -/
def groupWindow (bytes : List UInt8) (start : Nat) : Option (Vector UInt8 16) :=
  if start + 16 ≤ bytes.length then loadSlice 16 ((bytes.drop start).take 16)
  else
    let tail := if start + 12 ≤ bytes.length then (bytes.drop start).take 12 else []
    loadSlice 16 (tail ++ List.replicate (16 - tail.length) 0)

/-- The store of eight lanes at the count, allowed inside the buffer only, and the new count. -/
def append (s : RejectState) (packed : Vector UInt8 16) (ones : Nat) : Option RejectState := do
  let buffer ← storeWithin 264 s.buffer s.count ((asWords 8 packed).map fun x => FieldElement.mk x.toInt16)
  return ⟨buffer, s.count + ones⟩

end MlkemSelkie.Sampling
