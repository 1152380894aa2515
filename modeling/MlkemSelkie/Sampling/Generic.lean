import MlkemSelkie.Lib.Loops
import MlkemSelkie.Field

/-!
# The portable rejection kernel

`sampling/arch/generic.rs` and the buffer of `sampling/arch.rs`.
-/

namespace MlkemSelkie.Sampling

/-- A rejection buffer with its count: 256 coefficients and eight elements of slack, the first `count` of them written. -/
structure RejectState where
  buffer : Vector FieldElement 264
  count : Nat

/-- `EMPTY_REJECT_BUFFER`, with nothing written. -/
def emptyReject : RejectState := ⟨Vector.replicate 264 FieldElement.zero, 0⟩

/-- Appends a candidate. -/
def RejectState.push (s : RejectState) (candidate : Nat) : RejectState :=
  ⟨s.buffer.set! s.count (FieldElement.new (UInt16.ofNat candidate)), s.count + 1⟩

namespace Generic

/-- The body of the loop of `reject`: once 256 coefficients are collected the loop has been left. -/
def rejectChunk (s : RejectState) (chunk : List UInt8) : RejectState :=
  if N ≤ s.count then s
  else
    match chunk with
    | [b0, b1, b2] =>
      let d1 := b0.toNat ||| ((b1.toNat &&& 0x0F) <<< 8)
      let d2 := (b1.toNat >>> 4) ||| (b2.toNat <<< 4)
      let s := if d1 < Q then s.push d1 else s
      if d2 < Q ∧ s.count < N then s.push d2 else s
    | _ => s

/-- Appends the accepted 12-bit candidates of `bytes` until 256 are collected. -/
def reject (bytes : List UInt8) (s : RejectState) : RejectState :=
  (Loops.chunksExact 3 bytes).foldl rejectChunk s

end Generic

end MlkemSelkie.Sampling
