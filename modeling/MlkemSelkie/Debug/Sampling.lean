import MlkemSelkie.Debug.Encoding

/-!
# The hashes and the samplers with their assertions

`functions.rs`, `sampling.rs` and `sampling/arch/generic.rs` as a build with debug assertions and overflow checks runs them.
-/

namespace MlkemSelkie

open Runs

variable {P : ParameterSet} (Γ : Crates)

/-- The inputs of a batch, each assembled in a 33-byte buffer. -/
def PrfBatch.debugInputs (n : Nat) (s : Vector UInt8 32) (b : UInt8) : Run (Vector (List UInt8) n) :=
  Vector.ofFnM fun lane => assemble (List.replicate 33 0) s.toList [b + UInt8.ofNat lane.val] 32

namespace Crates

/-- `PRF_x2`. -/
def debugPrfX2 (eta : Eta) (s : Vector UInt8 32) (b : UInt8) : Run (PrfBatch 2) := do
  let state := Γ.shake256X2.absorb (← PrfBatch.debugInputs 2 s b)
  match eta with
  | .two => return .eta2 (Γ.shake256X2.squeeze state 128).1
  | .three => return .eta3 (Γ.shake256X2.squeeze state 192).1

/-- `PRF_x4`. -/
def debugPrfX4 (eta : Eta) (s : Vector UInt8 32) (b : UInt8) : Run (PrfBatch 4) := do
  let state := Γ.shake256X4.absorb (← PrfBatch.debugInputs 4 s b)
  match eta with
  | .two => return .eta2 (Γ.shake256X4.squeeze state 128).1
  | .three => return .eta3 (Γ.shake256X4.squeeze state 192).1

/-- `G`. -/
def debugG (preimage : List UInt8) : Run (Vector UInt8 32 × Vector UInt8 32) := do
  let digest := Γ.sha3_512 preimage
  let (left, right) ← splitAt 32 digest.toList
  return (← copyIntoArray 32 left, ← copyIntoArray 32 right)

/-- `XOF_x4`. -/
def debugXofX4 (rho : Vector UInt8 32) (indices : Vector (UInt8 × UInt8) 4) : Run Γ.shake128X4.Squeezing := do
  let seeds ← Vector.ofFnM fun lane : Fin 4 =>
    assemble (List.replicate 34 0) rho.toList [indices[lane].1, indices[lane].2] 32
  return Γ.shake128X4.absorb seeds

end Crates

/-! ## Rejection sampling -/

namespace Sampling

/-- Appends a candidate. -/
def RejectState.debugPush (s : RejectState) (candidate : Nat) : Run RejectState := do
  let buffer ← writeAt s.buffer s.count (← FieldElement.debugNew (UInt16.ofNat candidate))
  return ⟨buffer, ← usize (s.count + 1)⟩

/-- Appends a candidate that is accepted. -/
def RejectState.debugOffer (s : RejectState) (accepted : Prop) [Decidable accepted] (candidate : Nat) : Run RejectState :=
  if accepted then s.debugPush candidate else .ok s

/-- The body of the loop of `reject`. -/
def Generic.debugRejectChunk (s : RejectState) (chunk : List UInt8) : Run RejectState :=
  if N ≤ s.count then .ok s
  else
    match chunk with
    | [b0, b1, b2] => do
      let d1 := b0.toNat ||| ((b1.toNat &&& 0x0F) <<< 8)
      let d2 := (b1.toNat >>> 4) ||| (b2.toNat <<< 4)
      let s ← s.debugOffer (d1 < Q) d1
      s.debugOffer (d2 < Q ∧ s.count < N) d2
    | _ => .ok s

/-- `reject` of the portable backend. -/
def Generic.debugReject (bytes : List UInt8) (s : RejectState) : Run RejectState := do
  (← chunksExact 3 bytes).foldlM debugRejectChunk s

end Sampling

namespace TqElement

open Sampling

/-- `from_reject_buffer`. -/
def debugFromRejectBuffer (s : RejectState) : Run TqElement := do
  TqElement.debugNew (← Vector.ofFnM fun i : Fin N => readAt s.buffer i.val)

/-- `sample_ntt`. -/
def debugSampleNtt (rho : Vector UInt8 32) (i j : UInt8) : Run TqElement := do
  let (s, _) ← runWhile (fun p => decide (p.1.count < N)) (fun p => do
    let (block, reader) := Γ.shake128.read p.2 168
    return (← Generic.debugReject block.toList p.1, reader)) (emptyReject, Γ.xof rho i j)
  debugFromRejectBuffer s

/-- `reject_into`. -/
def debugRejectInto {size : Nat} (blocks : Vector (Vector UInt8 size) 4) (lanes : Vector RejectState 4) :
    Run (Vector RejectState 4 × Bool) := do
  let lanes ← Vector.ofFnM fun i : Fin 4 => Generic.debugReject blocks[i].toList lanes[i]
  return (lanes, lanes.all fun s => decide (N ≤ s.count))

/-- `sample_ntt_x4`. -/
def debugSampleNttX4 (rho : Vector UInt8 32) (indices : Vector (UInt8 × UInt8) 4) : Run (Vector TqElement 4) := do
  let (blocks, state) := Γ.shake128X4.squeeze (← Γ.debugXofX4 rho indices) (3 * 168)
  let (lanes, done) ← debugRejectInto blocks (Vector.replicate 4 emptyReject)
  let (_, lanes, _) ← runWhile (fun p => !p.2.2) (fun p => do
    let (blocks, state) := Γ.shake128X4.squeeze p.1 168
    return (state, ← debugRejectInto blocks p.2.1)) (state, lanes, done)
  Vector.ofFnM fun i : Fin 4 => debugFromRejectBuffer lanes[i]

end TqElement

/-! ## The centered binomial sampler -/

namespace RqElement

/-- A coefficient: the difference of the fields at `low` and `high` of a word's sums. -/
def debugCoefficient (mask sums low high : Nat) : Run FieldElement := do
  assert (low < 32)
  let a := (sums >>> low) &&& mask
  assert (high < 32)
  let b := (sums >>> high) &&& mask
  return (← FieldElement.debugNew (UInt16.ofNat a)) - (← FieldElement.debugNew (UInt16.ofNat b))

/-- `sample_cbd_eta2`. -/
def debugSampleCbdEta2 (bytes : List UInt8) : Run RqElement := do
  let mask := 0x55555555
  let words ← chunksExact 4 bytes
  let coefficients ← zipChunksMut 8 (fun word out => do
    let t := LittleEndian.ofBytes (← copyIntoArray 4 word).toList
    let sums ← below (2 ^ 32) ((t &&& mask) + ((t >>> 1) &&& mask))
    (List.range out.length).mapM fun j => debugCoefficient 0x3 sums (4 * j) (4 * j + 2))
    words (List.replicate N FieldElement.zero)
  return ⟨Loops.arrayOf N coefficients⟩

/-- `sample_cbd_eta3`. -/
def debugSampleCbdEta3 (bytes : List UInt8) : Run RqElement := do
  let mask := 0x00249249
  let words ← chunksExact 3 bytes
  let coefficients ← zipChunksMut 4 (fun word out =>
    match word with
    | [b0, b1, b2] => do
      let t := LittleEndian.ofBytes [b0, b1, b2, 0]
      let sums ← below (2 ^ 32) ((t &&& mask) + ((t >>> 1) &&& mask))
      let sums ← below (2 ^ 32) (sums + ((t >>> 2) &&& mask))
      (List.range out.length).mapM fun j => debugCoefficient 0x7 sums (6 * j) (6 * j + 3)
    -- `unreachable!`
    | _ => .error .panic)
    words (List.replicate N FieldElement.zero)
  return ⟨Loops.arrayOf N coefficients⟩

/-- `sample_cbd`. -/
def debugSampleCbd (eta : Eta) (bytes : List UInt8) : Run RqElement := do
  assert (bytes.length = 64 * eta.toNat)
  match eta with
  | .two => debugSampleCbdEta2 bytes
  | .three => debugSampleCbdEta3 bytes

end RqElement

/-- `lane`. -/
def PrfLanes.debugLane (index : Nat) : PrfLanes → Run (List UInt8)
  | four batch => readAt batch.lanes index
  | two batch => readAt batch.lanes index
  | one output => do
    assert (index = 0)
    return output.bytes

namespace CbdSampler

/-- `squeeze`. -/
def debugSqueeze (eta : Eta) (seed : Vector UInt8 32) (b remaining : UInt8) : Run PrfLanes := do
  if remaining ≤ 1 then return .one (Γ.prf eta seed b)
  else if remaining = 2 then return .two (← Γ.debugPrfX2 eta seed b)
  else return .four (← Γ.debugPrfX4 eta seed b)

/-- `new`. -/
def debugNew (eta : Eta) (seed : Vector UInt8 32) (first count : UInt8) : Run CbdSampler := do
  let batch ← debugSqueeze Γ eta seed first count
  return { eta, seed, next := first + UInt8.ofNat batch.len, remaining := count, batch, taken := 0 }

/-- Squeezes the next batch where every lane of this one is taken. -/
def debugRefill (s : CbdSampler) : Run CbdSampler :=
  if s.taken = s.batch.len then do
    let batch ← debugSqueeze Γ s.eta s.seed s.next s.remaining
    return { s with batch, next := s.next + UInt8.ofNat batch.len, taken := 0 }
  else .ok s

/-- `sample_element`. -/
def debugSampleElement : StateT CbdSampler Run RqElement := fun s => do
  assert (0 < s.remaining)
  let s ← debugRefill Γ s
  let lane ← s.batch.debugLane s.taken
  let taken ← usize (s.taken + 1)
  -- `saturating_sub(1)`
  let remaining := if s.remaining = 0 then 0 else s.remaining - 1
  return (← RqElement.debugSampleCbd s.eta lane, { s with taken, remaining })

/-- `sample_vector`. -/
def debugSampleVector : StateT CbdSampler Run (RqVector P) := do
  return ⟨← Vector.ofFnM fun _ => debugSampleElement Γ⟩

end CbdSampler

/-! ## The matrix -/

namespace TqMatrix

/-- The column and the row of an entry. -/
def debugIndex (k next lane : Nat) : Run (UInt8 × UInt8) := do
  let n ← usize (next + lane)
  assert (k ≠ 0)
  return (UInt8.ofNat (n % k), UInt8.ofNat (n / k))

/-- Samples the next four entries where the batch is used up. -/
def debugRefill (rho : Vector UInt8 32) (k : Nat) (s : EntryState) : Run EntryState :=
  if s.taken = 4 then do
    let indices ← Vector.ofFnM fun lane : Fin 4 => debugIndex k s.next lane.val
    let batch ← TqElement.debugSampleNttX4 Γ rho indices
    return { next := ← usize (s.next + 4), batch, taken := 0 }
  else .ok s

/-- `next` of the entry iterator, and the fallback behind it. -/
def debugNextEntry (rho : Vector UInt8 32) (k : Nat) : StateT EntryState Run TqElement := fun s => do
  let s ← debugRefill Γ rho k s
  let taken ← usize (s.taken + 1)
  return (← lift .fallback s.batch[s.taken]?, { s with taken })

/-- A row. -/
def debugNextRow (rho : Vector UInt8 32) : StateT EntryState Run (TqVector P) := do
  return ⟨← Vector.ofFnM fun _ => debugNextEntry Γ rho P.K⟩

/-- `expand`. -/
def debugExpand (rho : Vector UInt8 32) : Run (TqMatrix P) := do
  let (rows, _) ← Vector.ofFnM (fun _ : Fin P.K => debugNextRow (P := P) Γ rho)
    { next := 0, batch := Vector.replicate 4 TqElement.zero, taken := 4 }
  return ⟨rows⟩

end TqMatrix

end MlkemSelkie
