import MlkemSelkie.Lib.LittleEndian
import MlkemSelkie.Functions
import MlkemSelkie.Vector
import MlkemSelkie.Sampling.Generic

/-!
# Sampling

`sampling.rs`: the rejection sampler of Tq, serial and four lanes at a time, and the centered binomial sampler of Rq with
its batched streams. A rejection loop runs until 256 candidates are accepted, so its result is an `Option`: `none` is the
run that never ends.
-/

namespace MlkemSelkie

open Sampling Loops

variable {P : ParameterSet} (Γ : Crates)

namespace TqElement

/-- Copies the first 256 coefficients of a filled rejection buffer. -/
def fromRejectBuffer (s : RejectState) : TqElement := TqElement.new (Vector.ofFn fun i => s.buffer[i.val]!)

/-- The loop of `sample_ntt`: one SHAKE128 block at a time. -/
def sampleNttLoop : While (RejectState × Γ.shake128.Squeezing) where
  test p := p.1.count < N
  pass p :=
    let (block, reader) := Γ.shake128.read p.2 168
    (Generic.reject block.toList p.1, reader)

/-- `SampleNTT` of the stream `XOF(rho, i, j)`. -/
def sampleNtt (rho : Vector UInt8 32) (i j : UInt8) : Option TqElement :=
  ((sampleNttLoop Γ).run (emptyReject, Γ.xof rho i j)).map fun p => fromRejectBuffer p.1

/-- Rejection-samples one squeezed block per lane; whether every lane has 256 coefficients. -/
def rejectInto {size : Nat} (blocks : Vector (Vector UInt8 size) 4) (lanes : Vector RejectState 4) :
    Vector RejectState 4 × Bool :=
  let lanes := Vector.zipWith (fun block s => Generic.reject block.toList s) blocks lanes
  (lanes, lanes.all fun s => decide (N ≤ s.count))

/-- The loop of `sample_ntt_x4`: one block per lane until every lane is done. -/
def sampleNttX4Loop : While (Γ.shake128X4.Squeezing × Vector RejectState 4 × Bool) where
  test p := !p.2.2
  pass p :=
    let (blocks, state) := Γ.shake128X4.squeeze p.1 168
    (state, rejectInto blocks p.2.1)

/-- Batched `SampleNTT`: three blocks per lane first, then one at a time. -/
def sampleNttX4 (rho : Vector UInt8 32) (indices : Vector (UInt8 × UInt8) 4) : Option (Vector TqElement 4) :=
  let (blocks, state) := Γ.shake128X4.squeeze (Γ.xofX4 rho indices) (3 * 168)
  let (lanes, done) := rejectInto blocks (Vector.replicate 4 emptyReject)
  ((sampleNttX4Loop Γ).run (state, lanes, done)).map fun p => p.2.1.map fromRejectBuffer

end TqElement

namespace RqElement

/-- `SamplePolyCBD_2`: every 4-byte word yields eight coefficients. -/
def sampleCbdEta2 (bytes : List UInt8) : RqElement :=
  let mask := 0x55555555
  ⟨Vector.ofFn fun i =>
    match (chunksExact 4 bytes)[i.val / 8]? with
    | none => FieldElement.zero
    | some word =>
      let t := LittleEndian.ofBytes word
      let sums := (t &&& mask) + ((t >>> 1) &&& mask)
      let j := i.val % 8
      let a := (sums >>> (4 * j)) &&& 0x3
      let b := (sums >>> (4 * j + 2)) &&& 0x3
      FieldElement.new (UInt16.ofNat a) - FieldElement.new (UInt16.ofNat b)⟩

/-- `SamplePolyCBD_3`: every 3-byte word yields four coefficients. -/
def sampleCbdEta3 (bytes : List UInt8) : RqElement :=
  let mask := 0x00249249
  ⟨Vector.ofFn fun i =>
    match (chunksExact 3 bytes)[i.val / 4]? with
    | none => FieldElement.zero
    | some word =>
      let t := LittleEndian.ofBytes word
      let sums := (t &&& mask) + ((t >>> 1) &&& mask) + ((t >>> 2) &&& mask)
      let j := i.val % 4
      let a := (sums >>> (6 * j)) &&& 0x7
      let b := (sums >>> (6 * j + 3)) &&& 0x7
      FieldElement.new (UInt16.ofNat a) - FieldElement.new (UInt16.ofNat b)⟩

/-- `SamplePolyCBD_eta`. -/
def sampleCbd (eta : Eta) (bytes : List UInt8) : RqElement :=
  match eta with
  | .two => sampleCbdEta2 bytes
  | .three => sampleCbdEta3 bytes

end RqElement

/-- One refill's lanes, at whichever width the tail allowed. -/
inductive PrfLanes where
  | four (batch : PrfBatch 4)
  | two (batch : PrfBatch 2)
  | one (output : PrfOutput)

/-- The number of lanes the refill squeezed. -/
def PrfLanes.len : PrfLanes → Nat
  | four _ => 4
  | two _ => 2
  | one _ => 1

/-- The bytes of lane `index`. -/
def PrfLanes.lane (index : Nat) : PrfLanes → List UInt8
  | four batch => batch.lanes[index]!
  | two batch => batch.lanes[index]!
  | one output => output.bytes

/-- The batched noise sampler: yields the elements of consecutive `PRF` streams. -/
structure CbdSampler where
  eta : Eta
  seed : Vector UInt8 32
  next : UInt8
  remaining : UInt8
  batch : PrfLanes
  taken : Nat

namespace CbdSampler

/-- Squeezes the widest batch the remaining streams can fill; three streams take the four-way batch. -/
def squeeze (eta : Eta) (seed : Vector UInt8 32) (b remaining : UInt8) : PrfLanes :=
  if remaining ≤ 1 then .one (Γ.prf eta seed b)
  else if remaining = 2 then .two (Γ.prfX2 eta seed b)
  else .four (Γ.prfX4 eta seed b)

/-- Starts the run of `count` streams by squeezing its first batch. -/
def new (eta : Eta) (seed : Vector UInt8 32) (first count : UInt8) : CbdSampler :=
  let batch := squeeze Γ eta seed first count
  { eta, seed, next := first + UInt8.ofNat batch.len, remaining := count, batch, taken := 0 }

/-- Samples the next stream's element. -/
def sampleElement : StateM CbdSampler RqElement := fun s =>
  let s :=
    if s.taken = s.batch.len then
      let batch := squeeze Γ s.eta s.seed s.next s.remaining
      { s with batch, next := s.next + UInt8.ofNat batch.len, taken := 0 }
    else s
  let lane := s.batch.lane s.taken
  -- `saturating_sub(1)`
  let remaining := if s.remaining = 0 then 0 else s.remaining - 1
  (RqElement.sampleCbd s.eta lane, { s with taken := s.taken + 1, remaining })

/-- Samples the next `K` streams as a vector. -/
def sampleVector : StateM CbdSampler (RqVector P) := do
  return ⟨← Vector.ofFnM fun _ => sampleElement Γ⟩

end CbdSampler

/-- The captured variables of the entry iterator of `TqMatrix::expand`. -/
structure EntryState where
  next : Nat
  batch : Vector TqElement 4
  taken : Nat

namespace TqMatrix

/-- `next` of the entry iterator: the entries in row-major order, sampled four at a time. -/
def nextEntry (rho : Vector UInt8 32) (k : Nat) : StateT EntryState Option (Option TqElement) := do
  let s ← get
  let s ←
    if s.taken = 4 then do
      let indices : Vector (UInt8 × UInt8) 4 := Vector.ofFn fun lane =>
        let n := s.next + lane.val
        (UInt8.ofNat (n % k), UInt8.ofNat (n / k))
      let batch ← TqElement.sampleNttX4 Γ rho indices
      pure { next := s.next + 4, batch, taken := 0 : EntryState }
    else pure s
  set { s with taken := s.taken + 1 }
  return s.batch[s.taken]?

/-- Regenerates the matrix from the seed: `a_hat[i][j] = SampleNTT(rho, j, i)`. -/
def expand (rho : Vector UInt8 32) : Option (TqMatrix P) :=
  let row : StateT EntryState Option (TqVector P) := do
    return ⟨← Vector.ofFnM fun _ => do return (← nextEntry Γ rho P.K).getD TqElement.zero⟩
  let matrix : StateT EntryState Option (TqMatrix P) := do
    return ⟨← Vector.ofFnM fun _ => row⟩
  matrix.run' { next := 0, batch := Vector.replicate 4 TqElement.zero, taken := 4 }

end TqMatrix

end MlkemSelkie
