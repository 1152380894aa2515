import MlkemSelkie.Lib.Digits
import MlkemSelkie.Lib.LittleEndian
import MlkemSelkie.Lib.Loops

/-!
# Keccak

The permutation Keccak-f[1600] and the sponge over it. A state is the number whose 64-bit digits are its lanes, the lane
`(x, y)` at the digit `x + 5 * y`, so that every step is a computation with one number.
-/

namespace Keccak

open Digits LittleEndian

/-- The lane `i` of a state. -/
def lane (s i : Nat) : Nat := s / 2 ^ (64 * i) % 2 ^ 64

/-- The rotation of a lane. -/
def rotate (x n : Nat) : Nat := (x * 2 ^ n + x / 2 ^ (64 - n)) % 2 ^ 64

/-- The state of the lanes. -/
def ofLanes (lanes : Nat → Nat) : Nat := value 64 lanes 25

/-- The rotation offsets. -/
def offsets : List Nat :=
  [0, 1, 62, 28, 27, 36, 44, 6, 55, 20, 3, 10, 43, 25, 39, 41, 45, 15, 21, 8, 18, 2, 61, 56, 14]

/-- The round constants. -/
def constants : List Nat :=
  [0x0000000000000001, 0x0000000000008082, 0x800000000000808A, 0x8000000080008000, 0x000000000000808B, 0x0000000080000001,
    0x8000000080008081, 0x8000000000008009, 0x000000000000008A, 0x0000000000000088, 0x0000000080008009, 0x000000008000000A,
    0x000000008000808B, 0x800000000000008B, 0x8000000000008089, 0x8000000000008003, 0x8000000000008002, 0x8000000000000080,
    0x000000000000800A, 0x800000008000000A, 0x8000000080008081, 0x8000000000008080, 0x0000000080000001, 0x8000000080008008]

/-- The parity of a column. -/
def parity (s x : Nat) : Nat := lane s x ^^^ lane s (x + 5) ^^^ lane s (x + 10) ^^^ lane s (x + 15) ^^^ lane s (x + 20)

/-- The step that adds the parities of two columns to every lane. -/
def theta (s : Nat) : Nat :=
  ofLanes fun i => lane s i ^^^ (parity s ((i % 5 + 4) % 5) ^^^ rotate (parity s ((i % 5 + 1) % 5)) 1)

/-- The steps that rotate the lanes and move them. -/
def rhoPi (s : Nat) : Nat :=
  ofLanes fun i =>
    let source := (i % 5 + 3 * (i / 5)) % 5 + 5 * (i % 5)
    rotate (lane s source) offsets[source]!

/-- The nonlinear step along the rows. -/
def chi (s : Nat) : Nat :=
  ofLanes fun i =>
    let row := 5 * (i / 5)
    lane s i ^^^ ((lane s (row + (i + 1) % 5) ^^^ (2 ^ 64 - 1)) &&& lane s (row + (i + 2) % 5))

/-- One round. -/
def round (s constant : Nat) : Nat := chi (rhoPi (theta s)) ^^^ constant

/-- Keccak-f[1600]. -/
def permute (s : Nat) : Nat := constants.foldl round s

/-- The padding of a message to whole blocks, the domain suffix first. -/
def pad (rate : Nat) (suffix : UInt8) (message : List UInt8) : List UInt8 :=
  match rate - message.length % rate with
  | 0 => message
  | 1 => message ++ [suffix ||| 0x80]
  | n + 2 => message ++ suffix :: List.replicate n 0 ++ [0x80]

/-- The state after a message is absorbed. -/
def absorb (rate : Nat) (suffix : UInt8) (message : List UInt8) : Nat :=
  (Loops.chunksExact rate (pad rate suffix message)).foldl (fun s block => permute (s ^^^ ofBytes block)) 0

/-- The byte `k` of the output. -/
def squeeze (rate s k : Nat) : UInt8 := UInt8.ofNat (permute^[k / rate] s / 2 ^ (8 * (k % rate)))

end Keccak
