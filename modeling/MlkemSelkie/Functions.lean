import MlkemSelkie.Parameters

/-!
# The symmetric primitives

`functions.rs`. The sponges, the hashes and the two constant-time primitives come from the crates `sha3_selkie` and
`subtle`, which are not part of the repository: `Crates` is what the code calls of them, and `Crates.Lawful` what their
documentation promises of these calls. Nothing else is assumed of a hash function.
-/

namespace MlkemSelkie

/-- A scalar extendable-output function: the hasher after it absorbed the concatenation of its updates and was finalized,
and the next `n` bytes of its output. -/
structure Xof where
  Squeezing : Type
  finalizeXof : List UInt8 → Squeezing
  read : Squeezing → (n : Nat) → Vector UInt8 n × Squeezing

/-- A batched extendable-output function: independent lanes in lockstep, one input each, every squeeze yielding the next
`n` bytes of each lane. -/
structure XofBatch (lanes : Nat) where
  Squeezing : Type
  absorb : Vector (List UInt8) lanes → Squeezing
  squeeze : Squeezing → (n : Nat) → Vector (Vector UInt8 n) lanes × Squeezing

/-- What the code calls of the third-party crates. `subtle`'s `Choice` is a `Bool`. -/
structure Crates where
  sha3_256 : List UInt8 → Vector UInt8 32
  sha3_512 : List UInt8 → Vector UInt8 64
  shake128 : Xof
  shake256 : Xof
  shake128X4 : XofBatch 4
  shake256X2 : XofBatch 2
  shake256X4 : XofBatch 4
  ctEqU64 : UInt64 → UInt64 → Bool
  conditionalSelect : UInt8 → UInt8 → Bool → UInt8

/-- A batched function follows a scalar one: a squeeze of an absorbed batch yields in each lane what the scalar function
yields on the lane's input, and successive squeezes concatenate. -/
structure XofBatch.Follows {lanes : Nat} (B : XofBatch lanes) (X : Xof) : Prop where
  lane : ∀ (inputs : Vector (List UInt8) lanes) (n : Nat) (l : Fin lanes),
    (B.squeeze (B.absorb inputs) n).1[l] = (X.read (X.finalizeXof inputs[l]) n).1
  concat : ∀ (s : B.Squeezing) (a b : Nat) (l : Fin lanes),
    (B.squeeze s (a + b)).1[l] = (B.squeeze s a).1[l] ++ (B.squeeze (B.squeeze s a).2 b).1[l]

/-- The documented behaviour the code relies on. -/
structure Crates.Lawful (Γ : Crates) : Prop where
  shake128_concat : ∀ (s : Γ.shake128.Squeezing) (a b : Nat),
    (Γ.shake128.read s (a + b)).1 = (Γ.shake128.read s a).1 ++ (Γ.shake128.read (Γ.shake128.read s a).2 b).1
  shake128X4 : Γ.shake128X4.Follows Γ.shake128
  shake256X2 : Γ.shake256X2.Follows Γ.shake256
  shake256X4 : Γ.shake256X4.Follows Γ.shake256
  ctEqU64 : ∀ x y : UInt64, Γ.ctEqU64 x y = true ↔ x = y
  conditionalSelect : ∀ (x y : UInt8) (c : Bool), Γ.conditionalSelect x y c = if c then y else x

/-- The output of `PRF`: exactly `64 * eta` bytes. -/
inductive PrfOutput where
  | eta2 (bytes : Vector UInt8 128)
  | eta3 (bytes : Vector UInt8 192)

/-- `Deref` to a slice. -/
def PrfOutput.bytes : PrfOutput → List UInt8
  | eta2 bytes => bytes.toList
  | eta3 bytes => bytes.toList

/-- The output of a batched `PRF`: `n` lanes of exactly `64 * eta` bytes. -/
inductive PrfBatch (n : Nat) where
  | eta2 (lanes : Vector (Vector UInt8 128) n)
  | eta3 (lanes : Vector (Vector UInt8 192) n)

/-- The SHAKE256 inputs of a batch: `s ‖ (b + i)` for lane `i`. -/
def PrfBatch.inputs (n : Nat) (s : Vector UInt8 32) (b : UInt8) : Vector (List UInt8) n :=
  Vector.ofFn fun lane => s.toList ++ [b + UInt8.ofNat lane.val]

/-- Each lane's bytes, in lane order. -/
def PrfBatch.lanes {n : Nat} : PrfBatch n → Vector (List UInt8) n
  | eta2 lanes => lanes.map (·.toList)
  | eta3 lanes => lanes.map (·.toList)

namespace Crates

variable (Γ : Crates)

/-- `PRF`: SHAKE256 of `s ‖ b`. -/
def prf (eta : Eta) (s : Vector UInt8 32) (b : UInt8) : PrfOutput :=
  let reader := Γ.shake256.finalizeXof (s.toList ++ [b])
  match eta with
  | .two => .eta2 (Γ.shake256.read reader 128).1
  | .three => .eta3 (Γ.shake256.read reader 192).1

/-- `PRF_x2`: two `PRF` streams. -/
def prfX2 (eta : Eta) (s : Vector UInt8 32) (b : UInt8) : PrfBatch 2 :=
  let state := Γ.shake256X2.absorb (PrfBatch.inputs 2 s b)
  match eta with
  | .two => .eta2 (Γ.shake256X2.squeeze state 128).1
  | .three => .eta3 (Γ.shake256X2.squeeze state 192).1

/-- `PRF_x4`: four `PRF` streams. -/
def prfX4 (eta : Eta) (s : Vector UInt8 32) (b : UInt8) : PrfBatch 4 :=
  let state := Γ.shake256X4.absorb (PrfBatch.inputs 4 s b)
  match eta with
  | .two => .eta2 (Γ.shake256X4.squeeze state 128).1
  | .three => .eta3 (Γ.shake256X4.squeeze state 192).1

/-- `H`: SHA3-256. -/
def H (preimage : List UInt8) : Vector UInt8 32 := Γ.sha3_256 preimage

/-- `J`: 32 bytes of SHAKE256 of `z ‖ c`. -/
def J (z : Vector UInt8 32) (c : List UInt8) : Vector UInt8 32 :=
  (Γ.shake256.read (Γ.shake256.finalizeXof (z.toList ++ c)) 32).1

/-- `G`: SHA3-512, split in two halves. -/
def G (preimage : List UInt8) : Vector UInt8 32 × Vector UInt8 32 :=
  let digest := Γ.sha3_512 preimage
  (Vector.ofFn fun i => digest[i.castAdd 32], Vector.ofFn fun i => digest[i.natAdd 32])

/-- `XOF`: SHAKE128 of `rho ‖ i ‖ j`, squeezing. -/
def xof (rho : Vector UInt8 32) (i j : UInt8) : Γ.shake128.Squeezing :=
  Γ.shake128.finalizeXof (rho.toList ++ [i, j])

/-- `XOF_x4`: four `XOF` streams over one `rho`. -/
def xofX4 (rho : Vector UInt8 32) (indices : Vector (UInt8 × UInt8) 4) : Γ.shake128X4.Squeezing :=
  Γ.shake128X4.absorb (indices.map fun p => rho.toList ++ [p.1, p.2])

end Crates

end MlkemSelkie
