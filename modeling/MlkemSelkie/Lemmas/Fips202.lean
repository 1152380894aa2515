import MlkemSelkie.Lemmas.Evaluation
import MlkemSelkie.Lemmas.Kem
import MlkemSelkie.Lib.Keccak

/-!
# The crates with the functions of FIPS 202

SHA-3 and SHAKE behave as the code relies on. The closed instances of the theorems take them, on seeds whose streams are
run here.
-/

namespace MlkemSelkie

open Fips203

/-- SHAKE with the given rate: the absorbed state and the number of bytes already read. -/
def shake (rate : Nat) : Xof where
  Squeezing := Nat × Nat
  finalizeXof message := (Keccak.absorb rate 0x1F message, 0)
  read s n := (Vector.ofFn fun i => Keccak.squeeze rate s.1 (s.2 + i), (s.1, s.2 + n))

/-- Independent lanes of SHAKE. -/
def shakeBatch (rate lanes : Nat) : XofBatch lanes where
  Squeezing := Vector Nat lanes × Nat
  absorb messages := (messages.map (Keccak.absorb rate 0x1F), 0)
  squeeze s n := (s.1.map fun lane => Vector.ofFn fun i => Keccak.squeeze rate lane (s.2 + i), (s.1, s.2 + n))

/-- SHA-3 with the given rate and output length. -/
def sha3 (rate n : Nat) (message : List UInt8) : Vector UInt8 n :=
  Vector.ofFn fun i => Keccak.squeeze rate (Keccak.absorb rate 0x06 message) i

/-- The crates with the functions of FIPS 202. -/
def Crates.fips202 : Crates where
  sha3_256 := sha3 136 32
  sha3_512 := sha3 72 64
  shake128 := shake 168
  shake256 := shake 136
  shake128X4 := shakeBatch 168 4
  shake256X2 := shakeBatch 136 2
  shake256X4 := shakeBatch 136 4
  ctEqU64 x y := decide (x = y)
  conditionalSelect x y c := if c then y else x

/-- Two successive reads are one. -/
theorem ofFn_append (f : Nat → UInt8) (off a b : Nat) :
    (Vector.ofFn fun i : Fin (a + b) => f (off + i)) =
      (Vector.ofFn fun i : Fin a => f (off + i)) ++ (Vector.ofFn fun i : Fin b => f (off + a + i)) := by
  refine Vector.ext fun i hi => ?_
  rw [Vector.getElem_ofFn, Vector.getElem_append]
  split
  · rw [Vector.getElem_ofFn]
  · rw [Vector.getElem_ofFn]
    exact congrArg f (by simp only []; omega)

theorem shakeBatch_follows (rate lanes : Nat) : (shakeBatch rate lanes).Follows (shake rate) where
  lane inputs n l := by
    show (Vector.map _ (Vector.map _ inputs))[l] = _
    rw [Loops.getElem_fin, Vector.getElem_map, Vector.getElem_map]
    rfl
  concat s a b l := by
    show (Vector.map _ s.1)[l] = (Vector.map _ s.1)[l] ++ (Vector.map _ s.1)[l]
    simp only [Loops.getElem_fin, Vector.getElem_map]
    exact ofFn_append _ _ a b

theorem Crates.fips202_lawful : Crates.fips202.Lawful where
  shake128_concat s a b := ofFn_append _ s.2 a b
  shake128X4 := shakeBatch_follows 168 4
  shake256X2 := shakeBatch_follows 136 2
  shake256X4 := shakeBatch_follows 136 4
  ctEqU64 _ _ := decide_eq_true_iff
  conditionalSelect _ _ _ := rfl

/-- The primitives of FIPS 203 over the functions of FIPS 202, each byte of an output read from the sponge by itself. -/
def sponges : Hashes where
  G := Crates.fips202.G
  H := Crates.fips202.H
  J message := Vector.ofFn fun i => Keccak.squeeze 136 (Keccak.absorb 136 0x1F message) i
  PRF eta seed b := (List.range (64 * eta)).map (Keccak.squeeze 136 (Keccak.absorb 136 0x1F (seed.toList ++ [b])))
  XOF input := Keccak.squeeze 168 (Keccak.absorb 168 0x1F input)

/-- The outputs of the crates are the bytes of the sponges. -/
theorem fips202_hashes : Crates.fips202.hashes = sponges := by
  have hread : ∀ rate state n, ((shake rate).read (state, 0) n).1 = Vector.ofFn fun i => Keccak.squeeze rate state i :=
    fun rate state n => congrArg Vector.ofFn (funext fun i => congrArg (Keccak.squeeze rate state) (Nat.zero_add i.val))
  have hJ : Crates.fips202.hashes.J = sponges.J := funext fun message => hread 136 _ 32
  have hPRF : Crates.fips202.hashes.PRF = sponges.PRF := funext fun eta => funext fun seed => funext fun b => by
    refine (congrArg Vector.toList (hread 136 _ (64 * eta))).trans (List.ext_getElem ?_ fun i h1 h2 => ?_)
    · rw [Vector.length_toList, sponges, List.length_map, List.length_range]
    · simp only [Vector.getElem_toList, Vector.getElem_ofFn, sponges, List.getElem_map, List.getElem_range]
  have hXOF : Crates.fips202.hashes.XOF = sponges.XOF := funext fun input => funext fun k => by
    refine (congrArg (fun v : Vector UInt8 (k + 1) => v[k]) (hread 168 _ (k + 1))).trans ?_
    rw [Vector.getElem_ofFn]
    rfl
  rw [Crates.hashes, Hashes.mk.injEq]
  exact ⟨rfl, rfl, hJ, hPRF, hXOF⟩

/-! ## A seed for the closed instances -/

/-- The seed of 32 zero bytes. -/
def zeroSeed : Vector UInt8 32 := Vector.replicate 32 0

/-- The first 336 candidates of the four streams contain 256 accepted ones each. -/
theorem zeroSeed_counts (n : Fin 4) : 256 ≤ Nat.count (Accepted (sponges.XOF
    ((sponges.G (zeroSeed.toList ++ [2])).1.toList ++ [UInt8.ofNat (n.val % 2), UInt8.ofNat (n.val / 2)]))) 336 := by
  revert n
  decide +kernel

/-- The seed of a matrix whose streams suffice. -/
def exampleRho : Vector UInt8 32 := (Crates.fips202.G (zeroSeed.toList ++ [2])).1

/-- All of its streams hold 256 accepted candidates. -/
theorem zeroSeed_suffices : Crates.fips202.Suffices .mlkem512 exampleRho := by
  intro n hn
  rw [entryStream, fips202_hashes]
  exact ⟨336, zeroSeed_counts ⟨n, hn⟩⟩

theorem zeroSeed_reached : Packed.Reached ParameterSet.mlkem512.fips sponges 336
    (sponges.G (zeroSeed.toList ++ [2])).1.toList := by
  intro i j
  have hi : i.val < 2 := i.isLt
  have hj : j.val < 2 := j.isLt
  have hcount := zeroSeed_counts ⟨2 * i + j, by omega⟩
  rwa [show (2 * i.val + j.val) % 2 = j by omega, show (2 * i.val + j.val) / 2 = i by omega] at hcount

/-- The encryption key of the seed. -/
def zeroKey : List UInt8 := Packed.encryptionKey ParameterSet.mlkem512.fips sponges 336 zeroSeed

theorem zeroKey_eq : zeroKey = (kpkeKeyGen ParameterSet.mlkem512.fips Crates.fips202.hashes zeroSeed).1 := by
  rw [fips202_hashes]
  exact Packed.encryptionKey_eq zeroSeed_reached

/-- The randomness of the encapsulation of 32 zero bytes under the key. -/
def zeroCoins : Vector UInt8 32 := (sponges.G (zeroSeed.toList ++ (sponges.H zeroKey).toList)).2

theorem zeroCoins_eq : zeroCoins = (Crates.fips202.G (zeroSeed.toList ++ (Crates.fips202.H zeroKey).toList)).2 := by
  rw [zeroCoins]
  rfl

/-- The noise of that encapsulation, run. -/
theorem zeroSeed_noise : ∀ i < 256,
    (Packed.coeff
      (Packed.decryptionNoise ParameterSet.mlkem512.fips sponges 336 zeroSeed zeroSeed.toList zeroCoins) i + 832) % 3329
        ≤ 1663 := by
  decide +kernel

theorem zeroSeed_fits :
    NoiseFits (decryptionNoise ParameterSet.mlkem512.fips Crates.fips202.hashes zeroSeed zeroSeed.toList zeroCoins) := by
  rw [fips202_hashes]
  exact Packed.noiseFits_of_packed zeroSeed_reached (by decide) (by decide) zeroSeed_noise

end MlkemSelkie
