import MlkemSelkie.Fips.Kem
import MlkemSelkie.Lib.LittleEndian
import MlkemSelkie.Lib.Digits

/-!
# FIPS 203 on numbers

The algorithms of K-PKE in a form that runs inside a proof. A polynomial is one number, whose 12-bit digits are its
coefficients, and a product with `-1` is a product with 3328, so that every step is a computation with natural numbers.
`Lemmas/Evaluation.lean` proves that the steps are those of the algorithms; the closed instances of the theorems run them.
-/

namespace Fips203.Packed

open Digits LittleEndian

/-- The coefficient `i`. -/
def coeff (x i : Nat) : Nat := x / 2 ^ (12 * i) % 2 ^ 12

/-- The polynomial with the coefficients of a sequence, reduced modulo q. -/
def pack (f : Nat → Nat) : Nat := value 12 (fun i => f i % 3329) 256

/-- The polynomial with the coefficients of a list, which are reduced. -/
def packList : List Nat → Nat
  | [] => 0
  | c :: cs => c + 2 ^ 12 * packList cs

/-- The first bytes of a number. -/
def toBytes (n x : Nat) : List UInt8 := (List.range n).map fun j => UInt8.ofNat (x / 2 ^ (8 * j))

/-! ## The rings -/

def add (x y : Nat) : Nat := pack fun i => coeff x i + coeff y i

def sub (x y : Nat) : Nat := pack fun i => coeff x i + 3328 * coeff y i

def sum (l : List Nat) : Nat := pack fun i => (l.map fun x => coeff x i).sum

/-- The constants of the stages of Algorithms 9 and 10. -/
def zetas : Nat := pack fun k => 17 ^ bitRev7 k

/-- The constants of Algorithm 12. -/
def gammas : Nat := pack fun k => 17 ^ (2 * bitRev7 k + 1)

/-- The stage `s` of Algorithm 9. -/
def forward (s x : Nat) : Nat :=
  let len := 2 ^ (6 - s) * 2
  pack fun i =>
    let z := coeff zetas (2 ^ s + i / (2 * len))
    if i % (2 * len) < len then coeff x i + z * coeff x (i + len)
    else coeff x (i - len) + 3328 * (z * coeff x i)

/-- The first `s` stages of Algorithm 9. -/
def transform : Nat → Nat → Nat
  | 0, x => x
  | s + 1, x => forward s (transform s x)

/-- The stage `t` of Algorithm 10. -/
def inverse (t x : Nat) : Nat :=
  let len := 2 ^ t * 2
  pack fun i =>
    let z := coeff zetas (2 ^ (7 - t) - 1 - i / (2 * len))
    if i % (2 * len) < len then coeff x i + coeff x (i + len)
    else z * (coeff x i + 3328 * coeff x (i - len))

/-- The first `t` stages of Algorithm 10. -/
def inverseTransform : Nat → Nat → Nat
  | 0, x => x
  | t + 1, x => inverse t (inverseTransform t x)

/-- Algorithm 9. -/
def ntt (x : Nat) : Nat := transform 7 x

/-- Algorithm 10. -/
def nttInverse (x : Nat) : Nat := pack fun i => coeff (inverseTransform 7 x) i * 3303

/-- Algorithms 11 and 12. -/
def multiplyNtts (x y : Nat) : Nat := pack fun k =>
  let i := k / 2
  if k % 2 = 0 then coeff x (2 * i) * coeff y (2 * i) + coeff x (2 * i + 1) * coeff y (2 * i + 1) * coeff gammas i
  else coeff x (2 * i) * coeff y (2 * i + 1) + coeff x (2 * i + 1) * coeff y (2 * i)

/-! ## Sampling and compression -/

/-- The first accepted positions of a stream. -/
def accepted (stream : Nat → UInt8) (limit : Nat) : List Nat := (List.range limit).filter fun t => decide (Accepted stream t)

/-- Algorithm 7 on the first `limit` candidates. -/
def sampleNtt (limit : Nat) (stream : Nat → UInt8) : Nat :=
  packList (((accepted stream limit).take 256).map (candidate stream))

/-- Algorithm 8. -/
def samplePolyCbd (eta : Nat) (bytes : List UInt8) : Nat :=
  let b := ofBytes bytes
  pack fun i =>
    ((List.range eta).map fun j => (b.testBit (2 * i * eta + j)).toNat).sum +
      3328 * ((List.range eta).map fun j => (b.testBit (2 * i * eta + eta + j)).toNat).sum

/-- What compression to `d` bits adds. -/
def compressionError (d x : Nat) : Nat := pack fun i =>
  (3329 * ((coeff x i * 2 ^ d + 1664) / 3329 % 2 ^ d) + 2 ^ (d - 1)) / 2 ^ d + 3328 * coeff x i

/-- The polynomial of a message. -/
def ofMessage (m : List UInt8) : Nat :=
  let b := ofBytes m
  pack fun i => 1665 * (b.testBit i).toNat

/-! ## K-PKE -/

variable (p : Params) (h : Hashes) (limit : Nat)

def matrix (rho : List UInt8) (i j : Nat) : Nat := sampleNtt limit (h.XOF (rho ++ [UInt8.ofNat j, UInt8.ofNat i]))

def noise (eta : Nat) (seed : Vector UInt8 32) (b : Nat) : Nat := samplePolyCbd eta (h.PRF eta seed (UInt8.ofNat b))

/-- The vector that Algorithm 13 encodes in the encryption key. -/
def tHat (d : Vector UInt8 32) (i : Nat) : Nat :=
  let rho := (h.G (d.toList ++ [UInt8.ofNat p.k])).1
  let sigma := (h.G (d.toList ++ [UInt8.ofNat p.k])).2
  add (sum ((List.range p.k).map fun j => multiplyNtts (matrix h limit rho.toList i j) (ntt (noise h p.eta1 sigma j))))
    (ntt (noise h p.eta1 sigma (p.k + i)))

/-- The encryption key of Algorithm 13. -/
def encryptionKey (d : Vector UInt8 32) : List UInt8 :=
  ((List.range p.k).map fun i => toBytes 384 (tHat p h limit d i)).flatten ++ (h.G (d.toList ++ [UInt8.ofNat p.k])).1.toList

/-- The vector that Algorithm 14 compresses. -/
def u (d r : Vector UInt8 32) (i : Nat) : Nat :=
  let rho := (h.G (d.toList ++ [UInt8.ofNat p.k])).1
  add (nttInverse (sum ((List.range p.k).map fun j =>
    multiplyNtts (matrix h limit rho.toList j i) (ntt (noise h p.eta1 r j)))))
    (noise h p.eta2 r (p.k + i))

/-- The polynomial that Algorithm 14 compresses. -/
def v (d : Vector UInt8 32) (m : List UInt8) (r : Vector UInt8 32) : Nat :=
  add (add (nttInverse (sum ((List.range p.k).map fun j => multiplyNtts (tHat p h limit d j) (ntt (noise h p.eta1 r j)))))
    (noise h p.eta2 r (2 * p.k))) (ofMessage m)

/-- The noise of a decryption. -/
def decryptionNoise (d : Vector UInt8 32) (m : List UInt8) (r : Vector UInt8 32) : Nat :=
  let sigma := (h.G (d.toList ++ [UInt8.ofNat p.k])).2
  let ey := sum ((List.range p.k).map fun i =>
    multiplyNtts (ntt (noise h p.eta1 sigma (p.k + i))) (ntt (noise h p.eta1 r i)))
  let cv := compressionError p.dv (v p h limit d m r)
  let su := sum ((List.range p.k).map fun i => multiplyNtts (ntt (noise h p.eta1 sigma i))
    (ntt (add (noise h p.eta2 r (p.k + i)) (compressionError p.du (u p h limit d r i)))))
  sub (add (add (nttInverse ey) (noise h p.eta2 r (2 * p.k))) cv) (nttInverse su)

end Fips203.Packed
