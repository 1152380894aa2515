import MlkemSelkie.Lemmas.Products
import MlkemSelkie.Lemmas.Vector

/-!
# Ranges and scales

The reductions of the code are lazy: an operation asks for small representatives and leaves larger ones, and a product
of Tq is off by a factor `R^-1` that a later operation makes good. A computation over the two rings is a term here; its
range and its scale are computed from the ranges of its inputs alone, and the check says that every operation finds what
it asks for.
-/

namespace MlkemSelkie

open Fips203

/-- The two rings. -/
inductive Domain where
  | rq | tq
  deriving DecidableEq

/-- The elements of a ring, as the code holds them. -/
abbrev Domain.Element : Domain → Type
  | rq => RqElement
  | tq => TqElement

/-- A representative of the exact element `x`, its coefficients at most `B` in absolute value. -/
def Domain.Represents : (d : Domain) → Nat → d.Element → (Fin 256 → Zq) → Prop
  | rq, B, f, x => RqElement.Represents B f x
  | tq, B, t, x => TqElement.Represents B t x

/-- The exact element that a representative stands for. -/
def Domain.exact : (d : Domain) → d.Element → Fin 256 → Zq
  | rq, f => RqElement.toRq f
  | tq, t => TqElement.toTq t

/-- A computation: the operations of the ring elements, on inputs `V`. A dot product is against cached components. -/
inductive Term (V : Domain → Type) : Domain → Type where
  | input {d : Domain} (x : V d) : Term V d
  | addRq (f g : Term V .rq) : Term V .rq
  | subRq (f g : Term V .rq) : Term V .rq
  | addTq (f g : Term V .tq) : Term V .tq
  | ntt (f : Term V .rq) : Term V .tq
  | nttInverse (f : Term V .tq) : Term V .rq
  | toMontgomery (f : Term V .tq) : Term V .tq
  | mul (f g : Term V .tq) : Term V .tq
  | dot {k : Nat} (f g : Fin k → Term V .tq) : Term V .tq

/-- The inputs of a computation, as the code holds them, within their ranges. -/
structure Inputs (V : Domain → Type) where
  element : (d : Domain) → V d → d.Element
  range : (d : Domain) → V d → Nat
  within : ∀ (d : Domain) (x : V d), d.Represents (range d x) (element d x) (d.exact (element d x))

/-- What the inputs stand for. -/
def Inputs.exact {V : Domain → Type} (I : Inputs V) (d : Domain) (x : V d) : Fin 256 → Zq := d.exact (I.element d x)

namespace Term

variable {V : Domain → Type}

/-- The computation of the code. -/
def eval (element : (d : Domain) → V d → d.Element) : {d : Domain} → Term V d → d.Element
  | d, input x => element d x
  | _, addRq f g => (f.eval element : RqElement) + (g.eval element : RqElement)
  | _, subRq f g => (f.eval element : RqElement) - (g.eval element : RqElement)
  | _, addTq f g => (f.eval element : TqElement) + (g.eval element : TqElement)
  | _, ntt f => RqElement.ntt (f.eval element)
  | _, nttInverse f => TqElement.nttInverse (f.eval element)
  | _, toMontgomery f => TqElement.toMontgomery (f.eval element)
  | _, mul f g => (f.eval element : TqElement) * (g.eval element : TqElement)
  | _, dot f g => TqElement.accumulatedDot (List.ofFn fun j => (f j).eval element) (List.ofFn fun j => (g j).eval element)
      (List.ofFn fun j => TqElement.mulCache ((g j).eval element))

/-- The computation of FIPS 203: exact, and with no scales. -/
def value (exact : (d : Domain) → V d → Fin 256 → Zq) : {d : Domain} → Term V d → Fin 256 → Zq
  | d, input x => exact d x
  | _, addRq f g => f.value exact + g.value exact
  | _, subRq f g => f.value exact - g.value exact
  | _, addTq f g => f.value exact + g.value exact
  | _, ntt f => Fips203.ntt (f.value exact)
  | _, nttInverse f => Fips203.nttInverse (f.value exact)
  | _, toMontgomery f => f.value exact
  | _, mul f g => multiplyNtts (f.value exact) (g.value exact)
  | _, dot f g => ∑ j, multiplyNtts ((f j).value exact) ((g j).value exact)

/-- The power of `R` by which the code is off. -/
def scale : {d : Domain} → Term V d → Int
  | _, input _ => 0
  | _, addRq f _ => f.scale
  | _, subRq f _ => f.scale
  | _, addTq f _ => f.scale
  | _, ntt f => f.scale
  | _, nttInverse f => f.scale + 1
  | _, toMontgomery f => f.scale + 1
  | _, mul f g => f.scale + g.scale - 1
  | _, dot f g => (List.ofFn fun j => (f j).scale + (g j).scale).headD 1 - 1

/-- The largest of some bounds. -/
def largest {k : Nat} (bounds : Fin k → Nat) : Nat := (List.ofFn bounds).foldr max 0

/-- What one component adds to the sums of a dot product, at most. -/
def dotBound (F G : Nat) : Nat := max (F * G + F * ((G * 1733 + 109084672) / 65536)) (F * G + F * G)

/-- The bound of the coefficients that the code leaves. -/
def bound (range : (d : Domain) → V d → Nat) : {d : Domain} → Term V d → Nat
  | d, input x => range d x
  | _, addRq f g => f.bound range + g.bound range
  | _, subRq f g => f.bound range + g.bound range
  | _, addTq f g => f.bound range + g.bound range
  | _, ntt _ => 1664
  | _, nttInverse _ => 2195
  | _, toMontgomery f => (f.bound range * 1353 + 109084672) / 65536
  | _, mul f g => multiplyBound (f.bound range) (g.bound range)
  | _, @dot _ k f g =>
    (k * dotBound (largest fun j => (f j).bound range) (largest fun j => (g j).bound range) + 109084672) / 65536

/-- Every operation finds the ranges and the scales that it asks for. -/
def checks (range : (d : Domain) → V d → Nat) : {d : Domain} → Term V d → Bool
  | _, input _ => true
  | _, addRq f g => f.checks range && g.checks range && f.scale == g.scale && f.bound range + g.bound range ≤ 32767
  | _, subRq f g => f.checks range && g.checks range && f.scale == g.scale && f.bound range + g.bound range ≤ 32767
  | _, addTq f g => f.checks range && g.checks range && f.scale == g.scale && f.bound range + g.bound range ≤ 32767
  | _, ntt f => f.checks range && f.bound range ≤ 3329
  | _, nttInverse f => f.checks range && f.bound range ≤ 16383
  | _, toMontgomery f => f.checks range && f.bound range ≤ 32768
  | _, mul f g => f.checks range && g.checks range && f.bound range * g.bound range ≤ 2038398975 &&
      multiplyBound (f.bound range) (g.bound range) ≤ 32767
  | _, @dot _ k f g => (List.ofFn fun j => (f j).checks range && (g j).checks range).all id &&
      (List.ofFn fun j => (f j).scale + (g j).scale).all (· == (List.ofFn fun j => (f j).scale + (g j).scale).headD 1) &&
      (largest fun j => (g j).bound range) ≤ 32768 &&
      k * dotBound (largest fun j => (f j).bound range) (largest fun j => (g j).bound range) ≤ 2038398975

end Term

/-! ## The computations of K-PKE -/

/-- What the computation of key generation starts from: the matrix, the secret and the noise. -/
inductive NewOperand (k : Nat) : Domain → Type where
  | matrix (i j : Fin k) : NewOperand k .tq
  | s (i : Fin k) : NewOperand k .rq
  | e (i : Fin k) : NewOperand k .rq

/-- What the computations of encryption start from: the key, the noise and the message. -/
inductive EncryptOperand (k : Nat) : Domain → Type where
  | matrix (i j : Fin k) : EncryptOperand k .tq
  | tHat (i : Fin k) : EncryptOperand k .tq
  | y (i : Fin k) : EncryptOperand k .rq
  | e1 (i : Fin k) : EncryptOperand k .rq
  | e2 : EncryptOperand k .rq
  | mu : EncryptOperand k .rq

/-- What the computation of decryption starts from: the key and the decompressed ciphertext. -/
inductive DecryptOperand (k : Nat) : Domain → Type where
  | sHat (i : Fin k) : DecryptOperand k .tq
  | u (i : Fin k) : DecryptOperand k .rq
  | v : DecryptOperand k .rq

/-- The ranges of a sampled matrix and of noise. -/
def NewOperand.range {k : Nat} : (d : Domain) → NewOperand k d → Nat
  | _, matrix _ _ => 3500
  | _, s _ => 3
  | _, e _ => 3

/-- The ranges of a valid key, of noise and of a message. -/
def EncryptOperand.range {k : Nat} : (d : Domain) → EncryptOperand k d → Nat
  | _, matrix _ _ => 3500
  | _, tHat _ => 3500
  | _, y _ => 3
  | _, e1 _ => 3
  | _, e2 => 3
  | _, mu => 3328

/-- The ranges of a valid key and of what is decompressed. -/
def DecryptOperand.range {k : Nat} : (d : Domain) → DecryptOperand k d → Nat
  | _, sHat _ => 3328
  | _, u _ => 3328
  | _, v => 3328

/-- `t_hat` of key generation. -/
def NewOperand.tHat {k : Nat} (i : Fin k) : Term (NewOperand k) .tq :=
  .addTq (.toMontgomery (.dot (fun j => .input (matrix i j)) fun j => .ntt (.input (s j)))) (.ntt (.input (e i)))

/-- `u` of encryption. -/
def EncryptOperand.u {k : Nat} (i : Fin k) : Term (EncryptOperand k) .rq :=
  .addRq (.nttInverse (.dot (fun j => .input (matrix i j)) fun j => .ntt (.input (y j)))) (.input (e1 i))

/-- `v` of encryption. -/
def EncryptOperand.v {k : Nat} : Term (EncryptOperand k) .rq :=
  .addRq (.addRq (.nttInverse (.dot (fun j => .input (tHat j)) fun j => .ntt (.input (y j)))) (.input e2)) (.input mu)

/-- `w` of decryption. -/
def DecryptOperand.w {k : Nat} : Term (DecryptOperand k) .rq :=
  .subRq (.input v) (.nttInverse (.dot (fun j => .ntt (.input (u j))) fun j => .input (sHat j)))

end MlkemSelkie
