import MlkemSelkie.Lib.Loops

/-!
# Parameter sets

`parameters.rs`: the three parameter sets of section 7 of FIPS 203 and the sizes derived from them. The trait is sealed in
practice: the crate has three implementations, so a parameter set is an enumeration here.
-/

namespace MlkemSelkie

/-- The number of coefficients of a ring element. -/
abbrev N : Nat := 256

/-- The modulus q. -/
abbrev Q : Nat := 3329

/-- The centered-binomial-distribution parameter: FIPS 203 uses 2 and 3 only. -/
inductive Eta where
  | two | three
  deriving DecidableEq, Repr

/-- `usize::from(eta)`. -/
def Eta.toNat : Eta → Nat
  | .two => 2
  | .three => 3

/-- The parameter sets of ML-KEM. -/
inductive ParameterSet where
  | mlkem512 | mlkem768 | mlkem1024
  deriving DecidableEq, Repr

namespace ParameterSet

/-- The dimension of the vectors and matrices over the polynomial rings. -/
def K : ParameterSet → Nat
  | mlkem512 => 2
  | mlkem768 => 3
  | mlkem1024 => 4

/-- The noise of `s` and `e` in key generation and of `y` in encryption. -/
def eta1 : ParameterSet → Eta
  | mlkem512 => .three
  | mlkem768 => .two
  | mlkem1024 => .two

/-- The noise of `e1` and `e2` in encryption. -/
def eta2 : ParameterSet → Eta
  | mlkem512 => .two
  | mlkem768 => .two
  | mlkem1024 => .two

/-- The bits of a compressed coefficient of `u`. -/
def dU : ParameterSet → Nat
  | mlkem512 => 10
  | mlkem768 => 10
  | mlkem1024 => 11

/-- The bits of a compressed coefficient of `v`. -/
def dV : ParameterSet → Nat
  | mlkem512 => 4
  | mlkem768 => 4
  | mlkem1024 => 5

/-- `PKE::DECRYPTION_KEY_SIZE`. -/
def decryptionKeySize (P : ParameterSet) : Nat := 384 * P.K

/-- `PKE::ENCRYPTION_KEY_SIZE`. -/
def encryptionKeySize (P : ParameterSet) : Nat := 384 * P.K + 32

/-- `DECAPS_KEY_SIZE`. -/
def decapsKeySize (P : ParameterSet) : Nat := 768 * P.K + 96

/-- `ENCAPS_KEY_SIZE`. -/
def encapsKeySize (P : ParameterSet) : Nat := 384 * P.K + 32

/-- `CIPHERTEXT_SIZE`. -/
def ciphertextSize (P : ParameterSet) : Nat := 32 * (P.dU * P.K + P.dV)

/-- Every staging buffer is large enough: the sizes of the largest set are the ones the code writes out. -/
theorem sizes_le (P : ParameterSet) :
    P.encryptionKeySize ≤ 1568 ∧ P.decapsKeySize ≤ 3168 ∧ P.ciphertextSize ≤ 1568 := by
  cases P <;> decide

theorem K_bounds (P : ParameterSet) : 2 ≤ P.K ∧ P.K ≤ 4 := by
  cases P <;> decide

end ParameterSet

end MlkemSelkie
