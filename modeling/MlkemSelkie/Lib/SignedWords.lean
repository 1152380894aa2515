import MlkemSelkie.Lib.Loops

/-!
# Exact signed words

A wrapping operation on signed words is the exact one when the exact result is in the range of the type. The wrapping
operations themselves are the library's; the lemmas here read them as integers.
-/

namespace SignedWords

/-- The range of a 16-bit word. -/
def Fits16 (x : Int) : Prop := -32768 ≤ x ∧ x ≤ 32767

/-- The range of a 32-bit word. -/
def Fits32 (x : Int) : Prop := -2147483648 ≤ x ∧ x ≤ 2147483647

instance (x : Int) : Decidable (Fits16 x) := inferInstanceAs (Decidable (_ ∧ _))

instance (x : Int) : Decidable (Fits32 x) := inferInstanceAs (Decidable (_ ∧ _))

/-- A value that counts only under a condition: the range that its computation must not leave. -/
def check {α : Type} (p : Prop) [Decidable p] (x : α) : Option α := if p then some x else none

theorem check_eq {α : Type} {p : Prop} [Decidable p] (h : p) (x : α) : check p x = some x := if_pos h

/-- Going on with a checked value. The proof is not by computation, so that rewriting with it never makes the kernel run what
follows. -/
theorem some_bind {α β : Type} (x : α) (f : α → Option β) : (some x >>= f) = f x := by
  cases h : f x <;> simp only [Option.bind_eq_bind, Option.bind_some, h]

theorem fits16_toInt (x : Int16) : Fits16 x.toInt := ⟨x.le_toInt, Int.le_of_lt_add_one x.toInt_lt⟩

theorem bmod_16 {x : Int} (h : Fits16 x) : x.bmod (2 ^ 16) = x :=
  Int.bmod_eq_of_le h.1 (Int.lt_add_one_of_le h.2)

theorem bmod_32 {x : Int} (h : Fits32 x) : x.bmod (2 ^ 32) = x :=
  Int.bmod_eq_of_le h.1 (Int.lt_add_one_of_le h.2)

/-- What wraps to a 16-bit word differs from it by a multiple of `2^16`. -/
theorem exists_bmod_16 (x : Int) : ∃ c, x.bmod (2 ^ 16) = x + 65536 * c ∧ Fits16 (x.bmod (2 ^ 16)) := by
  have h : x.bmod (2 ^ 16) = if x % 65536 < 32768 then x % 65536 else x % 65536 - 65536 := Int.bmod_def x (2 ^ 16)
  have hdiv := Int.mul_ediv_add_emod x 65536
  rw [h, Fits16]
  split
  · exact ⟨-(x / 65536), by omega, by omega, by omega⟩
  · exact ⟨-(x / 65536) - 1, by omega, by omega, by omega⟩

theorem toInt_add16 {x y : Int16} (h : Fits16 (x.toInt + y.toInt)) : (x + y).toInt = x.toInt + y.toInt := by
  rw [Int16.toInt_add, bmod_16 h]

theorem toInt_sub16 {x y : Int16} (h : Fits16 (x.toInt - y.toInt)) : (x - y).toInt = x.toInt - y.toInt := by
  rw [Int16.toInt_sub, bmod_16 h]

theorem toInt_add32 {x y : Int32} (h : Fits32 (x.toInt + y.toInt)) : (x + y).toInt = x.toInt + y.toInt := by
  rw [Int32.toInt_add, bmod_32 h]

theorem toInt_sub32 {x y : Int32} (h : Fits32 (x.toInt - y.toInt)) : (x - y).toInt = x.toInt - y.toInt := by
  rw [Int32.toInt_sub, bmod_32 h]

theorem toInt_mul32 {x y : Int32} (h : Fits32 (x.toInt * y.toInt)) : (x * y).toInt = x.toInt * y.toInt := by
  rw [Int32.toInt_mul, bmod_32 h]

/-- A widened product of 16-bit words is exact. -/
theorem toInt_mul_widened (x y : Int16) : (x.toInt32 * y.toInt32).toInt = x.toInt * y.toInt := by
  obtain ⟨hx, hx'⟩ := fits16_toInt x
  obtain ⟨hy, hy'⟩ := fits16_toInt y
  have h : (x.toInt * y.toInt).natAbs ≤ 32768 * 32768 := by
    rw [Int.natAbs_mul]
    exact Nat.mul_le_mul (by omega) (by omega)
  rw [toInt_mul32 (by rw [Int16.toInt_toInt32, Int16.toInt_toInt32, Fits32]; omega), Int16.toInt_toInt32,
    Int16.toInt_toInt32]

/-- A difference with a wrapped product is exact when it fits: the wrap of the product cancels. -/
theorem toInt_sub_mul16 {x y z : Int16} (h : Fits16 (x.toInt - y.toInt * z.toInt)) :
    (x - y * z).toInt = x.toInt - y.toInt * z.toInt := by
  rw [Int16.toInt_sub, Int16.toInt_mul, Int.sub_bmod_bmod, bmod_16 h]

/-- The same when the minuend is itself the low half of a wider word. -/
theorem toInt_narrow_sub_mul16 {x : Int32} {y z : Int16} (h : Fits16 (x.toInt - y.toInt * z.toInt)) :
    (x.toInt16 - y * z).toInt = x.toInt - y.toInt * z.toInt := by
  rw [Int16.toInt_sub, Int16.toInt_mul, Int32.toInt_toInt16, Int.sub_bmod_bmod, Int.bmod_sub_bmod, bmod_16 h]

theorem toInt_narrow {x : Int32} (h : Fits16 x.toInt) : x.toInt16.toInt = x.toInt := by
  rw [Int32.toInt_toInt16, bmod_16 h]

/-- A word without its sign is its residue. -/
theorem toNat_toUInt16 (x : Int16) : (x.toUInt16.toNat : Int) = x.toInt % 65536 := by
  have hlt : x.toBitVec.toNat < 65536 := x.toUInt16.toNat_lt
  rw [← Int16.toInt_toBitVec, BitVec.toInt_eq_toNat_bmod, Int.bmod_def]
  show (x.toBitVec.toNat : Int) = _
  omega

/-- A small word without a sign is the same number with one. -/
theorem toInt_of_toUInt16 {x : Int16} {k : Nat} (h : x.toUInt16.toNat = k) (hk : k < 32768) : x.toInt = k := by
  have hbits : x.toBitVec.toNat = k := h
  rw [← Int16.toInt_toBitVec, BitVec.toInt_eq_toNat_of_lt (by rw [hbits]; omega), hbits]

/-- The arithmetic shift rounds down. -/
theorem toInt_shiftRight (x s : Int32) (n : Nat) (h : (s.toBitVec.smod 32).toNat = n) :
    (x >>> s).toInt = x.toInt / (2 ^ n : Nat) := by
  rw [← Int32.toInt_toBitVec, Int32.toBitVec_shiftRight, BitVec.toInt_sshiftRight', Int.shiftRight_eq_div_pow, h]
  rfl

theorem toInt_shiftRight16 (x s : Int16) (n : Nat) (h : (s.toBitVec.smod 16).toNat = n) :
    (x >>> s).toInt = x.toInt / (2 ^ n : Nat) := by
  rw [← Int16.toInt_toBitVec, Int16.toBitVec_shiftRight, BitVec.toInt_sshiftRight', Int.shiftRight_eq_div_pow, h]
  rfl

end SignedWords
