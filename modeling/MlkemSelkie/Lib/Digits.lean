import Mathlib.Algebra.Order.Ring.Nat
import Mathlib.Data.Nat.Bitwise
import Mathlib.Tactic.Ring
import MlkemSelkie.Lib.LittleEndian

/-!
# Little-endian digits

A number is read as digits of `w` bits, least significant first. Packing and unpacking move between two widths, so both
are statements about the number in the middle; its bits connect them to bit strings.
-/

namespace Digits

/-- The value of the first `m` digits of width `w`. -/
def value (w : Nat) (v : Nat → Nat) : Nat → Nat
  | 0 => 0
  | m + 1 => value w v m + v m * 2 ^ (w * m)

section Value

variable {w m : Nat} {v v' : Nat → Nat}

theorem value_congr (h : ∀ i < m, v i = v' i) : value w v m = value w v' m := by
  induction m with
  | zero => rfl
  | succ m ih => rw [value, value, ih fun i hi => h i (by omega), h m (by omega)]

/-- The least digit apart from the others. -/
theorem value_succ (w : Nat) (v : Nat → Nat) (m : Nat) :
    value w v (m + 1) = v 0 + 2 ^ w * value w (fun i => v (i + 1)) m := by
  induction m with
  | zero => rw [value, value, value, Nat.mul_zero, Nat.mul_zero, pow_zero, Nat.zero_add, Nat.mul_one, Nat.add_zero]
  | succ m ih =>
    have hpow : w * (m + 1) = w + w * m := by ring
    rw [value, ih, value, hpow, Nat.pow_add]
    ring

theorem value_lt (h : ∀ i < m, v i < 2 ^ w) : value w v m < 2 ^ (w * m) := by
  induction m with
  | zero => exact Nat.two_pow_pos _
  | succ m ih =>
    have hlow := ih fun i hi => h i (by omega)
    have hhigh := Nat.mul_le_mul_right (2 ^ (w * m)) (Nat.succ_le_of_lt (h m (by omega)))
    rw [Nat.succ_mul] at hhigh
    rw [value, Nat.mul_succ, Nat.add_comm (w * m), Nat.pow_add]
    omega

/-- A bit of the value is a bit of the digit it falls in. -/
theorem testBit_value (h : ∀ i < m, v i < 2 ^ w) (p : Nat) (hp : p < w * m) :
    (value w v m).testBit p = (v (p / w)).testBit (p % w) := by
  induction m with
  | zero => omega
  | succ m ih =>
    have hlow := value_lt (w := w) (m := m) fun i hi => h i (by omega)
    rw [value, Nat.add_comm, Nat.mul_comm, Nat.testBit_two_pow_mul_add _ hlow]
    split
    · exact ih (fun i hi => h i (by omega)) ‹_›
    · rw [Nat.mul_succ] at hp
      have hdiv : p / w = m := Nat.div_eq_of_lt_le (by rw [Nat.mul_comm]; omega) (by rw [Nat.succ_mul, Nat.mul_comm]; omega)
      rw [hdiv, Nat.mod_eq_sub_mul_div, hdiv]

/-- The digits of the value are the digits it was made of. -/
theorem value_digit (h : ∀ i < m, v i < 2 ^ w) (i : Nat) (hi : i < m) : value w v m / 2 ^ (w * i) % 2 ^ w = v i := by
  refine Nat.eq_of_testBit_eq fun j => ?_
  rw [Nat.testBit_mod_two_pow, Nat.testBit_div_two_pow]
  by_cases hj : j < w
  · have hle := Nat.mul_le_mul_left w (Nat.succ_le_of_lt hi)
    rw [Nat.mul_succ] at hle
    rw [testBit_value h _ (by omega), Nat.add_comm j, Nat.mul_add_div (by omega), Nat.div_eq_of_lt hj, Nat.add_zero,
      Nat.mul_add_mod, Nat.mod_eq_of_lt hj]
    simp [hj]
  · rw [Nat.testBit_lt_two_pow (Nat.lt_of_lt_of_le (h i hi) (Nat.pow_le_pow_right (by decide) (by omega)))]
    simp [hj]

/-- A number is the value of its digits. -/
theorem value_digits (w x m : Nat) : value w (fun i => x / 2 ^ (w * i) % 2 ^ w) m = x % 2 ^ (w * m) := by
  induction m with
  | zero => rw [Nat.mul_zero, pow_zero, Nat.mod_one, value]
  | succ m ih => rw [value, ih, Nat.mul_succ, Nat.pow_add, Nat.mod_mul, Nat.mul_comm (2 ^ (w * m))]

/-- A digit below `2^n` does not depend on what is added above `2^n`. -/
theorem digit_add_high {a b n : Nat} (x y : Nat) (h : a + b ≤ n) : (x + y * 2 ^ n) / 2 ^ a % 2 ^ b = x / 2 ^ a % 2 ^ b := by
  have hsplit : y * 2 ^ n = 2 ^ a * (2 ^ b * (y * 2 ^ (n - (a + b)))) := by
    rw [show n = a + b + (n - (a + b)) by omega, Nat.pow_add, Nat.pow_add,
      show a + b + (n - (a + b)) - (a + b) = n - (a + b) by omega]
    ring
  rw [hsplit, Nat.add_mul_div_left _ _ (Nat.two_pow_pos a), Nat.add_mul_mod_self_left]

/-- A digit of a window is a digit of the number. -/
theorem digit_window {a b c n : Nat} (x : Nat) (h : b + c ≤ n) :
    x / 2 ^ a % 2 ^ n / 2 ^ b % 2 ^ c = x / 2 ^ (a + b) % 2 ^ c := by
  refine Nat.eq_of_testBit_eq fun j => ?_
  simp only [Nat.testBit_mod_two_pow, Nat.testBit_div_two_pow]
  by_cases hj : j < c
  · simp only [hj, show j + b < n by omega, decide_true, Bool.true_and, show j + b + a = j + (a + b) by omega]
  · simp only [hj, decide_false, Bool.false_and]

theorem digit_mod {b c n : Nat} (x : Nat) (h : b + c ≤ n) : x % 2 ^ n / 2 ^ b % 2 ^ c = x / 2 ^ b % 2 ^ c := by
  have hwindow := digit_window (a := 0) x h
  rwa [pow_zero, Nat.div_one, Nat.zero_add] at hwindow

/-- Eight bits that start in a digit: what is left of the digit, and the digit behind it unless the bits end before it. -/
theorem byte_of_digits {w s m n y : Nat} {v : Nat → Nat} (hv : ∀ i < n, v i < 2 ^ w) (hm : m < n) (hs : s < w) (hw : 8 ≤ w)
    (hy : y = v (m + 1) ∧ m + 1 < n ∨ s + 8 ≤ w) :
    value w v n / 2 ^ (w * m + s) % 2 ^ 8 = (v m >>> s ||| y <<< (w - s)) % 2 ^ 8 := by
  have hlow : v m >>> s < 2 ^ (w - s) := by
    rw [Nat.shiftRight_eq_div_pow]
    refine Nat.div_lt_of_lt_mul ?_
    rw [← Nat.pow_add, Nat.add_sub_cancel' hs.le]
    exact hv m hm
  -- the digit and everything behind it
  have hsplit : value w v n / 2 ^ (w * m + s) = v m >>> s + value w v n / 2 ^ (w * (m + 1)) * 2 ^ (w - s) := by
    have hdiv := Nat.mod_add_div (value w v n / 2 ^ (w * m)) (2 ^ w)
    have hpow : 2 ^ w = 2 ^ s * 2 ^ (w - s) := by rw [← Nat.pow_add, Nat.add_sub_cancel' hs.le]
    rw [value_digit hv m hm, Nat.div_div_eq_div_mul, ← Nat.pow_add, ← Nat.mul_succ] at hdiv
    rw [Nat.pow_add, ← Nat.div_div_eq_div_mul, ← hdiv, Nat.shiftRight_eq_div_pow, hpow, Nat.mul_assoc,
      Nat.add_mul_div_left _ _ (Nat.two_pow_pos s), Nat.mul_comm (2 ^ (w - s))]
  rw [hsplit, Nat.or_comm, ← Nat.shiftLeft_add_eq_or_of_lt hlow, Nat.shiftLeft_eq, Nat.add_comm]
  rcases hy with ⟨rfl, hnext⟩ | hend
  · -- the digits behind the next one are too high
    have hhigh := Nat.mod_add_div (value w v n / 2 ^ (w * (m + 1))) (2 ^ w)
    rw [value_digit hv (m + 1) hnext] at hhigh
    rw [← hhigh, Nat.add_mul, Nat.add_right_comm, Nat.mul_right_comm (2 ^ w), ← Nat.pow_add]
    have hfactor : 2 ^ (w + (w - s)) = 2 ^ 8 * 2 ^ (w + (w - s) - 8) := by
      rw [← Nat.pow_add, Nat.add_sub_cancel' (by omega)]
    rw [hfactor, Nat.mul_assoc, Nat.add_mul_mod_self_left]
  · have hfactor : 2 ^ (w - s) = 2 ^ 8 * 2 ^ (w - s - 8) := by rw [← Nat.pow_add, Nat.add_sub_cancel' (by omega)]
    rw [hfactor, Nat.mul_left_comm, Nat.mul_left_comm y, Nat.add_comm, Nat.add_mul_mod_self_left, Nat.add_comm (2 ^ 8 * _),
      Nat.add_mul_mod_self_left]

/-- Numbers with the same digits are equal. -/
theorem eq_of_digits {x y : Nat} (hx : x < 2 ^ (w * m)) (hy : y < 2 ^ (w * m))
    (h : ∀ i < m, x / 2 ^ (w * i) % 2 ^ w = y / 2 ^ (w * i) % 2 ^ w) : x = y := by
  rw [← Nat.mod_eq_of_lt hx, ← Nat.mod_eq_of_lt hy, ← value_digits w x m, ← value_digits w y m]
  exact value_congr h

end Value

/-! ## Bit fields -/

/-- The low bit of every field of `w` bits. -/
theorem and_low_bits {w : Nat} (hw : 0 < w) (t n : Nat) :
    t &&& value w (fun _ => 1) n = value w (fun r => (t.testBit (w * r)).toNat) n := by
  have hone : ∀ i < n, 1 < 2 ^ w := fun _ _ => Nat.one_lt_two_pow (by omega)
  have hbit : ∀ i < n, (t.testBit (w * i)).toNat < 2 ^ w := fun i hi =>
    Nat.lt_of_le_of_lt (Bool.toNat_le _) (hone i hi)
  refine Nat.eq_of_testBit_eq fun p => ?_
  rw [Nat.testBit_and]
  by_cases hp : p < w * n
  · rw [testBit_value hone p hp, testBit_value hbit p hp]
    by_cases hzero : p % w = 0
    · rw [hzero, show w * (p / w) = p by rw [Nat.mul_comm]; exact Nat.div_mul_cancel (Nat.dvd_of_mod_eq_zero hzero)]
      cases t.testBit p <;> rfl
    · rw [Nat.testBit_lt_two_pow (show 1 < 2 ^ (p % w) from Nat.one_lt_two_pow hzero),
        Nat.testBit_lt_two_pow (Nat.lt_of_le_of_lt (Bool.toNat_le _) (Nat.one_lt_two_pow hzero)), Bool.and_false]
  · have hle : 2 ^ (w * n) ≤ 2 ^ p := Nat.pow_le_pow_right (by decide) (by omega)
    rw [Nat.testBit_lt_two_pow (Nat.lt_of_lt_of_le (value_lt hone) hle),
      Nat.testBit_lt_two_pow (Nat.lt_of_lt_of_le (value_lt hbit) hle), Bool.and_false]

/-- Fields add independently. -/
theorem value_add (w : Nat) (u v : Nat → Nat) (n : Nat) : value w u n + value w v n = value w (fun r => u r + v r) n := by
  induction n with
  | zero => rfl
  | succ n ih => rw [value, value, value, ← ih]; ring

/-- A field read by a shift and a mask. -/
theorem shift_and_mask {w n : Nat} {v : Nat → Nat} (hv : ∀ i < n, v i < 2 ^ w) (i : Nat) (hi : i < n) :
    (value w v n >>> (w * i)) &&& (2 ^ w - 1) = v i := by
  rw [Nat.and_two_pow_sub_one_eq_mod, Nat.shiftRight_eq_div_pow, value_digit hv i hi]

/-! ## Bytes -/

open LittleEndian

theorem ofBytes_cons (b : UInt8) (l : List UInt8) : ofBytes (b :: l) = b.toNat + 2 ^ 8 * ofBytes l := rfl

theorem ofBytes_lt (l : List UInt8) : ofBytes l < 2 ^ (8 * l.length) := by
  induction l with
  | nil => exact Nat.two_pow_pos _
  | cons b l ih =>
    have hb : b.toNat < 2 ^ 8 := b.toNat_lt
    rw [ofBytes_cons, List.length_cons, Nat.mul_succ, Nat.pow_add]
    omega

theorem ofBytes_append (a b : List UInt8) : ofBytes (a ++ b) = ofBytes a + 2 ^ (8 * a.length) * ofBytes b := by
  induction a with
  | nil => rw [List.nil_append, List.length_nil, Nat.mul_zero, pow_zero, Nat.one_mul]; exact (Nat.zero_add _).symm
  | cons x a ih => rw [List.cons_append, ofBytes_cons, ih, ofBytes_cons, List.length_cons, Nat.mul_succ, Nat.pow_add]; ring

theorem ofBytes_replicate_zero (n : Nat) : ofBytes (List.replicate n 0) = 0 := by
  induction n with
  | zero => rfl
  | succ n ih => rw [List.replicate_succ, ofBytes_cons, ih]; rfl

theorem ofBytes_take (l : List UInt8) (k : Nat) : ofBytes (l.take k) = ofBytes l % 2 ^ (8 * k) := by
  by_cases hk : k ≤ l.length
  · have h := ofBytes_append (l.take k) (l.drop k)
    have hlt := ofBytes_lt (l.take k)
    rw [List.take_append_drop, List.length_take, Nat.min_eq_left hk] at h
    rw [List.length_take, Nat.min_eq_left hk] at hlt
    rw [h, Nat.add_mul_mod_self_left, Nat.mod_eq_of_lt hlt]
  · have hlt := ofBytes_lt l
    have hle : 2 ^ (8 * l.length) ≤ 2 ^ (8 * k) := Nat.pow_le_pow_right (by decide) (by omega)
    rw [List.take_of_length_le (by omega), Nat.mod_eq_of_lt (by omega)]

theorem ofBytes_drop (l : List UInt8) (k : Nat) : ofBytes (l.drop k) = ofBytes l / 2 ^ (8 * k) := by
  by_cases hk : k ≤ l.length
  · have h := ofBytes_append (l.take k) (l.drop k)
    have hlt := ofBytes_lt (l.take k)
    rw [List.take_append_drop, List.length_take, Nat.min_eq_left hk] at h
    rw [List.length_take, Nat.min_eq_left hk] at hlt
    rw [h, Nat.add_mul_div_left _ _ (Nat.two_pow_pos _), Nat.div_eq_of_lt hlt, Nat.zero_add]
  · have hlt := ofBytes_lt l
    have hle : 2 ^ (8 * l.length) ≤ 2 ^ (8 * k) := Nat.pow_le_pow_right (by decide) (by omega)
    rw [List.drop_of_length_le (by omega), Nat.div_eq_of_lt (by omega)]
    rfl

/-- A byte of a list is a digit of its value; past the end both are zero. -/
theorem ofBytes_digit (l : List UInt8) (k : Nat) : ofBytes l / 2 ^ (8 * k) % 2 ^ 8 = (l[k]!).toNat := by
  rw [← ofBytes_drop]
  by_cases hk : k < l.length
  · rw [List.drop_eq_getElem_cons hk, ofBytes_cons, Nat.add_mul_mod_self_left, getElem!_pos l k hk,
      Nat.mod_eq_of_lt (l[k].toNat_lt)]
  · rw [List.drop_of_length_le (by omega), getElem!_neg l k hk]
    rfl

/-- The bytes of a window, zero past the end. -/
theorem ofBytes_window {bytes l : List UInt8} {n : Nat} (h : ∀ k < l.length, l[k]! = bytes[n + k]!) :
    ofBytes l = ofBytes bytes / 2 ^ (8 * n) % 2 ^ (8 * l.length) := by
  refine eq_of_digits (ofBytes_lt l) (Nat.mod_lt _ (Nat.two_pow_pos _)) fun k hk => ?_
  rw [ofBytes_digit, h k hk, digit_window _ (by omega), ← Nat.mul_add, ofBytes_digit]

/-- A bit of the value of a list is a bit of the byte it falls in. -/
theorem testBit_ofBytes (l : List UInt8) (t : Nat) : (ofBytes l).testBit t = (l[t / 8]!).toNat.testBit (t % 8) := by
  rw [← ofBytes_digit, Nat.testBit_mod_two_pow, Nat.testBit_div_two_pow]
  have hmod := Nat.mod_lt t (show 0 < 8 by decide)
  simp only [hmod, decide_true, Bool.true_and]
  rw [Nat.mod_add_div]

/-- A bit of the value of a slice. -/
theorem testBit_ofBytes_slice (l : List UInt8) {off size t : Nat} (ht : t < 8 * size) :
    (ofBytes ((l.drop off).take size)).testBit t = (ofBytes l).testBit (8 * off + t) := by
  rw [ofBytes_take, ofBytes_drop, Nat.testBit_mod_two_pow, Nat.testBit_div_two_pow, Nat.add_comm t]
  simp only [ht, decide_true, Bool.true_and]

/-- Lists of one length with the same bytes as digits are equal. -/
theorem ext_bytes {a b : List UInt8} (hlen : a.length = b.length) (h : ∀ k < a.length, (a[k]!).toNat = (b[k]!).toNat) :
    a = b := by
  refine List.ext_getElem hlen fun k h1 h2 => ?_
  have := h k h1
  rw [getElem!_pos a k h1, getElem!_pos b k h2] at this
  exact UInt8.toNat_inj.mp this

/-- A list of bytes is determined by its length and its value. -/
theorem ofBytes_inj {a b : List UInt8} (hlen : a.length = b.length) (h : ofBytes a = ofBytes b) : a = b := by
  refine ext_bytes hlen fun k _ => ?_
  rw [← ofBytes_digit, h, ofBytes_digit]

end Digits
