import MlkemSelkie.Lib.Butterfly
import MlkemSelkie.Lib.LittleEndian
import MlkemSelkie.Lib.SignedWords

/-!
# Registers of lanes

Vector registers of signed 16-bit lanes with the lane semantics that the instruction set documents, and the windows of an
array that are loaded into a register and stored from it. A loop over windows is brought back to the loop over positions.
-/

namespace Lanes

/-! ## The instructions -/

section Instructions

variable {w : Nat}

/-- `set1_epi16`: one word in every lane. -/
def set1Epi16 (a : Int16) : Vector Int16 w := Vector.replicate w a

/-- `add_epi16`: the wrapping sum. -/
def addEpi16 (a b : Vector Int16 w) : Vector Int16 w := Vector.zipWith (fun x y => x + y) a b

/-- `sub_epi16`: the wrapping difference. -/
def subEpi16 (a b : Vector Int16 w) : Vector Int16 w := Vector.zipWith (fun x y => x - y) a b

/-- The low half of a product. -/
def mullo (x y : Int16) : Int16 := (x.toInt32 * y.toInt32).toInt16

/-- The high half of a product. -/
def mulhi (x y : Int16) : Int16 := ((x.toInt32 * y.toInt32) >>> 16).toInt16

/-- The product truncated to its 18 most significant bits, rounded by adding one, without its last bit. -/
def mulhrs (x y : Int16) : Int16 := ((((x.toInt32 * y.toInt32) >>> 14) + 1) >>> 1).toInt16

/-- `mullo_epi16`. -/
def mulloEpi16 (a b : Vector Int16 w) : Vector Int16 w := Vector.zipWith mullo a b

/-- `mulhi_epi16`. -/
def mulhiEpi16 (a b : Vector Int16 w) : Vector Int16 w := Vector.zipWith mulhi a b

/-- `mulhrs_epi16`. -/
def mulhrsEpi16 (a b : Vector Int16 w) : Vector Int16 w := Vector.zipWith mulhrs a b

/-- `srai_epi16`: the arithmetic shift by a constant. -/
def sraiEpi16 (imm : Int16) (a : Vector Int16 w) : Vector Int16 w := a.map fun x => x >>> imm

variable (a b : Vector Int16 w) (x : Int16) (l : Nat) (hl : l < w)

@[simp] theorem set1Epi16_getElem : (set1Epi16 x : Vector Int16 w)[l] = x := Vector.getElem_replicate hl

/-- A lane of the wrapping sum. -/
@[simp] theorem addEpi16_getElem : (addEpi16 a b)[l] = a[l] + b[l] := Vector.getElem_zipWith hl

@[simp] theorem subEpi16_getElem : (subEpi16 a b)[l] = a[l] - b[l] := Vector.getElem_zipWith hl

/-- A lane of the low product. -/
@[simp] theorem mulloEpi16_getElem : (mulloEpi16 a b)[l] = mullo a[l] b[l] := Vector.getElem_zipWith hl

/-- A lane of the high product. -/
@[simp] theorem mulhiEpi16_getElem : (mulhiEpi16 a b)[l] = mulhi a[l] b[l] := Vector.getElem_zipWith hl

/-- A lane of the rounded high product. -/
@[simp] theorem mulhrsEpi16_getElem : (mulhrsEpi16 a b)[l] = mulhrs a[l] b[l] := Vector.getElem_zipWith hl

@[simp] theorem sraiEpi16_getElem : (sraiEpi16 x a)[l] = a[l] >>> x := Vector.getElem_map _ hl

end Instructions

/-! ## The halves of a product -/

section Halves

open SignedWords

variable (x y : Int16)

/-- The low half is the wrapping product. -/
theorem mullo_eq : mullo x y = x * y := by
  rw [mullo, Int32.toInt16_mul, Int16.toInt16_toInt32, Int16.toInt16_toInt32]

/-- A product of two words is a double word, with room to add a rounding constant. -/
theorem natAbs_product_le : (x.toInt * y.toInt).natAbs ≤ 1073741824 := by
  obtain ⟨hx, hx'⟩ := fits16_toInt x
  obtain ⟨hy, hy'⟩ := fits16_toInt y
  have hx : x.toInt.natAbs ≤ 32768 := by omega
  have hy : y.toInt.natAbs ≤ 32768 := by omega
  rw [Int.natAbs_mul]
  exact Nat.mul_le_mul hx hy

/-- The high half is the product divided by the size of a word. -/
theorem mulhi_toInt : (mulhi x y).toInt = x.toInt * y.toInt / 65536 := by
  have hp := natAbs_product_le x y
  have hshift : ((x.toInt32 * y.toInt32) >>> 16).toInt = x.toInt * y.toInt / 65536 := by
    rw [toInt_shiftRight _ _ 16 (by decide), toInt_mul_widened]
    rfl
  rw [mulhi, toInt_narrow (by rw [hshift, Fits16]; omega), hshift]

/-- Truncating, adding one and dropping a bit is rounding the product shifted by 15 bits. -/
theorem mulhrs_eq : mulhrs x y = ((x.toInt32 * y.toInt32 + 0x4000) >>> 15).toInt16 := by
  have hp := natAbs_product_le x y
  have h1 : (1 : Int32).toInt = 1 := by decide
  have hhalf : (0x4000 : Int32).toInt = 16384 := by decide
  have hshift : ((x.toInt32 * y.toInt32) >>> 14).toInt = x.toInt * y.toInt / 16384 := by
    rw [toInt_shiftRight _ _ 14 (by decide), toInt_mul_widened]
    rfl
  have hround : ((x.toInt32 * y.toInt32) >>> 14 + 1).toInt = x.toInt * y.toInt / 16384 + 1 := by
    rw [toInt_add32 (by rw [hshift, h1, Fits32]; omega), hshift, h1]
  have hsum : (x.toInt32 * y.toInt32 + 0x4000).toInt = x.toInt * y.toInt + 16384 := by
    rw [toInt_add32 (by rw [toInt_mul_widened, hhalf, Fits32]; omega), toInt_mul_widened, hhalf]
  rw [mulhrs]
  refine congrArg Int32.toInt16 (Int32.toInt_inj.mp ?_)
  rw [toInt_shiftRight _ _ 1 (by decide), toInt_shiftRight _ _ 15 (by decide), hround, hsum]
  show (x.toInt * y.toInt / 16384 + 1) / 2 = (x.toInt * y.toInt + 16384) / 32768
  omega

/-- Where two products agree in their low halves, the difference of the high halves is the high half of the difference. -/
theorem mulhi_sub (x' y' : Int16) (hlow : mullo x y = mullo x' y')
    (hfit : Fits32 (x.toInt * y.toInt - x'.toInt * y'.toInt)) :
    mulhi x y - mulhi x' y' = ((x.toInt32 * y.toInt32 - x'.toInt32 * y'.toInt32) >>> 16).toInt16 := by
  have hmod : x.toInt * y.toInt % 65536 = x'.toInt * y'.toInt % 65536 := by
    have h := congrArg Int16.toInt hlow
    rw [mullo_eq, mullo_eq, Int16.toInt_mul, Int16.toInt_mul] at h
    obtain ⟨d, hd, _⟩ := exists_bmod_16 (x.toInt * y.toInt)
    obtain ⟨d', hd', _⟩ := exists_bmod_16 (x'.toInt * y'.toInt)
    omega
  have hsub : (x.toInt32 * y.toInt32 - x'.toInt32 * y'.toInt32).toInt = x.toInt * y.toInt - x'.toInt * y'.toInt := by
    rw [toInt_sub32 (by rw [toInt_mul_widened, toInt_mul_widened]; exact hfit), toInt_mul_widened, toInt_mul_widened]
  apply Int16.toInt_inj.mp
  rw [Int16.toInt_sub, mulhi_toInt, mulhi_toInt, Int32.toInt_toInt16, toInt_shiftRight _ _ 16 (by decide), hsub]
  show Int.bmod (x.toInt * y.toInt / 65536 - x'.toInt * y'.toInt / 65536) _ =
    Int.bmod ((x.toInt * y.toInt - x'.toInt * y'.toInt) / 65536) _
  rw [show (x.toInt * y.toInt - x'.toInt * y'.toInt) / 65536 = x.toInt * y.toInt / 65536 - x'.toInt *
    y'.toInt / 65536 by omega]

end Halves

/-- A lane of a register mapped lane by lane. -/
theorem getElem!_map {α β : Type} [Inhabited α] [Inhabited β] {w : Nat} (f : α → β) (v : Vector α w) (l : Nat) (hl : l < w) :
    (v.map f)[l]! = f v[l]! := by
  rw [getElem!_pos _ l hl, getElem!_pos v l hl, Vector.getElem_map]

/-! ## Saturation -/

section Saturation

open SignedWords

/-- The word closest to an integer. -/
def saturate16 (x : Int) : Int16 := Int16.ofInt (max (-32768) (min x 32767))

/-- The double word closest to an integer. -/
def saturate32 (x : Int) : Int32 := Int32.ofInt (max (-2147483648) (min x 2147483647))

/-- A value that is a word does not saturate. -/
theorem saturate16_toInt {x : Int} (h : Fits16 x) : (saturate16 x).toInt = x := by
  obtain ⟨h1, h2⟩ := h
  rw [saturate16, min_eq_left h2, max_eq_right h1]
  exact Int16.toInt_ofInt_of_le h1 (Int.lt_add_one_of_le h2)

/-- Saturating a double word that fits is narrowing it. -/
theorem saturate16_narrow {x : Int32} (h : Fits16 x.toInt) : saturate16 x.toInt = x.toInt16 := by
  apply Int16.toInt_inj.mp
  rw [saturate16_toInt h, toInt_narrow h]

/-- A value that is a double word does not saturate. -/
theorem saturate32_toInt {x : Int} (h : Fits32 x) : (saturate32 x).toInt = x := by
  obtain ⟨h1, h2⟩ := h
  rw [saturate32, min_eq_left h2, max_eq_right h1]
  exact Int32.toInt_ofInt_of_le h1 (Int.lt_add_one_of_le h2)

end Saturation

/-! ## The bytes of a register -/

section Bytes

variable {n w : Nat}

/-- The word of two bytes, the low one first. -/
def word (lo hi : UInt8) : UInt16 := UInt16.ofNat (lo.toNat + 256 * hi.toNat)

/-- The low byte of a word. -/
def lowByte (x : UInt16) : UInt8 := UInt8.ofNat x.toNat

/-- The high byte of a word. -/
def highByte (x : UInt16) : UInt8 := UInt8.ofNat (x.toNat / 256)

/-- The bytes of a register read as words. -/
def asWords (w : Nat) (b : Vector UInt8 n) : Vector UInt16 w := Vector.ofFn fun l => word b[2 * l.val]! b[2 * l.val + 1]!

/-- The bytes of a register of words. -/
def asBytes (n : Nat) (v : Vector UInt16 w) : Vector UInt8 n :=
  Vector.ofFn fun j => if j.val % 2 = 0 then lowByte v[j.val / 2]! else highByte v[j.val / 2]!

/-- The bytes of a register read as double words. -/
def asUInt32s (w : Nat) (b : Vector UInt8 n) : Vector UInt32 w := Vector.ofFn fun l =>
  UInt32.ofNat (LittleEndian.ofBytes [b[4 * l.val]!, b[4 * l.val + 1]!, b[4 * l.val + 2]!, b[4 * l.val + 3]!])

/-- A double word is its four bytes, the low one first. -/
theorem asUInt32s_getElem (b : Vector UInt8 n) (l : Nat) (hl : l < w) : (asUInt32s w b)[l] =
    UInt32.ofNat (LittleEndian.ofBytes [b[4 * l]!, b[4 * l + 1]!, b[4 * l + 2]!, b[4 * l + 3]!]) := Vector.getElem_ofFn hl

/-- The value of a word of two bytes. -/
theorem word_toNat (lo hi : UInt8) : (word lo hi).toNat = lo.toNat + 256 * hi.toNat := by
  have hlo := lo.toNat_lt
  have hhi := hi.toNat_lt
  rw [word, UInt16.toNat_ofNat', Nat.mod_eq_of_lt (by omega)]

/-- The value of the low byte. -/
theorem lowByte_toNat (x : UInt16) : (lowByte x).toNat = x.toNat % 256 := UInt8.toNat_ofNat'

/-- The value of the high byte. -/
theorem highByte_toNat (x : UInt16) : (highByte x).toNat = x.toNat / 256 := by
  have hx := x.toNat_lt
  rw [highByte, UInt8.toNat_ofNat', Nat.mod_eq_of_lt (by omega)]

/-- A word is the word of its bytes. -/
theorem word_bytes (x : UInt16) : word (lowByte x) (highByte x) = x := by
  apply UInt16.toNat_inj.mp
  rw [word_toNat, lowByte_toNat, highByte_toNat]
  omega

/-- A word is two bytes, the low one first. -/
theorem asWords_getElem (b : Vector UInt8 n) (l : Nat) (hl : l < w) : (asWords w b)[l] = word b[2 * l]! b[2 * l + 1]! :=
  Vector.getElem_ofFn hl

/-- The bytes of the words, the low one of each first. -/
theorem asBytes_getElem! (v : Vector UInt16 w) (j : Nat) (hj : j < n) :
    (asBytes n v)[j]! = if j % 2 = 0 then lowByte v[j / 2]! else highByte v[j / 2]! := by
  rw [getElem!_pos _ j hj, asBytes, Vector.getElem_ofFn]

/-- Two bytes of a register that are the bytes of one of its words. -/
theorem word_asBytes (v : Vector UInt16 w) (l : Nat) (hl : 2 * l + 1 < n) :
    word (asBytes n v)[2 * l]! (asBytes n v)[2 * l + 1]! = v[l]! := by
  have hlo : 2 * l / 2 = l := by omega
  have hhi : (2 * l + 1) / 2 = l := by omega
  rw [asBytes_getElem! _ _ (by omega), asBytes_getElem! _ _ hl, if_pos (by omega), if_neg (by omega), hlo, hhi, word_bytes]

end Bytes

/-! ## Windows of an array -/

section Windows

variable {α β : Type} [Inhabited α] {n : Nat} {w : Nat}

/-- The `w` elements from position `j` on. -/
def load (w : Nat) (cs : Vector α n) (j : Nat) : Vector α w := Vector.ofFn fun l => cs[j + l.val]!

/-- The array with the window from position `j` on replaced. -/
def store (cs : Vector α n) (j : Nat) (x : Vector α w) : Vector α n := Loops.copyAt cs j x.toList

/-- A lane of a load. -/
theorem load_getElem (cs : Vector α n) (j l : Nat) (hl : l < w) : (load w cs j)[l] = cs[j + l]! := by
  rw [load, Vector.getElem_ofFn]

/-- A lane of a load, read with a default. -/
theorem load_getElem! (cs : Vector α n) (j l : Nat) (hl : l < w) : (load w cs j)[l]! = cs[j + l]! := by
  rw [getElem!_pos _ l hl, load_getElem]

/-- What a store leaves at a position: a lane in the window, the old entry outside. -/
theorem store_getElem! (cs : Vector α n) (j : Nat) (x : Vector α w) (i : Nat) (hi : i < n) :
    (store cs j x)[i]! = if j ≤ i ∧ i < j + w then x[i - j]! else cs[i]! := by
  rw [getElem!_pos _ i hi, getElem!_pos cs i hi, store, Loops.copyAt, Vector.getElem_ofFn]
  simp only [Vector.length_toList]
  split
  · rw [Vector.getElem_toList, getElem!_pos]
  · rfl

/-- A position of the window holds its lane. -/
theorem store_inside (cs : Vector α n) (j : Nat) (x : Vector α w) (l : Nat) (hl : l < w) (hn : j + l < n) :
    (store cs j x)[j + l]! = x[l] := by
  rw [store_getElem! _ _ _ _ hn, if_pos ⟨Nat.le_add_right _ _, by omega⟩, Nat.add_sub_cancel_left, getElem!_pos x l hl]

/-- The window behind the one stored stands. -/
theorem load_store_behind (cs : Vector α n) (j : Nat) (x : Vector α w) (hn : j + w + w ≤ n) :
    load w (store cs j x) (j + w) = load w cs (j + w) := by
  refine Vector.ext fun l hl => ?_
  rw [load_getElem _ _ _ hl, load_getElem _ _ _ hl, store_getElem! _ _ _ _ (by omega), if_neg (by omega)]

/-- The other positions stand. -/
theorem store_outside (cs : Vector α n) (j : Nat) (x : Vector α w) (i : Nat) (hi : i < n) (h : i < j ∨ j + w ≤ i) :
    (store cs j x)[i]! = cs[i]! := by
  rw [store_getElem! _ _ _ _ hi, if_neg (by omega)]

/-- A store that reaches no position from `limit` on, or nothing. -/
def storeWithin (limit : Nat) (cs : Vector α n) (j : Nat) (x : Vector α w) : Option (Vector α n) :=
  if j + w ≤ limit then some (store cs j x) else none

omit [Inhabited α] in
/-- A store inside its limit succeeds. -/
theorem storeWithin_eq {limit j : Nat} (h : j + w ≤ limit) (cs : Vector α n) (x : Vector α w) :
    storeWithin limit cs j x = some (store cs j x) := if_pos h

/-- The first `k` positions of an array hold the target `T`, the others still what it held at first. -/
def Filled (T : Nat → α) (init : Vector α n) (k : Nat) (out : Vector α n) : Prop :=
  ∀ p < n, out[p]! = if p < k then T p else init[p]!

/-- Nothing is filled at first. -/
theorem filled_zero (T : Nat → α) (init : Vector α n) : Filled T init 0 init := by
  intro p _
  rw [if_neg (Nat.not_lt_zero p)]

/-- A store of the target that starts in the part already filled and reaches behind it. -/
theorem Filled.store {T : Nat → α} {init out : Vector α n} {k j : Nat} (h : Filled T init k out) (hj : j ≤ k)
    (hk : k ≤ j + w)
    {x : Vector α w} (hx : ∀ l < w, x[l]! = T (j + l)) : Filled T init (j + w) (store out j x) := by
  intro p hp
  rw [store_getElem! _ _ _ _ hp]
  by_cases hin : j ≤ p ∧ p < j + w
  · obtain ⟨h1, h2⟩ := hin
    rw [if_pos ⟨h1, h2⟩, if_pos h2, hx _ (by omega), Nat.add_sub_cancel' h1]
  · rw [if_neg hin, h p hp]
    by_cases hlow : p < k
    · rw [if_pos hlow, if_pos (by omega)]
    · rw [if_neg hlow, if_neg (by omega)]

/-- An array filled to the end holds the target. -/
theorem Filled.eq {T : Nat → α} {init out v : Vector α n} {k : Nat} (h : Filled T init k out)
    (hv : ∀ p < n, v[p]! = if p < k then T p else init[p]!) : out = v :=
  Butterfly.ext_getElem! fun p hp => by rw [h p hp, hv p hp]

/-- A register loaded from a slice of its length, or nothing. -/
def loadSlice (w : Nat) (slice : List α) : Option (Vector α w) :=
  if slice.length = w then some (Loops.arrayOf w slice) else none

/-- The register at position `start` of a slice: a whole window, or what is left of the slice with `pad` behind it. -/
def paddedWindow (w : Nat) (pad : α) (slice : List α) (start : Nat) : Option (Vector α w) :=
  if start + w ≤ slice.length then loadSlice w ((slice.drop start).take w)
  else
    let rest := slice.drop start
    if rest.length ≤ w then loadSlice w (rest ++ List.replicate (w - rest.length) pad) else none

/-- A load of a slice of its own width succeeds. -/
theorem loadSlice_eq {slice : List α} (h : slice.length = w) : loadSlice w slice = some (Loops.arrayOf w slice) := if_pos h

/-- A slice of the length of a register is loaded element by element. -/
theorem loadSlice_spec {slice : List α} (h : slice.length = w) :
    ∃ v, loadSlice w slice = some v ∧ ∀ l < w, v[l]! = slice[l]! := by
  refine ⟨_, loadSlice_eq h, fun l hl => ?_⟩
  rw [getElem!_pos _ l hl, Loops.arrayOf, Vector.getElem_ofFn]

/-- A window inside a slice is loaded from its start on. -/
theorem loadSlice_window {slice : List α} {start : Nat} (h : start + w ≤ slice.length) :
    ∃ v, loadSlice w ((slice.drop start).take w) = some v ∧ ∀ l < w, v[l]! = slice[start + l]! := by
  have hlen : ((slice.drop start).take w).length = w := by
    rw [List.length_take, List.length_drop]
    omega
  obtain ⟨v, hload, hv⟩ := loadSlice_spec hlen
  refine ⟨v, hload, fun l hl => ?_⟩
  rw [hv l hl, getElem!_pos _ l (by omega), getElem!_pos slice _ (by omega), List.getElem_take, List.getElem_drop]

/-- A window padded with what lies past the end of the slice holds its positions, and no load leaves the slice. -/
theorem paddedWindow_spec (slice : List α) (start : Nat) : ∃ v, paddedWindow w default slice start = some v ∧
    ∀ l < w, v[l]! = slice[start + l]! := by
  unfold paddedWindow
  by_cases hfull : start + w ≤ slice.length
  · rw [if_pos hfull]
    exact loadSlice_window hfull
  · have hrest : (slice.drop start).length ≤ w := by
      rw [List.length_drop]
      omega
    have hlen : (slice.drop start ++ List.replicate (w - (slice.drop start).length) default).length = w := by
      rw [List.length_append, List.length_replicate]
      omega
    obtain ⟨v, hload, hv⟩ := loadSlice_spec hlen
    refine ⟨v, by rw [if_neg hfull, if_pos hrest, hload], fun l hl => ?_⟩
    rw [hv l hl, getElem!_pos _ l (by omega)]
    by_cases hin : l < (slice.drop start).length
    · have hpos : start + l < slice.length := by
        rw [List.length_drop] at hin
        omega
      rw [List.getElem_append_left hin, List.getElem_drop, getElem!_pos slice _ hpos]
    · have hpast : ¬start + l < slice.length := by
        rw [List.length_drop] at hin
        omega
      rw [List.getElem_append_right (by omega), List.getElem_replicate, getElem!_neg slice _ hpast]

/-- The array with the windows at `j k`, `j (k + 1)`, … replaced one after the other. -/
def storeAll (j : Nat → Nat) : List (Vector α w) → Nat → Vector α n → Vector α n
  | [], _, cs => cs
  | x :: xs, k, cs => storeAll j xs (k + 1) (store cs (j k) x)

/-- What lies in none of the windows stands. -/
theorem storeAll_outside {j : Nat → Nat} {i : Nat} (hi : i < n) (xs : List (Vector α w)) :
    ∀ (k : Nat) (cs : Vector α n),
      (∀ b < xs.length, i < j (k + b) ∨ j (k + b) + w ≤ i) → (storeAll j xs k cs)[i]! = cs[i]! := by
  induction xs with
  | nil => exact fun _ _ _ => rfl
  | cons x xs ih =>
    intro k cs h
    have hnext : ∀ b < xs.length, i < j (k + 1 + b) ∨ j (k + 1 + b) + w ≤ i := by
      intro b hb
      rw [Nat.add_assoc, Nat.add_comm 1]
      exact h (b + 1) (Nat.succ_lt_succ hb)
    rw [storeAll, ih _ _ hnext]
    exact store_outside _ _ _ _ hi (h 0 (Nat.zero_lt_succ _))

/-- Every window holds its register: the later windows are behind it. -/
theorem storeAll_inside {j : Nat → Nat} (hj : ∀ a b, a < b → j a + w ≤ j b) {l : Nat} (hl : l < w) (xs : List (Vector α w)) :
    ∀ (k b : Nat) (cs : Vector α n) (hb : b < xs.length),
      j (k + b) + l < n → (storeAll j xs k cs)[j (k + b) + l]! = xs[b][l] := by
  induction xs with
  | nil => exact fun _ b _ hb => absurd hb (Nat.not_lt_zero b)
  | cons x xs ih =>
    intro k b cs hb hn
    cases b with
    | zero =>
      have hbehind : ∀ b < xs.length, j k + l < j (k + 1 + b) ∨ j (k + 1 + b) + w ≤ j k + l := by
        intro b _
        have hlater := hj k (k + 1 + b) (by omega)
        omega
      rw [storeAll]
      exact (storeAll_outside hn _ _ _ hbehind).trans (store_inside _ _ _ _ hl hn)
    | succ b =>
      have hnext : k + (b + 1) = k + 1 + b := by omega
      rw [hnext] at hn ⊢
      rw [storeAll, ih _ b _ (Nat.lt_of_succ_lt_succ hb) hn]
      rfl

/-- A loop whose pass `b` writes the positions of slice `b` alone, from what the slice holds: every slice is written once. -/
theorem foldl_slices {step : Vector α n → Nat → Vector α n} {slice : Nat → Nat} {g : Vector α n → Nat → α} {stride m : Nat}
    (hstep : ∀ cs, ∀ b < m, ∀ p < n, (step cs (stride * b))[p]! = if slice p = b then g cs p else cs[p]!)
    (hg : ∀ cs d : Vector α n, ∀ p < n, (∀ i < n, slice i = slice p → cs[i]! = d[i]!) → g cs p = g d p)
    (hslice : ∀ p < n, slice p < m) (cs : Vector α n) :
    ∀ p < n, ((List.range' 0 m stride).foldl step cs)[p]! = g cs p := by
  have hpasses : ∀ b ≤ m, ∀ p < n,
    ((List.range' 0 b stride).foldl step cs)[p]! = if slice p < b then g cs p else cs[p]! := by
    intro b
    induction b with
    | zero =>
      intro _ p _
      rw [if_neg (Nat.not_lt_zero _)]
      rfl
    | succ b ih =>
      intro hb p hp
      rw [List.range'_concat, List.foldl_append, List.foldl_cons, List.foldl_nil, Nat.zero_add, hstep _ b hb p hp]
      by_cases hown : slice p = b
      · -- the slice of this pass still holds what it held at the start
        rw [if_pos hown, if_pos (by omega)]
        refine hg _ _ p hp fun i hi hsame => ?_
        rw [ih (by omega) i hi, if_neg (by omega)]
      · rw [if_neg hown, ih (by omega) p hp]
        have hlt : slice p < b ↔ slice p < b + 1 := by omega
        simp only [hlt]
  intro p hp
  rw [hpasses m (Nat.le_refl m) p hp, if_pos (hslice p hp)]

/-- The same for a loop that counts its slices. -/
theorem foldl_range_slices {step : Vector α n → Nat → Vector α n} {slice : Nat → Nat} {g : Vector α n → Nat → α} {m : Nat}
    (hstep : ∀ cs, ∀ b < m, ∀ p < n, (step cs b)[p]! = if slice p = b then g cs p else cs[p]!)
    (hg : ∀ cs d : Vector α n, ∀ p < n, (∀ i < n, slice i = slice p → cs[i]! = d[i]!) → g cs p = g d p)
    (hslice : ∀ p < n, slice p < m) (cs : Vector α n) : ∀ p < n, ((List.range m).foldl step cs)[p]! = g cs p := by
  rw [List.range_eq_range']
  exact foldl_slices (fun cs b hb p hp => by rw [Nat.one_mul]; exact hstep cs b hb p hp) hg hslice cs

/-- A loop that stores one window after the other: where the windows hold the entries of `F`, so does the array. -/
theorem foldl_store {f : Nat → Vector α w} {F : Nat → α} {m : Nat} (hw : 0 < w) (hm : w * m = n)
    (hf : ∀ i l, l < w → w * i + l < n → (f i)[l]! = F (w * i + l)) (out : Vector α n) :
    ∀ p < n, ((List.range m).foldl (fun out i => store out (w * i) (f i)) out)[p]! = F p := by
  have hstep : ∀ out : Vector α n, ∀ i < m, ∀ p < n,
      (store out (w * i) (f i))[p]! = if p / w = i then F p else out[p]! := by
    intro out i _ p hp
    have hin : (w * i ≤ p ∧ p < w * i + w) ↔ p / w = i := by
      rw [Nat.div_eq_iff hw, Nat.mul_comm i w]
      omega
    rw [store_getElem! _ _ _ _ hp]
    by_cases h : p / w = i
    · obtain ⟨hle, hlt⟩ := hin.mpr h
      have hpos : w * i + (p - w * i) = p := by omega
      rw [if_pos ⟨hle, hlt⟩, if_pos h, hf i _ (by omega) (by omega), hpos]
    · rw [if_neg fun h' => h (hin.mp h'), if_neg h]
  exact foldl_range_slices hstep (fun _ _ _ _ _ => rfl) (fun p hp => Nat.div_lt_of_lt_mul (by rw [hm]; exact hp)) out

/-- A loop that stores a window in each half of the array: the halves hold what their windows do. -/
theorem foldl_store_halves {f g : Nat → Vector α w} {F G : Nat → α} {m k : Nat} (hw : 0 < w) (hm : w * m = k)
    (hn : n = k + k)
    (hf : ∀ i l, l < w → w * i + l < k → (f i)[l]! = F (w * i + l))
    (hg : ∀ i l, l < w → w * i + l < k → (g i)[l]! = G (w * i + l)) (out : Vector α n) : ∀ p < n,
      ((List.range m).foldl (fun out i => store (store out (w * i) (f i)) (k + w * i) (g i)) out)[p]! =
        if p < k then F p else G (p - k) := by
  have hstep : ∀ out : Vector α n, ∀ i < m, ∀ p < n, (store (store out (w * i) (f i)) (k + w * i) (g i))[p]! =
      if p % k / w = i then if p < k then F p else G (p - k) else out[p]! := by
    intro out i hi p hp
    have hle := Nat.mul_le_mul_left w (Nat.succ_le_of_lt hi)
    rw [Nat.mul_succ, hm] at hle
    have hin : ∀ r, (w * i ≤ r ∧ r < w * i + w) ↔ r / w = i := fun r => by
      rw [Nat.div_eq_iff hw, Nat.mul_comm i w]
      omega
    rw [store_getElem! _ _ _ _ hp, store_getElem! _ _ _ _ hp]
    by_cases hlow : p < k
    · rw [Nat.mod_eq_of_lt hlow, if_neg (by omega), if_pos hlow]
      by_cases h : p / w = i
      · obtain ⟨hge, hlt⟩ := (hin p).mpr h
        have hpos : w * i + (p - w * i) = p := by omega
        rw [if_pos ⟨hge, hlt⟩, if_pos h, hf i _ (by omega) (by omega), hpos]
      · rw [if_neg fun h' => h ((hin p).mp h'), if_neg h]
    · have hmodk : p % k = p - k := by rw [Nat.mod_eq_sub_mod (by omega), Nat.mod_eq_of_lt (by omega)]
      have hshift : (k + w * i ≤ p ∧ p < k + w * i + w) ↔ (w * i ≤ p - k ∧ p - k < w * i + w) := by omega
      rw [hmodk, if_neg hlow]
      simp only [hshift]
      by_cases h : (p - k) / w = i
      · obtain ⟨hge, hlt⟩ := (hin (p - k)).mpr h
        have hpos : w * i + (p - (k + w * i)) = p - k := by omega
        rw [if_pos ⟨hge, hlt⟩, if_pos h, hg i _ (by omega) (by omega), hpos]
      · rw [if_neg fun h' => h ((hin _).mp h'), if_neg h, if_neg (by omega)]
  have hslice : ∀ p < n, p % k / w < m := fun p hp =>
    Nat.div_lt_of_lt_mul (by rw [hm]; exact Nat.mod_lt p (by omega))
  exact foldl_range_slices hstep (fun _ _ _ _ _ => rfl) hslice out

/-- A loop that stores two windows side by side. -/
theorem foldl_store_twice (f g : Nat → Vector α w) {m : Nat} (hw : 0 < w) (hm : 2 * w * m = n) (out : Vector α n) : ∀ p < n,
    ((List.range m).foldl (fun out i => store (store out (2 * w * i) (f i)) (2 * w * i + w) (g i)) out)[p]! =
      if p % (2 * w) < w then (f (p / (2 * w)))[p % (2 * w)]! else (g (p / (2 * w)))[p % (2 * w) - w]! := by
  have hstep : ∀ out : Vector α n, ∀ i < m, ∀ p < n, (store (store out (2 * w * i) (f i)) (2 * w * i + w) (g i))[p]! =
      if p / (2 * w) = i then
        if p % (2 * w) < w then (f (p / (2 * w)))[p % (2 * w)]! else (g (p / (2 * w)))[p % (2 * w) - w]!
      else out[p]! := by
    intro out i _ p hp
    have hin : (2 * w * i ≤ p ∧ p < 2 * w * i + 2 * w) ↔ p / (2 * w) = i := by
      rw [Nat.div_eq_iff (by omega), Nat.mul_comm i (2 * w)]
      omega
    rw [store_getElem! _ _ _ _ hp, store_getElem! _ _ _ _ hp]
    by_cases h : p / (2 * w) = i
    · have hmod : p % (2 * w) = p - 2 * w * i := by rw [← h, Nat.mod_eq_sub_mul_div]
      obtain ⟨h1, h2⟩ := hin.mpr h
      rw [if_pos h, hmod, h]
      by_cases hlow : p - 2 * w * i < w
      · rw [if_neg (by omega), if_pos ⟨h1, by omega⟩, if_pos hlow]
      · have hsub : p - (2 * w * i + w) = p - 2 * w * i - w := by omega
        rw [if_pos ⟨by omega, by omega⟩, if_neg hlow, hsub]
    · have hout : ¬(2 * w * i ≤ p ∧ p < 2 * w * i + 2 * w) := fun h' => h (hin.mp h')
      rw [if_neg (by omega), if_neg (by omega), if_neg h]
  exact foldl_range_slices hstep (fun _ _ _ _ _ => rfl) (fun p hp => Nat.div_lt_of_lt_mul (by rw [hm]; exact hp)) out

/-- A loop that updates two windows side by side, each from what it holds. -/
theorem foldl_update_twice {step : Vector α n → Nat → Vector α n} {f g : Nat → Vector α w → Vector α w}
    {F G : Nat → Nat → α → α}
    {m : Nat} (hupdate : ∀ cs, ∀ i < m,
      step cs i = store (store cs (2 * w * i) (f i (load w cs (2 * w * i)))) (2 * w * i + w)
      (g i (load w cs (2 * w * i + w))))
    (hf : ∀ i v l, l < w → (f i v)[l]! = F i l v[l]!) (hg : ∀ i v l, l < w → (g i v)[l]! = G i l v[l]!) (hw : 0 < w)
    (hm : 2 * w * m = n) (cs : Vector α n) : ∀ p < n, ((List.range m).foldl step cs)[p]! =
      if p % (2 * w) < w then F (p / (2 * w)) (p % (2 * w)) cs[p]! else G (p / (2 * w)) (p % (2 * w) - w) cs[p]! := by
  have hstep : ∀ cs : Vector α n, ∀ i < m, ∀ p < n, (step cs i)[p]! = if p / (2 * w) = i then
      if p % (2 * w) < w then F (p / (2 * w)) (p % (2 * w)) cs[p]! else G (p / (2 * w)) (p % (2 * w) - w) cs[p]!
      else cs[p]! := by
    intro cs i hi p hp
    rw [hupdate cs i hi]
    have hin : (2 * w * i ≤ p ∧ p < 2 * w * i + 2 * w) ↔ p / (2 * w) = i := by
      rw [Nat.div_eq_iff (by omega), Nat.mul_comm i (2 * w)]
      omega
    rw [store_getElem! _ _ _ _ hp, store_getElem! _ _ _ _ hp]
    by_cases h : p / (2 * w) = i
    · have hmod : p % (2 * w) = p - 2 * w * i := by rw [← h, Nat.mod_eq_sub_mul_div]
      obtain ⟨h1, h2⟩ := hin.mpr h
      rw [if_pos h, hmod, h]
      by_cases hlow : p - 2 * w * i < w
      · rw [if_neg (by omega), if_pos ⟨h1, by omega⟩, if_pos hlow, hf _ _ _ hlow, load_getElem! _ _ _ hlow,
          Nat.add_sub_cancel' h1]
      · have hsub : p - (2 * w * i + w) = p - 2 * w * i - w := by omega
        have hback : 2 * w * i + w + (p - 2 * w * i - w) = p := by omega
        rw [if_pos ⟨by omega, by omega⟩, if_neg hlow, hsub, hg _ _ _ (by omega), load_getElem! _ _ _ (by omega), hback]
    · have hout : ¬(2 * w * i ≤ p ∧ p < 2 * w * i + 2 * w) := fun h' => h (hin.mp h')
      rw [if_neg (by omega), if_neg (by omega), if_neg h]
  exact foldl_range_slices hstep (fun _ _ p hp h => by rw [h p hp rfl])
    (fun p hp => Nat.div_lt_of_lt_mul (by rw [hm]; exact hp)) cs

/-- A loop that maps one window after the other maps the array. -/
theorem foldl_windows_map (f : α → α) {m : Nat} (hw : 0 < w) (hm : w * m = n) (cs : Vector α n) :
    (List.range' 0 m w).foldl (fun cs j => store cs j ((load w cs j).map f)) cs = cs.map f := by
  have hstep : ∀ cs : Vector α n, ∀ b < m, ∀ p < n,
      (store cs (w * b) ((load w cs (w * b)).map f))[p]! = if p / w = b then f cs[p]! else cs[p]! := by
    intro cs b _ p hp
    rw [store_getElem! _ _ _ _ hp]
    have hin : (w * b ≤ p ∧ p < w * b + w) ↔ p / w = b := by
      rw [Nat.div_eq_iff hw, Nat.mul_comm b w]
      omega
    by_cases h : p / w = b
    · obtain ⟨h1, h2⟩ := hin.mpr h
      rw [if_pos h, if_pos ⟨h1, h2⟩, getElem!_pos _ (p - w * b) (by omega), Vector.getElem_map, load_getElem,
        Nat.add_sub_cancel' h1]
    · rw [if_neg h, if_neg fun h' => h (hin.mp h')]
  have hslice : ∀ p < n, p / w < m := fun p hp => Nat.div_lt_of_lt_mul (by rw [hm]; exact hp)
  refine Butterfly.ext_getElem! fun p hp => ?_
  rw [foldl_slices hstep (fun cs d p hp h => by rw [h p hp rfl]) hslice cs p hp, getElem!_pos cs p hp, getElem!_pos _ p hp,
    Vector.getElem_map]

/-- Butterflies on a window and the window `len` behind it. -/
def windowPair (f : α → α → α × α) (w len : Nat) (cs : Vector α n) (j : Nat) : Vector α n :=
  store (store cs j (Vector.zipWith (fun x y => (f x y).1) (load w cs j) (load w cs (j + len)))) (j + len)
    (Vector.zipWith (fun x y => (f x y).2) (load w cs j) (load w cs (j + len)))

/-- Windows that do not overlap hold what the pairs one by one leave. -/
theorem windowPair_eq (f : α → α → α × α) {len j : Nat} (hw : w ≤ len) (cs : Vector α n) (hn : j + len + w ≤ n) :
    windowPair f w len cs j = (List.range' j w).foldl (Butterfly.pair f len) cs := by
  refine Butterfly.ext_getElem! fun i hi => ?_
  rw [Butterfly.block_prefix_getElem! f len j cs w hw hn i hi, windowPair, store_getElem! _ _ _ _ hi]
  by_cases hup : j + len ≤ i ∧ i < j + len + w
  · obtain ⟨h1, h2⟩ := hup
    rw [if_pos ⟨h1, h2⟩, if_neg (by omega), if_pos ⟨h1, h2⟩, getElem!_pos _ (i - (j + len)) (by omega),
      Vector.getElem_zipWith,
      load_getElem, load_getElem, Nat.add_sub_cancel' h1, show j + (i - (j + len)) = i - len by omega]
  · rw [if_neg hup, if_neg hup, store_getElem! _ _ _ _ hi]
    by_cases hlo : j ≤ i ∧ i < j + w
    · obtain ⟨h1, h2⟩ := hlo
      rw [if_pos ⟨h1, h2⟩, if_pos ⟨h1, h2⟩, getElem!_pos _ (i - j) (by omega), Vector.getElem_zipWith, load_getElem,
        load_getElem, Nat.add_sub_cancel' h1, show j + len + (i - j) = i + len by omega]
    · rw [if_neg hlo, if_neg hlo]

/-- A block taken window by window. -/
theorem foldl_windowPair (f : α → α → α × α) {len start : Nat} (hw : w ≤ len) (cs : Vector α n) :
    ∀ m, start + len + w * m ≤ n → (List.range' start m w).foldl (windowPair f w len) cs =
      (List.range' start (w * m)).foldl (Butterfly.pair f len) cs := by
  intro m
  induction m with
  | zero => exact fun _ => rfl
  | succ m ih =>
    intro hn
    rw [Nat.mul_succ] at hn
    rw [List.range'_concat, List.foldl_append, ih (by omega), List.foldl_cons, List.foldl_nil,
      windowPair_eq f hw _ (by omega), ← List.foldl_append, Nat.mul_succ]
    congr 1
    exact List.range'_append_1

end Windows

end Lanes
