import MlkemSelkie.Lib.Lanes

/-!
# NEON registers

The instructions of the vector unit on signed lanes, with the lane semantics that the architecture documents: wrapping
sums and products, saturating doubling products, widening and narrowing moves between a register of words and two halves
of double words.
-/

namespace NeonLanes

open SignedWords Lanes

/-! ## Lanes -/

/-- The high half of the doubled product, rounded and saturated. -/
def qrdmulh16 (x y : Int16) : Int16 := saturate16 ((2 * (x.toInt * y.toInt) + 2 ^ 15) / 2 ^ 16)

/-- The high half of the doubled product of double words, rounded and saturated. -/
def qrdmulh32 (x y : Int32) : Int32 := saturate32 ((2 * (x.toInt * y.toInt) + 2 ^ 31) / 2 ^ 32)

/-- The shift by a signed amount, the low byte of the second operand: to the left, or to the right when it is negative. -/
def shl32 (x s : Int32) : Int32 :=
  if 0 ≤ s.toInt8.toInt then Int32.ofInt (x.toInt * 2 ^ s.toInt8.toInt.toNat)
  else Int32.ofInt (x.toInt / 2 ^ (-s.toInt8.toInt).toNat)

/-- Only the product of two smallest words saturates: with another multiplier the high half is the product shifted by 15
bits and rounded. -/
theorem qrdmulh16_eq (x : Int16) {y : Int16} (hy : -32768 < y.toInt) :
    qrdmulh16 x y = ((x.toInt32 * y.toInt32 + 0x4000) >>> 15).toInt16 := by
  obtain ⟨hx1, hx2⟩ := fits16_toInt x
  obtain ⟨hy1, hy2⟩ := fits16_toInt y
  have hhalf : (0x4000 : Int32).toInt = 16384 := by decide
  have hp : (x.toInt * y.toInt).natAbs ≤ 32768 * 32767 := by
    rw [Int.natAbs_mul]
    exact Nat.mul_le_mul (by omega) (by omega)
  have hsum : (x.toInt32 * y.toInt32 + 0x4000).toInt = x.toInt * y.toInt + 16384 := by
    rw [toInt_add32 (by rw [toInt_mul_widened, hhalf, Fits32]; omega), toInt_mul_widened, hhalf]
  have hshift : ((x.toInt32 * y.toInt32 + 0x4000) >>> 15).toInt = (x.toInt * y.toInt + 16384) / 32768 := by
    rw [toInt_shiftRight _ _ 15 (by decide), hsum]
    rfl
  have hfits : Fits16 ((x.toInt * y.toInt + 16384) / 32768) := by
    rw [Fits16]
    omega
  have hquot : (2 * (x.toInt * y.toInt) + 2 ^ 15) / 2 ^ 16 = (x.toInt * y.toInt + 16384) / 32768 := by omega
  apply Int16.toInt_inj.mp
  rw [qrdmulh16, hquot, saturate16_toInt hfits, toInt_narrow (by rwa [hshift]), hshift]

/-! ## The instructions -/

section Instructions

variable {w : Nat}

/-- `vdup_n_s16`, `vdupq_n_s16`: one word in every lane. -/
def vdupNS16 (a : Int16) : Vector Int16 w := Vector.replicate w a

/-- `vdupq_n_s32`. -/
def vdupNS32 (a : Int32) : Vector Int32 w := Vector.replicate w a

/-- `vaddq_s16`: the wrapping sum. -/
def vaddS16 (a b : Vector Int16 w) : Vector Int16 w := Vector.zipWith (fun x y => x + y) a b

/-- `vsubq_s16`: the wrapping difference. -/
def vsubS16 (a b : Vector Int16 w) : Vector Int16 w := Vector.zipWith (fun x y => x - y) a b

/-- `vmul_s16`, `vmulq_s16`: the wrapping product. -/
def vmulS16 (a b : Vector Int16 w) : Vector Int16 w := Vector.zipWith (fun x y => x * y) a b

/-- `vandq_s16`. -/
def vandS16 (a b : Vector Int16 w) : Vector Int16 w := Vector.zipWith (fun x y => x &&& y) a b

/-- `vmlsq_s16`: the wrapping difference with a product. -/
def vmlsS16 (a b d : Vector Int16 w) : Vector Int16 w := vsubS16 a (vmulS16 b d)

/-- `vqrdmulhq_s16`. -/
def vqrdmulhS16 (a b : Vector Int16 w) : Vector Int16 w := Vector.zipWith qrdmulh16 a b

/-- `vshrq_n_s16`: the arithmetic shift by a constant. -/
def vshrNS16 (n : Int16) (a : Vector Int16 w) : Vector Int16 w := a.map fun x => x >>> n

/-- `vsubq_s32`. -/
def vsubS32 (a b : Vector Int32 w) : Vector Int32 w := Vector.zipWith (fun x y => x - y) a b

/-- `vandq_s32`. -/
def vandS32 (a b : Vector Int32 w) : Vector Int32 w := Vector.zipWith (fun x y => x &&& y) a b

/-- `vmulq_n_s32`: the wrapping product with a constant. -/
def vmulNS32 (a : Vector Int32 w) (b : Int32) : Vector Int32 w := a.map fun x => x * b

/-- `vmlaq_n_s32`: the wrapping sum with a product. -/
def vmlaNS32 (a b : Vector Int32 w) (d : Int32) : Vector Int32 w := Vector.zipWith (fun x y => x + y * d) a b

/-- `vqrdmulhq_s32`. -/
def vqrdmulhS32 (a b : Vector Int32 w) : Vector Int32 w := Vector.zipWith qrdmulh32 a b

/-- `vshlq_s32`. -/
def vshlS32 (a s : Vector Int32 w) : Vector Int32 w := Vector.zipWith shl32 a s

/-- `vshrq_n_s32`. -/
def vshrNS32 (n : Int32) (a : Vector Int32 w) : Vector Int32 w := a.map fun x => x >>> n

/-- `vmovl_s16`: every word as a double word. -/
def vmovlS16 (a : Vector Int16 w) : Vector Int32 w := a.map Int16.toInt32

/-- `vmovn_s32`: the low half of every double word. -/
def vmovnS32 (a : Vector Int32 w) : Vector Int16 w := a.map Int32.toInt16

/-- `vshrn_n_s32`: the low half of every shifted double word. -/
def vshrnNS32 (n : Int32) (a : Vector Int32 w) : Vector Int16 w := a.map fun x => (x >>> n).toInt16

/-- `vmull_s16`: the whole products. -/
def vmullS16 (a b : Vector Int16 w) : Vector Int32 w := Vector.zipWith (fun x y => x.toInt32 * y.toInt32) a b

/-- `vmlal_s16`: the wrapping sum with the whole products. -/
def vmlalS16 (a : Vector Int32 w) (b d : Vector Int16 w) : Vector Int32 w :=
  Vector.zipWith (fun x y => x + y) a (vmullS16 b d)

variable (a b d : Vector Int16 w) (e f : Vector Int32 w) (x : Int16) (y : Int32) (l : Nat) (hl : l < w)

/-- Every lane of a duplicated word. -/
@[simp] theorem vdupNS16_getElem : (vdupNS16 x : Vector Int16 w)[l] = x := Vector.getElem_replicate hl

@[simp] theorem vdupNS32_getElem : (vdupNS32 y : Vector Int32 w)[l] = y := Vector.getElem_replicate hl

/-- A lane of the wrapping sum. -/
@[simp] theorem vaddS16_getElem : (vaddS16 a b)[l] = a[l] + b[l] := Vector.getElem_zipWith hl

@[simp] theorem vsubS16_getElem : (vsubS16 a b)[l] = a[l] - b[l] := Vector.getElem_zipWith hl

/-- A lane of the low product. -/
@[simp] theorem vmulS16_getElem : (vmulS16 a b)[l] = a[l] * b[l] := Vector.getElem_zipWith hl

@[simp] theorem vandS16_getElem : (vandS16 a b)[l] = a[l] &&& b[l] := Vector.getElem_zipWith hl

/-- A lane of multiply and subtract. -/
@[simp] theorem vmlsS16_getElem : (vmlsS16 a b d)[l] = a[l] - b[l] * d[l] := by
  rw [vmlsS16, vsubS16_getElem, vmulS16_getElem]

/-- A lane of the rounded doubling high product. -/
@[simp] theorem vqrdmulhS16_getElem : (vqrdmulhS16 a b)[l] = qrdmulh16 a[l] b[l] := Vector.getElem_zipWith hl

/-- A lane shifted right. -/
@[simp] theorem vshrNS16_getElem : (vshrNS16 x a)[l] = a[l] >>> x := Vector.getElem_map _ hl

@[simp] theorem vsubS32_getElem : (vsubS32 e f)[l] = e[l] - f[l] := Vector.getElem_zipWith hl

@[simp] theorem vandS32_getElem : (vandS32 e f)[l] = e[l] &&& f[l] := Vector.getElem_zipWith hl

/-- A double-word lane times a scalar. -/
@[simp] theorem vmulNS32_getElem : (vmulNS32 e y)[l] = e[l] * y := Vector.getElem_map _ hl

/-- A double-word lane of multiply and add, the factor a scalar. -/
@[simp] theorem vmlaNS32_getElem : (vmlaNS32 e f y)[l] = e[l] + f[l] * y := Vector.getElem_zipWith hl

/-- A double-word lane of the rounded doubling high product. -/
@[simp] theorem vqrdmulhS32_getElem : (vqrdmulhS32 e f)[l] = qrdmulh32 e[l] f[l] := Vector.getElem_zipWith hl

/-- A double-word lane shifted by the lane of another register. -/
@[simp] theorem vshlS32_getElem : (vshlS32 e f)[l] = shl32 e[l] f[l] := Vector.getElem_zipWith hl

@[simp] theorem vshrNS32_getElem : (vshrNS32 y e)[l] = e[l] >>> y := Vector.getElem_map _ hl

/-- A lane widened. -/
@[simp] theorem vmovlS16_getElem : (vmovlS16 a)[l] = a[l].toInt32 := Vector.getElem_map _ hl

/-- A double-word lane narrowed. -/
@[simp] theorem vmovnS32_getElem : (vmovnS32 e)[l] = e[l].toInt16 := Vector.getElem_map _ hl

/-- A double-word lane shifted right and narrowed. -/
@[simp] theorem vshrnNS32_getElem : (vshrnNS32 y e)[l] = (e[l] >>> y).toInt16 := Vector.getElem_map _ hl

/-- A lane of the widening product. -/
@[simp] theorem vmullS16_getElem : (vmullS16 a b)[l] = a[l].toInt32 * b[l].toInt32 := Vector.getElem_zipWith hl

/-- A lane of the widening multiply and add. -/
@[simp] theorem vmlalS16_getElem : (vmlalS16 e a b)[l] = e[l] + a[l].toInt32 * b[l].toInt32 := by
  rw [vmlalS16, Vector.getElem_zipWith, vmullS16_getElem]

end Instructions

/-! ## The halves of a register -/

section Halves

/-- `vget_low_s16`: the four low lanes. -/
def vgetLowS16 (a : Vector Int16 8) : Vector Int16 4 := Vector.ofFn fun l => a[l.val]!

/-- The four high lanes. -/
def vgetHighS16 (a : Vector Int16 8) : Vector Int16 4 := Vector.ofFn fun l => a[4 + l.val]!

/-- `vcombine_s16`: a register from its low and its high lanes. -/
def vcombineS16 (lo hi : Vector Int16 4) : Vector Int16 8 :=
  Vector.ofFn fun l => if l.val < 4 then lo[l.val]! else hi[l.val - 4]!

/-- `vmovl_high_s16`: the high words as double words. -/
def vmovlHighS16 (a : Vector Int16 8) : Vector Int32 4 := vmovlS16 (vgetHighS16 a)

/-- `vmull_high_s16`: the whole products of the high words. -/
def vmullHighS16 (a b : Vector Int16 8) : Vector Int32 4 := vmullS16 (vgetHighS16 a) (vgetHighS16 b)

/-- `vmlal_high_s16`: the wrapping sums with the whole products of the high words. -/
def vmlalHighS16 (e : Vector Int32 4) (a b : Vector Int16 8) : Vector Int32 4 :=
  vmlalS16 e (vgetHighS16 a) (vgetHighS16 b)

variable (a b : Vector Int16 8) (e : Vector Int32 4) (l : Nat) (hl : l < 4)

@[simp] theorem vgetLowS16_getElem : (vgetLowS16 a)[l] = a[l]! := Vector.getElem_ofFn hl

@[simp] theorem vgetHighS16_getElem : (vgetHighS16 a)[l] = a[4 + l]! := Vector.getElem_ofFn hl

/-- Widening the high half. -/
@[simp] theorem vmovlHighS16_getElem : (vmovlHighS16 a)[l] = a[4 + l]!.toInt32 := by
  rw [vmovlHighS16, vmovlS16_getElem, vgetHighS16_getElem]

/-- The widening product of the high halves. -/
@[simp] theorem vmullHighS16_getElem : (vmullHighS16 a b)[l] = a[4 + l]!.toInt32 * b[4 + l]!.toInt32 := by
  rw [vmullHighS16, vmullS16_getElem, vgetHighS16_getElem, vgetHighS16_getElem]

/-- The widening multiply and add of the high halves. -/
@[simp] theorem vmlalHighS16_getElem : (vmlalHighS16 e a b)[l] = e[l] + a[4 + l]!.toInt32 * b[4 + l]!.toInt32 := by
  rw [vmlalHighS16, vmlalS16_getElem, vgetHighS16_getElem, vgetHighS16_getElem]

/-- A register combined from halves that compute one function of the lane computes it. -/
theorem vcombineS16_getElem {lo hi : Vector Int16 4} {g : Nat → Int16} (hlo : ∀ l (hl : l < 4), lo[l] = g l)
    (hhi : ∀ l (hl : l < 4), hi[l] = g (4 + l)) (l : Nat) (hl : l < 8) : (vcombineS16 lo hi)[l] = g l := by
  rw [vcombineS16, Vector.getElem_ofFn]
  by_cases h : l < 4
  · rw [if_pos h, getElem!_pos lo l h, hlo l h]
  · have hsub : l - 4 < 4 := by omega
    have hadd : 4 + (l - 4) = l := by omega
    rw [if_neg h, getElem!_pos hi (l - 4) hsub, hhi (l - 4) hsub, hadd]

end Halves

/-! ## Lanes without a sign -/

section Unsigned

variable {w n : Nat}

/-- The shift of a word by a signed amount, the low byte of the second operand. -/
def shlU16 (x : UInt16) (s : Int16) : UInt16 :=
  if 0 ≤ s.toInt8.toInt then UInt16.ofNat (x.toNat * 2 ^ s.toInt8.toInt.toNat)
  else UInt16.ofNat (x.toNat / 2 ^ (-s.toInt8.toInt).toNat)

/-- The same shift of a double word. -/
def shlU32 (x : UInt32) (s : Int32) : UInt32 :=
  if 0 ≤ s.toInt8.toInt then UInt32.ofNat (x.toNat * 2 ^ s.toInt8.toInt.toNat)
  else UInt32.ofNat (x.toNat / 2 ^ (-s.toInt8.toInt).toNat)

/-- A count that is not negative shifts left, out of the word. -/
theorem shlU16_left {x : UInt16} {s : Int16} {t : Nat} (hs : s.toInt8.toInt = t) :
    (shlU16 x s).toNat = x.toNat <<< t % 2 ^ 16 := by
  rw [shlU16, hs, if_pos (Int.natCast_nonneg t), Int.toNat_natCast, UInt16.toNat_ofNat', Nat.shiftLeft_eq]

/-- A negative count shifts right. -/
theorem shlU16_right {x : UInt16} {s : Int16} {t : Nat} (hs : s.toInt8.toInt = -(t : Int)) :
    (shlU16 x s).toNat = x.toNat >>> t := by
  have hlt : x.toNat >>> t < 2 ^ 16 := Nat.lt_of_le_of_lt (Nat.shiftRight_le _ _) x.toNat_lt
  rcases Nat.eq_zero_or_pos t with rfl | ht
  · rw [shlU16_left (t := 0) hs, Nat.shiftLeft_zero, Nat.mod_eq_of_lt x.toNat_lt, Nat.shiftRight_zero]
  · rw [shlU16, hs, if_neg (by omega), Int.neg_neg, Int.toNat_natCast, UInt16.toNat_ofNat', ← Nat.shiftRight_eq_div_pow,
      Nat.mod_eq_of_lt hlt]

/-- A negative count shifts a double word right. -/
theorem shlU32_right {x : UInt32} {s : Int32} {t : Nat} (hs : s.toInt8.toInt = -(t : Int)) :
    (shlU32 x s).toNat = x.toNat >>> t := by
  have hlt : x.toNat >>> t < 2 ^ 32 := Nat.lt_of_le_of_lt (Nat.shiftRight_le _ _) x.toNat_lt
  rcases Nat.eq_zero_or_pos t with rfl | ht
  · have hzero : (-((0 : Nat) : Int)).toNat = 0 := rfl
    rw [shlU32, hs, if_pos (by decide), hzero, Nat.pow_zero, Nat.mul_one, UInt32.toNat_ofNat', Nat.mod_eq_of_lt x.toNat_lt,
      Nat.shiftRight_zero]
  · rw [shlU32, hs, if_neg (by omega), Int.neg_neg, Int.toNat_natCast, UInt32.toNat_ofNat', ← Nat.shiftRight_eq_div_pow,
      Nat.mod_eq_of_lt hlt]

/-- `vqtbl1q_u8`: the byte of the table that every index selects, zero past the table. -/
def vqtbl1qU8 (table idx : Vector UInt8 16) : Vector UInt8 16 := Vector.ofFn fun l =>
  if idx[l].toNat < 16 then table[idx[l].toNat]! else 0

/-- `vdupq_n_u8`, `vdupq_n_u16`, `vdupq_n_u32`. -/
def vdupNU {α : Type} (a : α) : Vector α w := Vector.replicate w a

/-- `vandq_u8`, `vandq_u16`, `vandq_u32`. -/
def vandU {α : Type} [AndOp α] (a b : Vector α w) : Vector α w := Vector.zipWith (fun x y => x &&& y) a b

/-- `vorrq_u16`. -/
def vorrU16 (a b : Vector UInt16 w) : Vector UInt16 w := Vector.zipWith (fun x y => x ||| y) a b

/-- `vshlq_u16`. -/
def vshlU16 (a : Vector UInt16 w) (s : Vector Int16 w) : Vector UInt16 w := Vector.zipWith shlU16 a s

/-- `vshlq_u32`. -/
def vshlU32 (a : Vector UInt32 w) (s : Vector Int32 w) : Vector UInt32 w := Vector.zipWith shlU32 a s

/-- `vshrq_n_u8`: the logical shift of the bytes by a constant. -/
def vshrNU8 (imm : Nat) (a : Vector UInt8 w) : Vector UInt8 w := a.map fun x => UInt8.ofNat (x.toNat >>> imm)

/-- `vmovn_u16`: the low half of every word. -/
def vmovnU16 (a : Vector UInt16 w) : Vector UInt8 w := a.map UInt16.toUInt8

/-- `vmovn_u32`: the low half of every double word. -/
def vmovnU32 (a : Vector UInt32 w) : Vector UInt16 w := a.map UInt32.toUInt16

/-- `vmovl_u8`: every byte as a word. -/
def vmovlU8 (a : Vector UInt8 w) : Vector UInt16 w := a.map UInt8.toUInt16

/-- `vget_low_u8`. -/
def vgetLowU8 (a : Vector UInt8 16) : Vector UInt8 8 := Vector.ofFn fun l => a[l.val]!

/-- `vmovl_high_u8`: the high bytes as words. -/
def vmovlHighU8 (a : Vector UInt8 16) : Vector UInt16 8 := vmovlU8 (Vector.ofFn fun l => a[8 + l.val]!)

/-- `vcltq_u16`: all ones in the lanes where the first operand is the smaller one. -/
def vcltU16 (a b : Vector UInt16 w) : Vector UInt16 w := Vector.zipWith (fun x y => if x < y then 0xFFFF else 0) a b

/-- `vaddv_u8`: the wrapping sum of the lanes. -/
def vaddvU8 (a : Vector UInt8 w) : UInt8 := a.toList.sum

/-- `vcombine_u16`. -/
def vcombineU16 (lo hi : Vector UInt16 4) : Vector UInt16 8 :=
  Vector.ofFn fun l => if l.val < 4 then lo[l.val]! else hi[l.val - 4]!

/-- `vzip1q_u8`: the low bytes of two registers in turn. -/
def vzip1U8 (a b : Vector UInt8 16) : Vector UInt8 16 :=
  Vector.ofFn fun l => if l.val % 2 = 0 then a[l.val / 2]! else b[l.val / 2]!

/-- `vzip2q_u8`: the high bytes of two registers in turn. -/
def vzip2U8 (a b : Vector UInt8 16) : Vector UInt8 16 :=
  Vector.ofFn fun l => if l.val % 2 = 0 then a[8 + l.val / 2]! else b[8 + l.val / 2]!

/-- An index below 16 selects a byte of the table. -/
theorem vqtbl1qU8_getElem! (table idx : Vector UInt8 16) {j k : Nat} (hj : j < 16) (hidx : idx[j]!.toNat = k) (hk : k < 16) :
    (vqtbl1qU8 table idx)[j]! = table[k]! := by
  rw [getElem!_pos idx j hj] at hidx
  rw [getElem!_pos _ j hj, vqtbl1qU8, Vector.getElem_ofFn]
  simp only [Loops.getElem_fin, hidx]
  exact if_pos hk

/-- An index from 16 on selects zero. -/
theorem vqtbl1qU8_zero (table idx : Vector UInt8 16) {j : Nat} (hj : j < 16) (hidx : 16 ≤ idx[j]!.toNat) :
    (vqtbl1qU8 table idx)[j]! = 0 := by
  rw [getElem!_pos idx j hj] at hidx
  rw [getElem!_pos _ j hj, vqtbl1qU8, Vector.getElem_ofFn, Loops.getElem_fin, if_neg (Nat.not_lt.mpr hidx)]

/-- Widening the low half of the bytes. -/
theorem vmovlU8_low (a : Vector UInt8 16) (l : Nat) (hl : l < 8) : (vmovlU8 (vgetLowU8 a))[l]! = a[l]!.toUInt16 := by
  rw [vmovlU8, getElem!_map _ _ l hl, vgetLowU8, getElem!_pos _ l hl, Vector.getElem_ofFn]

/-- Widening the high half of the bytes. -/
theorem vmovlHighU8_getElem! (a : Vector UInt8 16) (l : Nat) (hl : l < 8) : (vmovlHighU8 a)[l]! = a[8 + l]!.toUInt16 := by
  rw [vmovlHighU8, vmovlU8, getElem!_map _ _ l hl, getElem!_pos _ l hl, Vector.getElem_ofFn]

/-- The first interleaving takes the low halves in turns. -/
theorem vzip1U8_getElem! (a b : Vector UInt8 16) (l : Nat) (hl : l < 16) :
    (vzip1U8 a b)[l]! = if l % 2 = 0 then a[l / 2]! else b[l / 2]! := by
  rw [getElem!_pos _ l hl, vzip1U8, Vector.getElem_ofFn]

/-- The second one takes the high halves. -/
theorem vzip2U8_getElem! (a b : Vector UInt8 16) (l : Nat) (hl : l < 16) :
    (vzip2U8 a b)[l]! = if l % 2 = 0 then a[8 + l / 2]! else b[8 + l / 2]! := by
  rw [getElem!_pos _ l hl, vzip2U8, Vector.getElem_ofFn]

variable (a b : Vector UInt16 w) (l : Nat) (hl : l < w)

@[simp] theorem vdupNU_getElem {α : Type} (x : α) : (vdupNU x : Vector α w)[l] = x := Vector.getElem_replicate hl

@[simp] theorem vandU_getElem {α : Type} [AndOp α] (a b : Vector α w) : (vandU a b)[l] = a[l] &&& b[l] :=
  Vector.getElem_zipWith hl

@[simp] theorem vorrU16_getElem : (vorrU16 a b)[l] = a[l] ||| b[l] := Vector.getElem_zipWith hl

/-- An unsigned lane shifted by a signed count. -/
@[simp] theorem vshlU16_getElem (s : Vector Int16 w) : (vshlU16 a s)[l] = shlU16 a[l] s[l] := Vector.getElem_zipWith hl

/-- An unsigned double-word lane shifted by a signed count. -/
@[simp] theorem vshlU32_getElem (e : Vector UInt32 w) (s : Vector Int32 w) : (vshlU32 e s)[l] = shlU32 e[l] s[l] :=
  Vector.getElem_zipWith hl

/-- An unsigned lane narrowed to a byte. -/
@[simp] theorem vmovnU16_getElem : (vmovnU16 a)[l] = a[l].toUInt8 := Vector.getElem_map _ hl

@[simp] theorem vmovnU32_getElem (e : Vector UInt32 w) : (vmovnU32 e)[l] = e[l].toUInt16 := Vector.getElem_map _ hl

end Unsigned

/-! ## Two registers at once -/

section Pairs

variable {α : Type} [Inhabited α] {n : Nat}

/-- `vld2q_s16`: the even and the odd positions of sixteen, each in a register. -/
def vld2 (cs : Vector α n) (j : Nat) : Vector α 8 × Vector α 8 :=
  (Vector.ofFn fun l => cs[j + 2 * l.val]!, Vector.ofFn fun l => cs[j + (2 * l.val + 1)]!)

/-- Two registers, their lanes in turn. -/
def interleave (x : Vector α 8 × Vector α 8) : Vector α 16 :=
  Vector.ofFn fun l => if l.val % 2 = 0 then x.1[l.val / 2]! else x.2[l.val / 2]!

/-- `vst2q_s16`: the lanes of two registers in turn. -/
def vst2 (cs : Vector α n) (j : Nat) (x : Vector α 8 × Vector α 8) : Vector α n := Lanes.store cs j (interleave x)

/-- The first register of a deinterleaving load holds the even entries. -/
theorem vld2_fst (cs : Vector α n) (j l : Nat) (hl : l < 8) : (vld2 cs j).1[l]! = cs[j + 2 * l]! := by
  rw [getElem!_pos _ l hl, vld2, Vector.getElem_ofFn]

/-- The second one holds the odd entries. -/
theorem vld2_snd (cs : Vector α n) (j l : Nat) (hl : l < 8) : (vld2 cs j).2[l]! = cs[j + (2 * l + 1)]! := by
  rw [getElem!_pos _ l hl, vld2, Vector.getElem_ofFn]

/-- A loop that stores the lanes of two registers in turn. -/
theorem foldl_vst2 (x : Nat → Vector α 8 × Vector α 8) {m : Nat} (hm : 16 * m = n) (out : Vector α n) : ∀ p < n,
    ((List.range m).foldl (fun out i => vst2 out (16 * i) (x i)) out)[p]! =
      if p % 2 = 0 then (x (p / 16)).1[p % 16 / 2]! else (x (p / 16)).2[p % 16 / 2]! := by
  refine Lanes.foldl_store (by decide) hm (fun i l hl _ => ?_) out
  have hparity : (16 * i + l) % 2 = l % 2 := by omega
  have hwindow : (16 * i + l) / 16 = i := by omega
  have hlane : (16 * i + l) % 16 = l := by omega
  rw [getElem!_pos (interleave (x i)) l hl, interleave, Vector.getElem_ofFn, hparity, hwindow, hlane]

end Pairs

end NeonLanes
