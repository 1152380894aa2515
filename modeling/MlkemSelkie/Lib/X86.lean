import MlkemSelkie.Lib.Lanes

/-!
# Vector registers of an x86 processor

The instructions that move lanes and those on lanes of 32 and 64 bits, with the lane semantics that the instruction set
documents. A register is a vector of the lanes it is used with; a cast between lane widths is written out.
-/

namespace X86

/-! ## Moving lanes -/

section Moves

variable {α : Type} [Inhabited α] {n : Nat}

/-- `unpacklo_epi16`: the low halves of the two 128-bit lanes, the words of both operands in turn. -/
def unpackloEpi16 (a b : Vector α 16) : Vector α 16 := Vector.ofFn fun l =>
  if l.val % 2 = 0 then a[8 * (l.val / 8) + l.val % 8 / 2]! else b[8 * (l.val / 8) + l.val % 8 / 2]!

/-- `unpackhi_epi16`: the same of the high halves. -/
def unpackhiEpi16 (a b : Vector α 16) : Vector α 16 := Vector.ofFn fun l =>
  if l.val % 2 = 0 then a[8 * (l.val / 8) + 4 + l.val % 8 / 2]! else b[8 * (l.val / 8) + 4 + l.val % 8 / 2]!

/-- `permute2x128_si256`: each half of the result is the half of an operand that two bits of the control select. -/
def permute2x128 (imm : Nat) (a b : Vector α n) : Vector α n := Vector.ofFn fun l =>
  let control := if l.val < n / 2 then imm % 4 else imm / 16 % 4
  let source := if control < 2 then a else b
  source[control % 2 * (n / 2) + l.val % (n / 2)]!

/-- `permute4x64_epi64`: each quarter of the result is the quarter that two bits of the control select. -/
def permute4x64 (imm : Nat) (a : Vector α n) : Vector α n := Vector.ofFn fun l =>
  a[imm / 4 ^ (l.val / (n / 4)) % 4 * (n / 4) + l.val % (n / 4)]!

/-- `extracti128_si256`: one half of a register. -/
def extracti128 (w imm : Nat) (a : Vector α n) : Vector α w := Vector.ofFn fun l => a[imm * w + l.val]!

/-- `broadcastsi128_si256`: a half register in both halves. -/
def broadcastsi128 (a : Vector α n) (w : Nat) : Vector α w := Vector.ofFn fun l => a[l.val % n]!

/-- `shuffle_epi8`: in every 128-bit lane, the byte that the low bits of the control select, or zero. -/
def shuffleEpi8 (a control : Vector UInt8 n) : Vector UInt8 n := Vector.ofFn fun l =>
  if 128 ≤ control[l].toNat then 0 else a[16 * (l.val / 16) + control[l].toNat % 16]!

/-- A lane of the extracted half. -/
theorem extracti128_getElem (imm w : Nat) (a : Vector α n) (l : Nat) (hl : l < w) :
    (extracti128 w imm a)[l] = a[imm * w + l]! := Vector.getElem_ofFn hl

/-- Unpacking the low halves of the 128-bit lanes takes the two operands in turns. -/
theorem unpackloEpi16_getElem! (a b : Vector α 16) (l : Nat) (hl : l < 16) : (unpackloEpi16 a b)[l]! =
    if l % 2 = 0 then a[8 * (l / 8) + l % 8 / 2]! else b[8 * (l / 8) + l % 8 / 2]! := by
  rw [getElem!_pos _ l hl, unpackloEpi16, Vector.getElem_ofFn]

/-- Unpacking the high halves does the same from the fifth word on. -/
theorem unpackhiEpi16_getElem! (a b : Vector α 16) (l : Nat) (hl : l < 16) : (unpackhiEpi16 a b)[l]! =
    if l % 2 = 0 then a[8 * (l / 8) + 4 + l % 8 / 2]! else b[8 * (l / 8) + 4 + l % 8 / 2]! := by
  rw [getElem!_pos _ l hl, unpackhiEpi16, Vector.getElem_ofFn]

/-- The control `0x20` gathers the low halves. -/
theorem permute2x128_low (a b : Vector α n) (l : Nat) (hl : l < n) (hn : n = n / 2 + n / 2) :
    (permute2x128 0x20 a b)[l]! = if l < n / 2 then a[l]! else b[l - n / 2]! := by
  rw [getElem!_pos _ l hl, permute2x128, Vector.getElem_ofFn]
  by_cases h : l < n / 2
  · simp [h, Nat.mod_eq_of_lt h]
  · have hmod : l % (n / 2) = l - n / 2 := by rw [Nat.mod_eq_sub_mod (by omega), Nat.mod_eq_of_lt (by omega)]
    simp [h, hmod]

/-- The control `0x31` gathers the high halves. -/
theorem permute2x128_high (a b : Vector α n) (l : Nat) (hl : l < n) (hn : n = n / 2 + n / 2) :
    (permute2x128 0x31 a b)[l]! = if l < n / 2 then a[n / 2 + l]! else b[l]! := by
  rw [getElem!_pos _ l hl, permute2x128, Vector.getElem_ofFn]
  by_cases h : l < n / 2
  · simp [h, Nat.mod_eq_of_lt h]
  · have hmod : l % (n / 2) = l - n / 2 := by rw [Nat.mod_eq_sub_mod (by omega), Nat.mod_eq_of_lt (by omega)]
    have hpos : n / 2 + (l - n / 2) = l := by omega
    simp [h, hmod, hpos]

/-- The low halves of two registers interleaved are their first eight pairs. -/
theorem interleave_low (a b : Vector α 16) (l : Nat) (hl : l < 16) :
    (permute2x128 0x20 (unpackloEpi16 a b) (unpackhiEpi16 a b))[l]! = if l % 2 = 0 then a[l / 2]! else b[l / 2]! := by
  rw [permute2x128_low _ _ l hl rfl]
  by_cases h : l < 8
  · have hpos : 8 * (l / 8) + l % 8 / 2 = l / 2 := by omega
    rw [if_pos h, unpackloEpi16_getElem! _ _ l hl, hpos]
  · have hpos : 8 * ((l - 8) / 8) + 4 + (l - 8) % 8 / 2 = l / 2 := by omega
    have hparity : (l - 8) % 2 = l % 2 := by omega
    rw [if_neg h, unpackhiEpi16_getElem! _ _ (l - 8) (by omega), hpos, hparity]

/-- The high halves are their last eight pairs. -/
theorem interleave_high (a b : Vector α 16) (l : Nat) (hl : l < 16) :
    (permute2x128 0x31 (unpackloEpi16 a b) (unpackhiEpi16 a b))[l]! = if l % 2 =
      0 then a[8 + l / 2]! else b[8 + l / 2]! := by
  rw [permute2x128_high _ _ l hl rfl]
  by_cases h : l < 8
  · have hpos : 8 * ((8 + l) / 8) + (8 + l) % 8 / 2 = 8 + l / 2 := by omega
    have hparity : (8 + l) % 2 = l % 2 := by omega
    rw [if_pos h, unpackloEpi16_getElem! _ _ (8 + l) (by omega), hpos, hparity]
  · have hpos : 8 * (l / 8) + 4 + l % 8 / 2 = 8 + l / 2 := by omega
    rw [if_neg h, unpackhiEpi16_getElem! _ _ l hl, hpos]

/-- The control `0xD8` exchanges the two middle quarters. -/
theorem permute4x64_middle (a : Vector α 16) (l : Nat) (hl : l < 16) : (permute4x64 0xD8 a)[l]! =
    if l < 4 then a[l]! else if l < 8 then a[l + 4]! else if l < 12 then a[l - 4]! else a[l]! := by
  rw [getElem!_pos _ l hl, permute4x64, Vector.getElem_ofFn]
  have hquarter : l / 4 = 0 ∨ l / 4 = 1 ∨ l / 4 = 2 ∨ l / 4 = 3 := by omega
  rcases hquarter with h | h | h | h
  · have hpos : l % 4 = l := by omega
    rw [if_pos (by omega)]
    simp [h, hpos]
  · have hpos : 8 + l % 4 = l + 4 := by omega
    rw [if_neg (by omega), if_pos (by omega)]
    simp [h, hpos]
  · have hpos : 4 + l % 4 = l - 4 := by omega
    rw [if_neg (by omega), if_neg (by omega), if_pos (by omega)]
    simp [h, hpos]
  · have hpos : 12 + l % 4 = l := by omega
    rw [if_neg (by omega), if_neg (by omega), if_neg (by omega)]
    simp [h, hpos]

/-- A control below 16 selects a byte of the same 128-bit lane. -/
theorem shuffleEpi8_getElem! (a control : Vector UInt8 n) {j k : Nat} (hj : j < n) (hcontrol : control[j]!.toNat = k)
    (hk : k < 16) : (shuffleEpi8 a control)[j]! = a[16 * (j / 16) + k]! := by
  rw [getElem!_pos control j hj] at hcontrol
  rw [getElem!_pos _ j hj, shuffleEpi8, Vector.getElem_ofFn]
  simp only [Loops.getElem_fin, hcontrol, Nat.mod_eq_of_lt hk]
  rw [if_neg (by omega)]

/-- The same on a register that repeats 16 bytes. -/
theorem shuffleEpi8_broadcast (a : Vector UInt8 16) (control : Vector UInt8 32) {j k : Nat} (hj : j < 32)
    (hcontrol : control[j]!.toNat = k) (hk : k < 16) : (shuffleEpi8 (broadcastsi128 a 32) control)[j]! = a[k]! := by
  have hmod : (16 * (j / 16) + k) % 16 = k := by omega
  have hpos : 16 * (j / 16) + k < 32 := by omega
  rw [shuffleEpi8_getElem! _ _ hj hcontrol hk, getElem!_pos (broadcastsi128 a 32) _ hpos, broadcastsi128,
    Vector.getElem_ofFn]
  simp only [hmod]

/-- A control from 128 on selects zero. -/
theorem shuffleEpi8_zero (a control : Vector UInt8 n) {j : Nat} (hj : j < n) (hcontrol : 128 ≤ control[j]!.toNat) :
    (shuffleEpi8 a control)[j]! = 0 := by
  rw [getElem!_pos control j hj] at hcontrol
  rw [getElem!_pos _ j hj, shuffleEpi8, Vector.getElem_ofFn, Loops.getElem_fin, if_pos hcontrol]

/-- Two controls that select the bytes of a word select the word. -/
theorem word_shuffleEpi8 {w : Nat} (v : Vector UInt16 w) (control : Vector UInt8 n) {l s : Nat} (hn : 16 * (l / 8) + 16 ≤ n)
    (hlo : control[2 * l]!.toNat = 2 * s) (hhi : control[2 * l + 1]!.toNat = 2 * s + 1) (hs : s < 8) :
    Lanes.word (shuffleEpi8 (Lanes.asBytes n v) control)[2 * l]! (shuffleEpi8 (Lanes.asBytes n v) control)[2 * l + 1]! =
      v[8 * (l / 8) + s]! := by
  have hplo : 16 * (2 * l / 16) + 2 * s = 2 * (8 * (l / 8) + s) := by omega
  have hphi : 16 * ((2 * l + 1) / 16) + (2 * s + 1) = 2 * (8 * (l / 8) + s) + 1 := by omega
  rw [shuffleEpi8_getElem! _ _ (by omega) hlo (by omega), shuffleEpi8_getElem! _ _ (by omega) hhi (by omega), hplo, hphi,
    Lanes.word_asBytes v _ (by omega)]

/-- A loop that stores two registers interleaved, lane by lane through a function. -/
theorem foldl_interleave {β : Type} [Inhabited β] (f : α → β) (even odd : Nat → Vector α 16) {m : Nat} (hm : 32 * m = n)
    (out : Vector β n) : ∀ p < n, ((List.range m).foldl (fun out i =>
      Lanes.store (Lanes.store out (32 * i)
        ((permute2x128 0x20 (unpackloEpi16 (even i) (odd i)) (unpackhiEpi16 (even i) (odd i))).map f)) (32 * i + 16)
        ((permute2x128 0x31 (unpackloEpi16 (even i) (odd i)) (unpackhiEpi16 (even i) (odd i))).map f)) out)[p]! =
      f (if p % 2 = 0 then (even (p / 32))[p % 32 / 2]! else (odd (p / 32))[p % 32 / 2]!) := by
  intro p hp
  have hstores := Lanes.foldl_store_twice
    (fun i => (permute2x128 0x20 (unpackloEpi16 (even i) (odd i)) (unpackhiEpi16 (even i) (odd i))).map f)
    (fun i => (permute2x128 0x31 (unpackloEpi16 (even i) (odd i)) (unpackhiEpi16 (even i) (odd i))).map f)
    (by decide) hm out p hp
  refine hstores.trans ?_
  simp only [Nat.reduceMul]
  by_cases h : p % 32 < 16
  · have hparity : p % 32 % 2 = p % 2 := by omega
    rw [if_pos h, Lanes.getElem!_map _ _ _ h, interleave_low _ _ _ h, hparity]
  · have hlt : p % 32 - 16 < 16 := by omega
    have hparity : (p % 32 - 16) % 2 = p % 2 := by omega
    have hpos : 8 + (p % 32 - 16) / 2 = p % 32 / 2 := by omega
    rw [if_neg h, Lanes.getElem!_map _ _ _ hlt, interleave_high _ _ _ hlt, hparity, hpos]

end Moves

/-! ## Lanes of 32 bits -/

section Dwords

variable {α : Type} {w : Nat}

/-- `set1_epi32`: one double word in every lane. -/
def set1Epi32 (a : α) : Vector α w := Vector.replicate w a

/-- `add_epi32`: the wrapping sum. -/
def addEpi32 [Add α] (a b : Vector α w) : Vector α w := Vector.zipWith (fun x y => x + y) a b

/-- `sub_epi32`: the wrapping difference. -/
def subEpi32 [Sub α] (a b : Vector α w) : Vector α w := Vector.zipWith (fun x y => x - y) a b

/-- `mullo_epi32`: the low half of the product. -/
def mulloEpi32 [Mul α] (a b : Vector α w) : Vector α w := Vector.zipWith (fun x y => x * y) a b

/-- `and_si256`. -/
def andSi256 [AndOp α] (a b : Vector α w) : Vector α w := Vector.zipWith (fun x y => x &&& y) a b

/-- `or_si256`. -/
def orSi256 [OrOp α] (a b : Vector α w) : Vector α w := Vector.zipWith (fun x y => x ||| y) a b

/-- A double word shifted to the left, zero when no bit is left. -/
def shl (x : UInt32) (count : Nat) : UInt32 := if count < 32 then UInt32.ofNat (x.toNat <<< count) else 0

/-- A double word shifted to the right, zero when no bit is left. -/
def shr (x : UInt32) (count : Nat) : UInt32 := if count < 32 then UInt32.ofNat (x.toNat >>> count) else 0

/-- `sll_epi32`: the count is the low half of the second operand. -/
def sllEpi32 (a : Vector UInt32 w) (count : UInt64) : Vector UInt32 w := a.map fun x => shl x count.toNat

/-- `srl_epi32`. -/
def srlEpi32 (a : Vector UInt32 w) (count : UInt64) : Vector UInt32 w := a.map fun x => shr x count.toNat

/-- `sllv_epi32`: every lane has its own count. -/
def sllvEpi32 (a count : Vector UInt32 w) : Vector UInt32 w := Vector.zipWith (fun x s => shl x s.toNat) a count

/-- `srlv_epi32`. -/
def srlvEpi32 (a count : Vector UInt32 w) : Vector UInt32 w := Vector.zipWith (fun x s => shr x s.toNat) a count

/-- `slli_epi32`. -/
def slliEpi32 (imm : Int32) (a : Vector Int32 w) : Vector Int32 w := a.map fun x => x <<< imm

/-- `srai_epi32`: the arithmetic shift. -/
def sraiEpi32 (imm : Int32) (a : Vector Int32 w) : Vector Int32 w := a.map fun x => x >>> imm

/-- The double word of two words, the low one first. -/
def dword (lo hi : Int16) : Int32 := Int32.ofInt (hi.toInt * 65536 + lo.toUInt16.toNat)

/-- The words of a register read as double words. -/
def asDwords (w : Nat) (a : Vector Int16 n) : Vector Int32 w := Vector.ofFn fun l => dword a[2 * l.val]! a[2 * l.val + 1]!

/-- `cvtepu16_epi32`: every word as a double word, without a sign. -/
def cvtepu16Epi32 (a : Vector UInt16 w) : Vector UInt32 w := a.map UInt16.toUInt32

variable (a b : Vector α w) (x : α) (e f : Vector UInt32 w) (i : Vector Int32 w) (count : UInt64) (imm : Int32)
  (u : Vector UInt16 w) (l : Nat) (hl : l < w)

@[simp] theorem set1Epi32_getElem : (set1Epi32 x : Vector α w)[l] = x := Vector.getElem_replicate hl

/-- A double-word lane of the wrapping sum. -/
@[simp] theorem addEpi32_getElem [Add α] : (addEpi32 a b)[l] = a[l] + b[l] := Vector.getElem_zipWith hl

@[simp] theorem subEpi32_getElem [Sub α] : (subEpi32 a b)[l] = a[l] - b[l] := Vector.getElem_zipWith hl

/-- A double-word lane of the low product. -/
@[simp] theorem mulloEpi32_getElem [Mul α] : (mulloEpi32 a b)[l] = a[l] * b[l] := Vector.getElem_zipWith hl

@[simp] theorem andSi256_getElem [AndOp α] : (andSi256 a b)[l] = a[l] &&& b[l] := Vector.getElem_zipWith hl

@[simp] theorem orSi256_getElem [OrOp α] : (orSi256 a b)[l] = a[l] ||| b[l] := Vector.getElem_zipWith hl

/-- A lane shifted left by the count of the whole register. -/
@[simp] theorem sllEpi32_getElem : (sllEpi32 e count)[l] = shl e[l] count.toNat := Vector.getElem_map _ hl

/-- A lane shifted right by the count of the whole register. -/
@[simp] theorem srlEpi32_getElem : (srlEpi32 e count)[l] = shr e[l] count.toNat := Vector.getElem_map _ hl

/-- A lane shifted left by the count in its own lane. -/
@[simp] theorem sllvEpi32_getElem : (sllvEpi32 e f)[l] = shl e[l] f[l].toNat := Vector.getElem_zipWith hl

/-- A lane shifted right by the count in its own lane. -/
@[simp] theorem srlvEpi32_getElem : (srlvEpi32 e f)[l] = shr e[l] f[l].toNat := Vector.getElem_zipWith hl

/-- A lane shifted left by an immediate. -/
@[simp] theorem slliEpi32_getElem : (slliEpi32 imm i)[l] = i[l] <<< imm := Vector.getElem_map _ hl

/-- A lane shifted right by an immediate, keeping its sign. -/
@[simp] theorem sraiEpi32_getElem : (sraiEpi32 imm i)[l] = i[l] >>> imm := Vector.getElem_map _ hl

/-- A word widened without its sign. -/
@[simp] theorem cvtepu16Epi32_getElem : (cvtepu16Epi32 u)[l] = u[l].toUInt32 := Vector.getElem_map _ hl

/-- The two halves of a product are the product. -/
theorem dword_product (x y : Int16) : dword (Lanes.mullo x y) (Lanes.mulhi x y) = x.toInt32 * y.toInt32 := by
  have hp := Lanes.natAbs_product_le x y
  have hlow := SignedWords.toNat_toUInt16 (x * y)
  rw [Int16.toInt_mul] at hlow
  obtain ⟨d, hd, _⟩ := SignedWords.exists_bmod_16 (x.toInt * y.toInt)
  have hsplit : x.toInt * y.toInt / 65536 * 65536 + ((x * y).toUInt16.toNat : Int) = x.toInt * y.toInt := by omega
  apply Int32.toInt_inj.mp
  rw [dword, Lanes.mulhi_toInt, Lanes.mullo_eq, hsplit, SignedWords.toInt_mul_widened]
  exact Int32.toInt_ofInt_of_le (by omega) (by omega)

/-- Shifting a double word up and down by a word extends the sign of its low word. -/
theorem sign_extension (x : Int32) : x <<< (16 : Int32) >>> (16 : Int32) = x.toInt16.toInt32 := by
  have hshift : x <<< (16 : Int32) = x * 65536 := by
    apply Int32.toBitVec_inj.mp
    rw [Int32.toBitVec_shiftLeft, Int32.toBitVec_mul]
    exact BitVec.shiftLeft_eq_mul_twoPow _ 16
  have h65536 : (65536 : Int32).toInt = 65536 := by decide
  obtain ⟨d, hd, hfits⟩ := SignedWords.exists_bmod_16 x.toInt
  have hwrap : (x.toInt * 65536).bmod (2 ^ 32) = 65536 * x.toInt.bmod (2 ^ 16) := by
    rw [hd] at hfits ⊢
    obtain ⟨h1, h2⟩ := hfits
    rw [Int.bmod_def]
    omega
  apply Int32.toInt_inj.mp
  rw [SignedWords.toInt_shiftRight _ _ 16 (by decide), hshift, Int32.toInt_mul, Int16.toInt_toInt32,
    Int32.toInt_toInt16, h65536, hwrap]
  omega

/-- A double word is two words, the low one first. -/
theorem asDwords_getElem (a : Vector Int16 n) (l : Nat) (hl : l < w) : (asDwords w a)[l] = dword a[2 * l]! a[2 * l + 1]! :=
  Vector.getElem_ofFn hl

/-- A left shift that keeps every bit. -/
theorem shl_toNat {x : UInt32} {count : Nat} (hcount : count < 32) (h : x.toNat <<< count < 2 ^ 32) :
    (shl x count).toNat = x.toNat <<< count := by
  rw [shl, if_pos hcount, UInt32.toNat_ofNat', Nat.mod_eq_of_lt h]

/-- A right shift within the width. -/
theorem shr_toNat {x : UInt32} {count : Nat} (hcount : count < 32) : (shr x count).toNat = x.toNat >>> count := by
  have hx := x.toNat_lt
  have hle := Nat.div_le_self x.toNat (2 ^ count)
  rw [shr, if_pos hcount, UInt32.toNat_ofNat', Nat.mod_eq_of_lt (by rw [Nat.shiftRight_eq_div_pow]; omega)]

end Dwords

/-! ## Lanes of 64 bits -/

section Qwords

variable {n w : Nat}

/-- Pairs of double words read as quadruple words. -/
def asQwords (w : Nat) (a : Vector UInt32 n) : Vector UInt64 w :=
  Vector.ofFn fun l => UInt64.ofNat (a[2 * l.val]!.toNat + 2 ^ 32 * a[2 * l.val + 1]!.toNat)

/-- The double words of a register of quadruple words. -/
def ofQwords (n : Nat) (a : Vector UInt64 w) : Vector UInt32 n :=
  Vector.ofFn fun l => UInt32.ofNat (if l.val % 2 = 0 then a[l.val / 2]!.toNat else a[l.val / 2]!.toNat >>> 32)

/-- `mul_epu32`: the whole products of the low double words of the quadruple words. -/
def mulEpu32 (a b : Vector UInt64 w) : Vector UInt64 w :=
  Vector.zipWith (fun x y => UInt64.ofNat (x.toNat % 2 ^ 32 * (y.toNat % 2 ^ 32))) a b

/-- `srli_epi64`. -/
def srliEpi64 (imm : Nat) (a : Vector UInt64 w) : Vector UInt64 w := a.map fun x => UInt64.ofNat (x.toNat >>> imm)

/-- `slli_epi64`. -/
def slliEpi64 (imm : Nat) (a : Vector UInt64 w) : Vector UInt64 w := a.map fun x => UInt64.ofNat (x.toNat <<< imm)

/-- A quadword is two double words, the low one first. -/
theorem asQwords_toNat (a : Vector UInt32 n) (l : Nat) (hl : l < w) :
    (asQwords w a)[l].toNat = a[2 * l]!.toNat + 2 ^ 32 * a[2 * l + 1]!.toNat := by
  have hlo := a[2 * l]!.toNat_lt
  have hhi := a[2 * l + 1]!.toNat_lt
  rw [asQwords, Vector.getElem_ofFn, UInt64.toNat_ofNat', Nat.mod_eq_of_lt (by simp only []; omega)]

/-- The double words of a quadword. -/
theorem ofQwords_toNat (a : Vector UInt64 w) (l : Nat) (hl : l < n) (hw : l / 2 < w) : (ofQwords n a)[l].toNat =
    if l % 2 = 0 then a[l / 2].toNat % 2 ^ 32 else a[l / 2].toNat >>> 32 := by
  have hlt := a[l / 2].toNat_lt
  rw [ofQwords, Vector.getElem_ofFn, UInt32.toNat_ofNat', getElem!_pos a _ hw]
  simp only []
  split
  · rfl
  · rw [Nat.shiftRight_eq_div_pow, Nat.mod_eq_of_lt (by omega)]

/-- The product of the low double words fits the quadword. -/
theorem mulEpu32_toNat (a b : Vector UInt64 w) (l : Nat) (hl : l < w) :
    (mulEpu32 a b)[l].toNat = a[l].toNat % 2 ^ 32 * (b[l].toNat % 2 ^ 32) := by
  have ha := Nat.mod_lt a[l].toNat (Nat.two_pow_pos 32)
  have hb := Nat.mod_lt b[l].toNat (Nat.two_pow_pos 32)
  have hp := Nat.mul_lt_mul'' ha hb
  rw [mulEpu32, Vector.getElem_zipWith, UInt64.toNat_ofNat', Nat.mod_eq_of_lt hp]

/-- A quadword shifted right by an immediate. -/
theorem srliEpi64_toNat (imm : Nat) (a : Vector UInt64 w) (l : Nat) (hl : l < w) :
    (srliEpi64 imm a)[l].toNat = a[l].toNat >>> imm := by
  have hlt := Nat.lt_of_le_of_lt (Nat.shiftRight_le a[l].toNat imm) a[l].toNat_lt
  rw [srliEpi64, Vector.getElem_map, UInt64.toNat_ofNat', Nat.mod_eq_of_lt hlt]

/-- A quadword shifted left by an immediate, every bit kept. -/
theorem slliEpi64_toNat (imm : Nat) (a : Vector UInt64 w) (l : Nat) (hl : l < w) (h : a[l].toNat <<< imm < 2 ^ 64) :
    (slliEpi64 imm a)[l].toNat = a[l].toNat <<< imm := by
  rw [slliEpi64, Vector.getElem_map, UInt64.toNat_ofNat', Nat.mod_eq_of_lt h]

end Qwords

/-! ## Narrowing -/

section Narrowing

variable {n w : Nat}

/-- The word without a sign that is closest to a double word with one. -/
def saturateU16 (x : UInt32) : UInt16 := if x.toNat < 2 ^ 31 then UInt16.ofNat (min x.toNat 65535) else 0

/-- `packus_epi32`: in every 128-bit lane, the saturated double words of the first operand, then those of the second. -/
def packusEpi32 (n : Nat) (a b : Vector UInt32 w) : Vector UInt16 n := Vector.ofFn fun l =>
  saturateU16 (if l.val % 8 < 4 then a[4 * (l.val / 8) + l.val % 8]! else b[4 * (l.val / 8) + (l.val % 8 - 4)]!)

/-- `packs_epi32`: the same with a sign. -/
def packsEpi32 (n : Nat) (a b : Vector Int32 w) : Vector Int16 n := Vector.ofFn fun l =>
  Lanes.saturate16 (if l.val % 8 < 4 then a[4 * (l.val / 8) + l.val % 8]! else b[4 * (l.val / 8) + (l.val % 8 - 4)]!).toInt

/-- The byte that is closest to a word with a sign. -/
def saturateU8 (x : UInt16) : UInt8 := if x.toNat < 2 ^ 15 then UInt8.ofNat (min x.toNat 255) else 0

/-- `packus_epi16` on 128 bits: the saturated words of the first operand, then those of the second. -/
def packusEpi16 (a b : Vector UInt16 8) : Vector UInt8 16 := Vector.ofFn fun l =>
  saturateU8 (if l.val < 8 then a[l.val]! else b[l.val - 8]!)

/-- A word that is a byte does not saturate. -/
theorem saturateU8_of_lt {x : UInt16} (h : x.toNat < 256) : (saturateU8 x).toNat = x.toNat := by
  rw [saturateU8, if_pos (by omega), min_eq_left (by omega), UInt8.toNat_ofNat', Nat.mod_eq_of_lt h]

/-- Packing with unsigned saturation takes four lanes of each operand in turns. -/
theorem packusEpi32_getElem! (a b : Vector UInt32 w) (l : Nat) (hl : l < n) : (packusEpi32 n a b)[l]! =
    saturateU16 (if l % 8 < 4 then a[4 * (l / 8) + l % 8]! else b[4 * (l / 8) + (l % 8 - 4)]!) := by
  rw [getElem!_pos _ l hl, packusEpi32, Vector.getElem_ofFn]

/-- A double word that is a word does not saturate. -/
theorem saturateU16_of_lt {x : UInt32} (h : x.toNat < 65536) : (saturateU16 x).toNat = x.toNat := by
  rw [saturateU16, if_pos (by omega), min_eq_left (by omega), UInt16.toNat_ofNat', Nat.mod_eq_of_lt h]

/-- The double words of a register packed in their order. -/
theorem packusEpi32_halves (x : Vector UInt32 8) (l : Nat) (hl : l < 8) :
    (packusEpi32 8 (extracti128 4 0 x) (extracti128 4 1 x))[l]! = saturateU16 x[l]! := by
  have hdiv : l / 8 = 0 := Nat.div_eq_of_lt hl
  rw [packusEpi32_getElem! _ _ _ hl, hdiv, Nat.mod_eq_of_lt hl]
  by_cases h : l < 4
  · rw [if_pos h, getElem!_pos (extracti128 4 0 x) _ (by omega), extracti128_getElem]
    simp
  · have hpos : 1 * 4 + (4 * 0 + (l - 4)) = l := by omega
    rw [if_neg h, getElem!_pos (extracti128 4 1 x) _ (by omega), extracti128_getElem, hpos]

/-- The double words of a register packed to bytes in their order. -/
theorem packusEpi16_halves (x : Vector UInt32 8) (l : Nat) (hl : l < 8) (hx : x[l]!.toNat < 256) :
    (packusEpi16 (packusEpi32 8 (extracti128 4 0 x) (extracti128 4 1 x)) (packusEpi32 8 (extracti128 4 0 x)
      (extracti128 4 1 x)))[l]!.toNat = x[l]!.toNat := by
  have hword : (saturateU16 x[l]!).toNat = x[l]!.toNat := saturateU16_of_lt (by omega)
  rw [packusEpi16, getElem!_pos _ l (by omega), Vector.getElem_ofFn]
  simp only [hl, if_true]
  rw [packusEpi32_halves _ l hl, saturateU8_of_lt (by omega), hword]

/-- Packing with signed saturation takes the lanes in the same order. -/
theorem packsEpi32_getElem! (a b : Vector Int32 w) (l : Nat) (hl : l < n) : (packsEpi32 n a b)[l]! =
    Lanes.saturate16 (if l % 8 < 4 then a[4 * (l / 8) + l % 8]! else b[4 * (l / 8) + (l % 8 - 4)]!).toInt := by
  rw [getElem!_pos _ l hl, packsEpi32, Vector.getElem_ofFn]

end Narrowing

/-! ## Masks -/

section Masks

variable {w : Nat}

/-- `srli_epi16`: the logical shift of the words by a constant. -/
def srliEpi16 (imm : Nat) (a : Vector UInt16 w) : Vector UInt16 w := a.map fun x => UInt16.ofNat (x.toNat >>> imm)

/-- `blend_epi16`: every lane from the operand that its bit of the control selects. -/
def blendEpi16 (imm : Nat) (a b : Vector UInt16 8) : Vector UInt16 8 :=
  Vector.ofFn fun l => if imm.testBit l then b[l] else a[l]

/-- `cmplt_epi16`: all ones in the lanes where the first operand is the smaller one. -/
def cmpltEpi16 (a b : Vector Int16 w) : Vector Int16 w := Vector.zipWith (fun x y => if x < y then -1 else 0) a b

/-- The byte with a sign that is closest to a word. -/
def saturate8 (x : Int16) : Int8 := Int8.ofInt (max (-128) (min x.toInt 127))

/-- `packs_epi16` on 128 bits. -/
def packsEpi16 (a b : Vector Int16 8) : Vector Int8 16 :=
  Vector.ofFn fun l => saturate8 (if l.val < 8 then a[l.val]! else b[l.val - 8]!)

/-- `movemask_epi8`: the signs of the bytes, one bit each. -/
def movemaskEpi8 (a : Vector Int8 16) : Nat := Nat.ofBits fun l : Fin 16 => decide (a[l] < 0)

/-- A comparison packed and masked has the bits of its lanes. -/
theorem testBit_comparison (a b : Vector Int16 8) {l : Nat} (hl : l < 8) :
    (movemaskEpi8 (packsEpi16 (cmpltEpi16 a b) (Lanes.set1Epi16 0)) &&& 0xFF).testBit l = decide (a[l] < b[l]) := by
  have hmask : (0xFF : Nat) = 2 ^ 8 - 1 := rfl
  rw [hmask, Nat.and_two_pow_sub_one_eq_mod, Nat.testBit_mod_two_pow, decide_eq_true hl, Bool.true_and, movemaskEpi8,
    Nat.testBit_ofBits_lt _ _ (by omega : l < 16), packsEpi16, Loops.getElem_fin, Vector.getElem_ofFn]
  simp only [hl, if_true]
  rw [getElem!_pos (cmpltEpi16 a b) l hl, cmpltEpi16, Vector.getElem_zipWith]
  by_cases h : a[l] < b[l]
  · rw [if_pos h, decide_eq_true h]
    decide
  · rw [if_neg h, decide_eq_false h]
    decide

end Masks

end X86
