import MlkemSelkie.Lemmas.Storage

/-!
# The divisions of the vector kernels

The vector kernels compress and decompress through other divisions than the portable one: products of quadruple words
over the even and the odd lanes, or a rounded doubling product with one multiplier a width. In range each is the same
quotient.
-/

namespace MlkemSelkie

open SignedWords Lanes X86 NeonLanes

/-- A disjoint or is a sum. -/
theorem or_shiftLeft {a b k : Nat} (ha : a < 2 ^ k) : a ||| b <<< k = a + b * 2 ^ k := by
  rw [Nat.or_comm, ← Nat.shiftLeft_add_eq_or_of_lt ha, Nat.shiftLeft_eq, Nat.add_comm]

namespace Poly.Avx2

/-! ## The division of double words -/

/-- The quotient by q of a double word is one. -/
theorem quotient_lt (x : UInt32) : (x.toNat * 2580335) >>> 33 < 2 ^ 32 := by
  have hx := x.toNat_lt
  rw [Nat.shiftRight_eq_div_pow]
  omega

theorem divideByQ_toNat (a : Vector UInt32 8) (l : Nat) (hl : l < 8) :
    (divideByQ a)[l].toNat = (a[l].toNat * 2580335) >>> 33 := by
  have hdiv : compressDiv.toNat = 2580335 := by decide
  have hi : l / 2 < 4 := by omega
  have heven := quotient_lt a[2 * (l / 2)]!
  have hodd := quotient_lt a[2 * (l / 2) + 1]!
  have hlow := a[2 * (l / 2)]!.toNat_lt
  have hhigh := a[2 * (l / 2) + 1]!.toNat_lt
  have hdivisor : ∀ k, k < 8 → (set1Epi32 compressDiv : Vector UInt32 8)[k]!.toNat = 2580335 := fun k hk => by
    rw [getElem!_pos _ k hk, set1Epi32_getElem, hdiv]
  have hlanes : (2580335 + 2 ^ 32 * 2580335) % 2 ^ 32 = 2580335 := by decide
  -- the quotients of the two double words of the quadruple word
  have hq0 : (srliEpi64 33 (mulEpu32 (asQwords 4 a) (asQwords 4 (set1Epi32 compressDiv : Vector UInt32 8))))[l / 2].toNat =
      (a[2 * (l / 2)]!.toNat * 2580335) >>> 33 := by
    rw [srliEpi64_toNat, mulEpu32_toNat, asQwords_toNat, asQwords_toNat, hdivisor _ (by omega), hdivisor _ (by omega),
      hlanes, Nat.add_mul_mod_self_left, Nat.mod_eq_of_lt hlow]
  have hq1 : (srliEpi64 33 (mulEpu32 (srliEpi64 32 (asQwords 4 a))
      (asQwords 4 (set1Epi32 compressDiv : Vector UInt32 8))))[l / 2].toNat =
        (a[2 * (l / 2) + 1]!.toNat * 2580335) >>> 33 := by
    have hshift : (a[2 * (l / 2)]!.toNat + 2 ^ 32 * a[2 * (l / 2) + 1]!.toNat) >>> 32 = a[2 * (l / 2) + 1]!.toNat := by
      rw [Nat.shiftRight_eq_div_pow]
      omega
    rw [srliEpi64_toNat, mulEpu32_toNat, srliEpi64_toNat, asQwords_toNat, asQwords_toNat, hdivisor _ (by omega),
      hdivisor _ (by omega), hlanes, hshift, Nat.mod_eq_of_lt hhigh]
  have hfits : ((a[2 * (l / 2) + 1]!.toNat * 2580335) >>> 33) <<< 32 < 2 ^ 64 := by
    rw [Nat.shiftLeft_eq]
    omega
  rw [divideByQ, ofQwords_toNat _ _ _ hi, orSi256_getElem, UInt64.toNat_or,
    slliEpi64_toNat _ _ _ _ (by rw [hq1]; exact hfits), hq0, hq1, or_shiftLeft heven]
  rcases Nat.mod_two_eq_zero_or_one l with h | h
  · have hpos : 2 * (l / 2) = l := by omega
    rw [if_pos h, Nat.add_mul_mod_self_right, Nat.mod_eq_of_lt heven, hpos, getElem!_pos a l hl]
  · have hpos : 2 * (l / 2) + 1 = l := by omega
    rw [if_neg (by omega), Nat.shiftRight_eq_div_pow _ 32, Nat.add_mul_div_right _ _ (Nat.two_pow_pos 32),
      Nat.div_eq_of_lt heven, Nat.zero_add, hpos, getElem!_pos a l hl]

/-- The packed words are the double words in order. -/
theorem packLanes_getElem! (lo hi : Vector UInt32 8) (l : Nat) (hl : l < 16) :
    (packLanes lo hi)[l]! = saturateU16 (if l < 8 then lo[l]! else hi[l - 8]!) := by
  rw [packLanes, permute4x64_middle _ l hl]
  have hquarter : l < 4 ∨ (4 ≤ l ∧ l < 8) ∨ (8 ≤ l ∧ l < 12) ∨ 12 ≤ l := by omega
  rcases hquarter with h | ⟨h, h'⟩ | ⟨h, h'⟩ | h
  · have hpos : 4 * (l / 8) + l % 8 = l := by omega
    rw [if_pos h, packusEpi32_getElem! _ _ _ hl, if_pos (by omega), if_pos (by omega), hpos]
  · have hpos : 4 * ((l + 4) / 8) + (l + 4) % 8 = l := by omega
    rw [if_neg (by omega), if_pos h', packusEpi32_getElem! _ _ _ (by omega), if_pos (by omega), if_pos h', hpos]
  · have hpos : 4 * ((l - 4) / 8) + ((l - 4) % 8 - 4) = l - 8 := by omega
    rw [if_neg (by omega), if_neg (by omega), if_pos h', packusEpi32_getElem! _ _ _ (by omega), if_neg (by omega),
      if_neg (by omega), hpos]
  · have hpos : 4 * (l / 8) + (l % 8 - 4) = l - 8 := by omega
    rw [if_neg (by omega), if_neg (by omega), if_neg (by omega), packusEpi32_getElem! _ _ _ hl, if_neg (by omega),
      if_neg (by omega), hpos]

/-- Packing two registers that compute one function of the lanes of a register's halves, on words that fit. -/
theorem packLanes_halves {g : UInt16 → UInt16} {f : Vector UInt16 8 → Vector UInt32 8} (x : Vector UInt16 16) (l : Nat)
    (hl : l < 16)
    (hf : ∀ y : Vector UInt16 8, ∀ k (hk : k < 8), y[k] = x[l]! → saturateU16 (f y)[k] = g x[l]!) :
    (packLanes (f (extracti128 8 0 x)) (f (extracti128 8 1 x)))[l]! = g x[l]! := by
  rw [packLanes_getElem! _ _ l hl]
  by_cases h : l < 8
  · rw [if_pos h, getElem!_pos _ l h, hf _ l h]
    rw [extracti128_getElem, Nat.zero_mul, Nat.zero_add]
  · have hlt : l - 8 < 8 := by omega
    have hpos : 1 * 8 + (l - 8) = l := by omega
    rw [if_neg h, getElem!_pos _ (l - 8) hlt, hf _ _ hlt]
    rw [extracti128_getElem, hpos]

/-! ## Compression -/

/-- The division of a canonical representative is the quotient of `Compress_d`. -/
theorem divide_toNat {d : Nat} (hd : d ≤ 12) (y : Vector UInt16 8) (k : Nat) (hk : k < 8) (hy : y[k].toNat < 3329) :
    (divide d y)[k].toNat = (((y[k].toNat <<< d) + 1664) * 2580335) >>> 33 &&& (1 <<< d - 1) := by
  have hpow : 2 ^ d ≤ 4096 := Nat.pow_le_pow_right (n := 2) (by decide) hd
  have hmul : y[k].toNat * 2 ^ d ≤ 3328 * 4096 := Nat.mul_le_mul (by omega) hpow
  have hcount : (UInt64.ofNat d).toNat = d := by rw [UInt64.toNat_ofNat', Nat.mod_eq_of_lt (by omega)]
  have hmask : (UInt32.ofNat (1 <<< d - 1)).toNat = 1 <<< d - 1 := by
    rw [UInt32.toNat_ofNat', Nat.shiftLeft_eq, Nat.mod_eq_of_lt (by omega)]
  have hup : (shl y[k].toUInt32 d).toNat = y[k].toNat <<< d := by
    rw [shl_toNat (by omega) (by rw [UInt16.toNat_toUInt32, Nat.shiftLeft_eq]; omega), UInt16.toNat_toUInt32]
  have hhalf : (1664 : UInt32).toNat = 1664 := by decide
  have hsum : (shl y[k].toUInt32 d + 1664).toNat = (y[k].toNat <<< d) + 1664 := by
    rw [UInt32.toNat_add, hup, hhalf, Nat.mod_eq_of_lt (by rw [Nat.shiftLeft_eq]; omega)]
  rw [divide, andSi256_getElem, UInt32.toNat_and, divideByQ_toNat, addEpi32_getElem, sllEpi32_getElem, cvtepu16Epi32_getElem,
    set1Epi32_getElem, set1Epi32_getElem, hcount, hsum, hmask]

theorem compress_eq (cs : Coefficients) {d : Nat} (hd : d ≤ 12) : compress cs d = Poly.Generic.compress cs d := by
  refine Butterfly.ext_getElem! fun p (hp : p < 256) => ?_
  rw [Poly.Generic.compress, getElem!_map _ _ _ hp]
  refine foldl_store (f := fun i => packLanes
    (divide d (extracti128 8 0 ((canonicalLanes (loaduSi256 cs (16 * i))).map Int16.toUInt16)))
    (divide d (extracti128 8 1 ((canonicalLanes (loaduSi256 cs (16 * i))).map Int16.toUInt16))))
    (F := fun p => cs[p]!.compress d) (m := 16) (by decide) rfl (fun i l hl _ => ?_) _ p hp
  have hvalue : ((canonicalLanes (loaduSi256 cs (16 * i))).map Int16.toUInt16)[l]! = cs[16 * i + l]!.value := by
    rw [getElem!_map _ _ _ hl, canonicalLanes_getElem! _ _ hl, loaduSi256_getElem! _ _ _ hl]
  have hlt := FieldElement.value_lt cs[16 * i + l]!
  have hmask : 1 <<< d - 1 < 65536 := by
    have hpow : 2 ^ d ≤ 4096 := Nat.pow_le_pow_right (n := 2) (by decide) hd
    rw [Nat.shiftLeft_eq]
    omega
  refine packLanes_halves (g := fun _ => cs[16 * i + l]!.compress d) (f := divide d) _ l hl fun y k hk hy => ?_
  rw [hvalue] at hy
  have hquot := divide_toNat hd y k hk (by rw [hy]; exact hlt)
  have hsmall : (divide d y)[k].toNat < 65536 := by
    rw [hquot]
    exact Nat.lt_of_le_of_lt Nat.and_le_right hmask
  apply UInt16.toNat_inj.mp
  rw [saturateU16_of_lt hsmall, hquot, hy, FieldElement.compress, UInt16.toNat_ofNat',
    Nat.mod_eq_of_lt (Nat.lt_of_le_of_lt Nat.and_le_right hmask)]
  rfl

/-! ## Decompression -/

/-- The scaled value is the quotient of `Decompress_d`, a canonical representative. -/
theorem scale_toNat {d : Nat} (hd : 1 ≤ d) (hd' : d ≤ 11) (y : Vector UInt16 8) (k : Nat) (hk : k < 8)
    (hy : y[k].toNat < 2 ^ d) :
    (scale d y)[k].toNat = (3329 * y[k].toNat + 1 <<< (d - 1)) >>> d := by
  have hpow : 2 ^ d ≤ 2048 := Nat.pow_le_pow_right (n := 2) (by decide) hd'
  have hhalf : 2 ^ d = 2 * 2 ^ (d - 1) := by rw [← pow_succ', Nat.sub_add_cancel hd]
  have hcount : (UInt64.ofNat d).toNat = d := by rw [UInt64.toNat_ofNat', Nat.mod_eq_of_lt (by omega)]
  have hbias : (UInt32.ofNat (1 <<< (d - 1))).toNat = 1 <<< (d - 1) := by
    rw [UInt32.toNat_ofNat', Nat.shiftLeft_eq, Nat.mod_eq_of_lt (by omega)]
  have hq : (3329 : UInt32).toNat = 3329 := by decide
  have hprod : (y[k].toUInt32 * (3329 : UInt32)).toNat = 3329 * y[k].toNat := by
    rw [UInt32.toNat_mul, UInt16.toNat_toUInt32, hq, Nat.mod_eq_of_lt (by omega), Nat.mul_comm]
  have hsum : (y[k].toUInt32 * (3329 : UInt32) + UInt32.ofNat (1 <<< (d - 1))).toNat = 3329 * y[k].toNat +
    1 <<< (d - 1) := by
    rw [UInt32.toNat_add, hprod, hbias, Nat.mod_eq_of_lt (by rw [Nat.shiftLeft_eq]; omega)]
  rw [scale, srlEpi32_getElem, hcount, shr_toNat (by omega), addEpi32_getElem, mulloEpi32_getElem, cvtepu16Epi32_getElem,
    set1Epi32_getElem, set1Epi32_getElem, hsum]

end Poly.Avx2

/-- The quotient of `Decompress_d` needs no reduction. -/
theorem decompress_quotient_lt {d y : Nat} (hd : 1 ≤ d) (hd' : d ≤ 11) (hy : y < 2 ^ d) :
    (3329 * y + 1 <<< (d - 1)) >>> d < 3329 := by
  have hpow : 2 ^ d ≤ 2048 := Nat.pow_le_pow_right (n := 2) (by decide) hd'
  have hhalf : 2 ^ d = 2 * 2 ^ (d - 1) := by rw [← pow_succ', Nat.sub_add_cancel hd]
  rw [Nat.shiftRight_eq_div_pow, Nat.shiftLeft_eq, Nat.div_lt_iff_lt_mul (Nat.two_pow_pos d)]
  omega

/-- The representative that decompression yields is the quotient. -/
theorem decompress_rep {d : Nat} {y : UInt16} (hd : 1 ≤ d) (hd' : d ≤ 11) (hy : y.toNat < 2 ^ d) :
    (FieldElement.decompress y d).rep.toInt = ((3329 * y.toNat + 1 <<< (d - 1)) >>> d : Nat) := by
  have hlt := decompress_quotient_lt hd hd' hy
  have h := FieldElement.decompress_toInt y d hd hy
  rw [Nat.shiftRight_eq_div_pow, Nat.shiftLeft_eq, Nat.one_mul] at hlt ⊢
  rw [Nat.mod_eq_of_lt hlt] at h
  exact h

/-- A word that is a natural number is one without its sign. -/
theorem toUInt16_of_toInt {x : Int16} {k : Nat} (h : x.toInt = k) : x.toUInt16.toNat = k := by
  have hnonneg : (0 : Int16) ≤ x := Int16.le_iff_toInt_le.mpr (by rw [h]; exact Int.natCast_nonneg k)
  rw [Int16.toNat_toUInt16_of_le hnonneg, Int16.toNatClampNeg, h]
  exact Int.toNat_natCast k

namespace Poly.Avx2

theorem decompress_eq {values : Vector UInt16 N} {d : Nat} (hd : 1 ≤ d) (hd' : d ≤ 11)
    (hvalues : ∀ i : Fin 256, values[i].toNat < 2 ^ d) :
    decompress values d = Poly.Generic.decompress values d := by
  refine Butterfly.ext_getElem! fun p (hp : p < 256) => ?_
  rw [Poly.Generic.decompress, getElem!_map _ _ _ hp]
  refine foldl_store (f := fun i => ((packLanes (scale d (extracti128 8 0 (loaduU16 values (16 * i))))
    (scale d (extracti128 8 1 (loaduU16 values (16 * i))))).map UInt16.toInt16).map FieldElement.mk)
    (F := fun p => FieldElement.decompress values[p]! d) (m := 16) (by decide) rfl (fun i l hl hp => ?_) _ p hp
  have hload : (loaduU16 values (16 * i))[l]! = values[16 * i + l]! := by
    rw [loaduU16, Lanes.load_getElem! _ _ _ hl]
  have hy : values[16 * i + l]!.toNat < 2 ^ d := by
    rw [getElem!_pos values _ hp]
    exact hvalues ⟨_, hp⟩
  have hlt := decompress_quotient_lt hd hd' hy
  rw [getElem!_map _ _ _ hl, getElem!_map _ _ _ hl,
    packLanes_halves (g := fun _ => (FieldElement.decompress values[16 * i + l]! d).rep.toUInt16) _ _ hl,
      Int16.toInt16_toUInt16]
  intro y k hk hyk
  rw [hload] at hyk
  have hquot := scale_toNat hd hd' y k hk (by rw [hyk]; exact hy)
  rw [hyk] at hquot
  apply UInt16.toNat_inj.mp
  rw [saturateU16_of_lt (by rw [hquot]; omega), hquot, toUInt16_of_toInt (decompress_rep hd hd' hy)]

end Poly.Avx2

/-- A natural number that a signed double word holds. -/
theorem toInt_ofNat32 {k : Nat} (hk : k < 2147483648) : (Int32.ofNat k).toInt = k := by
  rw [← Int32.ofInt_eq_ofNat]
  exact Int32.toInt_ofInt_of_le (by simp) (by simp; omega)

theorem saturate32_natCast {k : Nat} (hk : k < 2147483648) : saturate32 k = Int32.ofNat k := by
  apply Int32.toInt_inj.mp
  rw [toInt_ofNat32 hk]
  exact saturate32_toInt ⟨by omega, by omega⟩

/-- Two double words that are natural numbers, bit by bit. -/
theorem ofNat_and32 (a b : Nat) : Int32.ofNat a &&& Int32.ofNat b = Int32.ofNat (a &&& b) :=
  Int32.toBitVec_inj.mp (by rw [Int32.toBitVec_and]; exact BitVec.ofNat_and.symm)

namespace Poly.Neon

/-! ## The doubling product -/

/-- Thirty-two windows of eight lanes tile a storage. -/
theorem storage_windows : 8 * 32 = N := rfl

/-- The multiplier of a width divides every canonical representative by q, rounding as `Compress_d` does. -/
theorem multiplier_divides {d : Nat} (hd : d ∈ [1, 4, 5, 10, 11]) {x : Nat} (hx : x < 3329) :
    (2 * (x * ((2 ^ (31 + d) + 3328) / 3329)) + 2 ^ 31) / 2 ^ 32 = (x * 2 ^ d + 1664) / 3329 := by
  simp only [List.mem_cons, List.not_mem_nil, or_false] at hd
  rcases hd with rfl | rfl | rfl | rfl | rfl
  · norm_num
    omega
  · norm_num
    omega
  · norm_num
    omega
  · norm_num
    omega
  · norm_num
    omega

theorem compressMultiplier_toInt {d : Nat} (hd : d ≤ 11) :
    (compressMultiplier d).toInt = ((2 ^ (31 + d) + 3328) / 3329 : Nat) := by
  have hpow : 2 ^ (31 + d) ≤ 4398046511104 := Nat.pow_le_pow_right (n := 2) (by decide) (by omega : 31 + d ≤ 42)
  exact toInt_ofNat32 (by omega)

/-- The rounded doubling product is the quotient of `Compress_d`. -/
theorem qrdmulh32_quotient {d : Nat} (hd : d ∈ [1, 4, 5, 10, 11]) {x : Int16} {v : Nat} (hx : x.toInt = v) (hv : v < 3329) :
    qrdmulh32 x.toInt32 (compressMultiplier d) = Int32.ofNat ((v * 2 ^ d + 1664) / 3329) := by
  have hle : d ≤ 11 := (by decide : ∀ d ∈ [1, 4, 5, 10, 11], d ≤ 11) d hd
  have hpow : 2 ^ d ≤ 2048 := Nat.pow_le_pow_right (n := 2) (by decide) hle
  have hmul : v * 2 ^ d ≤ 3328 * 2048 := Nat.mul_le_mul (by omega) hpow
  have hquot : (2 * ((v : Int) * ((2 ^ (31 + d) + 3328) / 3329 : Nat)) + 2 ^ 31) / 2 ^ 32 =
      ((v * 2 ^ d + 1664) / 3329 : Nat) := by
    rw [← multiplier_divides hd hv]
    push_cast
    rfl
  rw [qrdmulh32, Int16.toInt_toInt32, hx, compressMultiplier_toInt hle, hquot]
  exact saturate32_natCast (by omega)

/-- A canonical lane is the canonical representative as a number. -/
theorem canonicalLanes_toInt (x : Register) (l : Nat) (hl : l < 8) :
    (canonicalLanes x)[l]!.toInt = (FieldElement.mk x[l]!).value.toNat := by
  have hlt := FieldElement.value_lt (FieldElement.mk x[l]!)
  exact toInt_of_toUInt16 (by rw [canonicalLanes_getElem! x l hl]) (by omega)

/-- The lanes of the vector loop of `compress` hold the compressed coefficients. -/
theorem compressLanes_getElem {d : Nat} (hd : d ∈ [1, 4, 5, 10, 11]) (cs : Coefficients) (i l : Nat) (hl : l < 8) :
    (compressLanes (compressMultiplier d) d (canonicalLanes (vld1qS16 cs (8 * i))))[l] = cs[8 * i + l]!.compress d := by
  have hle : d ≤ 11 := (by decide : ∀ d ∈ [1, 4, 5, 10, 11], d ≤ 11) d hd
  have hpow : 2 ^ d ≤ 2048 := Nat.pow_le_pow_right (n := 2) (by decide) hle
  have hlane : ∀ l < 8, (qrdmulh32 (canonicalLanes (vld1qS16 cs (8 * i)))[l]!.toInt32 (compressMultiplier d) &&&
      Int32.ofNat (1 <<< d - 1)).toInt16 =
        Int16.ofNat ((cs[8 * i + l]!.value.toNat * 2 ^ d + 1664) / 3329 &&& (1 <<< d - 1)) := by
    intro l hl
    have hvalue := canonicalLanes_toInt (vld1qS16 cs (8 * i)) l hl
    rw [vld1qS16_getElem! _ _ _ hl] at hvalue
    rw [qrdmulh32_quotient hd hvalue (FieldElement.value_lt _), ofNat_and32, Int32.toInt16_ofNat']
  have hv := FieldElement.value_lt cs[8 * i + l]!
  have hmul : cs[8 * i + l]!.value.toNat * 2 ^ d ≤ 3328 * 2048 := Nat.mul_le_mul (by omega) hpow
  rw [compressLanes, Vector.getElem_map, vcombineS16_getElem
    (g := fun l => Int16.ofNat ((cs[8 * i + l]!.value.toNat * 2 ^ d + 1664) / 3329 &&& (1 <<< d - 1))) ?_ ?_ l hl]
  · rw [Int16.toUInt16_ofNat', FieldElement.compress]
    simp only [Nat.shiftLeft_eq _ d, Q]
    rw [FieldElement.div_q _ (by omega)]
  · intro l hl
    rw [vmovnS32_getElem, vandS32_getElem, vqrdmulhS32_getElem, vmovlS16_getElem, vgetLowS16_getElem, vdupNS32_getElem,
      vdupNS32_getElem, hlane l (by omega)]
  · intro l hl
    rw [vmovnS32_getElem, vandS32_getElem, vqrdmulhS32_getElem, vmovlHighS16_getElem, vdupNS32_getElem, vdupNS32_getElem,
      hlane (4 + l) (by omega)]

theorem compressWith_eq {d : Nat} (hd : d ∈ [1, 4, 5, 10, 11]) (cs : Coefficients) :
    compressWith (compressMultiplier d) cs d = Poly.Generic.compress cs d := by
  refine Butterfly.ext_getElem! fun p (hp : p < 256) => ?_
  rw [Poly.Generic.compress, getElem!_map _ _ _ hp]
  refine foldl_store (F := fun p => cs[p]!.compress d) (by decide) storage_windows (fun i l hl _ => ?_) _ p hp
  rw [getElem!_pos (compressLanes _ _ _) l hl, compressLanes_getElem hd cs i l hl]

/-- On every width the vector kernel compresses as the portable one does. -/
theorem compress_eq (cs : Coefficients) (d : Nat) : compress cs d = Poly.Generic.compress cs d := by
  unfold compress
  split
  · exact compressWith_eq (by decide) cs
  · exact compressWith_eq (by decide) cs
  · exact compressWith_eq (by decide) cs
  · exact compressWith_eq (by decide) cs
  · exact compressWith_eq (by decide) cs
  · rfl

/-! ## Decompression -/

theorem shift_amount : ∀ d ≤ 11, (-Int32.ofNat d).toInt8.toInt = -(d : Int) := by decide

/-- A shift by a negative amount is a division. -/
theorem shl32_neg {d k : Nat} (hd : 1 ≤ d) (hd' : d ≤ 11) {x : Int32} (hx : x.toInt = k) :
    (shl32 x (-Int32.ofNat d)).toInt16 = Int16.ofNat (k >>> d) := by
  have hneg : ¬0 ≤ -(d : Int) := by omega
  have hcast : (k : Int) / 2 ^ d = ((k >>> d : Nat) : Int) := by
    rw [Nat.shiftRight_eq_div_pow]
    push_cast
    rfl
  rw [shl32, shift_amount d hd', if_neg hneg, Int.neg_neg, Int.toNat_natCast, hx, hcast, Int32.toInt16_ofInt,
    Int16.ofInt_eq_ofNat]

/-- The double word that `decompress` shifts is the dividend of `Decompress_d`. -/
theorem dividend_toInt {d : Nat} (hd : 1 ≤ d) (hd' : d ≤ 11) {x : Int16} {v : Nat} (hx : x.toInt = v) (hv : v < 2 ^ d) :
    (Int32.ofNat (1 <<< (d - 1)) + x.toInt32 * q.toInt32).toInt = (3329 * v + 1 <<< (d - 1) : Nat) := by
  have hpow : 2 ^ d ≤ 2048 := Nat.pow_le_pow_right (n := 2) (by decide) hd'
  have hhalf : 2 ^ d = 2 * 2 ^ (d - 1) := by rw [← pow_succ', Nat.sub_add_cancel hd]
  have hq : q.toInt = 3329 := by decide
  have hbias : (1 <<< (d - 1) : Nat) = 2 ^ (d - 1) := by rw [Nat.shiftLeft_eq, Nat.one_mul]
  have hterm : (Int32.ofNat (2 ^ (d - 1))).toInt = (2 ^ (d - 1) : Nat) := toInt_ofNat32 (by omega)
  have hprod : (x.toInt32 * q.toInt32).toInt = v * 3329 := by rw [toInt_mul_widened, hx, hq]
  rw [hbias, toInt_add32 (by rw [hterm, hprod]; exact ⟨by omega, by omega⟩), hterm, hprod]
  omega

/-- The lanes of the vector loop of `decompress` hold the decompressed values. -/
theorem decompressLanes_getElem {d : Nat} (hd : 1 ≤ d) (hd' : d ≤ 11) (y : Vector UInt16 8)
    (hy : ∀ l < 8, y[l]!.toNat < 2 ^ d)
    (l : Nat) (hl : l < 8) : (decompressLanes d (y.map UInt16.toInt16))[l] = (FieldElement.decompress y[l]! d).rep := by
  have hpow : 2 ^ d ≤ 2048 := Nat.pow_le_pow_right (n := 2) (by decide) hd'
  have hlane : ∀ l < 8, (shl32 (Int32.ofNat (1 <<< (d - 1)) + (y.map UInt16.toInt16)[l]!.toInt32 * q.toInt32)
      (-Int32.ofNat d)).toInt16 = (FieldElement.decompress y[l]! d).rep := by
    intro l hl
    have hv := hy l hl
    have hword : (y.map UInt16.toInt16)[l]!.toInt = y[l]!.toNat := by
      rw [getElem!_map _ _ _ hl]
      exact toInt_of_toUInt16 (by rw [UInt16.toUInt16_toInt16]) (by omega)
    have hlt := decompress_quotient_lt hd hd' hv
    apply Int16.toInt_inj.mp
    rw [shl32_neg hd hd' (dividend_toInt hd hd' hword hv), decompress_rep hd hd' hv, ← Int16.ofInt_eq_ofNat]
    generalize (3329 * y[l]!.toNat + 1 <<< (d - 1)) >>> d = k at hlt
    exact Int16.toInt_ofInt_of_le (by omega) (by omega)
  rw [decompressLanes, vcombineS16_getElem (g := fun l => (FieldElement.decompress y[l]! d).rep) ?_ ?_ l hl]
  · intro l hl
    rw [vmovnS32_getElem, vshlS32_getElem, vmlaNS32_getElem, vmovlS16_getElem, vgetLowS16_getElem, vdupNS32_getElem,
      vdupNS32_getElem, hlane l (by omega)]
  · intro l hl
    rw [vmovnS32_getElem, vshlS32_getElem, vmlaNS32_getElem, vmovlHighS16_getElem, vdupNS32_getElem, vdupNS32_getElem,
      hlane (4 + l) (by omega)]

theorem decompress_eq {values : Vector UInt16 N} {d : Nat} (hd : 1 ≤ d) (hd' : d ≤ 11)
    (hvalues : ∀ i : Fin 256, values[i].toNat < 2 ^ d) :
    decompress values d = Poly.Generic.decompress values d := by
  refine Butterfly.ext_getElem! fun p (hp : p < 256) => ?_
  rw [Poly.Generic.decompress, getElem!_map _ _ _ hp]
  refine foldl_store (F := fun p => FieldElement.decompress values[p]! d) (by decide) storage_windows
    (fun i l hl (hp : 8 * i + l < 256) => ?_) _ p hp
  have hy : ∀ l < 8, (Lanes.load 8 values (8 * i))[l]!.toNat < 2 ^ d := by
    intro l hl
    have hlt : 8 * i + l < 256 := by omega
    rw [Lanes.load_getElem! _ _ _ hl, getElem!_pos values _ hlt]
    exact hvalues ⟨_, hlt⟩
  rw [getElem!_map _ _ _ hl, getElem!_pos (decompressLanes _ _) l hl, decompressLanes_getElem hd hd' _ hy l hl,
    Lanes.load_getElem! _ _ _ hl]

end Poly.Neon

end MlkemSelkie
