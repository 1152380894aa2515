import MlkemSelkie.Encoding.Avx2
import MlkemSelkie.Encoding.Neon
import MlkemSelkie.Lemmas.Packing

/-!
# The vector bit packing

Both backends read and write the fields of the number that the bytes are, so each of their groups is compared with that
number and not with the portable loop.
-/

namespace MlkemSelkie.Encoding

open Digits LittleEndian Lanes X86 NeonLanes

/-! ## The portable kernels -/

/-- A value that the portable kernel unpacks is a digit of the string. -/
theorem unpack_getElem! {d : Nat} (hd : 1 ≤ d) (hd' : d ≤ 12) (bytes : List UInt8) (i : Nat) (hi : i < 256) :
    (Generic.unpack bytes d)[i]!.toNat = ofBytes bytes / 2 ^ (d * i) % 2 ^ d := by
  rw [getElem!_pos (Generic.unpack bytes d) i hi]
  exact Generic.unpack_toNat hd hd' bytes ⟨i, hi⟩

/-- An array filled with the fields of the bytes is what the portable kernel returns. -/
theorem eq_unpack {d : Nat} {bytes : List UInt8} {out : Vector UInt16 N}
    (h : Filled (fun p => (Generic.unpack bytes d)[p]!) (Vector.replicate N 0) 256 out) : out = Generic.unpack bytes d :=
  h.eq fun _ hp => (if_pos hp).symm

/-- A shifted and masked window of bytes is a field. -/
theorem field_of_window {d n s m : Nat} (bytes : List UInt8) (h : s + d ≤ 8 * m) :
    (ofBytes bytes / 2 ^ (8 * n) % 2 ^ (8 * m)) >>> s &&& (1 <<< d - 1) = ofBytes bytes / 2 ^ (8 * n + s) % 2 ^ d := by
  rw [Nat.shiftLeft_eq, Nat.one_mul, Nat.and_two_pow_sub_one_eq_mod, Nat.shiftRight_eq_div_pow, digit_window _ h]

/-- The bit at which a field starts: eight fields fill whole bytes. -/
theorem field_start (D i l : Nat) : 8 * (D * i + D * l / 8) + D * l % 8 = D * (8 * i + l) := by
  rw [Nat.mul_add D, Nat.mul_left_comm D 8 i]
  omega

/-- A kernel that reads one window after the other and stores its fields unpacks the slice, and no load leaves it. -/
theorem unpack_windows {d : Nat} {group : Vector UInt8 16 → Vector UInt16 8} (hd : 1 ≤ d) (hd' : d ≤ 12) (bytes : List UInt8)
    (hgroup : ∀ i v, (∀ l < 16, v[l]! = bytes[d * i + l]!) →
      ∀ l < 8, (group v)[l]!.toNat = ofBytes bytes / 2 ^ (d * (8 * i + l)) % 2 ^ d) :
    (List.range 32).foldlM (fun out i => do
      let v ← paddedWindow 16 0 bytes (d * i)
      return Lanes.store out (8 * i) (group v)) (Vector.replicate N (0 : UInt16)) = some (Generic.unpack bytes d) := by
  obtain ⟨out, hrun, hout⟩ := Loops.foldlM_range (m := 32)
    (I := fun i out => Filled (fun p => (Generic.unpack bytes d)[p]!) (Vector.replicate N 0) (8 * i) out)
    (f := fun out i => do
      let v ← paddedWindow 16 0 bytes (d * i)
      return Lanes.store out (8 * i) (group v))
    (filled_zero _ _) fun i hi out hout => by
      obtain ⟨v, hload, hv⟩ := paddedWindow_spec (w := 16) bytes (d * i)
      refine ⟨Lanes.store out (8 * i) (group v), ?_, ?_⟩
      · rw [show (0 : UInt8) = default from rfl, hload]
        rfl
      · refine hout.store (Nat.le_refl _) (Nat.le_add_right _ _) fun l hl => UInt16.toNat_inj.mp ?_
        rw [hgroup i v hv l hl, unpack_getElem! hd hd' bytes _ (by omega)]
  rw [hrun, eq_unpack hout]

/-- The fields of a storage of values. -/
def fields (values : Vector UInt16 N) (i : Nat) : Nat := values[i]!.toNat

/-- The values of a vector are below the width. -/
theorem fields_lt {d : Nat} {values : Vector UInt16 N} (h : ∀ i : Fin 256, values[i].toNat < 2 ^ d) :
    ∀ i < 256, fields values i < 2 ^ d := by
  intro i hi
  rw [fields, getElem!_pos values i hi]
  exact h ⟨i, hi⟩

/-- A byte that the portable kernel packs is a digit of the number of all values. -/
theorem pack_getElem! {d : Nat} {values : Vector UInt16 N} (hd : d ≤ 12) (h : ∀ i : Fin 256, values[i].toNat < 2 ^ d)
    (k : Nat) (hk : k < 384) : (Generic.pack values d)[k]!.toNat = value d (fields values) 256 / 2 ^ (8 * k) % 2 ^ 8 := by
  rw [getElem!_pos (Generic.pack values d) k hk]
  exact Generic.pack_toNat hd values (fun i hi => h ⟨i, hi⟩) k hk

/-- An output byte: what is left of the value it starts in, and the value behind it if the window has one. -/
theorem output_byte {D i j : Nat} {values : Vector UInt16 N} (h : ∀ i : Fin 256, values[i].toNat < 2 ^ D) (hD : 8 ≤ D)
    (hi : i < 32) (hj : j < D) : value D (fields values) 256 / 2 ^ (8 * (D * i + j)) % 2 ^ 8 =
      (fields values (8 * i + 8 * j / D) >>> (8 * j % D) |||
        (if 8 * j / D + 1 < 8 then fields values (8 * i + (8 * j / D + 1)) else 0) <<< (D - 8 * j % D)) % 2 ^ 8 := by
  have hu : 8 * j / D < 8 := Nat.div_lt_of_lt_mul (by omega)
  have hs : 8 * j % D < D := Nat.mod_lt _ (by omega)
  have hsplit := Nat.div_add_mod (8 * j) D
  have hbit : 8 * (D * i + j) = D * (8 * i + 8 * j / D) + 8 * j % D := by
    rw [Nat.mul_add D, Nat.mul_left_comm D 8 i]
    omega
  rw [hbit, byte_of_digits (fields_lt h) (by omega) hs hD]
  by_cases hnext : 8 * j / D + 1 < 8
  · rw [if_pos hnext]
    exact Or.inl ⟨rfl, by omega⟩
  · have hlast : 8 * j / D = 7 := by omega
    rw [hlast] at hsplit
    exact Or.inr (by omega)

/-- The group of output bytes that starts `j0` bytes behind the start of its window. -/
def Writes (values : Vector UInt16 N) (D j0 : Nat) (group : Vector UInt8 16 → Vector UInt8 8) : Prop :=
  ∀ i < 32, ∀ k < 8, (group (asBytes 16 (Lanes.load 8 values (8 * i))))[k]!.toNat =
    value D (fields values) 256 / 2 ^ (8 * (D * i + j0 + k)) % 2 ^ 8

/-- A kernel that writes two overlapping groups for every window packs the values, and no store leaves the packed bytes. -/
theorem pack_groups {D limit : Nat} {values : Vector UInt16 N} {low high : Vector UInt8 16 → Vector UInt8 8} (hD : 8 ≤ D)
    (hD' : D ≤ 12) (h : ∀ i : Fin 256, values[i].toNat < 2 ^ D) (hlimit : 32 * D ≤ limit) (hlow : Writes values D 0 low)
    (hhigh : Writes values D (D - 8) high) :
    (List.range 32).foldlM (fun out i => do
      let out ← storeWithin limit out (D * i) (low (asBytes 16 (Lanes.load 8 values (8 * i))))
      storeWithin limit out (D * i + (D - 8)) (high (asBytes 16 (Lanes.load 8 values (8 * i)))))
        (Vector.replicate 384 (0 : UInt8)) =
        some (Generic.pack values D) := by
  obtain ⟨out, hrun, hout⟩ := Loops.foldlM_range (m := 32)
    (I := fun i out => Filled (fun p => (Generic.pack values D)[p]!) (Vector.replicate 384 0) (D * i) out)
    (f := fun out i => do
      let out ← storeWithin limit out (D * i) (low (asBytes 16 (Lanes.load 8 values (8 * i))))
      storeWithin limit out (D * i + (D - 8)) (high (asBytes 16 (Lanes.load 8 values (8 * i)))))
    (filled_zero _ _) fun i hi out hout => by
      have hle : D * (i + 1) ≤ D * 32 := Nat.mul_le_mul_left D hi
      rw [Nat.mul_succ] at hle ⊢
      refine ⟨_, by rw [storeWithin_eq (by omega), Option.bind_eq_bind, Option.bind_some, storeWithin_eq (by omega)], ?_⟩
      have hlast : D * i + D = D * i + (D - 8) + 8 := by omega
      have hfirst := hout.store (Nat.le_refl (D * i)) (Nat.le_add_right _ _) fun l hl => UInt8.toNat_inj.mp
        ((hlow i hi l hl).trans (pack_getElem! hD' h (D * i + l) (by omega)).symm)
      rw [hlast]
      refine hfirst.store (by omega) (by omega) fun l hl => UInt8.toNat_inj.mp ?_
      rw [hhigh i hi l hl, pack_getElem! hD' h _ (by omega)]
  have hlt := value_lt (fields_lt h)
  rw [hrun]
  refine congrArg some (hout.eq fun p hp => ?_)
  by_cases hin : p < D * 32
  · rw [if_pos hin]
  · -- the bytes behind the fields are zero
    have hle : 2 ^ (D * 256) ≤ 2 ^ (8 * p) := Nat.pow_le_pow_right (by decide) (by omega)
    apply UInt8.toNat_inj.mp
    rw [if_neg hin, pack_getElem! hD' h p hp, Nat.div_eq_of_lt (Nat.lt_of_lt_of_le hlt hle), getElem!_pos _ p hp,
      Vector.getElem_replicate]
    rfl

/-! ## Bytes in lanes -/

/-- A word of two consecutive bytes of a slice. -/
theorem word_window {n w : Nat} {b : Vector UInt8 n} {bytes : List UInt8} {l start : Nat} (hl : l < w)
    (h : ∀ k < 2, b[2 * l + k]! = bytes[start + k]!) : (asWords w b)[l].toNat =
      ofBytes bytes / 2 ^ (8 * start) % 2 ^ 16 := by
  have hwindow : ofBytes [b[2 * l]!, b[2 * l + 1]!] = ofBytes bytes / 2 ^ (8 * start) % 2 ^ 16 :=
    ofBytes_window fun k hk => by
    match k with
    | 0 => exact h 0 (by decide)
    | 1 => exact h 1 (by decide)
    | k + 2 => exact absurd hk (by simp)
  rw [asWords_getElem, word_toNat]
  exact hwindow

/-- A double word of four consecutive bytes of a slice. -/
theorem uint32_window {n w : Nat} {b : Vector UInt8 n} {bytes : List UInt8} {l start : Nat} (hl : l < w)
    (h : ∀ k < 4, b[4 * l + k]! = bytes[start + k]!) : (asUInt32s w b)[l].toNat =
      ofBytes bytes / 2 ^ (8 * start) % 2 ^ 32 := by
  have hwindow : ofBytes [b[4 * l]!, b[4 * l + 1]!, b[4 * l + 2]!, b[4 * l + 3]!] =
    ofBytes bytes / 2 ^ (8 * start) % 2 ^ 32 :=
    ofBytes_window fun k hk => by
      match k with
      | 0 => exact h 0 (by decide)
      | 1 => exact h 1 (by decide)
      | 2 => exact h 2 (by decide)
      | 3 => exact h 3 (by decide)
      | k + 4 => exact absurd hk (by simp)
  rw [asUInt32s_getElem, UInt32.toNat_ofNat', hwindow, Nat.mod_mod]

/-- The bytes of a value of a window. -/
theorem window_bytes (values : Vector UInt16 N) (i u : Nat) (hu : u < 8) :
    (asBytes 16 (Lanes.load 8 values (8 * i)))[2 * u]! = lowByte values[8 * i + u]! ∧
      (asBytes 16 (Lanes.load 8 values (8 * i)))[2 * u + 1]! = highByte values[8 * i + u]! := by
  have hlo : 2 * u / 2 = u := by omega
  have hhi : (2 * u + 1) / 2 = u := by omega
  rw [asBytes_getElem! _ _ (by omega), asBytes_getElem! _ _ (by omega), if_pos (by omega), if_neg (by omega), hlo, hhi,
    Lanes.load_getElem! _ _ _ hu]
  exact ⟨rfl, rfl⟩

namespace Avx2

/-! ## Packing -/

/-- A double word gathered from the bytes of a value. -/
theorem value_toNat {idx : Vector UInt8 32} (values : Vector UInt16 N) (i : Nat) {k u : Nat} (hk : k < 8) (hu : u < 8)
    (hlow : ∀ b < 2, idx[4 * k + b]!.toNat = 2 * u + b) (hhigh : ∀ b < 2, 128 ≤ idx[4 * k + 2 + b]!.toNat) :
    (asUInt32s 8 (shuffleEpi8 (broadcastsi128 (asBytes 16 (Lanes.load 8 values (8 * i))) 32) idx))[k].toNat =
      fields values (8 * i + u) := by
  obtain ⟨hlo, hhi⟩ := window_bytes values i u hu
  have hx := values[8 * i + u]!.toNat_lt
  have hbytes : ofBytes [lowByte values[8 * i + u]!, highByte values[8 * i + u]!, 0, 0] = values[8 * i + u]!.toNat := by
    simp only [ofBytes_cons, lowByte_toNat, highByte_toNat]
    simp only [ofBytes, List.foldr_nil, UInt8.toNat_zero]
    omega
  have hfirst : idx[4 * k]!.toNat = 2 * u := hlow 0 (by decide)
  rw [asUInt32s_getElem, shuffleEpi8_broadcast _ _ (by omega) hfirst (by omega),
    shuffleEpi8_broadcast _ _ (by omega) (hlow 1 (by decide)) (by omega),
      shuffleEpi8_zero _ _ (by omega) (hhigh 0 (by decide)),
    shuffleEpi8_zero _ _ (by omega) (hhigh 1 (by decide)), hlo, hhi, hbytes, UInt32.toNat_ofNat', fields,
    Nat.mod_eq_of_lt (by omega)]

/-- A double word of which nothing is gathered. -/
theorem absent_toNat {idx : Vector UInt8 32} {wide : Vector UInt8 32} {k : Nat} (hk : k < 8)
    (h : ∀ b < 4, 128 ≤ idx[4 * k + b]!.toNat) : (asUInt32s 8 (shuffleEpi8 wide idx))[k].toNat = 0 := by
  have hfirst : 128 ≤ idx[4 * k]!.toNat := h 0 (by decide)
  rw [asUInt32s_getElem, shuffleEpi8_zero _ _ (by omega) hfirst, shuffleEpi8_zero _ _ (by omega) (h 1 (by decide)),
    shuffleEpi8_zero _ _ (by omega) (h 2 (by decide)), shuffleEpi8_zero _ _ (by omega) (h 3 (by decide))]
  rfl

/-- The offset of a byte in its value. -/
theorem bitOffset_eq (D j0 k : Nat) : bitOffset D j0 k = 8 * (j0 + k) % D := by
  rw [bitOffset, valueIndex, Nat.mod_eq_sub_mul_div]

/-- The control gathers the two bytes of the value that a packed byte begins in. -/
theorem idxValue_getElem! {D j0 k b : Nat} (hk : k < 8) (hb : b < 4) (hu : valueIndex D j0 k < 8) :
    (packControls D j0).idxValue[4 * k + b]!.toNat = if b < 2 then 2 * valueIndex D j0 k + b else 255 := by
  have hdiv : (4 * k + b) / 4 = k := by omega
  have hmod : (4 * k + b) % 4 = b := by omega
  rw [getElem!_pos _ (4 * k + b) (by omega), packControls, Vector.getElem_ofFn]
  simp only [hdiv, hmod]
  split
  · exact (UInt8.toNat_ofNat').trans (Nat.mod_eq_of_lt (by omega))
  · rfl

/-- The second control gathers the two bytes of the value after it, where there is one. -/
theorem idxNext_getElem! {D j0 k b : Nat} (hk : k < 8) (hb : b < 4) : (packControls D j0).idxNext[4 * k + b]!.toNat =
    if b < 2 ∧ valueIndex D j0 k + 1 < 8 then 2 * (valueIndex D j0 k + 1) + b else 255 := by
  have hdiv : (4 * k + b) / 4 = k := by omega
  have hmod : (4 * k + b) % 4 = b := by omega
  rw [getElem!_pos _ (4 * k + b) (by omega), packControls, Vector.getElem_ofFn]
  simp only [hdiv, hmod]
  split
  · rename_i hnext
    exact (UInt8.toNat_ofNat').trans (Nat.mod_eq_of_lt (by omega))
  · rfl

/-- The value behind, or zero past the window. -/
theorem next_toNat (D j0 i : Nat) {k : Nat} (values : Vector UInt16 N) (hk : k < 8) :
    (asUInt32s 8 (shuffleEpi8 (broadcastsi128 (asBytes 16 (Lanes.load 8 values (8 * i))) 32)
      (packControls D j0).idxNext))[k].toNat =
      if valueIndex D j0 k + 1 < 8 then fields values (8 * i + (valueIndex D j0 k + 1)) else 0 := by
  by_cases hnext : valueIndex D j0 k + 1 < 8
  · rw [if_pos hnext]
    refine value_toNat values i hk hnext (fun b hb => ?_) (fun b hb => ?_)
    · rw [idxNext_getElem! hk (by omega), if_pos ⟨hb, hnext⟩]
    · rw [Nat.add_assoc, idxNext_getElem! hk (by omega), if_neg (by omega)]
      decide
  · rw [if_neg hnext]
    refine absent_toNat hk fun b hb => ?_
    rw [idxNext_getElem! hk hb, if_neg (by omega)]
    decide

/-- A group packs eight values into its bytes. -/
theorem packGroup_writes {D j0 : Nat} {values : Vector UInt16 N} (hD : 8 ≤ D) (hD' : D ≤ 12) (hj0 : j0 + 8 ≤ D)
    (h : ∀ i : Fin 256, values[i].toNat < 2 ^ D) :
    Writes values D j0 fun data => packGroup (packControls D j0) (broadcastsi128 data 32) := by
  intro i hi k hk
  have hu : valueIndex D j0 k < 8 := Nat.div_lt_of_lt_mul (by omega)
  have hs : 8 * (j0 + k) % D < D := Nat.mod_lt _ (by omega)
  have hshift : (packControls D j0).shiftValue[k].toNat = 8 * (j0 + k) % D := by
    rw [packControls, Vector.getElem_ofFn, UInt32.toNat_ofNat', bitOffset_eq]
    exact Nat.mod_eq_of_lt (by simp only []; omega)
  have hback : (packControls D j0).shiftNext[k].toNat = D - 8 * (j0 + k) % D := by
    have hwidth : (UInt32.ofNat D).toNat = D := UInt32.toNat_ofNat_of_lt' (by rw [UInt32.size]; omega)
    have hoffset : (UInt32.ofNat (8 * (j0 + k) % D)).toNat = 8 * (j0 + k) % D :=
      UInt32.toNat_ofNat_of_lt' (by rw [UInt32.size]; omega)
    rw [packControls, Vector.getElem_ofFn]
    simp only [bitOffset_eq]
    rw [UInt32.toNat_sub_of_le _ _ (UInt32.le_iff_toNat_le.mpr (by rw [hwidth, hoffset]; omega)), hwidth, hoffset]
  have hmask : (0xFF : UInt32).toNat = 2 ^ 8 - 1 := rfl
  have hvalue := value_toNat values i hk hu (fun b hb => by rw [idxValue_getElem! hk (by omega) hu, if_pos hb])
    fun b hb => by
      rw [Nat.add_assoc, idxValue_getElem! hk (by omega) hu, if_neg (by omega)]
      decide
  -- the bytes of the lanes before they are packed
  have hlane : (andSi256 (orSi256
      (srlvEpi32 (asUInt32s 8 (shuffleEpi8 (broadcastsi128 (asBytes 16 (Lanes.load 8 values (8 * i))) 32)
        (packControls D j0).idxValue))
        (packControls D j0).shiftValue)
      (sllvEpi32 (asUInt32s 8 (shuffleEpi8 (broadcastsi128 (asBytes 16 (Lanes.load 8 values (8 * i))) 32)
        (packControls D j0).idxNext))
        (packControls D j0).shiftNext)) (set1Epi32 (0xFF : UInt32)))[k].toNat =
      value D (fields values) 256 / 2 ^ (8 * (D * i + j0 + k)) % 2 ^ 8 := by
    have hnext := next_toNat D j0 i values hk
    have hsmall : (if valueIndex D j0 k + 1 < 8 then fields values (8 * i + (valueIndex D j0 k + 1)) else 0) ≤ 4096 := by
      have hpow : 2 ^ D ≤ 4096 := Nat.pow_le_pow_right (n := 2) (by decide) hD'
      split
      · have hlt := fields_lt h (8 * i + (valueIndex D j0 k + 1)) (by omega)
        omega
      · decide
    have hroom : 2 ^ (D - 8 * (j0 + k) % D) ≤ 4096 := Nat.pow_le_pow_right (n := 2) (by decide) (by omega : _ ≤ 12)
    have hfits := Nat.mul_le_mul hsmall hroom
    rw [andSi256_getElem, orSi256_getElem, srlvEpi32_getElem, sllvEpi32_getElem, set1Epi32_getElem, UInt32.toNat_and,
      UInt32.toNat_or, hmask, hshift, hback, shr_toNat (by omega), hvalue,
      shl_toNat (by omega) (by rw [hnext, Nat.shiftLeft_eq]; omega), hnext, Nat.and_two_pow_sub_one_eq_mod,
        Nat.add_assoc (D * i), output_byte h hD hi (by omega)]
    rfl
  have hbyte := Nat.mod_lt (value D (fields values) 256 / 2 ^ (8 * (D * i + j0 + k))) (Nat.two_pow_pos 8)
  unfold packGroup
  simp only []
  rw [Lanes.load_getElem! _ _ _ hk, Nat.zero_add, packusEpi16_halves _ k hk, getElem!_pos (andSi256 _ _) k hk, hlane]
  rw [getElem!_pos (andSi256 _ _) k hk, hlane]
  exact hbyte

/-- The gathering pack is the portable one, inside its limit. -/
theorem packGathered_eq {D limit : Nat} {values : Vector UInt16 N} (hD : 8 ≤ D) (hD' : D ≤ 12)
    (h : ∀ i : Fin 256, values[i].toNat < 2 ^ D) (hlimit : 32 * D ≤ limit) :
    packGathered limit D values = some (Generic.pack values D) := by
  have hrun := pack_groups hD hD' h hlimit (packGroup_writes hD hD' (by omega) h) (packGroup_writes hD hD' (by omega) h)
  exact hrun

/-- Every width, the stores of the kernels allowed in the packed bytes only. -/
theorem packWithin_eq {d limit : Nat} {values : Vector UInt16 N} (h : ∀ i : Fin 256, values[i].toNat < 2 ^ d)
    (hlimit : 32 * d ≤ limit) : packWithin limit values d = some (Generic.pack values d) := by
  unfold packWithin
  split
  · exact packGathered_eq (by decide) (by decide) h hlimit
  · exact packGathered_eq (by decide) (by decide) h hlimit
  · exact packGathered_eq (by decide) (by decide) h hlimit
  · rfl

/-! ## Unpacking -/

/-- The control gathers four bytes from where the value begins, all inside the register. -/
theorem gatherControls_idx {D k : Nat} (hD : D ≤ 12) (hk : k < 32) :
    (gatherControls D).1[k]!.toNat = D * (k / 4) / 8 + k % 4 ∧ D * (k / 4) / 8 + k % 4 < 16 := by
  have hle : D * (k / 4) ≤ 12 * 7 := Nat.mul_le_mul hD (by omega)
  have hlt : D * (k / 4) / 8 + k % 4 < 16 := by omega
  rw [gatherControls, getElem!_pos _ k hk, Vector.getElem_ofFn, UInt8.toNat_ofNat']
  exact ⟨Nat.mod_eq_of_lt (by simp only []; omega), hlt⟩

/-- The shift is what is left of the offset. -/
theorem gatherControls_shift {D l : Nat} (hl : l < 8) : (gatherControls D).2[l].toNat = D * l % 8 := by
  rw [gatherControls, Vector.getElem_ofFn, UInt32.toNat_ofNat']
  exact Nat.mod_eq_of_lt (by simp only []; omega)

/-- The four bytes gathered for a value. -/
theorem gathered_toNat {D start : Nat} {bytes : List UInt8} {v : Vector UInt8 16} (hD : D ≤ 12)
    (hv : ∀ l < 16, v[l]! = bytes[start + l]!) (l : Nat) (hl : l < 8) :
    (asUInt32s 8 (shuffleEpi8 (broadcastsi128 v 32) (gatherControls D).1))[l].toNat =
      ofBytes bytes / 2 ^ (8 * (start + D * l / 8)) % 2 ^ 32 := by
  refine uint32_window hl fun b hb => ?_
  obtain ⟨hcontrol, hlt⟩ := gatherControls_idx hD (show 4 * l + b < 32 by omega)
  have hdiv : (4 * l + b) / 4 = l := by omega
  have hmod : (4 * l + b) % 4 = b := by omega
  rw [hdiv, hmod] at hcontrol hlt
  rw [shuffleEpi8_broadcast _ _ (by omega) hcontrol hlt, hv _ hlt, Nat.add_assoc]

/-- The lanes of a group are the fields of its window. -/
theorem unpackGroup_toNat {D i : Nat} {bytes : List UInt8} {v : Vector UInt8 16} (hD : D ≤ 12)
    (hv : ∀ l < 16, v[l]! = bytes[D * i + l]!) (l : Nat) (hl : l < 8) :
    (unpackGroup D v)[l]!.toNat = ofBytes bytes / 2 ^ (D * (8 * i + l)) % 2 ^ D := by
  have hpow : 2 ^ D ≤ 4096 := Nat.pow_le_pow_right (n := 2) (by decide) hD
  have hmask : (UInt32.ofNat (1 <<< D - 1)).toNat = 1 <<< D - 1 := by
    rw [UInt32.toNat_ofNat', Nat.shiftLeft_eq]
    exact Nat.mod_eq_of_lt (by omega)
  have hlane : (andSi256 (srlvEpi32 (asUInt32s 8 (shuffleEpi8 (broadcastsi128 v 32) (gatherControls D).1))
    (gatherControls D).2)
      (set1Epi32 (UInt32.ofNat (1 <<< D - 1))))[l].toNat = ofBytes bytes / 2 ^ (D * (8 * i + l)) % 2 ^ D := by
    rw [andSi256_getElem, srlvEpi32_getElem, set1Epi32_getElem, UInt32.toNat_and, hmask, gatherControls_shift hl,
      shr_toNat (by omega), gathered_toNat hD hv l hl, field_of_window (m := 4) bytes (by omega), field_start]
  have hlt := Nat.mod_lt (ofBytes bytes / 2 ^ (D * (8 * i + l))) (Nat.two_pow_pos D)
  rw [unpackGroup]
  simp only []
  rw [packusEpi32_halves _ l hl, getElem!_pos (andSi256 _ _) l hl, saturateU16_of_lt (by rw [hlane]; omega), hlane]

/-- The gathering unpack is the portable one on every slice. -/
theorem unpackGathered_eq {D : Nat} (hD : 1 ≤ D) (hD' : D ≤ 12) (bytes : List UInt8) :
    unpackGathered D bytes = some (Generic.unpack bytes D) :=
  unpack_windows hD hD' bytes fun _ _ hv => unpackGroup_toNat hD' hv

/-- The kernel picks a path by width; all of them unpack as the portable one. -/
theorem unpack_eq (bytes : List UInt8) (d : Nat) : unpack bytes d = some (Generic.unpack bytes d) := by
  unfold unpack
  split
  · exact unpackGathered_eq (by decide) (by decide) bytes
  · exact unpackGathered_eq (by decide) (by decide) bytes
  · exact unpackGathered_eq (by decide) (by decide) bytes
  · exact unpackGathered_eq (by decide) (by decide) bytes
  · exact unpackGathered_eq (by decide) (by decide) bytes
  · rfl

end Avx2

namespace Neon

/-! ## Packing -/

/-- A word gathered from the bytes of a value. -/
theorem value_toNat {idx : Vector UInt8 16} (values : Vector UInt16 N) (i : Nat) {k u : Nat} (hk : k < 8) (hu : u < 8)
    (hidx : ∀ b < 2, idx[2 * k + b]!.toNat = 2 * u + b) :
    (asWords 8 (vqtbl1qU8 (asBytes 16 (Lanes.load 8 values (8 * i))) idx))[k].toNat = fields values (8 * i + u) := by
  obtain ⟨hlo, hhi⟩ := window_bytes values i u hu
  have hfirst : idx[2 * k]!.toNat = 2 * u := hidx 0 (by decide)
  rw [asWords_getElem, vqtbl1qU8_getElem! _ _ (by omega) hfirst (by omega),
    vqtbl1qU8_getElem! _ _ (by omega) (hidx 1 (by decide))
    (by omega), hlo, hhi, word_bytes, fields]

/-- A word of which nothing is gathered. -/
theorem absent_toNat {idx table : Vector UInt8 16} {k : Nat} (hk : k < 8) (h : ∀ b < 2, 16 ≤ idx[2 * k + b]!.toNat) :
    (asWords 8 (vqtbl1qU8 table idx))[k].toNat = 0 := by
  have hfirst : 16 ≤ idx[2 * k]!.toNat := h 0 (by decide)
  rw [asWords_getElem, vqtbl1qU8_zero _ _ (by omega) hfirst, vqtbl1qU8_zero _ _ (by omega) (h 1 (by decide))]
  rfl

/-- The offset of a byte in its value, as a word. -/
theorem bitOffset_eq (D j0 k : Nat) : bitOffset D j0 k = Int16.ofNat (8 * (j0 + k) % D) := by
  rw [bitOffset, valueIndex, Nat.mod_eq_sub_mul_div]

/-- The shifts of the widths, as amounts. -/
theorem shift_amounts : ∀ D ≤ 12, ∀ s ≤ D, (-Int16.ofNat s).toInt8.toInt = -(s : Int) ∧
    (Int16.ofNat D - Int16.ofNat s).toInt8.toInt = (D - s : Nat) := by decide

/-- The control gathers the two bytes of the value that a packed byte begins in. -/
theorem idxValue_getElem! {D j0 k b : Nat} (hk : k < 8) (hb : b < 2) (hu : valueIndex D j0 k < 8) :
    (packControls D j0).idxValue[2 * k + b]!.toNat = 2 * valueIndex D j0 k + b := by
  have hdiv : (2 * k + b) / 2 = k := by omega
  have hmod : (2 * k + b) % 2 = b := by omega
  rw [getElem!_pos _ (2 * k + b) (by omega), packControls, Vector.getElem_ofFn, UInt8.toNat_ofNat']
  simp only [hdiv, hmod]
  exact Nat.mod_eq_of_lt (by omega)

/-- The second control gathers the two bytes of the value after it, where there is one. -/
theorem idxNext_getElem! {D j0 k b : Nat} (hk : k < 8) (hb : b < 2) : (packControls D j0).idxNext[2 * k + b]!.toNat =
    if valueIndex D j0 k + 1 < 8 then 2 * (valueIndex D j0 k + 1) + b else 255 := by
  have hdiv : (2 * k + b) / 2 = k := by omega
  have hmod : (2 * k + b) % 2 = b := by omega
  rw [getElem!_pos _ (2 * k + b) (by omega), packControls, Vector.getElem_ofFn]
  simp only [hdiv, hmod]
  split
  · exact (UInt8.toNat_ofNat').trans (Nat.mod_eq_of_lt (by omega))
  · rfl

/-- The value behind, or zero past the window. -/
theorem next_toNat (D j0 i : Nat) {k : Nat} (values : Vector UInt16 N) (hk : k < 8) :
    (asWords 8 (vqtbl1qU8 (asBytes 16 (Lanes.load 8 values (8 * i))) (packControls D j0).idxNext))[k].toNat =
      if valueIndex D j0 k + 1 < 8 then fields values (8 * i + (valueIndex D j0 k + 1)) else 0 := by
  by_cases hnext : valueIndex D j0 k + 1 < 8
  · rw [if_pos hnext]
    refine value_toNat values i hk hnext fun b hb => ?_
    rw [idxNext_getElem! hk hb, if_pos hnext]
  · rw [if_neg hnext]
    refine absent_toNat hk fun b hb => ?_
    rw [idxNext_getElem! hk hb, if_neg hnext]
    decide

/-- A group packs eight values into its bytes. -/
theorem packGroup_writes {D j0 : Nat} {values : Vector UInt16 N} (hD : 8 ≤ D) (hD' : D ≤ 12) (hj0 : j0 + 8 ≤ D)
    (h : ∀ i : Fin 256, values[i].toNat < 2 ^ D) : Writes values D j0 (packGroup (packControls D j0)) := by
  intro i hi k hk
  have hu : valueIndex D j0 k < 8 := Nat.div_lt_of_lt_mul (by omega)
  have hs : 8 * (j0 + k) % D < D := Nat.mod_lt _ (by omega)
  obtain ⟨hdown, hup⟩ := shift_amounts D hD' _ hs.le
  have hshift : (packControls D j0).shiftValue[k].toInt8.toInt = -(8 * (j0 + k) % D : Nat) := by
    rw [packControls, Vector.getElem_ofFn, bitOffset_eq, hdown]
  have hback : (packControls D j0).shiftNext[k].toInt8.toInt = (D - 8 * (j0 + k) % D : Nat) := by
    rw [packControls, Vector.getElem_ofFn, bitOffset_eq, hup]
  have hvalue := value_toNat values i hk hu fun b hb => idxValue_getElem! hk hb hu
  have hnext := next_toNat D j0 i values hk
  rw [getElem!_pos _ k hk, packGroup, vmovnU16_getElem, vorrU16_getElem, vshlU16_getElem, vshlU16_getElem,
    UInt16.toNat_toUInt8, UInt16.toNat_or, shlU16_right hshift, shlU16_left hback, hvalue, hnext, Nat.add_assoc (D * i),
      output_byte h hD hi (by omega),
    Nat.or_mod_two_pow, Nat.or_mod_two_pow, Nat.mod_mod_of_dvd _ (by decide : 2 ^ 8 ∣ 2 ^ 16)]
  rfl

/-- The gathering pack is the portable one, inside its limit. -/
theorem packGathered_eq {D limit : Nat} {values : Vector UInt16 N} (hD : 8 ≤ D) (hD' : D ≤ 12)
    (h : ∀ i : Fin 256, values[i].toNat < 2 ^ D) (hlimit : 32 * D ≤ limit) :
    packGathered limit D values = some (Generic.pack values D) :=
  pack_groups hD hD' h hlimit (packGroup_writes hD hD' (by omega) h) (packGroup_writes hD hD' (by omega) h)

/-- Every width, the stores of the kernels allowed in the packed bytes only. -/
theorem packWithin_eq {d limit : Nat} {values : Vector UInt16 N} (h : ∀ i : Fin 256, values[i].toNat < 2 ^ d)
    (hlimit : 32 * d ≤ limit) : packWithin limit values d = some (Generic.pack values d) := by
  unfold packWithin
  split
  · exact packGathered_eq (by decide) (by decide) h hlimit
  · exact packGathered_eq (by decide) (by decide) h hlimit
  · exact packGathered_eq (by decide) (by decide) h hlimit
  · rfl

/-! ## Unpacking -/

/-- The tables of a width whose values span at most two bytes: where every value starts, in bytes and in bits. -/
def Gathers (D : Nat) (idx : Vector UInt8 16) (shifts : Vector Int16 8) : Prop :=
  ∀ l < 8, (∀ k < 2, idx[2 * l + k]!.toNat = D * l / 8 + k) ∧ shifts[l]!.toInt8.toInt = -(D * l % 8 : Nat) ∧
    D * l / 8 + 1 < 16 ∧ D * l % 8 + D ≤ 16

/-- The table of width five. -/
theorem gathers_5 : Gathers 5 idx5 shifts5 := by
  unfold Gathers
  decide

/-- The table of width ten. -/
theorem gathers_10 : Gathers 10 idx10 shifts10 := by
  unfold Gathers
  decide

/-- The table of width twelve. -/
theorem gathers_12 : Gathers 12 idx12 shifts12 := by
  unfold Gathers
  decide

/-- A group of a table unpacks eight values. -/
theorem unpackGroup_toNat {D i : Nat} {idx : Vector UInt8 16} {shifts : Vector Int16 8} (hD : D ≤ 12)
    (htable : Gathers D idx shifts)
    {bytes : List UInt8} {v : Vector UInt8 16} (hv : ∀ l < 16, v[l]! = bytes[D * i + l]!) (l : Nat) (hl : l < 8) :
    (unpackGroup D idx shifts v)[l]!.toNat = ofBytes bytes / 2 ^ (D * (8 * i + l)) % 2 ^ D := by
  obtain ⟨hidx, hshift, hin, hspan⟩ := htable l hl
  have hpow : 2 ^ D ≤ 4096 := Nat.pow_le_pow_right (n := 2) (by decide) hD
  have hmask : (UInt16.ofNat (1 <<< D - 1)).toNat = 1 <<< D - 1 := by
    rw [UInt16.toNat_ofNat', Nat.shiftLeft_eq]
    exact Nat.mod_eq_of_lt (by omega)
  have hgathered : (asWords 8 (vqtbl1qU8 v idx))[l].toNat = ofBytes bytes / 2 ^ (8 * (D * i + D * l / 8)) % 2 ^ 16 := by
    refine word_window hl fun k hk => ?_
    rw [vqtbl1qU8_getElem! _ _ (by omega) (hidx k hk) (by omega), hv _ (by omega), Nat.add_assoc]
  rw [getElem!_pos shifts l hl] at hshift
  rw [getElem!_pos (unpackGroup D idx shifts v) l hl, unpackGroup, vandU_getElem, vshlU16_getElem, vdupNU_getElem,
    UInt16.toNat_and, hmask, shlU16_right hshift, hgathered, field_of_window (m := 2) bytes hspan, field_start]

/-- The tables of the width 11, which gather four bytes for every value. -/
theorem gathers_11 : ∀ l < 4, (∀ k < 4, idx11Low[4 * l + k]!.toNat = 11 * l / 8 + k) ∧
    (∀ k < 4, idx11High[4 * l + k]!.toNat = 11 * (4 + l) / 8 + k) ∧ shifts11Low[l]!.toInt8.toInt = -(11 * l % 8 : Nat) ∧
      shifts11High[l]!.toInt8.toInt = -(11 * (4 + l) % 8 : Nat) ∧ 11 * (4 + l) / 8 + 3 < 16 := by decide

/-- Four values gathered from four bytes each. -/
theorem gathered11_toNat {i : Nat} {idx : Vector UInt8 16} {shifts : Vector Int32 4} {bytes : List UInt8}
    {v : Vector UInt8 16}
    (hv : ∀ l < 16, v[l]! = bytes[11 * i + l]!) {l u : Nat} (hl : l < 4)
      (hidx : ∀ k < 4, idx[4 * l + k]!.toNat = 11 * u / 8 + k)
    (hshift : shifts[l]!.toInt8.toInt = -(11 * u % 8 : Nat)) (hin : 11 * u / 8 + 3 < 16) :
    (vmovnU32 (vandU (vshlU32 (asUInt32s 4 (vqtbl1qU8 v idx)) shifts) (vdupNU (UInt32.ofNat (1 <<< 11 - 1)))))[l].toNat =
      ofBytes bytes / 2 ^ (11 * (8 * i + u)) % 2 ^ 11 := by
  have hmask : (UInt32.ofNat (1 <<< 11 - 1)).toNat = 1 <<< 11 - 1 := rfl
  have hgathered : (asUInt32s 4 (vqtbl1qU8 v idx))[l].toNat = ofBytes bytes / 2 ^ (8 * (11 * i + 11 * u / 8)) % 2 ^ 32 := by
    refine uint32_window hl fun k hk => ?_
    rw [vqtbl1qU8_getElem! _ _ (by omega) (hidx k hk) (by omega), hv _ (by omega), Nat.add_assoc]
  rw [getElem!_pos shifts l hl] at hshift
  have hlt := Nat.mod_lt (ofBytes bytes / 2 ^ (11 * (8 * i + u))) (Nat.two_pow_pos 11)
  rw [vmovnU32_getElem, vandU_getElem, vshlU32_getElem, vdupNU_getElem, UInt32.toNat_toUInt16, UInt32.toNat_and, hmask,
    shlU32_right hshift, hgathered, field_of_window (m := 4) bytes (by omega), field_start]
  exact Nat.mod_eq_of_lt (by omega)

/-- The group of width eleven, whose values may lie across three bytes. -/
theorem unpackGroup11_toNat {i : Nat} {bytes : List UInt8} {v : Vector UInt8 16} (hv : ∀ l < 16, v[l]! = bytes[11 * i + l]!)
    (l : Nat) (hl : l < 8) : (unpackGroup11 v)[l]!.toNat = ofBytes bytes / 2 ^ (11 * (8 * i + l)) % 2 ^ 11 := by
  rw [getElem!_pos (unpackGroup11 v) l hl, unpackGroup11, vcombineU16, Vector.getElem_ofFn]
  simp only []
  by_cases h : l < 4
  · obtain ⟨hidx, _, hshift, _, _⟩ := gathers_11 l h
    rw [if_pos h, getElem!_pos _ l h]
    exact gathered11_toNat hv h hidx hshift (by omega)
  · obtain ⟨_, hidx, _, hshift, hin⟩ := gathers_11 (l - 4) (by omega)
    have hlane : 4 + (l - 4) = l := by omega
    rw [hlane] at hidx hshift hin
    rw [if_neg h, getElem!_pos _ (l - 4) (by omega)]
    exact gathered11_toNat hv (by omega) hidx hshift hin

/-- The gathering unpack of a table is the portable one on every slice. -/
theorem unpackGathered_eq {D : Nat} (hD : 1 ≤ D) (hD' : D ≤ 12) {idx : Vector UInt8 16} {shifts : Vector Int16 8}
    (htable : Gathers D idx shifts) (bytes : List UInt8) : unpackGathered D bytes idx shifts =
      some (Generic.unpack bytes D) :=
  unpack_windows hD hD' bytes fun _ _ hv => unpackGroup_toNat hD' htable hv

/-- The same of width eleven. -/
theorem unpack11_eq (bytes : List UInt8) : unpack11 bytes = some (Generic.unpack bytes 11) :=
  unpack_windows (by decide) (by decide) bytes fun _ _ hv => unpackGroup11_toNat hv

/-- The two halves of the bytes of a window in turn are its fields of four bits. -/
theorem halves_toNat {bytes : List UInt8} {i : Nat} {data : Vector UInt8 16}
    (hdata : ∀ l < 16, data[l]! = bytes[16 * i + l]!)
    (j : Nat) (hj : j < 32) : (if j % 2 = 0 then (vandU data (vdupNU 0xF))[j / 2]! else (vshrNU8 4 data)[j / 2]!).toNat =
      ofBytes bytes / 2 ^ (4 * (32 * i + j)) % 2 ^ 4 := by
  have hbyte := ofBytes_digit bytes (16 * i + j / 2)
  rw [← hdata _ (by omega)] at hbyte
  have hmask : (0xF : UInt8).toNat = 2 ^ 4 - 1 := rfl
  have hlow : (vandU data (vdupNU 0xF))[j / 2]!.toNat = data[j / 2]!.toNat % 2 ^ 4 := by
    rw [getElem!_pos (vandU data (vdupNU 0xF)) _ (by omega), vandU_getElem, vdupNU_getElem, UInt8.toNat_and, hmask,
      Nat.and_two_pow_sub_one_eq_mod, getElem!_pos data _ (by omega)]
  have hhigh : (vshrNU8 4 data)[j / 2]!.toNat = data[j / 2]!.toNat / 2 ^ 4 % 2 ^ 4 := by
    have hlt := data[j / 2]!.toNat_lt
    rw [vshrNU8, getElem!_map _ _ _ (by omega), UInt8.toNat_ofNat', Nat.shiftRight_eq_div_pow, Nat.mod_eq_of_lt (by omega),
      Nat.mod_eq_of_lt (by omega)]
  rcases Nat.mod_two_eq_zero_or_one j with h | h
  · have hbit : 8 * (16 * i + j / 2) + 0 = 4 * (32 * i + j) := by omega
    rw [if_pos h, hlow, ← hbyte, ← Nat.div_one (_ / _ % _), ← Nat.pow_zero 2, digit_window _ (by decide), hbit]
  · have hbit : 8 * (16 * i + j / 2) + 4 = 4 * (32 * i + j) := by omega
    rw [if_neg (by omega), hhigh, ← hbyte, digit_window _ (by decide), hbit]

/-- The pass of `unpack_4` fills the values of its sixteen bytes. -/
theorem unpack4_pass {bytes : List UInt8} {i : Nat} {data : Vector UInt8 16} (hi : i < 8)
    (hdata : ∀ l < 16, data[l]! = bytes[16 * i + l]!) {init out : Vector UInt16 N}
    (h : Filled (fun p => (Generic.unpack bytes 4)[p]!) init (32 * i) out) :
    Filled (fun p => (Generic.unpack bytes 4)[p]!) init (32 * (i + 1)) (unpack4Chunk out i data) := by
  have hvalue : ∀ j < 32, (if j % 2 = 0 then (vandU data (vdupNU 0xF))[j / 2]! else (vshrNU8 4 data)[j / 2]!).toUInt16 =
      (Generic.unpack bytes 4)[32 * i + j]! := by
    intro j hj
    apply UInt16.toNat_inj.mp
    rw [UInt8.toNat_toUInt16, halves_toNat hdata j hj, unpack_getElem! (by decide) (by decide) bytes _ (by omega)]
  have hfirst : ∀ j < 16, (vzip1U8 (vandU data (vdupNU 0xF)) (vshrNU8 4 data))[j]!.toUInt16 =
      (Generic.unpack bytes 4)[32 * i + j]! := by
    intro j hj
    rw [vzip1U8_getElem! _ _ j hj, hvalue j (by omega)]
  have hsecond : ∀ j < 16, (vzip2U8 (vandU data (vdupNU 0xF)) (vshrNU8 4 data))[j]!.toUInt16 =
      (Generic.unpack bytes 4)[32 * i + 16 + j]! := by
    intro j hj
    have hhalf : (16 + j) / 2 = 8 + j / 2 := by omega
    have hparity : (16 + j) % 2 = j % 2 := by omega
    rw [vzip2U8_getElem! _ _ j hj, Nat.add_assoc, ← hvalue (16 + j) (by omega), hhalf, hparity]
  unfold unpack4Chunk
  refine Filled.store (k := 32 * i + 24) ?_ (Nat.le_refl _) (Nat.le_add_right _ _) fun l hl => ?_
  · refine Filled.store (k := 32 * i + 16) ?_ (Nat.le_refl _) (Nat.le_add_right _ _) fun l hl => ?_
    · refine Filled.store (k := 32 * i + 8) ?_ (Nat.le_refl _) (Nat.le_add_right _ _) fun l hl => ?_
      · exact h.store (Nat.le_refl _) (Nat.le_add_right _ _) fun l hl => by rw [vmovlU8_low _ l hl, hfirst l (by omega)]
      · rw [vmovlHighU8_getElem! _ l hl, hfirst _ (by omega), Nat.add_assoc]
    · rw [vmovlU8_low _ l hl, hsecond l (by omega)]
  · rw [vmovlHighU8_getElem! _ l hl, hsecond _ (by omega), ← Nat.add_assoc (32 * i + 16)]

/-- The nibbles of a string of the right length. -/
theorem unpack4_eq {bytes : List UInt8} (hlen : bytes.length = 128) : unpack4 bytes = some (Generic.unpack bytes 4) := by
  have hcount : min (bytes.length / 16) 8 = 8 := by rw [hlen]; rfl
  rw [unpack4, hcount]
  obtain ⟨out, hrun, hout⟩ := Loops.foldlM_range (m := 8)
    (I := fun i out => Filled (fun p => (Generic.unpack bytes 4)[p]!) (Vector.replicate N 0) (32 * i) out)
    (f := fun out i => do
      let data ← loadSlice 16 ((bytes.drop (16 * i)).take 16)
      return unpack4Chunk out i data)
    (filled_zero _ _) fun i hi out hout => by
      obtain ⟨data, hload, hdata⟩ := loadSlice_window (show 16 * i + 16 ≤ bytes.length by omega)
      exact ⟨_, by rw [hload]; rfl, unpack4_pass hi hdata hout⟩
  rw [hrun, eq_unpack hout]

/-- Every width, on a slice of any length. -/
theorem unpack_eq (bytes : List UInt8) (d : Nat) : unpack bytes d = some (Generic.unpack bytes d) := by
  unfold unpack
  split
  · rfl
  · rename_i hlen
    have hlen : bytes.length = N * d / 8 := Classical.not_not.mp hlen
    split
    · exact unpack4_eq hlen
    · exact unpackGathered_eq (by decide) (by decide) gathers_5 bytes
    · exact unpackGathered_eq (by decide) (by decide) gathers_10 bytes
    · exact unpack11_eq bytes
    · exact unpackGathered_eq (by decide) (by decide) gathers_12 bytes
    · rfl

end Neon

end MlkemSelkie.Encoding
