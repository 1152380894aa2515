import MlkemSelkie.Encoding
import MlkemSelkie.Fips.Encoding
import MlkemSelkie.Lib.Digits
import MlkemSelkie.Lib.Loops

/-!
# The packing loops of the code

Both directions of the bit packing compute with one number: the value of the 256 fields of `d` bits and of the bytes. The
invariants say which part of it the accumulator, the bytes written and the bytes still unread hold.
-/

namespace MlkemSelkie.Encoding.Generic

open Digits LittleEndian

/-! ## Packing -/

/-- After `m` values: whole words of the value are written, the accumulator holds the rest. -/
structure PackInvariant (d : Nat) (v : Nat → Nat) (m : Nat) (s : PackState) : Prop where
  bits_lt : s.bits < 64
  total : 64 * s.words + s.bits = d * m
  accumulator : s.accumulator = value d v m / 2 ^ (64 * s.words)
  out : ∀ k (hk : k < 384), (s.out[k]).toNat = if k < 8 * s.words then value d v m / 2 ^ (8 * k) % 2 ^ 8 else 0

theorem writeWord_toNat (out : Vector UInt8 384) (i word k : Nat) (hi : i < 48) (hk : k < 384) :
    ((writeWord out i word)[k]).toNat = if k / 8 = i then word / 2 ^ (8 * (k % 8)) % 2 ^ 8 else (out[k]).toNat := by
  have hmod := Nat.mod_lt k (show 0 < 8 by decide)
  rw [writeWord]
  simp only [hi, if_true, Vector.getElem_ofFn]
  split
  · rw [getElem!_pos _ (k % 8) (by simpa [toBytes] using hmod)]
    simp only [toBytes, List.getElem_map, List.getElem_range, UInt8.toNat_ofNat', Nat.shiftRight_eq_div_pow]
  · rfl

/-- One value keeps the invariant. -/
theorem packValue_invariant {d m : Nat} {v : Nat → Nat} {s : PackState} (hd : d ≤ 12) (hm : m < 256)
    (hv : ∀ i ≤ m, v i < 2 ^ d) (x : UInt16) (hx : x.toNat = v m) (h : PackInvariant d v m s) :
    PackInvariant d v (m + 1) (packValue d s x) := by
  obtain ⟨hbits, htotal, hacc, hout⟩ := h
  have hlt := value_lt (w := d) (m := m) fun i hi => hv i (by omega)
  have hdm : d * m ≤ 12 * 255 := Nat.mul_le_mul hd (by omega)
  have haccLt : s.accumulator < 2 ^ s.bits := by
    rw [hacc]
    exact Nat.div_lt_of_lt_mul (by rw [← Nat.pow_add, htotal]; exact hlt)
  -- the new value lies above the bits that the accumulator holds
  have hnext : s.accumulator ||| (x.toNat <<< s.bits) = value d v (m + 1) / 2 ^ (64 * s.words) := by
    rw [Nat.or_comm, ← Nat.shiftLeft_add_eq_or_of_lt haccLt, Nat.shiftLeft_eq, hx, hacc, value, ← htotal, Nat.pow_add,
      Nat.mul_left_comm, Nat.add_mul_div_left _ _ (Nat.two_pow_pos _), Nat.add_comm]
  have hkeep : ∀ k, k < 8 * s.words → value d v (m + 1) / 2 ^ (8 * k) % 2 ^ 8 = value d v m / 2 ^ (8 * k) % 2 ^ 8 := by
    intro k hk
    rw [value, digit_add_high _ _ (by omega)]
  rw [packValue]
  simp only [hnext]
  by_cases hfull : 64 ≤ s.bits + d
  · rw [if_pos hfull]
    refine ⟨by simp only []; omega, by simp only [Nat.mul_succ]; omega, ?_, fun k hk => ?_⟩
    · show (value d v (m + 1) / 2 ^ (64 * s.words)) >>> 64 = value d v (m + 1) / 2 ^ (64 * (s.words + 1))
      rw [Nat.shiftRight_eq_div_pow, Nat.div_div_eq_div_mul, ← Nat.pow_add, ← Nat.mul_succ]
    · rw [writeWord_toNat _ _ _ _ (by omega) hk]
      by_cases hword : k / 8 = s.words
      · rw [if_pos hword, if_pos (by simp only []; omega), digit_window _ (by omega),
          show 64 * s.words + 8 * (k % 8) = 8 * k by omega]
      · rw [if_neg hword, hout k hk]
        by_cases hlow : k < 8 * s.words
        · rw [if_pos hlow, if_pos (by simp only []; omega), hkeep k hlow]
        · rw [if_neg hlow, if_neg (by simp only []; omega)]
  · rw [if_neg hfull]
    refine ⟨by simp only []; omega, by simp only [Nat.mul_succ]; omega, rfl, fun k hk => ?_⟩
    rw [hout k hk]
    by_cases hlow : k < 8 * s.words
    · rw [if_pos hlow, if_pos hlow, hkeep k hlow]
    · rw [if_neg hlow, if_neg hlow]

/-- The first values keep the invariant. -/
theorem pack_prefix {d : Nat} (hd : d ≤ 12) (values : Vector UInt16 N) (hv : ∀ i (hi : i < 256), (values[i]).toNat < 2 ^ d) :
    ∀ m ≤ 256, PackInvariant d (fun i => (values[i]!).toNat) m ((values.toList.take m).foldl (packValue d)
      { out := Vector.replicate 384 0, words := 0, accumulator := 0, bits := 0 }) := by
  intro m
  induction m with
  | zero =>
    intro _
    refine ⟨show 0 < 64 by decide, rfl, (Nat.zero_div _).symm, fun k hk => ?_⟩
    simp
  | succ m ih =>
    intro hm
    have hlen : m < values.toList.length := by rw [Vector.length_toList]; exact hm
    rw [List.take_succ_eq_append_getElem hlen, List.foldl_append, List.foldl_cons, List.foldl_nil, Vector.getElem_toList]
    refine packValue_invariant hd (by omega) (fun i hi => ?_) _ ?_ (ih (by omega))
    · rw [getElem!_pos values i (show i < 256 by omega)]
      exact hv i (by omega)
    · rw [getElem!_pos values m (show m < 256 by omega)]

/-- The packed bytes are the bytes of the value of the fields. -/
theorem pack_toNat {d : Nat} (hd : d ≤ 12) (values : Vector UInt16 N) (hv : ∀ i (hi : i < 256), (values[i]).toNat < 2 ^ d)
    (k : Nat) (hk : k < 384) :
    ((pack values d)[k]).toNat = value d (fun i => (values[i]!).toNat) 256 / 2 ^ (8 * k) % 2 ^ 8 := by
  obtain ⟨hbits, htotal, _, hout⟩ := pack_prefix hd values hv 256 (Nat.le_refl 256)
  rw [List.take_of_length_le (by rw [Vector.length_toList])] at hbits htotal hout
  have h := hout k hk
  rw [pack, h]
  split
  · rfl
  · have hlt := value_lt (w := d) (m := 256) (v := fun i => (values[i]!).toNat) fun i hi => by
      rw [getElem!_pos values i hi]
      exact hv i hi
    have hle : 2 ^ (d * 256) ≤ 2 ^ (8 * k) := Nat.pow_le_pow_right (by decide) (by omega)
    rw [Nat.div_eq_of_lt (by omega), Nat.zero_mod]

/-! ## Unpacking -/

/-- After `m` values: `words` words are read, and the accumulator holds what they have above the values yielded. -/
structure UnpackInvariant (d : Nat) (bytes : List UInt8) (m words : Nat) (s : UnpackState) : Prop where
  bits_lt : s.bits < 64
  total : 64 * words = d * m + s.bits
  accumulator : s.accumulator = ofBytes bytes % 2 ^ (64 * words) / 2 ^ (d * m)
  bytes : s.bytes = bytes.drop (8 * words)

/-- The next word of the bytes left is the next word of the value, zero past the end. -/
theorem nextWord_spec (bytes : List UInt8) (words : Nat) :
    (nextWord (bytes.drop (8 * words))).1 = ofBytes bytes / 2 ^ (64 * words) % 2 ^ 64 ∧
      (nextWord (bytes.drop (8 * words))).2 = bytes.drop (8 * (words + 1)) := by
  have hdrop := ofBytes_drop bytes (8 * words)
  rw [show 8 * (8 * words) = 64 * words by omega] at hdrop
  rw [← hdrop, Nat.mul_succ, ← List.drop_drop]
  generalize bytes.drop (8 * words) = rest
  have hlt := ofBytes_lt rest
  rw [nextWord]
  by_cases hfull : 8 ≤ rest.length
  · rw [if_pos hfull]
    exact ⟨ofBytes_take rest 8, rfl⟩
  · have hsmall : 2 ^ (8 * rest.length) ≤ 2 ^ 64 := Nat.pow_le_pow_right (by decide) (by omega)
    rw [if_neg hfull, List.drop_of_length_le (by omega), Nat.mod_eq_of_lt (by omega)]
    by_cases hempty : rest = []
    · rw [if_neg (by simpa using hempty), hempty]
      exact ⟨rfl, rfl⟩
    · rw [if_pos hempty, ofBytes_append, ofBytes_replicate_zero, Nat.mul_zero, Nat.add_zero]
      exact ⟨rfl, rfl⟩

/-- One value is the next field, and keeps the invariant. -/
theorem unpackValue_invariant {d m words : Nat} {bytes : List UInt8} {s : UnpackState} (hd : 1 ≤ d) (hd' : d ≤ 12)
    (h : UnpackInvariant d bytes m words s) :
    (unpackValue d s).1.toNat = ofBytes bytes / 2 ^ (d * m) % 2 ^ d ∧
      ∃ words', UnpackInvariant d bytes (m + 1) words' (unpackValue d s).2 := by
  obtain ⟨hbits, htotal, hacc, hbytes⟩ := h
  obtain ⟨hword, hrest⟩ := nextWord_spec bytes words
  -- the state after the word is read, when one is needed
  have hread : ∃ words', ∃ s' : UnpackState, (if s.bits < d then
        { bytes := (nextWord s.bytes).2, accumulator := s.accumulator ||| ((nextWord s.bytes).1 <<< s.bits),
          bits := s.bits + 64 : UnpackState } else s) = s' ∧
      (d ≤ s'.bits ∧ s'.bits < 64 + d) ∧ 64 * words' = d * m + s'.bits ∧
      s'.accumulator = ofBytes bytes % 2 ^ (64 * words') / 2 ^ (d * m) ∧ s'.bytes = bytes.drop (8 * words') := by
    by_cases hneed : s.bits < d
    · have haccLt : s.accumulator < 2 ^ s.bits := by
        rw [hacc]
        refine Nat.div_lt_of_lt_mul ?_
        rw [← Nat.pow_add, ← htotal]
        exact Nat.mod_lt _ (Nat.two_pow_pos _)
      refine ⟨words + 1, _, if_pos hneed, by simp only []; omega, by simp only []; omega, ?_, ?_⟩
      · show s.accumulator ||| ((nextWord s.bytes).1 <<< s.bits) = _
        rw [hbytes, hword, Nat.or_comm, ← Nat.shiftLeft_add_eq_or_of_lt haccLt, Nat.shiftLeft_eq, hacc, Nat.mul_succ 64,
          Nat.pow_add 2 (64 * words), Nat.mod_mul, htotal, Nat.pow_add, Nat.mul_assoc,
          Nat.add_mul_div_left _ _ (Nat.two_pow_pos _)]
        ring
      · show (nextWord s.bytes).2 = _
        rw [hbytes, hrest]
    · exact ⟨words, s, if_neg hneed, by omega, htotal, hacc, hbytes⟩
  obtain ⟨words', s', heq, ⟨hge, hbits'⟩, htotal', hacc', hbytes'⟩ := hread
  have hvalue : unpackValue d s = (UInt16.ofNat (s'.accumulator % 2 ^ 32 &&& (1 <<< d) - 1),
      { s' with accumulator := s'.accumulator >>> d, bits := s'.bits - d }) := by
    rw [← heq]
    rfl
  have hpow : 2 ^ d ≤ 2 ^ 12 := Nat.pow_le_pow_right (by decide) hd'
  rw [hvalue]
  refine ⟨?_, words', by simp only []; omega, by simp only [Nat.mul_succ]; omega, ?_, hbytes'⟩
  · have hlt := Nat.mod_lt (ofBytes bytes / 2 ^ (d * m)) (Nat.two_pow_pos d)
    simp only [Nat.shiftLeft_eq, Nat.one_mul, Nat.and_two_pow_sub_one_eq_mod, UInt16.toNat_ofNat']
    rw [Nat.mod_mod_of_dvd s'.accumulator (Nat.pow_dvd_pow 2 (show d ≤ 32 by omega)), hacc', digit_mod _ (by omega),
      Nat.mod_eq_of_lt (by omega)]
  · show s'.accumulator >>> d = _
    rw [hacc', Nat.shiftRight_eq_div_pow, Nat.div_div_eq_div_mul, ← Nat.pow_add, ← Nat.mul_succ]

/-- The unpacked values are the fields of the value of the bytes, zero past the end. -/
theorem unpack_toNat {d : Nat} (hd : 1 ≤ d) (hd' : d ≤ 12) (bytes : List UInt8) (i : Fin 256) :
    ((unpack bytes d)[i]).toNat = ofBytes bytes / 2 ^ (d * i) % 2 ^ d := by
  refine (Loops.ofFnM_state (fun _ : Fin N => unpackValue d) (fun m s => ∃ words, UnpackInvariant d bytes m words s)
    (fun i x => x.toNat = ofBytes bytes / 2 ^ (d * i) % 2 ^ d) (fun i s h => ?_) _ ⟨0, ?_⟩).1 i
  · obtain ⟨words, h⟩ := h
    exact unpackValue_invariant hd hd' h
  · refine ⟨show 0 < 64 by decide, rfl, ?_, rfl⟩
    rw [Nat.mul_zero, pow_zero, Nat.mod_one]
    exact (Nat.zero_div _).symm

end MlkemSelkie.Encoding.Generic

namespace MlkemSelkie

open Digits LittleEndian Encoding

/-! ## The algorithms of FIPS 203 -/

/-- The field of a bit string, as a digit of its value. -/
theorem field_eq (d : Nat) (bytes : List UInt8) (i : Nat) :
    Fips203.field d bytes i = ofBytes bytes / 2 ^ (d * i) % 2 ^ d := by
  rw [Fips203.field, ← Nat.ofBits_testBit]
  refine congrArg Nat.ofBits (funext fun j => ?_)
  rw [Nat.testBit_div_two_pow, testBit_ofBytes, Fips203.bit, Nat.mul_comm i d, Nat.add_comm j.val]

theorem byteDecode_eq (d : Nat) (bytes : List UInt8) (i : Fin 256) :
    Fips203.byteDecode d bytes i = ofBytes bytes / 2 ^ (d * i) % 2 ^ d % (if d < 12 then 2 ^ d else 3329) := by
  rw [Fips203.byteDecode, field_eq]

/-- `ByteEncode_d` writes the bytes of the value of its integers. -/
theorem byteEncode_eq {d : Nat} (F : Fin 256 → Nat) (hF : ∀ i, F i < 2 ^ d) (v : Nat → Nat)
    (hv : ∀ i : Fin 256, v i = F i) (k : Nat) (hk : k < 32 * d) :
    ((Fips203.byteEncode d F)[k]!).toNat = value d v 256 / 2 ^ (8 * k) % 2 ^ 8 := by
  have hlen : k < (Fips203.byteEncode d F).length := by simpa [Fips203.byteEncode] using hk
  have hlt : ∀ i < 256, v i < 2 ^ d := fun i hi => by rw [hv ⟨i, hi⟩]; exact hF _
  rw [getElem!_pos _ k hlen]
  simp only [Fips203.byteEncode, List.getElem_map, List.getElem_range, UInt8.toNat_ofNat']
  rw [Nat.mod_eq_of_lt (Nat.ofBits_lt_two_pow _), ← Nat.ofBits_testBit]
  refine congrArg Nat.ofBits (funext fun j => ?_)
  have hpos : 8 * k + j.val < d * 256 := by omega
  have hdiv : (8 * k + j.val) / d < 256 := Nat.div_lt_of_lt_mul hpos
  rw [Nat.testBit_div_two_pow, Nat.add_comm j.val, testBit_value hlt _ hpos, hv ⟨_, hdiv⟩]
  congr 2
  exact Fin.ext (Nat.mod_eq_of_lt hdiv)

theorem length_byteEncode (d : Nat) (F : Fin 256 → Nat) : (Fips203.byteEncode d F).length = 32 * d := by
  simp [Fips203.byteEncode]

/-- A byte string of 256 fields is the value of its integers. -/
theorem ofBytes_byteEncode {d : Nat} (F : Fin 256 → Nat) (hF : ∀ i, F i < 2 ^ d) (v : Nat → Nat)
    (hv : ∀ i : Fin 256, v i = F i) : ofBytes (Fips203.byteEncode d F) = value d v 256 := by
  have hlt := ofBytes_lt (Fips203.byteEncode d F)
  have hvalue := value_lt (w := d) (v := v) (m := 256) fun i hi => by rw [hv ⟨i, hi⟩]; exact hF _
  rw [length_byteEncode] at hlt
  have hbits : 8 * (32 * d) = d * 256 := by omega
  refine eq_of_digits (w := 8) (m := 32 * d) hlt (by rwa [hbits]) fun k hk => ?_
  rw [ofBytes_digit, byteEncode_eq F hF v hv k hk]

theorem pack_getElem (size : Nat) (values : Vector UInt16 N) (d k : Nat) (hk : k < size) :
    (Encoding.pack size values d)[k] = (Generic.pack values d)[k]! := by
  simp only [Encoding.pack, Vector.getElem_ofFn]

/-- The packing of the code is `ByteEncode_d`. -/
theorem pack_eq_byteEncode {d : Nat} (hd : d ≤ 12) (values : Vector UInt16 N) (F : Fin 256 → Nat)
    (hF : ∀ i, F i < 2 ^ d) (h : ∀ i : Fin 256, (values[i]).toNat = F i) (size : Nat) (hsize : 32 * d ≤ size)
      (hsize' : size ≤ 384) :
    (Encoding.pack size values d).toList.take (32 * d) = Fips203.byteEncode d F := by
  have hlen : ((Encoding.pack size values d).toList.take (32 * d)).length = 32 * d := by
    rw [List.length_take, Vector.length_toList, Nat.min_eq_left hsize]
  refine ext_bytes (by rw [hlen, length_byteEncode]) fun k hk => ?_
  rw [hlen] at hk
  rw [byteEncode_eq F hF (fun i => (values[i]!).toNat) (fun i => by rw [getElem!_pos values i.val i.isLt]; exact h i) k hk,
    getElem!_pos _ k (by omega), List.getElem_take, Vector.getElem_toList, pack_getElem,
    getElem!_pos _ k (show k < 384 by omega)]
  exact Generic.pack_toNat hd values
    (fun i hi => by rw [show values[i] = values[(⟨i, hi⟩ : Fin 256)] from rfl, h]; exact hF _) k
    (by omega)

end MlkemSelkie
