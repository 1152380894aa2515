import MlkemSelkie.Fips.Sampling
import MlkemSelkie.Lemmas.Vector
import MlkemSelkie.Lib.Digits
import MlkemSelkie.Sampling

/-!
# The centered binomial sampler

The code sums the bits of a word in parallel, two or three to a field; FIPS 203 sums them one by one.
-/

namespace MlkemSelkie

open Fips203 Digits LittleEndian

theorem bit_eq_testBit (bytes : List UInt8) (t : Nat) : bit bytes t = (ofBytes bytes).testBit t :=
  (testBit_ofBytes bytes t).symm

/-- The sums of the pairs of bits of a word. -/
theorem pair_sums (t r : Nat) (hr : r < 16) :
    (((t &&& 0x55555555) + ((t >>> 1) &&& 0x55555555)) >>> (2 * r)) &&& 0x3 =
      (t.testBit (2 * r)).toNat + (t.testBit (2 * r + 1)).toNat := by
  have hmask : 0x55555555 = value 2 (fun _ => 1) 16 := by decide
  have hsum : ∀ i < 16, (t.testBit (2 * i)).toNat + ((t >>> 1).testBit (2 * i)).toNat < 2 ^ 2 := by
    intro i _
    have h1 := Bool.toNat_le (t.testBit (2 * i))
    have h2 := Bool.toNat_le ((t >>> 1).testBit (2 * i))
    omega
  have h := shift_and_mask hsum r hr
  rw [← value_add, ← and_low_bits (by decide), ← and_low_bits (by decide), ← hmask, Nat.testBit_shiftRight,
    Nat.add_comm 1] at h
  exact h

/-- The sums of the triples of bits of a word. -/
theorem triple_sums (t r : Nat) (hr : r < 8) :
    (((t &&& 0x00249249) + ((t >>> 1) &&& 0x00249249) + ((t >>> 2) &&& 0x00249249)) >>> (3 * r)) &&& 0x7 =
      (t.testBit (3 * r)).toNat + (t.testBit (3 * r + 1)).toNat + (t.testBit (3 * r + 2)).toNat := by
  have hmask : 0x00249249 = value 3 (fun _ => 1) 8 := by decide
  have hsum : ∀ i < 8, (t.testBit (3 * i)).toNat + ((t >>> 1).testBit (3 * i)).toNat + ((t >>> 2).testBit (3 * i)).toNat <
      2 ^ 3 := by
    intro i _
    have h1 := Bool.toNat_le (t.testBit (3 * i))
    have h2 := Bool.toNat_le ((t >>> 1).testBit (3 * i))
    have h3 := Bool.toNat_le ((t >>> 2).testBit (3 * i))
    omega
  have h := shift_and_mask hsum r hr
  rw [← value_add, ← value_add, ← and_low_bits (by decide), ← and_low_bits (by decide), ← and_low_bits (by decide), ← hmask,
    Nat.testBit_shiftRight, Nat.testBit_shiftRight, Nat.add_comm 1, Nat.add_comm 2] at h
  exact h

/-- The difference of two small counts. -/
theorem count_difference {a b e : Nat} (he : e ≤ 3) (ha : a ≤ e) (hb : b ≤ e) :
    Represents e (FieldElement.new (UInt16.ofNat a) - FieldElement.new (UInt16.ofNat b)) ((a : Zq) - (b : Zq)) := by
  have hnew : ∀ c ≤ e, (FieldElement.new (UInt16.ofNat c)).toInt = (c : Int) := by
    intro c hc
    rw [FieldElement.new_toInt, UInt16.toNat_ofNat', Nat.mod_eq_of_lt (by omega), Nat.mod_eq_of_lt (by omega)]
  have hsub := FieldElement.toInt_sub (a := FieldElement.new (UInt16.ofNat a)) (b := FieldElement.new (UInt16.ofNat b))
    (by rw [hnew a ha, hnew b hb]; exact ⟨by omega, by omega⟩)
  rw [hnew a ha, hnew b hb] at hsub
  refine ⟨⟨by omega, by omega⟩, ?_⟩
  rw [FieldElement.toZq, hsub, Int.cast_sub, Int.cast_natCast, Int.cast_natCast]

theorem samplePolyCbd_two (bytes : List UInt8) (i : Fin 256) : samplePolyCbd 2 bytes i =
    (((bit bytes (4 * i)).toNat + (bit bytes (4 * i + 1)).toNat : Nat) : Zq) -
      (((bit bytes (4 * i + 2)).toNat + (bit bytes (4 * i + 3)).toNat : Nat) : Zq) := by
  simp only [samplePolyCbd, List.range_succ, List.range_zero, List.nil_append, List.map_cons, List.map_nil,
    List.cons_append, List.sum_cons, List.sum_nil, Nat.add_zero]
  have hpos : 2 * i.val * 2 = 4 * i.val := by ring
  rw [hpos]

theorem samplePolyCbd_three (bytes : List UInt8) (i : Fin 256) : samplePolyCbd 3 bytes i =
    (((bit bytes (6 * i)).toNat + (bit bytes (6 * i + 1)).toNat + (bit bytes (6 * i + 2)).toNat : Nat) : Zq) -
      (((bit bytes (6 * i + 3)).toNat + (bit bytes (6 * i + 4)).toNat + (bit bytes (6 * i + 5)).toNat : Nat) : Zq) := by
  simp only [samplePolyCbd, List.range_succ, List.range_zero, List.nil_append, List.map_cons, List.map_nil,
    List.cons_append, List.sum_cons, List.sum_nil, Nat.add_zero, ← Nat.add_assoc]
  have hpos : 2 * i.val * 3 = 6 * i.val := by ring
  rw [hpos]

/-- A bit of a chunk is a bit of the string. -/
theorem testBit_chunk (bytes : List UInt8) (size a : Nat) {t : Nat} (ht : t < 8 * size) :
    (ofBytes ((bytes.drop (size * a)).take size)).testBit t = bit bytes (8 * size * a + t) := by
  rw [testBit_ofBytes_slice bytes ht, bit_eq_testBit, ← Nat.mul_assoc]

/-- `SamplePolyCBD_2` of the code. -/
theorem sampleCbdEta2_represents (bytes : List UInt8) (hlen : bytes.length = 128) :
    (RqElement.sampleCbdEta2 bytes).Represents 2 (samplePolyCbd 2 bytes) := by
  have hget : ∀ i : Fin 256, Represents 2 (RqElement.sampleCbdEta2 bytes).inner[i] (samplePolyCbd 2 bytes i) := by
    intro i
    have hbit : ∀ t < 32, (ofBytes ((bytes.drop (4 * (i.val / 8))).take 4)).testBit t = bit bytes (32 * (i.val / 8) + t) :=
      fun t ht => testBit_chunk bytes 4 (i.val / 8) ht
    have hindex : i.val / 8 < bytes.length / 4 := by omega
    -- the fields of the word that the code shifts down, and where their bits lie in the string
    have hfst : 4 * (i.val % 8) = 2 * (2 * (i.val % 8)) := by omega
    have hsnd : 2 * (2 * (i.val % 8)) + 2 = 2 * (2 * (i.val % 8) + 1) := by omega
    have h0 : 32 * (i.val / 8) + 2 * (2 * (i.val % 8)) = 4 * i.val := by omega
    have h1 : 32 * (i.val / 8) + (2 * (2 * (i.val % 8)) + 1) = 4 * i.val + 1 := by omega
    have h2 : 32 * (i.val / 8) + 2 * (2 * (i.val % 8) + 1) = 4 * i.val + 2 := by omega
    have h3 : 32 * (i.val / 8) + (2 * (2 * (i.val % 8) + 1) + 1) = 4 * i.val + 3 := by omega
    rw [RqElement.sampleCbdEta2, Loops.getElem_fin, Vector.getElem_ofFn]
    simp only [Loops.chunksExact_getElem? hindex]
    rw [hfst, hsnd, pair_sums _ _ (by omega), pair_sums _ _ (by omega), hbit _ (by omega), hbit _ (by omega),
      hbit _ (by omega), hbit _ (by omega), samplePolyCbd_two, h0, h1, h2, h3]
    have hle := fun t => Bool.toNat_le (bit bytes t)
    exact count_difference (by decide) (Nat.le_trans (Nat.add_le_add (hle _) (hle _)) (by decide))
      (Nat.le_trans (Nat.add_le_add (hle _) (hle _)) (by decide))
  exact ⟨fun i => (hget i).1, funext fun i => (hget i).2⟩

/-- `SamplePolyCBD_3` of the code. -/
theorem sampleCbdEta3_represents (bytes : List UInt8) (hlen : bytes.length = 192) :
    (RqElement.sampleCbdEta3 bytes).Represents 3 (samplePolyCbd 3 bytes) := by
  have hget : ∀ i : Fin 256, Represents 3 (RqElement.sampleCbdEta3 bytes).inner[i] (samplePolyCbd 3 bytes i) := by
    intro i
    have hbit : ∀ t < 24, (ofBytes ((bytes.drop (3 * (i.val / 4))).take 3)).testBit t = bit bytes (24 * (i.val / 4) + t) :=
      fun t ht => testBit_chunk bytes 3 (i.val / 4) ht
    have hindex : i.val / 4 < bytes.length / 3 := by omega
    have hfst : 6 * (i.val % 4) = 3 * (2 * (i.val % 4)) := by omega
    have hsnd : 3 * (2 * (i.val % 4)) + 3 = 3 * (2 * (i.val % 4) + 1) := by omega
    have h0 : 24 * (i.val / 4) + 3 * (2 * (i.val % 4)) = 6 * i.val := by omega
    have h1 : 24 * (i.val / 4) + (3 * (2 * (i.val % 4)) + 1) = 6 * i.val + 1 := by omega
    have h2 : 24 * (i.val / 4) + (3 * (2 * (i.val % 4)) + 2) = 6 * i.val + 2 := by omega
    have h3 : 24 * (i.val / 4) + 3 * (2 * (i.val % 4) + 1) = 6 * i.val + 3 := by omega
    have h4 : 24 * (i.val / 4) + (3 * (2 * (i.val % 4) + 1) + 1) = 6 * i.val + 4 := by omega
    have h5 : 24 * (i.val / 4) + (3 * (2 * (i.val % 4) + 1) + 2) = 6 * i.val + 5 := by omega
    rw [RqElement.sampleCbdEta3, Loops.getElem_fin, Vector.getElem_ofFn]
    simp only [Loops.chunksExact_getElem? hindex]
    rw [hfst, hsnd, triple_sums _ _ (by omega), triple_sums _ _ (by omega), hbit _ (by omega), hbit _ (by omega),
      hbit _ (by omega), hbit _ (by omega), hbit _ (by omega), hbit _ (by omega), samplePolyCbd_three, h0, h1, h2, h3,
        h4, h5]
    have hle := fun t => Bool.toNat_le (bit bytes t)
    exact count_difference (by decide) (Nat.le_trans (Nat.add_le_add (Nat.add_le_add (hle _) (hle _)) (hle _)) (by decide))
      (Nat.le_trans (Nat.add_le_add (Nat.add_le_add (hle _) (hle _)) (hle _)) (by decide))
  exact ⟨fun i => (hget i).1, funext fun i => (hget i).2⟩

/-- `SamplePolyCBD_eta` of the code, on the `64 * eta` bytes of a `PRF` output. -/
theorem sampleCbd_centered (eta : Eta) (bytes : List UInt8) (hlen : bytes.length = 64 * eta.toNat) :
    (RqElement.sampleCbd eta bytes).Represents eta.toNat (samplePolyCbd eta.toNat bytes) := by
  cases eta with
  | two => exact sampleCbdEta2_represents bytes hlen
  | three => exact sampleCbdEta3_represents bytes hlen

theorem sampleCbd_represents (eta : Eta) (bytes : List UInt8) (hlen : bytes.length = 64 * eta.toNat) :
    (RqElement.sampleCbd eta bytes).Represents 3 (samplePolyCbd eta.toNat bytes) :=
  (sampleCbd_centered eta bytes hlen).mono (by cases eta <;> decide)

end MlkemSelkie
