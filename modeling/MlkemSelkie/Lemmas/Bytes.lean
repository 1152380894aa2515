import MlkemSelkie.Kem
import MlkemSelkie.Lemmas.Codec

/-!
# Keys and ciphertexts as byte strings

The staging buffers of the code assemble the concatenations of FIPS 203, and the comparison of two ciphertexts by words is
the equality of their bytes.
-/

namespace MlkemSelkie

open Fips203 Loops

variable {P : ParameterSet} {Γ : Crates}

/-- The parameter set of FIPS 203. -/
abbrev ParameterSet.fips (P : ParameterSet) : Params := ⟨P.K, P.eta1.toNat, P.eta2.toNat, P.dU, P.dV⟩

/-- The widths of a compressed coefficient. -/
theorem widths (P : ParameterSet) : (1 ≤ P.dU ∧ P.dU ≤ 11) ∧ 1 ≤ P.dV ∧ P.dV ≤ 11 := by
  cases P <;> decide

/-! ## Keys -/

theorem length_byteEncoded (v : TqVector P) : (v.byteEncoded.toList.map (·.toList)).flatten.length = 384 * P.K := by
  rw [vector_byteEncoded, length_encodeVector]

theorem EncryptionKey.toBytes_toList (ek : EncryptionKey P) :
    ek.toBytes.toList = encodeVector ek.tHat.toTq ++ ek.rho.toList := by
  have hK := P.K_bounds.2
  have hlen := length_encodeVector ek.tHat.toTq
  have hvector := (starts_nil (Vector.replicate 1568 (0 : UInt8))).foldl_copyAt 384
    (fun block : Vector UInt8 384 => block.toList)
    (fun _ => Vector.length_toList) ek.tHat.byteEncoded.toList 0 _ _ rfl (by rw [Vector.length_toList]; omega)
  rw [List.nil_append, vector_byteEncoded] at hvector
  have hkey := hvector.copyAt ek.rho.toList (by rw [hlen, Vector.length_toList]; omega)
  rw [hlen] at hkey
  exact hkey.toList_ofFn (by rw [List.length_append, hlen, Vector.length_toList]; rfl) 0

theorem DecryptionKey.toBytes_toList (dk : DecryptionKey P) : dk.toBytes.toList = encodeVector dk.sHat.vector.toTq := by
  rw [← vector_byteEncoded]
  exact toList_ofFn_getD (length_byteEncoded _) 0

theorem DecapsulationKey.toBytes_toList (dk : DecapsulationKey P) :
    dk.toBytes.toList = dk.dkPke.toBytes.toList ++ dk.ek.ekPke.toBytes.toList ++ dk.hEk.toList ++ dk.z.toList := by
  have hK := P.K_bounds.2
  have hsizes : P.decryptionKeySize = 384 * P.K ∧ P.encryptionKeySize = 384 * P.K + 32 ∧ P.encapsKeySize = 384 * P.K + 32 :=
    ⟨rfl, rfl, rfl⟩
  have h0 := (starts_nil (Vector.replicate 3168 (0 : UInt8))).copyAt dk.dkPke.toBytes.toList
    (by rw [Vector.length_toList, List.length_nil]; omega)
  have h1 := h0.copyAt dk.ek.ekPke.toBytes.toList
    (by simp only [List.length_append, Vector.length_toList, List.length_nil]; omega)
  have h2 := h1.copyAt dk.hEk.toList (by simp only [List.length_append, Vector.length_toList, List.length_nil]; omega)
  have h3 := h2.copyAt dk.z.toList (by simp only [List.length_append, Vector.length_toList, List.length_nil]; omega)
  simp only [List.nil_append, List.length_append, Vector.length_toList, List.length_nil] at h3
  exact h3.toList_ofFn (by
    simp only [List.length_append, Vector.length_toList]
    rw [show P.decapsKeySize = 768 * P.K + 96 from rfl]
    omega) 0

/-! ## Ciphertexts -/

theorem Ciphertext.fromUv_toList (u : RqVector P) (v : RqElement) :
    (Ciphertext.fromUv u v).bytes.toList = compressPair P.fips u.toRq v.toRq := by
  obtain ⟨⟨hdU, hdU'⟩, hdV, hdV'⟩ := widths P
  have hsize := P.sizes_le.2.2
  have hsplit : P.ciphertextSize = 32 * P.dU * P.K + 32 * P.dV := by
    rw [ParameterSet.ciphertextSize, Nat.mul_add, Nat.mul_assoc]
  have hblock : ∀ f : RqElement, ((f.compressEncode P.dU).toList.take (32 * P.dU)).length = 32 * P.dU := fun f => by
    rw [compressEncode_toList f hdU hdU', length_byteEncode]
  have hu : (u.polys.toList.map fun f => (f.compressEncode P.dU).toList.take (32 * P.dU)).flatten =
      (List.ofFn fun i : Fin P.K => byteEncode P.dU fun j => compress P.dU (u.toRq i j)).flatten := by
    refine congrArg List.flatten (List.ext_getElem ?_ fun i h1 h2 => ?_)
    · rw [List.length_map, Vector.length_toList, List.length_ofFn]
    · rw [List.getElem_map, List.getElem_ofFn, Vector.getElem_toList, compressEncode_toList _ hdU hdU']
      rfl
  have hlen := length_flatten_ofFn (f := fun i : Fin P.K => byteEncode P.dU fun j => compress P.dU (u.toRq i j))
    fun i => length_byteEncode P.dU _
  have hvector := (starts_nil (Vector.replicate 1568 (0 : UInt8))).foldl_copyAt (32 * P.dU)
    (fun f : RqElement => (f.compressEncode P.dU).toList.take (32 * P.dU)) hblock u.polys.toList 0 _ _ rfl
    (by rw [Vector.length_toList, Nat.zero_add]; omega)
  rw [List.nil_append, hu] at hvector
  have hpair := hvector.copyAt ((v.compressEncode P.dV).toList.take (32 * P.dV)) (by
    rw [hlen, compressEncode_toList v hdV hdV', length_byteEncode]
    omega)
  rw [hlen] at hpair
  refine (hpair.toList_ofFn ?_ 0).trans ?_
  · rw [List.length_append, hlen, compressEncode_toList v hdV hdV', length_byteEncode, hsplit]
  · rw [compressEncode_toList v hdV hdV']
    rfl

/-! ## The comparison of two ciphertexts -/

theorem Ciphertext.toList_inj {a b : Ciphertext P} : a.bytes.toList = b.bytes.toList ↔ a = b :=
  ⟨fun h => congrArg Ciphertext.mk (Vector.toList_inj.mp h), fun h => by rw [h]⟩

/-- The accumulated differences vanish exactly when there are none. -/
theorem foldl_or_xor (words : List (UInt64 × UInt64)) :
    ∀ acc, words.foldl (fun acc p => acc ||| (p.1 ^^^ p.2)) acc = 0 ↔ acc = 0 ∧ ∀ p ∈ words, p.1 = p.2 := by
  induction words with
  | nil => exact fun acc => ⟨fun h => ⟨h, fun _ hp => absurd hp List.not_mem_nil⟩, fun h => h.1⟩
  | cons p words ih =>
    intro acc
    rw [List.foldl_cons, ih, UInt64.or_eq_zero_iff, UInt64.xor_eq_zero_iff]
    simp only [List.forall_mem_cons, and_assoc]

/-- Words of eight bytes are equal exactly when their bytes are. -/
theorem ofNat_ofBytes_inj {a b : List UInt8} (ha : a.length = 8) (hb : b.length = 8)
    (h : UInt64.ofNat (LittleEndian.ofBytes a) = UInt64.ofNat (LittleEndian.ofBytes b)) : a = b := by
  have hlt : ∀ l : List UInt8, l.length = 8 → LittleEndian.ofBytes l < 2 ^ 64 := fun l hl => by
    have := Digits.ofBytes_lt l
    rwa [hl] at this
  refine Digits.ofBytes_inj (ha.trans hb.symm) ?_
  have hnat := congrArg UInt64.toNat h
  rwa [UInt64.toNat_ofNat', UInt64.toNat_ofNat', Nat.mod_eq_of_lt (hlt a ha), Nat.mod_eq_of_lt (hlt b hb)] at hnat

/-- The comparison by words is the equality of the bytes. -/
theorem ctEq_iff (hΓ : Γ.Lawful) (a b : Ciphertext P) : a.ctEq Γ b = true ↔ a = b := by
  obtain ⟨a⟩ := a
  obtain ⟨b⟩ := b
  have hwords : P.ciphertextSize = 8 * (4 * (P.dU * P.K + P.dV)) := by rw [ParameterSet.ciphertextSize]; omega
  have hlen : ∀ c : Vector UInt8 P.ciphertextSize, c.toList.length = 8 * (4 * (P.dU * P.K + P.dV)) := fun c => by
    rw [Vector.length_toList, hwords]
  rw [Ciphertext.ctEq, hΓ.ctEqU64, foldl_or_xor]
  refine ⟨fun ⟨_, h⟩ => ?_, fun h => ⟨rfl, fun p hp => ?_⟩⟩
  · -- equal words are equal slices, and the slices are the whole string
    refine Ciphertext.toList_inj.mp ?_
    rw [← flatten_slices (hlen a), ← flatten_slices (hlen b)]
    refine congrArg List.flatten (congrArg List.ofFn (funext fun i => ?_))
    have hi := i.isLt
    have hslice : ∀ c : Vector UInt8 P.ciphertextSize, ((c.toList.drop (8 * i)).take 8).length = 8 := fun c => by
      rw [List.length_take, List.length_drop, hlen]
      omega
    refine ofNat_ofBytes_inj (hslice a) (hslice b) (h (_, _) ?_)
    simp only [chunksExact, hlen, Nat.mul_div_cancel_left _ (show 0 < 8 by decide), List.map_map, List.zip_map',
      List.mem_map, List.mem_range]
    exact ⟨i, hi, rfl⟩
  · obtain rfl := congrArg Ciphertext.bytes h
    rw [List.zip_eq_zipWith, List.zipWith_self] at hp
    obtain ⟨word, _, rfl⟩ := List.mem_map.mp hp
    rfl

end MlkemSelkie
