import MlkemSelkie.AlgebraicProperties
import MlkemSelkie.Lemmas.Codec
import MlkemSelkie.Lemmas.Encoding
import MlkemSelkie.Lemmas.Products

/-!
# The property tests hold of every input

What the property tests of the field and of the rings sample holds of all the inputs of their generators: equality is
equality of residues, and the reference multiplication is multiplication modulo `X^256 + 1`.
-/

namespace MlkemSelkie

open Fips203 FieldElement

/-! ## Equality -/

theorem FieldElement.eq_iff_toZq (a b : FieldElement) : a.eq b = true ↔ a.toZq = b.toZq := by
  rw [FieldElement.eq, beq_iff_eq]
  refine ⟨fun h => ZMod.val_injective 3329 ?_, fun h => UInt16.toNat_inj.mp ?_⟩
  · rw [← value_eq_val, h, value_eq_val]
  · rw [value_eq_val, value_eq_val, h]

theorem Coefficients.eq_iff (a b : Coefficients) : a.eq b = true ↔ Coefficients.toZq a = Coefficients.toZq b := by
  rw [Coefficients.eq, List.all_eq_true, funext_iff]
  exact ⟨fun h i => (FieldElement.eq_iff_toZq _ _).mp (h i (List.mem_finRange i)),
    fun h i _ => (FieldElement.eq_iff_toZq _ _).mpr (h i)⟩

theorem RqElement.eq_iff (f g : RqElement) : f.eq g = true ↔ f.toRq = g.toRq := Coefficients.eq_iff f.inner g.inner

/-- The storage of Tq holds every coefficient once. -/
theorem storagePos_surjective : Function.Surjective storagePos := by
  intro k
  refine ⟨⟨2 * (k.val % 128) + k.val / 128, by omega⟩, Fin.ext ?_⟩
  simp only [storagePos]
  omega

theorem TqElement.eq_iff (f g : TqElement) : f.eq g = true ↔ f.toTq = g.toTq := by
  rw [TqElement.eq, Coefficients.eq_iff, funext_iff, funext_iff, storagePos_surjective.forall]
  simp only [TqElement.toTq_apply]
  rfl

/-! ## The reference multiplication -/

/-- The reference product of two elements. -/
theorem FieldElement.mulReference_spec (a b : FieldElement) :
    (a.mulReference b).Within 3328 ∧ (a.mulReference b).toZq = a.toZq * b.toZq := by
  refine ⟨new_within _, ?_⟩
  have hlt : a.value.toNat * b.value.toNat % 3329 < 2 ^ 16 := (Nat.mod_lt _ (by decide)).trans (by decide)
  rw [mulReference, toZq_new, UInt16.toNat_ofNat_of_lt' hlt, ZMod.natCast_mod, Nat.cast_mul, value_eq_val, value_eq_val,
    ZMod.natCast_val, ZMod.natCast_val, ZMod.cast_id, ZMod.cast_id]

/-- A representative that is replaced by a reduced one of another residue. -/
theorem set_reduce {s : Coefficients} (hs : Coefficients.Within 1664 s) (p : Nat) (e : FieldElement) :
    Coefficients.Within 1664 (s.set! p e.reduce) ∧
      ∀ k : Fin 256, (s.set! p e.reduce)[k].toZq = if k.val = p then e.toZq else s[k].toZq := by
  have hget : ∀ k : Fin 256, (s.set! p e.reduce)[k] = if p = k.val then e.reduce else s[k] := fun k => by
    rw [Loops.getElem_fin, Vector.set!_eq_setIfInBounds, Vector.getElem_setIfInBounds k.isLt]
    rfl
  refine ⟨fun k => ?_, fun k => ?_⟩
  · rw [hget]
    split
    · exact (reduce_spec e).1
    · exact hs k
  · rw [hget]
    by_cases hk : k.val = p
    · rw [if_pos hk, if_pos hk.symm, (reduce_spec e).2]
    · rw [if_neg hk, if_neg (Ne.symm hk)]

/-- What the first `n` products of row `i` add to the coefficient `k`. -/
def rowTerm (x y : Nat → Zq) (i n k : Nat) : Zq :=
  if i ≤ k then if k - i < n then x i * y (k - i) else 0
  else if 256 + k - i < n then -(x i * y (256 + k - i)) else 0

/-- The product `n` of a row is added to one coefficient, with a sign where it wraps. -/
theorem rowTerm_succ (x y : Nat → Zq) {i n k : Nat} (hi : i < 256) (hn : n < 256) (hk : k < 256) :
    rowTerm x y i (n + 1) k = if i + n < 256 then if k = i + n then rowTerm x y i n k + x i * y n else rowTerm x y i n k
      else if k = i + n - 256 then rowTerm x y i n k - x i * y n else rowTerm x y i n k := by
  unfold rowTerm
  by_cases hkeep : i ≤ k
  · simp only [if_pos hkeep]
    by_cases hlast : k = i + n
    · subst hlast
      simp only [Nat.add_sub_cancel_left, Nat.lt_succ_self, Nat.lt_irrefl, if_true, if_false, hk, zero_add]
    · have hiff : k - i < n + 1 ↔ k - i < n := by omega
      have hwrap : k ≠ i + n - 256 ∨ i + n < 256 := by omega
      simp only [hiff, if_neg hlast]
      rcases hwrap with h | h
      · simp only [if_neg h, ite_self]
      · simp only [if_pos h]
  · simp only [if_neg hkeep]
    by_cases hlast : 256 + k - i = n
    · have hnot : ¬i + n < 256 := by omega
      have hpos : k = i + n - 256 := by omega
      rw [if_neg hnot, if_pos hpos, if_pos (by omega), if_neg (by omega), hlast, zero_sub]
    · have hiff : 256 + k - i < n + 1 ↔ 256 + k - i < n := by omega
      have h1 : k ≠ i + n := by omega
      have h2 : ¬i + n < 256 → k ≠ i + n - 256 := by omega
      simp only [hiff, if_neg h1]
      by_cases h : i + n < 256
      · rw [if_pos h]
      · rw [if_neg h, if_neg (h2 h)]

section Rows

variable (f g : Vector UInt16 N)

/-- The residues of the values that an element is built from. -/
theorem seq_rq {i : Nat} (hi : i < 256) : (FieldElement.new f[i]!).toZq = seq (rq f).toRq i := by
  rw [seq_lt _ i hi, RqElement.toRq, Coefficients.toZq, rq, getElem!_pos f i hi, Loops.getElem_fin, Vector.getElem_map]

theorem schoolbookStep_eq (i n : Nat) (s : Coefficients) : schoolbookStep f g i s n = if i + n < 256 then
      s.set! (i + n) (s[i + n]! + (FieldElement.new f[i]!).mulReference (FieldElement.new g[n]!)).reduce
    else s.set! (i + n - 256) (s[i + n - 256]! - (FieldElement.new f[i]!).mulReference (FieldElement.new g[n]!)).reduce := by
  simp only [schoolbookStep, N]

/-- One product of a row. -/
theorem schoolbookStep_spec {i n : Nat} (hi : i < 256) (hn : n < 256) {b : Fin 256 → Zq} {s : Coefficients}
    (hs : Coefficients.Within 1664 s ∧ ∀ k : Fin 256, s[k].toZq = b k + rowTerm (seq (rq f).toRq) (seq (rq g).toRq) i n k) :
    Coefficients.Within 1664 (schoolbookStep f g i s n) ∧ ∀ k : Fin 256,
      (schoolbookStep f g i s n)[k].toZq = b k + rowTerm (seq (rq f).toRq) (seq (rq g).toRq) i (n + 1) k := by
  obtain ⟨hwithin, hvalue⟩ := hs
  obtain ⟨hproduct, hproduct'⟩ := mulReference_spec (FieldElement.new f[i]!) (FieldElement.new g[n]!)
  rw [seq_rq f hi, seq_rq g hn] at hproduct'
  rw [schoolbookStep_eq]
  by_cases hwrap : i + n < 256
  · have hsum := (hwithin.getElem! (i + n) hwrap).add hproduct (by decide)
    obtain ⟨h1, h2⟩ := set_reduce hwithin (i + n)
      (s[i + n]! + (FieldElement.new f[i]!).mulReference (FieldElement.new g[n]!))
    rw [if_pos hwrap]
    refine ⟨h1, fun k => ?_⟩
    rw [h2 k, rowTerm_succ _ _ hi hn k.isLt, if_pos hwrap]
    by_cases hk : k.val = i + n
    · rw [if_pos hk, if_pos hk, hsum.2, hproduct', ← add_assoc, ← hvalue k, Loops.getElem_fin]
      simp only [← hk, getElem!_pos s k.val k.isLt]
    · rw [if_neg hk, if_neg hk, hvalue k]
  · have hlt : i + n - 256 < 256 := by omega
    have hdifference := (hwithin.getElem! (i + n - 256) hlt).sub hproduct (by decide)
    obtain ⟨h1, h2⟩ := set_reduce hwithin (i + n - 256)
      (s[i + n - 256]! - (FieldElement.new f[i]!).mulReference (FieldElement.new g[n]!))
    rw [if_neg hwrap]
    refine ⟨h1, fun k => ?_⟩
    rw [h2 k, rowTerm_succ _ _ hi hn k.isLt, if_neg hwrap]
    by_cases hk : k.val = i + n - 256
    · rw [if_pos hk, if_pos hk, hdifference.2, hproduct', ← add_sub_assoc, ← hvalue k, Loops.getElem_fin]
      simp only [← hk, getElem!_pos s k.val k.isLt]
    · rw [if_neg hk, if_neg hk, hvalue k]

/-- A row adds its summand of the negacyclic product to every coefficient. -/
theorem schoolbookRow_spec {i : Nat} (hi : i < 256) {s : Coefficients} (hs : Coefficients.Within 1664 s) :
    Coefficients.Within 1664 ((List.range N).foldl (schoolbookStep f g i) s) ∧ ∀ k : Fin 256,
      ((List.range N).foldl (schoolbookStep f g i) s)[k].toZq = s[k].toZq +
        if i ≤ k.val then seq (rq f).toRq i *
          seq (rq g).toRq (k - i) else -(seq (rq f).toRq i * seq (rq g).toRq (256 + k - i)) := by
  have hzero : ∀ k : Nat, rowTerm (seq (rq f).toRq) (seq (rq g).toRq) i 0 k = 0 := fun k => by simp [rowTerm]
  obtain ⟨h1, h2⟩ := Loops.foldl_range (f := schoolbookStep f g i) (m := N) (s := s)
    (I := fun n r => Coefficients.Within 1664 r ∧
      ∀ k : Fin 256, r[k].toZq = s[k].toZq + rowTerm (seq (rq f).toRq) (seq (rq g).toRq) i n k)
    ⟨hs, fun k => by rw [hzero, add_zero]⟩ fun n hn r hr => schoolbookStep_spec f g hi hn hr
  refine ⟨h1, fun k => ?_⟩
  have hk := k.isLt
  have hN : N = 256 := rfl
  rw [h2 k, rowTerm]
  congr 1
  by_cases hkeep : i ≤ k.val
  · rw [if_pos hkeep, if_pos hkeep, if_pos (by omega)]
  · rw [if_neg hkeep, if_neg hkeep, if_pos (by omega)]

/-- The reference multiplication is multiplication modulo `X^256 + 1`. -/
theorem schoolbook_spec : (schoolbook f g).toRq = multiply (rq f).toRq (rq g).toRq := by
  have hrun := Loops.foldl_range (f := fun result i => (List.range N).foldl (schoolbookStep f g i) result) (m := N)
    (s := Vector.replicate N FieldElement.zero)
    (I := fun n r => Coefficients.Within 1664 r ∧ ∀ k : Fin 256, r[k].toZq = ∑ i ∈ Finset.range n,
      if i ≤ k.val then seq (rq f).toRq i *
        seq (rq g).toRq (k - i) else -(seq (rq f).toRq i * seq (rq g).toRq (256 + k - i)))
    ⟨.replicate (by decide), fun k => by rw [Finset.sum_range_zero, Loops.getElem_fin, Vector.getElem_replicate]; rfl⟩
    fun i hi r hr => by
      obtain ⟨h1, h2⟩ := schoolbookRow_spec f g hi hr.1
      exact ⟨h1, fun k => by rw [h2 k, hr.2 k, Finset.sum_range_succ]⟩
  funext k
  have hvalue := hrun.2 k
  simp only [N] at hvalue
  simp only [RqElement.toRq, Coefficients.toZq, schoolbook, multiply, Ntt.negacyclic, N]
  exact hvalue

end Rows

/-! ## The properties -/

theorem FieldElement.product_comm (a b : FieldElement) : a * b = b * a :=
  congrArg (fun product => FieldElement.mk (montgomeryReduce product)) (Int32.mul_comm _ _)

theorem FieldElement.difference_eq (a b : FieldElement) : a - b = a + -b :=
  congrArg FieldElement.mk (Int16.sub_eq_add_neg _ _)

/-- Multiplication distributes over a sum that is a word. -/
theorem FieldElement.product_add (a b c : UInt16) :
    ((new a * (new b + new c)).eq (new a * new b + new a * new c)) = true := by
  rw [FieldElement.eq_iff_toZq]
  have ha := new_within a
  have hb := new_within b
  have hc := new_within c
  obtain ⟨hsum, hsum'⟩ := hb.add hc (by decide)
  obtain ⟨hab, hab'⟩ := product_spec ha hb (by decide)
  obtain ⟨hac, hac'⟩ := product_spec ha hc (by decide)
  rw [(product_spec ha hsum (by decide)).2, hsum', (hab.add hac (by decide)).2, hab', hac']
  ring

theorem rq_represents (coeffs : Vector UInt16 N) : (rq coeffs).Represents 3329 (rq coeffs).toRq := by
  refine ⟨fun i => ?_, rfl⟩
  rw [Loops.getElem_fin, rq, Vector.getElem_map]
  exact (new_within _).mono (by decide)

/-- The round trip through the transform scales by `R`. -/
theorem nttInverse_ntt_rq (coeffs : Vector UInt16 N) :
    ((rq coeffs).ntt.nttInverse.eq ⟨coeffs.map fun c => (new c).toMontgomery⟩) = true := by
  rw [RqElement.eq_iff, ((rq_represents coeffs).ntt.mono (by decide)).nttInverse.2, nttInverse_ntt]
  funext i
  rw [Pi.smul_apply, RqElement.toRq, Coefficients.toZq, RqElement.toRq, Coefficients.toZq, Loops.getElem_fin,
    Loops.getElem_fin, rq, Vector.getElem_map, Vector.getElem_map, (toMontgomery_spec (new_within _) (by decide)).2]
  rfl

/-- Multiplication through the transform is the reference multiplication. -/
theorem mul_ntt_schoolbook (f g : Vector UInt16 N) : (((rq f).ntt * (rq g).ntt).nttInverse.eq (schoolbook f g)) = true := by
  have hproduct := (rq_represents f).ntt.multiply (rq_represents g).ntt (by decide) (by decide)
  rw [RqElement.eq_iff, (hproduct.nttInverse_mul (by decide)).2, nttInverse_multiplyNtts, schoolbook_spec]

/-- The 12-bit encoding of an element decodes to the element. -/
theorem byteDecode_byteEncode_tq (t : TqElement) : ((TqElement.byteDecode t.byteEncode.toList).eq t) = true := by
  rw [TqElement.eq_iff, (byteDecode_represents _).2, byteEncode_toList]
  have hval : ∀ j, (t.toTq j).val < 3329 := fun j => ZMod.val_lt _
  rw [byteDecode_byteEncode (d := 12) _ (fun j => (hval j).trans (by decide)) hval]
  exact funext fun j => ZMod.natCast_zmod_val _

/-- Compression undoes the decompression of a value of its width. -/
theorem FieldElement.compress_of_decompress {d : Nat} (hd : 1 ≤ d) (hd' : d ≤ 11) {y : UInt16} (hy : y.toNat < 2 ^ d) :
    (decompress y d).compress d = y := by
  rw [← UInt16.toNat_inj, compress_eq _ d hd', decompress_eq y d hd hy, Fips203.compress_decompress hd hd' hy]

/-- Every property that the tests sample holds of all the inputs of its generator. -/
theorem algebraic_properties :
    (∀ a b : UInt16, (new a * new b).eq (new b * new a) = true) ∧
    (∀ a b c : UInt16, (new a * (new b + new c)).eq (new a * new b + new a * new c) = true) ∧
    (∀ a b : UInt16, (new a - new b).eq (new a + -new b) = true) ∧
    (∀ coeffs : Vector UInt16 N,
      (rq coeffs).ntt.nttInverse.eq ⟨coeffs.map fun c => (new c).toMontgomery⟩ = true) ∧
    (∀ f g : Vector UInt16 N, ((rq f).ntt * (rq g).ntt).nttInverse.eq (schoolbook f g) = true) ∧
    (∀ coeffs : Vector UInt16 N, (TqElement.byteDecode (tq coeffs).byteEncode.toList).eq (tq coeffs) = true) ∧
    ∀ d ∈ [1, 4, 5, 10, 11], ∀ y : UInt16, y.toNat < 2 ^ d → (FieldElement.decompress y d).compress d = y := by
  refine ⟨fun a b => ?_, FieldElement.product_add, fun a b => ?_, nttInverse_ntt_rq, mul_ntt_schoolbook,
    fun coeffs => byteDecode_byteEncode_tq _, fun d hd y hy => ?_⟩
  · rw [FieldElement.product_comm, FieldElement.eq_iff_toZq]
  · rw [FieldElement.difference_eq, FieldElement.eq_iff_toZq]
  · have hwidth : ∀ d ∈ [1, 4, 5, 10, 11], 1 ≤ d ∧ d ≤ 11 := by decide
    exact FieldElement.compress_of_decompress (hwidth d hd).1 (hwidth d hd).2 hy

/-- The seven properties at the largest values of their generators. -/
theorem algebraic_properties_largest :
    (new 3328 * new 65535).eq (new 65535 * new 3328) = true ∧
    (new 65535 * (new 3328 + new 65535)).eq (new 65535 * new 3328 + new 65535 * new 65535) = true ∧
    (new 0 - new 65535).eq (new 0 + -new 65535) = true ∧
    (rq (Vector.replicate N 65535)).ntt.nttInverse.eq ⟨(Vector.replicate N 65535).map fun c => (new c).toMontgomery⟩ = true ∧
    ((rq (Vector.replicate N 65535)).ntt * (rq (Vector.replicate N 3328)).ntt).nttInverse.eq
      (schoolbook (Vector.replicate N 65535) (Vector.replicate N 3328)) = true ∧
    (TqElement.byteDecode (tq (Vector.replicate N 65535)).byteEncode.toList).eq (tq (Vector.replicate N 65535)) = true ∧
    (FieldElement.decompress 2047 11).compress 11 = 2047 := by
  obtain ⟨hcomm, hadd, hsub, hround, hmul, hdecode, hcompress⟩ := algebraic_properties
  exact ⟨hcomm 3328 65535, hadd 65535 3328 65535, hsub 0 65535, hround _, hmul _ _, hdecode _,
    hcompress 11 (by decide) 2047 (by decide)⟩

end MlkemSelkie
