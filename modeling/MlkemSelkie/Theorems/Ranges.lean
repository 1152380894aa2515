import MlkemSelkie.Ranges
import MlkemSelkie.Lemmas.Decryption
import MlkemSelkie.Lemmas.Fips202
import MlkemSelkie.Lemmas.Kem

/-!
# Checked computations are exact

A computation that passes the check on the ranges of its inputs computes what FIPS 203 computes, up to the power of `R`
of its scale, and leaves coefficients within its range: no sum wraps, whatever the order and the number of the
operations. The computations of key generation, encryption and decryption pass the check, with scale zero, on the ranges
that hold there.
-/

namespace MlkemSelkie

open Fips203 FieldElement

/-- The Montgomery factor `R`, a unit modulo q. -/
def montgomeryR : Zqˣ := Units.mkOfMulEqOne (2 ^ 16) 169 montgomery_unit

/-- An element times a power of `R`. -/
def scaled (e : Int) (x : Fin 256 → Zq) : Fin 256 → Zq := ((montgomeryR ^ e : Zqˣ) : Zq) • x

/-- No scale at all. -/
theorem scaled_zero (x : Fin 256 → Zq) : scaled 0 x = x := by
  rw [scaled, zpow_zero, Units.val_one, one_smul]

/-- A scale distributes over sums. -/
theorem scaled_add (e : Int) (x y : Fin 256 → Zq) : scaled e (x + y) = scaled e x + scaled e y := smul_add _ x y

theorem scaled_sub (e : Int) (x y : Fin 256 → Zq) : scaled e (x - y) = scaled e x - scaled e y := smul_sub _ x y

theorem scaled_sum {k : Nat} (e : Int) (x : Fin k → Fin 256 → Zq) : scaled e (∑ j, x j) = ∑ j, scaled e (x j) :=
  Finset.smul_sum

/-- One more factor `R`. -/
theorem scaled_succ (e : Int) (x : Fin 256 → Zq) : (2 ^ 16 : Zq) • scaled e x = scaled (e + 1) x := by
  rw [scaled, scaled, smul_smul, zpow_add_one, Units.val_mul, mul_comm]
  rfl

/-- One factor `R` less. -/
theorem scaled_pred (e : Int) (x : Fin 256 → Zq) : (169 : Zq) • scaled e x = scaled (e - 1) x := by
  rw [scaled, scaled, smul_smul, zpow_sub_one, Units.val_mul, mul_comm]
  rfl

/-! ## Scales pass through the transforms and the products -/

/-- The inverse transform keeps the scale. -/
theorem nttInverse_scaled (e : Int) (x : Tq) : Fips203.nttInverse (scaled e x) = scaled e (Fips203.nttInverse x) :=
  nttInverse_smul _ x

/-- The transform keeps the scale. -/
theorem ntt_scaled (e : Int) (x : Rq) : Fips203.ntt (scaled e x) = scaled e (Fips203.ntt x) := by
  rw [← ntt_nttInverse (scaled e (Fips203.ntt x)), nttInverse_scaled, nttInverse_ntt]

/-- The factors of a product can be drawn out. -/
theorem multiplyNtts_smul (a b : Zq) (x y : Tq) : multiplyNtts (a • x) (b • y) = (a * b) • multiplyNtts x y := by
  refine ext_blocks fun i hi => ?_
  have heven : 2 * i < 256 := by omega
  have hodd : 2 * i + 1 < 256 := by omega
  rw [seq_smul (a * b) _ _ heven, seq_smul (a * b) _ _ hodd, multiplyNtts_even _ _ i hi, multiplyNtts_even _ _ i hi,
    multiplyNtts_odd _ _ i hi, multiplyNtts_odd _ _ i hi, seq_smul a x _ heven, seq_smul a x _ hodd, seq_smul b y _ heven,
    seq_smul b y _ hodd]
  exact ⟨by ring, by ring⟩

/-- The scales of a product add up. -/
theorem multiplyNtts_scaled (e e' : Int) (x y : Tq) :
    multiplyNtts (scaled e x) (scaled e' y) = scaled (e + e') (multiplyNtts x y) := by
  rw [scaled, scaled, multiplyNtts_smul, scaled, zpow_add, Units.val_mul]

namespace Term

/-- Each of some bounds is at most the largest. -/
theorem le_largest {k : Nat} (bounds : Fin k → Nat) (j : Fin k) : bounds j ≤ largest bounds :=
  List.le_max_of_le (List.mem_ofFn.mpr ⟨j, rfl⟩) (Nat.le_refl _)

variable {V : Domain → Type} {d : Domain}

/-- The scales of the products of a checked dot product are one and the same. -/
theorem scale_eq_head {k : Nat} {scales : Fin k → Int}
    (h : (List.ofFn scales).all (· == (List.ofFn scales).headD 1) = true) (j : Fin k) :
    scales j = (List.ofFn scales).headD 1 := by
  rw [List.all_eq_true] at h
  exact eq_of_beq (h (scales j) (List.mem_ofFn.mpr ⟨j, rfl⟩))

/-- A dot product of representatives whose scales agree. -/
theorem dot_sound {k F G : Nat} {f g : Fin k → TqElement} {x y : Fin k → Tq} {e : Int} {scalesF scalesG : Fin k → Int}
    (hf : ∀ j, (f j).Represents F (scaled (scalesF j) (x j))) (hg : ∀ j, (g j).Represents G (scaled (scalesG j) (y j)))
    (he : ∀ j, scalesF j + scalesG j = e) (hG : G ≤ 32768) (hT : k * dotBound F G ≤ 2038398975) :
    (TqElement.accumulatedDot (List.ofFn f) (List.ofFn g) (List.ofFn fun j => (g j).mulCache)).Represents
      ((k * dotBound F G + 109084672) / 65536) (scaled (e - 1) (∑ j, multiplyNtts (x j) (y j))) := by
  have hone : ∀ _ : Fin k, dotBound F G ≤ 2147483647 := fun j =>
    (Nat.le_mul_of_pos_left _ j.pos).trans (hT.trans (by decide))
  have hdot := accumulatedDot_spec (T := dotBound F G) (List.ofFn f) (List.ofFn g) (List.ofFn fun j => (g j).mulCache)
  rw [zip_ofFn, List.length_ofFn, List.map_ofFn, List.sum_ofFn] at hdot
  have hrep := hdot
    (List.forall_mem_ofFn_iff.mpr fun j => Operands.of_within (hf j).1 (hg j).1 (fun i => (mulCache_spec (hg j).1 hG i).1)
      (hone j) (Nat.le_max_left _ _) (Nat.le_max_right _ _))
    (List.forall_mem_ofFn_iff.mpr fun j i => (mulCache_spec (hg j).1 hG i).2) hT
  have hsum : (∑ j, multiplyNtts (f j).toTq (g j).toTq) = scaled e (∑ j, multiplyNtts (x j) (y j)) := by
    rw [scaled_sum]
    refine Finset.sum_congr rfl fun j _ => ?_
    rw [(hf j).2, (hg j).2, multiplyNtts_scaled, he j]
  rw [← scaled_pred, ← hsum]
  exact hrep

/-- A checked computation represents the exact result times `R` to its scale, within its range. -/
theorem sound (I : Inputs V) (t : Term V d) (h : t.checks I.range = true) :
    d.Represents (t.bound I.range) (t.eval I.element) (scaled t.scale (t.value I.exact)) := by
  induction t with
  | @input d x =>
    rw [scale, scaled_zero]
    exact I.within d x
  | addRq f g ihf ihg =>
    simp only [checks, Bool.and_eq_true, decide_eq_true_eq, beq_iff_eq] at h
    obtain ⟨⟨⟨hf, hg⟩, hscale⟩, hrange⟩ := h
    rw [value, scaled_add]
    refine RqElement.Represents.add (ihf hf) ?_ hrange
    rw [scale, hscale]
    exact ihg hg
  | subRq f g ihf ihg =>
    simp only [checks, Bool.and_eq_true, decide_eq_true_eq, beq_iff_eq] at h
    obtain ⟨⟨⟨hf, hg⟩, hscale⟩, hrange⟩ := h
    rw [value, scaled_sub]
    refine RqElement.Represents.sub (ihf hf) ?_ hrange
    rw [scale, hscale]
    exact ihg hg
  | addTq f g ihf ihg =>
    simp only [checks, Bool.and_eq_true, decide_eq_true_eq, beq_iff_eq] at h
    obtain ⟨⟨⟨hf, hg⟩, hscale⟩, hrange⟩ := h
    rw [value, scaled_add]
    refine TqElement.Represents.add (ihf hf) ?_ hrange
    rw [scale, hscale]
    exact ihg hg
  | ntt f ih =>
    simp only [checks, Bool.and_eq_true, decide_eq_true_eq] at h
    rw [value, scale, ← ntt_scaled]
    exact ((ih h.1).mono h.2).ntt
  | nttInverse f ih =>
    simp only [checks, Bool.and_eq_true, decide_eq_true_eq] at h
    rw [value, scale, ← scaled_succ, ← nttInverse_scaled]
    exact ((ih h.1).mono h.2).nttInverse
  | toMontgomery f ih =>
    simp only [checks, Bool.and_eq_true, decide_eq_true_eq] at h
    rw [value, scale, ← scaled_succ]
    exact (ih h.1).toMontgomery h.2
  | mul f g ihf ihg =>
    simp only [checks, Bool.and_eq_true, decide_eq_true_eq] at h
    obtain ⟨⟨⟨hf, hg⟩, hproduct⟩, hrange⟩ := h
    rw [value, scale, ← scaled_pred, ← multiplyNtts_scaled]
    exact (ihf hf).multiply (ihg hg) hproduct hrange
  | @dot k f g ihf ihg =>
    simp only [checks, Bool.and_eq_true, decide_eq_true_eq] at h
    obtain ⟨⟨⟨hparts, hscales⟩, hrange⟩, hsum⟩ := h
    rw [List.all_eq_true, List.forall_mem_ofFn_iff] at hparts
    simp only [id_eq, Bool.and_eq_true] at hparts
    exact dot_sound (fun j => (ihf j (hparts j).1).mono (le_largest (fun j => (f j).bound I.range) j))
      (fun j => (ihg j (hparts j).2).mono (le_largest (fun j => (g j).bound I.range) j)) (scale_eq_head hscales) hrange hsum

/-- An element of the code is what a checked computation without a scale computes. -/
structure Yields (t : Term V d) (I : Inputs V) (x : d.Element) : Prop where
  checks : t.checks I.range = true
  scale : t.scale = 0
  eval : x = t.eval I.element

end Term

/-! ## The computations of K-PKE -/

variable {P : ParameterSet} {Γ : Crates}

/-- The polynomials of key generation pass the check, with scale zero. -/
theorem NewOperand.tHat_checks (i : Fin P.K) : (tHat i).checks range = true ∧ (tHat i).scale = 0 := by
  cases P <;> revert i <;> decide

/-- So do those of the first part of a ciphertext. -/
theorem EncryptOperand.u_checks (i : Fin P.K) : (u i).checks range = true ∧ (u i).scale = 0 := by
  cases P <;> revert i <;> decide

/-- So does the second part. -/
theorem EncryptOperand.v_checks (P : ParameterSet) :
    (v : Term (EncryptOperand P.K) .rq).checks range = true ∧ (v : Term (EncryptOperand P.K) .rq).scale = 0 := by
  cases P <;> decide

/-- So does what decryption compresses to the message. -/
theorem DecryptOperand.w_checks (P : ParameterSet) :
    (w : Term (DecryptOperand P.K) .rq).checks range = true ∧ (w : Term (DecryptOperand P.K) .rq).scale = 0 := by
  cases P <;> decide

/-- A product with a cached vector is the dot product of the components. -/
theorem TqVector.mul_of (a b : TqVector P) : a * CachedTqVector.of b = TqElement.accumulatedDot
    (List.ofFn fun j : Fin P.K => a.polys[j]) (List.ofFn fun j : Fin P.K => b.polys[j])
    (List.ofFn fun j : Fin P.K => b.polys[j].mulCache) := by
  have hlist : ∀ v : TqVector P, (List.ofFn fun j : Fin P.K => v.polys[j]) = v.polys.toList := fun v => by
    refine List.ext_getElem ?_ fun i h1 h2 => ?_
    · rw [List.length_ofFn, Vector.length_toList]
    · rw [List.getElem_ofFn, Vector.getElem_toList, Loops.getElem_fin]
  have hcaches : (List.ofFn fun j : Fin P.K => b.polys[j].mulCache) = (CachedTqVector.of b).caches.toList := by
    rw [CachedTqVector.of, Vector.toList_ofFn]
  rw [hlist, hlist, hcaches]
  rfl

/-- A representative is one of what it stands for. -/
theorem Domain.Represents.exact {d : Domain} {B : Nat} {f : d.Element} {x : Fin 256 → Zq} (h : d.Represents B f x) :
    d.Represents B f (d.exact f) := by
  cases d with
  | rq => exact ⟨h.1, rfl⟩
  | tq => exact ⟨h.1, rfl⟩

/-- What key generation holds once the matrix and the noise are sampled. -/
def NewOperand.element (A : TqMatrix P) (s e : RqVector P) : (d : Domain) → NewOperand P.K d → d.Element
  | _, .matrix i j => A.rows[i].polys[j]
  | _, .s i => s.polys[i]
  | _, .e i => e.polys[i]

/-- The matrix and the noise of key generation are in range. -/
theorem NewOperand.within {A : TqMatrix P} {s e : RqVector P} {X : Fin P.K → Fin P.K → Tq} {x y : Fin P.K → Rq}
    (hA : A.Represents 3500 X) (hs : s.Represents 3 x) (he : e.Represents 3 y) (d : Domain) (p : NewOperand P.K d) :
    d.Represents (range d p) (element A s e d p) (d.exact (element A s e d p)) := by
  cases p with
  | matrix i j => exact Domain.Represents.exact (d := .tq) (hA i j)
  | s i => exact Domain.Represents.exact (d := .rq) (hs i)
  | e i => exact Domain.Represents.exact (d := .rq) (he i)

/-- Key generation computes this term. -/
theorem NewOperand.tHat_eval (A : TqMatrix P) (s e : RqVector P) (i : Fin P.K) :
    ((A * CachedTqVector.of s.ntt).toMontgomery + e.ntt).polys[i] = (tHat i).eval (element A s e) := by
  have hsum : ∀ v w : TqVector P, (v + w).polys[i] = v.polys[i] + w.polys[i] := fun v w => Vector.getElem_zipWith _
  rw [hsum, TqVector.getElem_toMontgomery, TqMatrix.getElem_mul, TqVector.mul_of, RqVector.getElem_ntt]
  simp only [RqVector.getElem_ntt]
  rfl

/-- Key generation computes `t_hat` from the expanded matrix, the secret and the error, all within their ranges. -/
theorem KeyPair.newDerand_eval (hΓ : Γ.Lawful) {seed : Vector UInt8 32} {pair : KeyPair P}
    (h : newDerand Γ seed = some pair) :
    ∃ (A : TqMatrix P) (s e : RqVector P) (I : Inputs (NewOperand P.K)),
      TqMatrix.expand Γ pair.ekPke.rho = some A ∧ pair.dkPke.sHat = CachedTqVector.of s.ntt ∧
      s.Represents 3 (fun i => noise Γ.hashes P.fips.eta1 (Γ.G (seed.toList ++ [UInt8.ofNat P.K])).2 i) ∧
      e.Represents 3 (fun i => noise Γ.hashes P.fips.eta1 (Γ.G (seed.toList ++ [UInt8.ofNat P.K])).2 (P.K + i)) ∧
      I.element = NewOperand.element A s e ∧ I.range = NewOperand.range ∧
      ∀ i : Fin P.K, (NewOperand.tHat i).Yields I pair.ekPke.tHat.polys[i] := by
  obtain ⟨A, hexpand, hpair⟩ := Option.bind_eq_some_iff.mp h
  obtain rfl := Option.some.inj hpair
  have hA := (expand_represents hΓ hexpand).mono canonical_le_dot
  obtain ⟨hs, he⟩ := newDerand_noise hΓ P (Γ.G (seed.toList ++ [UInt8.ofNat P.K])).2
  refine ⟨A, _, _, ⟨_, _, NewOperand.within hA hs he⟩, hexpand, rfl, hs, he, rfl, rfl, fun i => ?_⟩
  exact ⟨(NewOperand.tHat_checks i).1, (NewOperand.tHat_checks i).2, NewOperand.tHat_eval A _ _ i⟩

/-- What encryption holds once the noise is sampled. -/
def EncryptOperand.element (ek : EncryptionKey P) (y e1 : RqVector P) (e2 mu : RqElement) :
    (d : Domain) → EncryptOperand P.K d → d.Element
  | _, .matrix i j => ek.aHatTranspose.rows[i].polys[j]
  | _, .tHat i => ek.tHat.polys[i]
  | _, .y i => y.polys[i]
  | _, .e1 i => e1.polys[i]
  | _, .e2 => e2
  | _, .mu => mu

/-- The key, the noise and the message of encryption are in range. -/
theorem EncryptOperand.within {ek : EncryptionKey P} {y e1 : RqVector P} {e2 mu : RqElement} {X : Fin P.K → Fin P.K → Tq}
    {t : Fin P.K → Tq} {a b : Fin P.K → Rq} {f g : Rq} (hA : ek.aHatTranspose.Represents 3500 X)
    (ht : ek.tHat.Represents 3500 t) (hy : y.Represents 3 a) (he1 : e1.Represents 3 b) (he2 : e2.Represents 3 f)
    (hmu : mu.Represents 3328 g) (d : Domain) (p : EncryptOperand P.K d) :
    d.Represents (range d p) (element ek y e1 e2 mu d p) (d.exact (element ek y e1 e2 mu d p)) := by
  cases p with
  | matrix i j => exact Domain.Represents.exact (d := .tq) (hA i j)
  | tHat i => exact Domain.Represents.exact (d := .tq) (ht i)
  | y i => exact Domain.Represents.exact (d := .rq) (hy i)
  | e1 i => exact Domain.Represents.exact (d := .rq) (he1 i)
  | e2 => exact Domain.Represents.exact (d := .rq) he2
  | mu => exact Domain.Represents.exact (d := .rq) hmu

/-- Encryption computes this term for the first part. -/
theorem EncryptOperand.u_eval (ek : EncryptionKey P) (y e1 : RqVector P) (e2 mu : RqElement) (i : Fin P.K) :
    ((ek.aHatTranspose * CachedTqVector.of y.ntt).nttInverse + e1).polys[i] = (u i).eval (element ek y e1 e2 mu) := by
  have hsum : ∀ v w : RqVector P, (v + w).polys[i] = v.polys[i] + w.polys[i] := fun v w => Vector.getElem_zipWith _
  rw [hsum, TqVector.getElem_nttInverse, TqMatrix.getElem_mul, TqVector.mul_of]
  simp only [RqVector.getElem_ntt]
  rfl

/-- Encryption computes this term for the second part. -/
theorem EncryptOperand.v_eval (ek : EncryptionKey P) (y e1 : RqVector P) (e2 mu : RqElement) :
    (ek.tHat * CachedTqVector.of y.ntt).nttInverse + e2 + mu =
      (v : Term (EncryptOperand P.K) .rq).eval (element ek y e1 e2 mu) := by
  rw [TqVector.mul_of]
  simp only [RqVector.getElem_ntt]
  rfl

/-- Encryption with a valid key computes `u` and `v` from the key, the noise and the message, all within their ranges. -/
theorem EncryptionKey.encrypt_eval (hΓ : Γ.Lawful) {ek : EncryptionKey P} (hek : ek.Valid Γ) (m r : Vector UInt8 32) :
    ∃ (y e1 : RqVector P) (e2 : RqElement) (I : Inputs (EncryptOperand P.K)) (u : RqVector P) (v : RqElement),
      y.Represents 3 (fun i => noise Γ.hashes P.fips.eta1 r i) ∧
      e1.Represents 3 (fun i => noise Γ.hashes P.fips.eta2 r (P.K + i)) ∧
      e2.Represents 3 (noise Γ.hashes P.fips.eta2 r (2 * P.K)) ∧
      I.element = EncryptOperand.element ek y e1 e2 (RqElement.fromMessage m) ∧ I.range = EncryptOperand.range ∧
      (∀ i : Fin P.K, (EncryptOperand.u i).Yields I u.polys[i]) ∧ (EncryptOperand.v).Yields I v ∧
      ek.encrypt Γ m r = Ciphertext.fromUv u v := by
  obtain ⟨ht, hA⟩ := hek.represents hΓ
  obtain ⟨hy, he1, he2⟩ := encrypt_noise hΓ P r
  refine ⟨_, _, _, ⟨_, _, EncryptOperand.within hA ht hy he1 he2 (fromMessage_represents m)⟩, _, _, hy, he1, he2,
    rfl, rfl, fun i => ?_, ?_, rfl⟩
  · exact ⟨(EncryptOperand.u_checks i).1, (EncryptOperand.u_checks i).2, EncryptOperand.u_eval ek _ _ _ _ i⟩
  · exact ⟨(EncryptOperand.v_checks P).1, (EncryptOperand.v_checks P).2, EncryptOperand.v_eval ek _ _ _ _⟩

/-- What decryption holds once the ciphertext is decompressed. -/
def DecryptOperand.element (sHat : TqVector P) (u : RqVector P) (v : RqElement) :
    (d : Domain) → DecryptOperand P.K d → d.Element
  | _, .sHat i => sHat.polys[i]
  | _, .u i => u.polys[i]
  | _, .v => v

/-- The key and the ciphertext of decryption are in range. -/
theorem DecryptOperand.within {sHat : TqVector P} {u : RqVector P} {v : RqElement} {s : Fin P.K → Tq} {a : Fin P.K → Rq}
    {b : Rq} (hs : sHat.Represents 3328 s) (hu : u.Represents 3328 a) (hv : v.Represents 3328 b) (d : Domain)
    (p : DecryptOperand P.K d) :
    d.Represents (range d p) (element sHat u v d p) (d.exact (element sHat u v d p)) := by
  cases p with
  | sHat i => exact Domain.Represents.exact (d := .tq) (hs i)
  | u i => exact Domain.Represents.exact (d := .rq) (hu i)
  | v => exact Domain.Represents.exact (d := .rq) hv

/-- Decryption computes this term. -/
theorem DecryptOperand.w_eval (sHat : TqVector P) (u : RqVector P) (f : RqElement) :
    f - (u.ntt * CachedTqVector.of sHat).nttInverse = (w : Term (DecryptOperand P.K) .rq).eval (element sHat u f) := by
  rw [TqVector.mul_of]
  simp only [RqVector.getElem_ntt]
  rfl

/-- Decryption with a valid key computes `w` from the key and the decompressed ciphertext, both within their ranges. -/
theorem DecryptionKey.decrypt_eval {dk : DecryptionKey P} (hdk : dk.Valid) (c : Ciphertext P) :
    ∃ (u : RqVector P) (v : RqElement) (I : Inputs (DecryptOperand P.K)) (w : RqElement),
      u.Represents 3328 (fun i => decompressU P.fips c.bytes.toList i) ∧
      v.Represents 3328 (decompressV P.fips c.bytes.toList) ∧
      I.element = DecryptOperand.element dk.sHat.vector u v ∧ I.range = DecryptOperand.range ∧
      (DecryptOperand.w).Yields I w ∧ dk.decrypt c = w.compressMessage := by
  obtain ⟨hu, hv⟩ := decompress_represents c
  have hs : dk.sHat.vector.Represents 3328 dk.sHat.vector.toTq := fun i => ⟨hdk.within i, rfl⟩
  refine ⟨_, _, ⟨_, _, DecryptOperand.within hs hu hv⟩, _, hu, hv, rfl, rfl, ?_, rfl⟩
  refine ⟨(DecryptOperand.w_checks P).1, (DecryptOperand.w_checks P).2, ?_⟩
  rw [← DecryptOperand.w_eval, ← hdk.cached]

/-- Lazy reduction is sound in any order of operations, and what key generation, encryption and decryption compute are
checked computations without a scale: on the ranges of what they start from, with every key that a program can hold. -/
theorem lazy_reduction_sound (hΓ : Γ.Lawful) (P : ParameterSet) :
    (∀ (V : Domain → Type) (I : Inputs V) (d : Domain) (t : Term V d), t.checks I.range = true →
      d.Represents (t.bound I.range) (t.eval I.element) (scaled t.scale (t.value I.exact))) ∧
    (∀ (seed : Vector UInt8 32) (pair : KeyPair P), KeyPair.newDerand Γ seed = some pair →
      ∃ (A : TqMatrix P) (s e : RqVector P) (I : Inputs (NewOperand P.K)),
        TqMatrix.expand Γ pair.ekPke.rho = some A ∧ pair.dkPke.sHat = CachedTqVector.of s.ntt ∧
        s.Represents 3 (fun i => noise Γ.hashes P.fips.eta1 (Γ.G (seed.toList ++ [UInt8.ofNat P.K])).2 i) ∧
        e.Represents 3 (fun i => noise Γ.hashes P.fips.eta1 (Γ.G (seed.toList ++ [UInt8.ofNat P.K])).2 (P.K + i)) ∧
        I.element = NewOperand.element A s e ∧ I.range = NewOperand.range ∧
        ∀ i : Fin P.K, (NewOperand.tHat i).Yields I pair.ekPke.tHat.polys[i]) ∧
    (∀ ek : EncapsulationKey P, ek.Obtained Γ → ∀ m r : Vector UInt8 32,
      ∃ (y e1 : RqVector P) (e2 : RqElement) (I : Inputs (EncryptOperand P.K)) (u : RqVector P) (v : RqElement),
        y.Represents 3 (fun i => noise Γ.hashes P.fips.eta1 r i) ∧
        e1.Represents 3 (fun i => noise Γ.hashes P.fips.eta2 r (P.K + i)) ∧
        e2.Represents 3 (noise Γ.hashes P.fips.eta2 r (2 * P.K)) ∧
        I.element = EncryptOperand.element ek.ekPke y e1 e2 (RqElement.fromMessage m) ∧ I.range = EncryptOperand.range ∧
        (∀ i : Fin P.K, (EncryptOperand.u i).Yields I u.polys[i]) ∧ (EncryptOperand.v).Yields I v ∧
        ek.ekPke.encrypt Γ m r = Ciphertext.fromUv u v) ∧
    ∀ dk : DecapsulationKey P, dk.Obtained Γ → ∀ c : Ciphertext P,
      ∃ (u : RqVector P) (v : RqElement) (I : Inputs (DecryptOperand P.K)) (w : RqElement),
        u.Represents 3328 (fun i => decompressU P.fips c.bytes.toList i) ∧
        v.Represents 3328 (decompressV P.fips c.bytes.toList) ∧
        I.element = DecryptOperand.element dk.dkPke.sHat.vector u v ∧ I.range = DecryptOperand.range ∧
        (DecryptOperand.w).Yields I w ∧ dk.dkPke.decrypt c = w.compressMessage := by
  refine ⟨fun V I d t h => t.sound I h, fun seed pair h => ?_, fun ek hek m r => ?_, fun dk hdk c => ?_⟩
  · exact KeyPair.newDerand_eval hΓ h
  · exact EncryptionKey.encrypt_eval hΓ (hek.valid hΓ).ekPke m r
  · exact DecryptionKey.decrypt_eval (hdk.valid hΓ).dkPke c

/-- On the keys of the seed of zeros: the vector of the encryption key, both polynomials of an encryption and the
polynomial of a decryption are within the ranges of their computations, and are what those compute exactly from the
matrix, the keys, the noise, the message and the decompressed ciphertext. -/
theorem lazy_reduction_sound_zero :
    ∃ (pair : KeyPair .mlkem512) (dk : DecapsulationKey .mlkem512) (A : TqMatrix .mlkem512)
      (s e y e1 u u' : RqVector .mlkem512) (e2 v v' w : RqElement) (I : Inputs (NewOperand ParameterSet.mlkem512.K))
      (J : Inputs (EncryptOperand ParameterSet.mlkem512.K)) (L : Inputs (DecryptOperand ParameterSet.mlkem512.K)),
      KeyPair.newDerand Crates.fips202 zeroSeed = some pair ∧
      DecapsulationKey.generateDerand Crates.fips202 (zeroSeed ++ zeroSeed) = some dk ∧
      dk.ek.ekPke.encrypt Crates.fips202 zeroSeed zeroSeed = Ciphertext.fromUv u v ∧
      dk.dkPke.decrypt (Ciphertext.fromBytes []) = w.compressMessage ∧
      I.element = NewOperand.element A s e ∧
      J.element = EncryptOperand.element dk.ek.ekPke y e1 e2 (RqElement.fromMessage zeroSeed) ∧
      L.element = DecryptOperand.element dk.dkPke.sHat.vector u' v' ∧
      (∀ i, Domain.tq.Represents 3370 pair.ekPke.tHat.polys[i] ((NewOperand.tHat i).value I.exact)) ∧
      (∀ i, Domain.rq.Represents 2198 u.polys[i] ((EncryptOperand.u i).value J.exact)) ∧
      Domain.rq.Represents 5526 v (EncryptOperand.v.value J.exact) ∧
      Domain.rq.Represents 5523 w (DecryptOperand.w.value L.exact) := by
  obtain ⟨hsound, hkeys, hencrypt, hdecrypt⟩ := lazy_reduction_sound Crates.fips202_lawful .mlkem512
  have hexact : ∀ {V : Domain → Type} {I : Inputs V} {d : Domain} {t : Term V d} {x : d.Element}, t.Yields I x →
      d.Represents (t.bound I.range) x (t.value I.exact) := fun {V I d t x} h => by
    have hrep := hsound V I d t h.checks
    rwa [h.scale, scaled_zero, ← h.eval] at hrep
  obtain ⟨dk, hrun⟩ := generateDerand_ends Crates.fips202_lawful zeroSeed zeroSeed_suffices
  have hdk := DecapsulationKey.Obtained.generated hrun
  obtain ⟨pair, hpair, _⟩ := Option.bind_eq_some_iff.mp hrun
  rw [seed_left] at hpair
  obtain ⟨A, s, e, I, _, _, _, _, hkey, hI, ht⟩ := hkeys zeroSeed pair hpair
  obtain ⟨y, e1, e2, J, u, v, _, _, _, henc, hJ, hu, hv, hc⟩ := hencrypt dk.ek (.ofDecapsulationKey hdk) zeroSeed zeroSeed
  obtain ⟨u', v', L, w, _, _, hdec, hL, hw, hm⟩ := hdecrypt dk hdk (Ciphertext.fromBytes [])
  have hbound : ∀ i : Fin ParameterSet.mlkem512.K, (NewOperand.tHat i).bound NewOperand.range = 3370 := by decide
  refine ⟨pair, dk, A, s, e, y, e1, u, u', e2, v, v', w, I, J, L, hpair, hrun, hc, hm, hkey, henc, hdec, fun i => ?_,
    fun i => ?_, ?_, ?_⟩
  · have h := hexact (ht i)
    rwa [hI, hbound i] at h
  · have h := hexact (hu i)
    rw [hJ] at h
    exact h
  · have h := hexact hv
    rwa [hJ] at h
  · have h := hexact hw
    rwa [hL] at h

end MlkemSelkie
