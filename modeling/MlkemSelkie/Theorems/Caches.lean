import Mathlib.Logic.Relation
import MlkemSelkie.Lemmas.Fips202
import MlkemSelkie.Lemmas.Kem

/-!
# The cached fields of every key a program can hold

The keys of a program change by steps: a constructor adds a key, a clone adds a copy, and `zeroize` overwrites a
decapsulation key in place. No order of steps separates a cached field from what it caches.
-/

namespace MlkemSelkie

open Fips203

variable {P : ParameterSet} {Γ : Crates}

/-- The keys that a program holds. -/
structure Keys (P : ParameterSet) where
  encryption : List (EncryptionKey P)
  encapsulation : List (EncapsulationKey P)
  decapsulation : List (DecapsulationKey P)

/-- What a program can do to its keys. The callers of `EncryptionKey::from_bytes` have checked the length. -/
inductive Step (Γ : Crates) : Keys P → Keys P → Prop
  | newDerand {s : Keys P} {seed : Vector UInt8 32} {pair : KeyPair P} (h : KeyPair.newDerand Γ seed = some pair) :
      Step Γ s { s with encryption := pair.ekPke :: s.encryption }
  | parseEncryption {s : Keys P} {bytes : List UInt8} {ek : EncryptionKey P} (hlen : bytes.length = P.encapsKeySize)
      (h : EncryptionKey.fromBytes Γ bytes = some ek) : Step Γ s { s with encryption := ek :: s.encryption }
  | cloneEncryption {s : Keys P} {ek : EncryptionKey P} (h : ek ∈ s.encryption) :
      Step Γ s { s with encryption := ek.clone :: s.encryption }
  | fromEncryption {s : Keys P} {ek : EncryptionKey P} (h : ek ∈ s.encryption) :
      Step Γ s { s with encapsulation := EncapsulationKey.of Γ ek :: s.encapsulation }
  | parseEncapsulation {s : Keys P} {bytes : List UInt8} {ek : EncapsulationKey P}
      (h : EncapsulationKey.fromBytes Γ bytes = some (.ok ek)) :
      Step Γ s { s with encapsulation := ek :: s.encapsulation }
  | cloneEncapsulation {s : Keys P} {ek : EncapsulationKey P} (h : ek ∈ s.encapsulation) :
      Step Γ s { s with encapsulation := ek.clone :: s.encapsulation }
  | cloneOfDecapsulation {s : Keys P} {dk : DecapsulationKey P} (h : dk ∈ s.decapsulation) :
      Step Γ s { s with encapsulation := dk.encapsulationKey.clone :: s.encapsulation }
  | generateDerand {s : Keys P} {seed : Vector UInt8 64} {dk : DecapsulationKey P}
      (h : DecapsulationKey.generateDerand Γ seed = some dk) : Step Γ s { s with decapsulation := dk :: s.decapsulation }
  | parseDecapsulation {s : Keys P} {bytes : List UInt8} {dk : DecapsulationKey P}
      (h : DecapsulationKey.fromBytes Γ bytes = some (.ok dk)) :
      Step Γ s { s with decapsulation := dk :: s.decapsulation }
  | zeroize {s : Keys P} (i : Nat) (hi : i < s.decapsulation.length) :
      Step Γ s { s with decapsulation := s.decapsulation.set i s.decapsulation[i].zeroize }

/-- The keys that a program holds after some steps. -/
def Reachable (Γ : Crates) (s : Keys P) : Prop := Relation.ReflTransGen (Step Γ) ⟨[], [], []⟩ s

/-! ## The invariant -/

/-- Every key that a program holds is valid. -/
structure Keys.Valid (Γ : Crates) (s : Keys P) : Prop where
  encryption : ∀ ek ∈ s.encryption, ek.Valid Γ
  encapsulation : ∀ ek ∈ s.encapsulation, ek.Valid Γ
  decapsulation : ∀ dk ∈ s.decapsulation, dk.Valid Γ

theorem FieldElement.zero_mul (a : FieldElement) : FieldElement.zero * a = FieldElement.zero := by
  show FieldElement.mk (FieldElement.montgomeryReduce ((0 : Int16).toInt32 * a.rep.toInt32)) = _
  rw [show (0 : Int16).toInt32 = 0 from rfl, Int32.zero_mul]
  decide

/-- The cache of a zeroized element is a zeroized cache. -/
theorem mulCache_zeroize (t : TqElement) (c : TqMulCache) : t.zeroize.mulCache = c.zeroize := by
  rw [TqElement.zeroize, TqElement.mulCache, TqMulCache.zeroize]
  refine congrArg TqMulCache.mk (Vector.ext fun i hi => ?_)
  have hpos : 128 + i < 256 := by omega
  rw [Vector.getElem_ofFn, Vector.getElem_replicate]
  simp only [TqElement.zero]
  rw [getElem!_pos _ (128 + i) hpos, Vector.getElem_replicate]
  exact FieldElement.zero_mul _

/-- A zeroized decryption key is valid: its caches are those of the zero vector. -/
theorem DecryptionKey.zeroize_valid (dk : DecryptionKey P) : dk.zeroize.Valid := by
  refine ⟨fun i j => ?_, ?_⟩
  · show FieldElement.Within 3328 (dk.sHat.vector.polys.map TqElement.zeroize)[i].inner[j]
    simp only [Loops.getElem_fin, Vector.getElem_map, TqElement.zeroize, TqElement.zero, Vector.getElem_replicate]
    decide
  · show CachedTqVector.mk _ _ = CachedTqVector.mk _ _
    refine congrArg (CachedTqVector.mk _) (Vector.ext fun i hi => ?_)
    rw [Vector.getElem_map, Vector.getElem_ofFn]
    show _ = TqElement.mulCache (dk.sHat.vector.polys.map TqElement.zeroize)[i]
    rw [Vector.getElem_map, mulCache_zeroize _ dk.sHat.caches[i]]

theorem DecapsulationKey.Valid.zeroize {dk : DecapsulationKey P} (h : dk.Valid Γ) : dk.zeroize.Valid Γ :=
  ⟨dk.dkPke.zeroize_valid, h.ek, h.hEk_eq⟩

/-- One step keeps every key valid. -/
theorem Step.valid (hΓ : Γ.Lawful) {s t : Keys P} (h : Step Γ s t) (hs : s.Valid Γ) : t.Valid Γ := by
  cases h with
  | newDerand h => exact { hs with encryption := List.forall_mem_cons.mpr ⟨(newDerand_spec hΓ h).1, hs.encryption⟩ }
  | parseEncryption hlen h =>
    exact { hs with encryption := List.forall_mem_cons.mpr ⟨(EncryptionKey.fromBytes_spec hlen h).1, hs.encryption⟩ }
  | cloneEncryption h => exact { hs with encryption := List.forall_mem_cons.mpr ⟨hs.encryption _ h, hs.encryption⟩ }
  | fromEncryption h =>
    have hek := EncapsulationKey.of_valid (hs.encryption _ h)
    exact { hs with encapsulation := List.forall_mem_cons.mpr ⟨hek, hs.encapsulation⟩ }
  | parseEncapsulation h =>
    exact { hs with encapsulation := List.forall_mem_cons.mpr ⟨(EncapsulationKey.fromBytes_spec h).1, hs.encapsulation⟩ }
  | cloneEncapsulation h =>
    exact { hs with encapsulation := List.forall_mem_cons.mpr ⟨hs.encapsulation _ h, hs.encapsulation⟩ }
  | cloneOfDecapsulation h =>
    exact { hs with encapsulation := List.forall_mem_cons.mpr ⟨(hs.decapsulation _ h).ek, hs.encapsulation⟩ }
  | generateDerand h =>
    have hdk := (DecapsulationKey.Obtained.generated h).valid hΓ
    exact { hs with decapsulation := List.forall_mem_cons.mpr ⟨hdk, hs.decapsulation⟩ }
  | parseDecapsulation h =>
    exact { hs with decapsulation := List.forall_mem_cons.mpr ⟨DecapsulationKey.fromBytes_spec h, hs.decapsulation⟩ }
  | zeroize i hi =>
    refine { hs with decapsulation := fun dk hdk => ?_ }
    rcases List.mem_or_eq_of_mem_set hdk with hold | rfl
    · exact hs.decapsulation dk hold
    · exact (hs.decapsulation _ (List.getElem_mem hi)).zeroize

/-- Every key in a reachable state is valid. -/
theorem Reachable.valid (hΓ : Γ.Lawful) {s : Keys P} (h : Reachable Γ s) : s.Valid Γ := by
  induction h with
  | refl => exact ⟨List.forall_mem_nil _, List.forall_mem_nil _, List.forall_mem_nil _⟩
  | tail _ hstep ih => exact hstep.valid hΓ ih

/-! ## The cached fields -/

/-- The cached hash and the cached matrix of an encapsulation key are those of its own bytes and its own seed. -/
structure EncapsulationKey.Consistent (Γ : Crates) (ek : EncapsulationKey P) : Prop where
  hEk : ek.hEk = Γ.H ek.toBytes.toList
  matrix : ∀ j i : Fin P.K, TqElement.sampleNtt Γ ek.ekPke.rho (UInt8.ofNat j) (UInt8.ofNat i) =
      some ek.ekPke.aHatTranspose.rows[j].polys[i] ∧
    ek.ekPke.aHatTranspose.rows[j].polys[i].toTq =
      sampleNtt (Γ.hashes.XOF (ek.ekPke.rho.toList ++ [UInt8.ofNat j, UInt8.ofNat i]))

/-- The cached hash and the caches of a decapsulation key are those of its own parts. -/
structure DecapsulationKey.Consistent (Γ : Crates) (dk : DecapsulationKey P) : Prop where
  hEk : dk.hEk = dk.ek.hEk
  ek : dk.ek.Consistent Γ
  caches : ∀ i : Fin P.K, dk.dkPke.sHat.caches[i] = dk.dkPke.sHat.vector.polys[i].mulCache

theorem EncapsulationKey.Valid.consistent (hΓ : Γ.Lawful) {ek : EncapsulationKey P} (h : ek.Valid Γ) : ek.Consistent Γ := by
  obtain ⟨⟨_, m, hexpand, hmatrix⟩, hhash⟩ := h
  refine ⟨hhash, fun j i => ?_⟩
  obtain ⟨hsuff, hentry⟩ := expand_getElem hΓ hexpand i j
  have htranspose : ek.ekPke.aHatTranspose.rows[j].polys[i] = m.rows[i].polys[j] := by
    rw [hmatrix, TqMatrix.transpose]
    simp only [Loops.getElem_fin, Vector.getElem_ofFn]
  rw [htranspose, hentry]
  exact ⟨sampleNtt_eq hΓ _ _ _ hsuff, (sampled_represents hsuff).2⟩

theorem DecapsulationKey.Valid.consistent (hΓ : Γ.Lawful) {dk : DecapsulationKey P} (h : dk.Valid Γ) : dk.Consistent Γ := by
  refine ⟨h.hEk_eq, h.ek.consistent hΓ, fun i => ?_⟩
  rw [h.dkPke.cached]
  exact CachedTqVector.of_caches _ i

/-- The cached fields are consistent in every reachable key. -/
theorem reachable_keys_consistent (hΓ : Γ.Lawful) {s : Keys P} (h : Reachable Γ s) :
    (∀ ek ∈ s.encapsulation, ek.Consistent Γ) ∧ ∀ dk ∈ s.decapsulation, dk.Consistent Γ :=
  ⟨fun ek hek => ((h.valid hΓ).encapsulation ek hek).consistent hΓ,
    fun dk hdk => ((h.valid hΓ).decapsulation dk hdk).consistent hΓ⟩

/-- A clone and a zeroized key of the seed of zeros. -/
theorem reachable_keys_consistent_zero :
    ∃ dk : DecapsulationKey .mlkem512, Reachable Crates.fips202 ⟨[], [dk.encapsulationKey.clone], [dk.zeroize]⟩ ∧
      dk.encapsulationKey.clone.Consistent Crates.fips202 ∧ dk.zeroize.Consistent Crates.fips202 := by
  obtain ⟨dk, hrun⟩ := generateDerand_ends Crates.fips202_lawful zeroSeed zeroSeed_suffices
  have hgenerated : Reachable Crates.fips202 ⟨[], [], [dk]⟩ := .single (.generateDerand hrun)
  have hcloned : Reachable Crates.fips202 ⟨[], [dk.encapsulationKey.clone], [dk]⟩ :=
    hgenerated.tail (.cloneOfDecapsulation List.mem_cons_self)
  have hreach : Reachable Crates.fips202 ⟨[], [dk.encapsulationKey.clone], [dk.zeroize]⟩ :=
    hcloned.tail (Step.zeroize (s := ⟨[], [dk.encapsulationKey.clone], [dk]⟩) 0 Nat.one_pos)
  obtain ⟨hek, hdk⟩ := reachable_keys_consistent Crates.fips202_lawful hreach
  exact ⟨dk, hreach, hek _ List.mem_cons_self, hdk _ List.mem_cons_self⟩

end MlkemSelkie
