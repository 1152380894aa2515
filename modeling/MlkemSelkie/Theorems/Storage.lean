import MlkemSelkie.Lemmas.Compression

/-!
# The storage of the transform's elements

What an index finds in the evens-then-odds storage of a `TqElement`, and the vector kernels that fill, read and compress the
storages.
-/

namespace MlkemSelkie

/-! ## Indexing -/

/-- The position of the split storage that holds a natural position. -/
theorem TqElement.index_eq (t : TqElement) (i : Nat) (hi : i < 256) : t.index i = some t.coefficients[i]! := by
  have hpos : i % 2 * (N / 2) + i / 2 < 256 := by
    rw [N]
    omega
  rw [index, Vector.getElem?_eq_getElem hpos, coefficients, getElem!_pos _ i hi, Poly.Generic.unpack, Vector.getElem_ofFn]
  exact congrArg some (getElem!_pos t.inner _ hpos).symm

theorem RqElement.index_eq (f : RqElement) (i : Nat) (hi : i < 256) : f.index i = some f.inner[i]! := by
  rw [index, Vector.getElem?_eq_getElem hi, getElem!_pos f.inner i hi]

/-- Indexing an element of Tq honours the contract: it finds the natural coefficient, and past the last one it panics, as
indexing an element of Rq does. -/
def IndexContract (a : Coefficients) (i : Nat) : Prop :=
  (i < 256 → (TqElement.new a).index i = some a[i]! ∧ a[i]! = (TqElement.new a).coefficients[i]!) ∧
    (256 ≤ i → (TqElement.new a).index i = none) ∧ (TqElement.new a).index i = RqElement.index ⟨a⟩ i

/-- Past the last coefficient the mapped position of an odd index leaves the array at once, that of an even one from 512
on. -/
theorem TqElement.index_past (t : TqElement) {i : Nat} (hi : 256 ≤ i) : t.index i = none ↔ i % 2 = 1 ∨ 512 ≤ i := by
  have hlen : N / 2 = 128 := rfl
  rw [index, hlen, Vector.getElem?_eq_none_iff]
  show 256 ≤ _ ↔ _
  omega

/-- Indexing honours the contract at the positions of the coefficients, at every odd index and from 512 on, and nowhere
else. -/
theorem TqElement.index_contract_iff (a : Coefficients) (i : Nat) : IndexContract a i ↔ i < 256 ∨ i % 2 = 1 ∨ 512 ≤ i := by
  have hstored : (TqElement.new a).coefficients = a := unpack_pack a
  constructor
  · rintro ⟨_, hpanics, _⟩
    by_cases hi : i < 256
    · exact Or.inl hi
    · exact Or.inr ((TqElement.index_past _ (by omega)).mp (hpanics (by omega)))
  · intro h
    by_cases hi : i < 256
    · refine ⟨fun _ => ⟨?_, ?_⟩, fun hge => absurd hi (by omega), ?_⟩
      · rw [TqElement.index_eq _ i hi, hstored]
      · rw [hstored]
      · rw [TqElement.index_eq _ i hi, hstored, RqElement.index_eq _ i hi]
    · have hpast : 256 ≤ i := Nat.le_of_not_lt hi
      have hpanics : (TqElement.new a).index i = none := (TqElement.index_past _ hpast).mpr (by omega)
      have hsibling : RqElement.index ⟨a⟩ i = none := Vector.getElem?_eq_none_iff.mpr hpast
      exact ⟨fun hlt => absurd hlt hi, fun _ => hpanics, hpanics.trans hsibling.symm⟩

/-- Index 256 finds the first odd coefficient. -/
theorem TqElement.index_misses_bound : ¬IndexContract (Vector.replicate 256 FieldElement.zero) 256 := by
  rintro ⟨_, hpanics, _⟩
  rcases (TqElement.index_past _ (Nat.le_refl 256)).mp (hpanics (Nat.le_refl 256)) with h | h
  · nomatch h
  · omega

/-! ## The vector kernels -/

/-- The kernels of a backend between the storages, their natural order and the compressed values. -/
structure StorageKernels where
  pack : Coefficients → Coefficients
  unpack : Coefficients → Coefficients
  canonical : Coefficients → Vector UInt16 N
  compress : Coefficients → Nat → Vector UInt16 N
  decompress : Vector UInt16 N → Nat → Coefficients

def StorageKernels.avx2 : StorageKernels :=
  ⟨Poly.Avx2.pack, Poly.Avx2.unpack, Poly.Avx2.canonical, Poly.Avx2.compress, Poly.Avx2.decompress⟩

def StorageKernels.neon : StorageKernels :=
  ⟨Poly.Neon.pack, Poly.Neon.unpack, Poly.Neon.canonical, Poly.Neon.compress, Poly.Neon.decompress⟩

/-- The kernels return what the portable ones return, on every array of representatives and on every array of values that a
width allows, and the two permutations are inverse. -/
structure StorageKernels.Agree (k : StorageKernels) : Prop where
  pack : ∀ cs, k.pack cs = Poly.Generic.pack cs
  unpack : ∀ cs, k.unpack cs = Poly.Generic.unpack cs
  unpack_pack : ∀ cs, k.unpack (k.pack cs) = cs
  pack_unpack : ∀ cs, k.pack (k.unpack cs) = cs
  canonical : ∀ cs, k.canonical cs = Poly.Generic.canonical cs
  compress : ∀ cs d, 1 ≤ d → d ≤ 12 → k.compress cs d = Poly.Generic.compress cs d
  decompress : ∀ (values : Vector UInt16 N) d, 1 ≤ d → d ≤ 11 → (∀ i : Fin 256, values[i].toNat < 2 ^ d) →
    k.decompress values d = Poly.Generic.decompress values d

/-- Permutations that are the portable ones are inverse. -/
theorem permutations_inverse {pack unpack : Coefficients → Coefficients} (hpack : ∀ cs, pack cs = Poly.Generic.pack cs)
    (hunpack : ∀ cs, unpack cs = Poly.Generic.unpack cs) (cs : Coefficients) : unpack (pack cs) = cs ∧
      pack (unpack cs) = cs := by
  rw [hpack, hunpack, hunpack, hpack]
  exact ⟨MlkemSelkie.unpack_pack cs, MlkemSelkie.pack_unpack cs⟩

/-- Both backends keep the contract of the storage kernels. -/
theorem storageKernels_agree : StorageKernels.avx2.Agree ∧ StorageKernels.neon.Agree := by
  constructor
  · refine ⟨Poly.Avx2.pack_eq, Poly.Avx2.unpack_eq, ?_, ?_, Poly.Avx2.canonical_eq, ?_, ?_⟩
    · intro cs
      exact (permutations_inverse Poly.Avx2.pack_eq Poly.Avx2.unpack_eq cs).1
    · intro cs
      exact (permutations_inverse Poly.Avx2.pack_eq Poly.Avx2.unpack_eq cs).2
    · intro cs d _ hd
      exact Poly.Avx2.compress_eq cs hd
    · intro values d hd hd' hvalues
      exact Poly.Avx2.decompress_eq hd hd' hvalues
  · refine ⟨Poly.Neon.pack_eq, Poly.Neon.unpack_eq, ?_, ?_, Poly.Neon.canonical_eq, ?_, ?_⟩
    · intro cs
      exact (permutations_inverse Poly.Neon.pack_eq Poly.Neon.unpack_eq cs).1
    · intro cs
      exact (permutations_inverse Poly.Neon.pack_eq Poly.Neon.unpack_eq cs).2
    · intro cs d _ _
      exact Poly.Neon.compress_eq cs d
    · intro values d hd hd' hvalues
      exact Poly.Neon.decompress_eq hd hd' hvalues

end MlkemSelkie
