import MlkemSelkie.Lemmas.Backend
import MlkemSelkie.Lemmas.Compression
import MlkemSelkie.Lemmas.Fips202
import MlkemSelkie.Lemmas.VectorPacking
import MlkemSelkie.Theorems.AppleTransform
import MlkemSelkie.Theorems.Build
import MlkemSelkie.Theorems.Products

/-!
# Every build computes the same functions

The kernels of every backend agree with the portable ones, so the crate built with them is the portable crate, whatever
the build script selects. No kernel reads or writes outside the arrays it is given.
-/

namespace MlkemSelkie

open Loops Sampling Build

namespace Backend

/-- The NEON kernels with the assembly stages, which work on an array in memory: the one at `ptr`. -/
def neonAsm (registers : Fin 3 → A64.Machine Poly.Neon.Operand) (mem : UInt64 → UInt8) (ptr : UInt64) : Backend :=
  { neon with
    ntt := fun cs => (Poly.Neon.nttAsm registers (Poly.Neon.storeCoefficients mem ptr cs) ptr).map fun mem =>
      Poly.Neon.coefficientsAt mem ptr }

/-- The portable kernels agree with themselves. -/
theorem generic_agrees : generic.Agrees where
  ntt _ := rfl
  nttInverse _ := rfl
  multiply _ _ := rfl
  dot _ := by simp only [generic]
  pack _ := rfl
  unpack _ := rfl
  canonical _ := rfl
  compress _ _ _ := rfl
  decompress _ _ _ _ _ := rfl
  packBits _ _ _ _ := rfl
  unpackBits _ _ := rfl
  reject bytes s s' hlen h := by
    obtain ⟨l, hs, hs', hcount, hcount'⟩ := h
    have hthree : bytes.length = 3 * (bytes.length / 3) := by omega
    exact ⟨_, rfl, _, hs.reject bytes _ hthree, hs'.reject bytes _ hthree, reject_count_le bytes hcount,
      reject_count_le bytes hcount'⟩

/-- The AVX2 kernels keep the contract. -/
theorem avx2_agrees : avx2.Agrees where
  ntt cs := congrArg some (Poly.Avx2.ntt_eq cs)
  nttInverse := Poly.Avx2.nttInverse_eq
  multiply := Poly.Avx2.multiply_eq
  dot terms := (holds_foldl terms Poly.Avx2.holds_zero).reduce
  pack := Poly.Avx2.pack_eq
  unpack := Poly.Avx2.unpack_eq
  canonical := Poly.Avx2.canonical_eq
  compress cs d hd := Poly.Avx2.compress_eq cs (by omega)
  decompress _ _ hd hd' hvalues := Poly.Avx2.decompress_eq hd hd' hvalues
  packBits _ _ hd hvalues := Encoding.Avx2.packWithin_eq hvalues (by omega)
  unpackBits := Encoding.Avx2.unpack_eq
  reject := Sampling.Avx2.kernel.alike

/-- So do the NEON kernels. -/
theorem neon_agrees : neon.Agrees where
  ntt cs := congrArg some (Poly.Neon.ntt_eq cs)
  nttInverse := Poly.Neon.nttInverse_eq
  multiply := Poly.Neon.multiply_eq
  dot terms := by
    simp only [neon, Poly.Neon.basemulAccumulate_eq, Poly.Neon.basemulReduce_eq]
  pack := Poly.Neon.pack_eq
  unpack := Poly.Neon.unpack_eq
  canonical := Poly.Neon.canonical_eq
  compress cs d _ := Poly.Neon.compress_eq cs d
  decompress _ _ hd hd' hvalues := Poly.Neon.decompress_eq hd hd' hvalues
  packBits _ _ hd hvalues := Encoding.Neon.packWithin_eq hvalues (by omega)
  unpackBits := Encoding.Neon.unpack_eq
  reject := Sampling.Neon.kernel.alike

/-- So they do with the assembly stages, whatever is in the memory around the array. -/
theorem neonAsm_agrees (registers : Fin 3 → A64.Machine Poly.Neon.Operand) (mem : UInt64 → UInt8) (ptr : UInt64) :
    (neonAsm registers mem ptr).Agrees :=
  { neon_agrees with
    ntt := fun cs => by
      obtain ⟨mem', hrun, htransform, _⟩ :=
        Poly.Neon.nttAsm_transforms registers (Poly.Neon.storeCoefficients mem ptr cs) ptr
      rw [Poly.Neon.coefficientsAt_store] at htransform
      show Option.map _ _ = _
      rw [hrun, Option.map_some, htransform] }

/-- The crate over a backend is the portable crate: key generation, encapsulation, decapsulation and both ways of every
key, for every parameter set, and the operations of the modules below them that no scheme calls. -/
structure SameCrate (Γ : Crates) (B : Backend) : Prop where
  generateDerand : ∀ (P : ParameterSet) (seed : Vector UInt8 64),
    DecapsulationKey.generateDerandOn Γ B seed = (DecapsulationKey.generateDerand Γ seed : Option (DecapsulationKey P))
  encapsulateDerand : ∀ (P : ParameterSet) (ek : EncapsulationKey P) (m : Vector UInt8 32),
    ek.encapsulateDerandOn Γ B m = some (ek.encapsulateDerand Γ m)
  decapsulate : ∀ (P : ParameterSet) (dk : DecapsulationKey P) (c : Ciphertext P),
    dk.decapsulateOn Γ B c = some (dk.decapsulate Γ c)
  encapsulationKey : ∀ (P : ParameterSet), (∀ ek : EncapsulationKey P, ek.toBytesOn B = some ek.toBytes) ∧
    ∀ bytes, EncapsulationKey.fromBytesOn Γ B bytes =
      (EncapsulationKey.fromBytes Γ bytes : Option (Except Error (EncapsulationKey P)))
  decapsulationKey : ∀ (P : ParameterSet), (∀ dk : DecapsulationKey P, dk.toBytesOn B = some dk.toBytes) ∧
    ∀ bytes, DecapsulationKey.fromBytesOn Γ B bytes =
      (DecapsulationKey.fromBytes Γ bytes : Option (Except Error (DecapsulationKey P)))
  sampleNtt : ∀ (rho : Vector UInt8 32) (i j : UInt8), TqElement.sampleNttOn Γ B rho i j = TqElement.sampleNtt Γ rho i j
  element : ∀ t : TqElement, t.coefficientsOn B = t.coefficients ∧ ∀ u : TqElement, t.mulOn B u = t * u
  vector : ∀ (P : ParameterSet) (v : TqVector P), (∀ a : TqVector P, a.mulOn B v = a * v) ∧ ∀ a : TqMatrix P,
    a.mulOn B v = a * v

variable {B : Backend}

/-- Under the contract the two crates are one. -/
theorem Agrees.sameCrate (h : B.Agrees) (Γ : Crates) : B.SameCrate Γ where
  generateDerand _ := DecapsulationKey.generateDerandOn_eq h
  encapsulateDerand _ := EncapsulationKey.encapsulateDerandOn_eq h
  decapsulate _ := DecapsulationKey.decapsulateOn_eq h
  encapsulationKey _ := ⟨fun ek => EncryptionKey.toBytesOn_eq h ek.ekPke, EncapsulationKey.fromBytesOn_eq h⟩
  decapsulationKey _ := ⟨DecapsulationKey.toBytesOn_eq h, DecapsulationKey.fromBytesOn_eq h⟩
  sampleNtt := TqElement.sampleNttOn_eq h
  element t := ⟨TqElement.coefficientsOn_eq h t, TqElement.mulOn_eq h t⟩
  vector _ v := ⟨fun a => TqVector.mulOn_eq h a v, fun a => TqMatrix.mulOn_eq h a v⟩

end Backend

/-- The backend of the kernels that the `arch` modules import; the memory of the assembly stages is an argument. -/
def Build.Arch.backend (registers : Fin 3 → A64.Machine Poly.Neon.Operand) (mem : UInt64 → UInt8) (ptr : UInt64) :
    Arch → Backend
  | generic => .generic
  | avx2 => .avx2
  | neon => .neon
  | neonAsm => .neonAsm registers mem ptr

/-- Whatever the environment of the build and whatever the machine the assembly runs on: where the script does not panic, it
selects one backend, and the crate built over it is the portable crate. -/
theorem builds_same_crate (Γ : Crates) (env : Env) (registers : Fin 3 → A64.Machine Poly.Neon.Operand) (mem : UInt64 → UInt8)
    (ptr : UInt64) {lines : List Text} (hlines : output env = .ok lines) :
    ∃ arch, imported lines = some arch ∧ (arch.backend registers mem ptr).SameCrate Γ := by
  obtain ⟨s, _, rfl⟩ := output_ok hlines
  refine ⟨s.arch, imported_lines s, ?_⟩
  cases s.arch with
  | generic => exact Backend.generic_agrees.sameCrate Γ
  | avx2 => exact Backend.avx2_agrees.sameCrate Γ
  | neon => exact Backend.neon_agrees.sameCrate Γ
  | neonAsm => exact (Backend.neonAsm_agrees registers mem ptr).sameCrate Γ

/-- The build for an Apple target, on a machine whose registers and memory are zero. -/
theorem builds_same_crate_apple : ∃ lines arch, output appleTarget = .ok lines ∧ imported lines = some arch ∧
    (arch.backend (fun _ => ⟨fun _ => 0, fun _ => Vector.replicate 8 0, fun _ => 0, []⟩) (fun _ => 0) 0).SameCrate
      Crates.fips202 := by
  have hrun : output appleTarget = .ok (preamble ++ (Selection.neon (some "apple".toList)).lines) := rfl
  obtain ⟨arch, himported, hsame⟩ := builds_same_crate Crates.fips202 appleTarget
    (fun _ => ⟨fun _ => 0, fun _ => Vector.replicate 8 0, fun _ => 0, []⟩) (fun _ => 0) 0 hrun
  exact ⟨_, arch, hrun, himported, hsame⟩

end MlkemSelkie
