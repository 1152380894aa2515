import MlkemSelkie.Lemmas.Fips202
import MlkemSelkie.Lemmas.VectorRejection

/-!
# The samplers

The rejection sampler reads no more of a stream than it needs, and its batched form and the matrix expansion draw the same
elements; the noise sampler hands out its streams in order, whatever the calls, and sums their bits word by word.
-/

namespace MlkemSelkie

open Fips203 Sampling

variable {P : ParameterSet} {Γ : Crates}

/-! ## The rejection sampler -/

/-- The buffer and the reader of `sample_ntt` after `m` passes of its loop. -/
def passes (Γ : Crates) (rho : Vector UInt8 32) (i j : UInt8) (m : Nat) : RejectState × Γ.shake128.Squeezing :=
  (TqElement.sampleNttLoop Γ).pass^[m] (emptyReject, Γ.xof rho i j)

/-- The loop makes `n` passes: its guard holds before each of them, and no longer after the last. -/
def MakesPasses (Γ : Crates) (rho : Vector UInt8 32) (i j : UInt8) (n : Nat) : Prop :=
  (∀ m < n, (passes Γ rho i j m).1.count < N) ∧ ¬(passes Γ rho i j n).1.count < N

/-- The loop ends after its passes, in the state that they leave. -/
theorem MakesPasses.run {rho : Vector UInt8 32} {i j : UInt8} {n : Nat} (h : MakesPasses Γ rho i j n) :
    (TqElement.sampleNttLoop Γ).run (emptyReject, Γ.xof rho i j) = some (passes Γ rho i j n) := by
  obtain ⟨hguard, hlast⟩ := h
  rw [Loops.While.run_iterate fun m hm => decide_eq_true (hguard m hm), ← passes,
    Loops.While.run_stop (decide_eq_false hlast)]

/-- After `m` passes the buffer holds the accepted ones of the first `112 m` candidates. -/
theorem passes_collect (hΓ : Γ.Lawful) (rho : Vector UInt8 32) (i j : UInt8) (m : Nat) :
    AfterBlocks Γ (rho.toList ++ [i, j]) m (passes Γ rho i j m) := by
  induction m with
  | zero => exact afterBlocks_start hΓ _
  | succ m ih =>
    rw [passes, Function.iterate_succ_apply', ← passes]
    exact ih.pass hΓ

/-- The guard fails exactly when the blocks read hold 256 accepted candidates. -/
theorem passes_full (hΓ : Γ.Lawful) (rho : Vector UInt8 32) (i j : UInt8) (m : Nat) :
    ¬(passes Γ rho i j m).1.count < N ↔ 256 ≤ Nat.count (Accepted (Γ.hashes.XOF (rho.toList ++ [i, j]))) (112 * m) := by
  have hcount := (passes_collect hΓ rho i j m).1.count_eq
  have hN : N = 256 := rfl
  rw [show 2 * (56 * m) = 112 * m by omega] at hcount
  omega

/-- The coefficients of a sample are the accepted candidates, as they stand. -/
theorem sampled_coefficients {stream : Nat → UInt8} (h : Sufficient stream) (k : Fin 256) :
    (sampled stream).coefficients[k].toInt = candidate stream (Nat.nth (Accepted stream) k) := by
  obtain ⟨n, hn⟩ := h
  have hlt : candidate stream (Nat.nth (Accepted stream) k) < 3329 := accepted_nth (Nat.lt_of_lt_of_le k.isLt hn)
  rw [sampled, TqElement.coefficients, TqElement.new, unpack_pack, Loops.getElem_fin, Vector.getElem_ofFn,
    FieldElement.new_toInt, UInt16.toNat_ofNat', Nat.mod_eq_of_lt (Nat.lt_trans hlt (by decide))]
  exact congrArg Int.ofNat (Nat.mod_eq_of_lt hlt)

/-- The serial sampler is Algorithm 7 on every stream: on one with 256 accepted candidates it reads the least number of
blocks that contain them and returns them in order, on any other it reads on. -/
theorem sampleNtt_on_stream (hΓ : Γ.Lawful) {rho : Vector UInt8 32} {i j : UInt8} {stream : Nat → UInt8}
    (hstream : Γ.hashes.XOF (rho.toList ++ [i, j]) = stream) :
    (Sufficient stream → ∃ n t, MakesPasses Γ rho i j n ∧
      (TqElement.sampleNttLoop Γ).run (emptyReject, Γ.xof rho i j) = some (passes Γ rho i j n) ∧
      IsLeast {m | 256 ≤ Nat.count (Accepted stream) (112 * m)} n ∧ TqElement.sampleNtt Γ rho i j = some t ∧
      ∀ k : Fin 256, t.coefficients[k].toInt = candidate stream (Nat.nth (Accepted stream) k)) ∧
    (¬Sufficient stream → (∀ m, (passes Γ rho i j m).1.count < N) ∧ TqElement.sampleNtt Γ rho i j = none) := by
  subst hstream
  refine ⟨fun h => ?_, fun h => ?_⟩
  · have hsome : ∃ m, 256 ≤ Nat.count (Accepted (Γ.hashes.XOF (rho.toList ++ [i, j]))) (112 * m) := by
      obtain ⟨n, hn⟩ := h
      exact ⟨n, hn.trans (Nat.count_monotone _ (Nat.le_mul_of_pos_left n (by decide)))⟩
    have hleast := Nat.find_spec hsome
    have hpasses : MakesPasses Γ rho i j (Nat.find hsome) :=
      ⟨fun m hm => not_not.mp fun hfull => Nat.find_min hsome hm ((passes_full hΓ rho i j m).mp hfull),
        (passes_full hΓ rho i j _).mpr hleast⟩
    exact ⟨Nat.find hsome, _, hpasses, hpasses.run, ⟨hleast, fun m hm => Nat.find_min' hsome hm⟩,
      sampleNtt_eq hΓ rho i j h, sampled_coefficients h⟩
  · refine ⟨fun m => not_not.mp fun hfull => h ⟨_, (passes_full hΓ rho i j m).mp hfull⟩, ?_⟩
    refine Option.eq_none_iff_forall_not_mem.mpr fun t ht => h ?_
    obtain ⟨p, hloop, _⟩ := Option.map_eq_some_iff.mp ht
    obtain ⟨_, hs, hfull⟩ := sampleNttLoop_full hΓ hloop
    exact hs.sufficient hfull

/-- On the first entry of the matrix of the seed of zeros: the passes, the state that the loop ends in, and the sample. -/
theorem sampleNtt_on_stream_zero :
    ∃ n t, MakesPasses Crates.fips202 exampleRho 0 0 n ∧
      (TqElement.sampleNttLoop Crates.fips202).run (emptyReject, Crates.fips202.xof exampleRho 0 0) =
        some (passes Crates.fips202 exampleRho 0 0 n) ∧
      IsLeast {m | 256 ≤ Nat.count (Accepted (Crates.fips202.hashes.XOF (exampleRho.toList ++ [0, 0]))) (112 * m)} n ∧
      TqElement.sampleNtt Crates.fips202 exampleRho 0 0 = some t := by
  have hsufficient := zeroSeed_suffices 0 (by decide)
  obtain ⟨n, t, hpasses, hloop, hleast, hrun, _⟩ := (sampleNtt_on_stream Crates.fips202_lawful rfl).1 hsufficient
  exact ⟨n, t, hpasses, hloop, hleast, hrun⟩

/-! ## The rejection kernels -/

/-- Two kernels have collected the same: as many coefficients, at most 256, and the same ones. -/
def Sampling.RejectState.Agrees (s s' : RejectState) : Prop :=
  s.count = s'.count ∧ s.count ≤ 256 ∧ ∀ p < 256, s.buffer[p]! = s'.buffer[p]!

/-- A kernel agrees with the portable one after the last block of a sequence. -/
theorem reject_blocks (k : RejectKernel) (blocks : List (List UInt8)) (hblocks : ∀ block ∈ blocks, block.length % 12 = 0)
    {l : List FieldElement} {s s' : RejectState} (hs : Buffered l s) (hs' : Buffered l s') (hcount : s.count ≤ N)
    (hcount' : s'.count ≤ N) :
    ∃ t, blocks.foldlM (fun s block => k.reject block s) s = some t ∧
      t.Agrees (blocks.foldl (fun s block => Generic.reject block s) s') := by
  induction blocks generalizing l s s' with
  | nil =>
    obtain ⟨hcounts, hbuffers⟩ := hs.agree hs'
    rw [Nat.min_eq_left hcount, Nat.min_eq_left hcount'] at hcounts
    exact ⟨s, rfl, hcounts, hcount, hbuffers⟩
  | cons block blocks ih =>
    have hlen := hblocks block List.mem_cons_self
    have htwo : 2 * (block.length / 3) = 8 * (block.length / 12) := by omega
    obtain ⟨t, ht, hcount_t, hbuffered⟩ := k.reject_spec block hs
    have hgeneric := hs'.reject block (block.length / 3) (by omega)
    rw [htwo] at hgeneric
    obtain ⟨u, hu, hagrees⟩ := ih (fun b hb => hblocks b (List.mem_cons_of_mem _ hb)) hbuffered hgeneric hcount_t
      (reject_count_le block hcount')
    refine ⟨u, ?_, hagrees⟩
    rw [List.foldlM_cons, ht, Option.bind_eq_bind, Option.bind_some, hu]

/-- The vector kernels collect what the portable kernel collects, whatever the blocks, and none of their stores leaves the
buffer. -/
theorem reject_kernels_agree (blocks : List (List UInt8)) (hblocks : ∀ block ∈ blocks, block.length % 12 = 0) :
    (∃ s, blocks.foldlM (fun s block => Avx2.reject block s) emptyReject = some s ∧
      s.Agrees (blocks.foldl (fun s block => Generic.reject block s) emptyReject)) ∧
    ∃ s, blocks.foldlM (fun s block => Neon.reject block s) emptyReject = some s ∧
      s.Agrees (blocks.foldl (fun s block => Generic.reject block s) emptyReject) := by
  have hempty : emptyReject.count ≤ N := Nat.zero_le N
  rw [Avx2.reject_eq, Neon.reject_eq]
  exact ⟨reject_blocks Avx2.kernel blocks hblocks buffered_empty buffered_empty hempty hempty,
    reject_blocks Neon.kernel blocks hblocks buffered_empty buffered_empty hempty hempty⟩

/-- A block of refused candidates and one of zeros: both kernels hold the sixteen zeros. -/
theorem reject_kernels_agree_zeros : ∃ s s',
    [List.replicate 12 0xFF, List.replicate 24 0].foldlM (fun s block => Avx2.reject block s) emptyReject = some s ∧
    [List.replicate 12 0xFF, List.replicate 24 0].foldlM (fun s block => Neon.reject block s) emptyReject = some s' ∧
      s.count = 16 ∧ s'.count = 16 := by
  obtain ⟨⟨s, hrun, hcount, -⟩, s', hrun', hcount', -⟩ :=
    reject_kernels_agree [List.replicate 12 0xFF, List.replicate 24 0] (by decide)
  exact ⟨s, s', hrun, hrun', hcount, hcount'⟩

/-! ## The centered binomial distribution -/

/-- Algorithm 8 with its two sums written out. -/
theorem samplePolyCbd_sums (eta : Nat) (bytes : List UInt8) (i : Fin 256) : samplePolyCbd eta bytes i =
    ∑ j ∈ Finset.range eta, ((bit bytes (2 * i * eta + j)).toNat : Zq) -
      ∑ j ∈ Finset.range eta, ((bit bytes (2 * i * eta + eta + j)).toNat : Zq) := by
  rw [samplePolyCbd, Nat.cast_list_sum, Nat.cast_list_sum, List.map_map, List.map_map]
  rfl

/-- The word-parallel sampler is Algorithm 8, with representatives in `[-eta, eta]`. -/
theorem sampleCbd_sums (eta : Eta) {bytes : List UInt8} (hlen : bytes.length = 64 * eta.toNat) (i : Fin 256) :
    (RqElement.sampleCbd eta bytes).inner[i].toZq =
      ∑ j ∈ Finset.range eta.toNat, ((bit bytes (2 * i * eta.toNat + j)).toNat : Zq) -
        ∑ j ∈ Finset.range eta.toNat, ((bit bytes (2 * i * eta.toNat + eta.toNat + j)).toNat : Zq) ∧
    -(eta.toNat : Int) ≤ (RqElement.sampleCbd eta bytes).inner[i].toInt ∧
    (RqElement.sampleCbd eta bytes).inner[i].toInt ≤ eta.toNat := by
  obtain ⟨hwithin, hresidues⟩ := sampleCbd_centered eta bytes hlen
  exact ⟨(congrFun hresidues i).trans (samplePolyCbd_sums eta.toNat bytes i), hwithin i⟩

/-- The last coefficient of a string of ones. -/
theorem sampleCbd_sums_ones :
    (RqElement.sampleCbd .three (List.replicate 192 0xFF)).inner[255].toZq =
      ∑ j ∈ Finset.range 3, ((bit (List.replicate 192 0xFF) (2 * 255 * 3 + j)).toNat : Zq) -
        ∑ j ∈ Finset.range 3, ((bit (List.replicate 192 0xFF) (2 * 255 * 3 + 3 + j)).toNat : Zq) ∧
    -3 ≤ (RqElement.sampleCbd .three (List.replicate 192 0xFF)).inner[255].toInt ∧
    (RqElement.sampleCbd .three (List.replicate 192 0xFF)).inner[255].toInt ≤ 3 := by
  have hlen : (List.replicate 192 (0xFF : UInt8)).length = 64 * Eta.three.toNat := List.length_replicate
  exact sampleCbd_sums .three hlen 255

/-! ## The noise sampler -/

/-- A call on the noise sampler: one element, or a vector of the size of a parameter set. -/
inductive NoiseCall where
  | element
  | vector (P : ParameterSet)

namespace NoiseCall

/-- The number of elements that a call draws. -/
def size : NoiseCall → Nat
  | element => 1
  | vector P => P.K

/-- The elements that a call returns, in order, and the sampler it leaves. -/
def run (Γ : Crates) : NoiseCall → CbdSampler → List RqElement × CbdSampler
  | element, s =>
    let (f, s) := CbdSampler.sampleElement Γ s
    ([f], s)
  | vector P, s =>
    let (v, s) : RqVector P × CbdSampler := CbdSampler.sampleVector Γ s
    (v.polys.toList, s)

/-- The elements of successive calls. -/
def runAll (Γ : Crates) : List NoiseCall → CbdSampler → List RqElement × CbdSampler
  | [], s => ([], s)
  | call :: calls, s =>
    let (fs, s) := call.run Γ s
    let (gs, s) := runAll Γ calls s
    (fs ++ gs, s)

/-- The element of the stream `n` of a run: `SamplePolyCBD` of `PRF(seed, first + n)`, the counter modulo 256. -/
def streamElement (Γ : Crates) (eta : Eta) (seed : Vector UInt8 32) (first : UInt8) (n : Nat) : RqElement :=
  RqElement.sampleCbd eta (Γ.prf eta seed (first + UInt8.ofNat n)).bytes

theorem streamElement_eq (eta : Eta) (seed : Vector UInt8 32) (first : UInt8) (n : Nat) :
    streamElement Γ eta seed first n =
      RqElement.sampleCbd eta (Γ.hashes.PRF eta.toNat seed (UInt8.ofNat (first.toNat + n))) := by
  rw [streamElement, prf_bytes, UInt8.ofNat_add, UInt8.ofNat_toNat]

variable {eta : Eta} {seed : Vector UInt8 32} {first : UInt8}

/-- A call returns the elements of the next streams. -/
theorem run_spec (hΓ : Γ.Lawful) {m : Nat} {s : CbdSampler} (h : s.Invariant Γ eta seed first.toNat m) (call : NoiseCall) :
    (call.run Γ s).1 = (List.range' m call.size).map (streamElement Γ eta seed first) ∧
      (call.run Γ s).2.Invariant Γ eta seed first.toNat (m + call.size) := by
  cases call with
  | element =>
    obtain ⟨helement, hnext⟩ := CbdSampler.sampleElement_eq hΓ h
    refine ⟨?_, hnext⟩
    show [(CbdSampler.sampleElement Γ s).1] = [streamElement Γ eta seed first m]
    rw [helement, streamElement_eq]
  | vector P =>
    obtain ⟨helements, hnext⟩ := CbdSampler.sampleVector_eq (P := P) hΓ h
    refine ⟨List.ext_getElem ?_ fun i h1 h2 => ?_, hnext⟩
    · rw [List.length_map, List.length_range']
      exact Vector.length_toList
    · have hi : i < P.K := by rwa [List.length_map, List.length_range'] at h2
      rw [List.getElem_map, List.getElem_range', Nat.one_mul, streamElement_eq, ← Nat.add_assoc]
      exact (Vector.getElem_toList _).trans (helements ⟨i, hi⟩)

/-- Successive calls return the elements of successive streams. -/
theorem runAll_spec (hΓ : Γ.Lawful) (calls : List NoiseCall) :
    ∀ {m : Nat} {s : CbdSampler}, s.Invariant Γ eta seed first.toNat m →
      (runAll Γ calls s).1 = (List.range' m (calls.map size).sum).map (streamElement Γ eta seed first) := by
  induction calls with
  | nil => exact fun _ => rfl
  | cons call calls ih =>
    intro m s h
    obtain ⟨hfirst, hnext⟩ := run_spec hΓ h call
    rw [List.map_cons, List.sum_cons, ← List.range'_append_1, List.map_append, ← hfirst, ← ih hnext]
    rfl

/-- The sampler loses, repeats and reorders no stream: whatever the calls, and whatever the widths of the refills, the
elements that they return are those of the streams `first`, `first + 1` and so on. -/
theorem noise_streams (hΓ : Γ.Lawful) (eta : Eta) (seed : Vector UInt8 32) (first count : UInt8) (calls : List NoiseCall) :
    (runAll Γ calls (CbdSampler.new Γ eta seed first count)).1 =
      (List.range (calls.map size).sum).map fun n =>
        RqElement.sampleCbd eta (Γ.prf eta seed (first + UInt8.ofNat n)).bytes := by
  have hstart := CbdSampler.new_invariant hΓ eta seed first.toNat count
  rw [UInt8.ofNat_toNat] at hstart
  rw [runAll_spec hΓ calls hstart, List.range_eq_range']
  rfl

/-- Five elements in three calls, across the wrap of the stream numbers. -/
theorem noise_streams_wrap :
    (runAll Crates.fips202 [.element, .vector .mlkem768, .element] (CbdSampler.new Crates.fips202 .two zeroSeed 254 5)).1 =
      (List.range 5).map fun n => RqElement.sampleCbd .two (Crates.fips202.prf .two zeroSeed (254 + UInt8.ofNat n)).bytes :=
  noise_streams Crates.fips202_lawful .two zeroSeed 254 5 [.element, .vector .mlkem768, .element]

end NoiseCall

end MlkemSelkie
