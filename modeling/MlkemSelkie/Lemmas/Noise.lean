import MlkemSelkie.Fips.Kem
import MlkemSelkie.Lemmas.Cbd

/-!
# The hash functions and the batched noise sampler

The hash functions of FIPS 203, read off the third-party crates, and the streams of the noise sampler: whatever widths its
refills take, the element `m` of a run is sampled from the stream `first + m`.
-/

namespace MlkemSelkie

open Fips203

/-- The hash functions of FIPS 203 that the crates implement. -/
def Crates.hashes (Γ : Crates) : Hashes where
  G := Γ.G
  H := Γ.H
  J := fun s => (Γ.shake256.read (Γ.shake256.finalizeXof s) 32).1
  PRF := fun eta s b => (Γ.shake256.read (Γ.shake256.finalizeXof (s.toList ++ [b])) (64 * eta)).1.toList
  XOF := fun s k => (Γ.shake128.read (Γ.shake128.finalizeXof s) (k + 1)).1[k]

variable {P : ParameterSet} {Γ : Crates}

theorem length_prf (eta : Nat) (s : Vector UInt8 32) (b : UInt8) : (Γ.hashes.PRF eta s b).length = 64 * eta :=
  Vector.length_toList

theorem prf_bytes (eta : Eta) (s : Vector UInt8 32) (b : UInt8) : (Γ.prf eta s b).bytes = Γ.hashes.PRF eta.toNat s b := by
  cases eta <;> rfl

/-- The input of a lane. -/
theorem inputs_getElem {n : Nat} (s : Vector UInt8 32) (b : UInt8) (l : Nat) (hl : l < n) :
    (PrfBatch.inputs n s b)[l] = s.toList ++ [b + UInt8.ofNat l] := by
  rw [PrfBatch.inputs, Vector.getElem_ofFn]

/-- Every lane of the two-way batch is a scalar stream. -/
theorem prfX2_lane (hΓ : Γ.Lawful) (eta : Eta) (s : Vector UInt8 32) (b : UInt8) (l : Nat) (hl : l < 2) :
    (Γ.prfX2 eta s b).lanes[l]! = Γ.hashes.PRF eta.toNat s (b + UInt8.ofNat l) := by
  have hlane := fun n => hΓ.shake256X2.lane (PrfBatch.inputs 2 s b) n ⟨l, hl⟩
  simp only [Loops.getElem_fin, inputs_getElem s b l hl] at hlane
  rw [getElem!_pos _ l hl]
  cases eta <;> simp only [Crates.prfX2, PrfBatch.lanes, Vector.getElem_map, hlane] <;> rfl

/-- Every lane of the four-way batch is a scalar stream. -/
theorem prfX4_lane (hΓ : Γ.Lawful) (eta : Eta) (s : Vector UInt8 32) (b : UInt8) (l : Nat) (hl : l < 4) :
    (Γ.prfX4 eta s b).lanes[l]! = Γ.hashes.PRF eta.toNat s (b + UInt8.ofNat l) := by
  have hlane := fun n => hΓ.shake256X4.lane (PrfBatch.inputs 4 s b) n ⟨l, hl⟩
  simp only [Loops.getElem_fin, inputs_getElem s b l hl] at hlane
  rw [getElem!_pos _ l hl]
  cases eta <;> simp only [Crates.prfX4, PrfBatch.lanes, Vector.getElem_map, hlane] <;> rfl

namespace CbdSampler

/-- A refill squeezes the streams from `b` on, at any width. -/
theorem squeeze_lane (hΓ : Γ.Lawful) (eta : Eta) (seed : Vector UInt8 32) (b remaining : UInt8) (l : Nat)
    (hl : l < (squeeze Γ eta seed b remaining).len) :
    (squeeze Γ eta seed b remaining).lane l = Γ.hashes.PRF eta.toNat seed (b + UInt8.ofNat l) := by
  rw [squeeze] at hl ⊢
  split at hl
  · have hzero : l = 0 := Nat.lt_one_iff.mp hl
    rw [if_pos ‹_›, hzero]
    exact (prf_bytes eta seed b).trans (by rw [show UInt8.ofNat 0 = 0 from rfl, UInt8.add_zero])
  · split at hl
    · rw [if_neg ‹_›, if_pos ‹_›]
      exact prfX2_lane hΓ eta seed b l hl
    · rw [if_neg ‹_›, if_neg ‹_›]
      exact prfX4_lane hΓ eta seed b l hl

/-- After `m` elements of a run that started at the stream `first`: the batch holds the streams from `first + base` on. -/
structure Invariant (Γ : Crates) (eta : Eta) (seed : Vector UInt8 32) (first m : Nat) (s : CbdSampler) : Prop where
  eta_eq : s.eta = eta
  seed_eq : s.seed = seed
  taken_le : s.taken ≤ s.batch.len
  streams : ∃ base, m = base + s.taken ∧ s.next = UInt8.ofNat (first + base + s.batch.len) ∧
    ∀ l < s.batch.len, s.batch.lane l = Γ.hashes.PRF eta.toNat seed (UInt8.ofNat (first + base + l))

theorem new_invariant (hΓ : Γ.Lawful) (eta : Eta) (seed : Vector UInt8 32) (first : Nat) (count : UInt8) :
    Invariant Γ eta seed first 0 (new Γ eta seed (UInt8.ofNat first) count) := by
  refine ⟨rfl, rfl, Nat.zero_le _, 0, rfl, ?_, fun l hl => ?_⟩
  · rw [Nat.add_zero, UInt8.ofNat_add]
    rfl
  · rw [Nat.add_zero, UInt8.ofNat_add]
    exact squeeze_lane hΓ eta seed _ _ l hl

/-- One element is the next stream's. -/
theorem sampleElement_eq (hΓ : Γ.Lawful) {eta : Eta} {seed : Vector UInt8 32} {first m : Nat} {s : CbdSampler}
    (h : Invariant Γ eta seed first m s) :
    (sampleElement Γ s).1 = RqElement.sampleCbd eta (Γ.hashes.PRF eta.toNat seed (UInt8.ofNat (first + m))) ∧
      Invariant Γ eta seed first (m + 1) (sampleElement Γ s).2 := by
  obtain ⟨heta, hseed, htaken, base, hm, hnext, hlanes⟩ := h
  -- the state after the refill, when one is needed
  have hrefill : ∃ s' : CbdSampler, (if s.taken = s.batch.len then
        { s with batch := squeeze Γ s.eta s.seed s.next s.remaining,
                 next := s.next + UInt8.ofNat (squeeze Γ s.eta s.seed s.next s.remaining).len, taken := 0 : CbdSampler }
      else s) = s' ∧ s'.taken < s'.batch.len ∧ Invariant Γ eta seed first m s' := by
    by_cases hfull : s.taken = s.batch.len
    · rw [hfull] at hm
      have hpos : 0 < (squeeze Γ s.eta s.seed s.next s.remaining).len := by
        cases squeeze Γ s.eta s.seed s.next s.remaining <;> simp only [PrfLanes.len] <;> omega
      have hstart : s.next = UInt8.ofNat (first + m) := by rw [hnext, hm, Nat.add_assoc]
      refine ⟨_, if_pos hfull, hpos, heta, hseed, Nat.zero_le _, m, rfl, ?_, fun l hl => ?_⟩
      · rw [UInt8.ofNat_add, ← hstart]
      · rw [UInt8.ofNat_add, ← hstart, ← heta, ← hseed]
        exact squeeze_lane hΓ s.eta s.seed s.next s.remaining l hl
    · exact ⟨s, if_neg hfull, by omega, heta, hseed, htaken, base, hm, hnext, hlanes⟩
  obtain ⟨s', heq, hlt, heta', hseed', htaken', base', hm', hnext', hlanes'⟩ := hrefill
  have hrun : sampleElement Γ s = (RqElement.sampleCbd s'.eta (s'.batch.lane s'.taken),
      { s' with taken := s'.taken + 1, remaining := if s'.remaining = 0 then 0 else s'.remaining - 1 }) := by
    rw [← heq]
    rfl
  rw [hrun]
  refine ⟨?_, heta', hseed', hlt, base', by simp only []; omega, hnext', hlanes'⟩
  rw [hlanes' _ hlt, heta', hm', ← Nat.add_assoc]

/-- One element represents the noise of the next stream. -/
theorem sampleElement_spec (hΓ : Γ.Lawful) {eta : Eta} {seed : Vector UInt8 32} {first m : Nat} {s : CbdSampler}
    (h : Invariant Γ eta seed first m s) :
    (sampleElement Γ s).1.Represents 3 (noise Γ.hashes eta.toNat seed (first + m)) ∧
      Invariant Γ eta seed first (m + 1) (sampleElement Γ s).2 := by
  obtain ⟨helement, hnext⟩ := sampleElement_eq hΓ h
  rw [helement]
  exact ⟨sampleCbd_represents eta _ (length_prf _ _ _), hnext⟩

/-- A vector holds the elements of the next `K` streams. -/
theorem sampleVector_eq (hΓ : Γ.Lawful) {eta : Eta} {seed : Vector UInt8 32} {first m : Nat} {s : CbdSampler}
    (h : Invariant Γ eta seed first m s) :
    (∀ i : Fin P.K, (sampleVector Γ s : RqVector P × CbdSampler).1.polys[i] =
      RqElement.sampleCbd eta (Γ.hashes.PRF eta.toNat seed (UInt8.ofNat (first + m + i)))) ∧
      Invariant Γ eta seed first (m + P.K) (sampleVector Γ s : RqVector P × CbdSampler).2 := by
  have hrun := Loops.ofFnM_state (n := P.K) (fun _ => sampleElement Γ) (fun i s => Invariant Γ eta seed first (m + i) s)
    (fun i f => f = RqElement.sampleCbd eta (Γ.hashes.PRF eta.toNat seed (UInt8.ofNat (first + m + i)))) (fun i s hs => by
      rw [Nat.add_assoc first]
      exact sampleElement_eq hΓ hs) s h
  exact hrun

/-- A vector represents the noise of the next `K` streams. -/
theorem sampleVector_spec (hΓ : Γ.Lawful) {eta : Eta} {seed : Vector UInt8 32} {first m : Nat} {s : CbdSampler}
    (h : Invariant Γ eta seed first m s) :
    (sampleVector Γ s : RqVector P × CbdSampler).1.Represents 3 (fun i => noise Γ.hashes eta.toNat seed (first + m + i)) ∧
      Invariant Γ eta seed first (m + P.K) (sampleVector Γ s : RqVector P × CbdSampler).2 := by
  obtain ⟨helements, hnext⟩ := sampleVector_eq (P := P) hΓ h
  refine ⟨fun i => ?_, hnext⟩
  rw [helements i]
  exact sampleCbd_represents eta _ (length_prf _ _ _)

end CbdSampler

end MlkemSelkie
