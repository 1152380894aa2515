import MlkemSelkie.Debug.Sampling
import MlkemSelkie.Lemmas.DebugEncoding
import MlkemSelkie.Lemmas.Matrix

/-!
# Sampling never panics

One lemma for each function of `Debug/Sampling.lean`. The rejection loops stop only where they run without end; the noise
sampler is ready for the streams it was started for; the entry iterator never comes to the end of a batch.
-/

namespace MlkemSelkie

open Runs Sampling

variable {P : ParameterSet} {Γ : Crates}

/-! ## The hashes -/

/-- The inputs of a batch are copied into arrays of their own size. -/
theorem PrfBatch.debugInputs_ok (n : Nat) (s : Vector UInt8 32) (b : UInt8) :
    PrfBatch.debugInputs n s b = .ok (PrfBatch.inputs n s b) :=
  ofFnM_ok fun lane => assemble_ok Vector.length_toList (by rw [List.length_replicate, Vector.length_toList]; rfl)

namespace Crates

theorem debugPrfX2_ok (eta : Eta) (s : Vector UInt8 32) (b : UInt8) : Γ.debugPrfX2 eta s b = .ok (Γ.prfX2 eta s b) := by
  rw [debugPrfX2, PrfBatch.debugInputs_ok, ok_bind]
  cases eta <;> rfl

theorem debugPrfX4_ok (eta : Eta) (s : Vector UInt8 32) (b : UInt8) : Γ.debugPrfX4 eta s b = .ok (Γ.prfX4 eta s b) := by
  rw [debugPrfX4, PrfBatch.debugInputs_ok, ok_bind]
  cases eta <;> rfl

/-- The two halves of a hash of 64 bytes. -/
theorem debugG_ok (preimage : List UInt8) : Γ.debugG preimage = .ok (Γ.G preimage) := by
  have hlen : (Γ.sha3_512 preimage).toList.length = 64 := Vector.length_toList
  have hleft : Loops.arrayOf 32 ((Γ.sha3_512 preimage).toList.take 32) = (Γ.G preimage).1 := Vector.ext fun i hi => by
    rw [Loops.arrayOf, Vector.getElem_ofFn, getElem!_pos _ _ (by rw [List.length_take]; omega), List.getElem_take,
      Vector.getElem_toList, G, Vector.getElem_ofFn]
    rfl
  have hright : Loops.arrayOf 32 ((Γ.sha3_512 preimage).toList.drop 32) = (Γ.G preimage).2 := Vector.ext fun i hi => by
    rw [Loops.arrayOf, Vector.getElem_ofFn, getElem!_pos _ _ (by rw [List.length_drop]; omega), List.getElem_drop,
      Vector.getElem_toList, G, Vector.getElem_ofFn]
    rfl
  rw [debugG]
  simp only []
  rw [splitAt_ok (by omega), ok_bind]
  simp only []
  rw [copyIntoArray_ok (by rw [List.length_take]; omega), ok_bind, copyIntoArray_ok (by rw [List.length_drop]; omega),
    ok_bind, hleft, hright]
  rfl

/-- The four inputs of a batch. -/
theorem debugXofX4_ok (rho : Vector UInt8 32) (indices : Vector (UInt8 × UInt8) 4) :
    Γ.debugXofX4 rho indices = .ok (Γ.xofX4 rho indices) := by
  have hseed (p : UInt8 × UInt8) : assemble (List.replicate 34 0) rho.toList [p.1, p.2] 32 =
    .ok (rho.toList ++ [p.1, p.2]) :=
    assemble_ok Vector.length_toList (by rw [List.length_replicate, Vector.length_toList]; rfl)
  rw [debugXofX4, ofFnM_map indices hseed, ok_bind]
  rfl

end Crates

/-! ## Rejection sampling -/

namespace Sampling

/-- A push inside the buffer. -/
theorem RejectState.debugPush_ok {s : RejectState} (h : s.count < 264) (candidate : Nat) :
    s.debugPush candidate = .ok (s.push candidate) := by
  rw [debugPush, FieldElement.debugNew_ok, ok_bind, writeAt_ok _ h, ok_bind, usize_ok (by omega), ok_bind]
  rfl

/-- An offer is a push only where the candidate is accepted. -/
theorem RejectState.debugOffer_ok {s : RejectState} {accepted : Prop} [Decidable accepted] (h : accepted → s.count < 264)
    (candidate : Nat) : s.debugOffer accepted candidate = .ok (if accepted then s.push candidate else s) := by
  rw [debugOffer]
  by_cases haccepted : accepted
  · rw [if_pos haccepted, if_pos haccepted, debugPush_ok (h haccepted)]
  · rw [if_neg haccepted, if_neg haccepted]

/-- A chunk is read while fewer than 256 candidates are collected. -/
theorem Generic.debugRejectChunk_ok (s : RejectState) (chunk : List UInt8) :
    debugRejectChunk s chunk = .ok (rejectChunk s chunk) := by
  have hN : N = 256 := rfl
  unfold debugRejectChunk rejectChunk
  by_cases hfull : N ≤ s.count
  · rw [if_pos hfull, if_pos hfull]
  · rw [if_neg hfull, if_neg hfull]
    match chunk with
    | [b0, b1, b2] =>
      simp only []
      rw [RejectState.debugOffer_ok fun _ => by omega, ok_bind, RejectState.debugOffer_ok fun h => by omega]
    | [] => rfl
    | [_] => rfl
    | [_, _] => rfl
    | _ :: _ :: _ :: _ :: _ => rfl

/-- A block never fills the buffer past its end: a full one is left alone. -/
theorem Generic.debugReject_ok (bytes : List UInt8) (s : RejectState) : debugReject bytes s = .ok (reject bytes s) := by
  rw [debugReject, chunksExact_ok (Nat.zero_lt_succ 2), ok_bind]
  exact (foldlM_ok (I := fun _ _ => True) (fun _ s _ chunk _ => ⟨debugRejectChunk_ok s chunk, trivial⟩) trivial).1

end Sampling

namespace TqElement

/-- The first 256 entries of the buffer. -/
theorem debugFromRejectBuffer_ok (s : RejectState) : debugFromRejectBuffer s = .ok (fromRejectBuffer s) := by
  have hN : N = 256 := rfl
  rw [debugFromRejectBuffer, ofFnM_ok fun i : Fin N => readAt_ok s.buffer (Nat.lt_of_lt_of_le i.isLt (by omega)), ok_bind,
    debugNew_ok]
  rfl

/-- The serial sampler runs as long as its loop. -/
theorem debugSampleNtt_eq (rho : Vector UInt8 32) (i j : UInt8) :
    debugSampleNtt Γ rho i j = lift .endless (sampleNtt Γ rho i j) := by
  rw [debugSampleNtt, sampleNtt,
    runWhile_ok (L := sampleNttLoop Γ) (I := fun _ => True) (fun _ _ => ?_) (fun p _ _ => ?_) trivial]
  · exact lift_map fun p _ => debugFromRejectBuffer_ok p.1
  · rfl
  · refine ⟨?_, trivial⟩
    simp only []
    rw [Generic.debugReject_ok, ok_bind]
    rfl

/-- A block for each of the four lanes. -/
theorem debugRejectInto_ok {size : Nat} (blocks : Vector (Vector UInt8 size) 4) (lanes : Vector RejectState 4) :
    debugRejectInto blocks lanes = .ok (rejectInto blocks lanes) := by
  have hlanes : Vector.ofFnM (fun i : Fin 4 => Generic.debugReject blocks[i].toList lanes[i]) =
      .ok (Vector.zipWith (fun block s => Generic.reject block.toList s) blocks lanes) := by
    rw [ofFnM_ok fun i : Fin 4 => Generic.debugReject_ok blocks[i].toList lanes[i]]
    exact congrArg Except.ok (Vector.ext fun i hi => by
      rw [Vector.getElem_ofFn, Vector.getElem_zipWith]
      rfl)
  rw [debugRejectInto, hlanes, ok_bind]
  rfl

/-- The batched sampler runs as long as its loop. -/
theorem debugSampleNttX4_eq (rho : Vector UInt8 32) (indices : Vector (UInt8 × UInt8) 4) :
    debugSampleNttX4 Γ rho indices = lift .endless (sampleNttX4 Γ rho indices) := by
  rw [debugSampleNttX4, Crates.debugXofX4_ok, ok_bind]
  simp only []
  rw [debugRejectInto_ok, ok_bind,
    runWhile_ok (L := sampleNttX4Loop Γ) (I := fun _ => True) (fun _ _ => ?_) (fun p _ _ => ?_) trivial]
  · exact lift_map fun p _ => ofFnM_map p.2.1 debugFromRejectBuffer_ok
  · rfl
  · refine ⟨?_, trivial⟩
    rw [debugRejectInto_ok, ok_bind]
    rfl

end TqElement

/-! ## The centered binomial sampler -/

namespace RqElement

/-- A coefficient as the plain sampler computes it. -/
def coefficient (mask sums low high : Nat) : FieldElement :=
  FieldElement.new (UInt16.ofNat ((sums >>> low) &&& mask)) - FieldElement.new (UInt16.ofNat ((sums >>> high) &&& mask))

/-- The shifts of a coefficient stay below the width of the word. -/
theorem debugCoefficient_ok {low high : Nat} (hlow : low < 32) (hhigh : high < 32) (mask sums : Nat) :
    debugCoefficient mask sums low high = .ok (coefficient mask sums low high) := by
  rw [debugCoefficient, assert_ok hlow, ok_bind, assert_ok hhigh, ok_bind, FieldElement.debugNew_ok, ok_bind,
    FieldElement.debugNew_ok, ok_bind]
  rfl

/-- The coefficients of the words one after the other. -/
theorem arrayOf_blocks {size : Nat} (hsize : 0 < size) {words : List (List UInt8)} {block : List UInt8 → Nat → FieldElement}
    (hwords : size * words.length = N) :
    Loops.arrayOf N ((words.map fun word => (List.range size).map (block word)).flatten ++
      (List.replicate N FieldElement.zero).drop (size * words.length)) =
      Vector.ofFn fun i : Fin N =>
        match words[i.val / size]? with
        | none => FieldElement.zero
        | some word => block word (i.val % size) := by
  rw [List.drop_of_length_le (by rw [List.length_replicate, hwords]), List.append_nil]
  refine Vector.ext fun i hi => ?_
  have hdiv : i / size < words.length := Nat.div_lt_of_lt_mul (by rw [hwords]; exact hi)
  have hmod : i % size < size := Nat.mod_lt i hsize
  rw [Loops.arrayOf, Vector.getElem_ofFn, Vector.getElem_ofFn, List.getElem!_eq_getElem?_getD,
    flatten_blocks_getElem? hsize (fun word => by rw [List.length_map, List.length_range]), List.getElem?_eq_getElem hdiv]
  simp only [Option.bind_some, List.getElem?_map, List.getElem?_range hmod, Option.map_some, Option.getD_some]

/-- The sampler of width two on a string of its length. -/
theorem debugSampleCbdEta2_ok {bytes : List UInt8} (hlen : bytes.length = 128) :
    debugSampleCbdEta2 bytes = .ok (sampleCbdEta2 bytes) := by
  have hmask : ∀ t : Nat, t &&& 0x55555555 ≤ 0x55555555 := fun t => Nat.and_le_right
  have hwords : (Loops.chunksExact 4 bytes).length = 32 := by
    rw [Loops.chunksExact, List.length_map, List.length_range, hlen]
  rw [debugSampleCbdEta2]
  simp only []
  rw [chunksExact_ok (Nat.zero_lt_succ 3), ok_bind,
    zipChunksMut_ok (Nat.zero_lt_succ 7) (g := fun word => (List.range 8).map fun j =>
      let t := LittleEndian.ofBytes word
      coefficient 0x3 ((t &&& 0x55555555) + ((t >>> 1) &&& 0x55555555)) (4 * j) (4 * j + 2))
      (fun word hword chunk hchunk => by
        have h1 := hmask (LittleEndian.ofBytes word)
        have h2 := hmask (LittleEndian.ofBytes word >>> 1)
        rw [copyIntoArray_ok (length_of_mem_chunksExact hword), ok_bind,
          Loops.toList_arrayOf (length_of_mem_chunksExact hword), below_ok (by omega), ok_bind, hchunk]
        refine mapM_ok fun j hj => ?_
        have hj8 := List.mem_range.mp hj
        exact debugCoefficient_ok (by omega) (by omega) _ _)
      (by rw [hwords, List.length_replicate]), ok_bind, arrayOf_blocks (Nat.zero_lt_succ 7) (by rw [hwords])]
  rfl

/-- The sampler of width three on a string of its length. -/
theorem debugSampleCbdEta3_ok {bytes : List UInt8} (hlen : bytes.length = 192) :
    debugSampleCbdEta3 bytes = .ok (sampleCbdEta3 bytes) := by
  have hmask : ∀ t : Nat, t &&& 0x00249249 ≤ 0x00249249 := fun t => Nat.and_le_right
  have hwords : (Loops.chunksExact 3 bytes).length = 64 := by
    rw [Loops.chunksExact, List.length_map, List.length_range, hlen]
  rw [debugSampleCbdEta3]
  simp only []
  rw [chunksExact_ok (Nat.zero_lt_succ 2), ok_bind,
    zipChunksMut_ok (Nat.zero_lt_succ 3) (g := fun word => (List.range 4).map fun j =>
      let t := LittleEndian.ofBytes word
      coefficient 0x7 ((t &&& 0x00249249) + ((t >>> 1) &&& 0x00249249) + ((t >>> 2) &&& 0x00249249)) (6 * j) (6 * j + 3))
      (fun word hword chunk hchunk => by
        obtain ⟨b0, b1, b2, rfl⟩ := List.length_eq_three.mp (length_of_mem_chunksExact hword)
        have hpadded : LittleEndian.ofBytes [b0, b1, b2, 0] = LittleEndian.ofBytes [b0, b1, b2] := rfl
        have h1 := hmask (LittleEndian.ofBytes [b0, b1, b2])
        have h2 := hmask (LittleEndian.ofBytes [b0, b1, b2] >>> 1)
        have h3 := hmask (LittleEndian.ofBytes [b0, b1, b2] >>> 2)
        simp only [hpadded]
        rw [below_ok (by omega), ok_bind, below_ok (by omega), ok_bind, hchunk]
        refine mapM_ok fun j hj => ?_
        have hj4 := List.mem_range.mp hj
        exact debugCoefficient_ok (by omega) (by omega) _ _)
      (by rw [hwords, List.length_replicate]), ok_bind, arrayOf_blocks (Nat.zero_lt_succ 3) (by rw [hwords])]
  rfl

/-- The sampler of either width. -/
theorem debugSampleCbd_ok {eta : Eta} {bytes : List UInt8} (hlen : bytes.length = 64 * eta.toNat) :
    debugSampleCbd eta bytes = .ok (sampleCbd eta bytes) := by
  unfold debugSampleCbd
  rw [assert_ok hlen, ok_bind]
  cases eta with
  | two => exact debugSampleCbdEta2_ok hlen
  | three => exact debugSampleCbdEta3_ok hlen

end RqElement

namespace CbdSampler

/-- Every lane of a batch has the bytes of one element. -/
def Whole (eta : Eta) (batch : PrfLanes) : Prop := ∀ l < batch.len, (batch.lane l).length = 64 * eta.toNat

/-- A sampler that has at least `k` of its streams left. -/
structure Ready (k : Nat) (s : CbdSampler) : Prop where
  remaining : k ≤ s.remaining.toNat
  taken : s.taken ≤ s.batch.len
  whole : Whole s.eta s.batch

/-- One stream has the length of its width. -/
theorem prf_length (eta : Eta) (seed : Vector UInt8 32) (b : UInt8) : (Γ.prf eta seed b).bytes.length = 64 * eta.toNat := by
  cases eta <;> exact Vector.length_toList

theorem prfX2_length (eta : Eta) (seed : Vector UInt8 32) (b : UInt8) {l : Nat} (hl : l < 2) :
    (Γ.prfX2 eta seed b).lanes[l]!.length = 64 * eta.toNat := by
  rw [getElem!_pos _ l hl]
  cases eta <;> exact (congrArg List.length (Vector.getElem_map _ hl)).trans Vector.length_toList

theorem prfX4_length (eta : Eta) (seed : Vector UInt8 32) (b : UInt8) {l : Nat} (hl : l < 4) :
    (Γ.prfX4 eta seed b).lanes[l]!.length = 64 * eta.toNat := by
  rw [getElem!_pos _ l hl]
  cases eta <;> exact (congrArg List.length (Vector.getElem_map _ hl)).trans Vector.length_toList

/-- A refill has whole lanes. -/
theorem squeeze_whole (eta : Eta) (seed : Vector UInt8 32) (b remaining : UInt8) :
    Whole eta (squeeze Γ eta seed b remaining) := by
  intro l
  rw [squeeze]
  split
  · exact fun _ => prf_length eta seed b
  · split
    · exact prfX2_length eta seed b
    · exact prfX4_length eta seed b

/-- A refill has a lane. -/
theorem squeeze_len_pos (eta : Eta) (seed : Vector UInt8 32) (b remaining : UInt8) :
    0 < (squeeze Γ eta seed b remaining).len := by
  rw [squeeze]
  split
  · exact Nat.one_pos
  · split <;> exact Nat.succ_pos _

/-- A refill of any width. -/
theorem debugSqueeze_ok (eta : Eta) (seed : Vector UInt8 32) (b remaining : UInt8) :
    debugSqueeze Γ eta seed b remaining = .ok (squeeze Γ eta seed b remaining) := by
  rw [debugSqueeze, squeeze]
  split
  · rfl
  · split
    · rw [Crates.debugPrfX2_ok, ok_bind]
      rfl
    · rw [Crates.debugPrfX4_ok, ok_bind]
      rfl

theorem debugNew_ok (eta : Eta) (seed : Vector UInt8 32) (first count : UInt8) :
    debugNew Γ eta seed first count = .ok (new Γ eta seed first count) := by
  rw [debugNew, debugSqueeze_ok, ok_bind]
  rfl

/-- A new sampler is ready for as many elements as were declared. -/
theorem new_ready (eta : Eta) (seed : Vector UInt8 32) (first : UInt8) {count : UInt8} {k : Nat} (h : count.toNat = k) :
    Ready k (new Γ eta seed first count) :=
  ⟨Nat.le_of_eq h.symm, Nat.zero_le _, squeeze_whole eta seed first count⟩

/-- The sampler after a refill, where one is needed. -/
def refill (Γ : Crates) (s : CbdSampler) : CbdSampler :=
  if s.taken = s.batch.len then
    let batch := squeeze Γ s.eta s.seed s.next s.remaining
    { s with batch, next := s.next + UInt8.ofNat batch.len, taken := 0 }
  else s

/-- The first stream number of the next batch wraps by intent. -/
theorem debugRefill_ok (s : CbdSampler) : debugRefill Γ s = .ok (s.refill Γ) := by
  rw [debugRefill, refill]
  split
  · rw [debugSqueeze_ok, ok_bind]
    rfl
  · rfl

/-- A refill leaves a lane to take. -/
theorem Ready.refill {k : Nat} {s : CbdSampler} (h : s.Ready k) :
    (s.refill Γ).taken < (s.refill Γ).batch.len ∧ (s.refill Γ).Ready k := by
  rw [CbdSampler.refill]
  by_cases hfull : s.taken = s.batch.len
  · rw [if_pos hfull]
    exact ⟨squeeze_len_pos _ _ _ _, h.remaining, Nat.zero_le _, squeeze_whole _ _ _ _⟩
  · rw [if_neg hfull]
    exact ⟨Nat.lt_of_le_of_ne h.taken hfull, h⟩

end CbdSampler

/-- A lane that the batch has. -/
theorem PrfLanes.debugLane_ok {lanes : PrfLanes} {index : Nat} (h : index < lanes.len) :
    lanes.debugLane index = .ok (lanes.lane index) := by
  cases lanes with
  | four batch => exact readAt_ok batch.lanes h
  | two batch => exact readAt_ok batch.lanes h
  | one output =>
    rw [debugLane, assert_ok (Nat.lt_one_iff.mp h), ok_bind]
    rfl

/-- A batch has at most four lanes. -/
theorem PrfLanes.len_le (lanes : PrfLanes) : lanes.len ≤ 4 := by
  cases lanes with
  | four _ => exact Nat.le_refl 4
  | two _ => exact Nat.le_add_left 2 2
  | one _ => exact Nat.le_add_left 1 3

namespace CbdSampler

/-- A sampler with a stream left yields its element. -/
theorem debugSampleElement_ok {k : Nat} {s : CbdSampler} (h : s.Ready (k + 1)) :
    debugSampleElement Γ s = .ok (sampleElement Γ s) ∧ Ready k (sampleElement Γ s).2 := by
  have hremaining := h.remaining
  have hpos : 0 < s.remaining := UInt8.lt_iff_toNat_lt.mpr (Nat.lt_of_lt_of_le (Nat.succ_pos k) hremaining)
  obtain ⟨hlt, hready⟩ := h.refill (Γ := Γ)
  have hlen := (s.refill Γ).batch.len_le
  have hlane := hready.whole _ hlt
  refine ⟨?_, ?_, hlt, hready.whole⟩
  · rw [debugSampleElement, assert_ok hpos, ok_bind, debugRefill_ok, ok_bind, PrfLanes.debugLane_ok hlt, ok_bind,
      usize_ok (by omega), ok_bind]
    simp only []
    rw [RqElement.debugSampleCbd_ok hlane, ok_bind]
    rfl
  · show k ≤ (if (s.refill Γ).remaining = 0 then 0 else (s.refill Γ).remaining - 1).toNat
    have hle := hready.remaining
    have hne : (s.refill Γ).remaining ≠ 0 := fun h0 => by
      rw [h0] at hle
      exact Nat.not_succ_le_zero k hle
    rw [if_neg hne, UInt8.toNat_sub_of_le _ _
      (UInt8.le_iff_toNat_le.mpr (Nat.le_trans (Nat.succ_le_succ (Nat.zero_le k)) hle))]
    exact Nat.le_sub_of_add_le hle

/-- A vector is the elements of its components, one after the other. -/
theorem debugSampleVector_eq (s : CbdSampler) :
    (debugSampleVector Γ s : Run (RqVector P × CbdSampler)) =
      (Vector.ofFnM (fun _ : Fin P.K => debugSampleElement Γ) s >>= fun r => pure (⟨r.1⟩, r.2)) := rfl

/-- A sampler with the streams of a vector left yields the vector. -/
theorem debugSampleVector_ok {k : Nat} {s : CbdSampler} (h : s.Ready (k + P.K)) :
    (debugSampleVector Γ s : Run (RqVector P × CbdSampler)) = .ok (sampleVector Γ s) ∧
      Ready k (sampleVector (P := P) Γ s).2 := by
  have hrun := ofFnM_state (n := P.K) (f := fun _ => debugSampleElement Γ) (g := fun _ => sampleElement Γ)
    (I := fun i s => s.Ready (k + (P.K - i)))
    (fun i s hs => by
      have hleft : k + (P.K - i.val) = k + (P.K - (i.val + 1)) + 1 := by
        have hi := i.isLt
        omega
      exact debugSampleElement_ok (hleft ▸ hs)) (s := s) h
  rw [Nat.sub_self] at hrun
  refine ⟨?_, hrun.2⟩
  rw [debugSampleVector_eq, hrun.1, ok_bind]
  rfl

end CbdSampler

/-! ## The matrix -/

/-- After `m` entries the iterator is behind the batch it has taken from. -/
structure EntryState.Behind (m : Nat) (s : EntryState) : Prop where
  taken_le : s.taken ≤ 4
  next_eq : s.next + s.taken = m + 4

namespace TqMatrix

/-- The indices of an entry, which are bytes. -/
theorem debugIndex_ok {k next lane : Nat} (hk : 0 < k) (h : next + lane < 2 ^ 16) :
    debugIndex k next lane = .ok (UInt8.ofNat ((next + lane) % k), UInt8.ofNat ((next + lane) / k)) := by
  rw [debugIndex, usize_ok h, ok_bind, assert_ok (Nat.pos_iff_ne_zero.mp hk), ok_bind]
  rfl

/-- The refill stops only where a stream never gives its element. -/
theorem debugRefill_eq {k : Nat} (hk : 0 < k) (rho : Vector UInt8 32) {s : EntryState} (h : s.next + 4 < 2 ^ 16) :
    debugRefill Γ rho k s = lift .endless (s.refill Γ rho k) := by
  rw [debugRefill, EntryState.refill]
  by_cases hfull : s.taken = 4
  · rw [if_pos hfull, if_pos hfull, ofFnM_ok fun lane : Fin 4 => debugIndex_ok hk (by have hl := lane.isLt; omega), ok_bind,
      TqElement.debugSampleNttX4_eq]
    refine lift_map fun batch _ => ?_
    rw [usize_ok h, ok_bind]
    rfl
  · rw [if_neg hfull, if_neg hfull]
    rfl

end TqMatrix

/-- A refill leaves an entry to take. -/
theorem EntryState.Behind.refill {rho : Vector UInt8 32} {k m : Nat} {s s' : EntryState} (h : s.Behind m)
    (hrun : s.refill Γ rho k = some s') : s'.taken < 4 ∧ s'.Behind m := by
  obtain ⟨htaken, hnext⟩ := h
  rw [EntryState.refill] at hrun
  by_cases hfull : s.taken = 4
  · rw [if_pos hfull] at hrun
    obtain ⟨batch, -, rfl⟩ := Option.map_eq_some_iff.mp hrun
    exact ⟨Nat.zero_lt_succ 3, Nat.zero_le 4, by simp only []; omega⟩
  · rw [if_neg hfull] at hrun
    obtain rfl := Option.some.inj hrun
    exact ⟨by omega, htaken, hnext⟩

namespace TqMatrix

/-- The iterator yields an entry wherever its stream gives one. -/
theorem debugNextEntry_eq {k m : Nat} (hk : 0 < k) (hm : m < 16) (rho : Vector UInt8 32) {s : EntryState} (h : s.Behind m) :
    debugNextEntry Γ rho k s = lift .endless (nextElement Γ rho k s) ∧
      ∀ a s', nextElement Γ rho k s = some (a, s') → s'.Behind (m + 1) := by
  have hnext := h.next_eq
  have helement : nextElement Γ rho k s = (s.refill Γ rho k).map fun s' =>
      ((s'.batch[s'.taken]?).getD TqElement.zero, ⟨s'.next, s'.batch, s'.taken + 1⟩) := by
    rw [nextElement_eq, nextEntry_eq, Option.map_map]
    rfl
  rw [helement]
  refine ⟨?_, fun a s' hrun => ?_⟩
  · rw [debugNextEntry, debugRefill_eq hk rho (by omega)]
    refine lift_map fun s' hs' => ?_
    have hlt := (h.refill hs').1
    rw [usize_ok (by omega), ok_bind, Vector.getElem?_eq_getElem hlt, lift_some, ok_bind]
    rfl
  · obtain ⟨s₁, hrefill, heq⟩ := Option.map_eq_some_iff.mp hrun
    obtain ⟨rfl, rfl⟩ := Prod.mk.inj heq
    obtain ⟨hlt, htaken, hnext'⟩ := h.refill hrefill
    exact ⟨hlt, by simp only []; omega⟩

/-- A row of the matrix stops only where a sample never ends. -/
theorem debugNextRow_eq {m : Nat} (hm : m + P.K ≤ 16) (rho : Vector UInt8 32) {s : EntryState} (h : s.Behind m) :
    (debugNextRow Γ rho s : Run (TqVector P × EntryState)) = lift .endless (nextRow Γ rho s) ∧
      ∀ (v : TqVector P) s', nextRow Γ rho s = some (v, s') → s'.Behind (m + P.K) := by
  have hK := P.K_bounds.1
  have hrow := ofFnM_lift (e := .endless) (f := fun _ : Fin P.K => debugNextEntry Γ rho P.K)
    (g := fun _ => nextElement Γ rho P.K) (I := fun j s => s.Behind (m + j))
    (fun j s hs => debugNextEntry_eq (m := m + j.val) (by omega) (by have hj := j.isLt; omega) rho hs) h
  refine ⟨?_, fun v s' hrun => ?_⟩
  · show (Vector.ofFnM (fun _ : Fin P.K => debugNextEntry Γ rho P.K) s >>= fun r =>
      (pure (⟨r.1⟩, r.2) : Run (TqVector P × EntryState))) = _
    rw [nextRow_eq, hrow.1]
    exact lift_map fun r _ => rfl
  · rw [nextRow_eq] at hrun
    obtain ⟨r, hr, heq⟩ := Option.map_eq_some_iff.mp hrun
    obtain ⟨rfl, rfl⟩ := Prod.mk.inj heq
    exact hrow.2 _ _ hr

/-- The matrix expands wherever its streams give their entries. -/
theorem debugExpand_eq (rho : Vector UInt8 32) : (debugExpand Γ rho : Run (TqMatrix P)) = lift .endless (expand Γ rho) := by
  have hK := P.K_bounds
  have hmatrix := ofFnM_lift (e := .endless) (f := fun _ : Fin P.K => debugNextRow (P := P) Γ rho)
    (g := fun _ => nextRow Γ rho) (I := fun i s => s.Behind (P.K * i))
    (fun i s hs => debugNextRow_eq (by
      have hle : P.K * (i.val + 1) ≤ 4 * 4 := Nat.mul_le_mul hK.2 (Nat.le_trans i.isLt hK.2)
      rwa [Nat.mul_succ] at hle) rho hs) (s := EntryState.start) ⟨Nat.le_refl 4, rfl⟩
  rw [expand_eq]
  refine (congrArg (· >>= _) hmatrix.1).trans ?_
  exact lift_map fun r _ => rfl

end TqMatrix

end MlkemSelkie
