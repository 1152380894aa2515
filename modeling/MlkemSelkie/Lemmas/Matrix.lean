import MlkemSelkie.Lemmas.Noise
import MlkemSelkie.Lemmas.Rejection

/-!
# The rejection sampler and the matrix

The serial loop and the four-lane loop collect the same candidates of a stream; they end exactly on the streams that
contain 256 accepted ones. The entries of an expanded matrix are the samples of their own streams.
-/

namespace MlkemSelkie

open Fips203 Sampling

variable {P : ParameterSet} {Γ : Crates}

/-- The candidates counted are accepted ones. -/
theorem accepted_nth {stream : Nat → UInt8} {n j : Nat} (h : j < Nat.count (Accepted stream) n) :
    Accepted stream (Nat.nth (Accepted stream) j) := by
  induction n with
  | zero => exact absurd h (Nat.not_lt_zero j)
  | succ n ih =>
    by_cases hj : j < Nat.count (Accepted stream) n
    · exact ih hj
    · rw [Nat.count_succ] at h
      by_cases hacc : Accepted stream n
      · rw [if_pos hacc] at h
        obtain rfl : j = Nat.count (Accepted stream) n := by omega
        rw [Nat.nth_count hacc]
        exact hacc
      · rw [if_neg hacc] at h
        exact absurd h hj

/-- The element that the rejection sampler yields on a stream. -/
noncomputable def sampled (stream : Nat → UInt8) : TqElement :=
  TqElement.new (Vector.ofFn fun j : Fin N =>
    FieldElement.new (UInt16.ofNat (candidate stream (Nat.nth (Accepted stream) j))))

theorem sampled_represents {stream : Nat → UInt8} (h : Sufficient stream) :
    (sampled stream).Represents 3328 (sampleNtt stream) := by
  have hwithin : Coefficients.Within 3328 (Vector.ofFn fun j : Fin N =>
      FieldElement.new (UInt16.ofNat (candidate stream (Nat.nth (Accepted stream) j)))) := by
    intro j
    rw [Loops.getElem_fin, Vector.getElem_ofFn]
    exact FieldElement.new_within _
  have hzq : Coefficients.toZq (Vector.ofFn fun j : Fin N =>
      FieldElement.new (UInt16.ofNat (candidate stream (Nat.nth (Accepted stream) j)))) = sampleNtt stream := by
    funext j
    obtain ⟨n, hn⟩ := h
    have hlt : candidate stream (Nat.nth (Accepted stream) j) < 3329 := accepted_nth (Nat.lt_of_lt_of_le j.isLt hn)
    rw [Coefficients.toZq, Loops.getElem_fin, Vector.getElem_ofFn, FieldElement.toZq_new, UInt16.toNat_ofNat',
      Nat.mod_eq_of_lt (Nat.lt_trans hlt (by decide))]
    rfl
  rw [← hzq]
  exact TqElement.new_represents hwithin

/-- A lane that has collected 256 candidates yields the sample. -/
theorem fromRejectBuffer_eq {stream : Nat → UInt8} {t : Nat} {s : RejectState} (h : Collects stream t s)
    (hfull : N ≤ s.count) :
    TqElement.fromRejectBuffer s = sampled stream := by
  rw [TqElement.fromRejectBuffer, sampled]
  exact congrArg TqElement.new (congrArg Vector.ofFn (funext fun j => h.complete hfull j))

/-! ## The streams -/

/-- The reader yields the stream of `input` from the byte `k` on. -/
def ReadsFrom (Γ : Crates) (reader : Γ.shake128.Squeezing) (input : List UInt8) (k : Nat) : Prop :=
  ∀ n i (h : i < n), ((Γ.shake128.read reader n).1)[i] = Γ.hashes.XOF input (k + i)

theorem readsFrom_start (hΓ : Γ.Lawful) (input : List UInt8) : ReadsFrom Γ (Γ.shake128.finalizeXof input) input 0 := by
  intro n i h
  obtain ⟨b, rfl⟩ : ∃ b, n = i + 1 + b := ⟨n - (i + 1), by omega⟩
  have hconcat := hΓ.shake128_concat (Γ.shake128.finalizeXof input) (i + 1) b
  rw [Nat.zero_add]
  show ((Γ.shake128.read (Γ.shake128.finalizeXof input) (i + 1 + b)).1)[i] = _
  simp only [hconcat, Vector.getElem_append_left (show i < i + 1 by omega)]
  rfl

theorem ReadsFrom.read (hΓ : Γ.Lawful) {reader : Γ.shake128.Squeezing} {input : List UInt8} {k : Nat}
    (h : ReadsFrom Γ reader input k) (a : Nat) : ReadsFrom Γ (Γ.shake128.read reader a).2 input (k + a) := by
  intro n i hi
  have hconcat := hΓ.shake128_concat reader a n
  have hall := h (a + n) (a + i) (by omega)
  simp only [hconcat] at hall
  rw [Vector.getElem_append_right (by omega) (by omega)] at hall
  simp only [Nat.add_sub_cancel_left] at hall
  rw [hall, Nat.add_assoc]

/-- The batch yields, in every lane, the stream of the lane's input from the byte `k` on. -/
def ReadsX4From (Γ : Crates) (state : Γ.shake128X4.Squeezing) (inputs : Vector (List UInt8) 4) (k : Nat) : Prop :=
  ∀ n (l : Fin 4) i (h : i < n), (((Γ.shake128X4.squeeze state n).1)[l])[i] = Γ.hashes.XOF inputs[l] (k + i)

theorem readsX4From_start (hΓ : Γ.Lawful) (inputs : Vector (List UInt8) 4) :
    ReadsX4From Γ (Γ.shake128X4.absorb inputs) inputs 0 := by
  intro n l i h
  simp only [hΓ.shake128X4.lane inputs n l]
  exact readsFrom_start hΓ inputs[l] n i h

theorem ReadsX4From.squeeze (hΓ : Γ.Lawful) {state : Γ.shake128X4.Squeezing} {inputs : Vector (List UInt8) 4} {k : Nat}
    (h : ReadsX4From Γ state inputs k) (a : Nat) : ReadsX4From Γ (Γ.shake128X4.squeeze state a).2 inputs (k + a) := by
  intro n l i hi
  have hconcat := hΓ.shake128X4.concat state a n l
  have hall := h (a + n) l (a + i) (by omega)
  simp only [hconcat] at hall
  rw [Vector.getElem_append_right (by omega) (by omega)] at hall
  simp only [Nat.add_sub_cancel_left] at hall
  rw [hall, Nat.add_assoc]

/-! ## The loops -/

/-- One block of a stream keeps the invariant of its lane. -/
theorem collects_block {stream : Nat → UInt8} {b m : Nat} {s : RejectState} (h : Collects stream (2 * (56 * b)) s)
    (block : Vector UInt8 (m * 168)) (hblock : ∀ i (hi : i < m * 168), block[i] = stream (168 * b + i)) :
    Collects stream (2 * (56 * (b + m))) (Generic.reject block.toList s) := by
  have hstep := h.reject block.toList (n := 56 * m) (by rw [Vector.length_toList]; omega) fun k hk => by
    rw [Vector.length_toList] at hk
    rw [Vector.getElem_toList, hblock k hk, ← Nat.mul_assoc]
  rw [Nat.mul_add 56]
  exact hstep

/-- After `b` blocks the buffer holds the accepted ones of their candidates, and the reader is behind them. -/
def AfterBlocks (Γ : Crates) (input : List UInt8) (b : Nat) (p : RejectState × Γ.shake128.Squeezing) : Prop :=
  Collects (Γ.hashes.XOF input) (2 * (56 * b)) p.1 ∧ ReadsFrom Γ p.2 input (168 * b)

theorem afterBlocks_start (hΓ : Γ.Lawful) (input : List UInt8) :
    AfterBlocks Γ input 0 (emptyReject, Γ.shake128.finalizeXof input) := ⟨collects_empty _, readsFrom_start hΓ _⟩

/-- A pass of the serial loop is one more block. -/
theorem AfterBlocks.pass (hΓ : Γ.Lawful) {input : List UInt8} {b : Nat} {p : RejectState × Γ.shake128.Squeezing}
    (h : AfterBlocks Γ input b p) : AfterBlocks Γ input (b + 1) ((TqElement.sampleNttLoop Γ).pass p) := by
  obtain ⟨hs, hreader⟩ := h
  exact ⟨collects_block (m := 1) hs _ fun i hi => hreader 168 i hi, hreader.read hΓ 168⟩

/-- The serial loop ends on a stream that suffices. -/
theorem sampleNttLoop_ends (hΓ : Γ.Lawful) {input : List UInt8} (h : Sufficient (Γ.hashes.XOF input)) :
    ∃ p, (TqElement.sampleNttLoop Γ).run (emptyReject, Γ.shake128.finalizeXof input) = some p := by
  obtain ⟨n, hn⟩ := h
  refine Loops.While.run_ends (I := AfterBlocks Γ input) (fun b p hp _ => hp.pass hΓ) n (fun p hp => ?_)
    (afterBlocks_start hΓ input)
  exact decide_eq_false (Nat.not_lt.mpr (hp.1.full_of_sufficient hn (by omega)))

/-- The serial loop leaves a full buffer of candidates of its stream. -/
theorem sampleNttLoop_full (hΓ : Γ.Lawful) {input : List UInt8} {p : RejectState × Γ.shake128.Squeezing}
    (hrun : (TqElement.sampleNttLoop Γ).run (emptyReject, Γ.shake128.finalizeXof input) = some p) :
    ∃ t, Collects (Γ.hashes.XOF input) t p.1 ∧ N ≤ p.1.count := by
  obtain ⟨b, ⟨hs, _⟩, htest⟩ :=
    Loops.While.run_keeps (I := AfterBlocks Γ input) (fun b p hp _ => hp.pass hΓ) (afterBlocks_start hΓ input) hrun
  exact ⟨_, hs, Nat.not_lt.mp (of_decide_eq_false htest)⟩

/-- The serial sampler yields the sample of its stream. -/
theorem sampleNtt_eq (hΓ : Γ.Lawful) (rho : Vector UInt8 32) (i j : UInt8)
    (h : Sufficient (Γ.hashes.XOF (rho.toList ++ [i, j]))) :
    TqElement.sampleNtt Γ rho i j = some (sampled (Γ.hashes.XOF (rho.toList ++ [i, j]))) := by
  obtain ⟨p, hloop⟩ := sampleNttLoop_ends hΓ h
  obtain ⟨t, hs, hfull⟩ := sampleNttLoop_full hΓ hloop
  rw [TqElement.sampleNtt, show Γ.xof rho i j = Γ.shake128.finalizeXof (rho.toList ++ [i, j]) from rfl, hloop,
    Option.map_some, fromRejectBuffer_eq hs hfull]

/-- The lanes of a batch, each after the candidates of `b` blocks. -/
def LanesCollect (Γ : Crates) (inputs : Vector (List UInt8) 4) (b : Nat) (lanes : Vector RejectState 4) : Prop :=
  ∀ l : Fin 4, Collects (Γ.hashes.XOF inputs[l]) (2 * (56 * b)) lanes[l]

/-- Every lane of a batch has 256 coefficients. -/
def LanesFull (lanes : Vector RejectState 4) : Prop := ∀ l : Fin 4, N ≤ lanes[l].count

/-- Blocks of the streams keep the invariant of every lane. -/
theorem rejectInto_collects {inputs : Vector (List UInt8) 4} {b m : Nat} {lanes : Vector RejectState 4}
    (h : LanesCollect Γ inputs b lanes) (blocks : Vector (Vector UInt8 (m * 168)) 4)
    (hblocks : ∀ (l : Fin 4) i (hi : i < m * 168), blocks[l][i] = Γ.hashes.XOF inputs[l] (168 * b + i)) :
    LanesCollect Γ inputs (b + m) (TqElement.rejectInto blocks lanes).1 := by
  intro l
  simp only [TqElement.rejectInto, Loops.getElem_fin, Vector.getElem_zipWith]
  exact collects_block (h l) blocks[l] (hblocks l)

/-- The flag of a batch says that every lane is full. -/
theorem rejectInto_done {size : Nat} (blocks : Vector (Vector UInt8 size) 4) (lanes : Vector RejectState 4) :
    (TqElement.rejectInto blocks lanes).2 = true ↔ LanesFull (TqElement.rejectInto blocks lanes).1 := by
  rw [TqElement.rejectInto]
  simp only [Vector.all_eq_true, decide_eq_true_eq]
  exact ⟨fun h l => h l l.isLt, fun h i hi => h ⟨i, hi⟩⟩

/-- After `b` blocks of every stream: the buffers hold the accepted ones of their candidates, the batch is behind them,
and the flag says whether every buffer is full. -/
def LanesAfterBlocks (Γ : Crates) (inputs : Vector (List UInt8) 4) (b : Nat)
    (p : Γ.shake128X4.Squeezing × Vector RejectState 4 × Bool) : Prop :=
  ReadsX4From Γ p.1 inputs (168 * b) ∧ LanesCollect Γ inputs b p.2.1 ∧ (p.2.2 = true ↔ LanesFull p.2.1)

/-- A pass of the batched loop is one more block of every stream. -/
theorem LanesAfterBlocks.pass (hΓ : Γ.Lawful) {inputs : Vector (List UInt8) 4} {b : Nat}
    {p : Γ.shake128X4.Squeezing × Vector RejectState 4 × Bool} (h : LanesAfterBlocks Γ inputs b p) :
    LanesAfterBlocks Γ inputs (b + 1) ((TqElement.sampleNttX4Loop Γ).pass p) := by
  obtain ⟨hstate, hlanes, _⟩ := h
  exact ⟨hstate.squeeze hΓ 168, rejectInto_collects (m := 1) hlanes _ fun l i hi => hstate 168 l i hi, rejectInto_done _ _⟩

/-- The batched loop ends: some blocks of every stream hold 256 accepted candidates. -/
theorem sampleNttX4Loop_ends (hΓ : Γ.Lawful) {inputs : Vector (List UInt8) 4} {n b : Nat}
    {p : Γ.shake128X4.Squeezing × Vector RejectState 4 × Bool}
    (hn : ∀ l : Fin 4, 256 ≤ Nat.count (Accepted (Γ.hashes.XOF inputs[l])) n) (h : LanesAfterBlocks Γ inputs b p) :
    ∃ p', (TqElement.sampleNttX4Loop Γ).run p = some p' := by
  refine Loops.While.run_ends (I := LanesAfterBlocks Γ inputs) (fun b p hp _ => hp.pass hΓ) n (fun p hp => ?_) h
  obtain ⟨_, hlanes, hdone⟩ := hp
  have hfull : LanesFull p.2.1 := fun l => (hlanes l).full_of_sufficient (hn l) (by omega)
  show (!p.2.2) = false
  rw [hdone.mpr hfull]
  rfl

/-- The batched loop ends with every buffer full. -/
theorem sampleNttX4Loop_full (hΓ : Γ.Lawful) {inputs : Vector (List UInt8) 4} {b : Nat}
    {p p' : Γ.shake128X4.Squeezing × Vector RejectState 4 × Bool} (h : LanesAfterBlocks Γ inputs b p)
    (hrun : (TqElement.sampleNttX4Loop Γ).run p = some p') : ∃ t, LanesCollect Γ inputs t p'.2.1 ∧ LanesFull p'.2.1 := by
  obtain ⟨t, ⟨_, hlanes, hdone⟩, htest⟩ :=
    Loops.While.run_keeps (I := LanesAfterBlocks Γ inputs) (fun b p hp _ => hp.pass hΓ) h hrun
  exact ⟨t, hlanes, hdone.mp (Bool.not_eq_eq_eq_not.mp htest)⟩

/-- The inputs of a batch of streams. -/
def xofInputs (rho : Vector UInt8 32) (indices : Vector (UInt8 × UInt8) 4) : Vector (List UInt8) 4 :=
  indices.map fun p => rho.toList ++ [p.1, p.2]

theorem xofInputs_getElem (rho : Vector UInt8 32) (indices : Vector (UInt8 × UInt8) 4) (l : Fin 4) :
    (xofInputs rho indices)[l] = rho.toList ++ [indices[l].1, indices[l].2] := Vector.getElem_map _ l.isLt

/-- After the first three blocks of every stream. -/
theorem lanes_start (hΓ : Γ.Lawful) (inputs : Vector (List UInt8) 4) :
    LanesAfterBlocks Γ inputs (0 + 3) ((Γ.shake128X4.squeeze (Γ.shake128X4.absorb inputs) (3 * 168)).2,
      TqElement.rejectInto (Γ.shake128X4.squeeze (Γ.shake128X4.absorb inputs) (3 * 168)).1
        (Vector.replicate 4 emptyReject)) := by
  refine ⟨(readsX4From_start hΓ inputs).squeeze hΓ (3 * 168), rejectInto_collects (m := 3) (fun l => ?_) _ fun l i hi =>
    readsX4From_start hΓ inputs (3 * 168) l i hi, rejectInto_done _ _⟩
  simp only [Loops.getElem_fin, Vector.getElem_replicate]
  exact collects_empty _

/-- The batched sampler ends on streams that suffice. -/
theorem sampleNttX4_ends (hΓ : Γ.Lawful) (rho : Vector UInt8 32) (indices : Vector (UInt8 × UInt8) 4)
    (h : ∀ l : Fin 4, Sufficient (Γ.hashes.XOF (xofInputs rho indices)[l])) :
    ∃ v, TqElement.sampleNttX4 Γ rho indices = some v := by
  choose n hn using h
  have hn' : ∀ l : Fin 4, 256 ≤ Nat.count (Accepted (Γ.hashes.XOF (xofInputs rho indices)[l])) (Finset.univ.sup n) :=
    fun l => Nat.le_trans (hn l) (Nat.count_monotone _ (Finset.le_sup (Finset.mem_univ l)))
  obtain ⟨p, hloop⟩ := sampleNttX4Loop_ends hΓ hn' (lanes_start hΓ _)
  exact ⟨_, congrArg (Option.map _) hloop⟩

/-- Where the batched sampler ends, every lane's stream suffices and the lane yields its sample. -/
theorem sampleNttX4_eq (hΓ : Γ.Lawful) {rho : Vector UInt8 32} {indices : Vector (UInt8 × UInt8) 4} {v : Vector TqElement 4}
    (h : TqElement.sampleNttX4 Γ rho indices = some v) (l : Fin 4) :
    Sufficient (Γ.hashes.XOF (rho.toList ++ [indices[l].1, indices[l].2])) ∧
      v[l] = sampled (Γ.hashes.XOF (rho.toList ++ [indices[l].1, indices[l].2])) := by
  obtain ⟨p, hloop, rfl⟩ := Option.map_eq_some_iff.mp h
  obtain ⟨t, hlanes, hfull⟩ := sampleNttX4Loop_full hΓ (lanes_start hΓ (xofInputs rho indices)) hloop
  have hlane := hlanes l
  rw [xofInputs_getElem] at hlane
  refine ⟨hlane.sufficient (hfull l), ?_⟩
  rw [Loops.getElem_fin, Vector.getElem_map]
  exact fromRejectBuffer_eq hlane (hfull l)

/-! ## The entries -/

/-- The stream of the entry `n` of the matrix in row-major order. -/
def entryStream (Γ : Crates) (rho : Vector UInt8 32) (k n : Nat) : Nat → UInt8 :=
  Γ.hashes.XOF (rho.toList ++ [UInt8.ofNat (n % k), UInt8.ofNat (n / k)])

/-- The streams that the expansion of a matrix reads, to the end of its last batch, contain 256 accepted candidates. -/
def Crates.Suffices (Γ : Crates) (P : ParameterSet) (rho : Vector UInt8 32) : Prop :=
  ∀ n < 4 * ((P.K * P.K + 3) / 4), Sufficient (entryStream Γ rho P.K n)

/-- After `m` entries: the batch holds the entries from `m - taken` on. -/
structure EntryState.Invariant (Γ : Crates) (rho : Vector UInt8 32) (k m : Nat) (s : EntryState) : Prop where
  taken_le : s.taken ≤ 4
  next_eq : s.next + s.taken = m + 4
  next_mod : s.next % 4 = 0
  batch_eq : ∀ l : Fin 4, s.taken ≤ l →
    Sufficient (entryStream Γ rho k (m + l - s.taken)) ∧ s.batch[l] = sampled (entryStream Γ rho k (m + l - s.taken))

/-- The state after the refill, when one is needed. -/
def EntryState.refill (Γ : Crates) (rho : Vector UInt8 32) (k : Nat) (s : EntryState) : Option EntryState :=
  if s.taken = 4 then
    (TqElement.sampleNttX4 Γ rho (Vector.ofFn fun lane : Fin 4 =>
      (UInt8.ofNat ((s.next + lane.val) % k), UInt8.ofNat ((s.next + lane.val) / k)))).map fun batch =>
        ⟨s.next + 4, batch, 0⟩
  else some s

theorem nextEntry_eq (rho : Vector UInt8 32) (k : Nat) (s : EntryState) :
    TqMatrix.nextEntry Γ rho k s =
      (s.refill Γ rho k).map fun s' => (s'.batch[s'.taken]?, ⟨s'.next, s'.batch, s'.taken + 1⟩) := by
  rw [EntryState.refill]
  show (if s.taken = 4 then _ else _ : StateT EntryState Option (Option TqElement)) s = _
  by_cases hfull : s.taken = 4
  · rw [if_pos hfull, if_pos hfull]
    show Option.bind (Option.bind (TqElement.sampleNttX4 Γ rho _) _) _ = _
    cases TqElement.sampleNttX4 Γ rho _ <;> rfl
  · rw [if_neg hfull, if_neg hfull]
    rfl

/-- A refill leaves an entry to take. -/
theorem EntryState.Invariant.refill (hΓ : Γ.Lawful) {rho : Vector UInt8 32} {k m : Nat} {s s' : EntryState}
    (h : s.Invariant Γ rho k m) (hs' : s.refill Γ rho k = some s') : s'.taken < 4 ∧ s'.Invariant Γ rho k m := by
  obtain ⟨htaken, hnext, hmod, hbatch⟩ := h
  rw [EntryState.refill] at hs'
  by_cases hfull : s.taken = 4
  · rw [if_pos hfull] at hs'
    obtain ⟨batch, hrun, rfl⟩ := Option.map_eq_some_iff.mp hs'
    have hstart : s.next = m := by omega
    refine ⟨Nat.zero_lt_succ 3, Nat.zero_le 4, by simp only []; omega, by simp only []; omega, fun l _ => ?_⟩
    have hlane := sampleNttX4_eq hΓ hrun l
    rw [Loops.getElem_fin, Vector.getElem_ofFn, hstart] at hlane
    rw [Nat.sub_zero]
    exact hlane
  · rw [if_neg hfull] at hs'
    obtain rfl := Option.some.inj hs'
    exact ⟨by omega, htaken, hnext, hmod, hbatch⟩

/-- A refill ends on streams that suffice. -/
theorem EntryState.Invariant.refill_ends (hΓ : Γ.Lawful) {rho : Vector UInt8 32} (hrho : Γ.Suffices P rho) {m : Nat}
    {s : EntryState} (h : s.Invariant Γ rho P.K m) (hm : m < P.K * P.K) : ∃ s', s.refill Γ rho P.K = some s' := by
  obtain ⟨_, hnext, hmod, _⟩ := h
  rw [EntryState.refill]
  by_cases hfull : s.taken = 4
  · rw [if_pos hfull]
    obtain ⟨batch, hbatch⟩ := sampleNttX4_ends hΓ rho (Vector.ofFn fun lane : Fin 4 =>
        (UInt8.ofNat ((s.next + lane.val) % P.K), UInt8.ofNat ((s.next + lane.val) / P.K))) fun l => by
      have hl := l.isLt
      rw [xofInputs_getElem, Loops.getElem_fin, Vector.getElem_ofFn]
      exact hrho (s.next + l.val) (by omega)
    exact ⟨_, by rw [hbatch]; rfl⟩
  · exact ⟨s, if_neg hfull⟩

/-- The iterator yields the next entry. -/
theorem nextEntry_spec (hΓ : Γ.Lawful) {rho : Vector UInt8 32} {k m : Nat} {s s' : EntryState} {a : Option TqElement}
    (h : s.Invariant Γ rho k m) (hrun : TqMatrix.nextEntry Γ rho k s = some (a, s')) :
    (Sufficient (entryStream Γ rho k m) ∧ a = some (sampled (entryStream Γ rho k m))) ∧ s'.Invariant Γ rho k (m + 1) := by
  rw [nextEntry_eq] at hrun
  obtain ⟨s1, hrefill, heq⟩ := Option.map_eq_some_iff.mp hrun
  obtain ⟨rfl, rfl⟩ := Prod.mk.inj heq
  obtain ⟨hlt, htaken, hnext, hmod, hbatch⟩ := h.refill hΓ hrefill
  obtain ⟨hsuff, hhead⟩ := hbatch ⟨s1.taken, hlt⟩ (Nat.le_refl _)
  rw [Nat.add_sub_cancel] at hsuff hhead
  refine ⟨⟨hsuff, (Vector.getElem?_eq_getElem hlt).trans (congrArg some hhead)⟩, hlt, by simp only []; omega, hmod,
    fun l hl => ?_⟩
  have hlane : m + 1 + l.val - (s1.taken + 1) = m + l.val - s1.taken := by omega
  rw [hlane]
  exact hbatch l (Nat.le_of_succ_le hl)

/-- The body of the loop over a row. -/
def nextElement (Γ : Crates) (rho : Vector UInt8 32) (k : Nat) : StateT EntryState Option TqElement := do
  return (← TqMatrix.nextEntry Γ rho k).getD TqElement.zero

theorem nextElement_eq (rho : Vector UInt8 32) (k : Nat) (s : EntryState) :
    nextElement Γ rho k s = (TqMatrix.nextEntry Γ rho k s).map fun r => (r.1.getD TqElement.zero, r.2) := by
  show Option.bind (TqMatrix.nextEntry Γ rho k s) _ = _
  cases TqMatrix.nextEntry Γ rho k s <;> rfl

/-- The body of the loop over the rows. -/
def nextRow (Γ : Crates) (rho : Vector UInt8 32) : StateT EntryState Option (TqVector P) := do
  return ⟨← Vector.ofFnM fun _ => nextElement Γ rho P.K⟩

theorem nextRow_eq (rho : Vector UInt8 32) (s : EntryState) : (nextRow Γ rho s : Option (TqVector P × EntryState)) =
    (Vector.ofFnM (fun _ : Fin P.K => nextElement Γ rho P.K) s).map fun r => (⟨r.1⟩, r.2) := by
  show Option.bind (Vector.ofFnM (fun _ : Fin P.K => nextElement Γ rho P.K) s) _ = _
  cases Vector.ofFnM (fun _ : Fin P.K => nextElement Γ rho P.K) s <;> rfl

/-- The state the entry iterator starts in. -/
def EntryState.start : EntryState := ⟨0, Vector.replicate 4 TqElement.zero, 4⟩

theorem EntryState.start_invariant (rho : Vector UInt8 32) (k : Nat) : EntryState.start.Invariant Γ rho k 0 :=
  ⟨Nat.le_refl 4, rfl, rfl, fun l hl => absurd l.isLt (Nat.not_lt.mpr hl)⟩

theorem expand_eq (rho : Vector UInt8 32) : (TqMatrix.expand Γ rho : Option (TqMatrix P)) =
    (Vector.ofFnM (fun _ : Fin P.K => nextRow (P := P) Γ rho) EntryState.start).map fun r => ⟨r.1⟩ := by
  show Option.map _ (Option.bind (Vector.ofFnM (fun _ : Fin P.K => nextRow (P := P) Γ rho) EntryState.start) _) = _
  cases Vector.ofFnM (fun _ : Fin P.K => nextRow (P := P) Γ rho) EntryState.start <;> rfl

/-- A row of the matrix holds the samples of its streams. -/
theorem nextRow_spec (hΓ : Γ.Lawful) {rho : Vector UInt8 32} {m : Nat} {s s' : EntryState} {v : TqVector P}
    (h : s.Invariant Γ rho P.K m) (hrun : nextRow Γ rho s = some (v, s')) :
    (∀ j : Fin P.K, Sufficient (entryStream Γ rho P.K (m + j)) ∧ v.polys[j] = sampled (entryStream Γ rho P.K (m + j))) ∧
      s'.Invariant Γ rho P.K (m + P.K) := by
  rw [nextRow_eq] at hrun
  obtain ⟨⟨w, s1⟩, hw, heq⟩ := Option.map_eq_some_iff.mp hrun
  obtain ⟨rfl, rfl⟩ := Prod.mk.inj heq
  refine Loops.ofFnM_stateT (fun _ : Fin P.K => nextElement Γ rho P.K) (fun j s => s.Invariant Γ rho P.K (m + j))
    (fun j a => Sufficient (entryStream Γ rho P.K (m + j)) ∧ a = sampled (entryStream Γ rho P.K (m + j)))
    (fun j s a s' hs hstep => ?_) h hw
  rw [nextElement_eq] at hstep
  obtain ⟨⟨b, s2⟩, hnext, heq⟩ := Option.map_eq_some_iff.mp hstep
  obtain ⟨rfl, rfl⟩ := Prod.mk.inj heq
  obtain ⟨⟨hsuff, rfl⟩, hinv⟩ := nextEntry_spec hΓ hs hnext
  exact ⟨⟨hsuff, rfl⟩, hinv⟩

/-- The matrix expands when the streams suffice. -/
theorem expand_ends (hΓ : Γ.Lawful) {rho : Vector UInt8 32} (hrho : Γ.Suffices P rho) :
    ∃ m : TqMatrix P, TqMatrix.expand Γ rho = some m := by
  have helement : ∀ m (s : EntryState), m < P.K * P.K → s.Invariant Γ rho P.K m →
      ∃ a s', nextElement Γ rho P.K s = some (a, s') ∧ s'.Invariant Γ rho P.K (m + 1) := fun m s hm hs => by
    obtain ⟨s1, hrefill⟩ := hs.refill_ends hΓ hrho hm
    have hnext : TqMatrix.nextEntry Γ rho P.K s = some (s1.batch[s1.taken]?, ⟨s1.next, s1.batch, s1.taken + 1⟩) := by
      rw [nextEntry_eq, hrefill]
      rfl
    exact ⟨_, _, by rw [nextElement_eq, hnext]; rfl, (nextEntry_spec hΓ hs hnext).2⟩
  have hrow : ∀ (i : Fin P.K) (s : EntryState), s.Invariant Γ rho P.K (P.K * i) →
      ∃ (a : TqVector P) (s' : EntryState), nextRow Γ rho s = some (a, s') ∧ s'.Invariant Γ rho P.K (P.K * (i + 1)) :=
        fun i s hs => by
    have hi := Nat.mul_le_mul_left P.K (Nat.succ_le_of_lt i.isLt)
    obtain ⟨v, s', hv, hs'⟩ := Loops.ofFnM_stateT_total (fun _ : Fin P.K => nextElement Γ rho P.K)
      (fun j s => s.Invariant Γ rho P.K (P.K * i + j))
        (fun j s hs => helement (P.K * i + j) s (by rw [Nat.mul_succ] at hi; omega) hs) s hs
    exact ⟨⟨v⟩, s', by rw [nextRow_eq, hv]; rfl, hs'⟩
  obtain ⟨rows, s', hrows, _⟩ := Loops.ofFnM_stateT_total (fun _ : Fin P.K => nextRow (P := P) Γ rho)
    (fun i s => s.Invariant Γ rho P.K (P.K * i)) hrow EntryState.start (EntryState.start_invariant rho P.K)
  exact ⟨⟨rows⟩, by rw [expand_eq, hrows]; rfl⟩

/-- The entries of an expanded matrix are the samples of their streams, which suffice. -/
theorem expand_getElem (hΓ : Γ.Lawful) {rho : Vector UInt8 32} {m : TqMatrix P} (h : TqMatrix.expand Γ rho = some m)
    (i j : Fin P.K) :
    Sufficient (Γ.hashes.XOF (rho.toList ++ [UInt8.ofNat j, UInt8.ofNat i])) ∧
      m.rows[i].polys[j] = sampled (Γ.hashes.XOF (rho.toList ++ [UInt8.ofNat j, UInt8.ofNat i])) := by
  have hK : 0 < P.K := Nat.lt_of_lt_of_le (by decide) P.K_bounds.1
  rw [expand_eq] at h
  obtain ⟨⟨rows, s'⟩, hrows, rfl⟩ := Option.map_eq_some_iff.mp h
  have hentries := (Loops.ofFnM_stateT (fun _ : Fin P.K => nextRow (P := P) Γ rho)
    (fun i s => s.Invariant Γ rho P.K (P.K * i))
    (fun i v => ∀ j : Fin P.K, Sufficient (entryStream Γ rho P.K (P.K * i + j)) ∧
      v.polys[j] = sampled (entryStream Γ rho P.K (P.K * i + j)))
    (fun i s v s' hs hrun => nextRow_spec hΓ hs hrun) (EntryState.start_invariant rho P.K) hrows).1 i j
  rw [entryStream, Nat.mul_add_mod, Nat.mod_eq_of_lt j.isLt, Nat.mul_add_div hK, Nat.div_eq_of_lt j.isLt, Nat.add_zero]
    at hentries
  exact hentries

end MlkemSelkie
