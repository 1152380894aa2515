import MlkemSelkie.Lemmas.Fips202

/-!
# Batched matrix expansion

The batched sampler yields in every lane what the serial one yields, however many blocks the lanes need, and the expansion
of a matrix draws every entry once. A log of the index pairs that go to the batched sampler says which entries are drawn.
-/

namespace MlkemSelkie

open Fips203 Sampling

variable {P : ParameterSet} {Γ : Crates}

/-! ## The four lanes -/

/-- Where the batched sampler ends, every lane is the serial sample. -/
theorem sampleNttX4_lane (hΓ : Γ.Lawful) {rho : Vector UInt8 32} {indices : Vector (UInt8 × UInt8) 4}
    {v : Vector TqElement 4}
    (h : TqElement.sampleNttX4 Γ rho indices = some v) (l : Fin 4) :
    TqElement.sampleNtt Γ rho indices[l].1 indices[l].2 = some v[l] := by
  obtain ⟨hsufficient, hlane⟩ := sampleNttX4_eq hΓ h l
  rw [hlane]
  exact sampleNtt_eq hΓ rho _ _ hsufficient

/-! ## The log of the expansion -/

/-- The state of the entry iterator, and the index pairs that it has passed to the batched sampler. -/
structure LoggedState where
  entry : EntryState
  log : List (UInt8 × UInt8)

namespace TqMatrix

/-- The index pair of the entry `n` in row-major order, column first. -/
def indexPair (k n : Nat) : UInt8 × UInt8 := (UInt8.ofNat (n % k), UInt8.ofNat (n / k))

/-- `next` of the entry iterator, with a log. -/
def loggedEntry (Γ : Crates) (rho : Vector UInt8 32) (k : Nat) : StateT LoggedState Option (Option TqElement) := do
  let s ← get
  let s ←
    if s.entry.taken = 4 then do
      let indices : Vector (UInt8 × UInt8) 4 := Vector.ofFn fun lane =>
        let n := s.entry.next + lane.val
        (UInt8.ofNat (n % k), UInt8.ofNat (n / k))
      let batch ← TqElement.sampleNttX4 Γ rho indices
      pure ⟨{ next := s.entry.next + 4, batch, taken := 0 }, s.log ++ indices.toList⟩
    else pure s
  set { s with entry := { s.entry with taken := s.entry.taken + 1 } }
  return s.entry.batch[s.entry.taken]?

/-- The body of the loop over a row, with a log. -/
def loggedElement (Γ : Crates) (rho : Vector UInt8 32) (k : Nat) : StateT LoggedState Option TqElement := do
  return (← loggedEntry Γ rho k).getD TqElement.zero

/-- The body of the loop over the rows, with a log. -/
def loggedRow (Γ : Crates) (rho : Vector UInt8 32) : StateT LoggedState Option (TqVector P) := do
  return ⟨← Vector.ofFnM fun _ => loggedElement Γ rho P.K⟩

/-- `expand`, with the log of the index pairs that are drawn. -/
def loggedExpand (Γ : Crates) (rho : Vector UInt8 32) : Option (TqMatrix P × List (UInt8 × UInt8)) :=
  let matrix : StateT LoggedState Option (TqMatrix P) := do
    return ⟨← Vector.ofFnM fun _ => loggedRow Γ rho⟩
  (matrix.run ⟨EntryState.start, []⟩).map fun r => (r.1, r.2.log)

end TqMatrix

open TqMatrix

/-- The state after the refill, when one is needed, and its log. -/
def LoggedState.refill (Γ : Crates) (rho : Vector UInt8 32) (k : Nat) (s : LoggedState) : Option LoggedState :=
  (s.entry.refill Γ rho k).map fun entry =>
    ⟨entry, if s.entry.taken = 4 then s.log ++ (List.range' s.entry.next 4).map (indexPair k) else s.log⟩

theorem loggedEntry_eq (rho : Vector UInt8 32) (k : Nat) (s : LoggedState) :
    loggedEntry Γ rho k s = (s.refill Γ rho k).map fun s' =>
      (s'.entry.batch[s'.entry.taken]?, ⟨⟨s'.entry.next, s'.entry.batch, s'.entry.taken + 1⟩, s'.log⟩) := by
  rw [LoggedState.refill, EntryState.refill]
  show (if s.entry.taken = 4 then _ else _ : StateT LoggedState Option (Option TqElement)) s = _
  by_cases hfull : s.entry.taken = 4
  · rw [if_pos hfull, if_pos hfull, if_pos hfull]
    show Option.bind (Option.bind (TqElement.sampleNttX4 Γ rho _) _) _ = _
    cases TqElement.sampleNttX4 Γ rho _ <;> rfl
  · rw [if_neg hfull, if_neg hfull, if_neg hfull]
    rfl

theorem loggedElement_eq (rho : Vector UInt8 32) (k : Nat) (s : LoggedState) :
    loggedElement Γ rho k s = (loggedEntry Γ rho k s).map fun r => (r.1.getD TqElement.zero, r.2) := by
  show Option.bind (loggedEntry Γ rho k s) _ = _
  cases loggedEntry Γ rho k s <;> rfl

theorem loggedRow_eq (rho : Vector UInt8 32) (s : LoggedState) : (loggedRow Γ rho s : Option (TqVector P × LoggedState)) =
    (Vector.ofFnM (fun _ : Fin P.K => loggedElement Γ rho P.K) s).map fun r => (⟨r.1⟩, r.2) := by
  show Option.bind (Vector.ofFnM (fun _ : Fin P.K => loggedElement Γ rho P.K) s) _ = _
  cases Vector.ofFnM (fun _ : Fin P.K => loggedElement Γ rho P.K) s <;> rfl

theorem loggedExpand_eq (rho : Vector UInt8 32) : (loggedExpand Γ rho : Option (TqMatrix P × List (UInt8 × UInt8))) =
    (Vector.ofFnM (fun _ : Fin P.K => loggedRow (P := P) Γ rho) ⟨EntryState.start, []⟩).map fun r => (⟨r.1⟩, r.2.log) := by
  show Option.map _ (Option.bind (Vector.ofFnM (fun _ : Fin P.K => loggedRow (P := P) Γ rho) _) _) = _
  cases Vector.ofFnM (fun _ : Fin P.K => loggedRow (P := P) Γ rho) ⟨EntryState.start, []⟩ <;> rfl

/-! ## Without the log -/

theorem loggedElement_erase (rho : Vector UInt8 32) (k : Nat) (s : LoggedState) :
    (loggedElement Γ rho k s).map (fun r => (r.1, r.2.entry)) = nextElement Γ rho k s.entry := by
  rw [loggedElement_eq, loggedEntry_eq, nextElement_eq, nextEntry_eq, LoggedState.refill]
  cases s.entry.refill Γ rho k <;> rfl

theorem loggedRow_erase (rho : Vector UInt8 32) (s : LoggedState) :
    (loggedRow Γ rho s : Option (TqVector P × LoggedState)).map (fun r => (r.1, r.2.entry)) = nextRow Γ rho s.entry := by
  have hrun := Loops.ofFnM_stateT_erase LoggedState.entry (fun _ : Fin P.K => loggedElement_erase (Γ := Γ) rho P.K) s
  rw [loggedRow_eq, nextRow_eq, ← hrun]
  cases Vector.ofFnM (fun _ : Fin P.K => loggedElement Γ rho P.K) s <;> rfl

/-- The log changes nothing of the expansion. -/
theorem loggedExpand_erase (rho : Vector UInt8 32) :
    (loggedExpand Γ rho : Option (TqMatrix P × List (UInt8 × UInt8))).map Prod.fst = expand Γ rho := by
  have hrun := Loops.ofFnM_stateT_erase LoggedState.entry (fun _ : Fin P.K => loggedRow_erase (P := P) (Γ := Γ) rho)
    ⟨EntryState.start, []⟩
  rw [loggedExpand_eq, expand_eq, ← hrun]
  cases Vector.ofFnM (fun _ : Fin P.K => loggedRow (P := P) Γ rho) ⟨EntryState.start, []⟩ <;> rfl

/-! ## The entries drawn -/

/-- After `m` entries: the log holds the entries below `next` in order, `next` being the end of the batch in use. -/
structure LoggedState.Invariant (k m : Nat) (s : LoggedState) : Prop where
  taken_pos : 0 < s.entry.taken
  taken_le : s.entry.taken ≤ 4
  next_eq : s.entry.next + s.entry.taken = m + 4
  next_mod : s.entry.next % 4 = 0
  log_eq : s.log = (List.range s.entry.next).map (indexPair k)

theorem LoggedState.start_invariant (k : Nat) : LoggedState.Invariant k 0 ⟨EntryState.start, []⟩ :=
  ⟨Nat.zero_lt_succ 3, Nat.le_refl 4, rfl, rfl, rfl⟩

/-- One entry keeps the invariant of the log. -/
theorem loggedElement_invariant {rho : Vector UInt8 32} {k m : Nat} {s s' : LoggedState} {a : TqElement}
    (h : s.Invariant k m)
    (hrun : loggedElement Γ rho k s = some (a, s')) : s'.Invariant k (m + 1) := by
  obtain ⟨hpos, hle, hnext, hmod, hlog⟩ := h
  rw [loggedElement_eq, loggedEntry_eq, LoggedState.refill, EntryState.refill] at hrun
  by_cases hfull : s.entry.taken = 4
  · rw [if_pos hfull, if_pos hfull] at hrun
    cases hbatch : TqElement.sampleNttX4 Γ rho (Vector.ofFn fun lane : Fin 4 =>
      (UInt8.ofNat ((s.entry.next + lane.val) % k), UInt8.ofNat ((s.entry.next + lane.val) / k))) with
    | none =>
      rw [hbatch] at hrun
      cases hrun
    | some batch =>
      rw [hbatch] at hrun
      obtain ⟨_, rfl⟩ := Prod.mk.inj (Option.some.inj hrun)
      refine ⟨Nat.one_pos, by simp only []; omega, by simp only []; omega, by simp only []; omega, ?_⟩
      show s.log ++ (List.range' s.entry.next 4).map (indexPair k) = (List.range (s.entry.next + 4)).map (indexPair k)
      rw [hlog, ← List.map_append, List.range_eq_range', List.range_eq_range', ← List.range'_append_1, Nat.zero_add]
  · rw [if_neg hfull, if_neg hfull] at hrun
    obtain ⟨_, rfl⟩ := Prod.mk.inj (Option.some.inj hrun)
    exact ⟨Nat.succ_pos _, by simp only []; omega, by simp only []; omega, hmod, hlog⟩

theorem loggedRow_invariant {rho : Vector UInt8 32} {m : Nat} {s s' : LoggedState} {v : TqVector P}
    (h : s.Invariant P.K m) (hrun : loggedRow Γ rho s = some (v, s')) : s'.Invariant P.K (m + P.K) := by
  rw [loggedRow_eq] at hrun
  obtain ⟨⟨w, s1⟩, hw, heq⟩ := Option.map_eq_some_iff.mp hrun
  obtain ⟨rfl, rfl⟩ := Prod.mk.inj heq
  exact (Loops.ofFnM_stateT (fun _ : Fin P.K => loggedElement Γ rho P.K) (fun j s => s.Invariant P.K (m + j))
    (fun _ _ => True)
    (fun j s a s' hs hstep => ⟨trivial, loggedElement_invariant hs hstep⟩) h hw).2

/-- The log of an expansion: the entries in row-major order, to the end of the last batch. -/
theorem loggedExpand_log {rho : Vector UInt8 32} {m : TqMatrix P} {log : List (UInt8 × UInt8)}
    (h : loggedExpand Γ rho = some (m, log)) : log = (List.range (4 * ((P.K * P.K + 3) / 4))).map (indexPair P.K) := by
  rw [loggedExpand_eq] at h
  obtain ⟨⟨rows, s⟩, hrows, heq⟩ := Option.map_eq_some_iff.mp h
  obtain ⟨_, rfl⟩ := Prod.mk.inj heq
  obtain ⟨_, hpos, hle, hnext, hmod, hlog⟩ := Loops.ofFnM_stateT (fun _ : Fin P.K => loggedRow (P := P) Γ rho)
    (fun i s => s.Invariant P.K (P.K * i)) (fun _ _ => True)
    (fun i s v s' hs hrun => ⟨trivial, loggedRow_invariant hs hrun⟩) (LoggedState.start_invariant P.K) hrows
  have hnext : s.entry.next = 4 * ((P.K * P.K + 3) / 4) := by omega
  rw [hlog, hnext]

/-- Of the entries that an expansion draws, every index pair of the matrix is one. -/
theorem count_indexPair (P : ParameterSet) (i j : Fin P.K) :
    ((List.range (4 * ((P.K * P.K + 3) / 4))).map (indexPair P.K)).count (UInt8.ofNat j, UInt8.ofNat i) = 1 := by
  revert i j
  cases P <;> decide

/-- The batched sampler and the expansion of a matrix yield the serial samples, every entry drawn exactly once. -/
theorem expansion_is_serial (hΓ : Γ.Lawful) (P : ParameterSet) (rho : Vector UInt8 32) :
    (∀ indices : Vector (UInt8 × UInt8) 4,
      (∀ l : Fin 4, Sufficient (Γ.hashes.XOF (rho.toList ++ [indices[l].1, indices[l].2]))) →
      ∃ v, TqElement.sampleNttX4 Γ rho indices = some v ∧
        ∀ l : Fin 4, TqElement.sampleNtt Γ rho indices[l].1 indices[l].2 = some v[l]) ∧
    (Γ.Suffices P rho → ∃ m : TqMatrix P, expand Γ rho = some m) ∧
    (loggedExpand Γ rho : Option (TqMatrix P × List (UInt8 × UInt8))).map Prod.fst = expand Γ rho ∧
    ∀ (m : TqMatrix P) (log : List (UInt8 × UInt8)), loggedExpand Γ rho = some (m, log) → ∀ i j : Fin P.K,
      TqElement.sampleNtt Γ rho (UInt8.ofNat j) (UInt8.ofNat i) = some m.rows[i].polys[j] ∧
        log.count (UInt8.ofNat j, UInt8.ofNat i) = 1 := by
  refine ⟨fun indices h => ?_, expand_ends hΓ, loggedExpand_erase rho, fun m log h i j => ⟨?_, ?_⟩⟩
  · obtain ⟨v, hv⟩ := sampleNttX4_ends hΓ rho indices fun l => by
      rw [xofInputs_getElem]
      exact h l
    exact ⟨v, hv, sampleNttX4_lane hΓ hv⟩
  · have hexpand : expand Γ rho = some m := by rw [← loggedExpand_erase, h, Option.map_some]
    obtain ⟨hsufficient, hentry⟩ := expand_getElem hΓ hexpand i j
    rw [hentry]
    exact sampleNtt_eq hΓ rho _ _ hsufficient
  · rw [loggedExpand_log h]
    exact count_indexPair P i j

/-- The matrix of the seed of zeros: one entry, and how often it is drawn. -/
theorem expansion_is_serial_zero :
    ∃ (m : TqMatrix .mlkem512) (log : List (UInt8 × UInt8)), expand Crates.fips202 exampleRho = some m ∧
      loggedExpand Crates.fips202 exampleRho = some (m, log) ∧
      TqElement.sampleNtt Crates.fips202 exampleRho 1 0 = some m.rows[0].polys[1] ∧ log.count (1, 0) = 1 ∧
      ∃ v, TqElement.sampleNttX4 Crates.fips202 exampleRho (Vector.replicate 4 (0, 0)) = some v ∧
        TqElement.sampleNtt Crates.fips202 exampleRho 0 0 = some v[0] := by
  obtain ⟨hlanes, hends, herase, hentries⟩ := expansion_is_serial Crates.fips202_lawful .mlkem512 exampleRho
  obtain ⟨m, hm⟩ := hends zeroSeed_suffices
  obtain ⟨⟨m', log⟩, hlogged, rfl⟩ := Option.map_eq_some_iff.mp (herase.trans hm)
  obtain ⟨hentry, hcount⟩ := hentries m' log hlogged ⟨0, by decide⟩ ⟨1, by decide⟩
  obtain ⟨v, hv, hlane⟩ := hlanes (Vector.replicate 4 (0, 0)) fun l => by
    rw [Loops.getElem_fin, Vector.getElem_replicate]
    exact zeroSeed_suffices 0 (by decide)
  exact ⟨m', log, hm, hlogged, hentry, hcount, v, hv, hlane 0⟩

end MlkemSelkie
