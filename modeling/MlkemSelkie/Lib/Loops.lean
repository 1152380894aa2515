import Mathlib.Data.UInt

/-!
# Loops

The loop forms a systems program is written in: counted ranges with a step, slices of fixed width, writes of a block into an
array and a constructor that calls a stateful step for each element in turn, as folds, and the loop that runs while a test
holds. An array is read at an index of its own length without a side condition.
-/

namespace Loops

variable {α β : Type}

instance instGetElemFin {n : Nat} : GetElem (Vector α n) (Fin n) α fun _ _ => True where
  getElem v i _ := v[i.val]

@[simp] theorem getElem_fin {n : Nat} (v : Vector α n) (i : Fin n) : v[i] = v[i.val] := rfl

/-- The values of a range from zero to `stop` taken every `step`. -/
def stepBy (stop step : Nat) : List Nat :=
  List.range' 0 ((stop + step - 1) / step) step

/-- The consecutive whole chunks of `size` elements; a shorter remainder is not yielded. -/
def chunksExact (size : Nat) (l : List α) : List (List α) :=
  (List.range (l.length / size)).map fun i => (l.drop (size * i)).take size

/-- The array with the block written from position `off` on. -/
def copyAt {n : Nat} (out : Vector α n) (off : Nat) (block : List α) : Vector α n :=
  Vector.ofFn fun i => if h : off ≤ i ∧ i < off + block.length then block[i.val - off] else out[i]

/-- The array of `n` bytes a slice is copied into; a slice of another length leaves the missing bytes zero. -/
def arrayOf [Inhabited α] (n : Nat) (l : List α) : Vector α n :=
  Vector.ofFn fun i => l[i.val]!

/-- A counted loop keeps what every pass keeps. -/
theorem foldl_range {σ : Type} {f : σ → Nat → σ} {I : Nat → σ → Prop} {m : Nat} {s : σ} (h0 : I 0 s)
    (hstep : ∀ i < m, ∀ s, I i s → I (i + 1) (f s i)) : I m ((List.range m).foldl f s) := by
  induction m with
  | zero => exact h0
  | succ m ih =>
    rw [List.range_succ, List.foldl_append]
    exact hstep m (Nat.lt_succ_self m) _ (ih fun i hi => hstep i (Nat.lt_succ_of_lt hi))

/-- A counted loop that may fail keeps what every pass keeps. -/
theorem foldlM_range {σ : Type} {f : σ → Nat → Option σ} {I : Nat → σ → Prop} {m : Nat} {s : σ} (h0 : I 0 s)
    (hstep : ∀ i < m, ∀ s, I i s → ∃ s', f s i = some s' ∧ I (i + 1) s') :
    ∃ s', (List.range m).foldlM f s = some s' ∧ I m s' := by
  induction m with
  | zero => exact ⟨s, rfl, h0⟩
  | succ m ih =>
    obtain ⟨s', hrun, hs'⟩ := ih fun i hi => hstep i (Nat.lt_succ_of_lt hi)
    obtain ⟨s'', hlast, hs''⟩ := hstep m (Nat.lt_succ_self m) s' hs'
    refine ⟨s'', ?_, hs''⟩
    rw [List.range_succ, List.foldlM_append, hrun, Option.bind_eq_bind, Option.bind_some, List.foldlM_cons, hlast]
    rfl

/-! ## Loops with a test -/

/-- A `while` loop: the test made before every pass, and a pass. -/
structure While (σ : Type) where
  test : σ → Bool
  pass : σ → σ

namespace While

/-- The state a loop leaves; `none` where the test never fails. -/
def run {σ : Type} (loop : While σ) (s : σ) : Option σ :=
  if loop.test s then loop |>.run (loop.pass s) else some s
partial_fixpoint

variable {σ : Type} {loop : While σ} {s s' : σ} {b : Nat}

theorem run_pass (h : loop.test s = true) : loop.run s = loop.run (loop.pass s) := by rw [run, if_pos h]

theorem run_stop (h : loop.test s = false) : loop.run s = some s := by rw [run, if_neg (Bool.not_eq_true _ ▸ h)]

/-- Passes before each of which the test holds are passes of the loop. -/
theorem run_iterate {n : Nat} (h : ∀ m < n, loop.test (loop.pass^[m] s) = true) :
    loop.run s = loop.run (loop.pass^[n] s) := by
  induction n with
  | zero => rfl
  | succ n ih =>
    rw [ih fun m hm => h m (Nat.lt_succ_of_lt hm), run_pass (h n (Nat.lt_succ_self n)), Function.iterate_succ_apply']

section Invariant

variable {I : Nat → σ → Prop} (hpass : ∀ b s, I b s → loop.test s = true → I (b + 1) (loop.pass s))

include hpass

/-- A loop ends when its invariant does not allow the test to hold after a number of passes. -/
theorem run_ends (n : Nat) (hend : ∀ s, I (b + n) s → loop.test s = false) (h : I b s) : ∃ s', loop.run s = some s' := by
  induction n generalizing b s with
  | zero => exact ⟨s, run_stop (hend s h)⟩
  | succ n ih =>
    cases htest : loop.test s with
    | false => exact ⟨s, run_stop htest⟩
    | true =>
      rw [run_pass htest]
      exact ih (fun s hs => hend s (by rwa [Nat.add_right_comm] at hs)) (hpass b s h htest)

/-- Where a loop ends, the invariant holds and the test does not. -/
theorem run_keeps (h : I b s) (hrun : loop.run s = some s') : ∃ t, I t s' ∧ loop.test s' = false := by
  refine run.partial_correctness loop (fun s s' => ∀ b, I b s → ∃ t, I t s' ∧ loop.test s' = false) ?_ s s' hrun b h
  intro run ih s s' hbody b h
  cases htest : loop.test s with
  | false =>
    rw [htest, if_neg Bool.false_ne_true] at hbody
    obtain rfl := Option.some.inj hbody
    exact ⟨b, h, htest⟩
  | true =>
    rw [htest, if_pos rfl] at hbody
    exact ih _ _ hbody (b + 1) (hpass b s h htest)

end Invariant

section Related

variable {τ : Type} {loop' : While τ} {R : σ → τ → Prop} {t : τ}

/-- Passes that keep two states related lead to related states. -/
theorem run_follows (htest : ∀ s t, R s t → loop.test s = loop'.test t)
    (hpass : ∀ s t, R s t → loop.test s = true → R (loop.pass s) (loop'.pass t)) (h : R s t) (hrun : loop.run s = some s') :
    ∃ t', loop'.run t = some t' ∧ R s' t' := by
  refine run.partial_correctness loop (fun s s' => ∀ t, R s t → ∃ t', loop'.run t = some t' ∧ R s' t') ?_ s s' hrun t h
  intro run ih s s' hbody t h
  cases htested : loop.test s with
  | false =>
    rw [htested, if_neg Bool.false_ne_true] at hbody
    obtain rfl := Option.some.inj hbody
    exact ⟨t, run_stop ((htest s t h).symm.trans htested), h⟩
  | true =>
    rw [htested, if_pos rfl] at hbody
    obtain ⟨t', hrun', h'⟩ := ih _ _ hbody _ (hpass s t h htested)
    exact ⟨t', (run_pass ((htest s t h).symm.trans htested)).trans hrun', h'⟩

/-- Two loops whose passes keep their states related end together, in related states. -/
theorem run_related (htest : ∀ s t, R s t → loop.test s = loop'.test t)
    (hpass : ∀ s t, R s t → loop.test s = true → R (loop.pass s) (loop'.pass t)) (h : R s t) :
    Option.Rel R (loop.run s) (loop'.run t) := by
  cases hrun : loop.run s with
  | some s' =>
    obtain ⟨t', hrun', h'⟩ := run_follows htest hpass h hrun
    rw [hrun']
    exact Option.Rel.some h'
  | none =>
    cases hrun' : loop'.run t with
    | none => exact Option.Rel.none
    | some t' =>
      obtain ⟨s', hs', _⟩ := run_follows (R := fun t s => R s t) (fun t s h => (htest s t h).symm)
        (fun t s h hpasses => hpass s t h ((htest s t h).trans hpasses)) h hrun'
      rw [hs'] at hrun
      exact absurd hrun (Option.some_ne_none s')

end Related

/-- What is read off related outcomes in the same way. -/
theorem map_related {σ τ ρ : Type} {R : σ → τ → Prop} {o : Option σ} {o' : Option τ} (h : Option.Rel R o o') {f : σ → ρ}
    {g : τ → ρ} (hread : ∀ s t, R s t → f s = g t) : o.map f = o'.map g := by
  cases h with
  | none => rw [Option.map_none, Option.map_none]
  | some hst => rw [Option.map_some, Option.map_some, hread _ _ hst]

/-- A loop whose pass may fail; a failure ends it. -/
def attempt (test : σ → Bool) (pass : σ → Option σ) : While (Option σ) where
  test s := s.any test
  pass s := s.bind pass

/-- The state a loop leaves whose passes all succeed. -/
def runAttempt (test : σ → Bool) (pass : σ → Option σ) (s : σ) : Option σ := ((attempt test pass).run (some s)).join

/-- A loop whose passes succeed as those of another one do ends with it. -/
theorem runAttempt_related {τ : Type} {test : σ → Bool} {pass : σ → Option σ} {loop' : While τ} {R : σ → τ → Prop} {t : τ}
    (htest : ∀ s t, R s t → test s = loop'.test t)
    (hpass : ∀ s t, R s t → test s = true → ∃ s', pass s = some s' ∧ R s' (loop'.pass t)) (h : R s t) :
    Option.Rel R (runAttempt test pass s) (loop'.run t) := by
  have hrelated : Option.Rel (fun o t => ∃ s, o = some s ∧ R s t) ((attempt test pass).run (some s)) (loop'.run t) := by
    refine run_related ?_ ?_ ⟨s, rfl, h⟩
    · rintro _ t ⟨s, rfl, h⟩
      exact htest s t h
    · rintro _ t ⟨s, rfl, h⟩ htested
      exact hpass s t h htested
  rw [runAttempt]
  generalize (attempt test pass).run (some s) = o at hrelated
  generalize loop'.run t = o' at hrelated
  cases hrelated with
  | none => exact Option.Rel.none
  | some hends =>
    obtain ⟨s', rfl, h'⟩ := hends
    exact Option.Rel.some h'

end While

/-! ## Assembling blocks in an array -/

section Assemble

variable {n : Nat}

/-- The array starts with the list `l`. -/
def Starts (out : Vector α n) (l : List α) : Prop := out.toList.take l.length = l

theorem starts_nil (out : Vector α n) : Starts out [] := rfl

theorem Starts.length_le {out : Vector α n} {l : List α} (h : Starts out l) : l.length ≤ n := by
  have := congrArg List.length h
  rw [List.length_take, Vector.length_toList] at this
  omega

theorem Starts.getElem {out : Vector α n} {l : List α} (h : Starts out l) (i : Nat) (hi : i < l.length) (hn : i < n) :
    out[i] = l[i] := by
  have hget : l[i]? = (out.toList.take l.length)[i]? := by rw [h]
  rw [List.getElem?_take_of_lt hi, List.getElem?_eq_getElem hi,
    List.getElem?_eq_getElem (by rw [Vector.length_toList]; exact hn),
    Vector.getElem_toList] at hget
  exact (Option.some.inj hget).symm

theorem starts_of_getElem {out : Vector α n} {l : List α} (hlen : l.length ≤ n)
    (h : ∀ i (hi : i < l.length) (hn : i < n), out[i] = l[i]) : Starts out l := by
  refine List.ext_getElem ?_ fun i h1 h2 => ?_
  · rw [List.length_take, Vector.length_toList, Nat.min_eq_left hlen]
  · rw [List.getElem_take, Vector.getElem_toList, h i h2]

/-- Writing a block right after what the array starts with. -/
theorem Starts.copyAt {out : Vector α n} {l : List α} (h : Starts out l) (block : List α)
    (hn : l.length + block.length ≤ n) : Starts (copyAt out l.length block) (l ++ block) := by
  refine starts_of_getElem (by rw [List.length_append]; exact hn) fun i hi _ => ?_
  rw [List.length_append] at hi
  rw [Loops.copyAt, Vector.getElem_ofFn]
  by_cases hlow : i < l.length
  · rw [dif_neg (by simp only []; omega), List.getElem_append_left hlow]
    exact h.getElem i hlow (by omega)
  · rw [dif_pos (by simp only []; omega), List.getElem_append_right (by omega)]

/-- Writing equal blocks one after the other. -/
theorem Starts.foldl_copyAt {β : Type} (size : Nat) (block : β → List α) (hsize : ∀ x, (block x).length = size)
    (xs : List β) :
    ∀ (k : Nat) (out : Vector α n) (l : List α), Starts out l → l.length = size * k → size * (k + xs.length) ≤ n →
      Starts ((xs.zipIdx k).foldl (fun out p => Loops.copyAt out (size * p.2) (block p.1)) out)
        (l ++ (xs.map block).flatten) := by
  induction xs with
  | nil =>
    intro k out l h _ _
    rw [List.map_nil, List.flatten_nil, List.append_nil]
    exact h
  | cons x xs ih =>
    intro k out l h hl hn
    rw [List.length_cons, ← Nat.add_assoc, Nat.add_right_comm] at hn
    have hle : size * (k + 1) ≤ size * (k + 1 + xs.length) := Nat.mul_le_mul_left _ (Nat.le_add_right _ _)
    rw [Nat.mul_succ] at hle
    have hstep := h.copyAt (block x) (by rw [hsize, hl]; omega)
    rw [hl] at hstep
    rw [List.zipIdx_cons, List.foldl_cons, List.map_cons, List.flatten_cons, ← List.append_assoc]
    exact ih (k + 1) _ _ hstep (by rw [List.length_append, hsize, hl, Nat.mul_succ]) hn

/-- The array cut to the length of what it starts with. -/
theorem Starts.toList_ofFn {out : Vector α n} {l : List α} (h : Starts out l) {size : Nat} (hsize : l.length = size)
    (d : α) : (Vector.ofFn fun i : Fin size => out[i.val]?.getD d).toList = l := by
  have hn := h.length_le
  refine List.ext_getElem (by rw [Vector.length_toList, hsize]) fun i h1 h2 => ?_
  rw [Vector.getElem_toList, Vector.getElem_ofFn]
  simp only []
  rw [Vector.getElem?_eq_getElem (by omega), Option.getD_some]
  exact h.getElem i h2 (by omega)

end Assemble

/-- A slice of the length of the array. -/
theorem toList_arrayOf [Inhabited α] {k : Nat} {l : List α} (h : l.length = k) : (arrayOf k l).toList = l := by
  refine List.ext_getElem (by rw [Vector.length_toList, h]) fun i h1 h2 => ?_
  simp only [Vector.getElem_toList, arrayOf, Vector.getElem_ofFn]
  exact getElem!_pos l i h2

theorem arrayOf_toList [Inhabited α] {k : Nat} (v : Vector α k) : arrayOf k v.toList = v :=
  Vector.toList_inj.mp (toList_arrayOf Vector.length_toList)

/-- A list copied into an array of its length. -/
theorem toList_ofFn_getD {n : Nat} {l : List α} (h : l.length = n) (d : α) :
    (Vector.ofFn fun i : Fin n => l[i.val]?.getD d).toList = l := by
  refine List.ext_getElem (by rw [Vector.length_toList, h]) fun i h1 h2 => ?_
  rw [Vector.getElem_toList, Vector.getElem_ofFn]
  simp only []
  rw [List.getElem?_eq_getElem h2, Option.getD_some]

/-- The whole chunks of a list are its consecutive slices. -/
theorem chunksExact_getElem? {size : Nat} {l : List α} {i : Nat} (h : i < l.length / size) :
    (chunksExact size l)[i]? = some ((l.drop (size * i)).take size) := by
  rw [chunksExact, List.getElem?_map, List.getElem?_range h]
  rfl

/-! ## Concatenations of equal blocks -/

/-- The length of a concatenation of equal blocks. -/
theorem length_flatten_ofFn {k size : Nat} {f : Fin k → List α} (hf : ∀ i, (f i).length = size) :
    (List.ofFn f).flatten.length = size * k := by
  induction k with
  | zero => rfl
  | succ k ih =>
    rw [List.ofFn_succ, List.flatten_cons, List.length_append, hf 0, ih fun i => hf i.succ, Nat.mul_succ, Nat.add_comm]

/-- The slices of a concatenation of equal blocks, whatever follows it. -/
theorem slice_flatten_ofFn {k size : Nat} {f : Fin k → List α} (hf : ∀ i, (f i).length = size) (rest : List α) (i : Fin k) :
    (((List.ofFn f).flatten ++ rest).drop (size * i)).take size = f i := by
  induction k with
  | zero => exact i.elim0
  | succ k ih =>
    rw [List.ofFn_succ, List.flatten_cons, List.append_assoc]
    cases i using Fin.cases with
    | zero => rw [Fin.val_zero, Nat.mul_zero, List.drop_zero, ← hf 0, List.take_left]
    | succ i =>
      rw [Fin.val_succ, Nat.mul_succ, Nat.add_comm, ← List.drop_drop, ← hf 0, List.drop_left, hf 0]
      exact ih (fun i => hf i.succ) i

/-- A list is the concatenation of its slices. -/
theorem flatten_slices {k size : Nat} {l : List α} (hl : l.length = size * k) :
    (List.ofFn fun i : Fin k => (l.drop (size * i)).take size).flatten = l := by
  induction k generalizing l with
  | zero => exact (List.eq_nil_of_length_eq_zero hl).symm
  | succ k ih =>
    have htail := ih (l := l.drop size) (by rw [List.length_drop, hl, Nat.mul_succ, Nat.add_sub_cancel])
    rw [List.ofFn_succ, List.flatten_cons]
    simp only [Fin.val_zero, Nat.mul_zero, List.drop_zero, Fin.val_succ, Nat.mul_succ, Nat.add_comm _ size, ← List.drop_drop]
    rw [htail, List.take_append_drop]

/-- A concatenation of equal blocks is a list when every block is the list's slice. -/
theorem flatten_ofFn_eq_iff {k size : Nat} {f : Fin k → List α} (hf : ∀ i, (f i).length = size) {l : List α}
    (hl : l.length = size * k) : (List.ofFn f).flatten = l ↔ ∀ i : Fin k, f i = (l.drop (size * i)).take size := by
  refine ⟨fun h i => ?_, fun h => ?_⟩
  · rw [← h, ← List.append_nil (List.ofFn f).flatten, slice_flatten_ofFn hf]
  · rw [show f = fun i : Fin k => (l.drop (size * i)).take size from funext h, flatten_slices hl]

/-! ## Constructors that run a stateful step for each element -/

/-- An invariant that every step keeps, with what the step yields, holds of the whole run. -/
theorem ofFnM_state {σ : Type} {n : Nat} (step : Fin n → StateM σ α) (I : Nat → σ → Prop) (Post : Fin n → α → Prop)
    (hstep : ∀ i s, I i.val s → Post i (step i s).1 ∧ I (i.val + 1) (step i s).2) (s : σ) (h : I 0 s) :
    (∀ i : Fin n, Post i (Vector.ofFnM step s).1[i]) ∧ I n (Vector.ofFnM step s).2 := by
  induction n with
  | zero => exact ⟨fun i => i.elim0, by rw [Vector.ofFnM_zero]; exact h⟩
  | succ n ih =>
    obtain ⟨ih1, ih2⟩ := ih (fun i => step i.castSucc) (fun i => Post i.castSucc) fun i s => hstep i.castSucc s
    obtain ⟨h1, h2⟩ := hstep (Fin.last n) _ ih2
    have hrun : Vector.ofFnM step s =
        ((Vector.ofFnM (fun i => step i.castSucc) s).1.push
          (step (Fin.last n) (Vector.ofFnM (fun i => step i.castSucc) s).2).1,
          (step (Fin.last n) (Vector.ofFnM (fun i => step i.castSucc) s).2).2) := by
      rw [Vector.ofFnM_succ]
      rfl
    rw [hrun]
    refine ⟨fun i => ?_, h2⟩
    by_cases hi : i.val < n
    · rw [getElem_fin, Vector.getElem_push_lt hi]
      exact ih1 ⟨i, hi⟩
    · have hlast : i = Fin.last n := Fin.ext (by rw [Fin.val_last]; omega)
      subst hlast
      rw [getElem_fin]
      simp only [Fin.val_last, Vector.getElem_push_eq]
      exact h1

/-- Appending the last step to a run that may fail. -/
theorem ofFnM_stateT_succ {σ : Type} {n : Nat} (step : Fin (n + 1) → StateT σ Option α) (s : σ) :
    Vector.ofFnM step s = (Vector.ofFnM (fun i => step i.castSucc) s).bind fun r =>
      (step (Fin.last n) r.2).map fun q => (r.1.push q.1, q.2) := by
  rw [Vector.ofFnM_succ]
  show (Vector.ofFnM (fun i => step i.castSucc) s).bind _ = _
  refine congrArg (Option.bind _) (funext fun r => ?_)
  show (step (Fin.last n) r.2).bind _ = _
  cases step (Fin.last n) r.2 <;> rfl

/-- The same for steps that may fail: the invariant holds of every run that succeeds. -/
theorem ofFnM_stateT {σ : Type} {n : Nat} (step : Fin n → StateT σ Option α) (I : Nat → σ → Prop) (Post : Fin n → α → Prop)
    (hstep : ∀ i s a s', I i.val s → step i s = some (a, s') → Post i a ∧ I (i.val + 1) s') {s s' : σ} {v : Vector α n}
    (h : I 0 s) (hrun : Vector.ofFnM step s = some (v, s')) : (∀ i : Fin n, Post i v[i]) ∧ I n s' := by
  induction n generalizing s' with
  | zero =>
    rw [Vector.ofFnM_zero] at hrun
    obtain ⟨rfl, rfl⟩ := Prod.mk.inj (Option.some.inj hrun)
    exact ⟨fun i => i.elim0, h⟩
  | succ n ih =>
    rw [ofFnM_stateT_succ] at hrun
    obtain ⟨⟨w, s1⟩, hw, hrest⟩ := Option.bind_eq_some_iff.mp hrun
    obtain ⟨⟨a, s2⟩, ha, heq⟩ := Option.map_eq_some_iff.mp hrest
    obtain ⟨rfl, rfl⟩ := Prod.mk.inj heq
    obtain ⟨ih1, ih2⟩ := ih (fun i => step i.castSucc) (fun i => Post i.castSucc) (fun i => hstep i.castSucc) hw
    obtain ⟨h1, h2⟩ := hstep (Fin.last n) s1 a s2 ih2 ha
    refine ⟨fun i => ?_, h2⟩
    by_cases hi : i.val < n
    · rw [getElem_fin, Vector.getElem_push_lt hi]
      exact ih1 ⟨i, hi⟩
    · have hlast : i = Fin.last n := Fin.ext (by rw [Fin.val_last]; omega)
      subst hlast
      rw [getElem_fin]
      simp only [Fin.val_last, Vector.getElem_push_eq]
      exact h1

/-- A run succeeds when the invariant lets every step succeed. -/
theorem ofFnM_stateT_total {σ : Type} {n : Nat} (step : Fin n → StateT σ Option α) (I : Nat → σ → Prop)
    (hstep : ∀ i s, I i.val s → ∃ a s', step i s = some (a, s') ∧ I (i.val + 1) s') (s : σ) (h : I 0 s) :
    ∃ v s', Vector.ofFnM step s = some (v, s') ∧ I n s' := by
  induction n with
  | zero => exact ⟨#v[], s, by rw [Vector.ofFnM_zero]; rfl, h⟩
  | succ n ih =>
    obtain ⟨v, s1, hv, h1⟩ := ih (fun i => step i.castSucc) fun i => hstep i.castSucc
    obtain ⟨a, s2, ha, h2⟩ := hstep (Fin.last n) s1 h1
    exact ⟨v.push a, s2, by rw [ofFnM_stateT_succ, hv, Option.bind_some, ha]; rfl, h2⟩

/-- A run over a state with more in it, when every step is the other run's step on what counts. -/
theorem ofFnM_stateT_erase {σ τ : Type} {n : Nat} {step : Fin n → StateT σ Option α} {step' : Fin n → StateT τ Option α}
    (erase : σ → τ) (h : ∀ i s, (step i s).map (fun r => (r.1, erase r.2)) = step' i (erase s)) (s : σ) :
    (Vector.ofFnM step s).map (fun r => (r.1, erase r.2)) = Vector.ofFnM step' (erase s) := by
  induction n with
  | zero =>
    rw [Vector.ofFnM_zero, Vector.ofFnM_zero]
    rfl
  | succ n ih =>
    rw [ofFnM_stateT_succ, ofFnM_stateT_succ, ← ih fun i => h i.castSucc]
    cases Vector.ofFnM (fun i : Fin n => step i.castSucc) s with
    | none => rfl
    | some r =>
      rw [Option.bind_some, Option.map_some, Option.bind_some, ← h (Fin.last n) r.2]
      cases step (Fin.last n) r.2 <;> rfl

/-- A constructor whose every element succeeds. -/
theorem ofFnM_eq_some {n : Nat} {step : Fin n → Option α} {v : Vector α n} (h : ∀ i : Fin n, step i = some v[i]) :
    Vector.ofFnM step = some v := by
  rw [show step = fun i : Fin n => pure v[i] from funext h, Vector.ofFnM_pure]
  exact congrArg some (Vector.ext fun i hi => Vector.getElem_ofFn hi)

/-- A run whose every step succeeds with the outcome of a step that cannot fail. -/
theorem ofFnM_stateT_pure {σ : Type} {n : Nat} {step : Fin n → StateT σ Option α} {step' : Fin n → StateM σ α}
    (h : ∀ i s, step i s = some (step' i s)) (s : σ) : Vector.ofFnM step s = some (Vector.ofFnM step' s) := by
  induction n with
  | zero =>
    rw [Vector.ofFnM_zero, Vector.ofFnM_zero]
    rfl
  | succ n ih =>
    rw [ofFnM_stateT_succ, ih fun i => h i.castSucc, Option.bind_some, h, Vector.ofFnM_succ]
    rfl

end Loops
