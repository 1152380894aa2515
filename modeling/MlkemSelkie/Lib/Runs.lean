import MlkemSelkie.Lib.Loops

/-!
# Runs that may stop short of a value

A run comes to a value, or it panics, or it never ends, or it takes a fallback that is meant to be unreachable. The
operations of a systems language that panic are here with one lemma each that says when they do not: assertions,
unsigned arithmetic with its overflow checked, indices, splits of a slice, copies between slices of one length, chunks.
The loops that run them have one rule each: a loop whose passes come to values comes to the value of the loop that
cannot stop.
-/

namespace Runs

variable {α β σ : Type}

/-- Why a run comes to no value. -/
inductive Stop where
  | panic | endless | fallback
  deriving DecidableEq, Repr

/-- The outcome of a run. -/
abbrev Run (α : Type) : Type := Except Stop α

/-- Going on after a value. The proof is not by computation, so that rewriting with it never makes the kernel run what
follows. -/
theorem ok_bind (x : α) (f : α → Run β) : ((Except.ok x : Run α) >>= f) = f x := by
  cases h : f x <;> simp only [Bind.bind, Except.bind, h]

/-- A value without an effect is a run that comes to it. -/
theorem pure_eq (x : α) : (pure x : Run α) = .ok x := rfl

/-! ## Operations that stop -/

/-- An optional value, and why the run stops where there is none. -/
def lift (stop : Stop) : Option α → Run α
  | some x => .ok x
  | none => .error stop

/-- A value is no stop. -/
@[simp] theorem lift_some (stop : Stop) (x : α) : lift stop (some x) = .ok x := rfl

/-- `assert!`. -/
def assert (p : Prop) [Decidable p] : Run Unit := if p then .ok () else .error .panic

/-- An unsigned result that has to stay below a bound. -/
def below (bound x : Nat) : Run Nat := if x < bound then .ok x else .error .panic

/-- An unsigned difference. -/
def sub (x y : Nat) : Run Nat := if y ≤ x then .ok (x - y) else .error .panic

/-- `v[i]`. -/
def readAt {n : Nat} (v : Vector α n) (i : Nat) : Run α := lift .panic v[i]?

/-- `v[i] = x`. -/
def writeAt {n : Nat} (v : Vector α n) (i : Nat) (x : α) : Run (Vector α n) :=
  if i < n then .ok (v.set! i x) else .error .panic

/-- `split_at`. -/
def splitAt (mid : Nat) (l : List α) : Run (List α × List α) :=
  if mid ≤ l.length then .ok (l.take mid, l.drop mid) else .error .panic

/-- `copy_from_slice`: the slice after the copy. -/
def copyFromSlice (slice source : List α) : Run (List α) :=
  if slice.length = source.length then .ok source else .error .panic

/-- An array after `copy_from_slice`, or the array a slice is converted to. -/
def copyIntoArray [Inhabited α] (n : Nat) (source : List α) : Run (Vector α n) :=
  if source.length = n then .ok (Loops.arrayOf n source) else .error .panic

/-- A buffer assembled from two parts: split behind the first, each half copied over. -/
def assemble (buffer left right : List α) (mid : Nat) : Run (List α) := do
  let (head, last) ← splitAt mid buffer
  let head ← copyFromSlice head left
  let last ← copyFromSlice last right
  return head ++ last

/-- `step_by`. -/
def stepBy (stop step : Nat) : Run (List Nat) :=
  if step = 0 then .error .panic else .ok (Loops.stepBy stop step)

/-- `chunks_exact`. -/
def chunksExact (size : Nat) (l : List α) : Run (List (List α)) :=
  if size = 0 then .error .panic else .ok (Loops.chunksExact size l)

/-- `ChunksExact::remainder`. -/
def remainder (size : Nat) (l : List α) : List α := l.drop (size * (l.length / size))

/-- `next` of an iterator that is meant to have another element. -/
def next : StateT (List α) Run α
  | x :: xs => .ok (x, xs)
  | [] => .error .fallback

/-- An array built by a closure that takes the iterator's next element each time. -/
def fromNext (n : Nat) (body : α → Run β) (iter : List α) : Run (Vector β n) := do
  let (elements, _) ← Vector.ofFnM (m := StateT (List α) Run) (fun _ : Fin n => do body (← next)) iter
  return elements

/-- The slice after the loop over `xs.zip(slice.chunks_exact_mut(size))` whose body rewrites each chunk; the loop ends
with the shorter of the two. -/
def zipChunksMut (size : Nat) (body : β → List α → Run (List α)) : List β → List α → Run (List α)
  | [], l => if size = 0 then .error .panic else .ok l
  | x :: xs, l =>
    if size = 0 then .error .panic
    else if l.length < size then .ok l
    else do
      let chunk ← body x (l.take size)
      return chunk ++ (← zipChunksMut size body xs (l.drop size))

/-- The state a `while` loop leaves whose pass may stop. -/
def runWhile (test : σ → Bool) (pass : σ → Run σ) (s : σ) : Run σ :=
  let loop : Loops.While (Run σ) :=
    { test := fun r => match r with
        | .ok s => test s
        | .error _ => false,
      pass := fun r => r >>= pass }
  match loop.run (.ok s) with
  | some r => r
  | none => .error .endless

/-! ## When they do not -/

section
variable {p : Prop} [Decidable p]

/-- A check that holds does not stop. -/
theorem lift_check (h : p) (stop : Stop) (x : α) : lift stop (if p then some x else none) = .ok x := by
  rw [if_pos h]
  rfl

/-- An assertion that holds passes. -/
theorem assert_ok (h : p) : assert p = .ok () := if_pos h

end

/-- An index below the bound passes. -/
theorem below_ok {bound x : Nat} (h : x < bound) : below bound x = .ok x := if_pos h

/-- A subtraction that does not underflow. -/
theorem sub_ok {x y : Nat} (h : y ≤ x) : sub x y = .ok (x - y) := if_pos h

/-- Reading inside a vector. -/
theorem readAt_ok [Inhabited α] {n : Nat} (v : Vector α n) {i : Nat} (h : i < n) : readAt v i = .ok v[i]! := by
  rw [readAt, Vector.getElem?_eq_getElem h, getElem!_pos v i h]
  rfl

/-- Reading at an index of the type of the vector. -/
theorem readAt_fin {n : Nat} (v : Vector α n) (i : Fin n) : readAt v i.val = .ok v[i] := by
  rw [readAt, Vector.getElem?_eq_getElem i.isLt]
  rfl

/-- Writing inside a vector. -/
theorem writeAt_ok {n : Nat} (v : Vector α n) {i : Nat} (h : i < n) (x : α) : writeAt v i x = .ok (v.set! i x) := if_pos h

/-- Splitting a slice inside it. -/
theorem splitAt_ok {mid : Nat} {l : List α} (h : mid ≤ l.length) : splitAt mid l = .ok (l.take mid, l.drop mid) := if_pos h

/-- Splitting where two slices were joined. -/
theorem splitAt_append {l r : List α} {mid : Nat} (h : l.length = mid) : splitAt mid (l ++ r) = .ok (l, r) := by
  rw [splitAt_ok (by rw [List.length_append]; omega), List.take_left' h, List.drop_left' h]

/-- Copying between slices of one length. -/
theorem copyFromSlice_ok {slice source : List α} (h : slice.length = source.length) :
    copyFromSlice slice source = .ok source := if_pos h

/-- The two parts of a buffer that holds one value throughout. -/
theorem splitAt_replicate {n mid : Nat} (h : mid ≤ n) (x : α) :
    splitAt mid (List.replicate n x) = .ok (List.replicate mid x, List.replicate (n - mid) x) := by
  rw [splitAt_ok (by rw [List.length_replicate]; exact h), List.take_replicate, Nat.min_eq_left h, List.drop_replicate]

/-- Copying into a fresh slice of the length of the source. -/
theorem copyFromSlice_replicate {n : Nat} {source : List α} (h : source.length = n) (x : α) :
    copyFromSlice (List.replicate n x) source = .ok source := copyFromSlice_ok (by rw [List.length_replicate, h])

/-- Copying into an array of the length of the source. -/
theorem copyIntoArray_ok [Inhabited α] {n : Nat} {source : List α} (h : source.length = n) :
    copyIntoArray n source = .ok (Loops.arrayOf n source) := if_pos h

/-- Copying an array into an array. -/
theorem copyIntoArray_toList [Inhabited α] {n : Nat} (v : Vector α n) : copyIntoArray n v.toList = .ok v := by
  rw [copyIntoArray_ok Vector.length_toList, Loops.arrayOf_toList]

/-- Two parts that fill a buffer are its contents. -/
theorem assemble_ok {buffer left right : List α} {mid : Nat} (hleft : left.length = mid)
    (hbuffer : buffer.length = left.length + right.length) : assemble buffer left right mid = .ok (left ++ right) := by
  rw [assemble, splitAt_ok (by omega), ok_bind]
  simp only []
  rw [copyFromSlice_ok (by rw [List.length_take]; omega), ok_bind, copyFromSlice_ok (by rw [List.length_drop]; omega),
    ok_bind, pure_eq]

/-- A step that is not zero. -/
theorem stepBy_ok {stop step : Nat} (h : 0 < step) : stepBy stop step = .ok (Loops.stepBy stop step) :=
  if_neg (Nat.pos_iff_ne_zero.mp h)

/-- A chunk size that is not zero. -/
theorem chunksExact_ok {size : Nat} (h : 0 < size) (l : List α) : chunksExact size l = .ok (Loops.chunksExact size l) :=
  if_neg (Nat.pos_iff_ne_zero.mp h)

/-- Every chunk has the chunk size. -/
theorem length_of_mem_chunksExact {size : Nat} {l chunk : List α} (h : chunk ∈ Loops.chunksExact size l) :
    chunk.length = size := by
  obtain ⟨i, hi, rfl⟩ := List.mem_map.mp h
  have hle := Nat.mul_le_mul_left size (Nat.succ_le_of_lt (List.mem_range.mp hi))
  have hdiv := Nat.mul_div_le l.length size
  rw [Nat.mul_succ] at hle
  rw [List.length_take, List.length_drop]
  omega

/-- A slice is its whole chunks and the remainder. -/
theorem chunksExact_append_remainder (size : Nat) (l : List α) :
    (Loops.chunksExact size l).flatten ++ remainder size l = l := by
  have hlen : (l.take (size * (l.length / size))).length = size * (l.length / size) := by
    rw [List.length_take]
    exact Nat.min_eq_left (Nat.mul_div_le l.length size)
  have hchunks : Loops.chunksExact size l =
      List.ofFn fun i : Fin (l.length / size) => ((l.take (size * (l.length / size))).drop (size * i)).take size := by
    refine List.ext_getElem (by rw [Loops.chunksExact, List.length_map, List.length_range, List.length_ofFn])
      fun i h1 h2 => ?_
    have hi : i < l.length / size := by rwa [List.length_ofFn] at h2
    have hle := Nat.mul_le_mul_left size (Nat.succ_le_of_lt hi)
    rw [Nat.mul_succ] at hle
    simp only [Loops.chunksExact, List.getElem_map, List.getElem_range, List.getElem_ofFn]
    rw [List.drop_take, List.take_take, Nat.min_eq_left (by omega)]
  rw [hchunks, Loops.flatten_slices hlen, remainder, List.take_append_drop]

/-- Chunks written one after the other in a slice they fill from the start. -/
theorem zipChunksMut_ok {size : Nat} (hsize : 0 < size) {f : β → List α → Run (List α)} {g : β → List α} {xs : List β}
    (hbody : ∀ x ∈ xs, ∀ chunk, chunk.length = size → f x chunk = .ok (g x)) {l : List α}
    (hl : size * xs.length ≤ l.length) :
    zipChunksMut size f xs l = .ok ((xs.map g).flatten ++ l.drop (size * xs.length)) := by
  induction xs generalizing l with
  | nil =>
    rw [zipChunksMut, if_neg (Nat.pos_iff_ne_zero.mp hsize)]
    rfl
  | cons x xs ih =>
    rw [List.length_cons, Nat.mul_succ] at hl
    have hchunk := hbody x List.mem_cons_self (l.take size) (by rw [List.length_take]; omega)
    have hrest := ih (fun y hy => hbody y (List.mem_cons_of_mem x hy)) (l := l.drop size) (by rw [List.length_drop]; omega)
    rw [zipChunksMut, if_neg (Nat.pos_iff_ne_zero.mp hsize), if_neg (by omega), hchunk, ok_bind, hrest, ok_bind, pure_eq,
      List.map_cons, List.flatten_cons, List.append_assoc, List.drop_drop, List.length_cons, Nat.mul_succ, Nat.add_comm]

/-- A buffer filled chunk by chunk. -/
theorem zipChunksMut_replicate {size : Nat} (hsize : 0 < size) {f : β → List α → Run (List α)} {g : β → List α} {xs : List β}
    (hbody : ∀ x ∈ xs, ∀ chunk, chunk.length = size → f x chunk = .ok (g x)) {n : Nat} (hn : n = size * xs.length) (x : α) :
    zipChunksMut size f xs (List.replicate n x) = .ok (xs.map g).flatten := by
  rw [zipChunksMut_ok hsize hbody (by rw [List.length_replicate, hn]), hn, List.drop_replicate, Nat.sub_self,
    List.replicate_zero, List.append_nil]

/-- Steps that come to values, one for each element. -/
theorem mapM_ok {f : α → Run β} {g : α → β} {l : List α} (h : ∀ x ∈ l, f x = .ok (g x)) : l.mapM f = .ok (l.map g) := by
  induction l with
  | nil => rfl
  | cons x l ih =>
    rw [List.mapM_cons, h x List.mem_cons_self, ok_bind, ih fun y hy => h y (List.mem_cons_of_mem x hy), ok_bind]
    rfl

/-- Going on after an optional value with steps that stop only where another option has no value. -/
theorem lift_bind {stop : Stop} {o : Option α} {f : α → Run β} {g : α → Option β}
    (h : ∀ x, o = some x → f x = lift stop (g x)) :
    (lift stop o >>= f) = lift stop (o.bind g) := by
  cases o with
  | none => rfl
  | some x =>
    rw [lift_some, ok_bind, Option.bind_some]
    exact h x rfl

/-- The same with steps that come to values. -/
theorem lift_map {stop : Stop} {o : Option α} {f : α → Run β} {g : α → β} (h : ∀ x, o = some x → f x = .ok (g x)) :
    (lift stop o >>= f) = lift stop (o.map g) := by
  rw [lift_bind (g := fun x => some (g x)) h]
  cases o <;> rfl

/-- The elements of equal blocks one after the other. -/
theorem flatten_blocks_getElem? {size : Nat} (hsize : 0 < size) {block : β → List α} (hblock : ∀ x, (block x).length = size)
    (xs : List β) (i : Nat) : (xs.map block).flatten[i]? = xs[i / size]?.bind fun x => (block x)[i % size]? := by
  induction xs generalizing i with
  | nil => rfl
  | cons x xs ih =>
    rw [List.map_cons, List.flatten_cons]
    by_cases hi : i < size
    · rw [List.getElem?_append_left (by rw [hblock]; exact hi), Nat.div_eq_of_lt hi, Nat.mod_eq_of_lt hi]
      rfl
    · have hsub : i / size = (i - size) / size + 1 := Nat.div_eq_sub_div hsize (Nat.not_lt.mp hi)
      rw [List.getElem?_append_right (by rw [hblock]; exact Nat.not_lt.mp hi), hblock, ih, hsub, List.getElem?_cons_succ,
        Nat.mod_eq_sub_mod (Nat.not_lt.mp hi)]

/-! ## Loops -/

/-- A loop whose passes come to values follows a loop that cannot stop, as long as the passes left keep the states
related. -/
theorem foldlM_follows {τ : Type} {f : σ → α → Run σ} {g : τ → α → τ} {R : Nat → σ → τ → Prop} {l : List α}
    (h : ∀ k s t, R (k + 1) s t → ∀ x ∈ l, ∃ s', f s x = .ok s' ∧ R k s' (g t x)) {s : σ} {t : τ} (hs : R l.length s t) :
    ∃ s', l.foldlM f s = .ok s' ∧ R 0 s' (l.foldl g t) := by
  induction l generalizing s t with
  | nil => exact ⟨s, rfl, hs⟩
  | cons x l ih =>
    obtain ⟨s', hx, hR⟩ := h l.length s t hs x List.mem_cons_self
    rw [List.foldlM_cons, hx, ok_bind, List.foldl_cons]
    exact ih (fun k s t hs y hy => h k s t hs y (List.mem_cons_of_mem x hy)) hR

/-- The same of two loops over one state, under an invariant on it and the passes left. -/
theorem foldlM_ok {f : σ → α → Run σ} {g : σ → α → σ} {I : Nat → σ → Prop} {l : List α}
    (h : ∀ k s, I (k + 1) s → ∀ x ∈ l, f s x = .ok (g s x) ∧ I k (g s x)) {s : σ} (hs : I l.length s) :
    l.foldlM f s = .ok (l.foldl g s) ∧ I 0 (l.foldl g s) := by
  have hfollows : ∃ s', l.foldlM f s = .ok s' ∧ s' = l.foldl g s ∧ I 0 (l.foldl g s) :=
    foldlM_follows (R := fun k s t => s = t ∧ I k t) (fun k s t hst x hx => by
      obtain ⟨rfl, hI⟩ := hst
      exact ⟨g s x, (h k s hI x hx).1, rfl, (h k s hI x hx).2⟩) ⟨rfl, hs⟩
  obtain ⟨s', hrun, rfl, hI⟩ := hfollows
  exact ⟨hrun, hI⟩

/-- A loop that fills an array, each pass writing some of the positions. -/
theorem fill_ok {n m : Nat} {pass : Vector α n → Nat → Run (Vector α n)} {f : Fin n → α} (writes : Nat → Fin n → Prop)
    (hpass : ∀ i < m, ∀ out, ∃ out', pass out i = .ok out' ∧
      ∀ k : Fin n, (writes i k → out'[k] = f k) ∧ (¬writes i k → out'[k] = out[k]))
    (hcover : ∀ k, ∃ i < m, writes i k) (out : Vector α n) :
    (List.range m).foldlM pass out = .ok (Vector.ofFn f) := by
  have hrun : ∀ t ≤ m, ∃ out', (List.range t).foldlM pass out = .ok out' ∧ ∀ k : Fin n,
    (∃ i < t, writes i k) → out'[k] = f k := by
    intro t
    induction t with
    | zero => exact fun _ => ⟨out, rfl, fun k h => absurd h.choose_spec.1 (Nat.not_lt_zero _)⟩
    | succ t ih =>
      intro ht
      obtain ⟨out₁, hrun₁, hout₁⟩ := ih (Nat.le_of_succ_le ht)
      obtain ⟨out₂, hpass₂, hout₂⟩ := hpass t ht out₁
      refine ⟨out₂, ?_, fun k hk => ?_⟩
      · rw [List.range_succ, List.foldlM_append, hrun₁, ok_bind, List.foldlM_cons, hpass₂, ok_bind]
        rfl
      · by_cases hw : writes t k
        · exact (hout₂ k).1 hw
        · obtain ⟨i, hi, hwi⟩ := hk
          have hne : i ≠ t := fun h => hw (h ▸ hwi)
          rw [(hout₂ k).2 hw]
          exact hout₁ k ⟨i, by omega, hwi⟩
  obtain ⟨out', hrun', hout'⟩ := hrun m (Nat.le_refl m)
  rw [hrun']
  exact congrArg Except.ok (Vector.ext fun i hi => by
    rw [Vector.getElem_ofFn]
    exact hout' ⟨i, hi⟩ (hcover ⟨i, hi⟩))

/-- The same where each pass writes two positions. -/
theorem fill_pairs_ok {n m : Nat} {pass : Vector α n → Nat → Run (Vector α n)} {f : Fin n → α} (low high : Nat → Nat)
    {x y : Nat → α} (hpass : ∀ i < m, ∀ out, pass out i = .ok ((out.set! (low i) (x i)).set! (high i) (y i)))
    (hlow : ∀ i < m, ∀ k : Fin n, k.val = low i → f k = x i) (hhigh : ∀ i < m, ∀ k : Fin n, k.val = high i → f k = y i)
    (hcover : ∀ k : Fin n, ∃ i < m, k.val = low i ∨ k.val = high i) (out : Vector α n) :
    (List.range m).foldlM pass out = .ok (Vector.ofFn f) := by
  refine fill_ok (fun i k => k.val = low i ∨ k.val = high i)
    (fun i hi out => ⟨_, hpass i hi out, fun k => ⟨fun hk => ?_, fun hk => ?_⟩⟩)
    hcover out
  · rw [Loops.getElem_fin, Vector.set!_eq_setIfInBounds, Vector.getElem_setIfInBounds]
    by_cases hhi : high i = k.val
    · rw [if_pos hhi, hhigh i hi k hhi.symm]
    · have hlo : k.val = low i := hk.resolve_right fun h => hhi h.symm
      rw [if_neg hhi, Vector.set!_eq_setIfInBounds, Vector.getElem_setIfInBounds, if_pos hlo.symm, hlow i hi k hlo]
  · rw [Loops.getElem_fin, Vector.set!_eq_setIfInBounds, Vector.getElem_setIfInBounds, if_neg fun h => hk (Or.inr h.symm),
      Vector.set!_eq_setIfInBounds, Vector.getElem_setIfInBounds, if_neg fun h => hk (Or.inl h.symm)]
    rfl

/-- A `while` loop whose passes come to values, under an invariant they keep. -/
theorem runWhile_ok {t : σ → Bool} {p : σ → Run σ} {L : Loops.While σ} {I : σ → Prop}
    (htest : ∀ s, I s → t s = L.test s)
    (hpass : ∀ s, I s → t s = true → p s = .ok (L.pass s) ∧ I (L.pass s)) {s : σ} (hs : I s) :
    runWhile t p s = lift .endless (L.run s) := by
  have hrelated : Option.Rel (fun (r : Run σ) s => r = .ok s ∧ I s)
      (Loops.While.run { test := fun r => match r with
        | .ok s => t s
        | .error _ => false, pass := fun r => r >>= p } (.ok s)) (L.run s) := by
    refine Loops.While.run_related ?_ ?_ ⟨rfl, hs⟩
    · rintro _ s ⟨rfl, h⟩
      exact htest s h
    · rintro _ s ⟨rfl, h⟩ htested
      show (Except.ok s >>= p) = _ ∧ _
      rw [ok_bind]
      exact hpass s h htested
  rw [runWhile]
  generalize Loops.While.run _ (Except.ok s) = o at hrelated ⊢
  generalize L.run s = o' at hrelated ⊢
  cases hrelated with
  | none => rfl
  | some h => exact h.1

/-! ## Constructors -/

/-- A constructor whose elements come to values. -/
theorem ofFnM_ok {n : Nat} {step : Fin n → Run α} {f : Fin n → α} (h : ∀ i, step i = .ok (f i)) :
    Vector.ofFnM step = .ok (Vector.ofFn f) := by
  rw [show step = fun i => pure (f i) from funext h, Vector.ofFnM_pure]
  rfl

/-- A constructor that rewrites the elements of an array. -/
theorem ofFnM_map {n : Nat} (v : Vector β n) {f : β → Run α} {g : β → α} (h : ∀ x, f x = .ok (g x)) :
    (Vector.ofFnM fun i : Fin n => f v[i]) = .ok (v.map g) := by
  rw [ofFnM_ok fun i : Fin n => h v[i]]
  exact congrArg Except.ok (Vector.ext fun i hi => by rw [Vector.getElem_ofFn, Vector.getElem_map, Loops.getElem_fin])

/-- One more step of a sequence of steps runs last. -/
theorem ofFnM_succ {n : Nat} (step : Fin (n + 1) → StateT σ Run α) (s : σ) :
    Vector.ofFnM step s = (Vector.ofFnM (fun i => step i.castSucc) s >>= fun r =>
      step (Fin.last n) r.2 >>= fun q => pure (r.1.push q.1, q.2)) := by
  rw [Vector.ofFnM_succ]
  rfl

/-- A constructor that runs a stateful step for each element follows one that cannot stop. -/
theorem ofFnM_follows {τ : Type} {n : Nat} {f : Fin n → StateT σ Run α} {g : Fin n → StateM τ α} {R : Nat → σ → τ → Prop}
    (hstep : ∀ i s t, R i.val s t → ∃ s', f i s = .ok ((g i t).1, s') ∧ R (i.val + 1) s' (g i t).2) {s : σ} {t : τ}
    (hs : R 0 s t) : ∃ s', Vector.ofFnM f s = .ok ((Vector.ofFnM g t).1, s') ∧ R n s' (Vector.ofFnM g t).2 := by
  induction n with
  | zero =>
    rw [Vector.ofFnM_zero, Vector.ofFnM_zero]
    exact ⟨s, rfl, hs⟩
  | succ n ih =>
    obtain ⟨s₁, hrun, hR⟩ := ih (g := fun i => g i.castSucc) fun i => hstep i.castSucc
    obtain ⟨s₂, hlast, hR'⟩ := hstep (Fin.last n) _ _ hR
    rw [ofFnM_succ, hrun, ok_bind, hlast, ok_bind, Vector.ofFnM_succ]
    exact ⟨s₂, rfl, hR'⟩

/-- The same over one state, under an invariant the steps keep. -/
theorem ofFnM_state {n : Nat} {f : Fin n → StateT σ Run α} {g : Fin n → StateM σ α} {I : Nat → σ → Prop}
    (hstep : ∀ i s, I i.val s → f i s = .ok (g i s) ∧ I (i.val + 1) (g i s).2) {s : σ} (hs : I 0 s) :
    Vector.ofFnM f s = .ok (Vector.ofFnM g s) ∧ I n (Vector.ofFnM g s).2 := by
  have hfollows : ∃ s', Vector.ofFnM f s = .ok ((Vector.ofFnM g s).1, s') ∧
      s' = (Vector.ofFnM g s).2 ∧ I n (Vector.ofFnM g s).2 :=
    ofFnM_follows (R := fun k s t => s = t ∧ I k t) (fun i s t hst => by
      obtain ⟨rfl, hI⟩ := hst
      exact ⟨(g i s).2, (hstep i s hI).1, rfl, (hstep i s hI).2⟩) ⟨rfl, hs⟩
  obtain ⟨s', hrun, rfl, hI⟩ := hfollows
  exact ⟨hrun, hI⟩

/-- The same against steps that may have no outcome, which stops the run. -/
theorem ofFnM_lift {n : Nat} {e : Stop} {f : Fin n → StateT σ Run α} {g : Fin n → StateT σ Option α} {I : Nat → σ → Prop}
    (hstep : ∀ i s, I i.val s →
      f i s = lift e (g i s) ∧ ∀ a s', g i s = some (a, s') → I (i.val + 1) s') {s : σ} (hs : I 0 s) :
    Vector.ofFnM f s = lift e (Vector.ofFnM g s) ∧ ∀ v s', Vector.ofFnM g s = some (v, s') → I n s' := by
  induction n with
  | zero =>
    rw [Vector.ofFnM_zero, Vector.ofFnM_zero]
    exact ⟨rfl, fun v s' h => (Prod.mk.inj (Option.some.inj h)).2 ▸ hs⟩
  | succ n ih =>
    obtain ⟨hrun, hI⟩ := ih (g := fun i => g i.castSucc) fun i => hstep i.castSucc
    rw [ofFnM_succ, hrun, Loops.ofFnM_stateT_succ]
    cases hinit : Vector.ofFnM (fun i => g i.castSucc) s with
    | none => exact ⟨rfl, fun v s' h => by rw [Option.bind_none] at h; cases h⟩
    | some r =>
      obtain ⟨hlast, hI'⟩ := hstep (Fin.last n) r.2 (hI r.1 r.2 hinit)
      rw [lift_some, ok_bind, hlast, Option.bind_some]
      cases hq : g (Fin.last n) r.2 with
      | none => exact ⟨rfl, fun v s' h => by rw [Option.map_none] at h; cases h⟩
      | some q =>
        refine ⟨rfl, fun v s' h => ?_⟩
        rw [Option.map_some] at h
        exact (Prod.mk.inj (Option.some.inj h)).2 ▸ hI' q.1 q.2 hq

/-- An iterator with enough elements. -/
theorem fromNext_ok [Inhabited α] {n : Nat} {body : α → Run β} {f : α → β} {iter : List α} (hn : n ≤ iter.length)
    (h : ∀ x ∈ iter, body x = .ok (f x)) : fromNext n body iter = .ok (Vector.ofFn fun i => f iter[i.val]!) := by
  have hrun : Vector.ofFnM (m := StateT (List α) Run) (fun _ : Fin n => do body (← next)) iter =
      .ok (Vector.ofFn fun i : Fin n => f iter[i.val]!, iter.drop n) := by
    induction n with
    | zero =>
      rw [Vector.ofFnM_zero]
      exact congrArg (fun v => Except.ok (v, iter)) (Vector.ext fun i hi => absurd hi (Nat.not_lt_zero i))
    | succ n ih =>
      have hlast : iter.drop n = iter[n]! :: iter.drop (n + 1) := by
        rw [getElem!_pos iter n hn, List.drop_eq_getElem_cons hn]
      have hmem : iter[n]! ∈ iter := by
        rw [getElem!_pos iter n hn]
        exact List.getElem_mem hn
      rw [ofFnM_succ, ih (Nat.le_of_succ_le hn), ok_bind, hlast]
      show (body iter[n]! >>= fun y => pure (y, iter.drop (n + 1))) >>= _ = _
      rw [h _ hmem, ok_bind, pure_eq, ok_bind, pure_eq, Vector.ofFn_succ]
      rfl
  rw [fromNext, hrun, ok_bind]
  rfl

end Runs
