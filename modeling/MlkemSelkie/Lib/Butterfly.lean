import MlkemSelkie.Lib.Loops
import Mathlib.Logic.Function.Iterate
import Mathlib.Tactic.Ring

/-!
# In-place butterfly stages

A stage of a fast transform walks an array block by block; in a block it replaces each entry `j` of the lower half and its
partner `j + len` by two values computed from the two. Every pair is touched once, so the loops compute a map: what a
position holds after the stage depends on the array before it alone. The step may depend on a counter that moves from block
to block (the index of a table of constants).
-/

namespace Butterfly

variable {α : Type} [Inhabited α] {n : Nat}

theorem getElem!_set! (cs : Vector α n) (j i : Nat) (v : α) (hi : i < n) :
    (cs.set! j v)[i]! = if j = i then v else cs[i]! := by
  rw [getElem!_pos _ i hi, getElem!_pos cs i hi]
  exact Vector.getElem_setIfInBounds hi

theorem ext_getElem! {cs d : Vector α n} (h : ∀ i < n, cs[i]! = d[i]!) : cs = d := by
  apply Vector.ext
  intro i hi
  have := h i hi
  rwa [getElem!_pos cs i hi, getElem!_pos d i hi] at this

/-- Replaces the entries at `j` and `j + len` by the two values of `f` on them. -/
def pair (f : α → α → α × α) (len : Nat) (cs : Vector α n) (j : Nat) : Vector α n :=
  (cs.set! (j + len) (f cs[j]! cs[j + len]!).2).set! j (f cs[j]! cs[j + len]!).1

/-- The pairs of one block, from `start`. -/
def block (f : α → α → α × α) (len start : Nat) (cs : Vector α n) : Vector α n :=
  (List.range' start len).foldl (pair f len) cs

/-- The blocks of one stage, each under the next value of the counter. -/
def stage (next : Nat → Nat) (f : Nat → α → α → α × α) (len : Nat) (s : Nat × Vector α n) : Nat × Vector α n :=
  (Loops.stepBy n (2 * len)).foldl (fun s start => (next s.1, block (f s.1) len start s.2)) s

/-- What the position `i` holds after a stage started at counter `k`. -/
def stageAt (next : Nat → Nat) (f : Nat → α → α → α × α) (len k : Nat) (cs : Vector α n) (i : Nat) : α :=
  if i % (2 * len) < len then (f (next^[i / (2 * len)] k) cs[i]! cs[i + len]!).1
  else (f (next^[i / (2 * len)] k) cs[i - len]! cs[i]!).2

theorem pair_getElem! (f : α → α → α × α) (len : Nat) (cs : Vector α n) (j i : Nat) (hi : i < n) :
    (pair f len cs j)[i]! = if i = j then (f cs[j]! cs[j + len]!).1
      else if i = j + len then (f cs[j]! cs[j + len]!).2 else cs[i]! := by
  simp only [pair, getElem!_set! _ _ i _ hi, eq_comm]

/-- Writing the upper entry of a pair keeps the lower one. -/
theorem getElem!_set!_upper {len : Nat} (hlen : 0 < len) (cs : Vector α n) (j : Nat) (v : α) :
    (cs.set! (j + len) v)[j]! = cs[j]! := by
  by_cases hj : j < n
  · rw [getElem!_set! _ _ _ _ hj, if_neg (by omega)]
  · rw [getElem!_neg _ j hj, getElem!_neg _ j hj]

/-- Writing the lower entry of a pair keeps the upper one. -/
theorem getElem!_set!_lower {len : Nat} (hlen : 0 < len) (cs : Vector α n) (j : Nat) (v : α) :
    (cs.set! j v)[j + len]! = cs[j + len]! := by
  by_cases hj : j + len < n
  · rw [getElem!_set! _ _ _ _ hj, if_neg (by omega)]
  · rw [getElem!_neg _ (j + len) hj, getElem!_neg _ (j + len) hj]

/-- A loop body that writes the upper entry first and reads the lower one again. -/
theorem pair_eq_upper_first (u l : α → α → α) (len : Nat) (hlen : 0 < len) (cs : Vector α n) (j : Nat) :
    (cs.set! (j + len) (u cs[j]! cs[j + len]!)).set! j (l (cs.set! (j + len) (u cs[j]! cs[j + len]!))[j]! cs[j + len]!) =
      pair (fun x y => (l x y, u x y)) len cs j := by
  rw [getElem!_set!_upper hlen]
  rfl

/-- A loop body that writes the lower entry first. -/
theorem pair_eq_lower_first (u l : α → α → α) (len : Nat) (hlen : 0 < len) (cs : Vector α n) (j : Nat) :
    (cs.set! j (l cs[j]! cs[j + len]!)).set! (j + len) (u cs[j]! (cs.set! j (l cs[j]! cs[j + len]!))[j + len]!) =
      pair (fun x y => (l x y, u x y)) len cs j := by
  rw [getElem!_set!_lower hlen]
  refine ext_getElem! fun i hi => ?_
  rw [pair_getElem! _ _ _ _ _ hi, getElem!_set! _ _ _ _ hi, getElem!_set! _ _ _ _ hi]
  by_cases h1 : i = j
  · subst h1
    rw [if_neg (by omega), if_pos rfl, if_pos rfl]
  · rw [if_neg (Ne.symm h1), if_neg h1]
    by_cases h2 : i = j + len
    · rw [if_pos h2.symm, if_pos h2]
    · rw [if_neg (Ne.symm h2), if_neg h2]

/-- After `m` pairs of a block: the positions of those pairs are replaced, the others stand. -/
theorem block_prefix_getElem! (f : α → α → α × α) (len start : Nat) (cs : Vector α n) :
    ∀ m ≤ len, start + len + m ≤ n → ∀ i < n, ((List.range' start m).foldl (pair f len) cs)[i]! =
      if start ≤ i ∧ i < start + m then (f cs[i]! cs[i + len]!).1
      else if start + len ≤ i ∧ i < start + len + m then (f cs[i - len]! cs[i]!).2 else cs[i]! := by
  intro m
  induction m with
  | zero =>
    intro _ _ i _
    rw [if_neg (by omega), if_neg (by omega)]
    rfl
  | succ m ih =>
    intro hm hn i hi
    have hlo := ih (by omega) (by omega) (start + m) (by omega)
    have hhi := ih (by omega) (by omega) (start + m + len) (by omega)
    rw [if_neg (by omega), if_neg (by omega)] at hlo hhi
    rw [List.range'_1_concat, List.foldl_append, List.foldl_cons, List.foldl_nil, pair_getElem! _ _ _ _ _ hi, hlo, hhi,
      ih (by omega) (by omega) i hi]
    -- the position is the lower or the upper one of the new pair, or neither
    by_cases h1 : i = start + m
    · subst h1
      rw [if_pos rfl, if_pos ⟨by omega, by omega⟩]
    · rw [if_neg h1]
      by_cases h2 : i = start + m + len
      · subst h2
        have h3 : ¬(start ≤ start + m + len ∧ start + m + len < start + (m + 1)) := by omega
        rw [if_pos rfl, if_neg h3, if_pos ⟨by omega, by omega⟩, Nat.add_sub_cancel]
      · have h3 : (start ≤ i ∧ i < start + m) ↔ (start ≤ i ∧ i < start + (m + 1)) := by omega
        have h4 : (start + len ≤ i ∧ i < start + len + m) ↔ (start + len ≤ i ∧ i < start + len + (m + 1)) := by omega
        rw [if_neg h2]
        simp only [h3, h4]

theorem block_getElem! (f : α → α → α × α) (len start : Nat) (cs : Vector α n) (hn : start + 2 * len ≤ n) (i : Nat)
    (hi : i < n) : (block f len start cs)[i]! =
      if start ≤ i ∧ i < start + len then (f cs[i]! cs[i + len]!).1
      else if start + len ≤ i ∧ i < start + 2 * len then (f cs[i - len]! cs[i]!).2 else cs[i]! := by
  have h := block_prefix_getElem! f len start cs len (Nat.le_refl _) (by omega) i hi
  rw [show start + 2 * len = start + len + len by omega]
  exact h

/-- After `m` blocks of a stage: the counter has moved `m` times, and the positions below `m * 2 len` are replaced. -/
theorem stage_prefix (next : Nat → Nat) (f : Nat → α → α → α × α) (len k : Nat) (cs : Vector α n) (hlen : 0 < len) :
    ∀ m, m * (2 * len) ≤ n →
      ((List.range' 0 m (2 * len)).foldl (fun s start => (next s.1, block (f s.1) len start s.2)) (k, cs)).1 = next^[m] k ∧
      ∀ i < n, ((List.range' 0 m (2 * len)).foldl (fun s start => (next s.1, block (f s.1) len start s.2)) (k, cs)).2[i]! =
        if i < m * (2 * len) then stageAt next f len k cs i else cs[i]! := by
  intro m
  induction m with
  | zero =>
    intro _
    refine ⟨rfl, fun i _ => ?_⟩
    rw [if_neg (by omega)]
    rfl
  | succ m ih =>
    intro hm
    have hsucc : (m + 1) * (2 * len) = m * (2 * len) + 2 * len := Nat.succ_mul m (2 * len)
    have hstart : 0 + 2 * len * m = m * (2 * len) := by rw [Nat.zero_add, Nat.mul_comm]
    rw [hsucc] at hm ⊢
    obtain ⟨h1, h2⟩ := ih (by omega)
    rw [List.range'_concat, List.foldl_append, List.foldl_cons, List.foldl_nil, hstart]
    refine ⟨by rw [h1, Function.iterate_succ_apply'], fun i hi => ?_⟩
    rw [block_getElem! _ _ _ _ (by omega) i hi, h1]
    have hat : ∀ l < n, m * (2 * len) ≤ l →
        ((List.range' 0 m (2 * len)).foldl (fun s start => (next s.1, block (f s.1) len start s.2)) (k, cs)).2[l]! =
          cs[l]! := by
      intro l hl hge
      rw [h2 l hl, if_neg (by omega)]
    by_cases hlow : i < m * (2 * len)
    · have hout1 : ¬(m * (2 * len) ≤ i ∧ i < m * (2 * len) + len) := by omega
      have hout2 : ¬(m * (2 * len) + len ≤ i ∧ i < m * (2 * len) + 2 * len) := by omega
      rw [if_neg hout1, if_neg hout2, h2 i hi, if_pos hlow, if_pos (by omega)]
    · by_cases hin : i < m * (2 * len) + 2 * len
      · have hdiv : i / (2 * len) = m := Nat.div_eq_of_lt_le (by omega) (by omega)
        have hmod : i % (2 * len) = i - m * (2 * len) := by
          rw [Nat.mod_eq_sub_mul_div, hdiv, Nat.mul_comm]
        have hhalf : (m * (2 * len) ≤ i ∧ i < m * (2 * len) + len) ↔ i - m * (2 * len) < len := by omega
        have hupper : m * (2 * len) + len ≤ i ∧ i < m * (2 * len) + 2 * len ↔ ¬i - m * (2 * len) < len := by omega
        rw [if_pos hin]
        simp only [stageAt, hdiv, hmod, hhalf, hupper]
        by_cases hlt : i - m * (2 * len) < len
        · rw [if_pos hlt, if_pos hlt, hat i hi (by omega), hat (i + len) (by omega) (by omega)]
        · rw [if_neg hlt, if_pos hlt, if_neg hlt, hat i hi (by omega), hat (i - len) (by omega) (by omega)]
      · have hout1 : ¬(m * (2 * len) ≤ i ∧ i < m * (2 * len) + len) := by omega
        have hout2 : ¬(m * (2 * len) + len ≤ i ∧ i < m * (2 * len) + 2 * len) := by omega
        rw [if_neg hout1, if_neg hout2, if_neg hin, hat i hi (by omega)]

/-- A stage whose blocks fill the array: the counter moves once per block, and every position holds `stageAt`. -/
theorem stage_spec (next : Nat → Nat) (f : Nat → α → α → α × α) (len m : Nat) (s : Nat × Vector α n) (hlen : 0 < len)
    (hm : m * (2 * len) = n) :
    (stage next f len s).1 = next^[m] s.1 ∧
      ∀ i < n, (stage next f len s).2[i]! = stageAt next f len s.1 s.2 i := by
  have hcount : (n + 2 * len - 1) / (2 * len) = m := by
    rw [Nat.div_eq_iff (by omega), Nat.mul_comm, hm.symm, Nat.mul_comm (2 * len)]
    omega
  obtain ⟨h1, h2⟩ := stage_prefix next f len s.1 s.2 hlen m (Nat.le_of_eq hm)
  simp only [stage, Loops.stepBy, hcount]
  refine ⟨h1, fun i hi => ?_⟩
  rw [h2 i hi, if_pos (by omega)]

/-- The partner of a position lies in the array. -/
theorem partner_lt {len m i : Nat} (hm : m * (2 * len) = n) (hi : i < n) (h : i % (2 * len) < len) : i + len < n := by
  have hlt : i / (2 * len) < m := Nat.div_lt_of_lt_mul (by rw [Nat.mul_comm, hm]; exact hi)
  have hle := Nat.mul_le_mul_right (2 * len) (Nat.succ_le_of_lt hlt)
  rw [Nat.succ_mul, hm] at hle
  have hdiv := Nat.div_add_mod' i (2 * len)
  omega

/-! ## The positions of a block -/

section Positions

variable (next : Nat → Nat) (f : Nat → α → α → α × α) (len k : Nat) (cs : Vector α n) (b r : Nat)

/-- The offset of a position in its block, and the number of the block. -/
theorem mod_block (h : r < 2 * len) : (2 * len * b + r) % (2 * len) = r := by
  rw [Nat.mul_add_mod, Nat.mod_eq_of_lt h]

theorem div_block (h : r < 2 * len) : (2 * len * b + r) / (2 * len) = b := by
  rw [Nat.mul_add_div (by omega), Nat.div_eq_of_lt h, Nat.add_zero]

variable {len b r} {i : Nat} (hi : i = 2 * len * b + r) (hr : r < len)

include hi hr in
theorem stageAt_lower : stageAt next f len k cs i = (f (next^[b] k) cs[i]! cs[i + len]!).1 := by
  rw [stageAt, hi, mod_block len b r (by omega), div_block len b r (by omega), if_pos hr]

include hi hr in
theorem stageAt_upper : stageAt next f len k cs (i + len) = (f (next^[b] k) cs[i]! cs[i + len]!).2 := by
  have hpos : i + len = 2 * len * b + (r + len) := by rw [hi, Nat.add_assoc]
  rw [stageAt, Nat.add_sub_cancel, hpos, mod_block len b (r + len) (by omega), div_block len b (r + len) (by omega),
    if_neg (by omega)]

end Positions

/-! ## Two stages at once -/

/-- Two levels of butterflies on four values: at distance two, then at distance one with a step for each half. -/
def quadAt (f g h : α → α → α × α) (x : Nat → α) : Nat → α
  | 0 => (g (f (x 0) (x 2)).1 (f (x 1) (x 3)).1).1
  | 1 => (g (f (x 0) (x 2)).1 (f (x 1) (x 3)).1).2
  | 2 => (h (f (x 0) (x 2)).2 (f (x 1) (x 3)).2).1
  | _ => (h (f (x 0) (x 2)).2 (f (x 1) (x 3)).2).2

omit [Inhabited α] in
theorem quadAt_congr (f g h : α → α → α × α) {x y : Nat → α} (hxy : ∀ c < 4, x c = y c) (b : Nat) :
    quadAt f g h x b = quadAt f g h y b := by
  unfold quadAt
  rw [hxy 0 (by omega), hxy 1 (by omega), hxy 2 (by omega), hxy 3 (by omega)]

/-- A stage after the stage with twice its stride: the four entries of a block that meet hold two levels of butterflies. -/
theorem stage_stage (next : Nat → Nat) (f : Nat → α → α → α × α) {len m : Nat} (k : Nat) (cs : Vector α n) (hlen : 0 < len)
    (hm : m * (2 * (2 * len)) = n) {B b r : Nat} (hB : B < m) (hb : b < 4) (hr : r < len) :
    (stage next f len (stage next f (2 * len) (k, cs))).2[4 * len * B + len * b + r]! =
      quadAt (f (next^[B] k)) (f (next^[m + 2 * B] k)) (f (next^[m + 2 * B + 1] k))
        (fun c => cs[4 * len * B + len * c + r]!) b := by
  obtain ⟨h1, h2⟩ := stage_spec next f (2 * len) m (k, cs) (by omega) hm
  have hm' : 2 * m * (2 * len) = n := by rw [← hm]; ring
  obtain ⟨_, h3⟩ := stage_spec next f len (2 * m) (stage next f (2 * len) (k, cs)) hlen hm'
  generalize stage next f (2 * len) (k, cs) = s at h1 h2 h3
  obtain ⟨k', d⟩ := s
  obtain rfl : k' = next^[m] k := h1
  simp only at h2 h3
  -- the wide stage has a block from `X` on, the narrow one has blocks from `X` and from `X + 2 * len` on
  obtain ⟨X, hX⟩ : ∃ X, X = 4 * len * B := ⟨_, rfl⟩
  have hwide : X = 2 * (2 * len) * B := by rw [hX]; ring
  have hfst : X = 2 * len * (2 * B) := by rw [hX]; ring
  have hsnd : X + 2 * len = 2 * len * (2 * B + 1) := by rw [hX]; ring
  have hend : X + 4 * len ≤ n := by
    have hfill : 4 * len * m = n := by rw [← hm]; ring
    have hle := Nat.mul_le_mul_left (4 * len) hB
    rw [Nat.mul_succ, ← hX, hfill] at hle
    exact hle
  rw [← hX]
  have hfirst : X + r = 2 * (2 * len) * B + r := by rw [hwide]
  have hsecond : X + r + len = 2 * (2 * len) * B + (r + len) := by rw [hwide, Nat.add_assoc]
  have e0 := (h2 _ (by omega)).trans (stageAt_lower next f k cs hfirst (by omega))
  have e1 := (h2 _ (by omega)).trans (stageAt_lower next f k cs hsecond (by omega))
  have e2 := (h2 _ (by omega)).trans (stageAt_upper next f k cs hfirst (by omega))
  have e3 := (h2 _ (by omega)).trans (stageAt_upper next f k cs hsecond (by omega))
  have hfst' : X + r = 2 * len * (2 * B) + r := by rw [hfst]
  have hsnd' : X + r + 2 * len = 2 * len * (2 * B + 1) + r := by rw [← hsnd, Nat.add_right_comm]
  have hiter : ∀ c, next^[c] (next^[m] k) = next^[m + c] k := fun c => by rw [Nat.add_comm, Function.iterate_add_apply]
  have p0 : X + len * 0 + r = X + r := by omega
  have p1 : X + len * 1 + r = X + r + len := by omega
  have p2 : X + len * 2 + r = X + r + 2 * len := by omega
  have p3 : X + len * 3 + r = X + r + len + 2 * len := by omega
  have p3' : X + r + 2 * len + len = X + r + len + 2 * len := by omega
  match b, hb with
  | 0, _ =>
    rw [p0, h3 _ (by omega), stageAt_lower next f _ d hfst' hr, e0, e1, hiter]
    simp only [quadAt, p0, p1, p2, p3]
  | 1, _ =>
    rw [p1, h3 _ (by omega), stageAt_upper next f _ d hfst' hr, e0, e1, hiter]
    simp only [quadAt, p0, p1, p2, p3]
  | 2, _ =>
    rw [p2, h3 _ (by omega), stageAt_lower next f _ d hsnd' hr, p3', e2, e3, hiter, ← Nat.add_assoc]
    simp only [quadAt, p0, p1, p2, p3]
  | 3, _ =>
    rw [p3, h3 _ (by omega), ← p3', stageAt_upper next f _ d hsnd' hr, p3', e2, e3, hiter, ← Nat.add_assoc]
    simp only [quadAt, p0, p1, p2, p3]

/-! ## The entries of a stage that meet -/

/-- One level of butterflies at distance `s` on a family of values, the pairs of its block `j` under the step `f j`. -/
def levelAt (f : Nat → α → α → α × α) (s : Nat) (x : Nat → α) (b : Nat) : α :=
  if b % (2 * s) < s then (f (b / (2 * s)) (x b) (x (b + s))).1 else (f (b / (2 * s)) (x (b - s)) (x b)).2

omit [Inhabited α] in
/-- A level on whole blocks reads the values of the blocks alone. -/
theorem levelAt_congr (f : Nat → α → α → α × α) {s m : Nat} {x y : Nat → α} (hxy : ∀ i < m * (2 * s), x i = y i) {b : Nat}
    (hb : b < m * (2 * s)) : levelAt f s x b = levelAt f s y b := by
  unfold levelAt
  by_cases h : b % (2 * s) < s
  · rw [if_pos h, if_pos h, hxy b hb, hxy (b + s) (partner_lt rfl hb h)]
  · rw [if_neg h, if_neg h, hxy b hb, hxy (b - s) (by omega)]

/-- A stage whose stride is `s` units of `len` is, on the entries that are whole units apart, one level at distance `s`. -/
theorem stageAt_level (next : Nat → Nat) (f : Nat → α → α → α × α) {len s : Nat} (k : Nat) (cs : Vector α n) (hlen : 0 < len)
    (hs : 0 < s) {X B b r : Nat} (hX : X = 2 * (len * s) * B) (hr : r < len) :
    stageAt next f (len * s) k cs (X + len * b + r) =
      levelAt (fun j => f (next^[B + j] k)) s (fun i => cs[X + len * i + r]!) b := by
  have hunit : (len * b + r) / len = b := by rw [Nat.mul_add_div hlen, Nat.div_eq_of_lt hr, Nat.add_zero]
  have hstride : 2 * (len * s) = len * (2 * s) := by ring
  have hsplit : X + len * b + r = 2 * (len * s) * B + (len * b + r) := by rw [hX, Nat.add_assoc]
  have hmod : (X + len * b + r) % (2 * (len * s)) = len * (b % (2 * s)) + r := by
    rw [hsplit, Nat.mul_add_mod, hstride, Nat.mod_mul, Nat.mul_add_mod, Nat.mod_eq_of_lt hr, hunit, Nat.add_comm]
  have hhalf : len * (b % (2 * s)) + r < len * s ↔ b % (2 * s) < s := by
    constructor
    · intro h
      exact Nat.lt_of_mul_lt_mul_left (Nat.lt_of_le_of_lt (Nat.le_add_right _ r) h)
    · intro h
      have hle := Nat.mul_le_mul_left len (Nat.succ_le_of_lt h)
      rw [Nat.mul_succ] at hle
      omega
  have hdiv : (X + len * b + r) / (2 * (len * s)) = B + b / (2 * s) := by
    rw [hsplit, Nat.mul_add_div (Nat.mul_pos (by decide) (Nat.mul_pos hlen hs)), hstride, ← Nat.div_div_eq_div_mul, hunit]
  have hup : X + len * b + r + len * s = X + len * (b + s) + r := by ring
  simp only [stageAt, levelAt, hmod, hdiv, hhalf, hup]
  by_cases h : b % (2 * s) < s
  · rw [if_pos h, if_pos h]
  · have hle : s ≤ b := Nat.le_trans (Nat.le_of_not_lt h) (Nat.mod_le b _)
    have hdown : X + len * b + r - len * s = X + len * (b - s) + r := by
      have hmul := Nat.mul_le_mul_left len hle
      rw [Nat.mul_sub]
      omega
    rw [if_neg h, if_neg h, hdown]

/-- Two stages whose steps respect a relation respect it: from related arrays to related arrays. -/
theorem stage_simulates {β : Type} [Inhabited β] (P P' : α → β → Prop) (next : Nat → Nat) (f : Nat → α → α → α × α)
    (g : Nat → β → β → β × β) {len m k : Nat} (hlen : 0 < len) (hm : m * (2 * len) = n)
    (hstep : ∀ b < m, ∀ x y x' y', P x x' → P y y' →
      P' (f (next^[b] k) x y).1 (g (next^[b] k) x' y').1 ∧ P' (f (next^[b] k) x y).2 (g (next^[b] k) x' y').2)
    {cs : Vector α n} {d : Vector β n} (h : ∀ i < n, P cs[i]! d[i]!) :
    ∀ i < n, P' (stage next f len (k, cs)).2[i]! (stage next g len (k, d)).2[i]! := by
  intro i hi
  have hb : i / (2 * len) < m := Nat.div_lt_of_lt_mul (by rw [Nat.mul_comm, hm]; exact hi)
  rw [(stage_spec next f len m (k, cs) hlen hm).2 i hi, (stage_spec next g len m (k, d) hlen hm).2 i hi]
  simp only [stageAt]
  by_cases hlow : i % (2 * len) < len
  · rw [if_pos hlow, if_pos hlow]
    exact (hstep _ hb _ _ _ _ (h i hi) (h (i + len) (partner_lt hm hi hlow))).1
  · rw [if_neg hlow, if_neg hlow]
    exact (hstep _ hb _ _ _ _ (h (i - len) (by omega)) (h i hi)).2

/-! ## Stages whose steps may fail -/

section Partial

variable {body : Vector α n → Nat → Option (Vector α n)} {f : α → α → α × α} {len start : Nat} {cs : Vector α n}

/-- A block whose body succeeds on every pair of the block: the pairs still to come hold what they held at its start. -/
theorem blockM_eq {P : α → Prop}
    (hbody : ∀ cs : Vector α n, ∀ j, P cs[j]! → P cs[j + len]! → body cs j = some (pair f len cs j))
    (hn : start + 2 * len ≤ n) (hP : ∀ i, start ≤ i → i < start + 2 * len → P cs[i]!) :
    (List.range' start len).foldlM body cs = some (block f len start cs) := by
  have hprefix : ∀ m ≤ len, (List.range' start m).foldlM body cs = some ((List.range' start m).foldl (pair f len) cs) := by
    intro m
    induction m with
    | zero => exact fun _ => rfl
    | succ m ih =>
      intro hm
      have hlo := block_prefix_getElem! f len start cs m (by omega) (by omega) (start + m) (by omega)
      have hhi := block_prefix_getElem! f len start cs m (by omega) (by omega) (start + m + len) (by omega)
      rw [if_neg (by omega), if_neg (by omega)] at hlo hhi
      rw [List.range'_1_concat, List.foldlM_append, ih (by omega), List.foldl_append]
      show [start + m].foldlM body _ = _
      rw [List.foldlM_cons, hbody _ _ (hlo ▸ hP _ (by omega) (by omega)) (hhi ▸ hP _ (by omega) (by omega))]
      rfl
  exact hprefix len (Nat.le_refl _)

end Partial

/-- A stage whose bodies succeed on every pair: the blocks still to come hold what they held at its start. -/
theorem stageM_eq (body : Nat → Vector α n → Nat → Option (Vector α n)) (next : Nat → Nat) (f : Nat → α → α → α × α)
    {P : α → Prop} {len m k : Nat} (hlen : 0 < len) (hm : m * (2 * len) = n) {cs : Vector α n}
    (hbody : ∀ b < m, ∀ cs : Vector α n, ∀ j, P cs[j]! → P cs[j + len]! →
      body (next^[b] k) cs j = some (pair (f (next^[b] k)) len cs j))
    (hP : ∀ i < n, P cs[i]!) :
    (Loops.stepBy n (2 * len)).foldlM (fun s start => do
      return (next s.1, ← (List.range' start len).foldlM (body s.1) s.2)) (k, cs) = some (stage next f len (k, cs)) := by
  have hcount : (n + 2 * len - 1) / (2 * len) = m := by
    rw [Nat.div_eq_iff (by omega), Nat.mul_comm, hm.symm, Nat.mul_comm (2 * len)]
    omega
  have hprefix : ∀ b ≤ m, (List.range' 0 b (2 * len)).foldlM (fun s start => do
      return (next s.1, ← (List.range' start len).foldlM (body s.1) s.2)) (k, cs) =
        some ((List.range' 0 b (2 * len)).foldl (fun s start => (next s.1, block (f s.1) len start s.2)) (k, cs)) := by
    intro b
    induction b with
    | zero => exact fun _ => rfl
    | succ b ih =>
      intro hb
      have hle := Nat.mul_le_mul_right (2 * len) hb
      rw [hm, Nat.succ_mul] at hle
      obtain ⟨h1, h2⟩ := stage_prefix next f len k cs hlen b (by omega)
      have hstart : 0 + 2 * len * b = b * (2 * len) := by rw [Nat.zero_add, Nat.mul_comm]
      rw [List.range'_concat, List.foldlM_append, ih (by omega), List.foldl_append, hstart]
      generalize (List.range' 0 b (2 * len)).foldl (fun s start => (next s.1, block (f s.1) len start s.2)) (k, cs) = s
        at h1 h2
      obtain ⟨k', d⟩ := s
      obtain rfl : k' = next^[b] k := h1
      have hblock : (List.range' (b * (2 * len)) len).foldlM (body (next^[b] k)) d =
          some (block (f (next^[b] k)) len (b * (2 * len)) d) := by
        refine blockM_eq (hbody b hb) (by omega) fun i hlo hhi => ?_
        rw [h2 i (by omega), if_neg (by omega)]
        exact hP i (by omega)
      rw [Option.bind_eq_bind, Option.bind_some, List.foldlM_cons, hblock]
      rfl
  rw [Loops.stepBy, stage, Loops.stepBy, hcount]
  exact hprefix m (Nat.le_refl _)

end Butterfly
