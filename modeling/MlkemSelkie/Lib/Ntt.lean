import Mathlib.Algebra.BigOperators.Ring.Finset
import Mathlib.Algebra.BigOperators.Intervals
import Mathlib.Algebra.QuadraticAlgebra.Defs
import Mathlib.Tactic.Ring
import Mathlib.Tactic.LinearCombination
import MlkemSelkie.Lib.Butterfly

/-!
# Incomplete number-theoretic transforms

The transform of a polynomial modulo `X^n + 1` over a commutative ring, as far down as blocks of `w` coefficients: after
`s` stages the sequence holds, block by block, the residues modulo the factors `X^L - root` of `X^n + 1`. Coefficients are
sequences on `Nat`; only positions below `n` matter. The constants are indexed as a heap: block `b` of the stage with `2^s`
blocks takes the constant `2^s + b`.
-/

namespace Ntt

open Finset Butterfly

variable {R : Type} [CommRing R]

/-- One stage of the forward transform: pairs at distance `len`, the constant of a block on its upper half. -/
def forward (z : Nat → R) (len : Nat) (a : Nat → R) (i : Nat) : R :=
  if i % (2 * len) < len then a i + z (i / (2 * len)) * a (i + len)
  else a (i - len) - z (i / (2 * len)) * a i

/-- One stage of the inverse transform, which leaves a factor two. -/
def inverse (z : Nat → R) (len : Nat) (a : Nat → R) (i : Nat) : R :=
  if i % (2 * len) < len then a i + a (i + len)
  else z (i / (2 * len)) * (a i - a (i - len))

/-- Every position is in the lower or in the upper half of its block. -/
theorem position_cases (len i : Nat) (hlen : 0 < len) :
    ∃ b r, r < len ∧ (i = 2 * len * b + r ∨ i = 2 * len * b + (len + r)) := by
  have hmod := Nat.mod_lt i (show 0 < 2 * len by omega)
  have hdiv := Nat.div_add_mod i (2 * len)
  by_cases h : i % (2 * len) < len
  · exact ⟨i / (2 * len), i % (2 * len), h, Or.inl hdiv.symm⟩
  · exact ⟨i / (2 * len), i % (2 * len) - len, by omega, Or.inr (by omega)⟩

/-! ## One stage -/

section Stage

variable (z : Nat → R) (len : Nat) (a : Nat → R) (b r : Nat)

/-- The lower half of a block after a forward level. -/
theorem forward_lower (hr : r < len) :
    forward z len a (2 * len * b + r) = a (2 * len * b + r) + z b * a (2 * len * b + (len + r)) := by
  rw [forward, mod_block len b r (by omega), div_block len b r (by omega), if_pos hr, Nat.add_assoc, Nat.add_comm r len]

/-- The upper half of a block after a forward level. -/
theorem forward_upper (hr : r < len) :
    forward z len a (2 * len * b + (len + r)) = a (2 * len * b + r) - z b * a (2 * len * b + (len + r)) := by
  rw [forward, mod_block len b (len + r) (by omega), div_block len b (len + r) (by omega), if_neg (by omega),
    show 2 * len * b + (len + r) - len = 2 * len * b + r by omega]

/-- The lower half of a block after an inverse level. -/
theorem inverse_lower (hr : r < len) :
    inverse z len a (2 * len * b + r) = a (2 * len * b + r) + a (2 * len * b + (len + r)) := by
  rw [inverse, mod_block len b r (by omega), if_pos hr, Nat.add_assoc, Nat.add_comm r len]

/-- The upper half of a block after an inverse level. -/
theorem inverse_upper (hr : r < len) :
    inverse z len a (2 * len * b + (len + r)) = z b * (a (2 * len * b + (len + r)) - a (2 * len * b + r)) := by
  rw [inverse, mod_block len b (len + r) (by omega), div_block len b (len + r) (by omega), if_neg (by omega),
    show 2 * len * b + (len + r) - len = 2 * len * b + r by omega]

end Stage

section Laws

variable {z z' : Nat → R} {len m : Nat} {a a' : Nat → R} {i : Nat}

/-- The halves of a block lie below `n = m * 2 len` together. -/
theorem block_lt {b r : Nat} (hr : r < len) (h : 2 * len * b + r < 2 * len * m) : 2 * len * b + (len + r) < 2 * len * m := by
  have hb : b < m := by
    by_contra hge
    have := Nat.mul_le_mul_left (2 * len) (Nat.le_of_not_lt hge)
    omega
  have := Nat.mul_le_mul_left (2 * len) (Nat.succ_le_of_lt hb)
  rw [Nat.mul_succ] at this
  omega

/-- A stage reads no position past the end. -/
theorem forward_congr (hlen : 0 < len) (h : ∀ j < 2 * len * m, a j = a' j) (hi : i < 2 * len * m) :
    forward z len a i = forward z len a' i := by
  obtain ⟨b, r, hr, rfl | rfl⟩ := position_cases len i hlen
  · rw [forward_lower z len a b r hr, forward_lower z len a' b r hr, h _ hi, h _ (block_lt hr hi)]
  · rw [forward_upper z len a b r hr, forward_upper z len a' b r hr, h _ hi, h _ (by omega)]

/-- An inverse level reads only its own blocks. -/
theorem inverse_congr (hlen : 0 < len) (h : ∀ j < 2 * len * m, a j = a' j) (hi : i < 2 * len * m) :
    inverse z len a i = inverse z len a' i := by
  obtain ⟨b, r, hr, rfl | rfl⟩ := position_cases len i hlen
  · rw [inverse_lower z len a b r hr, inverse_lower z len a' b r hr, h _ hi, h _ (block_lt hr hi)]
  · rw [inverse_upper z len a b r hr, inverse_upper z len a' b r hr, h _ hi, h _ (by omega)]

/-- A stage is linear. -/
theorem forward_linear (c d : R) : forward z len (fun j => c * a j + d * a' j) i =
    c * forward z len a i + d * forward z len a' i := by
  simp only [forward]
  split <;> ring

/-- An inverse level is linear. -/
theorem inverse_linear (c d : R) : inverse z len (fun j => c * a j + d * a' j) i =
    c * inverse z len a i + d * inverse z len a' i := by
  simp only [inverse]
  split <;> ring

/-- A forward level commutes with a scale. -/
theorem forward_smul (c : R) : forward z len (fun j => c * a j) i = c * forward z len a i := by
  simp only [forward]
  split <;> ring

/-- An inverse level commutes with a scale. -/
theorem inverse_smul (c : R) : inverse z len (fun j => c * a j) i = c * inverse z len a i := by
  simp only [inverse]
  split <;> ring

/-- The inverse stage undoes the forward one, up to a factor two. -/
theorem inverse_forward (hlen : 0 < len) (hz : ∀ b < m, z' b * z b = -1) (hi : i < 2 * len * m) :
    inverse z' len (forward z len a) i = 2 * a i := by
  have hm : ∀ b r, 2 * len * b + r < 2 * len * m → b < m := fun b r h =>
    Nat.lt_of_mul_lt_mul_left (a := 2 * len) (by omega)
  obtain ⟨b, r, hr, rfl | rfl⟩ := position_cases len i hlen
  · rw [inverse_lower z' len _ b r hr, forward_lower z len a b r hr, forward_upper z len a b r hr]
    ring
  · rw [inverse_upper z' len _ b r hr, forward_lower z len a b r hr, forward_upper z len a b r hr]
    linear_combination (-2 * a (2 * len * b + (len + r))) * hz b (hm b _ hi)

/-- The forward stage undoes the inverse one, up to a factor two. -/
theorem forward_inverse (hlen : 0 < len) (hz : ∀ b < m, z' b * z b = -1) (hi : i < 2 * len * m) :
    forward z len (inverse z' len a) i = 2 * a i := by
  have hm : ∀ b r, 2 * len * b + r < 2 * len * m → b < m := fun b r h =>
    Nat.lt_of_mul_lt_mul_left (a := 2 * len) (by omega)
  obtain ⟨b, r, hr, rfl | rfl⟩ := position_cases len i hlen
  · rw [forward_lower z len _ b r hr, inverse_lower z' len a b r hr, inverse_upper z' len a b r hr]
    linear_combination (a (2 * len * b + (len + r)) - a (2 * len * b + r)) * hz b (hm b _ hi)
  · rw [forward_upper z len _ b r hr, inverse_lower z' len a b r hr, inverse_upper z' len a b r hr]
    linear_combination (a (2 * len * b + r) - a (2 * len * b + (len + r))) * hz b (hm b _ hi)

end Laws

/-! ## The stages in sequence -/

section Transform

variable (zetas : Nat → R) (w h : Nat)

/-- The first `s` of `h` forward stages, down to blocks of `w`. -/
def transform : Nat → (Nat → R) → Nat → R
  | 0, a => a
  | s + 1, a => forward (fun b => zetas (2 ^ s + b)) (2 ^ (h - 1 - s) * w) (transform s a)

/-- The first `t` of `h` inverse stages, up from blocks of `w`; the constants of a stage are read from the last one down. -/
def inverseTransform : Nat → (Nat → R) → Nat → R
  | 0, a => a
  | t + 1, a => inverse (fun b => zetas (2 ^ (h - t) - 1 - b)) (2 ^ t * w) (inverseTransform t a)

/-- The constants of the inverse stages are the negated inverses of those of the forward stages. -/
def Opposite : Prop := ∀ s < h, ∀ b < 2 ^ s, zetas (2 ^ (s + 1) - 1 - b) * zetas (2 ^ s + b) = -1

variable {zetas w h}

/-- The blocks of the stage with stride `2^t w` fill the `2^h w` positions. -/
theorem blocks_fill {t : Nat} (ht : t < h) : 2 * (2 ^ t * w) * 2 ^ (h - 1 - t) = 2 ^ h * w := by
  calc 2 * (2 ^ t * w) * 2 ^ (h - 1 - t) = 2 ^ (t + 1 + (h - 1 - t)) * w := by
        rw [Nat.pow_add, Nat.pow_succ]; ring
    _ = 2 ^ h * w := by
        have hsum : t + 1 + (h - 1 - t) = h := by omega
        rw [hsum]

/-- The same for the stage with `2^s` blocks. -/
theorem blocks_fill_forward {s : Nat} (hs : s < h) : 2 * (2 ^ (h - 1 - s) * w) * 2 ^ s = 2 ^ h * w := by
  have hlast : h - 1 - s < h := by omega
  have hmirror : h - 1 - (h - 1 - s) = s := by omega
  have hfill := blocks_fill (w := w) hlast
  rw [hmirror] at hfill
  exact hfill

/-- The first inverse stages undo the last forward ones. -/
theorem inverseTransform_transform (hw : 0 < w) (hz : Opposite zetas h) (a : Nat → R) :
    ∀ t ≤ h, ∀ i < 2 ^ h * w,
      inverseTransform zetas w h t (transform zetas w h h a) i = 2 ^ t * transform zetas w h (h - t) a i := by
  intro t
  induction t with
  | zero =>
    intro _ i _
    rw [inverseTransform, Nat.sub_zero, pow_zero, one_mul]
  | succ t ih =>
    intro ht i hi
    have hlen : 0 < 2 ^ t * w := Nat.mul_pos (Nat.two_pow_pos t) hw
    have hfill := blocks_fill (w := w) ht
    have hstage : h - t = (h - (t + 1)) + 1 := by omega
    have hstride : h - 1 - (h - (t + 1)) = t := by omega
    have hcount : h - (t + 1) = h - 1 - t := by omega
    have hlast : transform zetas w h (h - t) a =
        forward (fun b => zetas (2 ^ (h - 1 - t) + b)) (2 ^ t * w) (transform zetas w h (h - (t + 1)) a) := by
      rw [hstage, transform, hstride, hcount]
    have hstep := inverse_forward (a := transform zetas w h (h - (t + 1)) a) (m := 2 ^ (h - 1 - t)) hlen
      (fun b hb => hz (h - 1 - t) (by omega) b hb) (by rw [hfill]; exact hi)
    have hpred : h - 1 - t + 1 = h - t := by omega
    rw [hpred, ← hlast] at hstep
    rw [inverseTransform, inverse_congr hlen (fun j hj => ih (by omega) j (by rw [← hfill]; exact hj))
      (by rw [hfill]; exact hi)]
    rw [inverse_smul, hstep, pow_succ, mul_assoc]

/-- The first forward stages undo the last inverse ones. -/
theorem transform_inverseTransform (hw : 0 < w) (hz : Opposite zetas h) (a : Nat → R) :
    ∀ s ≤ h, ∀ i < 2 ^ h * w,
      transform zetas w h s (inverseTransform zetas w h h a) i = 2 ^ s * inverseTransform zetas w h (h - s) a i := by
  intro s
  induction s with
  | zero =>
    intro _ i _
    rw [transform, Nat.sub_zero, pow_zero, one_mul]
  | succ s ih =>
    intro hs i hi
    have hlen : 0 < 2 ^ (h - 1 - s) * w := Nat.mul_pos (Nat.two_pow_pos _) hw
    have hfill := blocks_fill_forward (w := w) hs
    have hstage : h - s = (h - 1 - s) + 1 := by omega
    have hstride : h - (h - 1 - s) = s + 1 := by omega
    have hcount : h - (s + 1) = h - 1 - s := by omega
    have hlast : inverseTransform zetas w h (h - s) a =
        inverse (fun b => zetas (2 ^ (s + 1) - 1 - b)) (2 ^ (h - 1 - s) * w)
          (inverseTransform zetas w h (h - (s + 1)) a) := by
      rw [hstage, inverseTransform, hstride, hcount]
    have hstep := forward_inverse (a := inverseTransform zetas w h (h - (s + 1)) a) (m := 2 ^ s) hlen
      (fun b hb => hz s (by omega) b hb) (by rw [hfill]; exact hi)
    rw [← hlast] at hstep
    rw [transform, forward_congr hlen (fun j hj => ih (by omega) j (by rw [← hfill]; exact hj))
      (by rw [hfill]; exact hi)]
    rw [forward_smul, hstep, pow_succ, mul_assoc]

/-- The stages in sequence are linear. -/
theorem transform_linear (a a' : Nat → R) (c d : R) (s i : Nat) :
    transform zetas w h s (fun j => c * a j + d * a' j) i =
      c * transform zetas w h s a i + d * transform zetas w h s a' i := by
  induction s generalizing i with
  | zero => rfl
  | succ s ih => rw [transform, funext ih, forward_linear, transform, transform]

/-- The levels of the inverse transform are linear together. -/
theorem inverseTransform_linear (a a' : Nat → R) (c d : R) (t i : Nat) :
    inverseTransform zetas w h t (fun j => c * a j + d * a' j) i =
      c * inverseTransform zetas w h t a i + d * inverseTransform zetas w h t a' i := by
  induction t generalizing i with
  | zero => rfl
  | succ t ih => rw [inverseTransform, funext ih, inverse_linear, inverseTransform, inverseTransform]

/-- The transform reads no position past the end. -/
theorem transform_congr (hw : 0 < w) {a a' : Nat → R} (ha : ∀ j < 2 ^ h * w, a j = a' j) :
    ∀ s ≤ h, ∀ i < 2 ^ h * w, transform zetas w h s a i = transform zetas w h s a' i := by
  intro s
  induction s with
  | zero => exact fun _ i hi => ha i hi
  | succ s ih =>
    intro hs i hi
    have hfill := blocks_fill_forward (w := w) hs
    exact forward_congr (m := 2 ^ s) (Nat.mul_pos (Nat.two_pow_pos _) hw)
      (fun j hj => ih (by omega) j (by rw [← hfill]; exact hj)) (by rw [hfill]; exact hi)

/-- The levels of the inverse transform read only their own blocks. -/
theorem inverseTransform_congr (hw : 0 < w) {a a' : Nat → R} (ha : ∀ j < 2 ^ h * w, a j = a' j) :
    ∀ t ≤ h, ∀ i < 2 ^ h * w, inverseTransform zetas w h t a i = inverseTransform zetas w h t a' i := by
  intro t
  induction t with
  | zero => exact fun _ i hi => ha i hi
  | succ t ih =>
    intro ht i hi
    have hfill := blocks_fill (w := w) ht
    exact inverse_congr (m := 2 ^ (h - 1 - t)) (Nat.mul_pos (Nat.two_pow_pos _) hw)
      (fun j hj => ih (by omega) j (by rw [← hfill]; exact hj)) (by rw [hfill]; exact hi)

end Transform

/-! ## The stages as residues -/

section Residues

variable (root z : Nat → R) (len count : Nat) (f a : Nat → R)

/-- The blocks of `len` hold the residues of `f` modulo `X^len - root b`, for `count` blocks. -/
def Residues : Prop := ∀ b < count, ∀ r < len, a (len * b + r) = ∑ t ∈ range count, f (len * t + r) * root b ^ t

variable {root z len count f a}

/-- A sequence is its own residue modulo one factor of its degree. -/
theorem Residues.whole (root f : Nat → R) (n : Nat) : Residues root n 1 f f := by
  intro b hb r _
  obtain rfl : b = 0 := by omega
  simp

/-- A sum over an even range, by pairs. -/
theorem sum_range_pairs (g : Nat → R) (m : Nat) :
    ∑ t ∈ range (2 * m), g t = ∑ t ∈ range m, (g (2 * t) + g (2 * t + 1)) := by
  induction m with
  | zero => rfl
  | succ m ih =>
    have htwo : 2 * (m + 1) = 2 * m + 1 + 1 := by ring
    rw [htwo, sum_range_succ, sum_range_succ, ih, sum_range_succ, add_assoc]

/-- The residue modulo `X^len - c` from the two halves of the residue modulo `X^(2 len) - c^2`. -/
theorem residue_split (f : Nat → R) (len count r : Nat) (c : R) :
    ∑ t ∈ range (2 * count), f (len * t + r) * c ^ t =
      ∑ t ∈ range count, f (2 * len * t + r) * (c ^ 2) ^ t +
        c * ∑ t ∈ range count, f (2 * len * t + (len + r)) * (c ^ 2) ^ t := by
  rw [sum_range_pairs, sum_add_distrib, mul_sum]
  refine congrArg₂ _ (sum_congr rfl fun t _ => ?_) (sum_congr rfl fun t _ => ?_)
  · have hpos : len * (2 * t) + r = 2 * len * t + r := by ring
    rw [← pow_mul, hpos]
  · have hpos : len * (2 * t + 1) + r = 2 * len * t + (len + r) := by ring
    rw [← pow_mul, hpos]
    ring

/-- A stage splits every factor `X^(2 len) - z^2` in the factors `X^len - z` and `X^len + z`. -/
theorem Residues.forward (h : Residues root (2 * len) count f a) (hz : ∀ b < count, z b ^ 2 = root b) :
    Residues (fun b => if b % 2 = 0 then z (b / 2) else -z (b / 2)) len (2 * count) f (forward z len a) := by
  intro b hb r hr
  have hlow := h (b / 2) (by omega) r (by omega)
  have hhigh := h (b / 2) (by omega) (len + r) (by omega)
  have hroot := hz (b / 2) (by omega)
  rw [← hroot] at hlow hhigh
  by_cases heven : b % 2 = 0
  · have hhalf : 2 * (b / 2) = b := by omega
    have hpos : len * b + r = 2 * len * (b / 2) + r := by rw [Nat.mul_assoc, Nat.mul_left_comm, hhalf]
    simp only [heven, if_true]
    rw [hpos, forward_lower z len a (b / 2) r hr, hlow, hhigh, residue_split]
  · have hhalf : b = 2 * (b / 2) + 1 := by omega
    have hpos : len * b + r = 2 * len * (b / 2) + (len + r) := by
      calc len * b + r = len * (2 * (b / 2) + 1) + r := by rw [← hhalf]
        _ = 2 * len * (b / 2) + (len + r) := by ring
    simp only [heven, if_false]
    rw [hpos, forward_upper z len a (b / 2) r hr, hlow, hhigh, residue_split, neg_sq, neg_mul, sub_eq_add_neg]

/-- The root of the factor that block `b` of the stage with `2^s` blocks is a residue of, at index `2^s + b`. -/
def rootOf (zetas : Nat → R) (k : Nat) : R :=
  if k ≤ 1 then -1 else if k % 2 = 0 then zetas (k / 2) else -zetas (k / 2)

/-- Every constant is a square root of the root of its block. -/
def SquareRoots (zetas : Nat → R) (h : Nat) : Prop := ∀ k, 0 < k → k < 2 ^ h → zetas k ^ 2 = rootOf zetas k

/-- After `s` stages the blocks hold the residues modulo the factors of the stage. -/
theorem residues_transform {zetas : Nat → R} {w h : Nat} (hz : SquareRoots zetas h) (f : Nat → R) :
    ∀ s ≤ h, Residues (fun b => rootOf zetas (2 ^ s + b)) (2 ^ (h - s) * w) (2 ^ s) f (transform zetas w h s f) := by
  intro s
  induction s with
  | zero => exact fun _ => Residues.whole _ f _
  | succ s ih =>
    intro hs
    have hpow : 2 ^ (s + 1) ≤ 2 ^ h := Nat.pow_le_pow_right (by omega) hs
    have hpos := Nat.two_pow_pos s
    have hsplit : Residues (fun b => rootOf zetas (2 ^ s + b)) (2 * (2 ^ (h - 1 - s) * w)) (2 ^ s) f
      (transform zetas w h s f) := by
      have hpred : h - 1 - s + 1 = h - s := by omega
      rw [← mul_assoc, ← pow_succ', hpred]
      exact ih (by omega)
    have hstep := hsplit.forward (z := fun b => zetas (2 ^ s + b)) fun b hb => hz (2 ^ s + b) (by omega) (by omega)
    have hcount : h - (s + 1) = h - 1 - s := by omega
    rw [hcount]
    intro b hb r hr
    have hdouble : 2 ^ (s + 1) = 2 * 2 ^ s := pow_succ' 2 s
    have hroot : rootOf zetas (2 ^ (s + 1) + b) =
        if b % 2 = 0 then zetas (2 ^ s + b / 2) else -zetas (2 ^ s + b / 2) := by
      rw [rootOf, if_neg (by omega), hdouble, Nat.mul_add_mod, Nat.mul_add_div (by omega)]
    have h' := hstep b (by omega) r hr
    rw [transform]
    show _ = ∑ t ∈ range (2 ^ (s + 1)), f (2 ^ (h - 1 - s) * w * t + r) * rootOf zetas (2 ^ (s + 1) + b) ^ t
    rw [hroot, hdouble]
    exact h'

end Residues

/-! ## The negacyclic product -/

section Negacyclic

variable {S : Type} [CommRing S] [Algebra R S]

/-- The coefficient `k` of the product modulo `X^n + 1`. -/
def negacyclic (n : Nat) (f g : Nat → R) (k : Nat) : R :=
  ∑ i ∈ range n, if i ≤ k then f i * g (k - i) else -(f i * g (n + k - i))

/-- The value of a polynomial of degree below `n`. -/
def eval (n : Nat) (f : Nat → R) (x : S) : S := ∑ i ∈ range n, algebraMap R S (f i) * x ^ i

/-- At a root of `X^n + 1` the value of the product is the product of the values. -/
theorem eval_negacyclic (n : Nat) (f g : Nat → R) (x : S) (hx : x ^ n = -1) :
    eval n (negacyclic n f g) x = eval n f x * eval n g x := by
  have hrow : ∀ i ∈ range n, ∑ k ∈ range n,
    algebraMap R S (if i ≤ k then f i * g (k - i) else -(f i * g (n + k - i))) * x ^ k =
      algebraMap R S (f i) * x ^ i * eval n g x := by
    intro i hi
    have hi : i < n := mem_range.mp hi
    obtain ⟨j, rfl⟩ : ∃ j, n = i + j := ⟨n - i, by omega⟩
    have hwrap : ∀ k ∈ range i, algebraMap R S (if i ≤ k then f i * g (k - i) else -(f i * g (i + j + k - i))) * x ^ k =
        algebraMap R S (f i) * x ^ i * (algebraMap R S (g (j + k)) * x ^ (j + k)) := by
      intro k hk
      have hk : k < i := mem_range.mp hk
      rw [if_neg (by omega), show i + j + k - i = j + k by omega, map_neg, map_mul, pow_add x j k]
      rw [pow_add] at hx
      linear_combination (-(algebraMap R S (f i) * algebraMap R S (g (j + k)) * x ^ k)) * hx
    have hkeep : ∀ k ∈ range j, algebraMap R S
      (if i ≤ i + k then f i * g (i + k - i) else -(f i * g (i + j + (i + k) - i))) *
        x ^ (i + k) = algebraMap R S (f i) * x ^ i * (algebraMap R S (g k) * x ^ k) := by
      intro k _
      rw [if_pos (by omega), Nat.add_sub_cancel_left, map_mul, pow_add]
      ring
    rw [sum_range_add, sum_congr rfl hwrap, sum_congr rfl hkeep, ← mul_sum, ← mul_sum, ← mul_add, eval, add_comm i j,
      sum_range_add, add_comm]
  calc eval n (negacyclic n f g) x
      = ∑ k ∈ range n, ∑ i ∈ range n,
        algebraMap R S (if i ≤ k then f i * g (k - i) else -(f i * g (n + k - i))) * x ^ k := by
        simp only [eval, negacyclic, map_sum, sum_mul]
    _ = ∑ i ∈ range n, algebraMap R S (f i) * x ^ i * eval n g x := by rw [sum_comm, sum_congr rfl hrow]
    _ = eval n f x * eval n g x := by rw [← sum_mul, ← eval]

/-- The even powers of the square root of `c` adjoined to the ring. -/
theorem omega_pow_even (c : R) (t : Nat) : (⟨0, 1⟩ : QuadraticAlgebra R c 0) ^ (2 * t) = algebraMap R _ (c ^ t) := by
  have hsq : (⟨0, 1⟩ : QuadraticAlgebra R c 0) ^ 2 = algebraMap R _ c := by
    rw [pow_two, QuadraticAlgebra.mk_mul_mk, QuadraticAlgebra.algebraMap_eq]
    ext <;> simp
  rw [pow_mul, hsq, map_pow]

/-- The square root of `c` adjoined to the ring evaluates a polynomial to its residue modulo `X^2 - c`. -/
theorem eval_omega (m : Nat) (f : Nat → R) (c : R) :
    eval (2 * m) f (⟨0, 1⟩ : QuadraticAlgebra R c 0) =
      ⟨∑ t ∈ range m, f (2 * t) * c ^ t, ∑ t ∈ range m, f (2 * t + 1) * c ^ t⟩ := by
  induction m with
  | zero => rfl
  | succ m ih =>
    rw [eval] at ih ⊢
    rw [show 2 * (m + 1) = 2 * m + 1 + 1 by ring, sum_range_succ, sum_range_succ, ih, pow_succ, omega_pow_even, ← mul_assoc,
      ← map_mul, ← map_mul, sum_range_succ, sum_range_succ]
    simp only [QuadraticAlgebra.algebraMap_eq, QuadraticAlgebra.mk_mul_mk]
    ext <;> simp

/-- Blocks of two: the residues of the product are the products of the residues modulo `X^2 - root b`. -/
theorem residues_negacyclic {root f g a b c : Nat → R} {m : Nat} (hroot : ∀ i < m, root i ^ m = -1)
    (ha : Residues root 2 m f a) (hb : Residues root 2 m g b) (hc : Residues root 2 m (negacyclic (2 * m) f g) c) (i : Nat)
    (hi : i < m) :
    c (2 * i) = a (2 * i) * b (2 * i) + root i * (a (2 * i + 1) * b (2 * i + 1)) ∧
      c (2 * i + 1) = a (2 * i) * b (2 * i + 1) + a (2 * i + 1) * b (2 * i) := by
  have hpow : (⟨0, 1⟩ : QuadraticAlgebra R (root i) 0) ^ (2 * m) = -1 := by
    rw [omega_pow_even, hroot i hi, map_neg, map_one]
  have h := eval_negacyclic (2 * m) f g (⟨0, 1⟩ : QuadraticAlgebra R (root i) 0) hpow
  have hval : ∀ {p d : Nat → R}, Residues root 2 m p d →
      eval (2 * m) p (⟨0, 1⟩ : QuadraticAlgebra R (root i) 0) = ⟨d (2 * i), d (2 * i + 1)⟩ := by
    intro p d hd
    have h0 := hd i hi 0 (by omega)
    have h1 := hd i hi 1 (by omega)
    rw [Nat.add_zero] at h0
    rw [eval_omega, h0, h1]
    rfl
  rw [hval ha, hval hb, hval hc, QuadraticAlgebra.mk_mul_mk] at h
  have hre := congrArg QuadraticAlgebra.re h
  have him := congrArg QuadraticAlgebra.im h
  simp only [zero_mul, add_zero] at hre him
  exact ⟨by rw [hre]; ring, by rw [him]⟩

end Negacyclic

/-! ## The stages on arrays -/

section Arrays

variable [Inhabited R] {n : Nat}

/-- The two values a forward butterfly computes, under the constant `k`. -/
def forwardPair (zetas : Nat → R) (k : Nat) (x y : R) : R × R := (x + zetas k * y, x - zetas k * y)

/-- The two values an inverse butterfly computes. -/
def inversePair (zetas : Nat → R) (k : Nat) (x y : R) : R × R := (x + y, zetas k * (y - x))

/-- A counter that goes up. -/
theorem iterate_succ_counter (k b : Nat) : (fun k => k + 1)^[b] k = k + b := by
  induction b with
  | zero => rfl
  | succ b ih => rw [Function.iterate_succ_apply', ih, Nat.add_assoc]

/-- A counter that goes down. -/
theorem iterate_pred_counter (k b : Nat) : (fun k => k - 1)^[b] k = k - b := by
  induction b with
  | zero => rfl
  | succ b ih => rw [Function.iterate_succ_apply', ih, Nat.sub_sub]

/-- A loop over the blocks of a forward stage is a level, and it uses one zeta for each block. -/
theorem stage_forward (zetas : Nat → R) {len m : Nat} (k : Nat) (cs : Vector R n) (hlen : 0 < len) (hm : m * (2 * len) = n) :
    (Butterfly.stage (fun k => k + 1) (forwardPair zetas) len (k, cs)).1 = k + m ∧
      ∀ i < n, (Butterfly.stage (fun k => k + 1) (forwardPair zetas) len (k, cs)).2[i]! =
        forward (fun b => zetas (k + b)) len (fun j => cs[j]!) i := by
  obtain ⟨h1, h2⟩ := Butterfly.stage_spec (fun k => k + 1) (forwardPair zetas) len m (k, cs) hlen hm
  refine ⟨by rw [h1, iterate_succ_counter], fun i hi => ?_⟩
  rw [h2 i hi, Butterfly.stageAt, forward, iterate_succ_counter]
  rfl

/-- A loop over the blocks of an inverse stage is a level, its zetas counted down. -/
theorem stage_inverse (zetas : Nat → R) {len m : Nat} (k : Nat) (cs : Vector R n) (hlen : 0 < len) (hm : m * (2 * len) = n) :
    (Butterfly.stage (fun k => k - 1) (inversePair zetas) len (k, cs)).1 = k - m ∧
      ∀ i < n, (Butterfly.stage (fun k => k - 1) (inversePair zetas) len (k, cs)).2[i]! =
        inverse (fun b => zetas (k - b)) len (fun j => cs[j]!) i := by
  obtain ⟨h1, h2⟩ := Butterfly.stage_spec (fun k => k - 1) (inversePair zetas) len m (k, cs) hlen hm
  refine ⟨by rw [h1, iterate_pred_counter], fun i hi => ?_⟩
  rw [h2 i hi, Butterfly.stageAt, inverse, iterate_pred_counter]
  rfl

/-- The stages of the forward transform on an array: the counter of the constants starts at one. -/
theorem fold_forward (zetas : Nat → R) {w h : Nat} (hw : 0 < w) (hn : 2 ^ h * w = n) (cs : Vector R n) :
    ∀ s ≤ h,
      (((List.range s).map fun t => 2 ^ (h - 1 - t) * w).foldl
        (fun s len => Butterfly.stage (fun k => k + 1) (forwardPair zetas) len s) (1, cs)).1 = 2 ^ s ∧
      ∀ i < n, (((List.range s).map fun t => 2 ^ (h - 1 - t) * w).foldl
        (fun s len => Butterfly.stage (fun k => k + 1) (forwardPair zetas) len s) (1, cs)).2[i]! =
          transform zetas w h s (fun j => cs[j]!) i := by
  intro s
  induction s with
  | zero => exact fun _ => ⟨rfl, fun _ _ => rfl⟩
  | succ s ih =>
    intro hs
    obtain ⟨ih1, ih2⟩ := ih (by omega)
    have hlen : 0 < 2 ^ (h - 1 - s) * w := Nat.mul_pos (Nat.two_pow_pos _) hw
    have hfill := blocks_fill_forward (w := w) hs
    rw [hn] at hfill
    rw [List.range_succ, List.map_append, List.foldl_append]
    generalize ((List.range s).map fun t => 2 ^ (h - 1 - t) * w).foldl
      (fun s len => Butterfly.stage (fun k => k + 1) (forwardPair zetas) len s) (1, cs) = st at ih1 ih2
    obtain ⟨k, d⟩ := st
    obtain rfl : k = 2 ^ s := ih1
    obtain ⟨h1, h2⟩ := stage_forward zetas (2 ^ s) d hlen ((Nat.mul_comm _ _).trans hfill)
    simp only [List.map_cons, List.map_nil, List.foldl_cons, List.foldl_nil]
    refine ⟨by rw [h1, pow_succ, Nat.mul_two], fun i hi => ?_⟩
    rw [h2 i hi, transform]
    exact forward_congr (m := 2 ^ s) hlen (fun j hj => ih2 j (by rw [← hfill]; exact hj)) (by rw [hfill]; exact hi)

/-- The stages of the inverse transform on an array: the counter of the constants starts at the last one. -/
theorem fold_inverse (zetas : Nat → R) {w h : Nat} (hw : 0 < w) (hn : 2 ^ h * w = n) (cs : Vector R n) :
    ∀ t ≤ h,
      (((List.range t).map fun t => 2 ^ t * w).foldl
        (fun s len => Butterfly.stage (fun k => k - 1) (inversePair zetas) len s) (2 ^ h - 1, cs)).1 = 2 ^ (h - t) - 1 ∧
      ∀ i < n, (((List.range t).map fun t => 2 ^ t * w).foldl
        (fun s len => Butterfly.stage (fun k => k - 1) (inversePair zetas) len s) (2 ^ h - 1, cs)).2[i]! =
          inverseTransform zetas w h t (fun j => cs[j]!) i := by
  intro t
  induction t with
  | zero => exact fun _ => ⟨rfl, fun _ _ => rfl⟩
  | succ t ih =>
    intro ht
    obtain ⟨ih1, ih2⟩ := ih (by omega)
    have hlen : 0 < 2 ^ t * w := Nat.mul_pos (Nat.two_pow_pos _) hw
    have hfill := blocks_fill (w := w) ht
    rw [hn] at hfill
    rw [List.range_succ, List.map_append, List.foldl_append]
    generalize ((List.range t).map fun t => 2 ^ t * w).foldl
      (fun s len => Butterfly.stage (fun k => k - 1) (inversePair zetas) len s) (2 ^ h - 1, cs) = st at ih1 ih2
    obtain ⟨k, d⟩ := st
    obtain rfl : k = 2 ^ (h - t) - 1 := ih1
    obtain ⟨h1, h2⟩ := stage_inverse zetas (2 ^ (h - t) - 1) d hlen ((Nat.mul_comm _ _).trans hfill)
    have hpred : h - 1 - t + 1 = h - t := by omega
    have hcount : h - (t + 1) = h - 1 - t := by omega
    have hdouble : 2 ^ (h - t) = 2 * 2 ^ (h - 1 - t) := by rw [← pow_succ', hpred]
    simp only [List.map_cons, List.map_nil, List.foldl_cons, List.foldl_nil]
    refine ⟨?_, fun i hi => ?_⟩
    · rw [h1, hcount]
      omega
    · rw [h2 i hi, inverseTransform]
      exact inverse_congr (m := 2 ^ (h - 1 - t)) hlen (fun j hj => ih2 j (by rw [← hfill]; exact hj))
        (by rw [hfill]; exact hi)

end Arrays

end Ntt
