import Mathlib.Algebra.BigOperators.Fin
import Mathlib.Data.Finset.Powerset
import Mathlib.Data.List.OfFn
import Mathlib.Logic.Equiv.Fin.Basic
import Mathlib.SetTheory.Cardinal.Finite
import Mathlib.Tactic.Ring
import MlkemSelkie.Lib.Loops

/-!
# Counting inputs

How many inputs a function sends to one output: for functions that work position by position, for the weights of bit strings,
and for rejection samplers, which keep the first accepted symbols of a word.
-/

namespace Counting

variable {α β γ ι : Type*}

/-- The number of inputs of `f` with output `b`. -/
noncomputable def fiber (f : α → β) (b : β) : ℕ := Nat.card {a // f a = b}

theorem fiber_congr {f g : α → β} (h : ∀ a, f a = g a) (b : β) : fiber f b = fiber g b := by
  rw [funext h]

/-- Inputs may be renamed. -/
theorem fiber_comp {e : α → β} (he : Function.Bijective e) (f : β → γ) (c : γ) : fiber (fun a => f (e a)) c = fiber f c :=
  Nat.card_congr ((Equiv.ofBijective e he).subtypeEquiv fun _ => Iff.rfl)

/-- Outputs may be renamed. -/
theorem fiber_injective {g : β → γ} (hg : Function.Injective g) (f : α → β) (b : β) :
    fiber (fun a => g (f a)) (g b) = fiber f b :=
  Nat.card_congr (Equiv.subtypeEquivRight fun _ => hg.eq_iff)

/-- What is never an output has no inputs. -/
theorem fiber_eq_zero {f : α → β} {b : β} (h : ∀ a, f a ≠ b) : fiber f b = 0 := by
  have : IsEmpty {a // f a = b} := ⟨fun a => h a a.2⟩
  exact Nat.card_of_isEmpty

/-- A function that works position by position: the numbers of the positions multiply. -/
theorem fiber_pointwise [Fintype ι] (f : α → β) (b : ι → β) :
    fiber (fun (a : ι → α) i => f (a i)) b = ∏ i, fiber f (b i) := by
  have hpositions : ∀ a : ι → α, (fun i => f (a i)) = b ↔ ∀ i, f (a i) = b i := fun _ => funext_iff
  have hsplit : {a : ι → α // (fun i => f (a i)) = b} ≃ ∀ i, {a // f a = b i} :=
    (Equiv.subtypeEquivRight hpositions).trans (Equiv.subtypePiEquivPi (p := fun i a => f a = b i))
  exact (Nat.card_congr hsplit).trans Nat.card_pi

/-- A sum over the inputs of a value of the output. -/
theorem sum_outputs [Fintype α] [Fintype β] (f : α → β) (h : β → ℕ) : ∑ a, h (f a) = ∑ b, fiber f b * h b := by
  classical
  rw [← Finset.sum_fiberwise Finset.univ f fun a => h (f a)]
  refine Finset.sum_congr rfl fun b _ => ?_
  have hconstant : ∀ a ∈ Finset.univ.filter fun a => f a = b, h (f a) = h b := by
    intro a ha
    rw [(Finset.mem_filter.mp ha).2]
  rw [Finset.sum_congr rfl hconstant, Finset.sum_const, smul_eq_mul, fiber, Nat.card_eq_fintype_card, Fintype.card_subtype]

/-- Vectors are functions of the position. -/
theorem ofFn_bijective (n : ℕ) : Function.Bijective (Vector.ofFn : (Fin n → α) → Vector α n) := by
  refine ⟨fun a b h => funext fun i => ?_, fun v => ⟨fun i => v[i], Vector.ext fun i hi => Vector.getElem_ofFn hi⟩⟩
  have hget : ∀ f : Fin n → α, (Vector.ofFn f)[i.val] = f i := fun f => Vector.getElem_ofFn i.isLt
  rw [← hget a, ← hget b, h]

theorem card_vector (n : ℕ) : Nat.card (Vector α n) = Nat.card α ^ n := by
  rw [← Nat.card_eq_of_bijective _ (ofFn_bijective n), Nat.card_fun, Nat.card_fin]

theorem card_bytes (n : ℕ) : Nat.card (Vector UInt8 n) = 256 ^ n := by
  have hbyte : Nat.card UInt8 = 256 :=
    Nat.card_eq_of_equiv_fin ⟨UInt8.toFin, UInt8.ofFin, fun _ => rfl, fun _ => rfl⟩
  rw [card_vector, hbyte]

instance finite_bytes (n : ℕ) : Finite (Vector UInt8 n) :=
  Nat.finite_of_card_ne_zero (by rw [card_bytes]; exact pow_ne_zero n (by decide))

/-! ## Weights of bit strings -/

/-- The number of ones. -/
def weight [Fintype ι] (a : ι → Bool) : ℕ := ∑ i, (a i).toNat

/-- Bit strings are subsets, and the weight is the size. -/
theorem fiber_weight [Fintype ι] (k : ℕ) : fiber (weight : (ι → Bool) → ℕ) k = (Fintype.card ι).choose k := by
  classical
  have hsize : ∀ s : Finset ι, weight (fun i => decide (i ∈ s)) = s.card := by
    intro s
    have hbit : ∀ i, (decide (i ∈ s)).toNat = if i ∈ s then 1 else 0 := fun i => by
      by_cases hi : i ∈ s <;> simp only [hi, decide_true, decide_false, Bool.toNat_true, Bool.toNat_false, if_true, if_false]
    rw [weight, Finset.sum_congr rfl fun i _ => hbit i, Finset.sum_ite_mem, Finset.univ_inter, Finset.sum_const, smul_eq_mul,
      Nat.mul_one]
  have hbijective : Function.Bijective fun (s : Finset ι) (i : ι) => decide (i ∈ s) := by
    refine ⟨fun s t h => Finset.ext fun i => ?_, fun a => ⟨Finset.univ.filter fun i => a i = true, funext fun i => ?_⟩⟩
    · exact decide_eq_decide.mp (congrFun h i)
    · simp only [Finset.mem_filter, Finset.mem_univ, true_and, Bool.decide_eq_true]
  rw [← fiber_comp hbijective weight k, fiber_congr hsize, fiber, Nat.card_eq_fintype_card, Fintype.card_subtype,
    ← Finset.card_univ (α := ι), ← Finset.card_powersetCard]
  congr 1
  ext s
  rw [Finset.mem_filter, Finset.mem_powersetCard]
  exact and_congr_left fun _ => iff_of_true (Finset.mem_univ s) (Finset.subset_univ s)

/-- The weight of one string less the weight of another. -/
def difference [Fintype ι] (a : (ι → Bool) × (ι → Bool)) : ℤ := weight a.1 - weight a.2

theorem weight_not [Fintype ι] (a : ι → Bool) : weight (fun i => !a i) + weight a = Fintype.card ι := by
  have hbit : ∀ i, (!a i).toNat + (a i).toNat = 1 := fun i => by cases a i <;> rfl
  rw [weight, weight, ← Finset.sum_add_distrib, Finset.sum_congr rfl fun i _ => hbit i, Finset.sum_const, smul_eq_mul,
    Nat.mul_one, Finset.card_univ]

/-- The difference of two weights is a weight: that of the first string and the complement of the second. -/
theorem fiber_difference [Fintype ι] {x : ℤ} (hx : -(Fintype.card ι : ℤ) ≤ x) :
    fiber (difference : (ι → Bool) × (ι → Bool) → ℤ) x = (2 * Fintype.card ι).choose ((Fintype.card ι : ℤ) + x).toNat := by
  let joined : (ι → Bool) × (ι → Bool) → ι ⊕ ι → Bool := fun a => Sum.elim a.1 fun i => !a.2 i
  have hjoined : Function.Bijective joined := by
    refine ⟨fun a b h => ?_, fun a => ⟨(fun i => a (.inl i), fun i => !a (.inr i)), funext fun i => ?_⟩⟩
    · have hfirst : a.1 = b.1 := funext fun i => congrFun h (.inl i)
      have hsecond : a.2 = b.2 := funext fun i => Bool.not_inj (congrFun h (.inr i))
      exact Prod.ext hfirst hsecond
    · cases i with
      | inl i => rfl
      | inr i => exact Bool.not_not _
  have hweight : ∀ a, weight (joined a) + weight a.2 = weight a.1 + Fintype.card ι := by
    intro a
    have hsplit : weight (joined a) = weight a.1 + weight (fun i => !a.2 i) := Fintype.sum_sum_type _
    rw [hsplit, Nat.add_assoc, weight_not]
  have hcard : Fintype.card (ι ⊕ ι) = 2 * Fintype.card ι := by rw [Fintype.card_sum, Nat.two_mul]
  rw [← hcard, ← fiber_weight, ← fiber_comp hjoined weight]
  refine Nat.card_congr (Equiv.subtypeEquivRight fun a => ?_)
  have h : weight (joined a) + weight a.2 = weight a.1 + Fintype.card ι := hweight a
  show (weight a.1 : ℤ) - weight a.2 = x ↔ weight (joined a) = _
  omega

/-! ## Rejection samplers -/

/-- The accepted symbols of a word, decoded, in order. -/
def accepted {m : ℕ} (accept : α → Option β) (w : Fin m → α) : List β := (List.ofFn w).filterMap accept

/-- The number of words of `m` symbols whose accepted symbols have a property. -/
noncomputable def words (accept : α → Option β) (m : ℕ) (p : List β → Prop) : ℕ :=
  Nat.card {w : Fin m → α // p (accepted accept w)}

variable {accept : α → Option β} {m : ℕ}

theorem words_congr {p p' : List β → Prop} (h : ∀ l, p l ↔ p' l) : words accept m p = words accept m p' :=
  Nat.card_congr (Equiv.subtypeEquivRight fun _ => h _)

theorem words_none {p : List β → Prop} (h : ∀ l, ¬p l) : words accept m p = 0 := by
  have : IsEmpty {w : Fin m → α // p (accepted accept w)} := ⟨fun w => h _ w.2⟩
  exact Nat.card_of_isEmpty

theorem words_all {p : List β → Prop} (h : ∀ l, p l) : words accept m p = Nat.card α ^ m := by
  rw [words, Nat.card_congr (Equiv.subtypeUnivEquiv fun w => h (accepted accept w)), Nat.card_fun, Nat.card_fin]

/-- The words by their first symbol. -/
theorem words_succ [Fintype α] [Fintype β] (p : List β → Prop) :
    words accept (m + 1) p = fiber accept none * words accept m p + ∑ b,
      fiber accept (some b) * words accept m fun l => p (b :: l) := by
  have hfirst : ∀ (a : α) (w : Fin m → α), accepted accept (Fin.cons a w : Fin (m + 1) → α) =
      (accept a).elim (accepted accept w) fun b => b :: accepted accept w := by
    intro a w
    rw [accepted, List.ofFn_succ, Fin.cons_zero, List.filterMap_cons]
    simp only [Fin.cons_succ]
    cases accept a <;> rfl
  have hsplit : words accept (m + 1) p = ∑ a,
    (accept a).elim (words accept m p) fun b => words accept m fun l => p (b :: l) := by
    have hcons : {w : Fin (m + 1) → α // p (accepted accept w)} ≃
        {x : α × (Fin m → α) // p ((accept x.1).elim (accepted accept x.2) fun b => b :: accepted accept x.2)} :=
      ((Fin.consEquiv fun _ => α).subtypeEquiv fun x => by rw [← hfirst]; rfl).symm
    rw [words, Nat.card_congr (hcons.trans (Equiv.subtypeProdEquivSigmaSubtype fun a w =>
      p ((accept a).elim (accepted accept w) fun b => b :: accepted accept w))), Nat.card_sigma]
    refine Finset.sum_congr rfl fun a _ => ?_
    cases accept a <;> rfl
  rw [hsplit, sum_outputs accept fun o => o.elim (words accept m p) fun b => words accept m fun l => p (b :: l),
    Fintype.sum_option]
  rfl

variable [Fintype α] [Fintype β]

/-- How many of the `size ^ m` words of `m` symbols draw `k` given outputs first, where `rejected` symbols are rejected and
`each` decode to any one output. -/
def draws (size rejected each : ℕ) : ℕ → ℕ → ℕ
  | m, 0 => size ^ m
  | 0, _ + 1 => 0
  | m + 1, k + 1 => rejected * draws size rejected each m (k + 1) + each * draws size rejected each m k

variable {each : ℕ} (huniform : ∀ b, fiber accept (some b) = each)

include huniform

/-- A rejection sampler draws all sequences of one length equally often. -/
theorem words_start (l : List β) :
    words accept m (l <+: ·) = draws (Nat.card α) (fiber accept none) each m l.length := by
  classical
  induction m generalizing l with
  | zero =>
    cases l with
    | nil => rw [words_all fun _ => List.nil_prefix, List.length_nil, draws]
    | cons b l =>
      rw [List.length_cons, draws, words]
      have : IsEmpty {w : Fin 0 → α // b :: l <+: accepted accept w} :=
        ⟨fun w => List.cons_ne_nil b l (List.prefix_nil.mp w.2)⟩
      exact Nat.card_of_isEmpty
  | succ m ih =>
    cases l with
    | nil => rw [words_all fun _ => List.nil_prefix, List.length_nil, draws]
    | cons b l =>
      have hhit : words accept m (fun l' => b :: l <+: b :: l') = words accept m (l <+: ·) :=
        words_congr fun l' => by rw [List.cons_prefix_cons, and_iff_right rfl]
      have hmiss : ∀ b', b' ≠ b → words accept m (fun l' => b :: l <+: b' :: l') = 0 :=
        fun b' hb => words_none fun l' h => hb (List.cons_prefix_cons.mp h).1.symm
      rw [words_succ, Finset.sum_eq_single b (fun b' _ hb => by rw [hmiss b' hb, Nat.mul_zero]) fun h =>
        absurd (Finset.mem_univ b) h, hhit, huniform, ih, ih, List.length_cons, draws]

/-- The words that draw `k` outputs at all: as many for each of the sequences. -/
theorem words_length (k : ℕ) :
    words accept m (k ≤ ·.length) = Nat.card β ^ k * draws (Nat.card α) (fiber accept none) each m k := by
  induction m generalizing k with
  | zero =>
    cases k with
    | zero => rw [words_all fun _ => Nat.zero_le _, draws, pow_zero, pow_zero, Nat.one_mul]
    | succ k =>
      rw [draws, Nat.mul_zero, words]
      have : IsEmpty {w : Fin 0 → α // k + 1 ≤ (accepted accept w).length} := ⟨fun w => Nat.not_succ_le_zero k w.2⟩
      exact Nat.card_of_isEmpty
  | succ m ih =>
    cases k with
    | zero => rw [words_all fun _ => Nat.zero_le _, draws, pow_zero, Nat.one_mul]
    | succ k =>
      have hnext : ∀ b, words accept m (fun l => k + 1 ≤ (b :: l).length) = words accept m (k ≤ ·.length) :=
        fun b => words_congr fun l => by rw [List.length_cons, Nat.add_le_add_iff_right]
      rw [words_succ, Finset.sum_congr rfl fun b _ => by rw [huniform, hnext], Finset.sum_const, Finset.card_univ,
        ← Nat.card_eq_fintype_card, smul_eq_mul, ih, ih, draws, Nat.pow_succ]
      ring

end Counting
