import MlkemSelkie.Lib.Counting
import MlkemSelkie.Theorems.Sampling

/-!
# The distributions of the samplers

On uniform bytes the noise sampler draws every coefficient from the centered binomial distribution, independently of the
others, and the rejection sampler draws every element of Tq equally often: both are statements about the number of byte
strings that give one result.
-/

namespace MlkemSelkie

open Counting Fips203 Sampling

/-! ## The centered binomial sampler -/

/-- The two halves of the bits that make a coefficient. -/
def coefficientBits (eta : Eta) (bytes : Vector UInt8 (64 * eta.toNat)) (i : Fin 256) :
    (Fin eta.toNat → Bool) × (Fin eta.toNat → Bool) :=
  (fun j => bit bytes.toList (2 * i * eta.toNat + j), fun j => bit bytes.toList (2 * i * eta.toNat + eta.toNat + j))

/-- Every bit of the string is a bit of one coefficient. -/
theorem coefficientBits_injective (eta : Eta) : Function.Injective (coefficientBits eta) := by
  intro a b h
  have hbits : ∀ t < 512 * eta.toNat, bit a.toList t = bit b.toList t := by
    intro t ht
    have heta : 0 < eta.toNat := by cases eta <;> decide
    have hdiv := Nat.div_add_mod t (2 * eta.toNat)
    have hmod := Nat.mod_lt t (show 0 < 2 * eta.toNat by omega)
    have hi : t / (2 * eta.toNat) < 256 := Nat.div_lt_of_lt_mul (by rw [Nat.mul_right_comm]; omega)
    have hbase : 2 * (t / (2 * eta.toNat)) * eta.toNat = 2 * eta.toNat * (t / (2 * eta.toNat)) := by ring
    have hcoefficient := congrFun h ⟨t / (2 * eta.toNat), hi⟩
    rcases Nat.lt_or_ge (t % (2 * eta.toNat)) eta.toNat with hlow | hhigh
    · have hbit := congrFun (congrArg Prod.fst hcoefficient) ⟨t % (2 * eta.toNat), hlow⟩
      simp only [coefficientBits, hbase, hdiv] at hbit
      exact hbit
    · have hbit := congrFun (congrArg Prod.snd hcoefficient) ⟨t % (2 * eta.toNat) - eta.toNat, by omega⟩
      have hpos : 2 * eta.toNat * (t / (2 * eta.toNat)) + eta.toNat + (t % (2 * eta.toNat) - eta.toNat) = t := by omega
      simp only [coefficientBits, hbase, hpos] at hbit
      exact hbit
  have hlen : ∀ v : Vector UInt8 (64 * eta.toNat), v.toList.length = 64 * eta.toNat := fun v => v.length_toList
  refine Vector.toList_inj.mp (Digits.ofBytes_inj ((hlen a).trans (hlen b).symm) (Nat.eq_of_testBit_eq fun t => ?_))
  rcases Nat.lt_or_ge t (512 * eta.toNat) with ht | ht
  · rw [← bit_eq_testBit, ← bit_eq_testBit, hbits t ht]
  · have hlarge : ∀ v : Vector UInt8 (64 * eta.toNat), LittleEndian.ofBytes v.toList < 2 ^ t := by
      intro v
      have hlt := Digits.ofBytes_lt v.toList
      rw [hlen v] at hlt
      exact Nat.lt_of_lt_of_le hlt (Nat.pow_le_pow_right (by decide) (by omega))
    rw [Nat.testBit_lt_two_pow (hlarge a), Nat.testBit_lt_two_pow (hlarge b)]

theorem coefficientBits_bijective (eta : Eta) : Function.Bijective (coefficientBits eta) := by
  refine (coefficientBits_injective eta).bijective_of_nat_card_le (Nat.le_of_eq ?_)
  rw [card_bytes, Nat.card_fun, Nat.card_prod, Nat.card_fun, Nat.card_fin, Nat.card_fin, Nat.card_eq_fintype_card,
    Fintype.card_bool, show 256 = 2 ^ 8 from rfl, ← pow_add, ← pow_mul, ← pow_mul]
  congr 1
  omega

/-- A sampled coefficient is the difference of two weights, as an integer. -/
theorem sampleCbd_toInt (eta : Eta) (bytes : Vector UInt8 (64 * eta.toNat)) (i : Fin 256) :
    (RqElement.sampleCbd eta bytes.toList).inner[i].toInt = difference (coefficientBits eta bytes i) := by
  obtain ⟨hwithin, hresidues⟩ := sampleCbd_centered eta bytes.toList Vector.length_toList
  have heta : eta.toNat ≤ 3 := by cases eta <;> decide
  have hweight : ∀ a : Fin eta.toNat → Bool, weight a ≤ eta.toNat := fun a => by
    have h := weight_not a
    rw [Fintype.card_fin] at h
    omega
  have h1 := hweight (coefficientBits eta bytes i).1
  have h2 := hweight (coefficientBits eta bytes i).2
  have hclass : ((RqElement.sampleCbd eta bytes.toList).inner[i].toInt : Zq) =
    (difference (coefficientBits eta bytes i) : ℤ) := by
    refine (congrFun hresidues i).trans ((samplePolyCbd_sums eta.toNat bytes.toList i).trans ?_)
    rw [difference, weight, weight, Int.cast_sub, Int.cast_natCast, Int.cast_natCast, Nat.cast_sum, Nat.cast_sum,
      Finset.sum_range, Finset.sum_range]
    rfl
  obtain ⟨hlow, hhigh⟩ := hwithin i
  have hmod := (ZMod.intCast_eq_intCast_iff_dvd_sub _ _ 3329).mp hclass
  rw [difference] at hmod ⊢
  omega

/-- How many of the pairs of `eta`-bit strings have the difference `x`. -/
def cbdWeight (eta : Nat) (x : Int) : Nat := if -(eta : Int) ≤ x ∧ x ≤ eta then (2 * eta).choose (eta + x).toNat else 0

theorem fiber_difference_eta (eta : Nat) (x : Int) :
    fiber (difference : (Fin eta → Bool) × (Fin eta → Bool) → ℤ) x = cbdWeight eta x := by
  have hcard : Fintype.card (Fin eta) = eta := Fintype.card_fin eta
  rw [cbdWeight]
  by_cases hx : -(eta : Int) ≤ x ∧ x ≤ eta
  · rw [if_pos hx, fiber_difference (by rw [hcard]; exact hx.1), hcard]
  · rw [if_neg hx]
    refine fiber_eq_zero fun a h => hx ?_
    have h1 := weight_not a.1
    have h2 := weight_not a.2
    rw [hcard] at h1 h2
    rw [difference] at h
    omega

/-- The representatives of an element as integers. -/
def RqElement.integers (f : RqElement) (i : Fin 256) : Int := f.inner[i].toInt

theorem RqElement.integers_injective : Function.Injective RqElement.integers := by
  intro f g h
  refine congrArg RqElement.mk (Vector.ext fun i hi => ?_)
  exact congrArg FieldElement.mk (Int16.toInt_inj.mp (congrFun h ⟨i, hi⟩))

/-- On the `64 * eta` bytes of a stream the sampler is exactly the centered binomial distribution on every coefficient,
and the coefficients are independent. -/
theorem sampleCbd_distribution (eta : Eta) (f : RqElement) :
    fiber (fun bytes : Vector UInt8 (64 * eta.toNat) => RqElement.sampleCbd eta bytes.toList) f =
      ∏ i : Fin 256, cbdWeight eta.toNat f.inner[i].toInt := by
  calc fiber (fun bytes : Vector UInt8 (64 * eta.toNat) => RqElement.sampleCbd eta bytes.toList) f
      = fiber (fun bytes : Vector UInt8 (64 * eta.toNat) => (RqElement.sampleCbd eta bytes.toList).integers) f.integers :=
        (fiber_injective RqElement.integers_injective (fun bytes : Vector UInt8 (64 * eta.toNat) =>
          RqElement.sampleCbd eta bytes.toList) f).symm
    _ = fiber (fun bytes i => difference (coefficientBits eta bytes i)) f.integers :=
        fiber_congr (fun bytes => funext fun i => sampleCbd_toInt eta bytes i) f.integers
    _ = fiber (fun (bits : Fin 256 → (Fin eta.toNat → Bool) × (Fin eta.toNat → Bool)) i => difference (bits i)) f.integers :=
        fiber_comp (coefficientBits_bijective eta) (fun bits i => difference (bits i)) f.integers
    _ = ∏ i, fiber difference (f.integers i) := fiber_pointwise difference f.integers
    _ = ∏ i, cbdWeight eta.toNat (f.integers i) :=
      Finset.prod_congr rfl fun i _ => fiber_difference_eta eta.toNat (f.integers i)

/-! ## The rejection sampler -/

variable {Γ : Crates}

/-- What the serial sampler returns once it has read some blocks; `none` while it reads on. -/
def sampleBlocks (blocks : List (Vector UInt8 168)) : Option TqElement :=
  let s := blocks.foldl (fun s block => Generic.reject block.toList s) emptyReject
  if s.count < N then none else some (TqElement.fromRejectBuffer s)

/-- The first blocks of a stream. -/
def blocksOf (stream : Nat → UInt8) (n : Nat) : List (Vector UInt8 168) :=
  (List.range n).map fun m => Vector.ofFn fun k => stream (168 * m + k)

theorem blocksOf_collect (stream : Nat → UInt8) (n : Nat) : Collects stream (2 * (56 * n))
    ((blocksOf stream n).foldl (fun s block => Generic.reject block.toList s) emptyReject) := by
  induction n with
  | zero => exact collects_empty stream
  | succ n ih =>
    rw [blocksOf, List.range_succ, List.map_append, List.foldl_append, ← blocksOf]
    exact collects_block (m := 1) ih _ fun i hi => Vector.getElem_ofFn hi

/-- The sampler of the code is the sampler of the blocks of its stream, as many as it takes. -/
theorem sampleNtt_blocks (hΓ : Γ.Lawful) (rho : Vector UInt8 32) (i j : UInt8) (t : TqElement) :
    TqElement.sampleNtt Γ rho i j = some t ↔ ∃ n,
      sampleBlocks (blocksOf (Γ.hashes.XOF (rho.toList ++ [i, j])) n) = some t := by
  refine ⟨fun h => ?_, fun ⟨n, h⟩ => ?_⟩
  · obtain ⟨p, hloop, rfl⟩ := Option.map_eq_some_iff.mp h
    obtain ⟨_, hs, hfull⟩ := sampleNttLoop_full hΓ hloop
    obtain ⟨n, hn⟩ := hs.sufficient hfull
    have hblocks := blocksOf_collect (Γ.hashes.XOF (rho.toList ++ [i, j])) n
    have hfull' := hblocks.full_of_sufficient hn (by omega)
    refine ⟨n, ?_⟩
    rw [sampleBlocks, if_neg (Nat.not_lt.mpr hfull'), fromRejectBuffer_eq hblocks hfull', fromRejectBuffer_eq hs hfull]
  · have hblocks := blocksOf_collect (Γ.hashes.XOF (rho.toList ++ [i, j])) n
    rw [sampleBlocks] at h
    by_cases hroom : ((blocksOf (Γ.hashes.XOF (rho.toList ++ [i, j])) n).foldl
        (fun s block => Generic.reject block.toList s) emptyReject).count < N
    · rw [if_pos hroom] at h
      cases h
    · rw [if_neg hroom, fromRejectBuffer_eq hblocks (Nat.not_lt.mp hroom)] at h
      rw [sampleNtt_eq hΓ rho i j (hblocks.sufficient (Nat.not_lt.mp hroom)), h]

theorem candidate_lt (stream : Nat → UInt8) (t : Nat) : candidate stream t < 4096 := by
  have hbyte : ∀ i, (stream i).toNat < 256 := fun i => (stream i).toNat_lt
  have h1 := hbyte (3 * (t / 2))
  have h2 := hbyte (3 * (t / 2) + 1)
  have h3 := hbyte (3 * (t / 2) + 2)
  simp only [candidate]
  split <;> omega

/-- The candidates of a block. -/
def blockCandidates (block : Vector UInt8 168) (t : Fin 112) : Fin 4096 :=
  ⟨candidate (fun k => block.toList[k]!) t, candidate_lt _ _⟩

/-- Three bytes and their two candidates determine each other. -/
theorem candidates_determine {stream stream' : Nat → UInt8} {g : Nat}
    (h0 : candidate stream (2 * g) = candidate stream' (2 * g))
    (h1 : candidate stream (2 * g + 1) = candidate stream' (2 * g + 1)) {r : Nat} (hr : r < 3) :
    stream (3 * g + r) = stream' (3 * g + r) := by
  have hbyte : ∀ (s : Nat → UInt8) i, (s i).toNat < 256 := fun s i => (s i).toNat_lt
  have heven : 2 * g / 2 = g := by omega
  have hodd : (2 * g + 1) / 2 = g := by omega
  simp only [candidate, heven, hodd, Nat.mul_mod_right, Nat.mul_add_mod, if_true, show ¬1 % 2 = 0 by decide, if_false]
    at h0 h1
  have hb0 := hbyte stream (3 * g)
  have hb1 := hbyte stream (3 * g + 1)
  have hb2 := hbyte stream (3 * g + 2)
  have hb0' := hbyte stream' (3 * g)
  have hb1' := hbyte stream' (3 * g + 1)
  have hb2' := hbyte stream' (3 * g + 2)
  apply UInt8.toNat_inj.mp
  obtain rfl | rfl | rfl : r = 0 ∨ r = 1 ∨ r = 2 := by omega
  · rw [Nat.add_zero]
    omega
  · omega
  · omega

/-- The candidates of all blocks of a run, one after the other. -/
def candidateWord {n : Nat} (blocks : Fin n → Vector UInt8 168) (t : Fin (n * 112)) : Fin 4096 :=
  blockCandidates (blocks (finProdFinEquiv.symm t).1) (finProdFinEquiv.symm t).2

theorem candidateWord_bijective (n : Nat) : Function.Bijective (candidateWord : (Fin n → Vector UInt8 168) → _) := by
  have hinjective : Function.Injective (candidateWord : (Fin n → Vector UInt8 168) → _) := by
    intro a b h
    refine funext fun i => Vector.ext fun k hk => ?_
    have hcandidate : ∀ t : Fin 112, candidate (fun k => (a i).toList[k]!) t = candidate (fun k => (b i).toList[k]!) t := by
      intro t
      have ht := congrFun h (finProdFinEquiv (i, t))
      rw [candidateWord, candidateWord, Equiv.symm_apply_apply] at ht
      exact congrArg Fin.val ht
    have hbyte := candidates_determine (g := k / 3) (hcandidate ⟨2 * (k / 3), by omega⟩)
      (hcandidate ⟨2 * (k / 3) + 1, by omega⟩)
      (Nat.mod_lt k (by decide : 3 > 0))
    rw [Nat.div_add_mod] at hbyte
    have hget : ∀ v : Vector UInt8 168, v.toList[k]! = v[k] := fun v => by
      rw [getElem!_pos v.toList k (by rw [Vector.length_toList]; exact hk), Vector.getElem_toList]
    exact (hget (a i)).symm.trans (hbyte.trans (hget (b i)))
  refine hinjective.bijective_of_nat_card_le (Nat.le_of_eq ?_)
  rw [Nat.card_fun, Nat.card_fun, card_bytes, Nat.card_fin, Nat.card_fin, Nat.card_fin, Nat.mul_comm n, pow_mul]
  exact congrArg (· ^ n) (by norm_num)

/-- The code accepts a candidate below q, as it stands. -/
def acceptCandidate (candidate : Fin 4096) : Option (Fin 3329) :=
  if h : candidate.val < 3329 then some ⟨candidate, h⟩ else none

/-- The field element of a canonical value. -/
def elementOf (a : Fin 3329) : FieldElement := FieldElement.new (UInt16.ofNat a)

theorem elementOf_injective : Function.Injective elementOf := by
  intro a b h
  have hvalue : ∀ a : Fin 3329, (elementOf a).toInt = (a.val : Int) := fun a => by
    rw [elementOf, FieldElement.new_toInt, UInt16.toNat_ofNat', Nat.mod_eq_of_lt (Nat.lt_trans a.isLt (by decide)),
      Nat.mod_eq_of_lt a.isLt]
  have h' := congrArg FieldElement.toInt h
  rw [hvalue, hvalue] at h'
  exact Fin.ext (Int.ofNat_inj.mp h')

/-- Every candidate is accepted as one value, and every value comes from one candidate. -/
theorem acceptCandidate_fiber (a : Fin 3329) : fiber acceptCandidate (some a) = 1 := by
  refine Nat.card_eq_one_iff_exists.mpr ⟨⟨⟨a, by omega⟩, dif_pos a.isLt⟩, fun ⟨c, hc⟩ => Subtype.ext (Fin.ext ?_)⟩
  by_cases h : c.val < 3329
  · rw [acceptCandidate, dif_pos h] at hc
    exact congrArg (fun a : Fin 3329 => a.val) (Option.some.inj hc)
  · rw [acceptCandidate, dif_neg h] at hc
    cases hc

theorem accepted_candidates (cs : List (Fin 4096)) :
    Sampling.accepted (cs.map (·.val)) = (cs.filterMap acceptCandidate).map elementOf := by
  induction cs with
  | nil => rfl
  | cons c cs ih =>
    have hcons : Sampling.accepted ((c :: cs).map (·.val)) = Sampling.accepted [c.val] ++
      Sampling.accepted (cs.map (·.val)) :=
      accepted_append [c.val] _
    rw [hcons, ih, List.filterMap_cons, acceptCandidate]
    by_cases h : c.val < 3329
    · have hone : Sampling.accepted [c.val] = [elementOf ⟨c, h⟩] := by
        simp only [Sampling.accepted, List.filter_cons, show c.val < Q from h, decide_true, if_true, List.filter_nil,
          List.map_cons, List.map_nil, elementOf]
      rw [dif_pos h, hone]
      rfl
    · have hnone : Sampling.accepted [c.val] = [] := by
        simp only [Sampling.accepted, List.filter_cons, show ¬c.val < Q from h, decide_false, Bool.false_eq_true, if_false,
          List.filter_nil, List.map_nil]
      rw [dif_neg h, hnone]
      rfl

/-- The buffer after some blocks holds the accepted candidates of all of them. -/
theorem blocks_buffered {n : Nat} (blocks : Fin n → Vector UInt8 168) :
    Buffered ((Counting.accepted acceptCandidate (candidateWord blocks)).map elementOf)
      ((List.ofFn blocks).foldl (fun s block => Generic.reject block.toList s) emptyReject) := by
  have hrun : ∀ (bs : List (Vector UInt8 168)) {l : List FieldElement} {s : RejectState}, Buffered l s →
      Buffered (l ++ Sampling.accepted (bs.flatMap fun b => candidatesOf b.toList 112))
        (bs.foldl (fun s block => Generic.reject block.toList s) s) := by
    intro bs
    induction bs with
    | nil =>
      intro l s h
      rw [List.flatMap_nil, Sampling.accepted, List.filter_nil, List.map_nil, List.append_nil]
      exact h
    | cons b bs ih =>
      intro l s h
      rw [List.flatMap_cons, accepted_append, ← List.append_assoc, List.foldl_cons]
      exact ih (h.reject b.toList 56 Vector.length_toList)
  have hword : (List.ofFn (candidateWord blocks)).map (·.val) = (List.ofFn blocks).flatMap fun b =>
    candidatesOf b.toList 112 := by
    have hblock : ∀ b : Vector UInt8 168, (List.ofFn (blockCandidates b)).map (·.val) = candidatesOf b.toList 112 :=
      fun b => by
      rw [List.map_ofFn, candidatesOf, List.ofFn_eq_map, ← List.map_coe_finRange_eq_range, List.map_map]
      rfl
    have hsplit : ∀ (i : Fin n) (j : Fin 112) h, candidateWord blocks ⟨i * 112 + j, h⟩ = blockCandidates (blocks i) j := by
      intro i j h
      have hindex : (⟨i * 112 + j, h⟩ : Fin (n * 112)) = finProdFinEquiv (i, j) := Fin.ext (by
        show i.val * 112 + j.val = j.val + 112 * i.val
        omega)
      rw [hindex, candidateWord, Equiv.symm_apply_apply]
    rw [List.ofFn_mul, List.map_flatten, List.map_ofFn, List.flatMap, List.map_ofFn]
    refine congrArg List.flatten (congrArg List.ofFn (funext fun i => ?_))
    simp only [Function.comp_apply, hsplit]
    exact hblock (blocks i)
  have h := hrun (List.ofFn blocks) buffered_empty
  rw [List.nil_append, ← hword, accepted_candidates] at h
  exact h

theorem TqElement.new_injective : Function.Injective TqElement.new := fun a b h => by
  rw [← unpack_pack a, ← unpack_pack b]
  exact congrArg (fun t : TqElement => Poly.Generic.unpack t.inner) h

/-- The element of Tq with some canonical coefficients. -/
def tqOf (a : Fin 256 → Fin 3329) : TqElement := TqElement.new (Vector.ofFn fun i => elementOf (a i))

/-- The sampler has read enough once 256 candidates are accepted. -/
theorem sampleBlocks_isSome {n : Nat} (blocks : Fin n → Vector UInt8 168) :
    (sampleBlocks (List.ofFn blocks)).isSome ↔ 256 ≤ (Counting.accepted acceptCandidate (candidateWord blocks)).length := by
  have hbuffered := blocks_buffered blocks
  have hN : N = 256 := rfl
  rw [sampleBlocks]
  rcases Nat.lt_or_ge ((List.ofFn blocks).foldl (fun s block => Generic.reject block.toList s) emptyReject).count N with
    hroom | hfull
  · have hlen := (hbuffered.partly hroom).1
    rw [List.length_map] at hlen
    rw [if_pos hroom]
    exact iff_of_false Bool.false_ne_true (by omega)
  · have hlen := (hbuffered.full hfull).1
    rw [List.length_map] at hlen
    rw [if_neg (Nat.not_lt.mpr hfull)]
    exact iff_of_true rfl hlen

/-- The sampler returns the first accepted candidates. -/
theorem sampleBlocks_eq_some {n : Nat} (blocks : Fin n → Vector UInt8 168) (a : Fin 256 → Fin 3329) :
    sampleBlocks (List.ofFn blocks) = some (tqOf a) ↔
      List.ofFn a <+: Counting.accepted acceptCandidate (candidateWord blocks) := by
  have hbuffered := blocks_buffered blocks
  have hsome := sampleBlocks_isSome blocks
  rw [sampleBlocks] at hsome ⊢
  rcases Nat.lt_or_ge ((List.ofFn blocks).foldl (fun s block => Generic.reject block.toList s) emptyReject).count N with
    hroom | hfull
  · rw [if_pos hroom] at hsome ⊢
    refine iff_of_false (fun h => by cases h) fun h => ?_
    have hlen := h.length_le
    rw [List.length_ofFn] at hlen
    exact absurd (hsome.mpr hlen) Bool.false_ne_true
  · rw [if_neg (Nat.not_lt.mpr hfull)] at hsome ⊢
    have hlen : 256 ≤ (Counting.accepted acceptCandidate (candidateWord blocks)).length := hsome.mp rfl
    have hbuffer : ∀ i : Fin 256, ∃ x, (Counting.accepted acceptCandidate (candidateWord blocks))[i.val]? = some x ∧
        ((List.ofFn blocks).foldl (fun s block => Generic.reject block.toList s) emptyReject).buffer[i.val]! =
          elementOf x := by
      intro i
      refine ⟨_, List.getElem?_eq_getElem (by omega), ?_⟩
      rw [(hbuffered.full hfull).2 i i.isLt, padded, List.getElem?_map, List.getElem?_eq_getElem (by omega)]
      rfl
    rw [List.prefix_iff_getElem?, Option.some.injEq, TqElement.fromRejectBuffer, tqOf, TqElement.new_injective.eq_iff,
      (ofFn_bijective N).injective.eq_iff]
    refine ⟨fun h i hi => ?_, fun h => funext fun i => ?_⟩
    · rw [List.length_ofFn] at hi
      obtain ⟨x, hx, helement⟩ := hbuffer ⟨i, hi⟩
      have hvalue : elementOf x = elementOf (a ⟨i, hi⟩) := helement.symm.trans (congrFun h ⟨i, hi⟩)
      rw [List.getElem_ofFn, ← elementOf_injective hvalue]
      exact hx
    · obtain ⟨x, hx, helement⟩ := hbuffer i
      have hvalue := h i.val (by rw [List.length_ofFn]; exact i.isLt)
      rw [hx, List.getElem_ofFn] at hvalue
      rw [helement, Option.some.inj hvalue]

/-- Each element is the result of as many runs of `n` blocks as any other. -/
theorem sampleBlocks_uniform (n : Nat) (a : Fin 256 → Fin 3329) :
    fiber (fun blocks : Fin n → Vector UInt8 168 => sampleBlocks (List.ofFn blocks)) (some (tqOf a)) * 3329 ^ 256 =
      Nat.card {blocks : Fin n → Vector UInt8 168 // (sampleBlocks (List.ofFn blocks)).isSome} := by
  have hdrawn : fiber (fun blocks : Fin n → Vector UInt8 168 => sampleBlocks (List.ofFn blocks)) (some (tqOf a)) =
      words acceptCandidate (n * 112) (List.ofFn a <+: ·) :=
    Nat.card_congr ((Equiv.ofBijective _ (candidateWord_bijective n)).subtypeEquiv fun blocks =>
      sampleBlocks_eq_some blocks a)
  have hended : Nat.card {blocks : Fin n → Vector UInt8 168 // (sampleBlocks (List.ofFn blocks)).isSome} =
      words acceptCandidate (n * 112) (256 ≤ ·.length) :=
    Nat.card_congr ((Equiv.ofBijective _ (candidateWord_bijective n)).subtypeEquiv fun blocks => sampleBlocks_isSome blocks)
  rw [hdrawn, hended, words_start acceptCandidate_fiber, words_length acceptCandidate_fiber, List.length_ofFn,
    Nat.card_fin 3329, Nat.mul_comm]

/-- The sampler of the code returns what the blocks of its stream give, as many as it takes, and draws every element of
Tq equally often: for every number of blocks, of all runs of blocks that end it the same part ends it with each element.
-/
theorem sampleNtt_uniform (hΓ : Γ.Lawful) :
    (∀ (rho : Vector UInt8 32) (i j : UInt8) (t : TqElement), TqElement.sampleNtt Γ rho i j = some t ↔
      ∃ n, sampleBlocks (blocksOf (Γ.hashes.XOF (rho.toList ++ [i, j])) n) = some t) ∧
    ∀ (n : Nat) (a : Fin 256 → Fin 3329),
      fiber (fun blocks : Fin n → Vector UInt8 168 => sampleBlocks (List.ofFn blocks)) (some (tqOf a)) * 3329 ^ 256 =
        Nat.card {blocks : Fin n → Vector UInt8 168 // (sampleBlocks (List.ofFn blocks)).isSome} :=
  ⟨sampleNtt_blocks hΓ, sampleBlocks_uniform⟩

/-- The blocks that one entry of a matrix is the sample of, and how often runs of three blocks end with the element zero. -/
theorem sampleNtt_uniform_zero :
    (∃ t n, TqElement.sampleNtt Crates.fips202 exampleRho 0 0 = some t ∧
      sampleBlocks (blocksOf (Crates.fips202.hashes.XOF (exampleRho.toList ++ [0, 0])) n) = some t) ∧
    fiber (fun blocks : Fin 3 → Vector UInt8 168 => sampleBlocks (List.ofFn blocks)) (some (tqOf fun _ => 0)) * 3329 ^ 256 =
      Nat.card {blocks : Fin 3 → Vector UInt8 168 // (sampleBlocks (List.ofFn blocks)).isSome} := by
  obtain ⟨hblocks, huniform⟩ := sampleNtt_uniform Crates.fips202_lawful
  have hrun := sampleNtt_eq Crates.fips202_lawful exampleRho 0 0 (zeroSeed_suffices 0 (by decide))
  obtain ⟨n, hn⟩ := (hblocks exampleRho 0 0 _).mp hrun
  exact ⟨⟨_, n, hrun, hn⟩, huniform 3 fun _ => 0⟩

end MlkemSelkie
