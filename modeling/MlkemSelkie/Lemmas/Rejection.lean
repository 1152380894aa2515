import MlkemSelkie.Fips.Sampling
import MlkemSelkie.Lemmas.Vector
import MlkemSelkie.Lib.Digits
import MlkemSelkie.Sampling.Generic

/-!
# The rejection kernel

The buffer of a lane holds the first accepted candidates of its stream, in order, up to 256 of them.
-/

namespace MlkemSelkie.Sampling

open Fips203

/-- After `t` candidates of a stream: the buffer holds the accepted ones, at most 256. -/
structure Collects (stream : Nat → UInt8) (t : Nat) (s : RejectState) : Prop where
  count_eq : s.count = min 256 (Nat.count (Accepted stream) t)
  buffer_eq : ∀ j (_ : j < s.count) (hs : j < 264),
    s.buffer[j] = FieldElement.new (UInt16.ofNat (candidate stream (Nat.nth (Accepted stream) j)))

theorem collects_empty (stream : Nat → UInt8) : Collects stream 0 emptyReject :=
  ⟨by rw [Nat.count_zero]; rfl, fun j hj _ => absurd hj (Nat.not_lt_zero j)⟩

/-- One candidate of the loop of `reject`. -/
def offer (s : RejectState) (candidate : Nat) : RejectState :=
  if candidate < Q ∧ s.count < N then s.push candidate else s

/-- One candidate keeps the invariant. -/
theorem Collects.offer {stream : Nat → UInt8} {t : Nat} {s : RejectState} (h : Collects stream t s) :
    Collects stream (t + 1) (offer s (candidate stream t)) := by
  obtain ⟨hcount, hbuffer⟩ := h
  have hQ : Q = 3329 := rfl
  have hN : N = 256 := rfl
  rw [Sampling.offer]
  by_cases hacc : Accepted stream t
  · have hlt : candidate stream t < Q := hacc
    have hnext : Nat.count (Accepted stream) (t + 1) = Nat.count (Accepted stream) t + 1 := by
      rw [Nat.count_succ, if_pos hacc]
    by_cases hroom : s.count < N
    · rw [if_pos ⟨hlt, hroom⟩]
      refine ⟨by simp only [RejectState.push]; omega, fun j hj hs => ?_⟩
      simp only [RejectState.push] at hj ⊢
      refine (Vector.getElem_setIfInBounds hs).trans ?_
      by_cases hnew : s.count = j
      · have hj' : j = Nat.count (Accepted stream) t := by omega
        rw [if_pos hnew, hj', Nat.nth_count hacc]
      · rw [if_neg hnew]
        exact hbuffer j (by omega) hs
    · rw [if_neg (fun h => hroom h.2)]
      exact ⟨by omega, hbuffer⟩
  · have hge : ¬candidate stream t < Q := hacc
    rw [if_neg (fun h => hge h.1)]
    refine ⟨?_, hbuffer⟩
    rw [Nat.count_succ, if_neg hacc, Nat.add_zero]
    exact hcount

/-- The candidates of three bytes. -/
theorem candidates_of_bytes (b0 b1 b2 : UInt8) :
    (b0.toNat ||| ((b1.toNat &&& 0x0F) <<< 8)) = b0.toNat + 256 * (b1.toNat % 16) ∧
      ((b1.toNat >>> 4) ||| (b2.toNat <<< 4)) = b1.toNat / 16 + 16 * b2.toNat := by
  have h0 : b0.toNat < 2 ^ 8 := b0.toNat_lt
  have h1 : b1.toNat < 2 ^ 8 := b1.toNat_lt
  have h2 : b1.toNat >>> 4 < 2 ^ 4 := by
    rw [Nat.shiftRight_eq_div_pow]
    omega
  have hand : b1.toNat &&& 0x0F = b1.toNat % 16 := Nat.and_two_pow_sub_one_eq_mod b1.toNat 4
  refine ⟨?_, ?_⟩
  · rw [Nat.or_comm, ← Nat.shiftLeft_add_eq_or_of_lt h0, hand, Nat.shiftLeft_eq]
    omega
  · rw [Nat.or_comm, ← Nat.shiftLeft_add_eq_or_of_lt h2, Nat.shiftRight_eq_div_pow, Nat.shiftLeft_eq]
    omega

/-- Three bytes of a stream offer two candidates. -/
theorem rejectChunk_eq (stream : Nat → UInt8) (i : Nat) (s : RejectState) :
    Generic.rejectChunk s [stream (3 * i), stream (3 * i + 1), stream (3 * i + 2)] =
      offer (offer s (candidate stream (2 * i))) (candidate stream (2 * i + 1)) := by
  obtain ⟨hd1, hd2⟩ := candidates_of_bytes (stream (3 * i)) (stream (3 * i + 1)) (stream (3 * i + 2))
  have hc1 : candidate stream (2 * i) = (stream (3 * i)).toNat + 256 * ((stream (3 * i + 1)).toNat % 16) := by
    simp only [candidate, show 2 * i % 2 = 0 by omega, show 2 * i / 2 = i by omega, if_true]
  have hc2 : candidate stream (2 * i + 1) = (stream (3 * i + 1)).toNat / 16 + 16 * (stream (3 * i + 2)).toNat := by
    simp only [candidate, show ¬(2 * i + 1) % 2 = 0 by omega, show (2 * i + 1) / 2 = i by omega, if_false]
  rw [hc1, hc2, ← hd1, ← hd2, Generic.rejectChunk]
  by_cases hfull : N ≤ s.count
  · have hidle : ∀ c, offer s c = s := fun c => if_neg fun h => absurd hfull (Nat.not_le_of_lt h.2)
    rw [if_pos hfull, hidle, hidle]
  · rw [if_neg hfull]
    simp only [offer, show s.count < N by omega, and_true]

/-- A block offers its candidates one after the other. -/
theorem reject_eq (stream : Nat → UInt8) (i : Nat) {n : Nat} {bytes : List UInt8} (s : RejectState)
    (hlen : bytes.length = 3 * n)
    (hbytes : ∀ k (hk : k < bytes.length), bytes[k] = stream (3 * i + k)) :
    Generic.reject bytes s = (List.range n).foldl (fun s m =>
      offer (offer s (candidate stream (2 * (i + m)))) (candidate stream (2 * (i + m) + 1))) s := by
  have hprefix : ∀ m ≤ n, ((List.range m).map fun j => (bytes.drop (3 * j)).take 3).foldl Generic.rejectChunk s =
      (List.range m).foldl (fun s m =>
        offer (offer s (candidate stream (2 * (i + m)))) (candidate stream (2 * (i + m) + 1))) s := by
    intro m
    induction m with
    | zero => exact fun _ => rfl
    | succ m ih =>
      intro hm
      have hchunk : (bytes.drop (3 * m)).take 3 =
        [stream (3 * (i + m)), stream (3 * (i + m) + 1), stream (3 * (i + m) + 2)] := by
        refine List.ext_getElem (by simp only [List.length_take, List.length_drop, List.length_cons, List.length_nil]; omega)
          fun k h1 h2 => ?_
        have hk : k < 3 := h2
        rw [List.getElem_take, List.getElem_drop, hbytes _ (by omega)]
        match k, hk with
        | 0, _ => exact congrArg stream (by omega)
        | 1, _ => exact congrArg stream (by omega)
        | 2, _ => exact congrArg stream (by omega)
      rw [List.range_succ, List.map_append, List.foldl_append, List.map_cons, List.map_nil, List.foldl_cons,
        List.foldl_nil, hchunk, ih (by omega), rejectChunk_eq, List.foldl_append, List.foldl_cons, List.foldl_nil]
  rw [Generic.reject, Loops.chunksExact, hlen, Nat.mul_div_cancel_left _ (by decide)]
  exact hprefix n (Nat.le_refl n)

/-- A block of the stream keeps the invariant. -/
theorem Collects.reject {stream : Nat → UInt8} {i n : Nat} {s : RejectState} (h : Collects stream (2 * i) s)
    (bytes : List UInt8) (hlen : bytes.length = 3 * n)
      (hbytes : ∀ k (hk : k < bytes.length), bytes[k] = stream (3 * i + k)) :
    Collects stream (2 * (i + n)) (Generic.reject bytes s) := by
  rw [reject_eq stream i s hlen hbytes]
  clear hlen
  induction n with
  | zero => exact h
  | succ n ih =>
    rw [List.range_succ, List.foldl_append, List.foldl_cons, List.foldl_nil]
    exact ih.offer.offer

/-- A lane that has collected 256 candidates holds the sample of its stream. -/
theorem Collects.complete {stream : Nat → UInt8} {t : Nat} {s : RejectState} (h : Collects stream t s) (hfull : N ≤ s.count)
    (j : Fin 256) : s.buffer[j.val]! = FieldElement.new (UInt16.ofNat (candidate stream (Nat.nth (Accepted stream) j))) := by
  have hN : N = 256 := rfl
  rw [getElem!_pos s.buffer j.val (by omega)]
  exact h.buffer_eq j.val (by omega) (by omega)

/-- A stream with 256 accepted candidates fills every lane that has seen enough of it. -/
theorem Collects.full_of_sufficient {stream : Nat → UInt8} {n t : Nat} {s : RejectState} (h : Collects stream t s)
    (hn : 256 ≤ Nat.count (Accepted stream) n) (ht : n ≤ t) : N ≤ s.count := by
  have hN : N = 256 := rfl
  have hmono := Nat.count_monotone (Accepted stream) ht
  have hcount := h.count_eq
  omega

/-- A lane that has collected 256 candidates has seen them accepted. -/
theorem Collects.sufficient {stream : Nat → UInt8} {t : Nat} {s : RejectState} (h : Collects stream t s)
    (hfull : N ≤ s.count) :
    Sufficient stream := by
  have hN : N = 256 := rfl
  have hcount := h.count_eq
  exact ⟨t, by omega⟩

end MlkemSelkie.Sampling
