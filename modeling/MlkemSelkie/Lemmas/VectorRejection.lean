import MlkemSelkie.Lemmas.Rejection
import MlkemSelkie.Sampling.Avx2
import MlkemSelkie.Sampling.Neon

/-!
# The vector rejection kernels

What a buffer holds is the list of the accepted candidates, with zeros behind it while it is not full: a store of eight lanes
overwrites zeros only, and what it leaves behind the new count are zeros again.
-/

namespace MlkemSelkie.Sampling

open Fips203 Lanes

/-! ## The contents of a buffer -/

/-- The field elements of the accepted ones of some candidates, in order. -/
def accepted (candidates : List Nat) : List FieldElement :=
  (candidates.filter fun c => decide (c < Q)).map fun c => FieldElement.new (UInt16.ofNat c)

/-- The accepted candidates of two runs. -/
theorem accepted_append (a b : List Nat) : accepted (a ++ b) = accepted a ++ accepted b := by
  rw [accepted, List.filter_append, List.map_append]
  rfl

/-- A list with zeros behind it. -/
def padded (l : List FieldElement) (p : Nat) : FieldElement := l[p]?.getD FieldElement.zero

/-- A padded list that is appended to. -/
theorem padded_append (l m : List FieldElement) (p : Nat) :
    padded (l ++ m) p = if p < l.length then padded l p else padded m (p - l.length) := by
  rw [padded, List.getElem?_append]
  split <;> rfl

/-- Behind the list there are zeros. -/
theorem padded_of_le {l : List FieldElement} {p : Nat} (h : l.length ≤ p) : padded l p = FieldElement.zero := by
  rw [padded, List.getElem?_eq_none h]
  rfl

/-- The buffer holds the list: all of it with zeros behind it, or its first 256 elements when it has so many. -/
structure Buffered (l : List FieldElement) (s : RejectState) : Prop where
  partly : s.count < N → s.count = l.length ∧ ∀ p < 264, s.buffer[p]! = padded l p
  full : N ≤ s.count → N ≤ l.length ∧ ∀ p < N, s.buffer[p]! = padded l p

/-- Nothing is buffered at first. -/
theorem buffered_empty : Buffered [] emptyReject := by
  refine ⟨fun _ => ⟨rfl, fun p hp => ?_⟩, fun h => absurd h (by decide)⟩
  rw [getElem!_pos _ p hp, emptyReject, Vector.getElem_replicate, padded_of_le (Nat.zero_le p)]

/-- Two buffers that hold one list agree on their first 256 elements, and on their counts up to there. -/
theorem Buffered.agree {l : List FieldElement} {s s' : RejectState} (h : Buffered l s) (h' : Buffered l s') :
    min s.count N = min s'.count N ∧ ∀ p < N, s.buffer[p]! = s'.buffer[p]! := by
  have hN : N = 256 := rfl
  have hbuffer : ∀ {s : RejectState}, Buffered l s → ∀ p < N, s.buffer[p]! = padded l p := by
    intro s h p hp
    rcases Nat.lt_or_ge s.count N with hroom | hfull
    · exact (h.partly hroom).2 p (by omega)
    · exact (h.full hfull).2 p hp
  have hcount : ∀ {s : RejectState}, Buffered l s → min s.count N = min l.length N := by
    intro s h
    rcases Nat.lt_or_ge s.count N with hroom | hfull
    · rw [(h.partly hroom).1]
    · rw [Nat.min_eq_right hfull, Nat.min_eq_right (h.full hfull).1]
  exact ⟨(hcount h).trans (hcount h').symm, fun p hp => (hbuffer h p hp).trans (hbuffer h' p hp).symm⟩

/-- A full buffer takes nothing more. -/
theorem Buffered.stay {l : List FieldElement} {s : RejectState} (h : Buffered l s) (hfull : N ≤ s.count)
    (m : List FieldElement) :
    Buffered (l ++ m) s := by
  obtain ⟨hlen, hbuffer⟩ := h.full hfull
  refine ⟨fun hroom => absurd hfull (Nat.not_le_of_lt hroom), fun _ => ⟨?_, fun p hp => ?_⟩⟩
  · rw [List.length_append]
    omega
  · rw [padded_append, if_pos (Nat.lt_of_lt_of_le hp hlen), hbuffer p hp]

/-- A count beyond 256 is clamped. -/
theorem Buffered.clamp {l : List FieldElement} {s : RejectState} (h : Buffered l s) :
    Buffered l { s with count := min s.count N } := by
  rcases Nat.lt_or_ge s.count N with hroom | hfull
  · rw [Nat.min_eq_left (Nat.le_of_lt hroom)]
    exact h
  · refine ⟨fun hlt => ?_, fun _ => h.full hfull⟩
    rw [Nat.min_eq_right hfull] at hlt
    exact absurd hlt (Nat.lt_irrefl N)

/-- A store of some elements with zeros behind them, at the count of a buffer with room. -/
theorem Buffered.grow {l m : List FieldElement} {s : RejectState} {w : Nat} (h : Buffered l s) (hroom : s.count < N)
    (hm : m.length ≤ w) (x : Vector FieldElement w) (hx : ∀ j < w, x[j]! = padded m j) :
    Buffered (l ++ m) ⟨store s.buffer s.count x, s.count + m.length⟩ := by
  have hN : N = 256 := rfl
  obtain ⟨hcount, hbuffer⟩ := h.partly hroom
  have hstored : ∀ p < 264, (store s.buffer s.count x)[p]! = padded (l ++ m) p := by
    intro p hp
    rw [store_getElem! _ _ _ _ hp, padded_append, ← hcount]
    by_cases hin : s.count ≤ p ∧ p < s.count + w
    · obtain ⟨h1, h2⟩ := hin
      rw [if_pos ⟨h1, h2⟩, if_neg (Nat.not_lt_of_le h1), hx _ (by omega)]
    · rw [if_neg hin, hbuffer p hp]
      rcases Nat.lt_or_ge p s.count with hlow | hhigh
      · rw [if_pos hlow]
      · rw [if_neg (Nat.not_lt_of_le hhigh), padded_of_le (by omega), padded_of_le (by omega)]
  refine ⟨fun _ => ⟨?_, hstored⟩, fun hfull => ⟨?_, fun p hp => hstored p (by omega)⟩⟩
  · rw [List.length_append, hcount]
  · rw [List.length_append, ← hcount]
    exact hfull

/-! ## The portable kernel -/

/-- One candidate offered. -/
theorem Buffered.offer {l : List FieldElement} {s : RejectState} (h : Buffered l s) (c : Nat) :
    Buffered (l ++ accepted [c]) (offer s c) := by
  rw [Sampling.offer]
  by_cases hacc : c < Q
  · have hone : accepted [c] = [FieldElement.new (UInt16.ofNat c)] := by
      simp only [accepted, List.filter_cons, hacc, decide_true, if_true, List.filter_nil, List.map_cons, List.map_nil]
    rw [hone]
    by_cases hroom : s.count < N
    · have hpush : s.push c = ⟨store s.buffer s.count #v[FieldElement.new (UInt16.ofNat c)], s.count + 1⟩ := by
        refine congrArg (RejectState.mk · (s.count + 1)) (Butterfly.ext_getElem! fun p hp => ?_)
        rw [store_getElem! _ _ _ _ hp, getElem!_pos _ p hp, Vector.set!_eq_setIfInBounds, Vector.getElem_setIfInBounds hp]
        by_cases hnew : s.count = p
        · rw [if_pos hnew, if_pos (by omega), hnew, Nat.sub_self]
          rfl
        · rw [if_neg hnew, if_neg (by omega), getElem!_pos _ p hp]
      rw [if_pos ⟨hacc, hroom⟩, hpush]
      refine h.grow hroom (Nat.le_refl 1) _ fun j hj => ?_
      obtain rfl : j = 0 := by omega
      rfl
    · rw [if_neg fun h => hroom h.2]
      exact h.stay (Nat.not_lt.mp hroom) _
  · have hnone : accepted [c] = [] := by
      simp [accepted, hacc]
    rw [if_neg fun h => hacc h.1, hnone, List.append_nil]
    exact h

/-- The first `n` candidates of a block. -/
def candidatesOf (bytes : List UInt8) (n : Nat) : List Nat := (List.range n).map (candidate fun k => bytes[k]!)

/-- The portable kernel adds the accepted candidates of the block. -/
theorem Buffered.reject {l : List FieldElement} {s : RejectState} (h : Buffered l s) (bytes : List UInt8) (n : Nat)
    (hlen : bytes.length = 3 * n) : Buffered (l ++ accepted (candidatesOf bytes (2 * n))) (Generic.reject bytes s) := by
  have hbytes : ∀ k (hk : k < bytes.length), bytes[k] = bytes[3 * 0 + k]! := by
    intro k hk
    rw [Nat.mul_zero, Nat.zero_add, getElem!_pos bytes k hk]
  have heq := reject_eq (fun k => bytes[k]!) 0 s hlen hbytes
  rw [heq]
  clear heq hlen hbytes
  induction n with
  | zero =>
    rw [candidatesOf, accepted]
    exact (List.append_nil l).symm ▸ h
  | succ n ih =>
    have htwo : 2 * (n + 1) = 2 * n + 1 + 1 := rfl
    rw [List.range_succ, List.foldl_append, List.foldl_cons, List.foldl_nil, Nat.zero_add, htwo, candidatesOf,
      List.range_succ,
      List.range_succ, List.map_append, List.map_append, accepted_append, accepted_append, ← List.append_assoc,
        ← List.append_assoc]
    exact (ih.offer _).offer _

/-- The portable kernel stops at 256 coefficients. -/
theorem reject_count_le (bytes : List UInt8) {s : RejectState} (h : s.count ≤ N) : (Generic.reject bytes s).count ≤ N := by
  rw [Generic.reject]
  refine List.foldlRecOn (motive := fun s : RejectState => s.count ≤ N) _ _ h fun s hs chunk _ => ?_
  unfold Generic.rejectChunk
  by_cases hfull : N ≤ s.count
  · rw [if_pos hfull]
    exact hs
  · rw [if_neg hfull]
    have hpush : ∀ (t : RejectState) (c : Nat), t.count < N → (t.push c).count ≤ N := fun _ _ ht => ht
    split
    · simp only
      split_ifs with h1 h2 h3
      · exact hpush _ _ h2.2
      · exact hpush _ _ (Nat.not_le.mp hfull)
      · exact hpush _ _ h3.2
      · exact hs
    · exact hs

/-! ## Compaction -/

/-- The set bits of a mask of eight bits, in ascending order. -/
def setBits (mask : Nat) : List Nat := (List.range 8).filter mask.testBit

/-- Position `j` of a row: a byte of the pair of a set bit, or padding. -/
def rowByte (padding : UInt8) (bits : List Nat) (j : Nat) : UInt8 :=
  if j / 2 < bits.length then UInt8.ofNat (2 * bits[j / 2]! + j % 2) else padding

/-- A filter keeps at most everything. -/
theorem filter_range_length_le (p : Nat → Bool) (t : Nat) : ((List.range t).filter p).length ≤ t :=
  (List.length_filter_le _ _).trans (Nat.le_of_eq List.length_range)

/-- The row of a mask lists the byte pairs of its set bits. -/
theorem compactRow_spec (padding : UInt8) (mask : Nat) :
    ∀ j < 16, (compactRow padding mask)[j]! = rowByte padding (setBits mask) j := by
  have hlanes : ∀ t ≤ 8,
      let s := (List.range t).foldl (fun (s : Vector UInt8 16 × Nat) lane =>
        if mask.testBit lane then
          ((s.1.set! (2 * s.2) (UInt8.ofNat (2 * lane))).set! (2 * s.2 + 1) (UInt8.ofNat (2 * lane + 1)), s.2 + 1)
        else s) (Vector.replicate 16 padding, 0)
      s.2 = ((List.range t).filter mask.testBit).length ∧
        ∀ j < 16, s.1[j]! = rowByte padding ((List.range t).filter mask.testBit) j := by
    intro t
    induction t with
    | zero =>
      refine fun _ => ⟨rfl, fun j hj => ?_⟩
      have hempty : rowByte padding [] j = padding := if_neg (Nat.not_lt_zero _)
      exact (getElem!_pos (Vector.replicate 16 padding) j hj).trans ((Vector.getElem_replicate hj).trans hempty.symm)
    | succ t ih =>
      intro ht
      obtain ⟨hcount, hrow⟩ := ih (Nat.le_of_succ_le ht)
      rw [List.range_succ, List.foldl_append, List.foldl_cons, List.foldl_nil, List.filter_append]
      have hle := filter_range_length_le mask.testBit t
      generalize (List.range t).foldl _ _ = s at hcount hrow ⊢
      generalize (List.range t).filter mask.testBit = bits at hcount hrow hle ⊢
      by_cases hbit : mask.testBit t
      · have hone : [t].filter mask.testBit = [t] := List.filter_eq_self.mpr fun a ha => by rwa [List.mem_singleton.mp ha]
        rw [if_pos hbit, hone]
        refine ⟨by rw [List.length_append, hcount]; rfl, fun j hj => ?_⟩
        rw [getElem!_pos _ j hj, Vector.set!_eq_setIfInBounds, Vector.set!_eq_setIfInBounds, Vector.getElem_setIfInBounds hj,
          Vector.getElem_setIfInBounds hj, ← getElem!_pos s.1 j hj, hrow j hj, rowByte, rowByte, List.length_append,
          List.length_singleton]
        by_cases hold : j / 2 < bits.length
        · rw [if_neg (by omega), if_neg (by omega), if_pos hold, if_pos (by omega), getElem!_pos bits _ hold,
            getElem!_pos (bits ++ [t]) _ (by rw [List.length_append]; omega), List.getElem_append_left hold]
        · by_cases hnew : j / 2 = bits.length
          · have hlast : (bits ++ [t])[j / 2]! = t := by
              rw [getElem!_pos (bits ++ [t]) _ (by rw [List.length_append, List.length_singleton]; omega)]
              simp only [hnew, List.getElem_concat_length]
            rcases Nat.mod_two_eq_zero_or_one j with hpar | hpar
            · rw [if_neg (by omega), if_pos (by omega), if_pos (by omega), hlast, hpar, Nat.add_zero]
            · rw [if_pos (by omega), if_pos (by omega), hlast, hpar]
          · rw [if_neg (by omega), if_neg (by omega), if_neg hold, if_neg (by omega)]
      · have hnone : [t].filter mask.testBit = [] := List.filter_eq_nil_iff.mpr fun a ha => by rwa [List.mem_singleton.mp ha]
        rw [if_neg hbit, hnone, List.append_nil]
        exact ⟨hcount, hrow⟩
  exact (hlanes 8 (Nat.le_refl 8)).2

/-- The bits that are counted are the set bits of the row. -/
theorem countOnes_eq {w mask : Nat} (hw : 8 ≤ w) (hmask : mask < 256) : countOnes w mask = (setBits mask).length := by
  obtain ⟨k, rfl⟩ := Nat.exists_eq_add_of_le hw
  have hhigh : ((List.range k).map (8 + ·)).filter mask.testBit = [] := by
    refine List.filter_eq_nil_iff.mpr fun lane hlane => ?_
    obtain ⟨i, -, rfl⟩ := List.mem_map.mp hlane
    have hpow : 2 ^ 8 ≤ 2 ^ (8 + i) := Nat.pow_le_pow_right (by decide) (Nat.le_add_right 8 i)
    rw [Nat.testBit_lt_two_pow (Nat.lt_of_lt_of_le hmask hpow)]
    exact Bool.false_ne_true
  rw [countOnes, List.range_add, List.filter_append, hhigh, List.append_nil]
  rfl

/-- A shuffle of 16 bytes that takes the byte its index names, and a zero where the index is `padding`. -/
structure Shuffles (shuffle : Vector UInt8 16 → Vector UInt8 16 → Vector UInt8 16) (padding : UInt8) : Prop where
  takes : ∀ (table idx : Vector UInt8 16) {j k : Nat},
    j < 16 → idx[j]!.toNat = k → k < 16 → (shuffle table idx)[j]! = table[k]!
  zero : ∀ (table idx : Vector UInt8 16) {j : Nat}, j < 16 → idx[j]! = padding → (shuffle table idx)[j]! = 0

/-- The byte shuffle of AVX2 clears a lane by the high bit of its index. -/
theorem shuffles_avx2 : Shuffles X86.shuffleEpi8 0x80 := by
  refine ⟨fun table idx j k hj hidx hk => ?_, fun table idx j hj hidx => X86.shuffleEpi8_zero _ _ hj (by rw [hidx]; decide)⟩
  have hpos : 16 * (j / 16) + k = k := by omega
  rw [X86.shuffleEpi8_getElem! table idx hj hidx hk, hpos]

/-- The table lookup of NEON clears a lane by an index past the table. -/
theorem shuffles_neon : Shuffles NeonLanes.vqtbl1qU8 0xFF :=
  ⟨fun table idx _ _ hj hidx hk => NeonLanes.vqtbl1qU8_getElem! table idx hj hidx hk,
    fun table idx _ hj hidx => NeonLanes.vqtbl1qU8_zero table idx hj (by rw [hidx]; decide)⟩

/-! ## A group of twelve bytes -/

/-- A candidate below `q` read as a field element is the field element of its number. -/
theorem mk_toInt16 {x : UInt16} (hx : x.toNat < Q) :
    FieldElement.mk x.toInt16 = FieldElement.new (UInt16.ofNat x.toNat) := by
  have hQ : Q = 3329 := rfl
  have hnew := FieldElement.new_toInt (UInt16.ofNat x.toNat)
  rw [UInt16.ofNat_toNat] at hnew ⊢
  generalize FieldElement.new x = y at hnew ⊢
  obtain ⟨y⟩ := y
  have hx' : x.toInt16.toInt = x.toNat := SignedWords.toInt_of_toUInt16 (k := x.toNat) rfl (by omega)
  refine congrArg FieldElement.mk (Int16.toInt_inj.mp (hx'.trans ?_))
  rw [Nat.mod_eq_of_lt (by omega)] at hnew
  exact hnew.symm

/-- The accepted candidates of a group are those of its set bits. -/
theorem accepted_lanes {f : Nat → Nat} {mask : Nat} (hbits : ∀ lane < 8, mask.testBit lane = decide (f lane < Q)) :
    accepted ((List.range 8).map f) = (setBits mask).map fun lane => FieldElement.new (UInt16.ofNat (f lane)) := by
  have hfilter : (List.range 8).filter ((fun c => decide (c < Q)) ∘ f) = setBits mask :=
    List.filter_congr fun lane hlane => (hbits lane (List.mem_range.mp hlane)).symm
  rw [accepted, List.filter_map, hfilter, List.map_map]
  rfl

/-- A lane of the packed register: the candidates of the set bits, in order, and zeros behind them. -/
theorem packed_lane {shuffle : Vector UInt8 16 → Vector UInt8 16 → Vector UInt8 16} {padding : UInt8}
    (hshuffle : Shuffles shuffle padding) {mask : Nat} {cs : Vector UInt16 8}
    (hbits : ∀ lane < 8, mask.testBit lane = decide (cs[lane]!.toNat < Q)) (j : Nat) (hj : j < 8) :
    ((asWords 8 (shuffle (asBytes 16 cs) (compactRow padding mask))).map fun x => FieldElement.mk x.toInt16)[j]! =
      padded ((setBits mask).map fun lane => FieldElement.new (UInt16.ofNat cs[lane]!.toNat)) j := by
  have hlo : 2 * j / 2 = j := by omega
  have hhi : (2 * j + 1) / 2 = j := by omega
  have hrowlo := compactRow_spec padding mask (2 * j) (by omega)
  have hrowhi := compactRow_spec padding mask (2 * j + 1) (by omega)
  rw [rowByte, hlo] at hrowlo
  rw [rowByte, hhi] at hrowhi
  rw [getElem!_pos _ j hj, Vector.getElem_map, asWords_getElem _ _ hj]
  rcases Nat.lt_or_ge j (setBits mask).length with hin | hout
  · rw [if_pos hin, getElem!_pos _ j hin] at hrowlo hrowhi
    rw [padded, List.getElem?_map, List.getElem?_eq_getElem hin, Option.map_some, Option.getD_some]
    obtain ⟨hlane, hbit⟩ := List.mem_filter.mp (List.getElem_mem hin : (setBits mask)[j] ∈ setBits mask)
    generalize (setBits mask)[j] = lane at hrowlo hrowhi hlane hbit ⊢
    have hlane : lane < 8 := List.mem_range.mp hlane
    rw [hbits lane hlane] at hbit
    have hlow : (compactRow padding mask)[2 * j]!.toNat = 2 * lane := by
      rw [hrowlo, UInt8.toNat_ofNat']
      omega
    have hhigh : (compactRow padding mask)[2 * j + 1]!.toNat = 2 * lane + 1 := by
      rw [hrowhi, UInt8.toNat_ofNat']
      omega
    rw [hshuffle.takes _ _ (by omega) hlow (by omega), hshuffle.takes _ _ (by omega) hhigh (by omega),
      word_asBytes cs lane (by omega)]
    exact mk_toInt16 (of_decide_eq_true hbit)
  · rw [if_neg (Nat.not_lt_of_le hout)] at hrowlo hrowhi
    rw [hshuffle.zero _ _ (by omega) hrowlo, hshuffle.zero _ _ (by omega) hrowhi, padded_of_le (by rwa [List.length_map])]
    rfl

/-- The store of a group stays inside the buffer and adds the accepted candidates of the group. -/
theorem Buffered.append {shuffle : Vector UInt8 16 → Vector UInt8 16 → Vector UInt8 16} {padding : UInt8}
    (hshuffle : Shuffles shuffle padding) {l : List FieldElement} {s : RejectState} (h : Buffered l s) (hroom : s.count < N)
    {w mask : Nat} (hw : 8 ≤ w) (hmask : mask < 256) (cs : Vector UInt16 8)
    (hbits : ∀ lane < 8, mask.testBit lane = decide (cs[lane]!.toNat < Q)) :
    ∃ s', append s (shuffle (asBytes 16 cs) (compactRow padding mask)) (countOnes w mask) = some s' ∧
      Buffered (l ++ accepted ((List.range 8).map fun lane => cs[lane]!.toNat)) s' := by
  have hN : N = 256 := rfl
  have hlen : (setBits mask).length ≤ 8 := filter_range_length_le _ 8
  rw [accepted_lanes (f := fun lane => cs[lane]!.toNat) hbits, Sampling.append, storeWithin_eq (by omega),
    countOnes_eq hw hmask]
  refine ⟨_, rfl, ?_⟩
  have hgrow := h.grow (m := (setBits mask).map fun lane => FieldElement.new (UInt16.ofNat cs[lane]!.toNat)) hroom
    (by rwa [List.length_map])
    ((asWords 8 (shuffle (asBytes 16 cs) (compactRow padding mask))).map fun x => FieldElement.mk x.toInt16)
    (packed_lane hshuffle hbits)
  rw [List.length_map] at hgrow
  exact hgrow

/-- The window of a group of a block of whole groups: no load leaves the block, and its twelve bytes are those of the
group. -/
theorem groupWindow_spec {bytes : List UInt8} {group : Nat} (hgroup : 12 * (group + 1) ≤ bytes.length) :
    ∃ data, groupWindow bytes (12 * group) = some data ∧ ∀ k < 12, data[k]! = bytes[12 * group + k]! := by
  unfold groupWindow
  by_cases hwhole : 12 * group + 16 ≤ bytes.length
  · obtain ⟨data, hload, hdata⟩ := loadSlice_window hwhole
    exact ⟨data, by rw [if_pos hwhole, hload], fun k hk => hdata k (by omega)⟩
  · have hinside : 12 * group + 12 ≤ bytes.length := by omega
    have htail : ((bytes.drop (12 * group)).take 12).length = 12 := by
      rw [List.length_take, List.length_drop]
      omega
    have hlen : ((bytes.drop (12 * group)).take 12 ++ List.replicate (16 - 12) 0).length = 16 := by
      rw [List.length_append, List.length_replicate, htail]
    obtain ⟨data, hload, hdata⟩ := loadSlice_spec hlen
    rw [if_neg hwhole, if_pos hinside]
    refine ⟨data, by simp only [htail, hload], fun k hk => ?_⟩
    rw [hdata k (by omega), getElem!_pos _ k (by omega), getElem!_pos bytes _ (by omega),
      List.getElem_append_left (by omega), List.getElem_take, List.getElem_drop]

/-- The candidates that a register holds of a group. -/
def HoldsGroup (data : Vector UInt8 16) (cs : Vector UInt16 8) : Prop :=
  ∀ lane < 8, cs[lane]!.toNat = candidate (fun k => data[k]!) lane

/-- They are the candidates of the block at its position. -/
theorem HoldsGroup.candidates {data : Vector UInt8 16} {cs : Vector UInt16 8} (h : HoldsGroup data cs) {bytes : List UInt8}
    {group : Nat} (hdata : ∀ k < 12, data[k]! = bytes[12 * group + k]!) :
    candidatesOf bytes (8 * (group + 1)) = candidatesOf bytes (8 * group) ++ (List.range 8).map fun lane =>
      cs[lane]!.toNat := by
  rw [candidatesOf, Nat.mul_succ, List.range_add, List.map_append, List.map_map]
  refine congrArg (candidatesOf bytes (8 * group) ++ ·) (List.map_congr_left fun lane hlane => ?_)
  have hlane : lane < 8 := List.mem_range.mp hlane
  have hpos : 3 * ((8 * group + lane) / 2) = 12 * group + 3 * (lane / 2) := by omega
  have hpar : (8 * group + lane) % 2 = lane % 2 := by omega
  rw [h lane hlane, Function.comp_apply]
  simp only [candidate, hpos, hpar]
  rw [hdata _ (by omega), hdata _ (by omega), hdata _ (by omega)]
  rfl

/-! ## The kernels -/

/-- What the two kernels differ in, with what the instructions of each promise. -/
structure RejectKernel where
  candidates : Vector UInt8 16 → Vector UInt16 8
  acceptance : Vector UInt16 8 → Nat
  shuffle : Vector UInt8 16 → Vector UInt8 16 → Vector UInt8 16
  padding : UInt8
  width : Nat
  width_le : 8 ≤ width
  shuffles : Shuffles shuffle padding
  holds : ∀ data, HoldsGroup data (candidates data)
  mask_lt : ∀ data, acceptance (candidates data) < 256
  mask_bits : ∀ data, ∀ lane < 8, (acceptance (candidates data)).testBit lane = decide ((candidates data)[lane]!.toNat < Q)

namespace RejectKernel

/-- The body of the loop. -/
def rejectGroup (k : RejectKernel) (bytes : List UInt8) (s : RejectState) (group : Nat) : Option RejectState :=
  if N ≤ s.count then some s
  else do
    let data ← groupWindow bytes (12 * group)
    let candidates := k.candidates data
    let mask := k.acceptance candidates
    let control ← (compactTable k.padding)[mask]?
    append s (k.shuffle (asBytes 16 candidates) control) (countOnes k.width mask)

/-- The groups of a block, and the clamp. -/
def reject (k : RejectKernel) (bytes : List UInt8) (s : RejectState) : Option RejectState := do
  let s ← (List.range (bytes.length / 12)).foldlM (k.rejectGroup bytes) s
  return { s with count := min s.count N }

variable (k : RejectKernel) (bytes : List UInt8) {l : List FieldElement} {s : RejectState}

/-- A group adds its accepted candidates. -/
theorem rejectGroup_spec {group : Nat} (hgroup : 12 * (group + 1) ≤ bytes.length)
    (h : Buffered (l ++ accepted (candidatesOf bytes (8 * group))) s) : ∃ s',
      k.rejectGroup bytes s group = some s' ∧ Buffered (l ++ accepted (candidatesOf bytes (8 * (group + 1)))) s' := by
  obtain ⟨data, hwindow, hdata⟩ := groupWindow_spec hgroup
  rw [(k.holds data).candidates hdata, accepted_append, ← List.append_assoc]
  by_cases hfull : N ≤ s.count
  · exact ⟨s, if_pos hfull, h.stay hfull _⟩
  · have hmask := k.mask_lt data
    have hcontrol : (compactTable k.padding)[k.acceptance (k.candidates data)]? =
        some (compactRow k.padding (k.acceptance (k.candidates data))) := by
      rw [getElem?_pos (compactTable k.padding) _ hmask, compactTable, Vector.getElem_ofFn]
    obtain ⟨s', happend, hs'⟩ := h.append k.shuffles (Nat.not_le.mp hfull) k.width_le hmask (k.candidates data)
      (k.mask_bits data)
    refine ⟨s', ?_, hs'⟩
    rw [rejectGroup, if_neg hfull, hwindow, Option.bind_eq_bind, Option.bind_some]
    simp only []
    rw [hcontrol, Option.bind_some]
    exact happend

/-- A block adds the accepted candidates of its groups. -/
theorem reject_spec (h : Buffered l s) : ∃ s', k.reject bytes s = some s' ∧ s'.count ≤ N ∧
    Buffered (l ++ accepted (candidatesOf bytes (8 * (bytes.length / 12)))) s' := by
  have hstart : Buffered (l ++ accepted (candidatesOf bytes (8 * 0))) s := by
    rw [candidatesOf, accepted]
    exact (List.append_nil l).symm ▸ h
  obtain ⟨s', hrun, hs'⟩ := Loops.foldlM_range (m := bytes.length / 12) (f := k.rejectGroup bytes)
    (I := fun group s => Buffered (l ++ accepted (candidatesOf bytes (8 * group))) s) hstart
    fun group hgroup s hs => k.rejectGroup_spec bytes (by omega) hs
  refine ⟨_, ?_, Nat.min_le_right s'.count N, hs'.clamp⟩
  rw [reject, hrun]
  rfl

end RejectKernel

/-! ## The candidates of a group -/

/-- A candidate has twelve bits. -/
theorem candidate_lt (stream : Nat → UInt8) (t : Nat) : candidate stream t < 4096 := by
  have h0 := (stream (3 * (t / 2))).toNat_lt
  have h1 := (stream (3 * (t / 2) + 1)).toNat_lt
  have h2 := (stream (3 * (t / 2) + 2)).toNat_lt
  simp only [candidate]
  split <;> omega

/-- The byte pair of a candidate: the first two or the last two of the three bytes of its pair. -/
theorem gather_spec : ∀ lane < 8, (Avx2.gather[2 * lane]!.toNat = 3 * (lane / 2) + lane % 2 ∧
    Avx2.gather[2 * lane + 1]!.toNat = 3 * (lane / 2) + lane % 2 + 1) := by
  decide

/-- The word of a byte pair, masked or shifted, is the candidate. -/
theorem candidate_of_pair {data : Vector UInt8 16} {lane : Nat} {x : UInt16}
    (hx : x = word data[3 * (lane / 2) + lane % 2]! data[3 * (lane / 2) + lane % 2 + 1]!) :
    candidate (fun k => data[k]!) lane = if lane % 2 = 0 then x.toNat % 4096 else x.toNat / 16 := by
  rw [hx, word_toNat]
  simp only [candidate]
  have hlo := (data[3 * (lane / 2) + lane % 2]!).toNat_lt
  rcases Nat.mod_two_eq_zero_or_one lane with hpar | hpar
  · simp only [hpar, Nat.add_zero, if_true] at hlo ⊢
    omega
  · rw [hpar] at hlo
    rw [hpar, if_neg (by decide), if_neg (by decide), Nat.add_assoc (3 * (lane / 2)) 1 1]
    omega

namespace Avx2

open X86

/-- The eight candidates of twelve bytes, by AVX2. -/
theorem candidates_spec (data : Vector UInt8 16) : HoldsGroup data (candidates data) := by
  intro lane hlane
  obtain ⟨hlo, hhi⟩ := gather_spec lane hlane
  have hpair : (asWords 8 (shuffleEpi8 data gather))[lane] =
      word data[3 * (lane / 2) + lane % 2]! data[3 * (lane / 2) + lane % 2 + 1]! := by
    rw [asWords_getElem _ _ hlane, shuffles_avx2.takes _ _ (by omega) hlo (by omega),
      shuffles_avx2.takes _ _ (by omega) hhi (by omega)]
  have hblend : (0b10101010 : Nat).testBit lane = decide (lane % 2 = 1) :=
    (by decide : ∀ lane < 8, (0b10101010 : Nat).testBit lane = decide (lane % 2 = 1)) lane hlane
  rw [candidate_of_pair hpair, getElem!_pos _ lane hlane, candidates, blendEpi16, Vector.getElem_ofFn]
  simp only [hblend, decide_eq_true_eq]
  generalize asWords 8 (shuffleEpi8 data gather) = pairs
  rcases Nat.mod_two_eq_zero_or_one lane with hpar | hpar
  · rw [if_neg (by omega), if_pos hpar, Loops.getElem_fin, andSi256_getElem, Vector.getElem_replicate, UInt16.toNat_and]
    exact Nat.and_two_pow_sub_one_eq_mod _ 12
  · have hlt := pairs[lane].toNat_lt
    rw [if_pos hpar, if_neg (by omega), Loops.getElem_fin, srliEpi16, Vector.getElem_map, UInt16.toNat_ofNat',
      Nat.shiftRight_eq_div_pow]
    exact Nat.mod_eq_of_lt (Nat.lt_of_le_of_lt (Nat.div_le_self _ _) hlt)

/-- The acceptance mask has a bit for each candidate below q, by AVX2. -/
theorem acceptance_spec {data : Vector UInt8 16} {cs : Vector UInt16 8} (h : HoldsGroup data cs) :
    acceptance cs < 256 ∧ ∀ lane < 8, (acceptance cs).testBit lane = decide (cs[lane]!.toNat < Q) := by
  have hQ : Q = 3329 := rfl
  have hq : (Int16.ofNat Q).toInt = 3329 := by decide
  refine ⟨Nat.lt_of_le_of_lt Nat.and_le_right (by decide), fun lane hlane => ?_⟩
  have hlt : cs[lane]!.toNat < 4096 := (h lane hlane).trans_lt (candidate_lt _ lane)
  rw [acceptance, testBit_comparison _ _ hlane, Vector.getElem_map, set1Epi16_getElem, ← getElem!_pos cs lane hlane]
  have hlane' : cs[lane]!.toInt16.toInt = cs[lane]!.toNat :=
    SignedWords.toInt_of_toUInt16 (k := cs[lane]!.toNat) rfl (by omega)
  refine decide_eq_decide.mpr ?_
  rw [Int16.lt_iff_toInt_lt, hlane', hq]
  omega

/-- The kernel and what its instructions promise. -/
def kernel : RejectKernel where
  candidates := candidates
  acceptance := acceptance
  shuffle := shuffleEpi8
  padding := 0x80
  width := 32
  width_le := by decide
  shuffles := shuffles_avx2
  holds := candidates_spec
  mask_lt data := (acceptance_spec (candidates_spec data)).1
  mask_bits data := (acceptance_spec (candidates_spec data)).2

/-- The AVX2 kernel in the common form. -/
theorem reject_eq : reject = kernel.reject := rfl

end Avx2

namespace Neon

open NeonLanes

/-- The eight candidates of twelve bytes, by NEON. -/
theorem candidates_spec (data : Vector UInt8 16) : HoldsGroup data (candidates data) := by
  intro lane hlane
  obtain ⟨hlo, hhi⟩ : gather[2 * lane]!.toNat = _ ∧ gather[2 * lane + 1]!.toNat = _ := gather_spec lane hlane
  have hpair : (asWords 8 (vqtbl1qU8 data gather))[lane] =
      word data[3 * (lane / 2) + lane % 2]! data[3 * (lane / 2) + lane % 2 + 1]! := by
    rw [asWords_getElem _ _ hlane, shuffles_neon.takes _ _ (by omega) hlo (by omega),
      shuffles_neon.takes _ _ (by omega) hhi (by omega)]
  rw [candidate_of_pair hpair, getElem!_pos _ lane hlane, candidates, vandU_getElem, vshlU16_getElem, vdupNU_getElem,
    UInt16.toNat_and]
  generalize (asWords 8 (vqtbl1qU8 data gather))[lane] = pair
  have hlt := pair.toNat_lt
  have hmask : ∀ x : Nat, x &&& (0x0FFF : UInt16).toNat = x % 4096 := fun x => Nat.and_two_pow_sub_one_eq_mod x 12
  rcases Nat.mod_two_eq_zero_or_one lane with hpar | hpar
  · have hshift : shifts[lane].toInt8.toInt = ((0 : Nat) : Int) :=
      (by decide : ∀ lane (_ : lane < 8), lane % 2 = 0 → shifts[lane].toInt8.toInt = ((0 : Nat) : Int)) lane hlane hpar
    rw [shlU16_left hshift, hmask, if_pos hpar, Nat.shiftLeft_zero]
    omega
  · have hshift : shifts[lane].toInt8.toInt = -((4 : Nat) : Int) :=
      (by decide : ∀ lane (_ : lane < 8), lane % 2 = 1 → shifts[lane].toInt8.toInt = -((4 : Nat) : Int)) lane hlane hpar
    rw [shlU16_right hshift, hmask, if_neg (by omega), Nat.shiftRight_eq_div_pow]
    omega

/-- The sum of the weights of some lanes has their bits. -/
theorem testBit_weights : ∀ b0 b1 b2 b3 b4 b5 b6 b7 : Bool, ∀ lane < 8,
    ((List.zipWith (fun b weight => if b = true then weight else 0) [b0, b1, b2, b3, b4, b5, b6, b7]
      bitWeights.toList).sum).toNat.testBit
      lane = [b0, b1, b2, b3, b4, b5, b6, b7][lane]! := by
  decide +kernel

/-- The acceptance mask has a bit for each candidate below q, by NEON. -/
theorem acceptance_spec (cs : Vector UInt16 8) (lane : Nat) (hlane : lane < 8) :
    (acceptance cs).toNat.testBit lane = decide (cs[lane]!.toNat < Q) := by
  have hlanes : (vandU (vmovnU16 (vcltU16 cs (vdupNU (UInt16.ofNat Q)))) bitWeights).toList =
      List.zipWith (fun b weight => if b = true then weight else 0) ((List.range 8).map fun l => decide (cs[l]!.toNat < Q))
        bitWeights.toList := by
    refine List.ext_getElem (by simp) fun l h1 h2 => ?_
    have hl : l < 8 := by rwa [Vector.length_toList] at h1
    rw [Vector.getElem_toList, vandU_getElem _ hl, vmovnU16_getElem _ _ hl, vcltU16, Vector.getElem_zipWith,
      vdupNU_getElem _ hl,
      List.getElem_zipWith, List.getElem_map, List.getElem_range, Vector.getElem_toList, ← getElem!_pos cs l hl]
    by_cases h : cs[l]!.toNat < Q
    · rw [if_pos (UInt16.lt_iff_toNat_lt.mpr h), if_pos (decide_eq_true h)]
      exact UInt8.neg_one_and
    · rw [if_neg fun hlt => h (UInt16.lt_iff_toNat_lt.mp hlt), if_neg (by rw [decide_eq_true_eq]; exact h)]
      exact UInt8.zero_and
  rw [acceptance, vaddvU8, hlanes]
  refine (testBit_weights _ _ _ _ _ _ _ _ lane hlane).trans ?_
  exact (getElem!_pos ((List.range 8).map fun l => decide (cs[l]!.toNat < Q)) lane hlane).trans
    ((List.getElem_map _).trans (by rw [List.getElem_range]))

/-- The kernel and what its instructions promise. -/
def kernel : RejectKernel where
  candidates := candidates
  acceptance cs := (acceptance cs).toNat
  shuffle := vqtbl1qU8
  padding := 0xFF
  width := 8
  width_le := Nat.le_refl 8
  shuffles := shuffles_neon
  holds := candidates_spec
  mask_lt _ := UInt8.toNat_lt _
  mask_bits data := acceptance_spec (candidates data)

theorem reject_eq : reject = kernel.reject := rfl

end Neon

end MlkemSelkie.Sampling
