import MlkemSelkie.Debug.Encoding
import MlkemSelkie.Lemmas.DebugPoly

/-!
# Serialization never panics

One lemma for each function of `Debug/Encoding.lean`. The packing loop keeps what it wrote and the chunks it still has in one
buffer; the unpacking loop keeps the words and the shorter rest that it has not read.
-/

namespace MlkemSelkie

open Runs

variable {P : ParameterSet}

namespace Encoding.Generic

open Digits LittleEndian

/-! ## Packing -/

/-- The bytes of a word are as many as were asked for. -/
theorem length_toBytes (n w : Nat) : (toBytes n w).length = n := by rw [toBytes, List.length_map, List.length_range]

/-- The variables of the two loops: the buffer is what is written and the chunks left, up to the same word. -/
structure PackFollows (s : DebugPackState) (t : PackState) : Prop where
  buffer : s.written ++ s.words = t.out.toList
  written : s.written.length = min (8 * t.words) 384
  accumulator : s.accumulator = t.accumulator
  bits : s.bits = t.bits
  bits_lt : t.bits < 64

/-- A word written behind the bytes written before. -/
theorem writeWord_toList {out : Vector UInt8 384} {written words : List UInt8} {i : Nat} (h : written ++ words = out.toList)
    (hi : i < 48) (hwritten : written.length = 8 * i) (word : Nat) :
    (writeWord out i word).toList = written ++ (toBytes 8 word ++ words.drop 8) := by
  have hlen : written.length + words.length = 384 := by rw [← List.length_append, h, Vector.length_toList]
  rw [writeWord, if_pos hi]
  refine List.ext_getElem ?_ fun k h1 h2 => ?_
  · rw [Vector.length_toList, List.length_append, List.length_append, length_toBytes, List.length_drop]
    omega
  · rw [Vector.length_toList] at h1
    have hbuffer : out[k] = (written ++ words)[k]! := by rw [h, getElem!_pos _ k (by rw [Vector.length_toList]; exact h1),
      Vector.getElem_toList]
    rw [Vector.getElem_toList, Vector.getElem_ofFn]
    simp only [Loops.getElem_fin, hbuffer]
    by_cases hlow : k < written.length
    · rw [if_neg (by omega), getElem!_pos _ k (by rw [List.length_append]; omega), List.getElem_append_left hlow,
        List.getElem_append_left hlow]
    · rw [List.getElem_append_right (Nat.not_lt.mp hlow)]
      by_cases hmid : k < written.length + 8
      · rw [if_pos (by omega), List.getElem_append_left (by rw [length_toBytes]; omega), ← getElem!_pos]
        exact congrArg ((toBytes 8 word)[·]!) (by omega)
      · rw [if_neg (by omega), List.getElem_append_right (by rw [length_toBytes]; omega), List.getElem_drop,
          getElem!_pos _ k (by rw [List.length_append]; omega), List.getElem_append_right (Nat.not_lt.mp hlow)]
        exact getElem_congr_idx (by rw [length_toBytes]; omega)

/-- A word written into the next chunk. -/
theorem debugWriteWord_ok {s : DebugPackState} {t : PackState} (h : PackFollows s t) (word : Nat) :
    ∃ s', debugWriteWord s word = .ok s' ∧ s'.written ++ s'.words = (writeWord t.out t.words word).toList ∧
      s'.written.length = min (8 * (t.words + 1)) 384 := by
  have hlen : s.written.length + s.words.length = 384 := by rw [← List.length_append, h.buffer, Vector.length_toList]
  have hwritten := h.written
  rw [debugWriteWord]
  by_cases hleft : t.words < 48
  · rw [if_pos (by omega), copyFromSlice_ok (by rw [length_toBytes, List.length_take]; omega), ok_bind, pure_eq,
      writeWord_toList h.buffer hleft (by omega)]
    refine ⟨_, rfl, List.append_assoc _ _ _, ?_⟩
    rw [List.length_append, length_toBytes]
    omega
  · rw [if_neg (by omega), writeWord, if_neg hleft]
    exact ⟨s, rfl, h.buffer, by omega⟩

/-- The body of the loop. -/
theorem debugPackValue_ok {d : Nat} (hd : d ≤ 12) {s : DebugPackState} {t : PackState} (h : PackFollows s t)
    (value : UInt16) :
    ∃ s', debugPackValue d s value = .ok s' ∧ PackFollows s' (packValue d t value) := by
  have hbits := h.bits_lt
  have hvalue := value.toNat_lt
  have hshift : value.toNat <<< t.bits < 2 ^ 128 := by
    rw [Nat.shiftLeft_eq]
    have hpow : 2 ^ t.bits ≤ 2 ^ 64 := Nat.pow_le_pow_right (by decide) (by omega)
    exact (Nat.mul_le_mul (Nat.le_of_lt hvalue) hpow).trans_lt (by decide)
  rw [debugPackValue, packValue, h.bits, h.accumulator, assert_ok (by omega), ok_bind, Nat.mod_eq_of_lt hshift,
    usize_ok (by omega), ok_bind]
  by_cases hfull : 64 ≤ t.bits + d
  · obtain ⟨s', hrun, hbuffer, hwritten⟩ := debugWriteWord_ok h ((t.accumulator ||| value.toNat <<< t.bits) % 2 ^ 64)
    rw [if_pos hfull, if_pos hfull, hrun, ok_bind, sub_ok hfull, ok_bind, pure_eq]
    exact ⟨_, rfl, hbuffer, hwritten, rfl, rfl, by simp only []; omega⟩
  · rw [if_neg hfull, if_neg hfull, pure_eq]
    exact ⟨_, rfl, h.buffer, h.written, rfl, rfl, by simp only []; omega⟩

/-- The accumulator of `pack` never holds more bits than its word, whatever the values. -/
theorem debugPack_ok (values : Vector UInt16 N) {d : Nat} (hd : d ≤ 12) : debugPack values d = .ok (pack values d) := by
  obtain ⟨s, hrun, hs⟩ := foldlM_follows (R := fun _ => PackFollows)
    (fun _ s t hst value _ => debugPackValue_ok hd hst value) (l := values.toList)
    (s := { written := [], words := List.replicate 384 0, accumulator := 0, bits := 0 })
    (t := { out := Vector.replicate 384 0, words := 0, accumulator := 0, bits := 0 })
    ⟨by rw [List.nil_append, Vector.toList_replicate], rfl, rfl, rfl, Nat.zero_lt_succ 63⟩
  rw [debugPack, hrun, ok_bind, hs.buffer, Loops.arrayOf_toList]
  rfl

/-! ## Unpacking -/

/-- What is not read yet: whole words, and at last a shorter rest. -/
structure Unread (words : List (List UInt8)) (tail : Option (List UInt8)) (bytes : List UInt8) : Prop where
  bytes_eq : words.flatten ++ tail.getD [] = bytes
  words : ∀ word ∈ words, word.length = 8
  tail : ∀ rest, tail = some rest → rest ≠ [] ∧ rest.length < 8

/-- The words and the rest that `unpack` starts with. -/
theorem Unread.start (bytes : List UInt8) :
    Unread (Loops.chunksExact 8 bytes) ((some (remainder 8 bytes)).filter fun rest => !rest.isEmpty) bytes := by
  have hsplit := chunksExact_append_remainder 8 bytes
  refine ⟨?_, fun word hword => length_of_mem_chunksExact hword, fun rest hrest => ?_⟩
  · cases hrest : remainder 8 bytes with
    | nil =>
      rw [hrest, List.append_nil] at hsplit
      exact (List.append_nil _).trans hsplit
    | cons b rest =>
      rw [hrest] at hsplit
      exact hsplit
  · obtain ⟨hsome, hfilter⟩ := Option.filter_eq_some_iff.mp hrest
    obtain rfl := Option.some.inj hsome
    refine ⟨fun hnil => ?_, ?_⟩
    · rw [hnil] at hfilter
      exact Bool.false_ne_true hfilter
    · rw [remainder, List.length_drop]
      omega

/-- Nothing is left to read. -/
theorem Unread.nil : Unread [] none [] where
  bytes_eq := rfl
  words _ h := absurd h List.not_mem_nil
  tail _ h := absurd h (Option.some_ne_none _).symm

/-- The next word. -/
theorem debugNextWord_ok {words : List (List UInt8)} {tail : Option (List UInt8)} {bytes : List UInt8}
    (h : Unread words tail bytes) :
    ∃ words' tail', debugNextWord words tail = .ok ((nextWord bytes).1, words', tail') ∧
      Unread words' tail' (nextWord bytes).2 ∧
      (nextWord bytes).1 < 2 ^ 64 := by
  obtain ⟨rfl, hwords, htail⟩ := h
  cases words with
  | cons word words =>
    have hword := hwords word List.mem_cons_self
    have hlong : 8 ≤ (word ++ (words.flatten ++ tail.getD [])).length := by
      rw [List.length_append]
      omega
    rw [debugNextWord, copyIntoArray_ok hword, ok_bind, Loops.toList_arrayOf hword, List.flatten_cons,
      List.append_assoc, nextWord, if_pos hlong, List.take_left' hword, List.drop_left' hword]
    exact ⟨words, tail, rfl, ⟨rfl, fun w hw => hwords w (List.mem_cons_of_mem _ hw), htail⟩,
      (ofBytes_lt word).trans_eq (by rw [hword])⟩
  | nil =>
    cases tail with
    | some rest =>
      obtain ⟨hrest, hlt⟩ := htail rest rfl
      have hpadded : (List.replicate 8 (0 : UInt8)).take rest.length = List.replicate rest.length 0 := by
        rw [List.take_replicate, Nat.min_eq_left (by omega)]
      rw [debugNextWord, splitAt_ok (by rw [List.length_replicate]; omega), ok_bind, hpadded]
      simp only []
      rw [copyFromSlice_ok (by rw [List.length_replicate]), ok_bind, List.drop_replicate, List.flatten_nil, List.nil_append,
        Option.getD_some, nextWord, if_neg (by omega), if_pos hrest]
      refine ⟨[], none, rfl, Unread.nil, (ofBytes_lt _).trans_eq ?_⟩
      rw [List.length_append, List.length_replicate, Nat.add_sub_cancel' (Nat.le_of_lt hlt)]
    | none => exact ⟨[], none, rfl, Unread.nil, Nat.two_pow_pos 64⟩

/-- The variables of the two loops: the same bytes are left. -/
structure UnpackFollows (s : DebugUnpackState) (t : UnpackState) : Prop where
  unread : Unread s.words s.tail t.bytes
  accumulator : s.accumulator = t.accumulator
  bits : s.bits = t.bits

/-- The closure called for each value. -/
theorem debugUnpackValue_ok {d : Nat} (hd : d ≤ 12) {s : DebugUnpackState} {t : UnpackState} (h : UnpackFollows s t) :
    ∃ s', debugUnpackValue d ((1 <<< d) - 1) s = .ok ((unpackValue d t).1, s') ∧ UnpackFollows s' (unpackValue d t).2 := by
  obtain ⟨hunread, hacc, hbits⟩ := h
  rw [debugUnpackValue, debugRefill, hbits, hacc, unpackValue]
  by_cases hfew : t.bits < d
  · obtain ⟨words, tail, hrun, hunread', hword⟩ := debugNextWord_ok hunread
    have hshift : (nextWord t.bytes).1 <<< t.bits < 2 ^ 128 := by
      rw [Nat.shiftLeft_eq]
      have hpow : 2 ^ t.bits ≤ 2 ^ 12 := Nat.pow_le_pow_right (by decide) (by omega)
      exact (Nat.mul_le_mul (Nat.le_of_lt hword) hpow).trans_lt (by decide)
    simp only [if_pos hfew]
    rw [hrun, ok_bind, assert_ok (by omega), ok_bind, Nat.mod_eq_of_lt hshift, usize_ok (by omega), ok_bind, pure_eq,
      ok_bind, assert_ok (by omega), ok_bind, sub_ok (show d ≤ t.bits + 64 by omega), ok_bind]
    exact ⟨_, rfl, hunread', rfl, rfl⟩
  · simp only [if_neg hfew]
    rw [ok_bind, hbits, hacc, assert_ok (by omega), ok_bind, sub_ok (by omega), ok_bind]
    exact ⟨_, rfl, hunread, rfl, rfl⟩

/-- The accumulator of `unpack` never holds more bits than its word. -/
theorem debugUnpack_ok (bytes : List UInt8) {d : Nat} (hd : d ≤ 12) : debugUnpack bytes d = .ok (unpack bytes d) := by
  have hmask : (1 <<< d) % 2 ^ 32 = 1 <<< d := by
    have hpow : 2 ^ d ≤ 4096 := Nat.pow_le_pow_right (n := 2) (j := 12) (by decide) hd
    exact Nat.mod_eq_of_lt (by rw [Nat.shiftLeft_eq]; omega)
  have hpos := Nat.two_pow_pos d
  have hfollows (_ : Fin N) := fun s t => debugUnpackValue_ok hd (s := s) (t := t)
  obtain ⟨s, hrun, _⟩ := ofFnM_follows (R := fun _ => UnpackFollows) hfollows
    (s := ⟨Loops.chunksExact 8 bytes, (some (remainder 8 bytes)).filter fun rest => !rest.isEmpty, 0, 0⟩)
    (t := ⟨bytes, 0, 0⟩) ⟨Unread.start bytes, rfl, rfl⟩
  rw [debugUnpack, assert_ok (by omega), ok_bind, hmask, sub_ok (by rw [Nat.shiftLeft_eq]; omega), ok_bind,
    chunksExact_ok (by decide), ok_bind, hrun, ok_bind]
  rfl

end Encoding.Generic

/-! ## Elements -/

/-- `pack` of values whose packing fits the array. -/
theorem Encoding.debugPack_ok (values : Vector UInt16 N) {d size : Nat} (hd : d ≤ 12) (hfit : 32 * d ≤ size)
    (hsize : size ≤ 384) :
    Encoding.debugPack size values d = .ok (Encoding.pack size values d) := by
  have hbits : N * d / 8 ≤ size := by
    rw [N]
    omega
  have hwidth : min size 384 = size := Nat.min_eq_left hsize
  have hsource : (Encoding.Generic.pack values d).toList.length = 384 := Vector.length_toList
  have hout : splitAt size (List.replicate size (0 : UInt8)) = .ok (List.replicate size 0, []) := by
    rw [splitAt_ok (by rw [List.length_replicate]), List.take_replicate, Nat.min_self, List.drop_replicate, Nat.sub_self]
    rfl
  rw [Encoding.debugPack, assert_ok hbits, ok_bind, Encoding.Generic.debugPack_ok values hd, ok_bind, hwidth, hout, ok_bind,
    splitAt_ok (by omega)]
  simp only [ok_bind]
  rw [copyFromSlice_ok (by rw [List.length_take, List.length_replicate]; omega), ok_bind, List.append_nil]
  exact congrArg Except.ok (Vector.ext fun i hi => by
    rw [Loops.arrayOf, Vector.getElem_ofFn, Encoding.pack, Vector.getElem_ofFn]
    simp only []
    rw [getElem!_pos _ i (by rw [List.length_take]; omega), getElem!_pos _ i (by omega), List.getElem_take,
      Vector.getElem_toList])

namespace TqElement

/-- The 384 bytes of an element. -/
theorem debugByteEncode_ok (t : TqElement) : t.debugByteEncode = .ok t.byteEncode := by
  rw [debugByteEncode, Poly.Generic.debugCanonical_ok, ok_bind]
  exact Encoding.debugPack_ok _ (by decide) (by decide) (by decide)

/-- Decoding a string of any length. -/
theorem debugByteDecode_ok (bytes : List UInt8) : debugByteDecode bytes = .ok (byteDecode bytes) := by
  rw [debugByteDecode, Encoding.Generic.debugUnpack_ok bytes (by decide), ok_bind, ofFnM_map _ FieldElement.debugNew_ok,
    ok_bind, debugNew_ok]
  rfl

end TqElement

namespace RqElement

theorem debugCompressEncode_ok (f : RqElement) {d : Nat} (hd : d ≤ 11) :
    f.debugCompressEncode d = .ok (f.compressEncode d) := by
  rw [debugCompressEncode, Poly.Generic.debugCompress_ok _ (by omega), ok_bind]
  exact Encoding.debugPack_ok _ (by omega) (by omega) (by decide)

theorem debugDecodeDecompress_ok (bytes : List UInt8) {d : Nat} (hd : 1 ≤ d) (hd' : d ≤ 12) :
    debugDecodeDecompress bytes d = .ok (decodeDecompress bytes d) := by
  rw [debugDecodeDecompress, Encoding.Generic.debugUnpack_ok bytes hd', ok_bind,
    Poly.Generic.debugDecompress_ok _ hd hd', ok_bind]
  rfl

/-- A message is decompressed at width one. -/
theorem debugFromMessage_ok (message : Vector UInt8 32) : debugFromMessage message = .ok (fromMessage message) :=
  debugDecodeDecompress_ok _ (by decide) (by decide)

theorem debugCompressMessage_ok (f : RqElement) : f.debugCompressMessage = .ok f.compressMessage := by
  rw [debugCompressMessage, Poly.Generic.debugCompress_ok _ (by decide), ok_bind]
  exact Encoding.debugPack_ok _ (by decide) (by decide) (by decide)

end RqElement

/-! ## Vectors -/

/-- The encodings of the components. -/
theorem TqVector.debugByteEncoded_ok (v : TqVector P) : v.debugByteEncoded = .ok v.byteEncoded := by
  have hlen : P.K ≤ v.polys.toList.length := Nat.le_of_eq Vector.length_toList.symm
  rw [debugByteEncoded, fromNext_ok hlen fun t _ => t.debugByteEncode_ok]
  exact congrArg Except.ok (Vector.ext fun i hi => by
    rw [Vector.getElem_ofFn, byteEncoded, Vector.getElem_map]
    simp only []
    rw [getElem!_pos _ i (by rw [Vector.length_toList]; exact hi), Vector.getElem_toList])

/-- The chunk a closure takes next, of a slice that has one for each component. -/
theorem chunk_getElem! {bytes : List UInt8} {size : Nat} {i : Nat} (hi : i < (Loops.chunksExact size bytes).length) :
    (Loops.chunksExact size bytes)[i]! = (Loops.chunksExact size bytes)[i]?.getD [] := by
  rw [getElem!_pos _ i hi, List.getElem?_eq_getElem hi, Option.getD_some]

/-- A long enough string has a chunk for every component. -/
theorem length_chunks {bytes : List UInt8} {size : Nat} (hsize : 0 < size) (hlen : size * P.K ≤ bytes.length) :
    P.K ≤ (Loops.chunksExact size bytes).length := by
  rw [Loops.chunksExact, List.length_map, List.length_range]
  exact (Nat.le_div_iff_mul_le hsize).mpr (by rw [Nat.mul_comm]; exact hlen)

/-- A vector is decoded from a string that is long enough. -/
theorem TqVector.debugByteDecode_ok {bytes : List UInt8} (hlen : 384 * P.K ≤ bytes.length) :
    TqVector.debugByteDecode bytes = .ok (TqVector.byteDecode bytes : TqVector P) := by
  have hchunks := length_chunks (by decide) hlen
  rw [debugByteDecode, chunksExact_ok (by decide), ok_bind,
    fromNext_ok hchunks fun chunk _ => TqElement.debugByteDecode_ok chunk,
    ok_bind]
  refine congrArg (fun polys => Except.ok (TqVector.mk polys)) (Vector.ext fun i hi => ?_)
  rw [Vector.getElem_ofFn, Vector.getElem_ofFn, chunk_getElem! (by omega)]

/-- A vector is decompressed from a string that is long enough. -/
theorem RqVector.debugDecodeDecompress_ok {bytes : List UInt8} {d : Nat} (hd : 1 ≤ d) (hd' : d ≤ 12)
    (hlen : 32 * d * P.K ≤ bytes.length) :
    RqVector.debugDecodeDecompress bytes d = .ok (RqVector.decodeDecompress bytes d : RqVector P) := by
  have hchunks := length_chunks (by omega) hlen
  rw [debugDecodeDecompress, chunksExact_ok (by omega), ok_bind,
    fromNext_ok hchunks fun chunk _ => RqElement.debugDecodeDecompress_ok chunk hd hd', ok_bind]
  refine congrArg (fun polys => Except.ok (RqVector.mk polys)) (Vector.ext fun i hi => ?_)
  rw [Vector.getElem_ofFn, Vector.getElem_ofFn, chunk_getElem! (by omega)]

end MlkemSelkie
