import MlkemSelkie.Backend
import MlkemSelkie.Lemmas.Bytes
import MlkemSelkie.Lemmas.VectorRejection

/-!
# The crate over a backend that agrees with the portable one

What a backend owes the crate is stated kernel by kernel, each under what its callers give it. Under this contract every
function over the backend has the value of the portable one: the calls are independent of each other, except in the
rejection loops, where the buffers of the two backends differ behind the coefficients that are read.
-/

namespace MlkemSelkie

open Loops Sampling

/-- Two rejection buffers that hold the same coefficients, neither count past 256. -/
def Sampling.RejectState.Alike (s s' : RejectState) : Prop := ∃ l, Buffered l s ∧ Buffered l s' ∧ s.count ≤ N ∧ s'.count ≤ N

/-- The kernels return what the portable ones return, on what the crate gives them. -/
structure Backend.Agrees (B : Backend) : Prop where
  ntt : ∀ cs, B.ntt cs = some (Poly.Generic.ntt cs)
  nttInverse : ∀ cs, B.nttInverse cs = Poly.Generic.nttInverse cs
  multiply : ∀ f g, B.multiply f g = Poly.Generic.multiply f g
  dot : ∀ terms : List (Coefficients × Coefficients × Vector FieldElement 128),
    B.basemulReduce (terms.foldl (fun acc t => B.basemulAccumulate acc t.1 t.2.1 t.2.2) .zero) =
      Poly.Generic.basemulReduce (terms.foldl (fun acc t => Poly.Generic.basemulAccumulate acc t.1 t.2.1 t.2.2) .zero)
  pack : ∀ cs, B.pack cs = Poly.Generic.pack cs
  unpack : ∀ cs, B.unpack cs = Poly.Generic.unpack cs
  canonical : ∀ cs, B.canonical cs = Poly.Generic.canonical cs
  compress : ∀ cs d, d ≤ 11 → B.compress cs d = Poly.Generic.compress cs d
  decompress : ∀ (values : Vector UInt16 N) d, 1 ≤ d → d ≤ 11 → (∀ i : Fin 256, values[i].toNat < 2 ^ d) →
    B.decompress values d = Poly.Generic.decompress values d
  packBits : ∀ (values : Vector UInt16 N) d, d ≤ 12 → (∀ i : Fin 256, values[i].toNat < 2 ^ d) →
    B.packBits values d = some (Encoding.Generic.pack values d)
  unpackBits : ∀ bytes d, B.unpackBits bytes d = some (Encoding.Generic.unpack bytes d)
  reject : ∀ (bytes : List UInt8) (s s' : RejectState), bytes.length % 12 = 0 → s.Alike s' →
    ∃ t, B.reject bytes s = some t ∧ t.Alike (Sampling.Generic.reject bytes s')

variable {P : ParameterSet} {Γ : Crates} {B : Backend}

/-! ## Ring elements -/

section

variable (h : B.Agrees)

include h

namespace TqElement

theorem newOn_eq (coefficients : Coefficients) : newOn B coefficients = new coefficients := by rw [newOn, h.pack, new]

/-- The coefficients in natural order. -/
theorem coefficientsOn_eq (t : TqElement) : t.coefficientsOn B = t.coefficients := by
  rw [coefficientsOn, h.unpack, coefficients]

theorem nttInverseOn_eq (t : TqElement) : t.nttInverseOn B = t.nttInverse := by
  rw [nttInverseOn, h.unpack, h.nttInverse, nttInverse]

/-- A dot product of any length, which is accumulated in the sums of the backend. -/
theorem accumulatedDotOn_eq (f g : List TqElement) (caches : List TqMulCache) :
    accumulatedDotOn B f g caches = accumulatedDot f g caches := by
  have hdot := h.dot (((f.zip g).zip caches).map fun p => (p.1.1.inner, p.1.2.inner, p.2.inner))
  rw [List.foldl_map, List.foldl_map] at hdot
  exact congrArg TqElement.mk hdot

theorem canonicalOn_eq (t : TqElement) : t.canonicalOn B = t.canonical := by rw [canonicalOn, h.canonical, canonical]

/-- The product of two elements. -/
theorem mulOn_eq (a b : TqElement) : a.mulOn B b = a * b := congrArg TqElement.mk (h.multiply a.inner b.inner)

end TqElement

namespace RqElement

theorem nttOn_eq (f : RqElement) : f.nttOn B = some f.ntt := by
  rw [nttOn, h.ntt, SignedWords.some_bind, TqElement.newOn_eq h, ntt]
  rfl

theorem compressedOn_eq (f : RqElement) {d : Nat} (hd : d ≤ 11) : f.compressedOn B d = f.compressed d := by
  rw [compressedOn, h.compress _ _ hd, compressed]

end RqElement

/-! ## Encoding -/

/-- Packing values of the width. -/
theorem Encoding.packOn_eq {size d : Nat} {values : Vector UInt16 N} (hd : d ≤ 12)
    (hvalues : ∀ i : Fin 256, values[i].toNat < 2 ^ d) :
    Encoding.packOn B size values d = some (Encoding.pack size values d) := by
  rw [packOn, h.packBits _ _ hd hvalues, SignedWords.some_bind]
  rfl

namespace TqElement

/-- The encoding of an element: its values are canonical, so they fit. -/
theorem byteEncodeOn_eq (t : TqElement) : t.byteEncodeOn B = some t.byteEncode := by
  rw [byteEncodeOn, canonicalOn_eq h, Encoding.packOn_eq h (Nat.le_refl 12), byteEncode]
  intro k
  rw [canonical_eq]
  exact Nat.lt_trans (ZMod.val_lt (t.toTq k)) (by decide)

/-- Decoding a string of any length. -/
theorem byteDecodeOn_eq (bytes : List UInt8) : byteDecodeOn B bytes = some (byteDecode bytes) := by
  rw [byteDecodeOn, h.unpackBits, SignedWords.some_bind, newOn_eq h, byteDecode]
  rfl

end TqElement

namespace RqElement

/-- Compressed values have the width they are packed at. -/
theorem packedOn_eq (f : RqElement) {size d : Nat} (hd : d ≤ 11) :
    Encoding.packOn B size (f.compressedOn B d) d = some (Encoding.pack size (f.compressed d) d) := by
  rw [compressedOn_eq h f hd, Encoding.packOn_eq h (by omega)]
  intro k
  rw [compressed_eq f hd k]
  exact compress_lt d _

theorem compressEncodeOn_eq (f : RqElement) {d : Nat} (hd : d ≤ 11) : f.compressEncodeOn B d = some (f.compressEncode d) :=
  packedOn_eq h f hd

/-- Compressing to a message. -/
theorem compressMessageOn_eq (f : RqElement) : f.compressMessageOn B = some f.compressMessage := packedOn_eq h f (by decide)

/-- Unpacked values have the width they are decompressed at. -/
theorem decodeDecompressOn_eq (bytes : List UInt8) {d : Nat} (hd : 1 ≤ d) (hd' : d ≤ 11) :
    decodeDecompressOn B bytes d = some (decodeDecompress bytes d) := by
  have hvalues : ∀ i : Fin 256, (Encoding.Generic.unpack bytes d)[i].toNat < 2 ^ d := fun i => by
    rw [Encoding.Generic.unpack_toNat hd (by omega) bytes i]
    exact Nat.mod_lt _ (Nat.two_pow_pos d)
  rw [decodeDecompressOn, h.unpackBits, SignedWords.some_bind, decompressOn, h.decompress _ _ hd hd' hvalues]
  rfl

theorem fromMessageOn_eq (message : Vector UInt8 32) : fromMessageOn B message = some (fromMessage message) :=
  decodeDecompressOn_eq h message.toList (Nat.le_refl 1) (by decide)

end RqElement

/-! ## Vectors and matrices -/

namespace RqVector

theorem nttOn_eq (v : RqVector P) : v.nttOn B = some v.ntt := by
  have hrun : (Vector.ofFnM fun i : Fin P.K => v.polys[i].nttOn B) = some v.ntt.polys := ofFnM_eq_some fun i => by
    rw [RqElement.nttOn_eq h, getElem_ntt]
  rw [nttOn, hrun]
  rfl

theorem decodeDecompressOn_eq (bytes : List UInt8) {d : Nat} (hd : 1 ≤ d) (hd' : d ≤ 11) :
    (decodeDecompressOn B bytes d : Option (RqVector P)) = some (decodeDecompress bytes d) := by
  have hrun : (Vector.ofFnM fun i : Fin P.K =>
    RqElement.decodeDecompressOn B ((chunksExact (32 * d) bytes)[i.val]?.getD []) d) =
      some (decodeDecompress bytes d : RqVector P).polys := ofFnM_eq_some fun i => by
    rw [RqElement.decodeDecompressOn_eq h _ hd hd', decodeDecompress, Loops.getElem_fin, Vector.getElem_ofFn]
  rw [decodeDecompressOn, hrun]
  rfl

end RqVector

namespace TqVector

theorem nttInverseOn_eq (v : TqVector P) : v.nttInverseOn B = v.nttInverse := by
  simp only [nttInverseOn, TqElement.nttInverseOn_eq h]
  rfl

/-- The dot product with a vector that has no caches. -/
theorem mulOn_eq (a b : TqVector P) : a.mulOn B b = a * b := by
  simp only [mulOn, TqElement.mulOn_eq h]
  rfl

/-- The dot product with a cached vector. -/
theorem dotOn_eq (a : TqVector P) (b : CachedTqVector P) : a.dotOn B b = a * b := TqElement.accumulatedDotOn_eq h _ _ _

theorem byteEncodedOn_eq (v : TqVector P) : v.byteEncodedOn B = some v.byteEncoded :=
  ofFnM_eq_some fun i => by
    rw [TqElement.byteEncodeOn_eq h, byteEncoded, Loops.getElem_fin, Loops.getElem_fin, Vector.getElem_map]

theorem byteDecodeOn_eq (bytes : List UInt8) : (byteDecodeOn B bytes : Option (TqVector P)) = some (byteDecode bytes) := by
  have hrun : (Vector.ofFnM fun i : Fin P.K => TqElement.byteDecodeOn B ((chunksExact 384 bytes)[i.val]?.getD [])) =
      some (byteDecode bytes : TqVector P).polys := ofFnM_eq_some fun i => by
    rw [TqElement.byteDecodeOn_eq h, byteDecode, Loops.getElem_fin, Vector.getElem_ofFn]
  rw [byteDecodeOn, hrun]
  rfl

end TqVector

/-- The product of a matrix with a column vector. -/
theorem TqMatrix.mulOn_eq (a : TqMatrix P) (b : TqVector P) : a.mulOn B b = a * b := by
  simp only [mulOn, TqVector.mulOn_eq h]
  rfl

/-- The product of a matrix with a cached vector. -/
theorem TqMatrix.productOn_eq (a : TqMatrix P) (b : CachedTqVector P) : a.productOn B b = a * b := by
  simp only [productOn, TqVector.dotOn_eq h]
  rfl

end

/-! ## The rejection sampler -/

namespace Sampling.RejectState

variable {s s' : RejectState}

/-- The empty buffers are alike. -/
theorem alike_empty : emptyReject.Alike emptyReject :=
  ⟨[], buffered_empty, buffered_empty, Nat.zero_le N, Nat.zero_le N⟩

/-- Alike buffers hold equally many coefficients. -/
theorem Alike.count_eq (h : s.Alike s') : s.count = s'.count := by
  obtain ⟨l, hs, hs', hcount, hcount'⟩ := h
  have hmin := (hs.agree hs').1
  rwa [Nat.min_eq_left hcount, Nat.min_eq_left hcount'] at hmin

/-- Alike buffers hold the same coefficients where they are read. -/
theorem Alike.buffer_eq (h : s.Alike s') {p : Nat} (hp : p < N) : s.buffer[p]! = s'.buffer[p]! := by
  obtain ⟨l, hs, hs', _, _⟩ := h
  exact (hs.agree hs').2 p hp

end Sampling.RejectState

/-- A kernel that adds the accepted candidates of a block and clamps its count agrees with the portable one. -/
theorem Sampling.RejectKernel.alike (k : RejectKernel) (bytes : List UInt8) (s s' : RejectState)
    (hlen : bytes.length % 12 = 0)
    (h : s.Alike s') : ∃ t, k.reject bytes s = some t ∧ t.Alike (Sampling.Generic.reject bytes s') := by
  obtain ⟨l, hs, hs', _, hcount'⟩ := h
  have htwo : 2 * (bytes.length / 3) = 8 * (bytes.length / 12) := by omega
  obtain ⟨t, ht, hcount, hbuffered⟩ := k.reject_spec bytes hs
  have hgeneric := hs'.reject bytes (bytes.length / 3) (by omega)
  rw [htwo] at hgeneric
  exact ⟨t, ht, _, hbuffered, hgeneric, hcount, reject_count_le bytes hcount'⟩

namespace TqElement

variable (h : B.Agrees)

include h

/-- Alike buffers give the same element. -/
theorem fromRejectBufferOn_eq {s s' : RejectState} (hs : s.Alike s') : fromRejectBufferOn B s = fromRejectBuffer s' := by
  rw [fromRejectBufferOn, newOn_eq h, fromRejectBuffer]
  refine congrArg new (Vector.ext fun i hi => ?_)
  rw [Vector.getElem_ofFn, Vector.getElem_ofFn]
  exact hs.buffer_eq hi

/-- The serial sampler: a block keeps the buffers alike. -/
theorem sampleNttOn_eq (rho : Vector UInt8 32) (i j : UInt8) : sampleNttOn Γ B rho i j = sampleNtt Γ rho i j := by
  have hrelated : Option.Rel (fun p p' : RejectState × Γ.shake128.Squeezing => p.1.Alike p'.1 ∧ p.2 = p'.2)
      (While.runAttempt (fun p => p.1.count < N) (sampleNttPassOn Γ B) (emptyReject, Γ.xof rho i j))
      ((sampleNttLoop Γ).run (emptyReject, Γ.xof rho i j)) := by
    refine While.runAttempt_related ?_ ?_ ⟨Sampling.RejectState.alike_empty, rfl⟩
    · rintro p p' ⟨hs, _⟩
      rw [hs.count_eq]
      rfl
    · rintro ⟨s, reader⟩ ⟨s', _⟩ ⟨hs, rfl⟩ _
      obtain ⟨t, ht, halike⟩ := h.reject (Γ.shake128.read reader 168).1.toList s s' (by rw [Vector.length_toList]) hs
      refine ⟨(t, (Γ.shake128.read reader 168).2), ?_, halike, rfl⟩
      rw [sampleNttPassOn]
      simp only [ht, SignedWords.some_bind]
      rfl
  exact While.map_related hrelated fun p p' hp => fromRejectBufferOn_eq h hp.1

/-- The lanes of a batch hold the same coefficients. -/
def AlikeLanes (lanes lanes' : Vector RejectState 4) : Prop := ∀ l : Fin 4, lanes[l].Alike lanes'[l]

omit h in
/-- Alike lanes are done together. -/
theorem AlikeLanes.done {lanes lanes' : Vector RejectState 4} (hlanes : AlikeLanes lanes lanes') :
    (lanes.all fun s => decide (N ≤ s.count)) = lanes'.all fun s => decide (N ≤ s.count) := by
  have hcount : ∀ l (hl : l < 4), lanes[l].count = lanes'[l].count := fun l hl => (hlanes ⟨l, hl⟩).count_eq
  refine Bool.eq_iff_iff.mpr ?_
  rw [Vector.all_eq_true, Vector.all_eq_true]
  refine forall₂_congr fun l hl => ?_
  rw [hcount l hl]

/-- A block for each lane keeps the lanes alike. -/
theorem rejectIntoOn_spec {size : Nat} (hsize : size % 12 = 0) (blocks : Vector (Vector UInt8 size) 4)
    {lanes lanes' : Vector RejectState 4} (hlanes : AlikeLanes lanes lanes') : ∃ t, rejectIntoOn B blocks lanes =
      some (t, (rejectInto blocks lanes').2) ∧ AlikeLanes t (rejectInto blocks lanes').1 := by
  have hlane : ∀ l : Fin 4, ∃ t, B.reject blocks[l].toList lanes[l] = some t ∧
      t.Alike (Sampling.Generic.reject blocks[l].toList lanes'[l]) :=
    fun l => h.reject _ _ _ (by rwa [Vector.length_toList]) (hlanes l)
  choose t ht halike using hlane
  have hrun : (Vector.ofFnM fun l : Fin 4 => B.reject blocks[l].toList lanes[l]) = some (Vector.ofFn t) :=
    ofFnM_eq_some fun l => by rw [ht, Loops.getElem_fin, Vector.getElem_ofFn]
  have hnext : AlikeLanes (Vector.ofFn t) (rejectInto blocks lanes').1 := by
    intro l
    have hportable : (rejectInto blocks lanes').1[l] = Sampling.Generic.reject blocks[l].toList lanes'[l] :=
      Vector.getElem_zipWith _
    rw [hportable, Loops.getElem_fin, Vector.getElem_ofFn]
    exact halike l
  refine ⟨Vector.ofFn t, ?_, hnext⟩
  rw [rejectIntoOn, hrun, SignedWords.some_bind, hnext.done]
  rfl

/-- The batched sampler: the blocks keep the lanes alike. -/
theorem sampleNttX4On_eq (rho : Vector UInt8 32) (indices : Vector (UInt8 × UInt8) 4) :
    sampleNttX4On Γ B rho indices = sampleNttX4 Γ rho indices := by
  obtain ⟨⟨blocks, state⟩, hsqueeze⟩ : ∃ r, r = Γ.shake128X4.squeeze (Γ.xofX4 rho indices) (3 * 168) := ⟨_, rfl⟩
  have hempty : AlikeLanes (Vector.replicate 4 emptyReject) (Vector.replicate 4 emptyReject) := fun l => by
    rw [Loops.getElem_fin, Vector.getElem_replicate]
    exact Sampling.RejectState.alike_empty
  obtain ⟨lanes, hfirst, hlanes⟩ := rejectIntoOn_spec h (by decide) blocks hempty
  have hrelated : Option.Rel (fun p p' : Γ.shake128X4.Squeezing × Vector RejectState 4 × Bool =>
      p.1 = p'.1 ∧ AlikeLanes p.2.1 p'.2.1 ∧ p.2.2 = p'.2.2)
      (While.runAttempt (fun p => !p.2.2) (sampleNttX4PassOn Γ B)
        (state, lanes, (rejectInto blocks (Vector.replicate 4 emptyReject)).2))
      ((sampleNttX4Loop Γ).run (state, rejectInto blocks (Vector.replicate 4 emptyReject))) := by
    refine While.runAttempt_related ?_ ?_ ⟨rfl, hlanes, rfl⟩
    · rintro p p' ⟨_, _, hdone⟩
      exact congrArg not hdone
    · rintro ⟨state, lanes, done⟩ ⟨_, lanes', _⟩ ⟨rfl, hlanes, rfl⟩ _
      obtain ⟨t, hrun, hnext⟩ := rejectIntoOn_spec h (by decide) (Γ.shake128X4.squeeze state 168).1 hlanes
      refine ⟨((Γ.shake128X4.squeeze state 168).2, t, _), ?_, rfl, hnext, rfl⟩
      rw [sampleNttX4PassOn]
      simp only [hrun, SignedWords.some_bind]
      rfl
  have hread := While.map_related hrelated (f := fun p => p.2.1.map (fromRejectBufferOn B))
    (g := fun p => p.2.1.map fromRejectBuffer)
    fun p p' hp => Vector.ext fun l hl => by
      rw [Vector.getElem_map, Vector.getElem_map]
      exact fromRejectBufferOn_eq h (hp.2.1 ⟨l, hl⟩)
  rw [sampleNttX4On, sampleNttX4]
  simp only [← hsqueeze, hfirst, SignedWords.some_bind]
  refine Eq.trans ?_ hread
  cases While.runAttempt _ (sampleNttX4PassOn Γ B) _ <;> rfl

end TqElement

namespace TqMatrix

variable (h : B.Agrees)

include h

/-- An entry of the matrix. -/
theorem nextEntryOn_eq (rho : Vector UInt8 32) (k : Nat) : nextEntryOn Γ B rho k = nextEntry Γ rho k := by
  simp only [nextEntryOn, TqElement.sampleNttX4On_eq h]
  rfl

/-- The matrix of a seed. -/
theorem expandOn_eq (rho : Vector UInt8 32) : (expandOn Γ B rho : Option (TqMatrix P)) = expand Γ rho := by
  simp only [expandOn, nextEntryOn_eq h]
  rfl

end TqMatrix

/-! ## K-PKE and ML-KEM -/

section

variable (h : B.Agrees)

include h

/-- The serialization of a ciphertext. -/
theorem Ciphertext.fromUvOn_eq (u : RqVector P) (v : RqElement) : fromUvOn B u v = some (fromUv u v) := by
  obtain ⟨⟨_, hdU⟩, _, hdV⟩ := widths P
  rw [fromUvOn]
  simp only [RqElement.compressEncodeOn_eq h _ hdU, RqElement.compressEncodeOn_eq h _ hdV, SignedWords.some_bind]
  rw [List.foldlM_pure]
  rfl

namespace EncryptionKey

/-- The serialization of an encryption key. -/
theorem toBytesOn_eq (ek : EncryptionKey P) : ek.toBytesOn B = some ek.toBytes := by
  rw [toBytesOn, TqVector.byteEncodedOn_eq h, SignedWords.some_bind]
  rfl

/-- The parser of encryption keys. -/
theorem fromBytesOn_eq (bytes : List UInt8) : (fromBytesOn Γ B bytes : Option (EncryptionKey P)) = fromBytes Γ bytes := by
  rw [fromBytesOn, TqVector.byteDecodeOn_eq h, SignedWords.some_bind]
  simp only [TqMatrix.expandOn_eq h]
  rfl

/-- `K-PKE.Encrypt`. -/
theorem encryptOn_eq (ek : EncryptionKey P) (message randomness : Vector UInt8 32) :
    ek.encryptOn Γ B message randomness = some (ek.encrypt Γ message randomness) := by
  rw [encryptOn]
  simp only [RqVector.nttOn_eq h, RqElement.fromMessageOn_eq h, SignedWords.some_bind, TqMatrix.productOn_eq h,
    TqVector.nttInverseOn_eq h, TqVector.dotOn_eq h, TqElement.nttInverseOn_eq h, Ciphertext.fromUvOn_eq h]
  rfl

end EncryptionKey

namespace DecryptionKey

/-- The serialization of a decryption key. -/
theorem toBytesOn_eq (dk : DecryptionKey P) : dk.toBytesOn B = some dk.toBytes := by
  rw [toBytesOn, TqVector.byteEncodedOn_eq h, SignedWords.some_bind]
  rfl

/-- The parser of decryption keys. -/
theorem fromBytesOn_eq (bytes : List UInt8) : (fromBytesOn B bytes : Option (DecryptionKey P)) = some (fromBytes bytes) := by
  rw [fromBytesOn, TqVector.byteDecodeOn_eq h, SignedWords.some_bind]
  rfl

/-- `K-PKE.Decrypt`. -/
theorem decryptOn_eq (dk : DecryptionKey P) (ciphertext : Ciphertext P) :
    dk.decryptOn B ciphertext = some (dk.decrypt ciphertext) := by
  obtain ⟨⟨hdU, hdU'⟩, hdV, hdV'⟩ := widths P
  rw [decryptOn]
  simp only [RqVector.decodeDecompressOn_eq h _ hdU hdU', RqElement.decodeDecompressOn_eq h _ hdV hdV',
    SignedWords.some_bind,
    RqVector.nttOn_eq h, TqVector.dotOn_eq h, TqElement.nttInverseOn_eq h, RqElement.compressMessageOn_eq h]
  rfl

end DecryptionKey

/-- `K-PKE.KeyGen`. -/
theorem KeyPair.newDerandOn_eq (seed : Vector UInt8 32) :
    (newDerandOn Γ B seed : Option (KeyPair P)) = newDerand Γ seed := by
  rw [newDerandOn]
  simp only [TqMatrix.expandOn_eq h, RqVector.nttOn_eq h, SignedWords.some_bind, TqMatrix.productOn_eq h]
  rfl

namespace EncapsulationKey

theorem ofOn_eq (ekPke : EncryptionKey P) : ofOn Γ B ekPke = some (of Γ ekPke) := by
  rw [ofOn, hashOn, EncryptionKey.toBytesOn_eq h, SignedWords.some_bind]
  rfl

/-- The parser of encapsulation keys. -/
theorem fromBytesOn_eq (bytes : List UInt8) :
    (fromBytesOn Γ B bytes : Option (Except Error (EncapsulationKey P))) = fromBytes Γ bytes := by
  rw [fromBytesOn]
  simp only [EncryptionKey.fromBytesOn_eq h, EncryptionKey.toBytesOn_eq h, SignedWords.some_bind, ofOn_eq h]
  rfl

/-- `ML-KEM.Encaps_internal`. -/
theorem encapsulateDerandOn_eq (ek : EncapsulationKey P) (m : Vector UInt8 32) :
    ek.encapsulateDerandOn Γ B m = some (ek.encapsulateDerand Γ m) := by
  rw [encapsulateDerandOn]
  simp only [EncryptionKey.encryptOn_eq h, SignedWords.some_bind]
  rfl

end EncapsulationKey

namespace DecapsulationKey

/-- `ML-KEM.KeyGen_internal`. -/
theorem generateDerandOn_eq (seed : Vector UInt8 64) :
    (generateDerandOn Γ B seed : Option (DecapsulationKey P)) = generateDerand Γ seed := by
  rw [generateDerandOn]
  simp only [KeyPair.newDerandOn_eq h, EncapsulationKey.ofOn_eq h, SignedWords.some_bind]
  rfl

/-- The serialization of a decapsulation key. -/
theorem toBytesOn_eq (dk : DecapsulationKey P) : dk.toBytesOn B = some dk.toBytes := by
  rw [toBytesOn, DecryptionKey.toBytesOn_eq h, SignedWords.some_bind, EncryptionKey.toBytesOn_eq h, SignedWords.some_bind]
  rfl

/-- The parser of decapsulation keys. -/
theorem fromBytesOn_eq (bytes : List UInt8) :
    (fromBytesOn Γ B bytes : Option (Except Error (DecapsulationKey P))) = fromBytes Γ bytes := by
  rw [fromBytesOn]
  simp only [DecryptionKey.fromBytesOn_eq h, EncryptionKey.fromBytesOn_eq h, SignedWords.some_bind,
    EncapsulationKey.ofOn_eq h]
  rfl

/-- `ML-KEM.Decaps`. -/
theorem decapsulateOn_eq (dk : DecapsulationKey P) (ciphertext : Ciphertext P) :
    dk.decapsulateOn Γ B ciphertext = some (dk.decapsulate Γ ciphertext) := by
  rw [decapsulateOn]
  simp only [DecryptionKey.decryptOn_eq h, EncryptionKey.encryptOn_eq h, SignedWords.some_bind]
  rfl

end DecapsulationKey

end

end MlkemSelkie
