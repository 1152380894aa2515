import MlkemSelkie.Lib.Neon
import MlkemSelkie.Poly.Generic

/-!
# The NEON kernels

`algebraic/poly/arch/neon.rs`: the polynomial kernels on registers of eight coefficients. An array is read as its
representatives, as the pointer casts do; a loop over windows is a fold over their numbers.
-/

namespace MlkemSelkie.Poly.Neon

open Loops NeonLanes

/-- `int16x8_t`. -/
abbrev Register : Type := Vector Int16 8

/-- `Q`. -/
def q : Int16 := 3329

/-- `QINV`. -/
def qInv : Int16 := -3327

/-- `BARRETT_V`: the multiplier of the reduction by q. -/
def barrettV : Int32 := (((1 : Int32) <<< 26) + 3329 / 2) / 3329

/-- `NTT_INVERSE_SCALE`: `128^-1 * R^2 mod q`. -/
def nttInverseScale : Int16 := 1441

/-- `vld1q_s16` from the coefficient `j` on. -/
def vld1qS16 {n : Nat} (coefficients : Vector FieldElement n) (j : Nat) : Register :=
  (Lanes.load 8 coefficients j).map FieldElement.rep

/-- `vst1q_s16` from the coefficient `j` on. -/
def vst1qS16 (coefficients : Coefficients) (j : Nat) (x : Register) : Coefficients :=
  Lanes.store coefficients j (x.map FieldElement.mk)

/-- Montgomery reduction of four products. -/
def montgomeryReduce (a : Vector Int32 4) (q qInv : Vector Int16 4) : Vector Int16 4 :=
  let aLow := vmovnS32 a
  let m := vmulS16 aLow qInv
  let mQ := vmullS16 m q
  let difference := vsubS32 a mQ
  vshrnNS32 16 difference

/-- Montgomery multiplication of the lanes. -/
def fqmul (a b : Register) : Register :=
  let q := vdupNS16 q
  let qInv := vdupNS16 qInv
  let productLow := vmullS16 (vgetLowS16 a) (vgetLowS16 b)
  let productHigh := vmullHighS16 a b
  vcombineS16 (montgomeryReduce productLow q qInv) (montgomeryReduce productHigh q qInv)

/-- Multiplication of the lanes by a canonical constant with its multiplier. -/
def barrettConstMul (a b bBar : Register) : Register :=
  let cLow := vmulS16 a b
  let t := vqrdmulhS16 a bBar
  vmlsS16 cLow t (vdupNS16 q)

/-- One butterfly over the lanes, the zeta given with its multiplier. -/
def butterfly (a b : Register) (zeta : Register × Register) : Register × Register :=
  let t := barrettConstMul b zeta.1 zeta.2
  (vaddS16 a t, vsubS16 a t)

/-- Barrett reduction of the lanes, the halves apart. -/
def barrettReduce (a : Register) : Register :=
  let bias := vdupNS32 ((1 : Int32) <<< 25)
  let q := q.toInt32
  let low := vmovlS16 (vgetLowS16 a)
  let tLow := vshrNS32 26 (vmlaNS32 bias low barrettV)
  let resultLow := vmovnS32 (vsubS32 low (vmulNS32 tLow q))
  let high := vmovlHighS16 a
  let tHigh := vshrNS32 26 (vmlaNS32 bias high barrettV)
  let resultHigh := vmovnS32 (vsubS32 high (vmulNS32 tHigh q))
  vcombineS16 resultLow resultHigh

/-! ## The transforms -/

/-- The zeta of index `k` and its multiplier, each in every lane. -/
def zeta (k : Nat) : Register × Register := (vdupNS16 zetaRaw[k]!.toInt16, vdupNS16 zetaBarrett[k]!)

/-- The stride-128/64 trip: one register of every 64-coefficient block, at the same offset. -/
def headTrip (coefficients : Coefficients) (i : Nat) : Coefficients :=
  let window block := 8 * (i + 8 * block)
  let z1 := zeta 1
  let (z2, z3) := (zeta 2, zeta 3)
  let v0 := vld1qS16 coefficients (window 0)
  let v1 := vld1qS16 coefficients (window 1)
  let v2 := vld1qS16 coefficients (window 2)
  let v3 := vld1qS16 coefficients (window 3)
  let (v0, v2) := butterfly v0 v2 z1
  let (v1, v3) := butterfly v1 v3 z1
  let (v0, v1) := butterfly v0 v1 z2
  let (v2, v3) := butterfly v2 v3 z3
  let coefficients := vst1qS16 coefficients (window 0) v0
  let coefficients := vst1qS16 coefficients (window 1) v1
  let coefficients := vst1qS16 coefficients (window 2) v2
  vst1qS16 coefficients (window 3) v3

/-- The stride-32/16/8 trip: the eight registers of one quarter. -/
def quarterTrip (coefficients : Coefficients) (quarter : Nat) : Coefficients :=
  let window w := 8 * (8 * quarter + w)
  let v0 := vld1qS16 coefficients (window 0)
  let v1 := vld1qS16 coefficients (window 1)
  let v2 := vld1qS16 coefficients (window 2)
  let v3 := vld1qS16 coefficients (window 3)
  let v4 := vld1qS16 coefficients (window 4)
  let v5 := vld1qS16 coefficients (window 5)
  let v6 := vld1qS16 coefficients (window 6)
  let v7 := vld1qS16 coefficients (window 7)
  let z := zeta (4 + quarter)
  let (v0, v4) := butterfly v0 v4 z
  let (v1, v5) := butterfly v1 v5 z
  let (v2, v6) := butterfly v2 v6 z
  let (v3, v7) := butterfly v3 v7 z
  let (za, zb) := (zeta (8 + 2 * quarter), zeta (9 + 2 * quarter))
  let (v0, v2) := butterfly v0 v2 za
  let (v1, v3) := butterfly v1 v3 za
  let (v4, v6) := butterfly v4 v6 zb
  let (v5, v7) := butterfly v5 v7 zb
  let (zc, zd) := (zeta (16 + 4 * quarter), zeta (17 + 4 * quarter))
  let (ze, zf) := (zeta (18 + 4 * quarter), zeta (19 + 4 * quarter))
  let (v0, v1) := butterfly v0 v1 zc
  let (v2, v3) := butterfly v2 v3 zd
  let (v4, v5) := butterfly v4 v5 ze
  let (v6, v7) := butterfly v6 v7 zf
  let coefficients := vst1qS16 coefficients (window 0) v0
  let coefficients := vst1qS16 coefficients (window 1) v1
  let coefficients := vst1qS16 coefficients (window 2) v2
  let coefficients := vst1qS16 coefficients (window 3) v3
  let coefficients := vst1qS16 coefficients (window 4) v4
  let coefficients := vst1qS16 coefficients (window 5) v5
  let coefficients := vst1qS16 coefficients (window 6) v6
  vst1qS16 coefficients (window 7) v7

/-- The part of the forward transform that both targets share: the quarter trip, the scalar tail, whose loop body is
that of the portable kernel, and the final reduction. -/
def nttTail (coefficients : Coefficients) : Coefficients :=
  let coefficients := (List.range 4).foldl quarterTrip coefficients
  let coefficients := ([4, 2].foldl Generic.nttStage (32, coefficients)).2
  coefficients.map FieldElement.reduce

/-- The forward transform without the assembly stages. -/
def ntt (coefficients : Coefficients) : Coefficients := nttTail ((List.range 8).foldl headTrip coefficients)

/-- The body of the innermost vector loop of `ntt_inverse`: only the len-16 stage reduces. -/
def vectorButterfly (zeta zetaBar : Register) (len : Nat) (coefficients : Coefficients) (j : Nat) : Coefficients :=
  let vj := vld1qS16 coefficients j
  let vjl := vld1qS16 coefficients (j + len)
  let sum := vaddS16 vj vjl
  let coefficients := vst1qS16 coefficients j (if len = 16 then barrettReduce sum else sum)
  vst1qS16 coefficients (j + len) (barrettConstMul (vsubS16 vjl vj) zeta zetaBar)

/-- One vector stage: the windows of every block, from its start on in steps of eight. -/
def vectorStage (s : Nat × Coefficients) (len : Nat) : Nat × Coefficients :=
  (stepBy 256 (2 * len)).foldl (fun s start =>
    let zeta := vdupNS16 zetaRaw[s.1]!.toInt16
    let zetaBar := vdupNS16 zetaBarrett[s.1]!
    (s.1 - 1, (List.range' start ((len + 7) / 8) 8).foldl (vectorButterfly zeta zetaBar len) s.2)) s

/-- The inverse transform: the scalar head, the vector stages and the final scale. -/
def nttInverse (coefficients : Coefficients) : Coefficients :=
  let s := [2, 4].foldl headStage (127, coefficients)
  let s := [8, 16, 32, 64, 128].foldl vectorStage s
  (stepBy 256 8).foldl (fun coefficients j =>
    vst1qS16 coefficients j (fqmul (vdupNS16 nttInverseScale) (vld1qS16 coefficients j))) s.2

/-! ## The storage -/

/-- Splits natural coefficient order into the evens-then-odds storage, eight pairs at a time. -/
def pack (natural : Coefficients) : Coefficients :=
  (List.range 16).foldl (fun halves i =>
    let de := vld2 (natural.map FieldElement.rep) (16 * i)
    let halves := vst1qS16 halves (8 * i) de.1
    vst1qS16 halves (128 + 8 * i) de.2) (Vector.replicate N FieldElement.zero)

/-- Re-interleaves the storage to natural order, eight pairs at a time. -/
def unpack (halves : Coefficients) : Coefficients :=
  (List.range 16).foldl (fun natural i =>
    let even := vld1qS16 halves (8 * i)
    let odd := vld1qS16 halves (128 + 8 * i)
    vst2 natural (16 * i) (even.map FieldElement.mk, odd.map FieldElement.mk)) (Vector.replicate N FieldElement.zero)

/-! ## Compression -/

/-- `compress_multiplier`: `ceil(2^(31 + d) / q)`. -/
def compressMultiplier (d : Nat) : Int32 := Int32.ofNat ((2 ^ (31 + d) + 3328) / 3329)

/-- The canonical representatives of the lanes. -/
def canonicalLanes (x : Register) : Register :=
  let reduced := barrettReduce x
  let negative := vshrNS16 15 reduced
  vaddS16 reduced (vandS16 negative (vdupNS16 q))

/-- Eight lanes of `compress`: `round(x * 2^d / q)` in double words, masked and narrowed. -/
def compressLanes (multiplier : Int32) (d : Nat) (x : Register) : Vector UInt16 8 :=
  let m := vdupNS32 multiplier
  let mask := vdupNS32 (Int32.ofNat (1 <<< d - 1))
  let lo := vandS32 (vqrdmulhS32 (vmovlS16 (vgetLowS16 x)) m) mask
  let hi := vandS32 (vqrdmulhS32 (vmovlHighS16 x) m) mask
  (vcombineS16 (vmovnS32 lo) (vmovnS32 hi)).map Int16.toUInt16

/-- The vector loop of `compress`, under the multiplier of the width. -/
def compressWith (multiplier : Int32) (coefficients : Coefficients) (d : Nat) : Vector UInt16 N :=
  (List.range 32).foldl (fun out i =>
    Lanes.store out (8 * i) (compressLanes multiplier d (canonicalLanes (vld1qS16 coefficients (8 * i)))))
      (Vector.replicate N 0)

/-- `Compress_d` of every coefficient, eight at a time; a width without a multiplier takes the portable kernel. -/
def compress (coefficients : Coefficients) (d : Nat) : Vector UInt16 N :=
  match d with
  | 1 => compressWith (compressMultiplier 1) coefficients d
  | 4 => compressWith (compressMultiplier 4) coefficients d
  | 5 => compressWith (compressMultiplier 5) coefficients d
  | 10 => compressWith (compressMultiplier 10) coefficients d
  | 11 => compressWith (compressMultiplier 11) coefficients d
  | _ => Generic.compress coefficients d

/-- Eight lanes of `decompress`: `(q * y + 2^(d-1)) >> d` in double words, narrowed. -/
def decompressLanes (d : Nat) (y : Register) : Register :=
  let half := vdupNS32 (Int32.ofNat (1 <<< (d - 1)))
  let shift := vdupNS32 (-Int32.ofNat d)
  let lo := vshlS32 (vmlaNS32 half (vmovlS16 (vgetLowS16 y)) q.toInt32) shift
  let hi := vshlS32 (vmlaNS32 half (vmovlHighS16 y) q.toInt32) shift
  vcombineS16 (vmovnS32 lo) (vmovnS32 hi)

/-- `Decompress_d` of every value, eight at a time. -/
def decompress (values : Vector UInt16 N) (d : Nat) : Coefficients :=
  (List.range 32).foldl (fun out i =>
    vst1qS16 out (8 * i) (decompressLanes d ((Lanes.load 8 values (8 * i)).map UInt16.toInt16)))
      (Vector.replicate N FieldElement.zero)

/-- The canonical representatives of a storage, in natural order, eight pairs at a time. -/
def canonical (coefficients : Coefficients) : Vector UInt16 N :=
  (List.range 16).foldl (fun out i =>
    let even := canonicalLanes (vld1qS16 coefficients (8 * i))
    let odd := canonicalLanes (vld1qS16 coefficients (128 + 8 * i))
    vst2 out (16 * i) (even.map Int16.toUInt16, odd.map Int16.toUInt16)) (Vector.replicate N 0)

/-! ## Base multiplication -/

/-- Pointwise base multiplication, eight pairs at a time. -/
def multiply (f g : Coefficients) : Coefficients :=
  (List.range 16).foldl (fun h i =>
    let a0 := vld1qS16 f (8 * i)
    let a1 := vld1qS16 f (128 + 8 * i)
    let b0 := vld1qS16 g (8 * i)
    let b1 := vld1qS16 g (128 + 8 * i)
    let gamma := vld1qS16 gammaMont (8 * i)
    let c0 := vaddS16 (fqmul a0 b0) (fqmul (fqmul a1 b1) gamma)
    let c1 := vaddS16 (fqmul a0 b1) (fqmul a1 b0)
    let h := vst1qS16 h (8 * i) c0
    vst1qS16 h (128 + 8 * i) c1) (Vector.replicate N FieldElement.zero)

/-- Accumulates one component of a dot product, eight pairs at a time. -/
def basemulAccumulate (acc : ProductAccumulator) (f g : Coefficients) (cache : Vector FieldElement 128) :
    ProductAccumulator :=
  (List.range 16).foldl (fun acc i =>
    let f0 := vld1qS16 f (8 * i)
    let f1 := vld1qS16 f (128 + 8 * i)
    let g0 := vld1qS16 g (8 * i)
    let g1 := vld1qS16 g (128 + 8 * i)
    let c := vld1qS16 cache (8 * i)
    let evenLo := Lanes.load 4 acc.even (8 * i)
    let evenHi := Lanes.load 4 acc.even (8 * i + 4)
    let evenLo := vmlalS16 evenLo (vgetLowS16 f0) (vgetLowS16 g0)
    let evenHi := vmlalHighS16 evenHi f0 g0
    let evenLo := vmlalS16 evenLo (vgetLowS16 f1) (vgetLowS16 c)
    let evenHi := vmlalHighS16 evenHi f1 c
    let even := Lanes.store acc.even (8 * i) evenLo
    let even := Lanes.store even (8 * i + 4) evenHi
    let oddLo := Lanes.load 4 acc.odd (8 * i)
    let oddHi := Lanes.load 4 acc.odd (8 * i + 4)
    let oddLo := vmlalS16 oddLo (vgetLowS16 f0) (vgetLowS16 g1)
    let oddHi := vmlalHighS16 oddHi f0 g1
    let oddLo := vmlalS16 oddLo (vgetLowS16 f1) (vgetLowS16 g0)
    let oddHi := vmlalHighS16 oddHi f1 g0
    let odd := Lanes.store acc.odd (8 * i) oddLo
    let odd := Lanes.store odd (8 * i + 4) oddHi
    ⟨even, odd⟩) acc

/-- Montgomery-reduces the accumulated sums into the storage halves, eight pairs at a time. -/
def basemulReduce (acc : ProductAccumulator) : Coefficients :=
  let q := vdupNS16 q
  let qInv := vdupNS16 qInv
  (List.range 16).foldl (fun h i =>
    let c0 := vcombineS16 (montgomeryReduce (Lanes.load 4 acc.even (8 * i)) q qInv)
      (montgomeryReduce (Lanes.load 4 acc.even (8 * i + 4)) q qInv)
    let c1 := vcombineS16 (montgomeryReduce (Lanes.load 4 acc.odd (8 * i)) q qInv)
      (montgomeryReduce (Lanes.load 4 acc.odd (8 * i + 4)) q qInv)
    let h := vst1qS16 h (8 * i) c0
    vst1qS16 h (128 + 8 * i) c1) (Vector.replicate N FieldElement.zero)

end MlkemSelkie.Poly.Neon
