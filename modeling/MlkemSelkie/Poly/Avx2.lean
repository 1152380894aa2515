import MlkemSelkie.Lib.X86
import MlkemSelkie.Poly.Generic

/-!
# The AVX2 kernels

`algebraic/poly/arch/avx2.rs`: the polynomial kernels, sixteen coefficients to a register. The stages of the transforms
with a stride of at least a register run on registers, the narrow ones run scalar. An array is read as its
representatives, as the pointer casts do.
-/

namespace MlkemSelkie.Poly.Avx2

open Loops Lanes X86

/-- `__m256i`, as sixteen words. -/
abbrev Register : Type := Vector Int16 16

/-- `Q`. -/
def q : Int16 := 3329

/-- `QINV`. -/
def qInv : Int16 := -3327

/-- `BARRETT_V`: the multiplier of the reduction by q. -/
def barrettV : Int16 := 20159

/-- `NTT_INVERSE_SCALE`: `128^-1 * R^2 mod q`. -/
def nttInverseScale : Int16 := 1441

/-- `_mm256_loadu_si256` from the coefficient `j` on. -/
def loaduSi256 (coefficients : Coefficients) (j : Nat) : Register :=
  (Lanes.load 16 coefficients j).map FieldElement.rep

/-- `_mm256_storeu_si256` from the coefficient `j` on. -/
def storeuSi256 (coefficients : Coefficients) (j : Nat) (x : Register) : Coefficients :=
  Lanes.store coefficients j (x.map FieldElement.mk)

/-- Montgomery multiplication of the lanes: the high half of the product less the high half of the multiple of q. -/
def fqmul (a b : Register) : Register :=
  let lo := mulloEpi16 a b
  let hi := mulhiEpi16 a b
  let m := mulloEpi16 lo (set1Epi16 qInv)
  let t := mulhiEpi16 m (set1Epi16 q)
  subEpi16 hi t

/-- Multiplication of the lanes by a canonical constant with its multiplier. -/
def barrettConstMul (a b bBar : Register) : Register :=
  let cLow := mulloEpi16 a b
  let t := mulhrsEpi16 a bBar
  let tq := mulloEpi16 t (set1Epi16 q)
  subEpi16 cLow tq

/-- One butterfly over the lanes, the zeta given with its multiplier. -/
def butterfly (a b : Register) (zeta : Register × Register) : Register × Register :=
  let t := barrettConstMul b zeta.1 zeta.2
  (addEpi16 a t, subEpi16 a t)

/-- Barrett reduction of the lanes. -/
def barrettReduce (a : Register) : Register :=
  let t := mulhiEpi16 a (set1Epi16 barrettV)
  let t := addEpi16 t (set1Epi16 ((1 : Int16) <<< 9))
  let t := sraiEpi16 10 t
  let t := mulloEpi16 t (set1Epi16 q)
  subEpi16 a t

/-- The zeta of index `k` and its multiplier, each in every lane. -/
def zeta (k : Nat) : Register × Register :=
  (set1Epi16 zetaRaw[k]!.toInt16, set1Epi16 zetaBarrett[k]!)

/-- The `load` of `ntt`: the register `v`. -/
def load (coefficients : Coefficients) (v : Nat) : Register := loaduSi256 coefficients (16 * v)

/-- The `store` of `ntt`. -/
def store (coefficients : Coefficients) (v : Nat) (x : Register) : Coefficients := storeuSi256 coefficients (16 * v) x

/-- A pass over two stages: four registers, `s` apart from `v` on, through both levels of butterflies. The first level takes
one zeta, the second one for each half. -/
def trip (v s : Nat) (z za zb : Register × Register) (coefficients : Coefficients) : Coefficients :=
  let v0 := load coefficients v
  let v1 := load coefficients (v + s)
  let v2 := load coefficients (v + 2 * s)
  let v3 := load coefficients (v + 3 * s)
  let (v0, v2) := butterfly v0 v2 z
  let (v1, v3) := butterfly v1 v3 z
  let (v0, v1) := butterfly v0 v1 za
  let (v2, v3) := butterfly v2 v3 zb
  let coefficients := store coefficients v v0
  let coefficients := store coefficients (v + s) v1
  let coefficients := store coefficients (v + 2 * s) v2
  store coefficients (v + 3 * s) v3

/-- The stride-128/64 trip: one register of every quarter, at the same offset. -/
def headTrip (coefficients : Coefficients) (i : Nat) : Coefficients :=
  trip i 4 (zeta 1) (zeta 2) (zeta 3) coefficients

/-- The stride-32/16 trip: the four registers of one quarter. -/
def quarterTrip (coefficients : Coefficients) (quarter : Nat) : Coefficients :=
  trip (4 * quarter) 1 (zeta (4 + quarter)) (zeta (8 + 2 * quarter)) (zeta (9 + 2 * quarter)) coefficients

/-- The forward transform: two trips, the scalar tail, whose loop body is that of the portable kernel, and the final
reduction. -/
def ntt (coefficients : Coefficients) : Coefficients :=
  let coefficients := (List.range 4).foldl headTrip coefficients
  let coefficients := (List.range 4).foldl quarterTrip coefficients
  let coefficients := ([8, 4, 2].foldl Generic.nttStage (16, coefficients)).2
  coefficients.map FieldElement.reduce

/-- The body of the innermost vector loop of `ntt_inverse`: only the len-16 stage reduces. -/
def vectorButterfly (zeta zetaBar : Register) (len : Nat) (coefficients : Coefficients) (j : Nat) : Coefficients :=
  let vj := loaduSi256 coefficients j
  let vjl := loaduSi256 coefficients (j + len)
  let sum := addEpi16 vj vjl
  let coefficients := storeuSi256 coefficients j (if len = 16 then barrettReduce sum else sum)
  storeuSi256 coefficients (j + len) (barrettConstMul (subEpi16 vjl vj) zeta zetaBar)

/-- One vector stage: the windows of every block, from its start on in steps of sixteen. -/
def vectorStage (s : Nat × Coefficients) (len : Nat) : Nat × Coefficients :=
  (stepBy 256 (2 * len)).foldl (fun s start =>
    let zeta := set1Epi16 zetaRaw[s.1]!.toInt16
    let zetaBar := set1Epi16 zetaBarrett[s.1]!
    (s.1 - 1, (List.range' start ((len + 15) / 16) 16).foldl (vectorButterfly zeta zetaBar len) s.2)) s

/-- The inverse transform: the scalar head, the vector stages and the final scale. -/
def nttInverse (coefficients : Coefficients) : Coefficients :=
  let s := [2, 4, 8].foldl headStage (127, coefficients)
  let s := [16, 32, 64, 128].foldl vectorStage s
  (stepBy 256 16).foldl (fun coefficients j =>
    storeuSi256 coefficients j (fqmul (set1Epi16 nttInverseScale) (loaduSi256 coefficients j))) s.2

/-! ## The storage -/

/-- The control of the shuffle in `pack`: in every 128-bit lane the even words, then the odd ones. -/
def deinterleave : Vector UInt8 32 := #v[
  0, 1, 4, 5, 8, 9, 12, 13, 2, 3, 6, 7, 10, 11, 14, 15,
  0, 1, 4, 5, 8, 9, 12, 13, 2, 3, 6, 7, 10, 11, 14, 15]

/-- `shuffle_epi8` of a register of words. -/
def shuffleWords (v : Register) (control : Vector UInt8 32) : Register :=
  (asWords 16 (shuffleEpi8 (asBytes 32 (v.map Int16.toUInt16)) control)).map UInt16.toInt16

/-- Splits natural coefficient order into the evens-then-odds storage, sixteen pairs at a time. -/
def pack (natural : Coefficients) : Coefficients :=
  (List.range 8).foldl (fun halves i =>
    let v0 := loaduSi256 natural (32 * i)
    let v1 := loaduSi256 natural (32 * i + 16)
    let d0 := permute4x64 0xD8 (shuffleWords v0 deinterleave)
    let d1 := permute4x64 0xD8 (shuffleWords v1 deinterleave)
    let halves := storeuSi256 halves (16 * i) (permute2x128 0x20 d0 d1)
    storeuSi256 halves (128 + 16 * i) (permute2x128 0x31 d0 d1)) (Vector.replicate N FieldElement.zero)

/-- Re-interleaves the storage to natural order, sixteen pairs at a time. -/
def unpack (halves : Coefficients) : Coefficients :=
  (List.range 8).foldl (fun natural i =>
    let even := loaduSi256 halves (16 * i)
    let odd := loaduSi256 halves (128 + 16 * i)
    let lo := unpackloEpi16 even odd
    let hi := unpackhiEpi16 even odd
    let natural := storeuSi256 natural (32 * i) (permute2x128 0x20 lo hi)
    storeuSi256 natural (32 * i + 16) (permute2x128 0x31 lo hi)) (Vector.replicate N FieldElement.zero)

/-! ## Compression -/

/-- `_mm256_loadu_si256` of an array of words without a sign. -/
def loaduU16 (values : Vector UInt16 N) (j : Nat) : Vector UInt16 16 := Lanes.load 16 values j

/-- `_mm256_storeu_si256` to an array of words without a sign. -/
def storeuU16 (out : Vector UInt16 N) (j : Nat) (x : Vector UInt16 16) : Vector UInt16 N := Lanes.store out j x

/-- `COMPRESS_DIV`. -/
def compressDiv : UInt32 := 2580335

/-- The division of eight double words by q, the even and the odd ones apart. -/
def divideByQ (a : Vector UInt32 8) : Vector UInt32 8 :=
  let divisor := asQwords 4 (set1Epi32 compressDiv : Vector UInt32 8)
  let a := asQwords 4 a
  let even := srliEpi64 33 (mulEpu32 a divisor)
  let odd := srliEpi64 33 (mulEpu32 (srliEpi64 32 a) divisor)
  ofQwords 8 (orSi256 even (slliEpi64 32 odd))

/-- The canonical representatives of the lanes. -/
def canonicalLanes (x : Register) : Register :=
  let reduced := barrettReduce x
  let negative := sraiEpi16 15 reduced
  addEpi16 reduced (andSi256 negative (set1Epi16 q))

/-- Packs two registers of double words into one of words, in order. -/
def packLanes (lo hi : Vector UInt32 8) : Vector UInt16 16 := permute4x64 0xD8 (packusEpi32 16 lo hi)

/-- The `divide` of `compress`: `(x << d) + q/2`, divided by q and cut to `d` bits. -/
def divide (d : Nat) (x : Vector UInt16 8) : Vector UInt32 8 :=
  let up := UInt64.ofNat d
  let halfQ := set1Epi32 (1664 : UInt32)
  let mask := set1Epi32 (UInt32.ofNat (1 <<< d - 1))
  let a := addEpi32 (sllEpi32 (cvtepu16Epi32 x) up) halfQ
  andSi256 (divideByQ a) mask

/-- `Compress_d` of every coefficient, sixteen at a time. -/
def compress (coefficients : Coefficients) (d : Nat) : Vector UInt16 N :=
  (List.range 16).foldl (fun out i =>
    let x := (canonicalLanes (loaduSi256 coefficients (16 * i))).map Int16.toUInt16
    let lo := divide d (extracti128 8 0 x)
    let hi := divide d (extracti128 8 1 x)
    storeuU16 out (16 * i) (packLanes lo hi)) (Vector.replicate N 0)

/-- The `scale` of `decompress`: `(q * y + 2^(d-1)) >> d`. -/
def scale (d : Nat) (y : Vector UInt16 8) : Vector UInt32 8 :=
  let down := UInt64.ofNat d
  let half := set1Epi32 (UInt32.ofNat (1 <<< (d - 1)))
  let q := set1Epi32 (3329 : UInt32)
  let a := addEpi32 (mulloEpi32 (cvtepu16Epi32 y) q) half
  srlEpi32 a down

/-- `Decompress_d` of every value, sixteen at a time. -/
def decompress (values : Vector UInt16 N) (d : Nat) : Coefficients :=
  (List.range 16).foldl (fun out i =>
    let y := loaduU16 values (16 * i)
    let lo := scale d (extracti128 8 0 y)
    let hi := scale d (extracti128 8 1 y)
    storeuSi256 out (16 * i) ((packLanes lo hi).map UInt16.toInt16)) (Vector.replicate N FieldElement.zero)

/-- The canonical representatives of a storage, in natural order, sixteen pairs at a time. -/
def canonical (coefficients : Coefficients) : Vector UInt16 N :=
  (List.range 8).foldl (fun out i =>
    let even := canonicalLanes (loaduSi256 coefficients (16 * i))
    let odd := canonicalLanes (loaduSi256 coefficients (128 + 16 * i))
    let lo := unpackloEpi16 even odd
    let hi := unpackhiEpi16 even odd
    let out := storeuU16 out (32 * i) ((permute2x128 0x20 lo hi).map Int16.toUInt16)
    storeuU16 out (32 * i + 16) ((permute2x128 0x31 lo hi).map Int16.toUInt16)) (Vector.replicate N 0)

/-! ## Base multiplication -/

/-- `_mm256_loadu_si256` from position `j` of a table of half the length on. -/
def loaduHalf (table : Vector FieldElement 128) (j : Nat) : Register := (Lanes.load 16 table j).map FieldElement.rep

/-- Pointwise base multiplication, sixteen pairs at a time. -/
def multiply (f g : Coefficients) : Coefficients :=
  (List.range 8).foldl (fun h i =>
    let a0 := loaduSi256 f (16 * i)
    let a1 := loaduSi256 f (128 + 16 * i)
    let b0 := loaduSi256 g (16 * i)
    let b1 := loaduSi256 g (128 + 16 * i)
    let gamma := loaduHalf gammaMont (16 * i)
    let c0 := addEpi16 (fqmul a0 b0) (fqmul (fqmul a1 b1) gamma)
    let c1 := addEpi16 (fqmul a0 b1) (fqmul a1 b0)
    let h := storeuSi256 h (16 * i) c0
    storeuSi256 h (128 + 16 * i) c1) (Vector.replicate N FieldElement.zero)

/-- The full products of the words `0..3` and `8..11`: low and high halves interleaved. -/
def wideningMulLo (a b : Register) : Vector Int32 8 := asDwords 8 (unpackloEpi16 (mulloEpi16 a b) (mulhiEpi16 a b))

/-- The full products of the words `4..7` and `12..15`. -/
def wideningMulHi (a b : Register) : Vector Int32 8 := asDwords 8 (unpackhiEpi16 (mulloEpi16 a b) (mulhiEpi16 a b))

/-- Montgomery reduction of double words, each result still in a double word. -/
def montgomeryReduceWide (a : Vector Int32 8) : Vector Int32 8 :=
  let q := set1Epi32 q.toInt32
  let qInv := set1Epi32 qInv.toInt32
  let m := mulloEpi32 a qInv
  let m := sraiEpi32 16 (slliEpi32 16 m)
  sraiEpi32 16 (subEpi32 a (mulloEpi32 m q))

/-- Accumulates one component of a dot product, sixteen pairs at a time; every plane keeps the order in which the
products are unpacked. -/
def basemulAccumulate (acc : ProductAccumulator) (f g : Coefficients) (cache : Vector FieldElement 128) :
    ProductAccumulator :=
  (List.range 8).foldl (fun acc i =>
    let a0 := loaduSi256 f (16 * i)
    let a1 := loaduSi256 f (128 + 16 * i)
    let b0 := loaduSi256 g (16 * i)
    let b1 := loaduSi256 g (128 + 16 * i)
    let c := loaduHalf cache (16 * i)
    let evenGainLo := addEpi32 (wideningMulLo a0 b0) (wideningMulLo a1 c)
    let evenGainHi := addEpi32 (wideningMulHi a0 b0) (wideningMulHi a1 c)
    let even := Lanes.store acc.even (16 * i) (addEpi32 (Lanes.load 8 acc.even (16 * i)) evenGainLo)
    let even := Lanes.store even (16 * i + 8) (addEpi32 (Lanes.load 8 even (16 * i + 8)) evenGainHi)
    let oddGainLo := addEpi32 (wideningMulLo a0 b1) (wideningMulLo a1 b0)
    let oddGainHi := addEpi32 (wideningMulHi a0 b1) (wideningMulHi a1 b0)
    let odd := Lanes.store acc.odd (16 * i) (addEpi32 (Lanes.load 8 acc.odd (16 * i)) oddGainLo)
    let odd := Lanes.store odd (16 * i + 8) (addEpi32 (Lanes.load 8 odd (16 * i + 8)) oddGainHi)
    ⟨even, odd⟩) acc

/-- Montgomery-reduces the accumulated sums into the storage halves; packing restores the order of the pairs. -/
def basemulReduce (acc : ProductAccumulator) : Coefficients :=
  (List.range 8).foldl (fun h i =>
    let evenLo := montgomeryReduceWide (Lanes.load 8 acc.even (16 * i))
    let evenHi := montgomeryReduceWide (Lanes.load 8 acc.even (16 * i + 8))
    let oddLo := montgomeryReduceWide (Lanes.load 8 acc.odd (16 * i))
    let oddHi := montgomeryReduceWide (Lanes.load 8 acc.odd (16 * i + 8))
    let c0 := packsEpi32 16 evenLo evenHi
    let c1 := packsEpi32 16 oddLo oddHi
    let h := storeuSi256 h (16 * i) c0
    storeuSi256 h (128 + 16 * i) c1) (Vector.replicate N FieldElement.zero)

end MlkemSelkie.Poly.Avx2
