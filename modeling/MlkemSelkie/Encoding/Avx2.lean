import MlkemSelkie.Encoding.Generic
import MlkemSelkie.Lib.X86

/-!
# The AVX2 bit packing

`encoding/arch/avx2.rs`: eight values of `d` bits take `d` bytes, so a window of 16 bytes holds them, and both
directions gather with a byte shuffle and shift every lane by its own amount.
-/

namespace MlkemSelkie.Encoding.Avx2

open Lanes X86

/-! ## Packing -/

/-- The shuffles and shifts of eight output bytes: the value a byte starts in, and the value behind it. -/
structure PackControls where
  idxValue : Vector UInt8 32
  shiftValue : Vector UInt32 8
  idxNext : Vector UInt8 32
  shiftNext : Vector UInt32 8

/-- The `value_index` of `pack_controls`. -/
def valueIndex (D j0 k : Nat) : Nat := 8 * (j0 + k) / D

/-- The `bit_offset` of `pack_controls`. -/
def bitOffset (D j0 k : Nat) : Nat := 8 * (j0 + k) - D * valueIndex D j0 k

/-- `pack_controls`: the controls of the output bytes `j0..j0 + 8`; `0xFF` reads as zero. -/
def packControls (D j0 : Nat) : PackControls where
  idxValue := Vector.ofFn fun p =>
    let k := p.val / 4
    let b := p.val % 4
    if b < 2 then UInt8.ofNat (2 * valueIndex D j0 k + b) else 0xFF
  shiftValue := Vector.ofFn fun k => UInt32.ofNat (bitOffset D j0 k)
  idxNext := Vector.ofFn fun p =>
    let k := p.val / 4
    let b := p.val % 4
    let next := valueIndex D j0 k + 1
    if b < 2 ∧ next < 8 then UInt8.ofNat (2 * next + b) else 0xFF
  shiftNext := Vector.ofFn fun k => UInt32.ofNat D - UInt32.ofNat (bitOffset D j0 k)

/-- Eight output bytes of a window of eight values. -/
def packGroup (controls : PackControls) (wide : Vector UInt8 32) : Vector UInt8 8 :=
  let mask := set1Epi32 (0xFF : UInt32)
  let value := srlvEpi32 (asUInt32s 8 (shuffleEpi8 wide controls.idxValue)) controls.shiftValue
  let next := sllvEpi32 (asUInt32s 8 (shuffleEpi8 wide controls.idxNext)) controls.shiftNext
  let bytes := andSi256 (orSi256 value next) mask
  let packed := packusEpi32 8 (extracti128 4 0 bytes) (extracti128 4 1 bytes)
  Lanes.load 8 (packusEpi16 packed packed) 0

/-- `pack_gathered`: the two groups of every window, each stored below `limit`. -/
def packGathered (limit D : Nat) (values : Vector UInt16 N) : Option (Vector UInt8 384) :=
  let low := packControls D 0
  let high := packControls D (D - 8)
  (List.range 32).foldlM (fun out i => do
    let wide := broadcastsi128 (asBytes 16 (Lanes.load 8 values (8 * i))) 32
    let out ← storeWithin limit out (D * i) (packGroup low wide)
    storeWithin limit out (D * i + (D - 8)) (packGroup high wide)) (Vector.replicate 384 0)

/-- The dispatch of `pack`, the stores of a vector kernel allowed below `limit`. -/
def packWithin (limit : Nat) (values : Vector UInt16 N) (d : Nat) : Option (Vector UInt8 384) :=
  match d with
  | 10 => packGathered limit 10 values
  | 11 => packGathered limit 11 values
  | 12 => packGathered limit 12 values
  | _ => some (Generic.pack values d)

/-- `pack`: the stores may reach the end of the output. -/
def pack (values : Vector UInt16 N) (d : Nat) : Option (Vector UInt8 384) := packWithin 384 values d

/-! ## Unpacking -/

/-- `gather_controls`: the bytes of every value relative to its window, and the bit it starts at. -/
def gatherControls (D : Nat) : Vector UInt8 32 × Vector UInt32 8 :=
  (Vector.ofFn fun k => UInt8.ofNat (D * (k.val / 4) / 8 + k.val % 4), Vector.ofFn fun i => UInt32.ofNat (D * i.val % 8))

/-- `window`: the 16 bytes at `start`, zero-padded past the end of the slice. -/
def window (bytes : List UInt8) (start : Nat) : Option (Vector UInt8 16) := paddedWindow 16 0 bytes start

/-- Eight values of a window. -/
def unpackGroup (D : Nat) (bytes : Vector UInt8 16) : Vector UInt16 8 :=
  let (idx, shifts) := gatherControls D
  let mask := set1Epi32 (UInt32.ofNat (1 <<< D - 1))
  let gathered := asUInt32s 8 (shuffleEpi8 (broadcastsi128 bytes 32) idx)
  let values := andSi256 (srlvEpi32 gathered shifts) mask
  packusEpi32 8 (extracti128 4 0 values) (extracti128 4 1 values)

/-- `unpack_gathered`: gather, shift and mask, eight values at a time. -/
def unpackGathered (D : Nat) (bytes : List UInt8) : Option (Vector UInt16 N) :=
  (List.range 32).foldlM (fun out i => do
    let bytes ← window bytes (D * i)
    return Lanes.store out (8 * i) (unpackGroup D bytes)) (Vector.replicate N 0)

/-- `unpack`: a width without a kernel takes the portable one. -/
def unpack (bytes : List UInt8) (d : Nat) : Option (Vector UInt16 N) :=
  match d with
  | 4 => unpackGathered 4 bytes
  | 5 => unpackGathered 5 bytes
  | 10 => unpackGathered 10 bytes
  | 11 => unpackGathered 11 bytes
  | 12 => unpackGathered 12 bytes
  | _ => some (Generic.unpack bytes d)

end MlkemSelkie.Encoding.Avx2
