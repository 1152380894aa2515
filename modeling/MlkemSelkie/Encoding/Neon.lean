import MlkemSelkie.Encoding.Generic
import MlkemSelkie.Lib.Neon

/-!
# The NEON bit packing

`encoding/arch/neon.rs`: eight values of `d` bits take `d` bytes. A table lookup gathers the bytes of every value, a
shift by the lane's own amount and a mask cut it out; the tables are written out, one for every width.
-/

namespace MlkemSelkie.Encoding.Neon

open Lanes NeonLanes

/-! ## The tables -/

/-- `IDX_5`. -/
def idx5 : Vector UInt8 16 := #v[0, 1, 0, 1, 1, 2, 1, 2, 2, 3, 3, 4, 3, 4, 4, 5]

/-- `SHIFTS_5`. -/
def shifts5 : Vector Int16 8 := #v[0, -5, -2, -7, -4, -1, -6, -3]

/-- `IDX_10`. -/
def idx10 : Vector UInt8 16 := #v[0, 1, 1, 2, 2, 3, 3, 4, 5, 6, 6, 7, 7, 8, 8, 9]

/-- `SHIFTS_10`. -/
def shifts10 : Vector Int16 8 := #v[0, -2, -4, -6, 0, -2, -4, -6]

/-- `IDX_12`. -/
def idx12 : Vector UInt8 16 := #v[0, 1, 1, 2, 3, 4, 4, 5, 6, 7, 7, 8, 9, 10, 10, 11]

/-- `SHIFTS_12`. -/
def shifts12 : Vector Int16 8 := #v[0, -4, 0, -4, 0, -4, 0, -4]

/-- `IDX_11_LOW`: four bytes for each of the values 0 to 3. -/
def idx11Low : Vector UInt8 16 := #v[0, 1, 2, 3, 1, 2, 3, 4, 2, 3, 4, 5, 4, 5, 6, 7]

/-- `SHIFTS_11_LOW`. -/
def shifts11Low : Vector Int32 4 := #v[0, -3, -6, -1]

/-- `IDX_11_HIGH`: four bytes for each of the values 4 to 7. -/
def idx11High : Vector UInt8 16 := #v[5, 6, 7, 8, 6, 7, 8, 9, 8, 9, 10, 11, 9, 10, 11, 12]

/-- `SHIFTS_11_HIGH`. -/
def shifts11High : Vector Int32 4 := #v[-4, -7, -2, -5]

/-! ## Packing -/

/-- The lookups and shifts of eight output bytes: the value a byte starts in, and the value behind it. -/
structure PackControls where
  idxValue : Vector UInt8 16
  shiftValue : Vector Int16 8
  idxNext : Vector UInt8 16
  shiftNext : Vector Int16 8

/-- The `value_index` of `pack_controls`. -/
def valueIndex (D j0 k : Nat) : Nat := 8 * (j0 + k) / D

/-- The `bit_offset` of `pack_controls`. -/
def bitOffset (D j0 k : Nat) : Int16 := Int16.ofNat (8 * (j0 + k) - D * valueIndex D j0 k)

/-- `pack_controls`: the controls of the output bytes `j0..j0 + 8`; `0xFF` reads as zero. -/
def packControls (D j0 : Nat) : PackControls where
  idxValue := Vector.ofFn fun b => UInt8.ofNat (2 * valueIndex D j0 (b.val / 2) + b.val % 2)
  shiftValue := Vector.ofFn fun k => -bitOffset D j0 k
  idxNext := Vector.ofFn fun b =>
    let next := valueIndex D j0 (b.val / 2) + 1
    if next < 8 then UInt8.ofNat (2 * next + b.val % 2) else 0xFF
  shiftNext := Vector.ofFn fun k => Int16.ofNat D - bitOffset D j0 k

/-- Eight output bytes of a window of eight values. -/
def packGroup (controls : PackControls) (data : Vector UInt8 16) : Vector UInt8 8 :=
  let value := asWords 8 (vqtbl1qU8 data controls.idxValue)
  let next := asWords 8 (vqtbl1qU8 data controls.idxNext)
  vmovnU16 (vorrU16 (vshlU16 value controls.shiftValue) (vshlU16 next controls.shiftNext))

/-- `pack_gathered`: the two groups of every window, each stored below `limit`. -/
def packGathered (limit D : Nat) (values : Vector UInt16 N) : Option (Vector UInt8 384) :=
  let low := packControls D 0
  let high := packControls D (D - 8)
  (List.range 32).foldlM (fun out i => do
    let data := asBytes 16 (Lanes.load 8 values (8 * i))
    let out ← storeWithin limit out (D * i) (packGroup low data)
    storeWithin limit out (D * i + (D - 8)) (packGroup high data)) (Vector.replicate 384 0)

/-- The dispatch of `pack`, the stores of a vector kernel allowed below `limit`. -/
def packWithin (limit : Nat) (values : Vector UInt16 N) (d : Nat) : Option (Vector UInt8 384) :=
  match d with
  | 10 => packGathered limit 10 values
  | 11 => packGathered limit 11 values
  | 12 => packGathered limit 12 values
  | _ => some (Generic.pack values d)

/-- `pack`: the stores may reach the end of the output. -/
def pack (values : Vector UInt16 N) (d : Nat) : Option (Vector UInt8 384) := packWithin 384 values d

/-! ## Unpacking -/

/-- `window`: the 16 bytes at `start`, zero-padded past the end of the slice. -/
def window (bytes : List UInt8) (start : Nat) : Option (Vector UInt8 16) := paddedWindow 16 0 bytes start

/-- Eight values of a window, each from two bytes. -/
def unpackGroup (D : Nat) (idx : Vector UInt8 16) (shifts : Vector Int16 8) (bytes : Vector UInt8 16) : Vector UInt16 8 :=
  let mask := vdupNU (UInt16.ofNat (1 <<< D - 1))
  let gathered := asWords 8 (vqtbl1qU8 bytes idx)
  vandU (vshlU16 gathered shifts) mask

/-- `unpack_gathered`: the widths whose values span at most two bytes. -/
def unpackGathered (D : Nat) (bytes : List UInt8) (idx : Vector UInt8 16) (shifts : Vector Int16 8) :
    Option (Vector UInt16 N) :=
  (List.range 32).foldlM (fun out i => do
    let bytes ← window bytes (D * i)
    return Lanes.store out (8 * i) (unpackGroup D idx shifts bytes)) (Vector.replicate N 0)

/-- Eight values of a window, each from four bytes. -/
def unpackGroup11 (data : Vector UInt8 16) : Vector UInt16 8 :=
  let mask := vdupNU (UInt32.ofNat (1 <<< 11 - 1))
  let low := asUInt32s 4 (vqtbl1qU8 data idx11Low)
  let low := vandU (vshlU32 low shifts11Low) mask
  let high := asUInt32s 4 (vqtbl1qU8 data idx11High)
  let high := vandU (vshlU32 high shifts11High) mask
  vcombineU16 (vmovnU32 low) (vmovnU32 high)

/-- `unpack_11`: values that can span three bytes. -/
def unpack11 (bytes : List UInt8) : Option (Vector UInt16 N) :=
  (List.range 32).foldlM (fun out i => do
    let data ← window bytes (11 * i)
    return Lanes.store out (8 * i) (unpackGroup11 data)) (Vector.replicate N 0)

/-- The thirty-two values of sixteen bytes: every byte splits into its two halves, zipped back into the order of the
values. -/
def unpack4Chunk (out : Vector UInt16 N) (i : Nat) (data : Vector UInt8 16) : Vector UInt16 N :=
  let mask := vdupNU 0xF
  let low := vandU data mask
  let high := vshrNU8 4 data
  let first := vzip1U8 low high
  let second := vzip2U8 low high
  let out := Lanes.store out (32 * i) (vmovlU8 (vgetLowU8 first))
  let out := Lanes.store out (32 * i + 8) (vmovlHighU8 first)
  let out := Lanes.store out (32 * i + 16) (vmovlU8 (vgetLowU8 second))
  Lanes.store out (32 * i + 24) (vmovlHighU8 second)

/-- `unpack_4`: the whole chunks of the slice, sixteen bytes each. -/
def unpack4 (bytes : List UInt8) : Option (Vector UInt16 N) :=
  (List.range (min (bytes.length / 16) 8)).foldlM (fun out i => do
    let data ← loadSlice 16 ((bytes.drop (16 * i)).take 16)
    return unpack4Chunk out i data) (Vector.replicate N 0)

/-- `unpack`: a slice of another length and a width without a kernel take the portable one. -/
def unpack (bytes : List UInt8) (d : Nat) : Option (Vector UInt16 N) :=
  if bytes.length ≠ N * d / 8 then some (Generic.unpack bytes d)
  else
    match d with
    | 4 => unpack4 bytes
    | 5 => unpackGathered 5 bytes idx5 shifts5
    | 10 => unpackGathered 10 bytes idx10 shifts10
    | 11 => unpack11 bytes
    | 12 => unpackGathered 12 bytes idx12 shifts12
    | _ => some (Generic.unpack bytes d)

end MlkemSelkie.Encoding.Neon
