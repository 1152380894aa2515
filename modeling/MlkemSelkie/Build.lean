import MlkemSelkie.Lib.Loops

/-!
# The selection of a backend

`build.rs`: the script reads the target and the overrides from its environment, prints directives for the compiler, and
panics on settings it does not know. What it prints decides which `arch` modules are compiled.
-/

namespace MlkemSelkie.Build

/-- A string, as its characters. -/
abbrev Text : Type := List Char

/-- The environment variables that the script reads; `none` where `env::var` returns an error. -/
structure Env where
  /-- `CARGO_CFG_TARGET_ARCH`. -/
  targetArch : Option Text
  /-- `CARGO_CFG_TARGET_ENDIAN`. -/
  targetEndian : Option Text
  /-- `CARGO_CFG_TARGET_FEATURE`. -/
  targetFeature : Option Text
  /-- `CARGO_CFG_TARGET_VENDOR`. -/
  targetVendor : Option Text
  /-- `CARGO_ENCODED_RUSTFLAGS`. -/
  encodedRustflags : Option Text
  /-- `MLKEM_SELKIE_BACKEND`. -/
  backend : Option Text
  /-- `MLKEM_SELKIE_NEON_TUNE`. -/
  neonTune : Option Text

/-- The script: the lines it has printed, or the message it panics with. -/
abbrev Script : Type → Type := StateT (List Text) (Except Text)

/-- `println!`. -/
def println (line : Text) : Script Unit := modify (· ++ [line])

/-- `to_digit` of a decimal digit. -/
def digit (c : Char) : Option Nat := if '0' ≤ c ∧ c ≤ '9' then some (c.toNat - '0'.toNat) else none

/-- `parse::<u32>`: an optional plus, then decimal digits of a number below `2^32`. -/
def parseU32 (s : Text) : Option Nat :=
  let digits := (s.dropPrefix? ['+']).getD s
  if digits = [] then none
  else digits.foldlM (fun acc c => do
    let value := 10 * acc + (← digit c)
    if value < 2 ^ 32 then some value else none) 0

/-- Whether a core is named `apple-m<N>`. -/
def isAppleM (cpu : Text) : Bool := (cpu.dropPrefix? "apple-m".toList).any fun n => (parseU32 n).isSome

/-- The value of one flag that may name the target core: the fused spelling, or the flag behind a lone `-C`. -/
def flagValue (flag : Text) (rest : List Text) : Option Text :=
  if flag = "-C".toList then rest.head? else flag.dropPrefix? "-C".toList

/-- The loop of `rustflags_target_cpu`. -/
def scanFlags : List Text → Option Text → Option Text
  | [], cpu => cpu
  | flag :: flags, cpu =>
    match (flagValue flag flags).bind fun v => v.dropPrefix? "target-cpu=".toList with
    | some rest => scanFlags flags (some rest)
    | none => scanFlags flags cpu

/-- `rustflags_target_cpu`: the last `-C target-cpu=` value of the flags, which are separated by 0x1F. -/
def rustflagsTargetCpu (env : Env) : Option Text := do
  let encoded ← env.encodedRustflags
  scanFlags (encoded.splitOn (Char.ofNat 0x1F)) none

/-- `neon_tune`. -/
def neonTune (env : Env) (targetVendor : Text) : Script (Option Text) :=
  match env.neonTune with
  | some tune =>
    if tune = "generic".toList then pure none
    else if tune = "apple".toList then pure (some "apple".toList)
    else if isAppleM tune then pure (some tune)
    else throw ("MLKEM_SELKIE_NEON_TUNE must be `generic`, `apple`, or `apple-m<N>`, got `".toList ++ tune ++ "`".toList)
  | none =>
    match (rustflagsTargetCpu env).filter isAppleM with
    | some cpu => pure (some cpu)
    | none => pure (if targetVendor = "apple".toList then some "apple".toList else none)

/-- `select_backend`: prints the `cfg`s of the target; whether a vector backend was selected. -/
def selectBackend (env : Env) : Script Bool := do
  let targetArch := env.targetArch.getD []
  let targetVendor := env.targetVendor.getD []
  let targetFeatures := env.targetFeature.getD []
  let hasFeature (name : Text) : Bool := (targetFeatures.splitOn ',').any (· == name)
  let littleEndian : Bool := env.targetEndian == some "little".toList
  if targetArch = "aarch64".toList ∧ hasFeature "neon".toList ∧ littleEndian then
    println "cargo::rustc-cfg=mlkem_selkie_arch=\"neon\"".toList
    if let some tune ← neonTune env targetVendor then
      println "cargo::rustc-cfg=mlkem_selkie_neon_asm".toList
      println ("cargo::rustc-cfg=mlkem_selkie_neon_tune=\"".toList ++ tune ++ "\"".toList)
    return true
  else if targetArch = "x86_64".toList ∧ hasFeature "avx2".toList then
    println "cargo::rustc-cfg=mlkem_selkie_arch=\"avx2\"".toList
    return true
  else return false

/-- The lines that `main` prints first. -/
def preamble : List Text := [
  "cargo::rustc-check-cfg=cfg(mlkem_selkie_arch, values(\"neon\", \"avx2\"))".toList,
  "cargo::rustc-check-cfg=cfg(mlkem_selkie_neon_asm)".toList,
  "cargo::rustc-check-cfg=cfg(mlkem_selkie_neon_tune, values(any()))".toList,
  "cargo::rerun-if-env-changed=CARGO_CFG_TARGET_ARCH".toList,
  "cargo::rerun-if-env-changed=CARGO_CFG_TARGET_ENDIAN".toList,
  "cargo::rerun-if-env-changed=CARGO_CFG_TARGET_FEATURE".toList,
  "cargo::rerun-if-env-changed=CARGO_CFG_TARGET_VENDOR".toList,
  "cargo::rerun-if-env-changed=CARGO_ENCODED_RUSTFLAGS".toList,
  "cargo::rerun-if-env-changed=MLKEM_SELKIE_BACKEND".toList,
  "cargo::rerun-if-env-changed=MLKEM_SELKIE_NEON_TUNE".toList]

/-- `main`. -/
def main (env : Env) : Script Unit := do
  preamble.forM println
  let backend := env.backend.getD []
  if backend = [] then
    let _ ← selectBackend env
  else if backend = "scalar".toList then
    pure ()
  else if backend = "simd".toList then
    if !(← selectBackend env) then
      throw ("MLKEM_SELKIE_BACKEND=simd, but this target selects the scalar backend ".toList ++
        "(a SIMD backend needs little-endian aarch64, or x86_64 `avx2`)".toList)
  else
    throw ("MLKEM_SELKIE_BACKEND must be `scalar` or `simd`, got `".toList ++ backend ++ "`".toList)

/-- The lines of a run from its start. -/
def output (env : Env) : Except Text (List Text) := ((main env).run []).map (·.2)

/-! ## What the compiler makes of the output -/

/-- Whether the output switches a `cfg` on. -/
def cfg (lines : List Text) (condition : Text) : Bool := lines.contains ("cargo::rustc-cfg=".toList ++ condition)

/-- The kernels that the `arch` modules can import. -/
inductive Arch where
  | generic
  | avx2
  | neon
  | neonAsm
  deriving DecidableEq

/-- The `cfg` attributes of the `arch` modules. With both architectures on, the kernels are imported twice and nothing
compiles; the assembly stages are part of the NEON module. -/
def imported (lines : List Text) : Option Arch :=
  match cfg lines "mlkem_selkie_arch=\"avx2\"".toList, cfg lines "mlkem_selkie_arch=\"neon\"".toList with
  | true, true => none
  | true, false => some .avx2
  | false, true => some (if cfg lines "mlkem_selkie_neon_asm".toList then .neonAsm else .neon)
  | false, false => some .generic

end MlkemSelkie.Build
