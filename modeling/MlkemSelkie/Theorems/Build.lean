import MlkemSelkie.Build

/-!
# What the build script selects

The script's answer in terms of its environment: when it panics, which kernels are compiled otherwise, and that a tune
is only ever the name of an Apple core.
-/

namespace MlkemSelkie.Build

/-! ## Numbers -/

/-- The number that decimal digits are read as, behind `acc`. -/
def decimal (acc : Nat) (digits : Text) : Nat := digits.foldl (fun acc c => 10 * acc + (c.toNat - '0'.toNat)) acc

/-- A decimal digit. -/
def IsDigit (c : Char) : Prop := '0' ≤ c ∧ c ≤ '9'

instance instDecidableIsDigit : DecidablePred IsDigit := fun _ => inferInstanceAs (Decidable (_ ∧ _))

/-- The digits are the ten decimal ones. -/
theorem digit_eq_some {c : Char} {d : Nat} : digit c = some d ↔ IsDigit c ∧ c.toNat - '0'.toNat = d := by
  rw [digit, Option.ite_none_right_eq_some, Option.some_inj]
  rfl

/-- Reading on only adds to a decimal number. -/
theorem le_decimal (digits : Text) (acc : Nat) : acc ≤ decimal acc digits := by
  induction digits generalizing acc with
  | nil => exact Nat.le_refl acc
  | cons c digits ih =>
    have h := ih (10 * acc + (c.toNat - '0'.toNat))
    rw [decimal, List.foldl_cons, ← decimal]
    omega

/-- The checked accumulation yields the number exactly when every character is a digit and the number fits. -/
theorem accumulate_eq_some (digits : Text) {acc v : Nat} (hacc : acc < 2 ^ 32) :
    digits.foldlM (fun acc c => do
      let value := 10 * acc + (← digit c)
      if value < 2 ^ 32 then some value else none) acc = some v ↔
    (∀ c ∈ digits, IsDigit c) ∧ decimal acc digits = v ∧ v < 2 ^ 32 := by
  induction digits generalizing acc with
  | nil =>
    rw [List.foldlM_nil]
    refine ⟨fun h => ?_, fun h => congrArg some h.2.1⟩
    obtain rfl := Option.some.inj h
    exact ⟨fun _ h => absurd h List.not_mem_nil, rfl, hacc⟩
  | cons c digits ih =>
    rw [List.foldlM_cons, List.forall_mem_cons, decimal, List.foldl_cons, ← decimal]
    have hle := le_decimal digits (10 * acc + (c.toNat - '0'.toNat))
    by_cases hc : IsDigit c
    · by_cases hfits : 10 * acc + (c.toNat - '0'.toNat) < 2 ^ 32
      · have hstep := ih hfits
        simp only [digit_eq_some.mpr ⟨hc, rfl⟩, Option.bind_eq_bind, Option.bind_some, if_pos hfits]
        simp only [Option.bind_eq_bind] at hstep
        rw [hstep]
        simp only [hc, true_and]
      · simp only [digit_eq_some.mpr ⟨hc, rfl⟩, Option.bind_eq_bind, Option.bind_some, if_neg hfits, Option.bind_none]
        refine iff_of_false (fun h => absurd h (Option.some_ne_none v).symm) fun h => ?_
        omega
    · have hnone : digit c = none := if_neg hc
      simp only [hnone, Option.bind_eq_bind, Option.bind_none]
      exact iff_of_false (fun h => absurd h (Option.some_ne_none v).symm) fun h => hc h.1.1

/-- Stripping a prefix leaves what comes after it. -/
theorem strip_eq_some {l p s : Text} : l.dropPrefix? p = some s ↔ l = p ++ s := by
  rw [List.dropPrefix?_eq_some_iff]
  constructor
  · rintro ⟨p', rfl, hp⟩
    rw [eq_of_beq hp]
  · rintro rfl
    exact ⟨p, rfl, BEq.refl p⟩

/-- The numerals that `parse::<u32>` accepts. -/
def Numeral (s : Text) : Prop := ∃ plus digits : Text, s = plus ++ digits ∧ (plus = [] ∨ plus = ['+']) ∧ digits ≠ [] ∧
  (∀ c ∈ digits, IsDigit c) ∧ decimal 0 digits < 2 ^ 32

/-- What parses as a `u32` is a decimal numeral of that size, with a sign or without. -/
theorem parseU32_isSome (s : Text) : (parseU32 s).isSome = true ↔ Numeral s := by
  have hdigits : ∀ digits : Text, (if digits = [] then none else digits.foldlM (fun acc c => do
      let value := 10 * acc + (← digit c)
      if value < 2 ^ 32 then some value else none) 0).isSome = true ↔
      digits ≠ [] ∧ (∀ c ∈ digits, IsDigit c) ∧ decimal 0 digits < 2 ^ 32 := by
    intro digits
    by_cases hempty : digits = []
    · rw [if_pos hempty]
      exact iff_of_false Bool.false_ne_true fun h => h.1 hempty
    · rw [if_neg hempty, Option.isSome_iff_exists]
      have hspec := fun v => @accumulate_eq_some digits 0 v (by decide)
      constructor
      · rintro ⟨v, hv⟩
        obtain ⟨h1, h2, h3⟩ := (hspec v).mp hv
        exact ⟨hempty, h1, h2 ▸ h3⟩
      · rintro ⟨_, h1, h2⟩
        exact ⟨_, (hspec _).mpr ⟨h1, rfl, h2⟩⟩
  have hplus : ¬IsDigit '+' := by decide
  rw [parseU32]
  cases hstrip : s.dropPrefix? ['+'] with
  | some rest =>
    obtain rfl := strip_eq_some.mp hstrip
    rw [Option.getD_some, hdigits]
    constructor
    · rintro ⟨h1, h2, h3⟩
      exact ⟨['+'], rest, rfl, Or.inr rfl, h1, h2, h3⟩
    · rintro ⟨plus, digits, hs, rfl | rfl, h1, h2, h3⟩
      · rw [List.nil_append] at hs
        exact absurd (h2 '+' (hs ▸ List.mem_cons_self)) hplus
      · obtain rfl := List.append_cancel_left hs
        exact ⟨h1, h2, h3⟩
  | none =>
    rw [Option.getD_none, hdigits]
    constructor
    · rintro ⟨h1, h2, h3⟩
      exact ⟨[], s, rfl, Or.inl rfl, h1, h2, h3⟩
    · rintro ⟨plus, digits, rfl, rfl | rfl, h1, h2, h3⟩
      · exact ⟨h1, h2, h3⟩
      · rw [strip_eq_some.mpr rfl] at hstrip
        exact absurd hstrip (Option.some_ne_none _)

/-- The name of an Apple core, `apple-m<N>`. -/
def AppleCore (cpu : Text) : Prop := ∃ n, cpu = "apple-m".toList ++ n ∧ Numeral n

/-- The names of the Apple cores that the script accepts. -/
theorem isAppleM_iff (cpu : Text) : isAppleM cpu = true ↔ AppleCore cpu := by
  rw [isAppleM, Option.any_eq_true]
  simp only [strip_eq_some, parseU32_isSome]
  rfl

/-! ## The target core -/

/-- Position `i` of the flags names the target core, in one of the two spellings. -/
def Names (flags : List Text) (i : Nat) (cpu : Text) : Prop :=
  flags[i]? = some ("-Ctarget-cpu=".toList ++ cpu) ∨
    (flags[i]? = some "-C".toList ∧ flags[i + 1]? = some ("target-cpu=".toList ++ cpu))

/-- A codegen flag names a processor where one of the spellings does. -/
theorem flagValue_names (flag : Text) (flags : List Text) (cpu : Text) :
    ((flagValue flag flags).bind fun v => v.dropPrefix? "target-cpu=".toList) = some cpu ↔ Names (flag :: flags) 0 cpu := by
  have hfused : "-Ctarget-cpu=".toList = "-C".toList ++ "target-cpu=".toList := by decide
  simp only [Names, List.getElem?_cons_zero, List.getElem?_cons_succ, Option.some_inj, Option.bind_eq_some_iff,
    strip_eq_some]
  rw [flagValue]
  by_cases hsplit : flag = "-C".toList
  · have hne : flag ≠ "-Ctarget-cpu=".toList ++ cpu := fun h => by
      rw [hsplit, hfused, List.append_assoc] at h
      exact absurd (List.append_right_eq_self.mp h.symm) (by simp)
    rw [if_pos hsplit, List.head?_eq_getElem?]
    simp only [hsplit, true_and]
    refine ⟨fun ⟨v, hv, h⟩ => Or.inr (hv.trans (congrArg some h)), fun h => ?_⟩
    exact ⟨_, h.resolve_left fun h => hne (hsplit.trans h), rfl⟩
  · rw [if_neg hsplit]
    simp only [hsplit, false_and, or_false, strip_eq_some, hfused, List.append_assoc]
    exact ⟨fun ⟨v, hv, h⟩ => h ▸ hv, fun h => ⟨_, h, rfl⟩⟩

/-- The scan keeps the last core named, or the one found before when none is. -/
theorem scanFlags_eq_some (flags : List Text) (acc : Option Text) (cpu : Text) : scanFlags flags acc = some cpu ↔
    (∃ i, Names flags i cpu ∧ ∀ j > i, ∀ cpu', ¬Names flags j cpu') ∨
      ((∀ i cpu', ¬Names flags i cpu') ∧ acc = some cpu) := by
  induction flags generalizing acc with
  | nil =>
    have hnone : ∀ i cpu', ¬Names [] i cpu' := by
      rintro i cpu' (h | ⟨h, _⟩) <;> exact absurd h.symm (Option.some_ne_none _)
    rw [scanFlags]
    exact ⟨fun h => Or.inr ⟨hnone, h⟩, fun h => h.elim (fun ⟨i, h, _⟩ => absurd h (hnone i cpu)) And.right⟩
  | cons flag flags ih =>
    have hshift : ∀ i cpu', Names (flag :: flags) (i + 1) cpu' ↔ Names flags i cpu' := fun _ _ => Iff.rfl
    have hnext : scanFlags (flag :: flags) acc =
        scanFlags flags (((flagValue flag flags).bind fun v => v.dropPrefix? "target-cpu=".toList).or acc) := by
      rw [scanFlags]
      cases (flagValue flag flags).bind fun v => v.dropPrefix? "target-cpu=".toList <;> rfl
    rw [hnext, ih]
    constructor
    · rintro (⟨i, hi, hlast⟩ | ⟨hnone, hacc⟩)
      · refine Or.inl ⟨i + 1, (hshift i cpu).mpr hi, fun j hj cpu' => ?_⟩
        obtain ⟨j, rfl⟩ := Nat.exists_eq_add_of_lt (Nat.lt_of_le_of_lt (Nat.zero_le _) hj)
        rw [Nat.zero_add, hshift]
        exact hlast j (by omega) cpu'
      · cases hv : (flagValue flag flags).bind fun v => v.dropPrefix? "target-cpu=".toList with
        | some found =>
          rw [hv, Option.some_or] at hacc
          obtain rfl := Option.some.inj hacc
          refine Or.inl ⟨0, (flagValue_names flag flags found).mp hv, fun j hj cpu' => ?_⟩
          obtain ⟨j, rfl⟩ := Nat.exists_eq_add_of_lt hj
          rw [Nat.zero_add, hshift]
          exact hnone j cpu'
        | none =>
          rw [hv, Option.none_or] at hacc
          refine Or.inr ⟨fun i cpu' => ?_, hacc⟩
          cases i with
          | zero =>
            rw [← flagValue_names, hv]
            exact (Option.some_ne_none cpu').symm
          | succ i => exact hnone i cpu'
    · rintro (⟨i, hi, hlast⟩ | ⟨hnone, hacc⟩)
      · cases i with
        | zero =>
          rw [(flagValue_names flag flags cpu).mpr hi]
          exact Or.inr ⟨fun j cpu' => hlast (j + 1) (Nat.succ_pos j) cpu', rfl⟩
        | succ i => exact Or.inl ⟨i, hi, fun j hj cpu' => hlast (j + 1) (Nat.succ_lt_succ hj) cpu'⟩
      · have hv : (flagValue flag flags).bind (fun v => v.dropPrefix? "target-cpu=".toList) = none :=
          Option.eq_none_iff_forall_not_mem.mpr fun cpu' h => hnone 0 cpu' ((flagValue_names flag flags cpu').mp h)
        rw [hv, Option.none_or]
        exact Or.inr ⟨fun i cpu' => hnone (i + 1) cpu', hacc⟩

/-! ## The settings -/

namespace Env

variable (env : Env)

/-- The features of the target. -/
def features : List Text := (env.targetFeature.getD []).splitOn ','

/-- A target of the NEON kernels. -/
def HasNeon : Prop := env.targetArch = some "aarch64".toList ∧ "neon".toList ∈ env.features ∧ env.targetEndian =
    some "little".toList

/-- A target of the AVX2 kernels. -/
def HasAvx2 : Prop := env.targetArch = some "x86_64".toList ∧ "avx2".toList ∈ env.features

/-- The core that the last `target-cpu` of the flags names. -/
def TargetCpu (cpu : Text) : Prop := ∃ encoded, env.encodedRustflags = some encoded ∧
  ∃ i, Names (encoded.splitOn (Char.ofNat 0x1F)) i cpu ∧ ∀ j > i, ∀ cpu', ¬Names (encoded.splitOn (Char.ofNat 0x1F)) j cpu'

/-- A tune that is none of the known ones; the empty value is one of these. -/
def Mistuned : Prop := ∃ tune, env.neonTune = some tune ∧ tune ≠ "generic".toList ∧ tune ≠ "apple".toList ∧ ¬AppleCore tune

/-- The tune of the assembly stages: the variable decides, without it the flags, and without an Apple core there the
vendor. -/
def Tuned (tune : Text) : Prop :=
  (env.neonTune = some tune ∧ (tune = "apple".toList ∨ AppleCore tune)) ∨
  (env.neonTune = none ∧ env.TargetCpu tune ∧ AppleCore tune) ∨
  (env.neonTune = none ∧ (∀ cpu, env.TargetCpu cpu → ¬AppleCore cpu) ∧ env.targetVendor = some "apple".toList ∧
    tune = "apple".toList)

/-- The settings that the script does not build with. -/
def Rejected : Prop :=
  env.backend.getD [] ∉ [[], "scalar".toList, "simd".toList] ∨
  (env.backend = some "simd".toList ∧ ¬env.HasNeon ∧ ¬env.HasAvx2) ∨
  (env.backend ≠ some "scalar".toList ∧ env.HasNeon ∧ env.Mistuned)

end Env

/-- What the script selects: for NEON also the tune, which the assembly stages come with. -/
inductive Selection where
  | generic
  | avx2
  | neon (tune : Option Text)

namespace Selection

/-- The directives of a selection. -/
def lines : Selection → List Text
  | generic => []
  | avx2 => ["cargo::rustc-cfg=mlkem_selkie_arch=\"avx2\"".toList]
  | neon none => ["cargo::rustc-cfg=mlkem_selkie_arch=\"neon\"".toList]
  | neon (some tune) => ["cargo::rustc-cfg=mlkem_selkie_arch=\"neon\"".toList,
      "cargo::rustc-cfg=mlkem_selkie_neon_asm".toList,
    "cargo::rustc-cfg=mlkem_selkie_neon_tune=\"".toList ++ tune ++ "\"".toList]

/-- The kernels of a selection. -/
def arch : Selection → Arch
  | generic => .generic
  | avx2 => .avx2
  | neon none => .neon
  | neon (some _) => .neonAsm

end Selection

/-- The selection that the settings ask for. -/
def Env.Selects (env : Env) : Selection → Prop
  | .generic => env.backend = some "scalar".toList ∨ (¬env.HasNeon ∧ ¬env.HasAvx2)
  | .avx2 => env.backend ≠ some "scalar".toList ∧ env.HasAvx2
  | .neon tune => env.backend ≠ some "scalar".toList ∧ env.HasNeon ∧ ∀ t, tune = some t ↔ env.Tuned t

/-! ## The script -/

section Script

variable {env : Env} (printed : List Text)

/-- The processor that the flags name. -/
theorem rustflagsTargetCpu_eq_some {cpu : Text} : rustflagsTargetCpu env = some cpu ↔ env.TargetCpu cpu := by
  rw [rustflagsTargetCpu, Option.bind_eq_bind, Option.bind_eq_some_iff]
  simp only [scanFlags_eq_some, Env.TargetCpu, reduceCtorEq, and_false, or_false]

/-- An unknown tune stops the script. -/
theorem neonTune_mistuned (h : env.Mistuned) (vendor : Text) : ∃ message, neonTune env vendor printed = .error message := by
  obtain ⟨tune, htune, hgeneric, happle, hcore⟩ := h
  have hnot : ¬isAppleM tune = true := fun h => hcore ((isAppleM_iff tune).mp h)
  rw [neonTune, htune]
  simp only [if_neg hgeneric, if_neg happle, if_neg hnot]
  exact ⟨_, rfl⟩

/-- Any other tune is resolved, and nothing is printed. -/
theorem neonTune_tuned (h : ¬env.Mistuned) : ∃ tune, neonTune env (env.targetVendor.getD []) printed = .ok (tune, printed) ∧
    ∀ t, tune = some t ↔ env.Tuned t := by
  have hne : "generic".toList ≠ "apple".toList := by decide
  have hgeneric : ¬AppleCore "generic".toList := by
    rw [← isAppleM_iff]
    decide
  rw [neonTune]
  cases hvar : env.neonTune with
  | some tune =>
    simp only []
    have htuned : ∀ t, env.Tuned t ↔ tune = t ∧ (t = "apple".toList ∨ AppleCore t) := by
      intro t
      simp only [Env.Tuned, hvar, Option.some_inj, reduceCtorEq, false_and, or_false]
    simp only [htuned]
    by_cases h1 : tune = "generic".toList
    · refine ⟨none, by rw [if_pos h1]; rfl, fun t => iff_of_false (Option.some_ne_none t).symm ?_⟩
      rintro ⟨rfl, h2 | h2⟩
      · exact hne (h1.symm.trans h2)
      · exact hgeneric (h1 ▸ h2)
    · by_cases h2 : tune = "apple".toList
      · refine ⟨some "apple".toList, by rw [if_neg h1, if_pos h2]; rfl, fun t => ?_⟩
        rw [Option.some_inj, h2]
        exact ⟨fun ht => ⟨ht, Or.inl ht.symm⟩, And.left⟩
      · have h3 : AppleCore tune := not_not.mp fun h3 => h ⟨tune, hvar, h1, h2, h3⟩
        refine ⟨some tune, by rw [if_neg h1, if_neg h2, if_pos ((isAppleM_iff tune).mpr h3)]; rfl, fun t => ?_⟩
        rw [Option.some_inj]
        exact ⟨fun ht => ⟨ht, Or.inr (ht ▸ h3)⟩, And.left⟩
  | none =>
    simp only []
    cases hcpu : (rustflagsTargetCpu env).filter isAppleM with
    | some cpu =>
      obtain ⟨hlast, hcore⟩ := Option.filter_eq_some_iff.mp hcpu
      refine ⟨some cpu, rfl, fun t => ?_⟩
      simp only [Env.Tuned, hvar, reduceCtorEq, false_and, false_or, true_and, ← rustflagsTargetCpu_eq_some, ← isAppleM_iff,
        hlast, Option.some_inj]
      constructor
      · rintro rfl
        exact Or.inl ⟨rfl, hcore⟩
      · rintro (⟨ht, _⟩ | ⟨hno, _⟩)
        · exact ht
        · exact absurd hcore (hno cpu rfl)
    | none =>
      have hno : ∀ cpu, env.TargetCpu cpu → ¬AppleCore cpu := fun cpu hlast hcore => by
        rw [rustflagsTargetCpu_eq_some.mpr hlast, Option.filter_some, (isAppleM_iff cpu).mpr hcore] at hcpu
        exact absurd hcpu (Option.some_ne_none cpu)
      have hvendor : env.targetVendor.getD [] = "apple".toList ↔ env.targetVendor = some "apple".toList := by
        cases env.targetVendor with
        | none => exact iff_of_false (by decide) (Option.some_ne_none _).symm
        | some vendor => rw [Option.getD_some, Option.some_inj]
      refine ⟨_, rfl, fun t => ?_⟩
      rw [Option.ite_none_right_eq_some, Option.some_inj, hvendor]
      simp only [Env.Tuned, hvar, reduceCtorEq, false_and, false_or, true_and]
      constructor
      · rintro ⟨h1, rfl⟩
        exact Or.inr ⟨hno, h1, rfl⟩
      · rintro (⟨hlast, hcore⟩ | ⟨_, h1, rfl⟩)
        · exact absurd hcore (hno t hlast)
        · exact ⟨h1, rfl⟩

/-- The target that the script tests for first. -/
theorem hasNeon_iff : (env.targetArch.getD [] = "aarch64".toList ∧
    (((env.targetFeature.getD []).splitOn ',').any (· == "neon".toList)) = true ∧
    (env.targetEndian == some "little".toList) = true) ↔ env.HasNeon := by
  have harch : env.targetArch.getD [] = "aarch64".toList ↔ env.targetArch = some "aarch64".toList := by
    cases env.targetArch with
    | none => exact iff_of_false (by decide) (Option.some_ne_none _).symm
    | some arch => rw [Option.getD_some, Option.some_inj]
  rw [harch, List.any_beq', List.contains_iff_mem, beq_iff_eq]
  rfl

/-- Whether the target has AVX2. -/
theorem hasAvx2_iff : (env.targetArch.getD [] = "x86_64".toList ∧
    (((env.targetFeature.getD []).splitOn ',').any (· == "avx2".toList)) = true) ↔ env.HasAvx2 := by
  have harch : env.targetArch.getD [] = "x86_64".toList ↔ env.targetArch = some "x86_64".toList := by
    cases env.targetArch with
    | none => exact iff_of_false (by decide) (Option.some_ne_none _).symm
    | some arch => rw [Option.getD_some, Option.some_inj]
  rw [harch, List.any_beq', List.contains_iff_mem]
  rfl

/-- The two targets exclude each other. -/
theorem not_hasAvx2 (h : env.HasNeon) : ¬env.HasAvx2 := fun h' =>
  absurd (Option.some.inj (h.1.symm.trans h'.1)) (by decide)

/-- The settings ask for one selection. -/
theorem selects_unique {s s' : Selection} (h : env.Selects s) (h' : env.Selects s') : s = s' := by
  cases s with
  | generic =>
    cases s' with
    | generic => rfl
    | avx2 => exact (h.elim h'.1 fun hnone => hnone.2 h'.2).elim
    | neon tune => exact (h.elim h'.1 fun hnone => hnone.1 h'.2.1).elim
  | avx2 =>
    cases s' with
    | generic => exact (h'.elim h.1 fun hnone => hnone.2 h.2).elim
    | avx2 => rfl
    | neon tune => exact (not_hasAvx2 h'.2.1 h.2).elim
  | neon tune =>
    cases s' with
    | generic => exact (h'.elim h.1 fun hnone => hnone.1 h.2.1).elim
    | avx2 => exact (not_hasAvx2 h.2.1 h'.2).elim
    | neon tune' => exact congrArg Selection.neon (Option.ext fun t => (h.2.2 t).trans (h'.2.2 t).symm)

/-- A script that comes to a value goes on with it. -/
theorem bind_ok {α β : Type} {x : Script α} {f : α → Script β} {s s' : List Text} {a : α} (h : x s = .ok (a, s')) :
    (x >>= f) s = f a s' := by
  show Except.bind (x s) _ = _
  rw [h]
  rfl

/-- A script that panics does not go on. -/
theorem bind_error {α β : Type} {x : Script α} {f : α → Script β} {s : List Text} {message : Text}
    (h : x s = .error message) :
    (x >>= f) s = .error message := by
  show Except.bind (x s) _ = _
  rw [h]
  rfl

/-- A line is printed after the others. -/
theorem println_run (line : Text) (s : List Text) : println line s = .ok ((), s ++ [line]) := rfl

/-- Lines are printed in order. -/
theorem forM_println (lines s : List Text) : lines.forM println s = .ok ((), s ++ lines) := by
  induction lines generalizing s with
  | nil => exact congrArg (fun l => Except.ok ((), l)) (List.append_nil s).symm
  | cons line lines ih =>
    show (println line >>= fun _ => lines.forM println) s = _
    rw [bind_ok (println_run line s), ih, List.append_assoc]
    rfl

/-- An unknown tune stops the script where it is asked for. -/
theorem selectBackend_mistuned (hneon : env.HasNeon) (h : env.Mistuned) :
    ∃ message, selectBackend env printed = .error message := by
  obtain ⟨message, hrun⟩ := neonTune_mistuned (printed ++ ["cargo::rustc-cfg=mlkem_selkie_arch=\"neon\"".toList]) h
    (env.targetVendor.getD [])
  refine ⟨message, ?_⟩
  rw [selectBackend]
  simp only []
  rw [if_pos (hasNeon_iff.mpr hneon), bind_ok (println_run _ _), bind_error hrun]

/-- Otherwise the directives of the target are printed, and the answer is whether it has vector kernels. -/
theorem selectBackend_selects (h : ¬(env.HasNeon ∧ env.Mistuned)) : ∃ (s : Selection) (selected : Bool),
    selectBackend env printed = .ok (selected, printed ++ s.lines) ∧ (selected = true ↔ env.HasNeon ∨ env.HasAvx2) ∧
    (env.backend ≠ some "scalar".toList → env.Selects s) := by
  rw [selectBackend]
  simp only []
  by_cases hneon : env.HasNeon
  · obtain ⟨tune, hrun, htuned⟩ := neonTune_tuned (printed ++ ["cargo::rustc-cfg=mlkem_selkie_arch=\"neon\"".toList])
      fun hmistuned => h ⟨hneon, hmistuned⟩
    refine ⟨.neon tune, true, ?_, iff_of_true rfl (Or.inl hneon), fun hbackend => ⟨hbackend, hneon, htuned⟩⟩
    rw [if_pos (hasNeon_iff.mpr hneon), bind_ok (println_run _ _), bind_ok hrun]
    cases tune with
    | none => rfl
    | some tune =>
      simp only [bind_ok (println_run _ _), List.append_assoc]
      rfl
  · rw [if_neg fun h => hneon (hasNeon_iff.mp h)]
    by_cases havx2 : env.HasAvx2
    · refine ⟨.avx2, true, ?_, iff_of_true rfl (Or.inr havx2), fun hbackend => ⟨hbackend, havx2⟩⟩
      rw [if_pos (hasAvx2_iff.mpr havx2), bind_ok (println_run _ _)]
      rfl
    · refine ⟨.generic, false, ?_, iff_of_false Bool.false_ne_true fun h => h.elim hneon havx2,
        fun _ => Or.inr ⟨hneon, havx2⟩⟩
      rw [if_neg fun h => havx2 (hasAvx2_iff.mp h)]
      exact congrArg (fun l => Except.ok (false, l)) (List.append_nil printed).symm

end Script

/-- A backend setting other than the empty one is the variable's value. -/
theorem backend_eq (env : Env) {value : Text} (hvalue : value ≠ []) :
    env.backend.getD [] = value ↔ env.backend = some value := by
  cases env.backend with
  | none => exact iff_of_false hvalue.symm (Option.some_ne_none _).symm
  | some backend => rw [Option.getD_some, Option.some_inj]

/-- The script panics on the settings that it rejects, and otherwise prints the directives of what they ask for. -/
theorem main_spec (env : Env) : (env.Rejected ∧ ∃ message, main env [] = .error message) ∨
    (¬env.Rejected ∧ ∃ s : Selection, env.Selects s ∧ main env [] = .ok ((), preamble ++ s.lines)) := by
  have hscalar_ne : "scalar".toList ≠ [] := by decide
  have hsimd_ne : "simd".toList ≠ [] := by decide
  have hsimd_scalar : "simd".toList ≠ "scalar".toList := by decide
  have hscalar_iff := backend_eq env hscalar_ne
  have hsimd_iff := backend_eq env hsimd_ne
  rw [main, bind_ok (forM_println preamble []), List.nil_append]
  by_cases hempty : env.backend.getD [] = []
  · have hscalar : env.backend ≠ some "scalar".toList := fun h => hscalar_ne ((hscalar_iff.mpr h).symm.trans hempty)
    have hsimd : env.backend ≠ some "simd".toList := fun h => hsimd_ne ((hsimd_iff.mpr h).symm.trans hempty)
    rw [if_pos hempty]
    by_cases hm : env.HasNeon ∧ env.Mistuned
    · obtain ⟨message, hrun⟩ := selectBackend_mistuned preamble hm.1 hm.2
      exact Or.inl ⟨Or.inr (Or.inr ⟨hscalar, hm⟩), message, bind_error hrun⟩
    · obtain ⟨s, selected, hrun, _, hs⟩ := selectBackend_selects preamble hm
      refine Or.inr ⟨?_, s, hs hscalar, bind_ok hrun⟩
      rintro (h | h | h)
      · exact h (by rw [hempty]; exact List.mem_cons_self)
      · exact hsimd h.1
      · exact hm h.2
  · rw [if_neg hempty]
    by_cases hscalar : env.backend = some "scalar".toList
    · rw [if_pos (hscalar_iff.mpr hscalar)]
      refine Or.inr ⟨?_, .generic, Or.inl hscalar, congrArg (fun l => Except.ok ((), l)) (List.append_nil preamble).symm⟩
      rintro (h | h | h)
      · exact h (by rw [hscalar_iff.mpr hscalar]; decide)
      · exact hsimd_scalar (Option.some.inj (h.1.symm.trans hscalar))
      · exact h.1 hscalar
    · rw [if_neg fun h => hscalar (hscalar_iff.mp h)]
      by_cases hsimd : env.backend = some "simd".toList
      · rw [if_pos (hsimd_iff.mpr hsimd)]
        by_cases hm : env.HasNeon ∧ env.Mistuned
        · obtain ⟨message, hrun⟩ := selectBackend_mistuned preamble hm.1 hm.2
          exact Or.inl ⟨Or.inr (Or.inr ⟨hscalar, hm⟩), message, bind_error hrun⟩
        · obtain ⟨s, selected, hrun, hselected, hs⟩ := selectBackend_selects preamble hm
          rw [bind_ok hrun]
          cases selected with
          | false =>
            have hneither := fun h => Bool.false_ne_true (hselected.mpr h)
            exact Or.inl ⟨Or.inr (Or.inl ⟨hsimd, fun h => hneither (Or.inl h), fun h => hneither (Or.inr h)⟩), _, rfl⟩
          | true =>
            refine Or.inr ⟨?_, s, hs hscalar, rfl⟩
            rintro (h | h | h)
            · exact h (by rw [hsimd_iff.mpr hsimd]; decide)
            · exact (hselected.mp rfl).elim h.2.1 h.2.2
            · exact hm h.2
      · rw [if_neg fun h => hsimd (hsimd_iff.mp h)]
        refine Or.inl ⟨Or.inl fun h => ?_, _, rfl⟩
        rcases List.mem_cons.mp h with h | h
        · exact hempty h
        · rcases List.mem_cons.mp h with h | h
          · exact hscalar (hscalar_iff.mp h)
          · exact hsimd (hsimd_iff.mp (List.mem_singleton.mp h))

/-- The preamble switches nothing on: none of its lines starts as a `cfg` does. -/
theorem cfg_preamble (lines : List Text) (condition : Text) : cfg (preamble ++ lines) condition = cfg lines condition := by
  have hstart : ∀ line ∈ preamble, line.take 17 ≠ "cargo::rustc-cfg=".toList := by decide
  have hlength : "cargo::rustc-cfg=".toList.length = 17 := by decide
  have hnot : ("cargo::rustc-cfg=".toList ++ condition) ∉ preamble := fun h =>
    hstart _ h (by rw [← hlength, List.take_left])
  rw [cfg, List.contains_append, cfg, Bool.or_eq_right_iff_imp]
  exact fun h => absurd (List.contains_iff_mem.mp h) hnot

/-- The directives of a selection switch on its kernels and no others. -/
theorem imported_lines (s : Selection) : imported (preamble ++ s.lines) = some s.arch := by
  simp only [imported, cfg_preamble]
  cases s with
  | generic => decide
  | avx2 => decide
  | neon tune =>
    cases tune with
    | none => decide
    | some tune =>
      -- the first 33 characters tell the tune from an architecture
      have htune : ¬"cargo::rustc-cfg=".toList ++ "mlkem_selkie_arch=\"avx2\"".toList =
          "cargo::rustc-cfg=mlkem_selkie_neon_tune=\"".toList ++ tune ++ "\"".toList := by
        intro h
        have h' := congrArg (List.take 33) h
        have htold : 33 ≤ "cargo::rustc-cfg=mlkem_selkie_neon_tune=\"".toList.length := by decide
        rw [List.append_assoc, List.take_append_of_le_length htold] at h'
        exact absurd h' (by decide)
      have havx2 : cfg (Selection.neon (some tune)).lines "mlkem_selkie_arch=\"avx2\"".toList = false := by
        rw [cfg, ← Bool.not_eq_true, List.contains_iff_mem, Selection.lines, List.mem_cons, List.mem_cons,
          List.mem_singleton]
        rintro (h | h | h)
        · exact absurd h (by decide)
        · exact absurd h (by decide)
        · exact htune h
      have hneon : cfg (Selection.neon (some tune)).lines "mlkem_selkie_arch=\"neon\"".toList = true :=
        List.contains_iff_mem.mpr List.mem_cons_self
      have hasm : cfg (Selection.neon (some tune)).lines "mlkem_selkie_neon_asm".toList = true :=
        List.contains_iff_mem.mpr (List.mem_cons_of_mem _ List.mem_cons_self)
      rw [havx2, hneon, hasm]
      rfl

/-- What a run that ends has printed. -/
theorem output_ok {env : Env} {lines : List Text} (h : output env = .ok lines) :
    ∃ s : Selection, env.Selects s ∧ lines = preamble ++ s.lines := by
  have hmap : output env = (main env []).map (·.2) := rfl
  rw [hmap] at h
  rcases main_spec env with ⟨_, message, hrun⟩ | ⟨_, s, hs, hrun⟩
  · rw [hrun] at h
    cases h
  · rw [hrun] at h
    exact ⟨s, hs, (Except.ok.inj h).symm⟩

/-- The build script panics exactly on a backend that is none of the empty string, `scalar` and `simd`, on `simd` for a
target with no vector kernels, and, where it selects NEON, on a tune that is none of `generic`, `apple` and
`apple-m<N>`, the empty string included. Otherwise it prints the directives of the one selection that the settings ask
for, and they switch on its kernels. -/
theorem build_selects (env : Env) : ((∃ message, output env = .error message) ↔ env.Rejected) ∧
    ∀ lines, output env = .ok lines → ∃ s, env.Selects s ∧ (∀ s', env.Selects s' → s' = s) ∧ lines = preamble ++ s.lines ∧
      imported lines = some s.arch := by
  refine ⟨?_, fun lines hlines => ?_⟩
  · have hmap : output env = (main env []).map (·.2) := rfl
    rw [hmap]
    rcases main_spec env with ⟨hrejected, message, hrun⟩ | ⟨hrejected, s, _, hrun⟩
    · exact iff_of_true ⟨message, by rw [hrun]; rfl⟩ hrejected
    · refine iff_of_false (fun ⟨message, h⟩ => ?_) hrejected
      rw [hrun] at h
      cases h
  · obtain ⟨s, hs, rfl⟩ := output_ok hlines
    exact ⟨s, hs, fun s' hs' => selects_unique hs' hs, rfl, imported_lines s⟩

/-- The variables on an Apple core, as Cargo sets them. -/
def appleTarget : Env where
  targetArch := some "aarch64".toList
  targetEndian := some "little".toList
  targetFeature := some "aes,neon,sha3".toList
  targetVendor := some "apple".toList
  encodedRustflags := some []
  backend := some []
  neonTune := none

/-- On an Apple core the assembly stages are selected, and an empty tune is rejected. -/
theorem build_selects_apple :
    (∃ lines s, output appleTarget = .ok lines ∧ appleTarget.Selects s ∧ imported lines = some s.arch) ∧
    ∃ message, output { appleTarget with neonTune := some [] } = .error message := by
  have hrun : output appleTarget = .ok (preamble ++ (Selection.neon (some "apple".toList)).lines) := rfl
  obtain ⟨s, hs, _, _, himported⟩ := (build_selects appleTarget).2 _ hrun
  have hneon : Env.HasNeon { appleTarget with neonTune := some [] } := hasNeon_iff.mp (by decide)
  have hunknown : ¬AppleCore [] := fun h => absurd ((isAppleM_iff []).mpr h) (by decide)
  exact ⟨⟨_, s, hrun, hs, himported⟩, (build_selects { appleTarget with neonTune := some [] }).1.mpr
    (Or.inr (Or.inr ⟨by decide, hneon, [], rfl, by decide, by decide, hunknown⟩))⟩

-- an empty tune is a value like any other, unlike an empty backend
example : isAppleM [] = false := by decide

end MlkemSelkie.Build
