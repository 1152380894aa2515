import MlkemSelkie.Lib.Neon

/-!
# A64 programs

A fragment of the A64 instruction set with the semantics that the architecture documents: pairs of vector registers
loaded and stored, arithmetic on eight lanes of half words, and a loop closed by a branch on a counter. The general
registers are the operands `R` of a program; memory holds bytes, and a machine keeps the log of its accesses.
-/

namespace A64

open NeonLanes

/-- A vector register is written by its number. -/
instance instNeZeroRegisters : NeZero 32 := ⟨by decide⟩

/-! ## Machines -/

/-- An access to sixteen bytes. -/
inductive Access (A : Type) where
  | load (address : A)
  | store (address : A)
  deriving DecidableEq

/-- The address of an access. -/
def Access.address {A : Type} : Access A → A
  | load a => a
  | store a => a

/-- The access with its address mapped. -/
def Access.map {A B : Type} (f : A → B) : Access A → Access B
  | load a => load (f a)
  | store a => store (f a)

/-- The general registers, the vector registers as eight half words, the bytes of the memory, and the accesses so far. -/
structure Machine (R : Type) where
  x : R → UInt64
  v : Fin 32 → Vector Int16 8
  mem : UInt64 → UInt8
  log : List (Access UInt64)

/-- The half word at an address, its low byte first. -/
def half (mem : UInt64 → UInt8) (a : UInt64) : Int16 := (Lanes.word (mem a) (mem (a + 1))).toInt16

/-- The register loaded from sixteen bytes. -/
def loadQ (mem : UInt64 → UInt8) (a : UInt64) : Vector Int16 8 :=
  Vector.ofFn fun l => half mem (a + UInt64.ofNat (2 * l.val))

/-- The memory with a register stored to sixteen bytes. -/
def storeQ (mem : UInt64 → UInt8) (a : UInt64) (q : Vector Int16 8) : UInt64 → UInt8 := fun p =>
  let offset := (p - a).toNat
  if offset < 16 then
    let lane := q[offset / 2]!.toUInt16
    if offset % 2 = 0 then Lanes.lowByte lane else Lanes.highByte lane
  else mem p

section Registers

variable {R : Type} (m : Machine R) (d t1 t2 : Fin 32) (q : Vector Int16 8) (n : R) (a : UInt64)

/-- The machine with a vector register written. -/
def Machine.setV : Machine R := { m with v := fun r => if r = d then q else m.v r }

/-- Two registers loaded from an address on. -/
def Machine.loadPair : Machine R :=
  let loaded := (m.setV t1 (loadQ m.mem a)).setV t2 (loadQ m.mem (a + 16))
  { loaded with log := m.log ++ [.load a, .load (a + 16)] }

/-- Two registers stored from an address on. -/
def Machine.storePair : Machine R :=
  { m with mem := storeQ (storeQ m.mem a (m.v t1)) (a + 16) (m.v t2), log := m.log ++ [.store a, .store (a + 16)] }

/-- A write to a vector register is read back there and nowhere else. -/
@[simp] theorem setV_v (r : Fin 32) : (m.setV d q).v r = if r = d then q else m.v r := rfl

@[simp] theorem setV_x : (m.setV d q).x = m.x := rfl

@[simp] theorem setV_mem : (m.setV d q).mem = m.mem := rfl

@[simp] theorem setV_log : (m.setV d q).log = m.log := rfl

/-- A pair of loads fills its two registers, the second one last. -/
@[simp] theorem loadPair_v (r : Fin 32) : (m.loadPair t1 t2 a).v r =
    if r = t2 then loadQ m.mem (a + 16) else if r = t1 then loadQ m.mem a else m.v r := rfl

@[simp] theorem loadPair_x : (m.loadPair t1 t2 a).x = m.x := rfl

@[simp] theorem loadPair_mem : (m.loadPair t1 t2 a).mem = m.mem := rfl

/-- A pair of loads is two accesses, sixteen bytes apart. -/
@[simp] theorem loadPair_log : (m.loadPair t1 t2 a).log = m.log ++ [.load a, .load (a + 16)] := rfl

@[simp] theorem storePair_v : (m.storePair t1 t2 a).v = m.v := rfl

@[simp] theorem storePair_x : (m.storePair t1 t2 a).x = m.x := rfl

/-- A pair of stores writes its two registers, sixteen bytes apart. -/
@[simp] theorem storePair_mem : (m.storePair t1 t2 a).mem = storeQ (storeQ m.mem a (m.v t1)) (a + 16) (m.v t2) := rfl

@[simp] theorem storePair_log : (m.storePair t1 t2 a).log = m.log ++ [.store a, .store (a + 16)] := rfl

variable [DecidableEq R]

/-- The machine with a general register written. -/
def Machine.setX : Machine R := { m with x := fun r => if r = n then a else m.x r }

/-- A write to a general register is read back there and nowhere else. -/
@[simp] theorem setX_x (r : R) : (m.setX n a).x r = if r = n then a else m.x r := rfl

@[simp] theorem setX_v : (m.setX n a).v = m.v := rfl

@[simp] theorem setX_mem : (m.setX n a).mem = m.mem := rfl

@[simp] theorem setX_log : (m.setX n a).log = m.log := rfl

end Registers

section Semantics

variable {R : Type} [DecidableEq R]

/-- The instructions that fall through. -/
inductive Op (R : Type) where
  /-- `dup Vd.8h, Wn` -/
  | dup (d : Fin 32) (n : R)
  /-- `mov Wd, #imm` -/
  | movW (d : R) (imm : UInt32)
  /-- `mov Xd, #imm` -/
  | movX (d : R) (imm : UInt64)
  /-- `sub Xd, Xn, #imm` -/
  | subX (d n : R) (imm : UInt64)
  /-- `ldp Qt1, Qt2, [Xn, #imm]` -/
  | ldp (t1 t2 : Fin 32) (n : R) (imm : UInt64)
  /-- `stp Qt1, Qt2, [Xn, #imm]` -/
  | stp (t1 t2 : Fin 32) (n : R) (imm : UInt64)
  /-- `stp Qt1, Qt2, [Xn], #imm` -/
  | stpPost (t1 t2 : Fin 32) (n : R) (imm : UInt64)
  /-- `add Vd.8h, Vn.8h, Vm.8h` -/
  | add (d n m : Fin 32)
  /-- `sub Vd.8h, Vn.8h, Vm.8h` -/
  | sub (d n m : Fin 32)
  /-- `mul Vd.8h, Vn.8h, Vm.8h` -/
  | mul (d n m : Fin 32)
  /-- `sqrdmulh Vd.8h, Vn.8h, Vm.8h` -/
  | sqrdmulh (d n m : Fin 32)
  /-- `mls Vd.8h, Vn.8h, Vm.8h` -/
  | mls (d n m : Fin 32)

/-- What an instruction does to the machine. -/
def Op.run (s : Machine R) : Op R → Machine R
  | .dup d n => s.setV d (vdupNS16 (s.x n).toUInt16.toInt16)
  | .movW d imm => s.setX d imm.toUInt64
  | .movX d imm => s.setX d imm
  | .subX d n imm => s.setX d (s.x n - imm)
  | .ldp t1 t2 n imm => s.loadPair t1 t2 (s.x n + imm)
  | .stp t1 t2 n imm => s.storePair t1 t2 (s.x n + imm)
  | .stpPost t1 t2 n imm => (s.storePair t1 t2 (s.x n)).setX n (s.x n + imm)
  | .add d n m => s.setV d (vaddS16 (s.v n) (s.v m))
  | .sub d n m => s.setV d (vsubS16 (s.v n) (s.v m))
  | .mul d n m => s.setV d (vmulS16 (s.v n) (s.v m))
  | .sqrdmulh d n m => s.setV d (vqrdmulhS16 (s.v n) (s.v m))
  | .mls d n m => s.setV d (vmlsS16 (s.v d) (s.v n) (s.v m))

/-- Instructions one after the other. -/
def runOps (ops : List (Op R)) (m : Machine R) : Machine R := ops.foldl Op.run m

/-- An instruction that falls through, or `cbnz Xn` to a position of the program. -/
inductive Instr (R : Type) where
  | op (o : Op R)
  | cbnz (n : R) (target : Nat)

/-- A machine at a position of a program. -/
structure Config (R : Type) where
  pc : Nat
  machine : Machine R

/-- One step: none once the program has been left. -/
def step (program : List (Instr R)) (s : Config R) : Option (Config R) :=
  match program[s.pc]? with
  | none => none
  | some (.op o) => some ⟨s.pc + 1, o.run s.machine⟩
  | some (.cbnz n target) => some ⟨if s.machine.x n = 0 then s.pc + 1 else target, s.machine⟩

/-- The configuration after some steps. -/
def run (program : List (Instr R)) : Nat → Config R → Option (Config R)
  | 0, s => some s
  | n + 1, s => (step program s).bind (run program n)

/-- A program run from its start leaves at its end with a machine. -/
def Leaves (program : List (Instr R)) (m m' : Machine R) : Prop := ∃ n, run program n ⟨0, m⟩ = some ⟨program.length, m'⟩

/-- One configuration is reached from another. -/
def Reaches (program : List (Instr R)) (s s' : Config R) : Prop := ∃ n, run program n s = some s'

variable {program : List (Instr R)} {s s' s'' : Config R}

/-- No step at all. -/
theorem Reaches.refl (s : Config R) : Reaches program s s := ⟨0, rfl⟩

/-- A step before a run. -/
theorem Reaches.head (h : step program s = some s') (h' : Reaches program s' s'') : Reaches program s s'' := by
  obtain ⟨n, hn⟩ := h'
  exact ⟨n + 1, by rw [run, h, Option.bind_some, hn]⟩

/-- Runs compose. -/
theorem Reaches.trans (h : Reaches program s s') (h' : Reaches program s' s'') : Reaches program s s'' := by
  obtain ⟨n, hn⟩ := h
  induction n generalizing s with
  | zero =>
    obtain rfl := Option.some.inj hn
    exact h'
  | succ n ih =>
    obtain ⟨t, ht, hrest⟩ := Option.bind_eq_some_iff.mp hn
    exact Reaches.head ht (ih hrest)

/-- A program as a loop: a step is a pass, until the program has been left. -/
def execution (program : List (Instr R)) : Loops.While (Config R) where
  test s := (step program s).isSome
  pass s := (step program s).getD s

/-- The machine with which a program is left; `none` where it runs on. -/
def exec (program : List (Instr R)) (m : Machine R) : Option (Machine R) := ((execution program).run ⟨0, m⟩).map (·.machine)

/-- A program ends alike from every configuration of a run. -/
theorem Reaches.execution (h : Reaches program s s') : (execution program).run s = (execution program).run s' := by
  obtain ⟨n, hn⟩ := h
  induction n generalizing s with
  | zero => rw [Option.some.inj hn]
  | succ n ih =>
    obtain ⟨t, ht, hrest⟩ := Option.bind_eq_some_iff.mp hn
    have htest : (A64.execution program).test s = true := (congrArg Option.isSome ht).trans Option.isSome_some
    have hpass : (A64.execution program).pass s = t := congrArg (fun o => Option.getD o s) ht
    rw [Loops.While.run_pass htest, hpass, ih hrest]

/-- A program that leaves is executed to its end. -/
theorem Leaves.exec {m m' : Machine R} (h : Leaves program m m') : exec program m = some m' := by
  have hend : (A64.execution program).test ⟨program.length, m'⟩ = false := by
    simp only [A64.execution, step, List.getElem?_eq_none (Nat.le_refl program.length), Option.isSome_none]
  rw [A64.exec, Reaches.execution h, Loops.While.run_stop hend, Option.map_some]

/-- A block of instructions that fall through is run to its end. -/
theorem reaches_ops (ops : List (Op R)) (before after : List (Instr R)) (m : Machine R) :
    Reaches (before ++ (ops.map .op ++ after)) ⟨before.length, m⟩ ⟨before.length + ops.length, runOps ops m⟩ := by
  induction ops generalizing before m with
  | nil => exact Reaches.refl _
  | cons o ops ih =>
    have hnext := ih (before ++ [.op o]) (o.run m)
    rw [List.append_assoc, List.length_append, Nat.add_assoc, List.length_singleton, Nat.add_comm 1] at hnext
    refine Reaches.head ?_ hnext
    rw [step]
    simp

/-- A program that falls into a loop and out of it: the branch at the end of the body goes back to its start. -/
def loopProgram (entry body : List (Op R)) (counter : R) (exit : List (Op R)) : List (Instr R) :=
  entry.map .op ++ (body.map .op ++ .cbnz counter entry.length :: exit.map .op)

/-- One pass: the body, and the branch by what it leaves in the counter. -/
theorem reaches_pass (entry body : List (Op R)) (counter : R) (exit : List (Op R)) (m : Machine R) :
    Reaches (loopProgram entry body counter exit) ⟨entry.length, m⟩
      ⟨if (runOps body m).x counter = 0 then entry.length + body.length + 1 else entry.length, runOps body m⟩ := by
  have hbody := reaches_ops body (entry.map .op) (.cbnz counter entry.length :: exit.map .op) m
  rw [List.length_map] at hbody
  refine hbody.trans (Reaches.head ?_ (Reaches.refl _))
  have hat : (loopProgram entry body counter exit)[entry.length + body.length]? = some (.cbnz counter entry.length) := by
    rw [loopProgram, List.getElem?_append_right (by rw [List.length_map]; omega),
      List.getElem?_append_right (by simp only [List.length_map]; omega)]
    simp only [List.length_map, Nat.add_sub_cancel_left, Nat.sub_self, List.getElem?_cons_zero]
  have hstep : step (loopProgram entry body counter exit) ⟨entry.length + body.length, runOps body m⟩ = some
      ⟨if (runOps body m).x counter = 0 then entry.length + body.length + 1 else entry.length, runOps body m⟩ := by
    rw [step]
    simp only [hat]
  exact hstep

/-- The rule for the loop: an invariant that every pass keeps, with a counter that is zero after the last pass only. -/
theorem leaves_loop (entry body : List (Op R)) (counter : R) (exit : List (Op R)) {m : Machine R}
    (I : Nat → Machine R → Prop)
    {c : Nat} (hc : 0 < c) (hentry : I 0 (runOps entry m)) (hbody : ∀ k < c, ∀ m, I k m → I (k + 1) (runOps body m))
    (hcount : ∀ k ≤ c, ∀ m, I k m → (m.x counter = 0 ↔ k = c)) :
    ∃ m', I c m' ∧ Leaves (loopProgram entry body counter exit) m (runOps exit m') := by
  -- with `j` passes to go behind the next one
  have hpasses : ∀ j k, k + (j + 1) = c → ∀ m, I k m → ∃ m', I c m' ∧
      Reaches (loopProgram entry body counter exit) ⟨entry.length, m⟩ ⟨entry.length + body.length + 1, m'⟩ := by
    intro j
    induction j with
    | zero =>
      intro k hk m hm
      have hm' := hbody k (by omega) m hm
      have hpass := reaches_pass entry body counter exit m
      rw [if_pos ((hcount (k + 1) (by omega) _ hm').mpr hk)] at hpass
      exact ⟨_, hk ▸ hm', hpass⟩
    | succ j ih =>
      intro k hk m hm
      have hm' := hbody k (by omega) m hm
      have hpass := reaches_pass entry body counter exit m
      rw [if_neg fun hzero => by have := (hcount (k + 1) (by omega) _ hm').mp hzero; omega] at hpass
      obtain ⟨m'', hm'', hrest⟩ := ih (k + 1) (by omega) _ hm'
      exact ⟨m'', hm'', hpass.trans hrest⟩
  obtain ⟨c, rfl⟩ := Nat.exists_eq_succ_of_ne_zero (Nat.ne_of_gt hc)
  obtain ⟨m', hm', hloop⟩ := hpasses c 0 (Nat.zero_add _) _ hentry
  refine ⟨m', hm', ?_⟩
  have hstart := reaches_ops entry [] (body.map .op ++ .cbnz counter entry.length :: exit.map .op) m
  have hend := reaches_ops exit (entry.map .op ++ (body.map .op ++ [.cbnz counter entry.length])) [] m'
  simp only [List.length_nil, Nat.zero_add, List.nil_append] at hstart
  simp only [List.append_nil, List.append_assoc, List.cons_append, List.nil_append, List.length_append, List.length_map,
    List.length_cons, List.length_nil, Nat.zero_add, ← Nat.add_assoc] at hend
  obtain ⟨n, hn⟩ := (hstart.trans hloop).trans hend
  refine ⟨n, hn.trans ?_⟩
  rw [loopProgram]
  simp only [List.length_append, List.length_map, List.length_cons]
  refine congrArg some (congrArg (Config.mk · _) ?_)
  omega

end Semantics

/-! ## The elements of a window -/

section Window

variable {mem mem₀ : UInt64 → UInt8} {base : UInt64} {n : Nat}

/-- The half word `i` from a base on. -/
def element (mem : UInt64 → UInt8) (base : UInt64) (i : Nat) : Int16 := half mem (base + UInt64.ofNat (2 * i))

/-- The address `d` elements behind another of a window. -/
theorem offset_add (base : UInt64) (j d : Nat) :
    base + UInt64.ofNat (2 * j) + UInt64.ofNat (2 * d) = base + UInt64.ofNat (2 * (j + d)) := by
  rw [Nat.mul_add, UInt64.ofNat_add, UInt64.add_assoc]

/-- An element by its two bytes. -/
theorem element_eq (mem : UInt64 → UInt8) (base : UInt64) (i : Nat) : element mem base i =
    (Lanes.word (mem (base + UInt64.ofNat (2 * i))) (mem (base + UInt64.ofNat (2 * i + 1)))).toInt16 := by
  rw [element, half, UInt64.add_assoc, UInt64.ofNat_add (2 * i) 1]
  rfl

/-- The distance of two addresses of a window. -/
theorem sub_offset (base : UInt64) {a b : Nat} (ha : a < 2 ^ 33) (hb : b < 2 ^ 33) :
    (base + UInt64.ofNat a - (base + UInt64.ofNat b)).toNat = if b ≤ a then a - b else 2 ^ 64 + a - b := by
  have hbase := base.toNat_lt
  rw [UInt64.toNat_sub, UInt64.toNat_add, UInt64.toNat_add, UInt64.toNat_ofNat', UInt64.toNat_ofNat']
  split <;> omega

/-- A lane of a register loaded from a window. -/
theorem loadQ_getElem! (mem : UInt64 → UInt8) (base : UInt64) (j l : Nat) (hl : l < 8) :
    (loadQ mem (base + UInt64.ofNat (2 * j)))[l]! = element mem base (j + l) := by
  rw [getElem!_pos _ l hl, loadQ, Vector.getElem_ofFn, element, offset_add]

/-- A store to a window replaces eight elements. -/
theorem element_storeQ (mem : UInt64 → UInt8) (base : UInt64) (q : Vector Int16 8) {i j : Nat} (hi : i < 2 ^ 32)
    (hj : j < 2 ^ 32) :
    element (storeQ mem (base + UInt64.ofNat (2 * j)) q) base i = if j ≤ i ∧ i < j +
      8 then q[i - j]! else element mem base i := by
  have hlo := sub_offset base (a := 2 * i) (b := 2 * j) (by omega) (by omega)
  have hhi := sub_offset base (a := 2 * i + 1) (b := 2 * j) (by omega) (by omega)
  rw [element_eq, element_eq]
  simp only [storeQ, hlo, hhi]
  by_cases hin : j ≤ i ∧ i < j + 8
  · have hlane : (2 * i - 2 * j) / 2 = i - j := by omega
    have hlane' : (2 * i + 1 - 2 * j) / 2 = i - j := by omega
    have heven : (2 * i - 2 * j) % 2 = 0 := by omega
    have hodd : ¬(2 * i + 1 - 2 * j) % 2 = 0 := by omega
    rw [if_pos hin, if_pos (by omega : 2 * j ≤ 2 * i), if_pos (by omega : 2 * j ≤ 2 * i + 1),
      if_pos (by omega : 2 * i - 2 * j < 16), if_pos (by omega : 2 * i + 1 - 2 * j < 16), if_pos heven, if_neg hodd,
        hlane, hlane', Lanes.word_bytes, Int16.toInt16_toUInt16]
  · have hlow : ¬(if 2 * j ≤ 2 * i then 2 * i - 2 * j else 2 ^ 64 + 2 * i - 2 * j) < 16 := by
      split <;> omega
    have hhigh : ¬(if 2 * j ≤ 2 * i + 1 then 2 * i + 1 - 2 * j else 2 ^ 64 + (2 * i + 1) - 2 * j) < 16 := by
      split <;> omega
    rw [if_neg hin, if_neg hlow, if_neg hhigh]

/-- A store to a window keeps the bytes outside. -/
theorem storeQ_outside (q : Vector Int16 8) {j : Nat} (hj : j + 16 ≤ n) (hn : n < 2 ^ 33) {p : UInt64}
    (hp : n ≤ (p - base).toNat) : storeQ mem (base + UInt64.ofNat j) q p = mem p := by
  have hbase := base.toNat_lt
  have hlt := p.toNat_lt
  rw [UInt64.toNat_sub] at hp
  rw [storeQ]
  refine if_neg ?_
  rw [UInt64.toNat_sub, UInt64.toNat_add, UInt64.toNat_ofNat']
  omega

/-- The memory with the first `n` values of `f` laid out from a base on. -/
def layout (mem : UInt64 → UInt8) (base : UInt64) (n : Nat) (f : Nat → Int16) : UInt64 → UInt8 := fun p =>
  let offset := (p - base).toNat
  if offset < 2 * n then
    let value := (f (offset / 2)).toUInt16
    if offset % 2 = 0 then Lanes.lowByte value else Lanes.highByte value
  else mem p

/-- An element of an array laid out in memory is read back. -/
theorem element_layout (mem : UInt64 → UInt8) (base : UInt64) (f : Nat → Int16) {i : Nat} (hi : i < n) (hn : n < 2 ^ 32) :
    element (layout mem base n f) base i = f i := by
  have hoffset : ∀ k < 2 * n, (base + UInt64.ofNat k - base).toNat = k := by
    intro k hk
    have hk' : k % 2 ^ 64 = k := Nat.mod_eq_of_lt (by omega)
    have hbase := base.toNat_lt
    rw [UInt64.toNat_sub, UInt64.toNat_add, UInt64.toNat_ofNat', hk']
    omega
  have hlow : 2 * i % 2 = 0 := by omega
  have hhigh : ¬(2 * i + 1) % 2 = 0 := by omega
  have hlow' : 2 * i / 2 = i := by omega
  have hhigh' : (2 * i + 1) / 2 = i := by omega
  rw [element_eq]
  simp only [layout, hoffset (2 * i) (by omega), hoffset (2 * i + 1) (by omega)]
  rw [if_pos (by omega), if_pos hlow, if_pos (by omega), if_neg hhigh, hlow', hhigh', Lanes.word_bytes]
  rfl

/-- Laying out an array keeps the bytes outside. -/
theorem layout_outside (f : Nat → Int16) {p : UInt64} (hp : 2 * n ≤ (p - base).toNat) : layout mem base n f p = mem p :=
  if_neg (by omega)

/-- The memory where the elements `D` of a window of `n` have been written with the target `T`, and nothing else. -/
structure Written (base : UInt64) (n : Nat) (T : Nat → Int16) (mem₀ : UInt64 → UInt8) (D : Nat → Prop)
    (mem : UInt64 → UInt8) :
    Prop where
  done : ∀ i < n, D i → element mem base i = T i
  left : ∀ i < n, ¬D i → element mem base i = element mem₀ base i
  outside : ∀ p, 2 * n ≤ (p - base).toNat → mem p = mem₀ p

variable {T : Nat → Int16} {D : Nat → Prop}

/-- Nothing is written at first. -/
theorem written_start : Written base n T mem₀ (fun _ => False) mem₀ :=
  ⟨fun _ _ h => h.elim, fun _ _ _ => rfl, fun _ _ => rfl⟩

/-- Only the elements of the array count as written. -/
theorem Written.congr (h : Written base n T mem₀ D mem) {D' : Nat → Prop} (hD : ∀ i < n, (D i ↔ D' i)) :
    Written base n T mem₀ D' mem :=
  ⟨fun i hi hd => h.done i hi ((hD i hi).mpr hd), fun i hi hd => h.left i hi fun hd' => hd ((hD i hi).mp hd'), h.outside⟩

/-- A store of the target writes eight elements more. -/
theorem Written.store (h : Written base n T mem₀ D mem) (hn : n < 2 ^ 32) {j : Nat} (hj : j + 8 ≤ n) {q : Vector Int16 8}
    (hq : ∀ l < 8, q[l]! = T (j + l)) :
    Written base n T mem₀ (fun i => D i ∨ (j ≤ i ∧ i < j + 8)) (storeQ mem (base + UInt64.ofNat (2 * j)) q) := by
  refine ⟨fun i hi hd => ?_, fun i hi hd => ?_, fun p hp => ?_⟩
  · rw [element_storeQ _ _ _ (by omega) (by omega)]
    by_cases hin : j ≤ i ∧ i < j + 8
    · rw [if_pos hin, hq _ (by omega), Nat.add_sub_cancel' hin.1]
    · rw [if_neg hin]
      exact h.done i hi (hd.resolve_right hin)
  · rw [element_storeQ _ _ _ (by omega) (by omega), if_neg fun hin => hd (Or.inr hin)]
    exact h.left i hi fun hd' => hd (Or.inl hd')
  · rw [storeQ_outside q (by omega) (by omega) hp]
    exact h.outside p hp

/-- A pair of stores of the target writes sixteen elements more. -/
theorem Written.storePair (h : Written base n T mem₀ D mem) (hn : n < 2 ^ 32) {j : Nat} (hj : j + 16 ≤ n)
    {q q' : Vector Int16 8}
    (hq : ∀ l < 8, q[l]! = T (j + l)) (hq' : ∀ l < 8, q'[l]! = T (j + 8 + l)) :
    Written base n T mem₀ (fun i => D i ∨ (j ≤ i ∧ i < j + 16))
      (storeQ (storeQ mem (base + UInt64.ofNat (2 * j)) q) (base + UInt64.ofNat (2 * j) + 16) q') := by
  rw [show base + UInt64.ofNat (2 * j) + 16 = base + UInt64.ofNat (2 * (j + 8)) from offset_add base j 8]
  refine ((h.store hn (by omega) hq).store hn (by omega) hq').congr fun i _ => ?_
  rw [or_assoc]
  refine or_congr_right ?_
  omega

/-- A load of elements that are still to be written. -/
theorem Written.load (h : Written base n T mem₀ D mem) {j : Nat} (hj : j + 8 ≤ n) (hD : ∀ l < 8, ¬D (j + l)) :
    loadQ mem (base + UInt64.ofNat (2 * j)) = loadQ mem₀ (base + UInt64.ofNat (2 * j)) := by
  refine Butterfly.ext_getElem! fun l hl => ?_
  rw [loadQ_getElem! _ _ _ _ hl, loadQ_getElem! _ _ _ _ hl, h.left _ (by omega) (hD l hl)]

/-- An element of a larger window that lies outside. -/
theorem Written.element_outside {start : Nat} (h : Written (base + UInt64.ofNat (2 * start)) n T mem₀ D mem) {i : Nat}
    (hi : i < 2 ^ 32) (hstart : start + n < 2 ^ 32) (hout : i < start ∨ start + n ≤ i) :
    element mem base i = element mem₀ base i := by
  have hbyte : ∀ k, 2 * i ≤ k → k ≤ 2 * i + 1 → mem (base + UInt64.ofNat k) = mem₀ (base + UInt64.ofNat k) := by
    intro k h1 h2
    refine h.outside _ ?_
    rw [sub_offset base (by omega) (by omega)]
    split <;> omega
  rw [element_eq, element_eq, hbyte _ (Nat.le_refl _) (Nat.le_succ _), hbyte _ (Nat.le_succ _) (Nat.le_refl _)]

end Window

/-! ## The accesses of a run -/

section Accesses

variable {base : UInt64} {n : Nat}

/-- The sixteen bytes of an access contain the byte at `p`. -/
def Covers (a p : UInt64) : Prop := (p - a).toNat < 16

/-- A log that stays inside a window of `n` bytes, loads every byte of it before it is overwritten, and writes it
exactly once. -/
structure OnceEach (base : UInt64) (n : Nat) (log : List (Access UInt64)) : Prop where
  inside : ∀ a ∈ log, ∃ k, k + 16 ≤ n ∧ a.address = base + UInt64.ofNat k
  once : ∀ k < n, ∃ before after a, log = before ++ .store a :: after ∧ Covers a (base + UInt64.ofNat k) ∧
    (∃ b, .load b ∈ before ∧ Covers b (base + UInt64.ofNat k)) ∧
    ∀ b, .store b ∈ before ++ after → ¬Covers b (base + UInt64.ofNat k)

/-- The same of offsets: every access is to a block of sixteen bytes, and every block is loaded and then stored once. -/
def InTurn (n : Nat) (offsets : List (Access Nat)) : Prop :=
  (∀ a ∈ offsets, a.address % 16 = 0 ∧ a.address + 16 ≤ n) ∧
    ∀ b < n / 16, offsets.count (.store (16 * b)) = 1 ∧ offsets.idxOf (.load (16 * b)) < offsets.idxOf (.store (16 * b))

instance (offsets : List (Access Nat)) : Decidable (InTurn n offsets) := inferInstanceAs (Decidable (_ ∧ _))

/-- An access by its offset from a base. -/
def Access.at (base : UInt64) (a : Access Nat) : Access UInt64 := a.map fun k => base + UInt64.ofNat k

/-- An access covers the sixteen bytes from its address on. -/
theorem covers_iff (base : UInt64) {a k : Nat} (ha : a < 2 ^ 33) (hk : k < 2 ^ 33) :
    Covers (base + UInt64.ofNat a) (base + UInt64.ofNat k) ↔ a ≤ k ∧ k < a + 16 := by
  rw [Covers, sub_offset base hk ha]
  split <;> omega

/-- Offsets taken in turn are a log that touches every byte once. -/
theorem InTurn.onceEach {offsets : List (Access Nat)} (h : InTurn n offsets) (hn : n < 2 ^ 33) (hblocks : n % 16 = 0) :
    OnceEach base n (offsets.map (Access.at base)) := by
  obtain ⟨haligned, hturn⟩ := h
  refine ⟨fun a ha => ?_, fun k hk => ?_⟩
  · obtain ⟨b, hb, rfl⟩ := List.mem_map.mp ha
    refine ⟨b.address, (haligned b hb).2, ?_⟩
    cases b <;> rfl
  · have hb : k / 16 < n / 16 := by omega
    obtain ⟨hcount, hfirst⟩ := hturn (k / 16) hb
    have hcovers : ∀ b : Access Nat, b ∈ offsets → (Covers (base + UInt64.ofNat b.address) (base + UInt64.ofNat k) ↔
        b.address = 16 * (k / 16)) := by
      intro b hmem
      obtain ⟨h1, h2⟩ := haligned b hmem
      rw [covers_iff base (by omega) (by omega)]
      omega
    have hstore : .store (16 * (k / 16)) ∈ offsets := List.count_pos_iff.mp (by omega)
    obtain ⟨before, after, hsplit, hbefore⟩ := List.eq_append_cons_of_mem hstore
    have hload : .load (16 * (k / 16)) ∈ before := by
      by_contra hnot
      rw [hsplit, List.idxOf_append, List.idxOf_append, if_neg hbefore, if_neg hnot, List.idxOf_cons_self] at hfirst
      omega
    have hafter : .store (16 * (k / 16)) ∉ after := by
      rw [hsplit, List.count_append, List.count_cons_self, List.count_eq_zero.mpr hbefore] at hcount
      exact List.count_eq_zero.mp (by omega)
    refine ⟨before.map (Access.at base), after.map (Access.at base), base + UInt64.ofNat (16 * (k / 16)), ?_, ?_, ?_, ?_⟩
    · rw [hsplit, List.map_append, List.map_cons]
      rfl
    · exact (hcovers (.store (16 * (k / 16))) hstore).mpr rfl
    · refine ⟨base + UInt64.ofNat (16 * (k / 16)), List.mem_map.mpr ⟨_, hload, rfl⟩, ?_⟩
      exact (hcovers (.store (16 * (k / 16))) hstore).mpr rfl
    · intro b hmem hcov
      rw [← List.map_append] at hmem
      obtain ⟨b', hb', heq⟩ := List.mem_map.mp hmem
      cases b' with
      | load a => exact absurd heq nofun
      | store a =>
        obtain rfl : base + UInt64.ofNat a = b := Access.store.inj heq
        have hmem' : .store a ∈ offsets := by
          rw [hsplit, List.mem_append, List.mem_cons]
          rcases List.mem_append.mp hb' with h | h
          · exact Or.inl h
          · exact Or.inr (Or.inr h)
        obtain rfl : a = 16 * (k / 16) := (hcovers _ hmem').mp hcov
        rcases List.mem_append.mp hb' with h | h
        · exact hbefore h
        · exact hafter h

end Accesses

end A64
