import MlkemSelkie.Lemmas.Neon
import MlkemSelkie.Poly.NeonAsm

/-!
# The assembly stages

A pass of the pipelined loop finishes one pair of windows, multiplies the next one and loads the one behind it. Both
blocks run this schedule with registers of their own: what a pass finds is stated once for the registers `Roles` names,
what one run of each list of instructions does is read off by execution.
-/

namespace MlkemSelkie.Poly.Neon

open A64 NeonLanes

/-! ## The schedule -/

/-- The registers that carry values from pass to pass: the lower windows, the products of the upper windows, and the
upper windows of the next pass. -/
structure Roles where
  lo₀ : Fin 32
  lo₁ : Fin 32
  t₀ : Fin 32
  t₁ : Fin 32
  hi₀ : Fin 32
  hi₁ : Fin 32

/-- The product of the lanes as the instructions compute it. -/
def scaled (m : Machine Operand) (b : Register) : Register := vmlsS16 (vmulS16 b (m.v 28)) (vqrdmulhS16 b (m.v 29)) (m.v 30)

/-- The memory with the sums of two windows stored from an address on. -/
def storeSums (mem : UInt64 → UInt8) (a : UInt64) (lo₀ lo₁ t₀ t₁ : Register) : UInt64 → UInt8 :=
  storeQ (storeQ mem a (vaddS16 lo₀ t₀)) (a + 16) (vaddS16 lo₁ t₁)

/-- The memory with the differences stored. -/
def storeDifferences (mem : UInt64 → UInt8) (a : UInt64) (lo₀ lo₁ t₀ t₁ : Register) : UInt64 → UInt8 :=
  storeQ (storeQ mem a (vsubS16 lo₀ t₀)) (a + 16) (vsubS16 lo₁ t₁)

/-- What one pass over the body does, whatever the machine: `len` is the distance of the windows of a pair, `accesses`
are the offsets of the accesses from the pointer. -/
structure PassEffect (len : Nat) (r : Roles) (accesses : List (Access Nat)) (m m' : Machine Operand) : Prop where
  constants : m'.v 28 = m.v 28 ∧ m'.v 29 = m.v 29 ∧ m'.v 30 = m.v 30
  ptr : m'.x .ptr = m.x .ptr + UInt64.ofNat (2 * 16)
  count : m'.x .x9 = m.x .x9 - 1
  lo : m'.v r.lo₀ = loadQ m.mem (m.x .ptr + UInt64.ofNat (2 * 16)) ∧
    m'.v r.lo₁ = loadQ m.mem (m.x .ptr + UInt64.ofNat (2 * 24))
  t : m'.v r.t₀ = scaled m (m.v r.hi₀) ∧ m'.v r.t₁ = scaled m (m.v r.hi₁)
  hi : m'.v r.hi₀ = loadQ m.mem (m.x .ptr + UInt64.ofNat (2 * (len + 32))) ∧
    m'.v r.hi₁ = loadQ m.mem (m.x .ptr + UInt64.ofNat (2 * (len + 40)))
  mem : m'.mem = storeSums
    (storeDifferences m.mem (m.x .ptr + UInt64.ofNat (2 * len)) (m.v r.lo₀) (m.v r.lo₁) (m.v r.t₀) (m.v r.t₁))
    (m.x .ptr) (m.v r.lo₀) (m.v r.lo₁) (m.v r.t₀) (m.v r.t₁)
  log : m'.log = m.log ++ accesses.map (Access.at (m.x .ptr))

/-- What the exit does: it finishes the pass begun and the one behind it, the first two pairs of stores in either order. -/
structure ExitEffect (len : Nat) (r : Roles) (accesses : List (Access Nat)) (m m' : Machine Operand) : Prop where
  mem : ∃ mem, (mem = storeSums (storeDifferences m.mem (m.x .ptr + UInt64.ofNat (2 * len)) (m.v r.lo₀) (m.v r.lo₁)
    (m.v r.t₀) (m.v r.t₁)) (m.x .ptr) (m.v r.lo₀) (m.v r.lo₁) (m.v r.t₀) (m.v r.t₁) ∨
      mem = storeDifferences (storeSums m.mem (m.x .ptr) (m.v r.lo₀) (m.v r.lo₁) (m.v r.t₀) (m.v r.t₁))
        (m.x .ptr + UInt64.ofNat (2 * len)) (m.v r.lo₀) (m.v r.lo₁) (m.v r.t₀) (m.v r.t₁)) ∧
    m'.mem = storeSums (storeDifferences mem (m.x .ptr + UInt64.ofNat (2 * (16 + len)))
        (loadQ m.mem (m.x .ptr + UInt64.ofNat (2 * 16))) (loadQ m.mem (m.x .ptr + UInt64.ofNat (2 * 24)))
        (scaled m (m.v r.hi₀)) (scaled m (m.v r.hi₁)))
      (m.x .ptr + UInt64.ofNat (2 * 16)) (loadQ m.mem (m.x .ptr + UInt64.ofNat (2 * 16)))
      (loadQ m.mem (m.x .ptr + UInt64.ofNat (2 * 24))) (scaled m (m.v r.hi₀)) (scaled m (m.v r.hi₁))
  log : m'.log = m.log ++ accesses.map (Access.at (m.x .ptr))

/-! ## The values of a pass -/

section Values

variable (mem : UInt64 → UInt8) (base : UInt64) (zeta zetaBar : Int16) (len : Nat)

/-- The eight elements from `j` on. -/
def quad (j : Nat) : Register := loadQ mem (base + UInt64.ofNat (2 * j))

/-- The product of the lanes with the zeta. -/
def product (b : Register) : Register := barrettConstMul b (vdupNS16 zeta) (vdupNS16 zetaBar)

/-- The product of one word. -/
def productWord (x : Int16) : Int16 := x * zeta - qrdmulh16 x zetaBar * q

/-- A lane of the product with a zeta. -/
theorem product_getElem (b : Register) (l : Nat) (hl : l < 8) :
    (product zeta zetaBar b)[l] = productWord zeta zetaBar b[l] := by
  simp only [product, productWord, barrettConstMul, vmlsS16_getElem, vmulS16_getElem, vqrdmulhS16_getElem, vdupNS16_getElem]

/-- What the element `i` of a window of two halves holds after the stage. -/
def target (i : Nat) : Int16 :=
  if i < len then element mem base i + productWord zeta zetaBar (element mem base (i + len))
  else element mem base (i - len) - productWord zeta zetaBar (element mem base i)

/-- The sums of two windows are the target of the lower one. -/
theorem target_lower {j : Nat} (hj : j + 8 ≤ len) (l : Nat) (hl : l < 8) :
    (vaddS16 (quad mem base j) (product zeta zetaBar (quad mem base (j + len))))[l]! =
      target mem base zeta zetaBar len (j + l) := by
  have hupper : j + len + l = j + l + len := by omega
  rw [getElem!_pos _ l hl, vaddS16_getElem _ _ _ hl, product_getElem, ← getElem!_pos _ l hl, ← getElem!_pos _ l hl,
    quad, quad, loadQ_getElem! _ _ _ _ hl, loadQ_getElem! _ _ _ _ hl, hupper, target, if_pos (by omega)]

/-- The differences are the target of the upper one. -/
theorem target_upper {j j' : Nat} (hj : j' = j + len) (l : Nat) (hl : l < 8) :
    (vsubS16 (quad mem base j) (product zeta zetaBar (quad mem base (j + len))))[l]! =
      target mem base zeta zetaBar len (j' + l) := by
  have hlower : j + len + l - len = j + l := by omega
  rw [hj, getElem!_pos _ l hl, vsubS16_getElem _ _ _ hl, product_getElem, ← getElem!_pos _ l hl, ← getElem!_pos _ l hl,
    quad, quad, loadQ_getElem! _ _ _ _ hl, loadQ_getElem! _ _ _ _ hl, target, if_neg (by omega), hlower]

variable {mem base zeta zetaBar len}

variable {mem' : UInt64 → UInt8} {D : Nat → Prop}

/-- The differences of two windows stored. -/
theorem written_differences (h : Written base (2 * len) (target mem base zeta zetaBar len) mem D mem') (hlen : len < 2 ^ 31)
    (j : Nat) (hj : j + 16 ≤ len) :
    Written base (2 * len) (target mem base zeta zetaBar len) mem (fun i => D i ∨ (j + len ≤ i ∧ i < j + len + 16))
      (storeDifferences mem' (base + UInt64.ofNat (2 * (j + len))) (quad mem base j) (quad mem base (j + 8))
        (product zeta zetaBar (quad mem base (j + len))) (product zeta zetaBar (quad mem base (j + 8 + len)))) :=
  h.storePair (by omega) (by omega) (target_upper mem base zeta zetaBar len rfl)
    (target_upper mem base zeta zetaBar len (by omega))

/-- The sums stored. -/
theorem written_sums (h : Written base (2 * len) (target mem base zeta zetaBar len) mem D mem') (hlen : len < 2 ^ 31)
    (j : Nat) (hj : j + 16 ≤ len) :
    Written base (2 * len) (target mem base zeta zetaBar len) mem (fun i => D i ∨ (j ≤ i ∧ i < j + 16))
      (storeSums mem' (base + UInt64.ofNat (2 * j)) (quad mem base j) (quad mem base (j + 8))
        (product zeta zetaBar (quad mem base (j + len))) (product zeta zetaBar (quad mem base (j + 8 + len)))) :=
  h.storePair (by omega) (by omega) (target_lower mem base zeta zetaBar len (by omega))
    (target_lower mem base zeta zetaBar len (by omega))

end Values

/-! ## The invariant -/

/-- Accesses at offsets `d` further on. -/
def shifted (d : Nat) (accesses : List (Access Nat)) : List (Access Nat) := accesses.map (Access.map (d + ·))

/-- Accesses from a base that is moved on. -/
theorem at_shifted (base : UInt64) (d : Nat) (accesses : List (Access Nat)) :
    (shifted d accesses).map (Access.at base) = accesses.map (Access.at (base + UInt64.ofNat d)) := by
  rw [shifted, List.map_map]
  refine List.map_congr_left fun a _ => ?_
  have hshift : ∀ k, base + UInt64.ofNat (d + k) = base + UInt64.ofNat d + UInt64.ofNat k := by
    intro k
    rw [UInt64.ofNat_add, UInt64.add_assoc]
  cases a with
  | load k => exact congrArg Access.load (hshift k)
  | store k => exact congrArg Access.store (hshift k)

/-- The accesses behind the entry and `k` passes. -/
def accessesUpTo (entry body : List (Access Nat)) (k : Nat) : List (Access Nat) :=
  entry ++ (List.range k).flatMap fun i => shifted (2 * (16 * i)) body

section Invariant

variable (mem₀ : UInt64 → UInt8) (base : UInt64) (zeta zetaBar : Int16) (len : Nat) (r : Roles)
  (entry body : List (Access Nat))

/-- The elements written after `k` passes. -/
def Passed (len k i : Nat) : Prop := i < 16 * k ∨ (len ≤ i ∧ i < len + 16 * k)

/-- What holds when `k` of `c` passes are behind. -/
structure Pipeline (c k : Nat) (m : Machine Operand) : Prop where
  constants : m.v 28 = vdupNS16 zeta ∧ m.v 29 = vdupNS16 zetaBar ∧ m.v 30 = vdupNS16 q
  ptr : m.x .ptr = base + UInt64.ofNat (2 * (16 * k))
  count : m.x .x9 = UInt64.ofNat (c - k)
  lo : m.v r.lo₀ = quad mem₀ base (16 * k) ∧ m.v r.lo₁ = quad mem₀ base (16 * k + 8)
  t : m.v r.t₀ = product zeta zetaBar (quad mem₀ base (16 * k + len)) ∧
    m.v r.t₁ = product zeta zetaBar (quad mem₀ base (16 * k + 8 + len))
  hi : m.v r.hi₀ = quad mem₀ base (16 * (k + 1) + len) ∧ m.v r.hi₁ = quad mem₀ base (16 * (k + 1) + 8 + len)
  mem : Written base (2 * len) (target mem₀ base zeta zetaBar len) mem₀ (Passed len k) m.mem
  log : m.log = (accessesUpTo entry body k).map (Access.at base)

variable {mem₀ base zeta zetaBar len r entry body} {c k : Nat} {m m' : Machine Operand}

/-- The product that the pipeline has in flight. -/
theorem Pipeline.scaled_eq (h : Pipeline mem₀ base zeta zetaBar len r entry body c k m) (b : Register) :
    scaled m b = product zeta zetaBar b := by
  obtain ⟨h28, h29, h30⟩ := h.constants
  rw [scaled, h28, h29, h30]
  rfl

/-- The counter is zero behind the last pass only. -/
theorem Pipeline.count_zero (h : Pipeline mem₀ base zeta zetaBar len r entry body c k m) (hc : c < 2 ^ 20) (hk : k ≤ c) :
    m.x .x9 = 0 ↔ k = c := by
  rw [h.count, ← UInt64.toNat_inj, UInt64.toNat_ofNat', Nat.mod_eq_of_lt (by omega), UInt64.toNat_zero]
  omega

/-- A load ahead of the passes finds the window as it was. -/
theorem Pipeline.load (h : Pipeline mem₀ base zeta zetaBar len r entry body c k m) {d j : Nat} (hd : j = 16 * k + d)
    (hj : j + 8 ≤ 2 * len) (hahead : ∀ l < 8, ¬Passed len k (j + l)) :
    loadQ m.mem (m.x .ptr + UInt64.ofNat (2 * d)) = quad mem₀ base j := by
  rw [h.ptr, offset_add, ← hd, h.mem.load hj hahead]
  rfl

/-- A pass keeps the invariant. -/
theorem Pipeline.pass (h : Pipeline mem₀ base zeta zetaBar len r entry body c k m) (hlen : len = 16 * (c + 2))
    (hc : c < 2 ^ 20)
    (hk : k < c) (effect : PassEffect len r body m m') : Pipeline mem₀ base zeta zetaBar len r entry body c (k + 1) m' := by
  obtain ⟨e28, e29, e30⟩ := effect.constants
  obtain ⟨elo₀, elo₁⟩ := effect.lo
  obtain ⟨et₀, et₁⟩ := effect.t
  obtain ⟨ehi₀, ehi₁⟩ := effect.hi
  obtain ⟨hlo₀, hlo₁⟩ := h.lo
  obtain ⟨ht₀, ht₁⟩ := h.t
  obtain ⟨hhi₀, hhi₁⟩ := h.hi
  refine ⟨?_, ?_, ?_, ⟨?_, ?_⟩, ⟨?_, ?_⟩, ⟨?_, ?_⟩, ?_, ?_⟩
  · rw [e28, e29, e30]
    exact h.constants
  · rw [effect.ptr, h.ptr, offset_add]
    rfl
  · rw [effect.count, h.count]
    exact (UInt64.ofNat_sub (by omega : 1 ≤ c - k)).symm
  · rw [elo₀]
    exact h.load rfl (by omega) fun l hl hd => by rw [Passed] at hd; omega
  · rw [elo₁]
    exact h.load (by omega) (by omega) fun l hl hd => by rw [Passed] at hd; omega
  · rw [et₀, h.scaled_eq, hhi₀]
  · rw [et₁, h.scaled_eq, hhi₁]
  · rw [ehi₀]
    exact h.load (by omega) (by omega) fun l hl hd => by rw [Passed] at hd; omega
  · rw [ehi₁]
    exact h.load (by omega) (by omega) fun l hl hd => by rw [Passed] at hd; omega
  · rw [effect.mem, hlo₀, hlo₁, ht₀, ht₁, h.ptr, offset_add]
    have hupper := written_differences h.mem (by omega) (16 * k) (by omega)
    refine (written_sums hupper (by omega) (16 * k) (by omega)).congr fun i _ => ?_
    simp only [Passed]
    omega
  · rw [effect.log, h.log, h.ptr, ← at_shifted, ← List.map_append, accessesUpTo, accessesUpTo, List.range_succ,
      List.flatMap_append, List.flatMap_singleton, List.append_assoc]

/-- The exit finishes the stage. -/
theorem Pipeline.exit (h : Pipeline mem₀ base zeta zetaBar len r entry body c c m) (hlen : len = 16 * (c + 2))
    (hc : c < 2 ^ 20)
    {accesses : List (Access Nat)} (effect : ExitEffect len r accesses m m') :
    Written base (2 * len) (target mem₀ base zeta zetaBar len) mem₀ (fun _ => True) m'.mem ∧
      m'.log = (accessesUpTo entry body c ++ shifted (2 * (16 * c)) accesses).map (Access.at base) := by
  obtain ⟨⟨mem, horder, hmem⟩, hlog⟩ := effect
  obtain ⟨hlo₀, hlo₁⟩ := h.lo
  obtain ⟨ht₀, ht₁⟩ := h.t
  obtain ⟨hhi₀, hhi₁⟩ := h.hi
  refine ⟨?_, ?_⟩
  · -- the pass begun, its stores in either order
    have hfirst : Written base (2 * len) (target mem₀ base zeta zetaBar len) mem₀ (Passed len (c + 1)) mem := by
      rw [hlo₀, hlo₁, ht₀, ht₁, h.ptr, offset_add] at horder
      rcases horder with rfl | rfl
      · have hupper := written_differences h.mem (by omega) (16 * c) (by omega)
        refine (written_sums hupper (by omega) (16 * c) (by omega)).congr fun i _ => ?_
        simp only [Passed]
        omega
      · have hlower := written_sums h.mem (by omega) (16 * c) (by omega)
        refine (written_differences hlower (by omega) (16 * c) (by omega)).congr fun i _ => ?_
        simp only [Passed]
        omega
    have hload₀ : loadQ m.mem (m.x .ptr + UInt64.ofNat (2 * 16)) = quad mem₀ base (16 * (c + 1)) :=
      h.load rfl (by omega) fun l hl hd => by rw [Passed] at hd; omega
    have hload₁ : loadQ m.mem (m.x .ptr + UInt64.ofNat (2 * 24)) = quad mem₀ base (16 * (c + 1) + 8) :=
      h.load (by omega) (by omega) fun l hl hd => by rw [Passed] at hd; omega
    have hnext : 16 * c + (16 + len) = 16 * (c + 1) + len := by omega
    rw [hmem, hload₀, hload₁, h.scaled_eq, h.scaled_eq, hhi₀, hhi₁, h.ptr, offset_add, offset_add, hnext]
    have hupper := written_differences hfirst (by omega) (16 * (c + 1)) (by omega)
    refine (written_sums hupper (by omega) (16 * (c + 1)) (by omega)).congr fun i hi => ?_
    simp only [Passed, iff_true]
    omega
  · rw [hlog, h.log, h.ptr, ← at_shifted, ← List.map_append]

end Invariant

/-! ## The operands on entry -/

section Entry

variable (m : Machine Operand) (ptr : UInt64) (zeta zetaBar : Int16)

/-- The low half of an operand is the word passed. -/
theorem operand_word (upper : UInt64) (a : Int16) :
    (UInt64.ofNat (upper.toNat / 2 ^ 32 * 2 ^ 32 + a.toInt32.toUInt32.toNat)).toUInt16.toInt16 = a := by
  have hsign : a.toInt32.toUInt32.toNat = (a.toBitVec.setWidth 32).toNat + if a.toBitVec.msb then 2 ^ 32 - 2 ^ 16 else 0 :=
    BitVec.toNat_signExtend a.toBitVec
  have hlow : (a.toBitVec.setWidth 32).toNat = a.toBitVec.toNat := BitVec.toNat_setWidth_of_le (by decide)
  have hlt := a.toBitVec.isLt
  refine Int16.toBitVec_inj.mp (BitVec.eq_of_toNat_eq ?_)
  show (UInt64.ofNat _).toUInt16.toNat = _
  rw [UInt64.toNat_toUInt16, UInt64.toNat_ofNat', hsign, hlow]
  split <;> omega

/-- The pointer operand on entry. -/
@[simp] theorem enter_ptr : (enter m ptr zeta zetaBar).x .ptr = ptr := rfl

@[simp] theorem enter_zeta : ((enter m ptr zeta zetaBar).x .zeta).toUInt16.toInt16 = zeta := operand_word _ zeta

@[simp] theorem enter_zbar : ((enter m ptr zeta zetaBar).x .zbar).toUInt16.toInt16 = zetaBar := operand_word _ zetaBar

@[simp] theorem enter_mem : (enter m ptr zeta zetaBar).mem = m.mem := rfl

@[simp] theorem enter_log : (enter m ptr zeta zetaBar).log = [] := rfl

/-- No element is written on entry. -/
theorem written_entry (mem : UInt64 → UInt8) (base : UInt64) (len : Nat) :
    Written base (2 * len) (target mem base zeta zetaBar len) mem (Passed len 0) mem :=
  written_start.congr fun i _ => by simp [Passed]

end Entry

/-! ## The blocks -/

namespace Stride128

def roles : Roles := ⟨0, 25, 21, 26, 16, 17⟩

def bodyAccesses : List (Access Nat) :=
  [.load 320, .load 336, .load 32, .load 48, .store 256, .store 272, .store 0, .store 16]

/-- What a pass over the body of the first stage does. -/
theorem body_effect (m : Machine Operand) : PassEffect 128 roles bodyAccesses m (runOps body m) where
  constants := by simp [runOps, body, Op.run]
  ptr := by simp [runOps, body, Op.run]
  count := by simp [runOps, body, Op.run]
  lo := by simp [runOps, body, Op.run, roles, UInt64.add_assoc]
  t := by simp [runOps, body, Op.run, roles, scaled]
  hi := by simp [runOps, body, Op.run, roles, UInt64.add_assoc]
  mem := by simp [runOps, body, Op.run, roles, storeSums, storeDifferences]
  log := by simp [runOps, body, Op.run, bodyAccesses, Access.at, Access.map, UInt64.add_assoc]

def entryAccesses : List (Access Nat) := [.load 288, .load 304, .load 256, .load 272, .load 0, .load 16]

def exitAccesses : List (Access Nat) :=
  [.load 32, .load 48, .store 256, .store 272, .store 0, .store 16, .store 288, .store 304, .store 32, .store 48]

/-- What the exit of the first stage does. -/
theorem exit_effect (m : Machine Operand) : ExitEffect 128 roles exitAccesses m (runOps exit m) where
  mem := by
    refine ⟨_, Or.inl rfl, ?_⟩
    simp [runOps, exit, Op.run, roles, storeSums, storeDifferences, scaled, UInt64.add_assoc]
  log := by simp [runOps, exit, Op.run, exitAccesses, Access.at, Access.map, UInt64.add_assoc]

/-- The entry starts the pipeline. -/
theorem entry_pipeline (m : Machine Operand) (ptr : UInt64) (zeta zetaBar : Int16) :
    Pipeline m.mem ptr zeta zetaBar 128 roles entryAccesses bodyAccesses 6 0 (runOps entry (enter m ptr zeta zetaBar)) where
  constants := by simp [runOps, entry, Op.run, q]
  ptr := by simp [runOps, entry, Op.run]
  count := by simp [runOps, entry, Op.run]
  lo := by simp [runOps, entry, Op.run, roles, quad]
  t := by simp [runOps, entry, Op.run, roles, quad, product, barrettConstMul, q, UInt64.add_assoc]
  hi := by simp [runOps, entry, Op.run, roles, quad, UInt64.add_assoc]
  mem := by
    have hmem : (runOps entry (enter m ptr zeta zetaBar)).mem = m.mem := by simp [runOps, entry, Op.run]
    exact hmem ▸ written_entry zeta zetaBar m.mem ptr 128
  log := by simp [runOps, entry, Op.run, entryAccesses, accessesUpTo, Access.at, Access.map, UInt64.add_assoc]

/-- The block leaves with the stage done, and with the accesses of the schedule. -/
theorem leaves (m : Machine Operand) (ptr : UInt64) (zeta zetaBar : Int16) :
    ∃ m', Leaves nttStride128Asm (enter m ptr zeta zetaBar) m' ∧
    Written ptr (2 * 128) (target m.mem ptr zeta zetaBar 128) m.mem (fun _ => True) m'.mem ∧
    m'.log = (accessesUpTo entryAccesses bodyAccesses 6 ++ shifted (2 * (16 * 6)) exitAccesses).map (Access.at ptr) := by
  obtain ⟨m', hm', hleaves⟩ := leaves_loop entry body .x9 exit
    (Pipeline m.mem ptr zeta zetaBar 128 roles entryAccesses bodyAccesses 6) (by decide : 0 < 6)
    (entry_pipeline m ptr zeta zetaBar) (fun k hk m hm => hm.pass (by decide) (by decide) hk (body_effect m))
      fun k hk m hm =>
      hm.count_zero (by decide) hk
  exact ⟨_, hleaves, hm'.exit (by decide) (by decide) (exit_effect m')⟩

end Stride128

namespace Stride64

def roles : Roles := ⟨6, 27, 24, 18, 19, 4⟩

def bodyAccesses : List (Access Nat) :=
  [.load 32, .load 48, .load 192, .load 208, .store 128, .store 144, .store 0, .store 16]

/-- What a pass over the body of the second stage does. -/
theorem body_effect (m : Machine Operand) : PassEffect 64 roles bodyAccesses m (runOps body m) where
  constants := by simp [runOps, body, Op.run]
  ptr := by simp [runOps, body, Op.run]
  count := by simp [runOps, body, Op.run]
  lo := by simp [runOps, body, Op.run, roles, UInt64.add_assoc]
  t := by simp [runOps, body, Op.run, roles, scaled]
  hi := by simp [runOps, body, Op.run, roles, UInt64.add_assoc]
  mem := by simp [runOps, body, Op.run, roles, storeSums, storeDifferences]
  log := by simp [runOps, body, Op.run, bodyAccesses, Access.at, Access.map, UInt64.add_assoc]

def entryAccesses : List (Access Nat) := [.load 0, .load 16, .load 128, .load 144, .load 160, .load 176]

def exitAccesses : List (Access Nat) :=
  [.load 32, .load 48, .store 0, .store 16, .store 128, .store 144, .store 160, .store 176, .store 32, .store 48]

/-- What the exit of the second stage does. -/
theorem exit_effect (m : Machine Operand) : ExitEffect 64 roles exitAccesses m (runOps exit m) where
  mem := by
    refine ⟨_, Or.inr rfl, ?_⟩
    simp [runOps, exit, Op.run, roles, storeSums, storeDifferences, scaled, UInt64.add_assoc]
  log := by simp [runOps, exit, Op.run, exitAccesses, Access.at, Access.map, UInt64.add_assoc]

/-- The entry starts the pipeline. -/
theorem entry_pipeline (m : Machine Operand) (ptr : UInt64) (zeta zetaBar : Int16) :
    Pipeline m.mem ptr zeta zetaBar 64 roles entryAccesses bodyAccesses 2 0 (runOps entry (enter m ptr zeta zetaBar)) where
  constants := by simp [runOps, entry, Op.run, q]
  ptr := by simp [runOps, entry, Op.run]
  count := by simp [runOps, entry, Op.run]
  lo := by simp [runOps, entry, Op.run, roles, quad]
  t := by simp [runOps, entry, Op.run, roles, quad, product, barrettConstMul, q, UInt64.add_assoc]
  hi := by simp [runOps, entry, Op.run, roles, quad, UInt64.add_assoc]
  mem := by
    have hmem : (runOps entry (enter m ptr zeta zetaBar)).mem = m.mem := by simp [runOps, entry, Op.run]
    exact hmem ▸ written_entry zeta zetaBar m.mem ptr 64
  log := by simp [runOps, entry, Op.run, entryAccesses, accessesUpTo, Access.at, Access.map, UInt64.add_assoc]

/-- The block leaves with the stage done, and with the accesses of the schedule. -/
theorem leaves (m : Machine Operand) (ptr : UInt64) (zeta zetaBar : Int16) :
    ∃ m', Leaves nttStride64GroupAsm (enter m ptr zeta zetaBar) m' ∧
    Written ptr (2 * 64) (target m.mem ptr zeta zetaBar 64) m.mem (fun _ => True) m'.mem ∧
    m'.log = (accessesUpTo entryAccesses bodyAccesses 2 ++ shifted (2 * (16 * 2)) exitAccesses).map (Access.at ptr) := by
  obtain ⟨m', hm', hleaves⟩ := leaves_loop entry body .x9 exit
    (Pipeline m.mem ptr zeta zetaBar 64 roles entryAccesses bodyAccesses 2) (by decide : 0 < 2)
    (entry_pipeline m ptr zeta zetaBar) (fun k hk m hm => hm.pass (by decide) (by decide) hk (body_effect m))
      fun k hk m hm =>
      hm.count_zero (by decide) hk
  exact ⟨_, hleaves, hm'.exit (by decide) (by decide) (exit_effect m')⟩

end Stride64

end MlkemSelkie.Poly.Neon
