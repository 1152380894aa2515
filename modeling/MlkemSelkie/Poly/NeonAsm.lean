import MlkemSelkie.Lib.A64
import MlkemSelkie.Poly.Arch

/-!
# The assembly stages

The two inline assembly blocks of `algebraic/poly/arch/neon.rs`, instruction by instruction: what the source calls
prologue and preamble is the entry of the loop program, its body ends in `cbnz x9, 2b`, and the postamble is the exit.
-/

namespace MlkemSelkie.Poly.Neon

open A64 Op

/-- The operands of the blocks: the pointer, the two words and the loop counter. -/
inductive Operand where
  | ptr
  | zeta
  | zbar
  | x9
  deriving DecidableEq

/-- The machine on entry of a block: the words are passed as `u32`, which says nothing of the upper halves of their
registers. -/
def enter (m : Machine Operand) (ptr : UInt64) (zeta zetaBar : Int16) : Machine Operand :=
  let operand (upper : UInt64) (a : Int16) : UInt64 :=
    UInt64.ofNat (upper.toNat / 2 ^ 32 * 2 ^ 32 + a.toInt32.toUInt32.toNat)
  { m with
    x := fun
      | .ptr => ptr
      | .zeta => operand (m.x .zeta) zeta
      | .zbar => operand (m.x .zbar) zetaBar
      | .x9 => m.x .x9
    log := [] }

namespace Stride64

def entry : List (Op Operand) := [
  -- the constants and the iteration count
  dup 28 .zeta,
  dup 29 .zbar,
  movW .x9 3329,
  dup 30 .x9,
  movX .x9 4,
  -- the preamble
  ldp 6 27 .ptr 0,
  ldp 19 3 .ptr 128,
  sqrdmulh 7 3 29,
  sqrdmulh 4 19 29,
  mul 18 3 28,
  mul 24 19 28,
  mls 24 4 30,
  ldp 19 4 .ptr 160,
  mls 18 7 30,
  subX .x9 .x9 2]

def body : List (Op Operand) := [
  add 1 27 18,
  sub 22 27 18,
  mul 18 4 28,
  sqrdmulh 7 4 29,
  add 21 6 24,
  sub 17 6 24,
  ldp 6 27 .ptr 32,
  mul 24 19 28,
  sqrdmulh 3 19 29,
  ldp 19 4 .ptr 192,
  stp 17 22 .ptr 128,
  mls 18 7 30,
  mls 24 3 30,
  stpPost 21 1 .ptr 32,
  subX .x9 .x9 1]

def exit : List (Op Operand) := [
  mul 7 4 28,
  sqrdmulh 26 4 29,
  ldp 17 23 .ptr 32,
  mul 4 19 28,
  sqrdmulh 20 19 29,
  add 22 27 18,
  sub 2 27 18,
  add 3 6 24,
  mls 7 26 30,
  mls 4 20 30,
  sub 0 6 24,
  stpPost 3 22 .ptr 32,
  stp 0 2 .ptr 96,
  add 16 23 7,
  sub 5 23 7,
  add 25 17 4,
  sub 6 17 4,
  stp 6 5 .ptr 128,
  stpPost 25 16 .ptr 32]

end Stride64

/-- `ntt_stride64_group_asm`. -/
def nttStride64GroupAsm : List (Instr Operand) := loopProgram Stride64.entry Stride64.body .x9 Stride64.exit

namespace Stride128

def entry : List (Op Operand) := [
  -- the constants and the iteration count
  dup 28 .zeta,
  dup 29 .zbar,
  movW .x9 3329,
  dup 30 .x9,
  movX .x9 8,
  -- the preamble
  ldp 16 17 .ptr 288,
  ldp 4 25 .ptr 256,
  mul 21 4 28,
  sqrdmulh 23 25 29,
  sqrdmulh 0 4 29,
  mul 26 25 28,
  mls 26 23 30,
  mls 21 0 30,
  ldp 0 25 .ptr 0,
  subX .x9 .x9 2]

def body : List (Op Operand) := [
  sqrdmulh 23 17 29,
  sub 18 25 26,
  add 4 25 26,
  mul 26 17 28,
  sqrdmulh 2 16 29,
  sub 5 0 21,
  add 22 0 21,
  mul 21 16 28,
  ldp 16 17 .ptr 320,
  ldp 0 25 .ptr 32,
  mls 26 23 30,
  mls 21 2 30,
  stp 5 18 .ptr 256,
  stpPost 22 4 .ptr 32,
  subX .x9 .x9 1]

def exit : List (Op Operand) := [
  sqrdmulh 18 17 29,
  mul 23 17 28,
  sqrdmulh 19 16 29,
  mul 17 16 28,
  sub 7 0 21,
  add 21 0 21,
  ldp 0 27 .ptr 32,
  sub 24 25 26,
  mls 23 18 30,
  mls 17 19 30,
  add 3 25 26,
  stp 7 24 .ptr 256,
  stpPost 21 3 .ptr 32,
  sub 6 27 23,
  add 1 27 23,
  add 20 0 17,
  sub 0 0 17,
  stp 0 6 .ptr 256,
  stpPost 20 1 .ptr 32]

end Stride128

/-- `ntt_stride128_asm`. -/
def nttStride128Asm : List (Instr Operand) := loopProgram Stride128.entry Stride128.body .x9 Stride128.exit

end MlkemSelkie.Poly.Neon
