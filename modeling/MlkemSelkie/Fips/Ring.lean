import Mathlib.Data.ZMod.Basic
import MlkemSelkie.Lib.Loops
import MlkemSelkie.Lib.Ntt

/-!
# The rings of FIPS 203

Polynomials over the exact field of 3329 elements, the number-theoretic transform and its inverse as Algorithms 9 and 10
write them, and the multiplication of Algorithms 11 and 12.
-/

namespace Fips203

open Loops

/-- The field of 3329 elements. -/
abbrev Zq : Type := ZMod 3329

/-- A polynomial of degree below 256: an element of `Zq[X]/(X^256 + 1)`, by its coefficients. -/
abbrev Rq : Type := Fin 256 → Zq

/-- An element of the transformed ring, by its 256 integers. -/
abbrev Tq : Type := Fin 256 → Zq

/-- The coefficients as a sequence, zero past the end. -/
def seq (f : Fin 256 → Zq) (i : Nat) : Zq := if h : i < 256 then f ⟨i, h⟩ else 0

/-- A primitive 256-th root of unity. -/
def zeta : Zq := 17

/-- The reversal of a 7-bit number. -/
def bitRev7 (r : Nat) : Nat := ((List.range 7).map fun j => r / 2 ^ j % 2 * 2 ^ (6 - j)).sum

/-- The strides of the stages of Algorithm 9. -/
def strides : List Nat := [128, 64, 32, 16, 8, 4, 2]

/-- Algorithm 9: `NTT`. -/
def ntt (f : Rq) : Tq :=
  let butterfly (z : Zq) (len : Nat) (f : Vector Zq 256) (j : Nat) : Vector Zq 256 :=
    let t := z * f[j + len]!
    let f := f.set! (j + len) (f[j]! - t)
    f.set! j (f[j]! + t)
  let stage (s : Nat × Vector Zq 256) (len : Nat) : Nat × Vector Zq 256 :=
    (stepBy 256 (2 * len)).foldl (fun s start =>
      (s.1 + 1, (List.range' start len).foldl (butterfly (zeta ^ bitRev7 s.1) len) s.2)) s
  fun i => (strides.foldl stage (1, Vector.ofFn f)).2[i]

/-- Algorithm 10: the inverse of `NTT`. -/
def nttInverse (f : Tq) : Rq :=
  let butterfly (z : Zq) (len : Nat) (f : Vector Zq 256) (j : Nat) : Vector Zq 256 :=
    let t := f[j]!
    let f := f.set! j (t + f[j + len]!)
    f.set! (j + len) (z * (f[j + len]! - t))
  let stage (s : Nat × Vector Zq 256) (len : Nat) : Nat × Vector Zq 256 :=
    (stepBy 256 (2 * len)).foldl (fun s start =>
      (s.1 - 1, (List.range' start len).foldl (butterfly (zeta ^ bitRev7 s.1) len) s.2)) s
  fun i => (strides.reverse.foldl stage (127, Vector.ofFn f)).2[i] * 3303

/-- The root of the factor `i`: `zeta^(2 BitRev7(i) + 1)`. -/
def gamma (i : Nat) : Zq := zeta ^ (2 * bitRev7 i + 1)

/-- Algorithms 11 and 12: the product of two transformed elements. -/
def multiplyNtts (f g : Tq) : Tq := fun k =>
  let i := k.val / 2
  if k.val % 2 = 0 then seq f (2 * i) * seq g (2 * i) + seq f (2 * i + 1) * seq g (2 * i + 1) * gamma i
  else seq f (2 * i) * seq g (2 * i + 1) + seq f (2 * i + 1) * seq g (2 * i)

/-- The product of two polynomials modulo `X^256 + 1`. -/
def multiply (f g : Rq) : Rq := fun k => Ntt.negacyclic 256 (seq f) (seq g) k

end Fips203
