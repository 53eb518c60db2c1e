/-
  Crows.Lib.ByteField — bytes as the field of 256 elements.

  A byte is a polynomial over the two-element field, its bit `i` the coefficient of x^i.
  `fieldMul` is the product modulo x^8 + x^4 + x^3 + x + 1, and `fieldInv` the inverse
  (`fieldMul_fieldInv`), which takes 0 to 0. All of it computes.
-/

import Mathlib

namespace Crows.Lib

/-- The product of two polynomials, unreduced; `b / 2 ^ i % 2` is a coefficient. -/
def polyMul (a b : Nat) : Nat :=
  Nat.fold 8 (fun i _ acc => acc ^^^ (b / 2 ^ i % 2) * (a * 2 ^ i)) 0

/-- Modulo x^8 + x^4 + x^3 + x + 1, from the coefficient of x^14 down. -/
def polyMod (p : Nat) : Nat :=
  Nat.fold 7 (fun i _ p => p ^^^ (p / 2 ^ (14 - i) % 2) * (0x11b * 2 ^ (6 - i))) p

def fieldMul (a b : UInt8) : UInt8 := UInt8.ofNat (polyMod (polyMul a.toNat b.toNat))

def fieldPow (b : UInt8) : Nat → UInt8
  | 0 => 1
  | n + 1 => fieldMul b (fieldPow b n)

/-- The power 254, by squares. -/
def fieldInv (b : UInt8) : UInt8 :=
  let square := fun c => fieldMul c c
  let b2 := square b
  let b3 := fieldMul b2 b
  let b12 := square (square b3)
  let b15 := fieldMul b12 b3
  fieldMul (square (square (square (square b15)))) (fieldMul b12 b2)

theorem fieldMul_fieldInv : ∀ b : UInt8, b ≠ 0 → fieldMul b (fieldInv b) = 1 := by
  decide +kernel

end Crows.Lib
