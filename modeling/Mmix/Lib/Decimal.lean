import Mathlib
/-!
# Decimal digits

The number that a sequence of decimal digits denotes, read from the left behind a
number that has been read before.
-/

namespace Mmix.Decimal

/-- A decimal digit. -/
abbrev IsDigit (c : UInt8) : Prop := 48 ≤ c ∧ c ≤ 57

/-- The number that digits denote behind a number read before. -/
def digitsValue (val : Nat) (g : List UInt8) : Nat :=
  g.foldl (fun v c => v * 10 + (c.toNat - 48)) val

@[simp] theorem digitsValue_nil (val : Nat) : digitsValue val [] = val := rfl

theorem digitsValue_cons (val : Nat) (c : UInt8) (g : List UInt8) :
    digitsValue val (c :: g) = digitsValue (val * 10 + (c.toNat - 48)) g := by
  rw [digitsValue, List.foldl_cons, digitsValue]

theorem digitsValue_concat (val : Nat) (g : List UInt8) (c : UInt8) :
    digitsValue val (g ++ [c]) = digitsValue val g * 10 + (c.toNat - 48) := by
  rw [digitsValue, List.foldl_append, List.foldl_cons, List.foldl_nil, digitsValue]

theorem le_digitsValue (val : Nat) (g : List UInt8) : val ≤ digitsValue val g := by
  induction g generalizing val with
  | nil => exact Nat.le_refl val
  | cons c g ih =>
    have h := ih (val * 10 + (c.toNat - 48))
    rw [digitsValue_cons]
    omega

end Mmix.Decimal
