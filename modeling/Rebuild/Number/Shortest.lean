import Rebuild.Number.Binary64

/-!
# Shortest decimals

The decimal with the fewest digits that reads back as a given number. On each
grid of decimals the two neighbours of the number are tried. If both read
back, the nearer one is taken, and of two equally near ones the even one.
-/

set_option autoImplicit false

namespace Rebuild

structure Decimal where
  digits : Nat
  exponent : Int
  deriving DecidableEq, Repr

namespace Decimal

def toBinary64 (d : Decimal) : Binary64 := .ofDecimal false d.digits d.exponent

def dropZeros : Nat → Decimal → Decimal
  | 0, d => d
  | places + 1, d =>
    if d.digits ≠ 0 ∧ d.digits % 10 = 0 then dropZeros places ⟨d.digits / 10, d.exponent + 1⟩
    else d

/-- The largest `p` with `10 ^ p` at most `units / 2 ^ 1074`, for a positive count. -/
def leadingPlace (units : Nat) : Int :=
  ((Nat.toDigits 10 (units * Nat.pow 10 400 / Binary64.unitsPerOne)).length : Int) - 401

/-- The neighbours of the number below and above on the grid of step `10 ^ exponent`. -/
def nearestOnGrid? (x : Binary64) (exponent : Int) : Option Decimal :=
  let num := x.units * Nat.pow 10 (-exponent).toNat
  let den := Binary64.unitsPerOne * Nat.pow 10 exponent.toNat
  let below : Decimal := ⟨num / den, exponent⟩
  let above : Decimal := ⟨num / den + 1, exponent⟩
  let twice := 2 * (num % den)
  let downward := twice < den ∨ (twice = den ∧ below.digits % 2 = 0)
  if below.toBinary64 = x then
    if above.toBinary64 = x ∧ ¬ downward then some above else some below
  else if above.toBinary64 = x then some above
  else none

/-- Seventeen digits tell any two numbers apart. The number is positive and finite. -/
def shortest? (x : Binary64) : Option Decimal :=
  let place := leadingPlace x.units
  ((List.range 17).findSome? (fun (n : Nat) => nearestOnGrid? x (place - n))).map (dropZeros 20)

end Decimal

end Rebuild
