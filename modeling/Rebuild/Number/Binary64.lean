/-!
# Binary floating-point numbers

A finite number is a whole count of units of `2 ^ -1074`, cut to 53 binary
places. Rounding goes from a ratio of natural numbers to the nearest such
count, a tie to the even one, so nothing here depends on machine arithmetic.
-/

set_option autoImplicit false

namespace Rebuild

structure Binary64 where
  bits : UInt64
  deriving DecidableEq, Repr

namespace Binary64

def unitsPerOne : Nat := Nat.pow 2 1074

def hiddenBit : Nat := Nat.pow 2 52

def infinityBits : Nat := 2047 * hiddenBit

def ofFields (negative : Bool) (magnitude : Nat) : Binary64 :=
  ⟨UInt64.ofNat ((if negative then Nat.pow 2 63 else 0) + min magnitude infinityBits)⟩

def infinity (negative : Bool) : Binary64 := ofFields negative infinityBits

def nan : Binary64 := ⟨UInt64.ofNat (infinityBits + hiddenBit / 2)⟩

def zero (negative : Bool) : Binary64 := ofFields negative 0

def isNegative (x : Binary64) : Bool := Nat.pow 2 63 ≤ x.bits.toNat

/-- The bits without the sign. They order the magnitudes. -/
def magnitude (x : Binary64) : Nat := x.bits.toNat % Nat.pow 2 63

def isFinite (x : Binary64) : Bool := x.magnitude < infinityBits

def isNan (x : Binary64) : Bool := infinityBits < x.magnitude

def neg (x : Binary64) : Binary64 := ⟨x.bits ^^^ 0x8000000000000000⟩

/-- The magnitude of a finite number in units of `2 ^ -1074`. -/
def units (x : Binary64) : Nat :=
  let exponent := x.magnitude / hiddenBit
  let fraction := x.magnitude % hiddenBit
  if exponent = 0 then fraction else (hiddenBit + fraction) * Nat.pow 2 (exponent - 1)

def divideToEven (num den : Nat) : Nat :=
  let q := num / den
  let r := num % den
  if den < 2 * r ∨ (2 * r = den ∧ q % 2 = 1) then q + 1 else q

/-- The number nearest to `num / den`. A carry out of the fraction moves into the
exponent, and past the largest number lies infinity. -/
def ofRatio (negative : Bool) (num den : Nat) : Binary64 :=
  let whole := num * unitsPerOne / den
  let shift := if whole < 2 * hiddenBit then 0 else whole.log2 - 52
  let significand := divideToEven (num * unitsPerOne) (den * Nat.pow 2 shift)
  ofFields negative (significand + shift * hiddenBit)

def ofNat (n : Nat) : Binary64 := ofRatio false n 1

/-- The number nearest to `digits * 10 ^ exponent`. Exponents beyond any finite
number are settled without the power. -/
def ofDecimal (negative : Bool) (digits : Nat) (exponent : Int) : Binary64 :=
  let places : Int := (Nat.toDigits 10 digits).length + exponent
  if digits = 0 then zero negative
  else if places > 310 then infinity negative
  else if places < -330 then zero negative
  else if exponent ≥ 0 then ofRatio negative (digits * Nat.pow 10 exponent.toNat) 1
  else ofRatio negative digits (Nat.pow 10 (-exponent).toNat)

def mul (x y : Binary64) : Binary64 :=
  ofRatio (x.isNegative != y.isNegative) (x.units * y.units) (unitsPerOne * unitsPerOne)

def div (x y : Binary64) : Binary64 :=
  ofRatio (x.isNegative != y.isNegative) x.units y.units

end Binary64

end Rebuild
