import Rebuild.Json.Value

/-!
# JSON numbers

A number is written with the digits of its whole part, those of its fraction
and an exponent. A whole number that fits a word is an integer. Any other is
rounded to a floating-point number, and has no value if it is too large.
-/

set_option autoImplicit false

namespace Rebuild.Json

structure Exponent where
  negative : Bool
  digits : List Char
  deriving DecidableEq

/-- A number as it is written. Without a point it has no digits behind it. -/
structure Numeral where
  negative : Bool
  whole : List Char
  fraction : List Char
  exponent : Option Exponent
  deriving DecidableEq

namespace Number

def digitValue (c : Char) : Nat := c.toNat - '0'.toNat

def value (digits : List Char) : Nat := digits.foldl (fun n c => 10 * n + digitValue c) 0

/-! ## Words -/

def isDigits (cs : List Char) : Bool := !cs.isEmpty && cs.all Char.isDigit

def isExponentMark (c : Char) : Bool := c == 'e' || c == 'E'

/-- The digits behind a point, and what follows them. -/
def fraction? : List Char → Option (List Char × List Char)
  | '.' :: cs =>
    let digits := cs.takeWhile Char.isDigit
    if digits = [] then none else some (digits, cs.dropWhile Char.isDigit)
  | cs => some ([], cs)

def power? (negative : Bool) (digits : List Char) : Option Exponent :=
  if isDigits digits then some ⟨negative, digits⟩ else none

def signedPower? : List Char → Option Exponent
  | '+' :: cs => power? false cs
  | '-' :: cs => power? true cs
  | cs => power? false cs

def exponent? : List Char → Option (Option Exponent)
  | [] => some none
  | c :: cs => if isExponentMark c then (signedPower? cs).map some else none

def unsigned? (negative : Bool) (cs : List Char) : Option Numeral :=
  let whole := cs.takeWhile Char.isDigit
  if whole = [] ∨ (whole.head? = some '0' ∧ whole.length > 1) then none
  else
    (fraction? (cs.dropWhile Char.isDigit)).bind fun (fraction, rest) =>
      (exponent? rest).map fun exponent => ⟨negative, whole, fraction, exponent⟩

def ofWord? : List Char → Option Numeral
  | '-' :: cs => unsigned? true cs
  | cs => unsigned? false cs

/-! ## Values -/

def significant (limit : Nat) : Nat → List Char → Nat × List Char
  | n, [] => (n, [])
  | n, c :: cs =>
    if limit < 10 * n + digitValue c then (n, c :: cs)
    else significant limit (10 * n + digitValue c) cs

def wordLimit : Nat := UInt64.size - 1

/-- Scales by a power of ten in steps that are numbers themselves. Dividing by one
power after the other rounds each time. -/
def scale : Nat → Binary64 → Int → Option Binary64
  | 0, x, _ => some x
  | steps + 1, x, exponent =>
    if exponent ≥ 0 then
      if exponent > 308 then (if x.magnitude = 0 then some x else none)
      else
        let y := x.mul (.ofDecimal false 1 exponent)
        if y.isFinite then some y else none
    else if exponent ≥ -308 then some (x.div (.ofDecimal false 1 (-exponent)))
    else if x.magnitude = 0 then some x
    else scale steps (x.div (.ofDecimal false 1 308)) (exponent + 308)

/-- The significand is rounded before it is scaled. Three steps reach below the
least number. -/
def ofParts? (negative : Bool) (significand : Nat) (exponent : Int) : Option Binary64 :=
  (scale 4 (.ofNat significand) exponent).map (fun x => if negative then x.neg else x)

/-- Digits that no longer fit are dropped: before the point they count as places,
after it they do not count. -/
def float? (negative : Bool) (whole fraction : List Char) (exponent : Int) : Option Json :=
  let (head, dropped) := significant wordLimit 0 whole
  let (significand, rest) :=
    if dropped.isEmpty then significant wordLimit head fraction
    else match fraction with
      | [] => (head, [])
      | c :: cs =>
        if wordLimit < 10 * head + digitValue c then (head, c :: cs)
        else significant wordLimit head (c :: cs)
  let places : Int := dropped.length - (fraction.length - rest.length : Nat)
  (ofParts? negative significand (places + exponent)).map .float

def integer? (negative : Bool) (whole : List Char) : Option Json :=
  let n := value whole
  if negative then
    if n = 0 ∨ Nat.pow 2 63 < n then float? negative whole [] 0 else some (.integer (-n))
  else if n ≤ wordLimit then some (.integer n)
  else float? negative whole [] 0

def exponentLimit : Nat := Nat.pow 2 31 - 1

def withExponent? (negative : Bool) (whole fraction : List Char) (e : Exponent) : Option Json :=
  let exponent := value e.digits
  if exponentLimit < exponent then
    if e.negative ∨ (value whole = 0 ∧ value fraction = 0) then some (.float (.zero negative))
    else none
  else float? negative whole fraction (if e.negative then -exponent else exponent)

end Number

def Numeral.toJson? (n : Numeral) : Option Json :=
  match n.exponent with
  | some e => Number.withExponent? n.negative n.whole n.fraction e
  | none =>
    if n.fraction = [] then Number.integer? n.negative n.whole
    else Number.float? n.negative n.whole n.fraction 0

end Rebuild.Json
