import Rebuild.Toml.Value

/-!
# Numbers

Integers are decimal with a sign or hexadecimal, octal or binary without one,
and fit a signed word. Floating-point numbers have a fraction or an exponent.
Single underscores may stand between digits.
-/

set_option autoImplicit false

namespace Rebuild.Toml.Number

def moreDigits (isDigit : Char → Bool) : List Char → Option (List Char × List Char)
  | [] => some ([], [])
  | c :: cs =>
    if isDigit c then (moreDigits isDigit cs).map (fun r => (c :: r.1, r.2))
    else if c = '_' then
      match cs with
      | d :: ds =>
        if isDigit d then (moreDigits isDigit ds).map (fun r => (d :: r.1, r.2)) else none
      | [] => none
    else some ([], c :: cs)

def digits? (isDigit : Char → Bool) : List Char → Option (List Char × List Char)
  | c :: cs => if isDigit c then (moreDigits isDigit cs).map (fun r => (c :: r.1, r.2)) else none
  | [] => none

def whole? : List Char → Option (List Char × List Char)
  | '0' :: cs => some (['0'], cs)
  | cs => digits? Char.isDigit cs

def digitValue (c : Char) : Nat :=
  if c.isDigit then c.toNat - '0'.toNat
  else if 'a' ≤ c then c.toNat - 'a'.toNat + 10
  else c.toNat - 'A'.toNat + 10

def value (base : Nat) (digits : List Char) : Nat :=
  digits.foldl (fun n c => base * n + digitValue c) 0

def isHexDigit (c : Char) : Bool :=
  c.isDigit || ('a' ≤ c && c ≤ 'f') || ('A' ≤ c && c ≤ 'F')

def isOctalDigit (c : Char) : Bool := '0' ≤ c && c ≤ '7'

def isBinaryDigit (c : Char) : Bool := c == '0' || c == '1'

def integer? (i : Int) : Option Value :=
  if -9223372036854775808 ≤ i ∧ i ≤ 9223372036854775807 then some (.integer i) else none

def based? (base : Nat) (isDigit : Char → Bool) (cs : List Char) :
    Option (Value × List Char) := do
  let (digits, rest) ← digits? isDigit cs
  some (← integer? (value base digits), rest)

/-- Too large a number is refused, too small a one is infinite below. -/
def float? (negative : Bool) (whole fraction : List Char) (exponent : Int) : Option Value :=
  let x := Binary64.ofDecimal negative (value 10 (whole ++ fraction)) (exponent - fraction.length)
  if x = Binary64.infinity false then none else some (.float x)

def exponent? : List Char → Option (Int × List Char)
  | '+' :: cs => (digits? Char.isDigit cs).map (fun r => ((value 10 r.1 : Int), r.2))
  | '-' :: cs => (digits? Char.isDigit cs).map (fun r => (-(value 10 r.1 : Int), r.2))
  | cs => (digits? Char.isDigit cs).map (fun r => ((value 10 r.1 : Int), r.2))

def isExponentMark (c : Char) : Bool := c == 'e' || c == 'E'

def scaled? (negative : Bool) (whole fraction : List Char) : List Char →
    Option (Value × List Char)
  | c :: cs =>
    if isExponentMark c then do
      let (exponent, rest) ← exponent? cs
      some (← float? negative whole fraction exponent, rest)
    else do some (← float? negative whole fraction 0, c :: cs)
  | [] => do some (← float? negative whole fraction 0, [])

def decimal? (negative : Bool) (cs : List Char) : Option (Value × List Char) := do
  let (whole, rest) ← whole? cs
  match rest with
  | '.' :: more =>
    let (fraction, rest) ← digits? Char.isDigit more
    scaled? negative whole fraction rest
  | c :: more =>
    if isExponentMark c then scaled? negative whole [] (c :: more)
    else some (← integer? (if negative then -(value 10 whole : Int) else value 10 whole), rest)
  | [] => some (← integer? (if negative then -(value 10 whole : Int) else value 10 whole), [])

def signed? (negative : Bool) : List Char → Option (Value × List Char)
  | 'i' :: 'n' :: 'f' :: rest => some (.float (.infinity negative), rest)
  | 'n' :: 'a' :: 'n' :: rest => some (.float (if negative then Binary64.nan.neg else .nan), rest)
  | cs => decimal? negative cs

def number? : List Char → Option (Value × List Char)
  | '+' :: cs => signed? false cs
  | '-' :: cs => signed? true cs
  | '0' :: 'x' :: cs => based? 16 isHexDigit cs
  | '0' :: 'o' :: cs => based? 8 isOctalDigit cs
  | '0' :: 'b' :: cs => based? 2 isBinaryDigit cs
  | cs => signed? false cs

end Rebuild.Toml.Number
