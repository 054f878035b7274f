import Rebuild.Json.Value

/-!
# Writing JSON

A value is written without blanks. In strings only the quote, the backslash
and control characters are escaped. A floating-point number is written with
the fewest digits that read back, positionally for exponents from -5 to 15
and always with a point or an exponent.
-/

set_option autoImplicit false

namespace Rebuild.Json

def hexDigit (n : Nat) : Char :=
  if n < 10 then Char.ofNat ('0'.toNat + n) else Char.ofNat ('a'.toNat + (n - 10))

def escapeChar (c : Char) : List Char :=
  if c = '"' then ['\\', '"']
  else if c = '\\' then ['\\', '\\']
  else if c = '\x08' then ['\\', 'b']
  else if c = '\x0c' then ['\\', 'f']
  else if c = '\n' then ['\\', 'n']
  else if c = '\r' then ['\\', 'r']
  else if c = '\t' then ['\\', 't']
  else if c.toNat < 0x20 then
    ['\\', 'u', '0', '0', hexDigit (c.toNat / 16), hexDigit (c.toNat % 16)]
  else [c]

def quote (s : String) : List Char := '"' :: s.toList.flatMap escapeChar ++ ['"']

def integerChars (i : Int) : List Char :=
  if i < 0 then '-' :: Nat.toDigits 10 i.natAbs else Nat.toDigits 10 i.natAbs

def leastPositional : Int := -5

def greatestPositional : Int := 15

def pointed (digits : List Char) (places : Nat) : List Char :=
  digits.take places ++ '.' :: digits.drop places

def decimalChars (d : Decimal) : List Char :=
  let digits := Nat.toDigits 10 d.digits
  let place : Int := digits.length - 1 + d.exponent
  if leastPositional ≤ place ∧ place ≤ greatestPositional then
    if 0 ≤ d.exponent then digits ++ List.replicate d.exponent.toNat '0' ++ ['.', '0']
    else if 0 ≤ place then pointed digits (place + 1).toNat
    else '0' :: '.' :: List.replicate (-place - 1).toNat '0' ++ digits
  else
    (if digits.length = 1 then digits else pointed digits 1) ++
      'e' :: (if place < 0 then '-' else '+') :: Nat.toDigits 10 place.natAbs

def floatChars (x : Binary64) : List Char :=
  (if x.isNegative then ['-'] else []) ++
    match Decimal.shortest? (.ofFields false x.magnitude) with
    | some d => if x.magnitude = 0 then ['0', '.', '0'] else decimalChars d
    | none => ['0', '.', '0']

mutual

def chars : Json → List Char
  | .null => ['n', 'u', 'l', 'l']
  | .bool true => ['t', 'r', 'u', 'e']
  | .bool false => ['f', 'a', 'l', 's', 'e']
  | .integer i => integerChars i
  | .float x => floatChars x
  | .string s => quote s
  | .array items => '[' :: itemsChars items ++ [']']
  | .object members => '\x7b' :: membersChars members ++ ['\x7d']

def itemsChars : List Json → List Char
  | [] => []
  | [v] => chars v
  | v :: w :: rest => chars v ++ ',' :: itemsChars (w :: rest)

def membersChars : List (String × Json) → List Char
  | [] => []
  | [(k, v)] => quote k ++ ':' :: chars v
  | (k, v) :: m :: rest => quote k ++ ':' :: chars v ++ ',' :: membersChars (m :: rest)

end

def render (v : Json) : String := String.ofList (chars v)

end Rebuild.Json
