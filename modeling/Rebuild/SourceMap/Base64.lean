/-!
# Base64

Three bytes are four characters of an alphabet of 64. The last group is filled
up with padding, and the bits the padding stands for are zero. Decoding
accepts exactly the written forms.
-/

set_option autoImplicit false

namespace Rebuild.Base64

def character (n : Nat) : Char :=
  if n < 26 then Char.ofNat ('A'.toNat + n)
  else if n < 52 then Char.ofNat ('a'.toNat + (n - 26))
  else if n < 62 then Char.ofNat ('0'.toNat + (n - 52))
  else if n = 62 then '+'
  else '/'

def value? (c : Char) : Option Nat :=
  if 'A' ≤ c ∧ c ≤ 'Z' then some (c.toNat - 'A'.toNat)
  else if 'a' ≤ c ∧ c ≤ 'z' then some (c.toNat - 'a'.toNat + 26)
  else if '0' ≤ c ∧ c ≤ '9' then some (c.toNat - '0'.toNat + 52)
  else if c = '+' then some 62
  else if c = '/' then some 63
  else none

theorem value?_character : ∀ n < 64, value? (character n) = some n := by decide

def encode : List UInt8 → List Char
  | a :: b :: c :: rest =>
    let n := a.toNat * 65536 + b.toNat * 256 + c.toNat
    character (n / 262144) :: character (n / 4096 % 64) :: character (n / 64 % 64) ::
      character (n % 64) :: encode rest
  | [a, b] =>
    let n := a.toNat * 1024 + b.toNat * 4
    [character (n / 4096), character (n / 64 % 64), character (n % 64), '=']
  | [a] =>
    let n := a.toNat * 16
    [character (n / 64), character (n % 64), '=', '=']
  | [] => []

def decodeOne? (a b : Char) : Option (List UInt8) := do
  let n := (← value? a) * 64 + (← value? b)
  if n % 16 = 0 then some [UInt8.ofNat (n / 16)] else none

def decodeTwo? (a b c : Char) : Option (List UInt8) := do
  let n := ((← value? a) * 64 + (← value? b)) * 64 + (← value? c)
  if n % 4 = 0 then some [UInt8.ofNat (n / 1024), UInt8.ofNat (n / 4)] else none

def decodeThree? (a b c d : Char) : Option (List UInt8) := do
  let n := (((← value? a) * 64 + (← value? b)) * 64 + (← value? c)) * 64 + (← value? d)
  some [UInt8.ofNat (n / 65536), UInt8.ofNat (n / 256), UInt8.ofNat n]

def decode? : List Char → Option (List UInt8)
  | [] => some []
  | [a, b, c, d] =>
    if d = '=' then (if c = '=' then decodeOne? a b else decodeTwo? a b c)
    else decodeThree? a b c d
  | a :: b :: c :: d :: rest => do
    let group ← decodeThree? a b c d
    let bytes ← decode? rest
    some (group ++ bytes)
  | _ => none

end Rebuild.Base64
