import Rebuild.Toml.Number

/-!
# Quoted texts

Texts in double quotes have escapes, texts in single quotes have none. Three
quotes open a text of several lines, whose first newline is not part of it.
There a newline is one character however it is written, and a backslash at the
end of a line takes away all blanks up to the next text.
-/

set_option autoImplicit false

namespace Rebuild.Toml.Quoted

def isBlank (c : Char) : Bool := c == ' ' || c == '\t'

def isPlain (c : Char) : Bool :=
  c == '\t' || (0x20 ≤ c.toNat && c.toNat ≤ 0x7E) || 0x80 ≤ c.toNat

def escaped? (c : Char) : Option Char :=
  if c = '"' ∨ c = '\\' then some c
  else if c = 'b' then some '\x08'
  else if c = 'f' then some '\x0c'
  else if c = 'n' then some '\n'
  else if c = 'r' then some '\r'
  else if c = 't' then some '\t'
  else none

def ofCode? (n : Nat) : Option Char := if n.isValidChar then some (Char.ofNat n) else none

def ofHex? (digits : List Char) : Option Char :=
  if digits.all Number.isHexDigit then ofCode? (Number.value 16 digits) else none

def basic? : List Char → List Char → Option (String × List Char)
  | _, [] => none
  | acc, c :: rest =>
    if c = '"' then some (String.ofList acc.reverse, rest)
    else if c = '\\' then
      match rest with
      | 'u' :: a :: b :: c :: d :: rest =>
        (ofHex? [a, b, c, d]).bind (fun e => basic? (e :: acc) rest)
      | 'U' :: a :: b :: c :: d :: e :: f :: g :: h :: rest =>
        (ofHex? [a, b, c, d, e, f, g, h]).bind (fun e => basic? (e :: acc) rest)
      | c :: rest => (escaped? c).bind (fun e => basic? (e :: acc) rest)
      | [] => none
    else if isPlain c then basic? (c :: acc) rest
    else none

def startsLine : List Char → Bool
  | '\n' :: _ => true
  | '\r' :: '\n' :: _ => true
  | _ => false

/-- Up to two quotes may stand before the three that close a text. -/
def closeLines? (quote : Char) (acc rest : List Char) : Option (String × List Char) :=
  let extra := rest.takeWhile (· = quote)
  if extra.length ≤ 2 then
    some (String.ofList (acc.reverse ++ extra), rest.drop extra.length)
  else none

/-- While `skip` holds, blanks and newlines are dropped. -/
def basicLines? : Bool → List Char → List Char → Option (String × List Char)
  | _, _, [] => none
  | _, acc, '"' :: '"' :: '"' :: rest => closeLines? '"' acc rest
  | skip, acc, '\r' :: '\n' :: rest => basicLines? skip (if skip then acc else '\n' :: acc) rest
  | skip, acc, c :: rest =>
    if c = '\n' then basicLines? skip (if skip then acc else '\n' :: acc) rest
    else if c = '\\' then
      if startsLine (rest.dropWhile isBlank) then basicLines? true acc rest
      else match rest with
        | 'u' :: a :: b :: c :: d :: rest =>
          (ofHex? [a, b, c, d]).bind (fun e => basicLines? false (e :: acc) rest)
        | 'U' :: a :: b :: c :: d :: e :: f :: g :: h :: rest =>
          (ofHex? [a, b, c, d, e, f, g, h]).bind (fun e => basicLines? false (e :: acc) rest)
        | c :: rest => (escaped? c).bind (fun e => basicLines? false (e :: acc) rest)
        | [] => none
    else if skip ∧ isBlank c then basicLines? true acc rest
    else if isPlain c then basicLines? false (c :: acc) rest
    else none

def literal? : List Char → List Char → Option (String × List Char)
  | _, [] => none
  | acc, c :: rest =>
    if c = '\'' then some (String.ofList acc.reverse, rest)
    else if isPlain c then literal? (c :: acc) rest
    else none

def literalLines? : List Char → List Char → Option (String × List Char)
  | _, [] => none
  | acc, '\'' :: '\'' :: '\'' :: rest => closeLines? '\'' acc rest
  | acc, '\r' :: '\n' :: rest => literalLines? ('\n' :: acc) rest
  | acc, c :: rest =>
    if c = '\n' ∨ isPlain c then literalLines? (c :: acc) rest
    else none

def dropNewline : List Char → List Char
  | '\n' :: rest => rest
  | '\r' :: '\n' :: rest => rest
  | cs => cs

def string? : List Char → Option (String × List Char)
  | '"' :: '"' :: '"' :: rest => basicLines? false [] (dropNewline rest)
  | '"' :: rest => basic? [] rest
  | '\'' :: '\'' :: '\'' :: rest => literalLines? [] (dropNewline rest)
  | '\'' :: rest => literal? [] rest
  | _ => none

def isBare (c : Char) : Bool := c.isAlphanum || c == '-' || c == '_'

def simpleKey? : List Char → Option (String × List Char)
  | '"' :: rest => basic? [] rest
  | '\'' :: rest => literal? [] rest
  | cs =>
    let name := cs.takeWhile isBare
    if name = [] then none else some (String.ofList name, cs.dropWhile isBare)

end Rebuild.Toml.Quoted
