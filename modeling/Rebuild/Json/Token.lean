import Rebuild.Json.Document

/-!
# JSON tokens

A text is cut into tokens by a machine that looks at one character at a time.
A run of characters outside strings that is broken only by blanks, quotes and
punctuation is a word: a literal or a number.
-/

set_option autoImplicit false

namespace Rebuild.Json

inductive Token where
  | openArray
  | closeArray
  | openObject
  | closeObject
  | comma
  | colon
  | null
  | bool (b : Bool)
  | number (n : Numeral)
  | text (units : List TextUnit)

namespace Token

def ofWord? (w : List Char) : Option Token :=
  if w = ['n', 'u', 'l', 'l'] then some .null
  else if w = ['t', 'r', 'u', 'e'] then some (.bool true)
  else if w = ['f', 'a', 'l', 's', 'e'] then some (.bool false)
  else (Number.ofWord? w).map .number

def ofPunctuation? (c : Char) : Option Token :=
  if c = '[' then some .openArray
  else if c = ']' then some .closeArray
  else if c = '\x7b' then some .openObject
  else if c = '\x7d' then some .closeObject
  else if c = ',' then some .comma
  else if c = ':' then some .colon
  else none

end Token

def isBlank (c : Char) : Bool := c == ' ' || c == '\t' || c == '\n' || c == '\r'

def hexValue? (c : Char) : Option Nat :=
  if '0' ≤ c ∧ c ≤ '9' then some (c.toNat - '0'.toNat)
  else if 'a' ≤ c ∧ c ≤ 'f' then some (c.toNat - 'a'.toNat + 10)
  else if 'A' ≤ c ∧ c ≤ 'F' then some (c.toNat - 'A'.toNat + 10)
  else none

def hexNumber? (cs : List Char) : Option Nat :=
  cs.foldlM (fun n c => (hexValue? c).map (fun d => 16 * n + d)) 0

def escaped? (c : Char) : Option Char :=
  if c = '"' ∨ c = '\\' ∨ c = '/' then some c
  else if c = 'b' then some '\x08'
  else if c = 'f' then some '\x0c'
  else if c = 'n' then some '\n'
  else if c = 'r' then some '\r'
  else if c = 't' then some '\t'
  else none

/-- Where a text is cut. Strings and words are kept backward. -/
inductive Position where
  | gap
  | word (backward : List Char)
  | text (backward : List TextUnit)
  | escape (backward : List TextUnit)
  | unit (backward : List TextUnit) (digits : List Char)

structure Lexer where
  position : Position
  backward : List Token

namespace Lexer

def start : Lexer := ⟨.gap, []⟩

def outside (tokens : List Token) (c : Char) : Lexer :=
  if isBlank c then ⟨.gap, tokens⟩
  else if c = '"' then ⟨.text [], tokens⟩
  else match Token.ofPunctuation? c with
    | some t => ⟨.gap, t :: tokens⟩
    | none => ⟨.word [c], tokens⟩

def endsWord (c : Char) : Bool :=
  isBlank c || c == '"' || (Token.ofPunctuation? c).isSome

def unit (tokens : List Token) (s : List TextUnit) (c : Char) : List Char → Option Lexer
  | [x, y, z] => (hexNumber? [x, y, z, c]).map (fun n => ⟨.text (.ofNat n :: s), tokens⟩)
  | digits => some ⟨.unit s (digits ++ [c]), tokens⟩

def step (l : Lexer) (c : Char) : Option Lexer :=
  match l.position with
  | .gap => some (outside l.backward c)
  | .word w =>
    if endsWord c then
      (Token.ofWord? w.reverse).map (fun t => outside (t :: l.backward) c)
    else some ⟨.word (c :: w), l.backward⟩
  | .text s =>
    if c = '"' then some ⟨.gap, .text s.reverse :: l.backward⟩
    else if c = '\\' then some ⟨.escape s, l.backward⟩
    else if c.toNat < 0x20 then none
    else some ⟨.text (.char c :: s), l.backward⟩
  | .escape s =>
    if c = 'u' then some ⟨.unit s [], l.backward⟩
    else (escaped? c).map (fun e => ⟨.text (.char e :: s), l.backward⟩)
  | .unit s digits => unit l.backward s c digits

/-- The tokens of a text that ends here, the last one first. -/
def tokens? (l : Lexer) : Option (List Token) :=
  match l.position with
  | .gap => some l.backward
  | .word w => (Token.ofWord? w.reverse).map (· :: l.backward)
  | _ => none

end Lexer

def tokens? (cs : List Char) : Option (List Token) :=
  ((cs.foldlM Lexer.step Lexer.start).bind Lexer.tokens?).map List.reverse

end Rebuild.Json
