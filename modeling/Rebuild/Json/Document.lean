import Rebuild.Json.Numeral

/-!
# JSON documents

What is written in a text, by its grammar alone: numbers by their digits,
members in the order they are listed and as often. In strings an escape may
stand for one half of a surrogate pair. A document has a value if its numbers
are not too large, its halves come in pairs and it is not nested too deep.
-/

set_option autoImplicit false

namespace Rebuild.Json

/-- What stands for one character of a string, or for one half of it. -/
inductive TextUnit where
  | char (c : Char)
  | half (n : Nat)
  deriving DecidableEq

inductive Document where
  | null
  | bool (b : Bool)
  | number (n : Numeral)
  | text (units : List TextUnit)
  | array (items : List Document)
  | object (entries : List (List TextUnit × Document))

def isLeadUnit (n : Nat) : Bool := 0xD800 ≤ n && n ≤ 0xDBFF

def isTrailUnit (n : Nat) : Bool := 0xDC00 ≤ n && n ≤ 0xDFFF

namespace TextUnit

def ofNat (n : Nat) : TextUnit :=
  if isLeadUnit n || isTrailUnit n then .half n else .char (Char.ofNat n)

/-- Two halves in a row are one character. One alone is none. -/
def joinOnto? (backward : List Char) : List TextUnit → Option (List Char)
  | [] => some backward.reverse
  | .char c :: units => joinOnto? (c :: backward) units
  | .half lead :: .half trail :: units =>
    if isLeadUnit lead && isTrailUnit trail then
      joinOnto? (Char.ofNat (0x10000 + (lead - 0xD800) * 0x400 + (trail - 0xDC00)) :: backward)
        units
    else none
  | .half _ :: _ => none

def string? (units : List TextUnit) : Option String := (joinOnto? [] units).map String.ofList

end TextUnit

namespace Document

abbrev Entries := List (List TextUnit × Document)

def maxDepth : Nat := 127

mutual

/-- The value of a document where containers may be nested so deep. -/
def toJson? (room : Nat) : Document → Option Json
  | .null => some .null
  | .bool b => some (.bool b)
  | .number n => n.toJson?
  | .text units => (TextUnit.string? units).map .string
  | .array items =>
    match room with
    | 0 => none
    | room + 1 => (itemsToJson? room items).map .array
  | .object entries =>
    match room with
    | 0 => none
    | room + 1 => (entriesToJson? room [] entries).map .object

def itemsToJson? (room : Nat) : List Document → Option (List Json)
  | [] => some []
  | d :: rest => do
    let v ← toJson? room d
    let vs ← itemsToJson? room rest
    some (v :: vs)

def entriesToJson? (room : Nat) (before : Members) :
    List (List TextUnit × Document) → Option Members
  | [] => some before
  | (units, d) :: rest => do
    let key ← TextUnit.string? units
    let v ← toJson? room d
    entriesToJson? room (setMember key v before) rest

end

end Document

end Rebuild.Json
