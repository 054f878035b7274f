import Rebuild.Toml.Quoted
import Rebuild.Toml.Table

/-!
# Reading configuration texts

A text is a list of lines: pairs of a dotted key and a value, and headers that
say which table the pairs below go to. Arrays and inline tables may be nested
to a fixed depth, and keys are shorter than that.
-/

set_option autoImplicit false

namespace Rebuild.Toml

namespace Reader

open Quoted

/-- Containers and the parts of a key are fewer than this. -/
def nestingLimit : Nat := 80

def skipBlanks (cs : List Char) : List Char := cs.dropWhile isBlank

def skipComment (cs : List Char) : List Char := cs.dropWhile isPlain

def skipSpace : Bool → List Char → List Char
  | _, [] => []
  | _, '\r' :: '\n' :: rest => skipSpace false rest
  | inComment, c :: rest =>
    if c = '\n' then skipSpace false rest
    else if inComment then (if isPlain c then skipSpace true rest else c :: rest)
    else if isBlank c then skipSpace false rest
    else if c = '#' then skipSpace true rest
    else c :: rest

def expect? (c : Char) : List Char → Option (List Char)
  | d :: rest => if d = c then some rest else none
  | [] => none

def keyParts? : Nat → List Char → Option (List String × List Char)
  | 0, _ => none
  | fuel + 1, cs => do
    let (part, rest) ← simpleKey? (skipBlanks cs)
    match skipBlanks rest with
    | '.' :: more =>
      let (parts, rest) ← keyParts? fuel more
      some (part :: parts, rest)
    | rest => some ([part], rest)

def key? (cs : List Char) : Option ((String × List String) × List Char) := do
  let (parts, rest) ← keyParts? nestingLimit cs
  match parts with
  | part :: more => if parts.length < nestingLimit then some ((part, more), rest) else none
  | [] => none

def splitLast (part : String) : List String → List String × String
  | [] => ([], part)
  | p :: ps => ((part :: (splitLast p ps).1), (splitLast p ps).2)

def pair? (value? : List Char → Option (Value × List Char)) (cs : List Char) :
    Option (Pair × List Char) := do
  let ((part, more), rest) ← key? cs
  let rest ← expect? '=' rest
  let (v, rest) ← value? (skipBlanks rest)
  some (⟨(splitLast part more).1, (splitLast part more).2, v⟩, rest)

def items? (value? : List Char → Option (Value × List Char)) :
    Nat → List Value → List Char → Option (List Value × List Char)
  | 0, _, _ => none
  | fuel + 1, acc, cs =>
    match skipSpace false cs with
    | ']' :: rest => some (acc.reverse, rest)
    | cs => do
      let (v, rest) ← value? cs
      match skipSpace false rest with
      | ',' :: rest => items? value? fuel (v :: acc) rest
      | ']' :: rest => some ((v :: acc).reverse, rest)
      | _ => none

def pairs? (value? : List Char → Option (Value × List Char)) :
    Nat → List Pair → List Char → Option (List Pair × List Char)
  | 0, _, _ => none
  | fuel + 1, acc, cs => do
    let (p, rest) ← pair? value? cs
    match skipBlanks rest with
    | ',' :: rest => pairs? value? fuel (p :: acc) rest
    | '\x7d' :: rest => some ((p :: acc).reverse, rest)
    | _ => none

def inlineTable? (value? : List Char → Option (Value × List Char)) (cs : List Char) :
    Option (Value × List Char) :=
  match skipBlanks cs with
  | '\x7d' :: rest => some (.table [], rest)
  | cs => do
    let (pairs, rest) ← pairs? value? cs.length [] cs
    let nodes ← Nodes.insertPairs [] pairs
    some (.table (entriesOf nodes), rest)

def scalar? : List Char → Option (Value × List Char)
  | 't' :: 'r' :: 'u' :: 'e' :: rest => some (.boolean true, rest)
  | 'f' :: 'a' :: 'l' :: 's' :: 'e' :: rest => some (.boolean false, rest)
  | '"' :: rest => (string? ('"' :: rest)).map (fun r => (.string r.1, r.2))
  | '\'' :: rest => (string? ('\'' :: rest)).map (fun r => (.string r.1, r.2))
  | cs =>
    if Datetime.startsDate cs || Datetime.startsTime cs then
      (Datetime.read? cs).map (fun r => (.datetime r.1, r.2))
    else Number.number? cs

/-- The depth counts the containers that may still be opened. -/
def value? : Nat → List Char → Option (Value × List Char)
  | 0, '[' :: _ => none
  | 0, '\x7b' :: _ => none
  | depth + 1, '[' :: rest =>
    (items? (value? depth) (rest.length + 1) [] rest).map (fun r => (.array r.1, r.2))
  | depth + 1, '\x7b' :: rest => inlineTable? (value? depth) rest
  | _, cs => scalar? cs

def endLine? (cs : List Char) : Option (List Char) :=
  let rest := skipBlanks cs
  let rest := if rest.head? = some '#' then skipComment rest else rest
  match rest with
  | [] => some []
  | '\n' :: rest => some rest
  | '\r' :: '\n' :: rest => some rest
  | _ => none

inductive Line where
  | blank
  | pair (p : Pair)
  | header (h : Header)

def header? : List Char → Option (Header × List Char)
  | '[' :: '[' :: rest => do
    let ((part, more), rest) ← key? rest
    let rest ← expect? ']' rest
    let rest ← expect? ']' rest
    some (.tables part more, rest)
  | '[' :: rest => do
    let ((part, more), rest) ← key? rest
    let rest ← expect? ']' rest
    some (.table part more, rest)
  | _ => none

def line? (cs : List Char) : Option (Line × List Char) :=
  match skipBlanks cs with
  | [] => some (.blank, [])
  | '[' :: rest => (header? ('[' :: rest)).map (fun r => (.header r.1, r.2))
  | '#' :: rest => some (.blank, '#' :: rest)
  | '\n' :: rest => some (.blank, '\n' :: rest)
  | '\r' :: rest => some (.blank, '\r' :: rest)
  | cs => (pair? (value? (nestingLimit - 1)) cs).map (fun r => (.pair r.1, r.2))

def lines? : Nat → List Line → List Char → Option (List Line)
  | 0, _, _ => none
  | fuel + 1, acc, cs => do
    let (line, rest) ← line? cs
    let rest ← endLine? rest
    if rest = [] then some (line :: acc).reverse else lines? fuel (line :: acc) rest

def sections : List Line → List Pair × List Section
  | [] => ([], [])
  | .blank :: rest => sections rest
  | .pair p :: rest => (p :: (sections rest).1, (sections rest).2)
  | .header h :: rest => ([], ⟨h, (sections rest).1⟩ :: (sections rest).2)

end Reader

def Nodes.ofLines? (lines : List Reader.Line) : Option Nodes := do
  let (pairs, sections) := Reader.sections lines
  let nodes ← Nodes.insertPairs [] pairs
  sections.foldlM Nodes.addSection nodes

def dropMark : List Char → List Char
  | '\ufeff' :: rest => rest
  | cs => cs

def parse? (text : String) : Option Entries := do
  let cs := dropMark text.toList
  let lines ← Reader.lines? (cs.length + 1) [] cs
  let nodes ← Nodes.ofLines? lines
  some (entriesOf nodes)

end Rebuild.Toml
