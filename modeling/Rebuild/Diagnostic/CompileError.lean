import Rebuild.Diagnostic.Basic
import Rebuild.Json.Reader
import Rebuild.Json.Writer

/-!
# Compile errors

A diagnostic made into one flat record that a build tool can print, store and
read back. The record points into a file by name, line and column.
-/

set_option autoImplicit false

namespace Rebuild

structure CompileError where
  category : Category
  code : DiagnosticCode
  message : String
  fileName : Option Path
  line : Option UInt32
  column : Option UInt32
  deriving DecidableEq, Repr

namespace CompileError

def ofDiagnostic (d : Diagnostic) : CompileError :=
  let location := d.point.map (fun p => p.file.location p.start)
  { category := d.category
    code := d.code
    message := d.message.flatten Message.lineSeparator
    fileName := location.map Location.file
    line := location.map Location.line
    column := location.map Location.column }

def summary (e : CompileError) : String :=
  e.category.text ++ " " ++ e.code.text ++ ": " ++ e.message

def hasLocation (e : CompileError) : Bool := e.fileName.isSome

def text (e : CompileError) : String :=
  match e.fileName, e.line, e.column with
  | some file, some line, some column =>
    (Location.mk file line column).text ++ ": " ++ e.summary
  | _, _, _ => e.summary

def wordJson (w : UInt32) : Json := .integer w.toNat

def toJson (e : CompileError) : Json :=
  .object
    [("category", e.category.toJson),
     ("code", wordJson e.code.number),
     ("message", .string e.message),
     ("file_name", (e.fileName.map (fun p => Json.string p.text)).getD .null),
     ("line", (e.line.map wordJson).getD .null),
     ("column", (e.column.map wordJson).getD .null)]

/-- How the fields are read off what they are given. -/
structure FieldReader (α : Type) where
  isNull : α → Bool
  category? : α → Option Category
  word? : α → Option UInt32
  string? : α → Option String

section Fields

variable {α : Type} (reader : FieldReader α)

def optional {β : Type} (decode : α → Option β) : Option α → Option (Option β)
  | none => some none
  | some v => if reader.isNull v then some none else (decode v).map some

def ofFields? (category code message fileName line column : Option α) : Option CompileError := do
  let category ← category.bind reader.category?
  let code ← code.bind reader.word?
  let message ← message.bind reader.string?
  let fileName ← optional reader reader.string? fileName
  let line ← optional reader reader.word? line
  let column ← optional reader reader.word? column
  some ⟨category, ⟨code⟩, message, fileName.map Path.mk, line, column⟩

def ofMembers? (members : List (String × α)) : Option CompileError :=
  ofFields? reader (Json.member? "category" members) (Json.member? "code" members)
    (Json.member? "message" members) (Json.member? "file_name" members)
    (Json.member? "line" members) (Json.member? "column" members)

def ofItems? : List α → Option CompileError
  | [category, code, message, fileName, line, column] =>
    ofFields? reader (some category) (some code) (some message) (some fileName) (some line)
      (some column)
  | _ => none

end Fields

/-! ## Values -/

def isNull : Json → Bool
  | .null => true
  | _ => false

def word? : Json → Option UInt32
  | .integer i => if 0 ≤ i ∧ i < 4294967296 then some (UInt32.ofNat i.toNat) else none
  | _ => none

def string? : Json → Option String
  | .string s => some s
  | _ => none

def valueReader : FieldReader Json := ⟨isNull, Category.ofJson?, word?, string?⟩

def ofJson? : Json → Option CompileError
  | .object members => ofMembers? valueReader members
  | .array items => ofItems? valueReader items
  | _ => none

/-! ## Texts -/

def render (e : CompileError) : String := e.toJson.render

def fieldNames : List String := ["category", "code", "message", "file_name", "line", "column"]

def isUnambiguous {α : Type} (members : List (String × α)) : Bool :=
  fieldNames.all (fun name => (members.map Prod.fst).count name ≤ 1)

/-- The members with their keys as names. Every key has to be one, of a field or not. -/
def named? (entries : Json.Document.Entries) : Option (List (String × Json.Document)) :=
  entries.mapM (fun m => (Json.TextUnit.string? m.1).map (fun name => (name, m.2)))

def documentReader : FieldReader Json.Document where
  isNull
    | .null => true
    | _ => false
  category? := Category.ofDocument?
  word?
    | .number n => n.toJson?.bind word?
    | _ => none
  string?
    | .text units => Json.TextUnit.string? units
    | _ => none

/-- Only fields are given a value. Of all other members it does not matter whether they have one. -/
def ofDocument? : Json.Document → Option CompileError
  | .object entries => do
    let members ← named? entries
    if isUnambiguous members then ofMembers? documentReader members else none
  | .array items => ofItems? documentReader items
  | _ => none

def parse? (s : String) : Option CompileError := (Json.Document.parse? s).bind ofDocument?

end CompileError

end Rebuild
