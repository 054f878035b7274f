import Rebuild.Diagnostic.Message
import Rebuild.Json.Document
import Rebuild.Source.File

/-!
# Diagnostics

What the compile service has found. A diagnostic points into a file or, when
it concerns the whole program, nowhere.
-/

set_option autoImplicit false

namespace Rebuild

inductive Category where
  | warning
  | error
  | suggestion
  | message
  deriving DecidableEq, Repr

namespace Category

def text : Category → String
  | .warning => "Warning"
  | .error => "Error"
  | .suggestion => "Suggestion"
  | .message => "Message"

def ofText? (s : String) : Option Category :=
  [warning, error, suggestion, message].find? (fun c => c.text == s)

@[simp] theorem ofText?_text (c : Category) : ofText? c.text = some c := by
  cases c <;> decide

def isError (c : Category) : Bool := c == .error

def toJson (c : Category) : Json := .string c.text

def ofJson? : Json → Option Category
  | .string s => ofText? s
  | .object [(s, .null)] => ofText? s
  | _ => none

def ofDocument? : Json.Document → Option Category
  | .text units => (Json.TextUnit.string? units).bind ofText?
  | .object [(units, .null)] => (Json.TextUnit.string? units).bind ofText?
  | _ => none

end Category

structure DiagnosticCode where
  number : UInt32
  deriving DecidableEq, Repr

def DiagnosticCode.text (c : DiagnosticCode) : String := "TS" ++ c.number.toNat.repr

structure SourcePoint where
  file : SourceFile
  start : UInt32
  deriving DecidableEq, Repr

structure Diagnostic where
  category : Category
  code : DiagnosticCode
  message : Message
  point : Option SourcePoint

namespace Diagnostic

def ofText (category : Category) (code : UInt32) (text : String) : Diagnostic :=
  ⟨category, ⟨code⟩, .plain text, none⟩

def pointingAt (d : Diagnostic) (file : SourceFile) (start : UInt32) : Diagnostic :=
  { d with point := some ⟨file, start⟩ }

end Diagnostic

end Rebuild
