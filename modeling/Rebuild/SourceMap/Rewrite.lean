import Rebuild.Json.Reader
import Rebuild.Json.Writer
import Rebuild.Path.Basic
import Rebuild.SourceMap.Base64
import Rebuild.Text.Blank
import Rebuild.Text.Split

/-!
# Inline source maps

Compiled text may carry its source map in a comment, as JSON in base64. The
last such comment counts. Its map is decoded, told the source it was compiled
from and put back. All else of the text stays.
-/

set_option autoImplicit false

namespace Rebuild

inductive SourceMapError where
  | missingComment
  | undecodable
  | notJson
  | notAnObject
  deriving DecidableEq, Repr

def SourceMapError.message : SourceMapError → String
  | .missingComment => "no inline source map comment found"
  | .undecodable => "invalid base64 in inline source map"
  | .notJson => "invalid source map JSON"
  | .notAnObject => "source map is not a JSON object"

abbrev SourceMapRewriter := String → Path → Except SourceMapError String

namespace SourceMap

def opening : List Char := "//# sourceMappingURL=data:application/json;".toList

def marker : List Char := "base64,".toList

def writtenParameters : List Char := "charset=utf-8;base64,".toList

def isLineEnd (c : Char) : Bool := c == '\r' || c == '\n'

structure Comment where
  before : List Char
  payload : List Char
  after : List Char
  deriving DecidableEq

def comment? (output : List Char) : Option Comment :=
  (Text.splitLast? opening output).bind fun (before, rest) =>
    (Text.splitFirst? marker (rest.takeWhile (fun c => !isLineEnd c))).map fun (_, payload) =>
      ⟨before, payload, rest.dropWhile (fun c => !isLineEnd c)⟩

def decode (payload : List Char) : Except SourceMapError Json.Members :=
  match Base64.decode? (Text.trim payload) with
  | none => .error .undecodable
  | some bytes =>
    match (String.fromUTF8? ⟨bytes.toArray⟩).bind Json.parse? with
    | none => .error .notJson
    | some (.object members) => .ok members
    | some _ => .error .notAnObject

def encode (members : Json.Members) : List Char :=
  Base64.encode (Json.object members).render.toUTF8.data.toList

def sourceText (source : Path) : String :=
  String.ofList (source.text.toList.map (fun c => if c = '\\' then '/' else c))

def withSource (members : Json.Members) (source : Path) : Json.Members :=
  Json.setMember "sources" (.array [.string (sourceText source)]) members

def write (c : Comment) (members : Json.Members) : String :=
  String.ofList (c.before ++ opening ++ writtenParameters ++ encode members ++ c.after)

def rewrite : SourceMapRewriter := fun output source =>
  match comment? output.toList with
  | none => .error .missingComment
  | some c =>
    match decode c.payload with
    | .error e => .error e
    | .ok members => .ok (write c (withSource members source))

end SourceMap

end Rebuild
