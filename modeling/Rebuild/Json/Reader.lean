import Rebuild.Json.Token

/-!
# Reading JSON

Tokens are put together on a stack of open arrays and objects. A text is one
document with blanks around it.
-/

set_option autoImplicit false

namespace Rebuild.Json

/-- A container as far as it has been read. The last of what it lists comes first. -/
inductive Frame where
  | array (backward : List Document)
  | object (backward : Document.Entries) (key : List TextUnit)

inductive Reader where
  | value (stack : List Frame)
  | firstItem (stack : List Frame)
  | firstKey (stack : List Frame)
  | nextKey (backward : Document.Entries) (stack : List Frame)
  | colon (backward : Document.Entries) (key : List TextUnit) (stack : List Frame)
  | done (d : Document) (stack : List Frame)

namespace Reader

def startValue (stack : List Frame) : Token → Option Reader
  | .null => some (.done .null stack)
  | .bool b => some (.done (.bool b) stack)
  | .number n => some (.done (.number n) stack)
  | .text units => some (.done (.text units) stack)
  | .openArray => some (.firstItem stack)
  | .openObject => some (.firstKey stack)
  | _ => none

def afterValue (d : Document) : List Frame → Token → Option Reader
  | .array items :: stack, .comma => some (.value (.array (d :: items) :: stack))
  | .array items :: stack, .closeArray => some (.done (.array (d :: items).reverse) stack)
  | .object entries key :: stack, .comma => some (.nextKey ((key, d) :: entries) stack)
  | .object entries key :: stack, .closeObject =>
    some (.done (.object ((key, d) :: entries).reverse) stack)
  | _, _ => none

def step : Reader → Token → Option Reader
  | .value stack, t => startValue stack t
  | .firstItem stack, .closeArray => some (.done (.array []) stack)
  | .firstItem stack, t => startValue (.array [] :: stack) t
  | .firstKey stack, .closeObject => some (.done (.object []) stack)
  | .firstKey stack, .text key => some (.colon [] key stack)
  | .firstKey _, _ => none
  | .nextKey entries stack, .text key => some (.colon entries key stack)
  | .nextKey _ _, _ => none
  | .colon entries key stack, .colon => some (.value (.object entries key :: stack))
  | .colon _ _ _, _ => none
  | .done d stack, t => afterValue d stack t

def finish? : Reader → Option Document
  | .done d [] => some d
  | _ => none

end Reader

namespace Document

def ofTokens? (ts : List Token) : Option Document :=
  (ts.foldlM Reader.step (Reader.value [])).bind Reader.finish?

def ofChars? (cs : List Char) : Option Document := (tokens? cs).bind ofTokens?

def parse? (s : String) : Option Document := ofChars? s.toList

end Document

def parse? (s : String) : Option Json := (Document.parse? s).bind (Document.toJson? Document.maxDepth)

end Rebuild.Json
