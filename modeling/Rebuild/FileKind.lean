import Rebuild.Path.Canonical

/-!
# Kinds of source files

The kind of a file is read off the end of its name, in any letter case of
ASCII. It decides whether the file is compiled and which extension the
compiled text gets.
-/

set_option autoImplicit false

namespace Rebuild

inductive FileKind where
  | declaration
  | typeScript
  | tsx
  | javaScript
  | other
  deriving DecidableEq, Repr

namespace FileKind

def endsWith (name ending : List Char) : Bool := ending.isSuffixOf name

def ofName (name : String) : FileKind :=
  let lower := name.toList.map Char.toLower
  if endsWith lower ['.', 'd', '.', 't', 's'] then .declaration
  else if endsWith lower ['.', 't', 's', 'x'] then .tsx
  else if endsWith lower ['.', 't', 's'] then .typeScript
  else if endsWith lower ['.', 'j', 's'] || endsWith lower ['.', 'j', 's', 'x'] then .javaScript
  else .other

def ofPath (p : Path) : FileKind :=
  match p.fileName? with
  | some n => ofName n.text
  | none => .other

def ofCanonical (p : CanonicalPath) : FileKind := ofPath p.toPath

def isTypeScript : FileKind → Bool
  | .declaration | .typeScript | .tsx => true
  | .javaScript | .other => false

def outputExtension (preserveJsx : Bool) : FileKind → String
  | .tsx => if preserveJsx then "jsx" else "js"
  | _ => "js"

end FileKind

end Rebuild
