import Rebuild.Path.Component

/-!
# Path texts

A path is the text it was written with. Its meaning is the list of its
components, by which paths are compared. Operations that build a new path
keep the text of the part they do not touch: a parent is a leading piece of
the text, and joining never normalizes.
-/

set_option autoImplicit false

namespace Rebuild

structure Path where
  text : String
  deriving DecidableEq, Repr

namespace Path

def segments (p : Path) : List (List Char) := Rebuild.segments p.text.toList

def ofSegments (segs : List (List Char)) : Path := ⟨String.ofList (joinSegments segs)⟩

/-- The first segment is empty in an absolute path, and alone in the empty one. -/
def anchor (first : List Char) (rest : List (List Char)) : List Component :=
  if first = [] then (if rest = [] then [] else [.root])
  else if first = ['.'] then [.here]
  else (Component.ofSegment? first).toList

def components (p : Path) : List Component :=
  match p.segments with
  | [] => []
  | first :: rest => anchor first rest ++ rest.filterMap Component.ofSegment?

def isAbsolute (p : Path) : Bool := p.text.toList.head? == some '/'

def compare (p q : Path) : Ordering := Ord.compare p.components q.components

def join (dir p : Path) : Path :=
  if p.isAbsolute then p
  else if dir.text = "" ∨ dir.text.toList.getLast? = some '/' then ⟨dir.text ++ p.text⟩
  else ⟨dir.text ++ "/" ++ p.text⟩

def ofComponents (cs : List Component) : Path :=
  cs.foldl (fun p c => p.join ⟨c.text⟩) ⟨""⟩

def dropBlank (backward : List (List Char)) : List (List Char) :=
  backward.dropWhile (fun s => s = [] ∨ s = ['.'])

def leading (first : List Char) (rest : List (List Char)) : Path :=
  if first = [] ∧ rest = [] then ⟨"/"⟩ else ofSegments (first :: rest)

def parent? (p : Path) : Option Path :=
  match p.segments with
  | [] => none
  | first :: rest =>
    match dropBlank rest.reverse with
    | _ :: before => some (leading first (dropBlank before).reverse)
    | [] => if first = [] then none else some ⟨""⟩

def fileName? (p : Path) : Option Name :=
  match p.components.getLast? with
  | some (.name n) => some n
  | _ => none

def splitLastDot (s : List Char) : Option (List Char × List Char) :=
  let after := s.reverse.takeWhile (· ≠ '.')
  match s.reverse.drop after.length with
  | [] => none
  | _ :: before => some (before.reverse, after.reverse)

/-- A name whose only dot comes first has no extension. -/
def stemAndExtension (name : String) : String × Option String :=
  match splitLastDot name.toList with
  | none => (name, none)
  | some ([], _) => (name, none)
  | some (stem, ext) => (String.ofList stem, some (String.ofList ext))

def fileStem? (p : Path) : Option String :=
  p.fileName?.map (fun n => (stemAndExtension n.text).1)

def extension? (p : Path) : Option String :=
  p.fileName?.bind (fun n => (stemAndExtension n.text).2)

def withLastSegment (p : Path) (s : List Char) : Path :=
  match p.segments with
  | [] => p
  | first :: rest =>
    match dropBlank rest.reverse with
    | _ :: before => ofSegments (first :: (s :: before).reverse)
    | [] => ofSegments [s]

/-- The old extension is cut off the end of the text before the name is looked
at again, so a name that has become a climb stays as it is. -/
def withExtension (p : Path) (ext : String) : Path :=
  let kept : Path := ⟨String.ofList (p.text.toList.take
    (p.text.length - (p.extension?.getD "").length))⟩
  match kept.fileStem? with
  | none => kept
  | some stem =>
    kept.withLastSegment (if ext = "" then stem else stem ++ "." ++ ext).toList

/-- A path without an extension keeps its text. Dots in front of `ext` are ignored. -/
def swapExtension (p : Path) (ext : String) : Path :=
  if p.extension?.isSome then
    p.withExtension (String.ofList (ext.toList.dropWhile (· = '.')))
  else p

/-- Whether some directory on the way to the last component has this text. -/
def passesThrough (p : Path) (name : String) : Bool :=
  match p.parent? with
  | none => false
  | some dir => dir.components.any (fun c => c.text == name)

/-- The way from `base` to `p`. Paths that start at different places have none,
and `p` itself is the answer. -/
def relativeTo (p base : Path) : Path :=
  if base.components.head? = p.components.head? then
    ofComponents (Component.route base.components p.components)
  else p

end Path

end Rebuild
