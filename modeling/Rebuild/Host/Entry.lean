import Rebuild.Json.Value
import Rebuild.Path.Canonical

/-!
# Entry rows

A build tool names its entry files in rows. A row has a name, and perhaps the
text itself or a directory the name is relative to. Rows with a text and
relative names without a directory name no file on disk.
-/

set_option autoImplicit false

namespace Rebuild

structure EntryRow where
  file : Option String
  id : Option String
  source : Option String
  baseDir : Option Path
  deriving DecidableEq, Repr

namespace EntryRow

def name? (r : EntryRow) : Option String := r.file.orElse (fun _ => r.id)

def text? : Option Json → Option (Option String)
  | none => some none
  | some .null => some none
  | some (.string s) => some (some s)
  | some _ => none

def ofFields? (file id source baseDir : Option Json) : Option EntryRow := do
  let file ← text? file
  let id ← text? id
  let source ← text? source
  let baseDir ← text? baseDir
  some ⟨file, id, source, baseDir.map Path.mk⟩

/-- A row is an object, or the list of its fields in order with the last ones left out. -/
def ofJson? : Json → Option EntryRow
  | .object members =>
    ofFields? (Json.member? "file" members) (Json.member? "id" members)
      (Json.member? "source" members) (Json.member? "basedir" members)
  | .array items =>
    if items.length ≤ 4 then ofFields? items[0]? items[1]? items[2]? items[3]? else none
  | _ => none

def listOfJson? : Json → Option (List EntryRow)
  | .array items => items.mapM ofJson?
  | _ => none

end EntryRow

structure EntrySelection where
  entries : List Path
  ignored : List String
  deriving DecidableEq, Repr

namespace EntrySelection

def empty : EntrySelection := ⟨[], []⟩

def ofRow (r : EntryRow) : EntrySelection :=
  match r.name? with
  | none => empty
  | some name =>
    if r.source.isSome then ⟨[], [name]⟩
    else match r.baseDir with
      | some dir => ⟨[(Path.canonicalize ⟨name⟩ dir).toPath], []⟩
      | none => if Path.isAbsolute ⟨name⟩ then ⟨[⟨name⟩], []⟩ else ⟨[], [name]⟩

def append (a b : EntrySelection) : EntrySelection :=
  ⟨a.entries ++ b.entries, a.ignored ++ b.ignored⟩

def ofRows (rows : List EntryRow) : EntrySelection :=
  (rows.map ofRow).foldr append empty

end EntrySelection

end Rebuild
