import Rebuild.Content.Hash
import Rebuild.Path.Basic
import Rebuild.Source.LineIndex

/-!
# Source files

The text of a file under the name that was given to the parser. Places in the
text are answered by line and column for people.
-/

set_option autoImplicit false

namespace Rebuild

structure Location where
  file : Path
  line : UInt32
  column : UInt32
  deriving DecidableEq, Repr

def Location.text (l : Location) : String :=
  l.file.text ++ "(" ++ l.line.toNat.repr ++ "," ++ l.column.toNat.repr ++ ")"

structure SourceFile where
  path : Path
  content : String
  deriving DecidableEq, Repr

namespace SourceFile

def lineIndex (f : SourceFile) : LineIndex := .ofText f.content

def lineCount (f : SourceFile) : Nat := f.lineIndex.lineCount

def contentHash (f : SourceFile) : ContentHash := .ofText f.content

def lineColumn (f : SourceFile) (offset : UInt32) : UInt32 × UInt32 :=
  f.lineIndex.lineColumn offset

def location (f : SourceFile) (offset : UInt32) : Location :=
  ⟨f.path, (f.lineColumn offset).1, (f.lineColumn offset).2⟩

def charOffset (f : SourceFile) (bytes : Nat) : UInt32 :=
  let last := boundary f.content (min bytes f.content.utf8ByteSize)
  UInt32.ofNat (f.content.extract f.content.startPos last).length

end SourceFile

end Rebuild
