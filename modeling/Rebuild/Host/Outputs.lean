import Rebuild.Disk.Follow
import Rebuild.OutputMap

/-!
# Stored outputs

Outputs are kept under their canonical paths. An output whose source lies
behind a linked directory is also kept under the output path of the real
source, so that both views of the file find it.
-/

set_option autoImplicit false

namespace Rebuild

abbrev Outputs := Std.TreeMap CanonicalPath ByteArray

/-- Where written outputs go. -/
structure OutputPlace where
  currentDir : CanonicalPath
  map : OutputMap

namespace OutputPlace

def realSource? (w : OutputPlace) (disk : Disk) (source : CanonicalPath) :
    Option CanonicalPath :=
  match source.fileName?, source.parent? with
  | some name, some dir =>
    match disk.follow dir.toPath with
    | .ok realDir =>
      let real := w.currentDir.join (realDir.join ⟨name.text⟩)
      if real = source then none else some real
    | .error _ => none
  | _, _ => none

def realOutput? (w : OutputPlace) (disk : Disk) (key : CanonicalPath) : Option CanonicalPath :=
  (w.realSource? disk (w.map.toSource key)).map w.map.toOutput

/-- The copy is stored first, so the output itself wins where both fall together. -/
def write (w : OutputPlace) (disk : Disk) (outputs : Outputs) (path : Path) (data : ByteArray) :
    Outputs :=
  let key := w.currentDir.join path
  let outputs := match w.realOutput? disk key with
    | some real => outputs.insert real data
    | none => outputs
  outputs.insert key data

def writeAll (w : OutputPlace) (disk : Disk) (outputs : Outputs)
    (writes : List (Path × ByteArray)) : Outputs :=
  writes.foldl (fun outputs f => w.write disk outputs f.1 f.2) outputs

end OutputPlace

end Rebuild
