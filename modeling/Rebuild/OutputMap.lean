import Rebuild.FileKind

/-!
# Where outputs lie

A source below the root is moved to the same place below the output
directory, and an output is moved back. Sources that are not below the root
are reached by climbing.
-/

set_option autoImplicit false

namespace Rebuild

structure OutputMap where
  root : CanonicalPath
  out : CanonicalPath
  deriving DecidableEq

namespace OutputMap

def ofRoot (root : CanonicalPath) (out : Option CanonicalPath) : OutputMap :=
  ⟨root, out.getD root⟩

/-- The path `p` moved from the root to the output directory. -/
def relocate (m : OutputMap) (p : Path) : CanonicalPath :=
  m.out.join (p.relativeTo m.root.toPath)

def toOutput (m : OutputMap) (source : CanonicalPath) : CanonicalPath :=
  m.relocate source.toPath

def toSource (m : OutputMap) (output : CanonicalPath) : CanonicalPath :=
  m.root.join (output.relativeTo m.out)

def outputKey (m : OutputMap) (source : CanonicalPath) (preserveJsx : Bool) : CanonicalPath :=
  m.relocate (source.swapExtension ((FileKind.ofCanonical source).outputExtension preserveJsx))

end OutputMap

end Rebuild
