import Rebuild.OutputMap
import Rebuild.Proofs.Path.Extension
import Rebuild.Proofs.Path.Relative

/-!
# Output keys

What is below the root and what is below the output directory are moved to
each other, and there and back again is the same place. The key of a source is
the output of the source with another last name, which is read off the name
that it had. So two sources of one name get the same new name, wherever they
are.
-/

set_option autoImplicit false

namespace Rebuild

namespace FileKind

theorem ofCanonical_name (rooted : Bool) (names : List Name) (n : Name) :
    ofCanonical ⟨rooted, names ++ [n]⟩ = ofName n.text := by
  rw [ofCanonical, ofPath, CanonicalPath.fileName?_toPath]

theorem outputExtension_not_mem (kind : FileKind) (preserveJsx : Bool) :
    '/' ∉ (kind.outputExtension preserveJsx).toList := by
  cases kind <;> cases preserveJsx <;> decide

theorem dot_not_mem_outputExtension (kind : FileKind) (preserveJsx : Bool) :
    '.' ∉ (kind.outputExtension preserveJsx).toList := by
  cases kind <;> cases preserveJsx <;> decide

theorem outputExtension_dropWhile (kind : FileKind) (preserveJsx : Bool) :
    (kind.outputExtension preserveJsx).toList.dropWhile (· = '.') =
      (kind.outputExtension preserveJsx).toList := by
  cases kind <;> cases preserveJsx <;> rfl

theorem outputExtension_ne_nil (kind : FileKind) (preserveJsx : Bool) :
    (kind.outputExtension preserveJsx).toList ≠ [] := by
  cases kind <;> cases preserveJsx <;> decide

end FileKind

def Name.outputChars (n : Name) (preserveJsx : Bool) : List Char :=
  n.swapped ((FileKind.ofName n.text).outputExtension preserveJsx).toList

namespace OutputMap

variable (map : OutputMap)

theorem toOutput_below (names : List Name) :
    map.toOutput ⟨map.root.rooted, map.root.names ++ names⟩ =
      ⟨map.out.rooted, map.out.names ++ names⟩ := by
  rw [toOutput, relocate, CanonicalPath.relativeTo_below, CanonicalPath.join_toPath]
  rfl

theorem toSource_below (names : List Name) :
    map.toSource ⟨map.out.rooted, map.out.names ++ names⟩ =
      ⟨map.root.rooted, map.root.names ++ names⟩ := by
  rw [toSource, CanonicalPath.relativeTo, CanonicalPath.relativeTo_below,
    CanonicalPath.join_toPath]
  rfl

/-- The key of a source is the output of a source with another last name, and that name depends
on the name of the source alone. -/
theorem exists_outputName {n : Name} (preserveJsx : Bool)
    (hn : ¬n.LostTo ((FileKind.ofName n.text).outputExtension preserveJsx).toList) :
    ∃ m : Name, m.chars = n.outputChars preserveJsx ∧
      ∀ (map : OutputMap) (rooted : Bool) (names : List Name),
        map.outputKey ⟨rooted, names ++ [n]⟩ preserveJsx =
          map.toOutput ⟨rooted, names ++ [m]⟩ := by
  obtain ⟨m, hm⟩ := Name.exists_swapped hn
    (FileKind.outputExtension_not_mem (FileKind.ofName n.text) preserveJsx)
  refine ⟨m, hm, fun map rooted names => ?_⟩
  have hext := FileKind.outputExtension_dropWhile (FileKind.ofName n.text) preserveJsx
  rw [← hext] at hn hm
  rw [outputKey, FileKind.ofCanonical_name, CanonicalPath.swapExtension_eq rooted names _ hn hm]
  rfl

end OutputMap

end Rebuild
