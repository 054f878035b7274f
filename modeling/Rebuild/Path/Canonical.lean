import Rebuild.Path.Basic

/-!
# Canonical paths

A canonical path is the identity of a file: an anchor and the names from it.
It is computed from the text alone. A climb at the anchor stays there. Paths
below a relative base have no anchor.
-/

set_option autoImplicit false

namespace Rebuild

structure CanonicalPath where
  rooted : Bool
  names : List Name
  deriving DecidableEq

namespace CanonicalPath

def nowhere : CanonicalPath := ⟨false, []⟩

def step (dir : CanonicalPath) : Component → CanonicalPath
  | .root => ⟨true, []⟩
  | .here => dir
  | .up => ⟨dir.rooted, dir.names.dropLast⟩
  | .name n => ⟨dir.rooted, dir.names ++ [n]⟩

def walk (dir : CanonicalPath) (cs : List Component) : CanonicalPath := cs.foldl step dir

theorem walk_append (dir : CanonicalPath) (cs ds : List Component) :
    dir.walk (cs ++ ds) = (dir.walk cs).walk ds := List.foldl_append ..

def join (dir : CanonicalPath) (p : Path) : CanonicalPath := dir.walk p.components

def components (p : CanonicalPath) : List Component :=
  (if p.rooted then [.root] else []) ++ p.names.map .name

theorem components_injective {p q : CanonicalPath} (h : p.components = q.components) :
    p = q := by
  obtain ⟨pr, pn⟩ := p
  obtain ⟨qr, qn⟩ := q
  have inj : ∀ a b : List Name, a.map Component.name = b.map Component.name → a = b :=
    fun a b hab => (List.map_inj_right (fun _ _ e => by injection e)).mp hab
  cases pr <;> cases qr
  · simp only [components, Bool.false_eq_true, if_false, List.nil_append] at h
    rw [inj _ _ h]
  · cases pn <;> simp [components] at h
  · cases qn <;> simp [components] at h
  · simp only [components, if_true, List.cons_append, List.nil_append,
      List.cons.injEq, true_and] at h
    rw [inj _ _ h]

def toPath (p : CanonicalPath) : Path := Path.ofComponents p.components

def text (p : CanonicalPath) : String := p.toPath.text

instance : Ord CanonicalPath := ⟨compareOn components⟩

instance : Std.TransOrd CanonicalPath := inferInstanceAs (Std.TransCmp (compareOn components))

instance : Std.LawfulEqOrd CanonicalPath where
  compare_self {p} := by
    show compare p.components p.components = .eq
    exact Std.ReflCmp.compare_self
  eq_of_compare {p q} h :=
    components_injective
      (Std.LawfulEqCmp.eq_of_compare (show compare p.components q.components = .eq from h))

def depth (p : CanonicalPath) : Nat := p.names.length

def parent? (p : CanonicalPath) : Option CanonicalPath :=
  if p.names = [] then none else some ⟨p.rooted, p.names.dropLast⟩

def fileName? (p : CanonicalPath) : Option Name := p.names.getLast?

def swapExtension (p : CanonicalPath) (ext : String) : Path := p.toPath.swapExtension ext

def passesThrough (p : CanonicalPath) (name : String) : Bool := p.toPath.passesThrough name

def relativeTo (p base : CanonicalPath) : Path := p.toPath.relativeTo base.toPath

end CanonicalPath

namespace Path

def canonicalize (p base : Path) : CanonicalPath := (CanonicalPath.nowhere.join base).join p

def canonical (p : Path) : CanonicalPath := p.canonicalize ⟨"/"⟩

end Path

end Rebuild
