import Rebuild.Proofs.Path.Joining
import Rebuild.Proofs.Path.Relative

/-!
# Resolving paths

A path is resolved by taking its components one after another. What has been
reached may be kept as a text as well: whether a climb is held up at the
anchor is then read off that text, and both ways of keeping it come to the
same. Resolving in two steps is resolving the joined text. The text that comes
out is normal, and resolving leaves exactly the normal texts as they are.
-/

set_option autoImplicit false

namespace Rebuild

namespace CanonicalPath

theorem walk_dropHere (dir : CanonicalPath) (cs : List Component) :
    dir.walk (Component.dropHere cs) = dir.walk cs := by
  cases cs with
  | nil => rfl
  | cons c cs => cases c <;> rfl

/-- Joining a joined path goes on from where its first half leads. -/
theorem join_join (dir : CanonicalPath) (p q : Path) : dir.join (p.join q) = (dir.join p).join q := by
  cases hq : q.isAbsolute with
  | true =>
    rw [Path.join_of_isAbsolute p hq]
    exact join_of_isAbsolute _ _ hq
  | false =>
    by_cases hp : p.text = ""
    · obtain rfl : p = ⟨""⟩ := congrArg Path.mk hp
      rw [Path.empty_join]
      rfl
    · rw [join, Path.join_components p hq hp, walk_append, walk_dropHere]
      rfl

theorem nowhere_join_toPath (p : CanonicalPath) : nowhere.join p.toPath = p := by
  obtain ⟨rooted, names⟩ := p
  rw [join_toPath]
  cases rooted <;> rfl

theorem join_eq_canonicalize (dir : CanonicalPath) (p : Path) :
    dir.join p = p.canonicalize dir.toPath := by
  rw [Path.canonicalize, nowhere_join_toPath]

end CanonicalPath

namespace Path

theorem canonicalize_eq_join (p base : Path) :
    p.canonicalize base = CanonicalPath.nowhere.join (base.join p) :=
  (CanonicalPath.join_join ..).symm

/-! ## Texts -/

/-- A step of resolving that keeps a text. A climb is held up where the text ends at its anchor. -/
def advance (reached : Path) : Component → Path
  | .root => reached.join ⟨"/"⟩
  | .here => reached
  | .up =>
    if reached.components.getLast?.all (· = .root) then reached
    else reached.parent?.getD reached
  | .name n => reached.join ⟨n.text⟩

def resolve (p : Path) : Path := p.components.foldl advance ⟨""⟩

theorem advance_toPath (dir : CanonicalPath) (c : Component) :
    dir.toPath.advance c = (dir.step c).toPath := by
  obtain ⟨rooted, names⟩ := dir
  cases c with
  | root => exact join_of_isAbsolute _ rfl
  | here => rfl
  | name n => exact CanonicalPath.toPath_join_name rooted names n
  | up =>
    rw [advance, CanonicalPath.toPath_components, CanonicalPath.toPath_parent?]
    obtain rfl | ⟨names, n, rfl⟩ := List.eq_nil_or_concat' names
    · cases rooted <;> rfl
    · have hlast : (CanonicalPath.components ⟨rooted, names ++ [n]⟩).getLast? = some (.name n) := by
        simp [CanonicalPath.components]
      rw [hlast]
      simp [CanonicalPath.parent?, CanonicalPath.step]

theorem foldl_advance (dir : CanonicalPath) (cs : List Component) :
    cs.foldl advance dir.toPath = (dir.walk cs).toPath := by
  induction cs generalizing dir with
  | nil => rfl
  | cons c cs ih =>
    rw [List.foldl_cons, advance_toPath, ih]
    rfl

theorem resolve_join (base p : Path) : (base.join p).resolve = (p.canonicalize base).toPath := by
  rw [canonicalize_eq_join]
  exact foldl_advance CanonicalPath.nowhere (base.join p).components

end Path

/-- Resolving a path below a directory and another one from there is resolving the two texts
joined, whatever they are; so it is when all that is kept between the steps is a text. -/
theorem CanonicalPath.join_assoc (dir : CanonicalPath) (p q : Path) :
    (dir.join p).join q = dir.join (p.join q) ∧
    ((dir.toPath.join p).resolve.join q).resolve = (dir.toPath.join (p.join q)).resolve := by
  refine ⟨(join_join dir p q).symm, ?_⟩
  calc ((dir.toPath.join p).resolve.join q).resolve = ((dir.join p).toPath.join q).resolve := by
        rw [Path.resolve_join dir.toPath, ← join_eq_canonicalize]
    _ = ((dir.join p).join q).toPath := by rw [Path.resolve_join, ← join_eq_canonicalize]
    _ = (dir.join (p.join q)).toPath := by rw [join_join]
    _ = (dir.toPath.join (p.join q)).resolve := by rw [Path.resolve_join, ← join_eq_canonicalize]

namespace Path

/-! ## Normal texts -/

/-- The text of a normal path is a separator and then its names with single separators between
them. -/
def IsNormal (p : Path) : Prop :=
  ∃ names : List Name, p.text.toList = '/' :: joinSegments (names.map Name.chars)

theorem isNormal_iff {p : Path} :
    p.IsNormal ↔ ∃ c : CanonicalPath, c.rooted = true ∧ p = c.toPath := by
  constructor
  · rintro ⟨names, hnames⟩
    refine ⟨⟨true, names⟩, rfl, ext_chars ?_⟩
    rw [hnames, CanonicalPath.toPath_chars]
    rfl
  · rintro ⟨⟨rooted, names⟩, rfl, rfl⟩
    refine ⟨names, ?_⟩
    rw [CanonicalPath.toPath_chars]
    rfl

theorem IsNormal.isAbsolute {p : Path} (h : p.IsNormal) : p.isAbsolute = true := by
  obtain ⟨c, hrooted, rfl⟩ := isNormal_iff.mp h
  rw [CanonicalPath.toPath_isAbsolute, hrooted]

theorem IsNormal.canonicalize {p : Path} (h : p.IsNormal) (base : Path) :
    (p.canonicalize base).toPath = p := by
  obtain ⟨c, hrooted, rfl⟩ := isNormal_iff.mp h
  rw [Path.canonicalize, CanonicalPath.join_toPath, if_pos hrooted]

theorem canonicalize_rooted (p : Path) {base : Path} (hbase : base.isAbsolute = true) :
    (p.canonicalize base).rooted = true :=
  CanonicalPath.walk_rooted (CanonicalPath.join_rooted _ hbase) _

theorem isNormal_canonicalize (p : Path) {base : Path} (hbase : base.isAbsolute = true) :
    (p.canonicalize base).toPath.IsNormal :=
  isNormal_iff.mpr ⟨_, p.canonicalize_rooted hbase, rfl⟩

theorem isNormal_iff_canonicalize {p : Path} (h : p.isAbsolute = true) :
    p.IsNormal ↔ ∀ base : Path, (p.canonicalize base).text = p.text := by
  constructor
  · intro hnormal base
    exact congrArg Path.text (hnormal.canonicalize base)
  · intro hsame
    have hfixed : (p.canonicalize p).toPath = p := congrArg Path.mk (hsame p)
    rw [← hfixed]
    exact p.isNormal_canonicalize h

/-- Seen from an absolute directory every text leads to a normal one. From there it leads nowhere
else, whatever directory it is seen from; how the directory is spelled does not matter; and a text
that is normal already is the only kind that stays. -/
theorem canonicalize_normal (p : Path) {base : Path} (hbase : base.isAbsolute = true) :
    (p.canonicalize base).toPath.IsNormal ∧
    (∀ other : Path,
      ((p.canonicalize base).toPath.canonicalize other).text = (p.canonicalize base).text) ∧
    p.canonicalize (base.canonicalize base).toPath = p.canonicalize base ∧
    ((p.canonicalize base).toPath = p ↔ p.IsNormal) := by
  have hnormal := p.isNormal_canonicalize hbase
  refine ⟨hnormal, fun other => congrArg Path.text (hnormal.canonicalize other), ?_, ?_⟩
  · rw [← CanonicalPath.join_eq_canonicalize, canonicalize_eq_join base,
      join_of_isAbsolute base hbase]
    rfl
  · constructor
    · intro hsame
      rwa [hsame] at hnormal
    · intro hp
      exact hp.canonicalize base

theorem canonicalize_normal_climbing :
    let p : Path := ⟨"../..//a/./b/"⟩
    let base : Path := ⟨"/w/"⟩
    base.isAbsolute = true ∧ (p.canonicalize base).text = "/a/b" ∧
      (∀ other : Path, ((p.canonicalize base).toPath.canonicalize other).text = "/a/b") ∧
      ¬p.IsNormal := by
  intro p base
  have hbase : base.isAbsolute = true := by decide
  obtain ⟨-, hagain, -, hkept⟩ := canonicalize_normal p hbase
  have htext : (p.canonicalize base).text = "/a/b" := by decide +kernel
  exact ⟨hbase, htext, fun other => (hagain other).trans htext, mt hkept.mpr (by decide +kernel)⟩

end Path

end Rebuild
