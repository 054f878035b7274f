import Rebuild.Proofs.Path.Spelling

/-!
# Relative paths

The way from a directory to a path below it is made of the names that are
left. Taking that way from any directory leads to the same names below it.
-/

set_option autoImplicit false

namespace Rebuild

theorem Component.route_append (cs ds : List Component) : route cs (cs ++ ds) = ds := by
  induction cs with
  | nil => cases ds <;> rfl
  | cons c cs ih => rw [List.cons_append, route, if_pos rfl, ih]

namespace CanonicalPath

def Below (p dir : CanonicalPath) : Prop :=
  ∃ names, names ≠ [] ∧ p = ⟨dir.rooted, dir.names ++ names⟩

theorem Below.last {p dir above : CanonicalPath} {n : Name} (h : p.Below dir)
    (hname : p.fileName? = some n) (hparent : p.parent? = some above) :
    ∃ names, above = ⟨dir.rooted, dir.names ++ names⟩ ∧
      p = ⟨dir.rooted, dir.names ++ (names ++ [n])⟩ := by
  obtain ⟨names, hnames, rfl⟩ := h
  obtain ⟨front, last, rfl⟩ := (List.eq_nil_or_concat' names).resolve_left hnames
  rw [← List.append_assoc] at hname hparent
  have hlast : last = n := by
    rw [fileName?, List.getLast?_concat] at hname
    exact Option.some.inj hname
  have habove : ⟨dir.rooted, dir.names ++ front⟩ = above := by
    simpa [parent?] using hparent
  exact ⟨front, habove.symm, by rw [hlast]⟩

theorem walk_names (dir : CanonicalPath) (names : List Name) :
    dir.walk (names.map Component.name) = ⟨dir.rooted, dir.names ++ names⟩ := by
  induction names generalizing dir with
  | nil => simp [walk]
  | cons n names ih =>
    rw [List.map_cons, walk, List.foldl_cons]
    change (dir.step (.name n)).walk (names.map Component.name) = _
    rw [ih]
    simp [step]

theorem join_toPath (dir p : CanonicalPath) :
    dir.join p.toPath = if p.rooted then p else ⟨dir.rooted, dir.names ++ p.names⟩ := by
  obtain ⟨rooted, names⟩ := p
  rw [join, toPath_components, components]
  cases rooted with
  | true =>
    change (dir.step .root).walk (names.map Component.name) = _
    rw [walk_names]
    rfl
  | false =>
    change dir.walk (names.map Component.name) = _
    rw [walk_names]
    rfl

theorem relativeTo_below (dir : CanonicalPath) (names : List Name) :
    (toPath ⟨dir.rooted, dir.names ++ names⟩).relativeTo dir.toPath = toPath ⟨false, names⟩ := by
  have hcomponents : components ⟨dir.rooted, dir.names ++ names⟩ =
      dir.components ++ names.map Component.name := by
    simp [components]
  rw [Path.relativeTo, toPath_components, toPath_components, hcomponents]
  by_cases hdir : dir.components = []
  · -- A directory without components is nowhere, and the path is relative already.
    obtain ⟨rooted, above⟩ := dir
    obtain ⟨rfl, rfl⟩ : rooted = false ∧ above = [] := by
      cases rooted <;> simp [components] at hdir
      exact ⟨rfl, hdir⟩
    split
    · rw [Component.route_append]
      rfl
    · rfl
  · have hhead : dir.components.head? = (dir.components ++ names.map Component.name).head? := by
      rw [List.head?_append_of_ne_nil _ hdir]
    rw [if_pos hhead, Component.route_append]
    rfl

end CanonicalPath

end Rebuild
