import Mathlib.Data.List.TakeDrop
import Rebuild.Proofs.Path.Resolving

/-!
# Surplus climbs

A relative path climbs over names of its own, and once these are used up over
those of the directory it is resolved below. A path that is resolved before
the directory is known has only its own names, and the surplus climbs are
lost: the directory then keeps the names they would have taken.
-/

set_option autoImplicit false

namespace Rebuild

/-- How many climbs find no name that was passed before them, with `own` such names at the
start. -/
def Component.surplus : Nat → List Component → Nat
  | _, [] => 0
  | own, .root :: cs => surplus own cs
  | own, .here :: cs => surplus own cs
  | own, .name _ :: cs => surplus (own + 1) cs
  | 0, .up :: cs => surplus 0 cs + 1
  | own + 1, .up :: cs => surplus own cs

def Path.surplus (p : Path) : Nat := Component.surplus 0 p.components

namespace CanonicalPath

open Component

/-- A walk takes one name of the directory for each surplus climb, and adds the names that are
left of its own. -/
theorem walk_below (rooted : Bool) (above own : List Name) {cs : List Component}
    (hcs : .root ∉ cs) :
    walk ⟨rooted, above ++ own⟩ cs =
      ⟨rooted, above.take (above.length - surplus own.length cs) ++
        (walk ⟨false, own⟩ cs).names⟩ := by
  induction cs generalizing above own with
  | nil => simp [walk, surplus]
  | cons c cs ih =>
    rw [List.mem_cons, not_or] at hcs
    obtain ⟨hc, hrest⟩ := hcs
    cases c with
    | root => exact absurd rfl hc
    | here =>
      rw [surplus]
      exact ih above own hrest
    | name n =>
      have hpassed := ih above (own ++ [n]) hrest
      rw [← List.append_assoc, List.length_append] at hpassed
      rw [surplus]
      exact hpassed
    | up =>
      obtain rfl | ⟨own, n, rfl⟩ := List.eq_nil_or_concat' own
      · -- The directory gives up its last name.
        have htaken := ih above.dropLast [] hrest
        have hlength : min (above.length - 1 - surplus 0 cs) (above.length - 1) =
            above.length - (surplus 0 cs + 1) := by omega
        rw [List.length_dropLast, List.dropLast_eq_take, List.take_take, List.length_nil,
          hlength, ← List.dropLast_eq_take, List.append_nil] at htaken
        rw [List.append_nil, List.length_nil, surplus]
        exact htaken
      · have hclimbed := ih above own hrest
        have hup (rooted : Bool) (names : List Name) :
            walk ⟨rooted, names ++ [n]⟩ (.up :: cs) = walk ⟨rooted, names⟩ cs := by
          rw [walk, List.foldl_cons, step, List.dropLast_concat]
          rfl
        rw [← List.append_assoc, hup, hup, List.length_append, List.length_singleton, surplus]
        exact hclimbed

theorem join_below (dir : CanonicalPath) {p : Path} (hp : p.isAbsolute = false) :
    dir.join p = ⟨dir.rooted,
      dir.names.take (dir.names.length - p.surplus) ++ (nowhere.join p).names⟩ := by
  have hroot : .root ∉ p.components := fun h =>
    Bool.eq_false_iff.mp hp (Path.root_mem_components.mp h)
  have hwalk := walk_below dir.rooted dir.names [] hroot
  rw [List.append_nil] at hwalk
  exact hwalk

theorem nowhere_join_rooted (p : Path) : (nowhere.join p).rooted = p.isAbsolute := by
  cases hp : p.isAbsolute with
  | true => exact join_rooted nowhere hp
  | false => rw [join_below nowhere hp]; rfl

theorem join_resolved (dir : CanonicalPath) {p : Path} (hp : p.isAbsolute = false) :
    dir.join (nowhere.join p).toPath = ⟨dir.rooted, dir.names ++ (nowhere.join p).names⟩ := by
  rw [join_toPath, nowhere_join_rooted, hp, if_neg (by decide)]

/-- Resolving a path by itself before it is resolved below a directory comes to the same unless a
surplus climb meets a name of the directory. -/
theorem join_resolved_iff (dir : CanonicalPath) (p : Path) :
    dir.join (nowhere.join p).toPath = dir.join p ↔
      p.isAbsolute = true ∨ dir.names = [] ∨ p.surplus = 0 := by
  cases hp : p.isAbsolute with
  | true =>
    rw [join_toPath, nowhere_join_rooted, hp, if_pos rfl]
    exact iff_of_true (join_of_isAbsolute _ _ hp) (Or.inl rfl)
  | false =>
    rw [join_resolved dir hp, join_below dir hp, CanonicalPath.mk.injEq, List.append_left_inj,
      List.take_self_eq_iff]
    have hlength : dir.names = [] ↔ dir.names.length = 0 := List.length_eq_zero_iff.symm
    rw [hlength]
    simp only [true_and, Bool.false_eq_true, false_or]
    omega

end CanonicalPath

end Rebuild
