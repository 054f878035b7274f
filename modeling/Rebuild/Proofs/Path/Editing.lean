import Mathlib.Data.List.Induction
import Rebuild.Proofs.Path.Extension
import Rebuild.Proofs.Path.Resolving

/-!
# Editing paths

A canonical path is edited by joining another path to it, by going to its
parent and by swapping its extension. Swapping rebuilds the text, and a name
that has nothing but dots in front of its extension may turn into a climb. Its
path is not normal then. Swapping leaves it so, and the next join or parent
leads back to a normal path.
-/

set_option autoImplicit false

namespace Rebuild

/-! ## Climbs that are not taken -/

namespace CanonicalPath

def climbing (dir : CanonicalPath) : Path := dir.toPath.join ⟨".."⟩

theorem climbing_components (dir : CanonicalPath) :
    dir.climbing.components = dir.components ++ [.up] := by
  rw [climbing, Path.join_components_of_not_mem _ rfl (by decide), toPath_components]
  rfl

theorem climbing_isAbsolute (dir : CanonicalPath) : dir.climbing.isAbsolute = dir.rooted := by
  rw [← toPath_isAbsolute, Bool.eq_iff_iff, ← Path.root_mem_components,
    ← Path.root_mem_components, climbing_components, toPath_components]
  simp

theorem climbing_fileName? (dir : CanonicalPath) : dir.climbing.fileName? = none := by
  rw [Path.fileName?, climbing_components, List.getLast?_concat]

theorem climbing_swapExtension (dir : CanonicalPath) (ext : String) :
    dir.climbing.swapExtension ext = dir.climbing := by
  rw [Path.swapExtension, Path.extension?, climbing_fileName?, Option.bind_none,
    Option.isSome_none, if_neg (by decide)]

theorem climbing_parent? {dir : CanonicalPath} (h : dir.rooted = true) :
    dir.climbing.parent? = some dir.toPath := by
  obtain ⟨rooted, names⟩ := dir
  obtain rfl : rooted = true := h
  have hsegs := segments_toPath_join true names (show '/' ∉ (⟨".."⟩ : Path).text.toList by decide)
  rw [climbing, parent?_of_segments (by decide) (by decide) hsegs, leading_root]

theorem climbing_not_isNormal (dir : CanonicalPath) : ¬dir.climbing.IsNormal := by
  intro hnormal
  obtain ⟨c, -, hc⟩ := Path.isNormal_iff.mp hnormal
  have hup : .up ∈ c.components := by
    rw [← toPath_components, ← hc, climbing_components]
    simp
  rw [components] at hup
  cases hr : c.rooted <;> simp [hr] at hup

end CanonicalPath

namespace Path

open CanonicalPath

def Strays (p : Path) : Prop := ∃ dir : CanonicalPath, dir.rooted = true ∧ p = dir.climbing

/-- Whether the last name of a path is lost to an extension. Dots in front of it do not count. -/
def Loses (p : Path) (ext : String) : Prop :=
  ∃ n, p.fileName? = some n ∧ n.LostTo (ext.toList.dropWhile (· = '.'))

instance (p : Path) (ext : String) : Decidable (p.Loses ext) :=
  decidable_of_iff (p.fileName?.any fun n => n.LostTo (ext.toList.dropWhile (· = '.'))) (by
    simp [Loses, Option.any_eq_true])

theorem Strays.isAbsolute {p : Path} (h : p.Strays) : p.isAbsolute = true := by
  obtain ⟨dir, hrooted, rfl⟩ := h
  rw [climbing_isAbsolute, hrooted]

theorem Strays.not_isNormal {p : Path} (h : p.Strays) : ¬p.IsNormal := by
  obtain ⟨dir, -, rfl⟩ := h
  exact dir.climbing_not_isNormal

/-! ## One edit -/

inductive Edit where
  | join (p : Path)
  | parent
  | extension (ext : String)

def edit (p : Path) : Edit → Path
  | .join q => (q.canonicalize p).toPath
  | .parent => p.parent?.getD p
  | .extension ext => p.swapExtension ext

theorem IsNormal.edit_parent {p : Path} (h : p.IsNormal) : (p.edit .parent).IsNormal := by
  obtain ⟨c, hrooted, rfl⟩ := isNormal_iff.mp h
  rw [edit, toPath_parent?, CanonicalPath.parent?]
  split
  · exact h
  · rw [Option.map_some, Option.getD_some]
    exact isNormal_iff.mpr ⟨⟨c.rooted, c.names.dropLast⟩, hrooted, rfl⟩

theorem Strays.edit_parent {p : Path} (h : p.Strays) : (p.edit .parent).IsNormal := by
  obtain ⟨dir, hrooted, rfl⟩ := h
  rw [edit, climbing_parent? hrooted]
  exact isNormal_iff.mpr ⟨dir, hrooted, rfl⟩

theorem IsNormal.edit_extension {p : Path} (h : p.IsNormal) {ext : String}
    (hext : '/' ∉ ext.toList) (hkeep : ¬p.Loses ext) : (p.edit (.extension ext)).IsNormal := by
  obtain ⟨⟨rooted, names⟩, hrooted, rfl⟩ := isNormal_iff.mp h
  obtain rfl | ⟨names, n, rfl⟩ := List.eq_nil_or_concat' names
  · have hnone : (toPath ⟨rooted, []⟩).extension? = none := by
      rw [extension?, toPath_fileName?]
      rfl
    rw [edit, swapExtension, hnone]
    exact h
  · have hn : ¬n.LostTo (ext.toList.dropWhile (· = '.')) :=
      fun hlost => hkeep ⟨n, fileName?_toPath rooted names n, hlost⟩
    have hslash : '/' ∉ ext.toList.dropWhile (· = '.') :=
      fun hmem => hext ((List.dropWhile_sublist _).mem hmem)
    obtain ⟨m, hm⟩ := Name.exists_swapped hn hslash
    exact isNormal_iff.mpr ⟨⟨rooted, names ++ [m]⟩, hrooted, swapExtension_eq rooted names ext hn hm⟩

theorem IsNormal.edit_lost {p : Path} (h : p.IsNormal) {ext : String} (hlost : p.Loses ext) :
    (p.edit (.extension ext)).Strays := by
  obtain ⟨⟨rooted, names⟩, hrooted, rfl⟩ := isNormal_iff.mp h
  obtain ⟨n, hname, hn⟩ := hlost
  rw [toPath_fileName?, CanonicalPath.fileName?] at hname
  obtain ⟨front, rfl⟩ := List.getLast?_eq_some_iff.mp hname
  exact ⟨⟨rooted, front⟩, hrooted, swapExtension_lost rooted front ext hn⟩

theorem Strays.edit_extension {p : Path} (h : p.Strays) (ext : String) :
    (p.edit (.extension ext)).Strays := by
  obtain ⟨dir, hrooted, rfl⟩ := h
  exact ⟨dir, hrooted, climbing_swapExtension dir ext⟩

/-! ## Many edits -/

def edited (p : Path) (edits : List Edit) : Path := edits.foldl edit p

theorem edited_concat (p : Path) (edits : List Edit) (e : Edit) :
    p.edited (edits ++ [e]) = (p.edited edits).edit e := List.foldl_concat ..

/-- No name has been lost since the last join or parent: behind every extension that loses one
stands another kind of edit. -/
def Spared (p : Path) (edits : List Edit) : Prop :=
  ∀ (before : List Edit) (ext : String) (later : List String),
    edits = before ++ .extension ext :: later.map .extension → ¬(p.edited before).Loses ext

theorem spared_nil (p : Path) : p.Spared [] := by
  intro before ext later h
  simp at h

theorem spared_concat (p : Path) (edits : List Edit) {e : Edit} (h : ∀ ext, e ≠ .extension ext) :
    p.Spared (edits ++ [e]) := by
  intro before ext later hsplit
  obtain rfl | ⟨later, last, rfl⟩ := List.eq_nil_or_concat' later
  · exact absurd (List.append_inj_right' hsplit rfl) (by simpa using h ext)
  · rw [List.map_append, ← List.cons_append, ← List.append_assoc] at hsplit
    exact absurd (List.append_inj_right' hsplit rfl) (by simpa using h last)

theorem spared_extension (p : Path) (edits : List Edit) (ext : String) :
    p.Spared (edits ++ [.extension ext]) ↔ p.Spared edits ∧ ¬(p.edited edits).Loses ext := by
  constructor
  · intro h
    constructor
    · rintro before old later rfl
      exact h before old (later ++ [ext]) (by simp)
    · exact h edits ext [] rfl
  · rintro ⟨hbefore, hlast⟩ before old later hsplit
    obtain rfl | ⟨later, last, rfl⟩ := List.eq_nil_or_concat' later
    · obtain ⟨rfl, hold⟩ := List.append_inj' hsplit rfl
      obtain rfl : ext = old := by simpa using hold
      exact hlast
    · rw [List.map_append, ← List.cons_append, ← List.append_assoc] at hsplit
      exact hbefore before old later (List.append_inj_left' hsplit rfl)

/-- After any edits a path is normal if no name has been lost, and else it has a climb behind it. -/
theorem edited_cases {p : Path} (hp : p.IsNormal) (edits : List Edit)
    (hext : ∀ ext, .extension ext ∈ edits → '/' ∉ ext.toList) :
    (p.edited edits).IsNormal ∧ p.Spared edits ∨ (p.edited edits).Strays ∧ ¬p.Spared edits := by
  induction edits using List.reverseRecOn with
  | nil => exact Or.inl ⟨hp, p.spared_nil⟩
  | append_singleton edits e ih =>
    have hnow := ih fun ext hmem => hext ext (List.mem_append_left _ hmem)
    rw [edited_concat]
    cases e with
    | join q =>
      have habsolute : (p.edited edits).isAbsolute = true :=
        hnow.elim (fun h => h.1.isAbsolute) (fun h => h.1.isAbsolute)
      exact Or.inl ⟨q.isNormal_canonicalize habsolute, p.spared_concat edits (by simp)⟩
    | parent =>
      exact Or.inl ⟨hnow.elim (fun h => h.1.edit_parent) (fun h => h.1.edit_parent),
        p.spared_concat edits (by simp)⟩
    | extension ext =>
      rw [spared_extension]
      rcases hnow with ⟨hnormal, hspared⟩ | ⟨hstrays, hlost⟩
      · by_cases hloses : (p.edited edits).Loses ext
        · exact Or.inr ⟨hnormal.edit_lost hloses, fun h => h.2 hloses⟩
        · exact Or.inl ⟨hnormal.edit_extension (hext ext (by simp)) hloses, hspared, hloses⟩
      · exact Or.inr ⟨hstrays.edit_extension ext, fun h => hlost h.1⟩

/-- However a path is edited that was canonical from the anchor, it stays absolute. Resolving it
again leaves its text as it is exactly if no name has been lost to an extension since the last join
or parent. -/
theorem edited_canonical_iff (p : Path) {base : Path} (hbase : base.isAbsolute = true)
    (edits : List Edit) (hext : ∀ ext, .extension ext ∈ edits → '/' ∉ ext.toList) :
    let result := (p.canonicalize base).toPath.edited edits
    result.isAbsolute = true ∧
    ((∀ other : Path, (result.canonicalize other).text = result.text) ↔
      (p.canonicalize base).toPath.Spared edits) := by
  intro result
  rcases edited_cases (p.isNormal_canonicalize hbase) edits hext with
    ⟨hnormal, hspared⟩ | ⟨hstrays, hlost⟩
  · have habsolute := hnormal.isAbsolute
    exact ⟨habsolute, iff_of_true ((isNormal_iff_canonicalize habsolute).mp hnormal) hspared⟩
  · have habsolute := hstrays.isAbsolute
    exact ⟨habsolute, iff_of_false
      (fun h => hstrays.not_isNormal ((isNormal_iff_canonicalize habsolute).mpr h)) hlost⟩

theorem edited_canonical_iff_dots :
    let p : Path := ⟨"types.d.ts"⟩
    let base : Path := ⟨"/w"⟩
    let edits : List Edit := [.extension "..js", .parent, .join ⟨"../../...x"⟩, .extension ".ts"]
    let result := (p.canonicalize base).toPath.edited edits
    base.isAbsolute = true ∧ (∀ ext, .extension ext ∈ edits → '/' ∉ ext.toList) ∧
      result.text = "/...ts" ∧
      ∀ other : Path, (result.canonicalize other).text = "/...ts" := by
  intro p base edits result
  have hbase : base.isAbsolute = true := by decide
  have hext : ∀ ext, .extension ext ∈ edits → '/' ∉ ext.toList := by
    intro ext hmem
    have hmem' : ext = "..js" ∨ ext = ".ts" := by simpa [edits] using hmem
    rcases hmem' with rfl | rfl <;> decide
  have hspared : (p.canonicalize base).toPath.Spared edits :=
    (spared_extension _ (edits.take 3) ".ts").mpr
      ⟨spared_concat _ (edits.take 2) (by simp), by decide +kernel⟩
  have htext : result.text = "/...ts" := by decide +kernel
  refine ⟨hbase, hext, htext, fun other => ?_⟩
  exact ((edited_canonical_iff p hbase edits hext).2.mpr hspared other).trans htext

/-- A name whose stem is a dot becomes a climb, whatever extension it is given. -/
theorem edited_loses_name :
    let p : Path := (canonicalize ⟨"..foo"⟩ ⟨"/w"⟩).toPath
    let result := p.edited [.extension "js"]
    p.text = "/w/..foo" ∧ result.text = "/w/.." ∧ (result.canonicalize ⟨"/"⟩).text = "/" := by
  intro p result
  exact ⟨by decide +kernel, by decide +kernel, by decide +kernel⟩

end Path

end Rebuild
