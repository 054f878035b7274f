import Mathlib.Data.List.Basic
import Rebuild.Path.Canonical

/-!
# The spelling of a canonical path

A canonical path is spelled with single separators between its names. Reading
the spelling gives the components back, and the parent of the spelling is the
spelling of the parent. So the directories on the way to a file are read off
its components.
-/

set_option autoImplicit false

namespace Rebuild

theorem segments_of_not_mem {s : List Char} (h : '/' ∉ s) : segments s = [s] := by
  induction s with
  | nil => rfl
  | cons c cs ih =>
    obtain ⟨hc, hcs⟩ := not_or.mp (fun hm => h (List.mem_cons.mpr hm))
    rw [segments, if_neg (Ne.symm hc), ih hcs]

theorem segments_append_separator {s : List Char} (t : List Char) (h : '/' ∉ s) :
    segments (s ++ '/' :: t) = s :: segments t := by
  induction s with
  | nil => rfl
  | cons c cs ih =>
    obtain ⟨hc, hcs⟩ := not_or.mp (fun hm => h (List.mem_cons.mpr hm))
    rw [List.cons_append, segments, if_neg (Ne.symm hc), ih hcs]

theorem joinSegments_cons_cons (s t : List Char) (rest : List (List Char)) :
    joinSegments (s :: t :: rest) = s ++ '/' :: joinSegments (t :: rest) := rfl

theorem joinSegments_append (d s : List Char) (rest : List (List Char)) :
    joinSegments ((d ++ s) :: rest) = d ++ joinSegments (s :: rest) := by
  cases rest with
  | nil => rfl
  | cons t rest => simp [joinSegments_cons_cons]

theorem segments_joinSegments {segs : List (List Char)} (hne : segs ≠ [])
    (h : ∀ s ∈ segs, '/' ∉ s) : segments (joinSegments segs) = segs := by
  induction segs with
  | nil => exact absurd rfl hne
  | cons s rest ih =>
    have hs := h s (by simp)
    cases rest with
    | nil => exact segments_of_not_mem hs
    | cons t rest =>
      rw [joinSegments_cons_cons, segments_append_separator _ hs,
        ih (by simp) (fun u hu => h u (by simp [hu]))]

namespace Name

def chars (n : Name) : List Char := n.text.toList

theorem chars_ne_nil (n : Name) : n.chars ≠ [] := fun h =>
  n.isName.1 (String.toList_eq_nil_iff.mp h)

theorem chars_ne_dot (n : Name) : n.chars ≠ ['.'] := fun h =>
  n.isName.2.1 (String.toList_inj.mp h)

theorem chars_ne_dots (n : Name) : n.chars ≠ ['.', '.'] := fun h =>
  n.isName.2.2.1 (String.toList_inj.mp h)

theorem not_mem_chars (n : Name) : '/' ∉ n.chars := n.isName.2.2.2

theorem ofSegment?_chars (n : Name) : Component.ofSegment? n.chars = some (.name n) := by
  rw [Component.ofSegment?, if_neg n.chars_ne_dots]
  simp [chars]

end Name

namespace Path

theorem ext_chars {p q : Path} (h : p.text.toList = q.text.toList) : p = q :=
  congrArg Path.mk (String.toList_inj.mp h)

theorem isAbsolute_of_not_mem {p : Path} (h : '/' ∉ p.text.toList) : p.isAbsolute = false := by
  rw [isAbsolute, beq_eq_false_iff_ne]
  exact fun hhead => h (List.mem_of_mem_head? hhead)

theorem isAbsolute_name (n : Name) : isAbsolute ⟨n.text⟩ = false :=
  isAbsolute_of_not_mem n.not_mem_chars

theorem join_name (dir : Path) (n : Name) :
    (dir.join ⟨n.text⟩).text.toList =
      if dir.text = "" ∨ dir.text.toList.getLast? = some '/' then dir.text.toList ++ n.chars
      else dir.text.toList ++ '/' :: n.chars := by
  simp only [join, isAbsolute_name, Bool.false_eq_true, if_false]
  split <;> simp [Name.chars]

theorem join_name_open (dir : Path) (n : Name) :
    ¬((dir.join ⟨n.text⟩).text = "" ∨ (dir.join ⟨n.text⟩).text.toList.getLast? = some '/') := by
  have htext : ∃ d, (dir.join ⟨n.text⟩).text.toList = d ++ n.chars := by
    rw [join_name]
    split
    · exact ⟨_, rfl⟩
    · exact ⟨dir.text.toList ++ ['/'], by simp⟩
  obtain ⟨d, hd⟩ := htext
  rw [← String.toList_eq_nil_iff, hd]
  rintro (h | h)
  · exact n.chars_ne_nil (List.append_eq_nil_iff.mp h).2
  · rw [List.getLast?_append, List.getLast?_eq_some_getLast n.chars_ne_nil,
      Option.some_or] at h
    exact n.not_mem_chars (Option.some.inj h ▸ List.getLast_mem n.chars_ne_nil)

theorem foldl_join_names (names : List Name) (dir : Path)
    (h : ¬(dir.text = "" ∨ dir.text.toList.getLast? = some '/')) :
    (names.foldl (fun p n => p.join ⟨n.text⟩) dir).text.toList =
      joinSegments (dir.text.toList :: names.map Name.chars) := by
  induction names generalizing dir with
  | nil => rfl
  | cons n names ih =>
    rw [List.foldl_cons, ih _ (join_name_open dir n), join_name, if_neg h, List.map_cons,
      joinSegments_append, joinSegments_cons, joinSegments_cons_cons]

theorem foldl_join_anchor (names : List Name) (dir : Path)
    (h : dir.text = "" ∨ dir.text.toList.getLast? = some '/') :
    (names.foldl (fun p n => p.join ⟨n.text⟩) dir).text.toList =
      dir.text.toList ++ joinSegments (names.map Name.chars) := by
  cases names with
  | nil => simp [joinSegments]
  | cons n names =>
    rw [List.foldl_cons, foldl_join_names names _ (join_name_open dir n), join_name, if_pos h,
      joinSegments_append]
    rfl

end Path

namespace CanonicalPath

/-- The text of a canonical path is its anchor with its names behind it. -/
theorem toPath_chars (p : CanonicalPath) :
    p.toPath.text.toList =
      (if p.rooted then ['/'] else []) ++ joinSegments (p.names.map Name.chars) := by
  have hfold (dir : Path) : (p.names.map Component.name).foldl (fun q c => q.join ⟨c.text⟩) dir =
      p.names.foldl (fun q n => q.join ⟨n.text⟩) dir := List.foldl_map
  cases hr : p.rooted with
  | false =>
    rw [toPath, Path.ofComponents, components, hr, if_neg (by decide), List.nil_append, hfold,
      Path.foldl_join_anchor _ _ (Or.inl rfl)]
    rfl
  | true =>
    rw [toPath, Path.ofComponents, components, hr, if_pos rfl, List.singleton_append,
      List.foldl_cons, hfold, Path.foldl_join_anchor _ _ (Or.inr (by decide))]
    rfl

def nameSegments (names : List Name) : List (List Char) :=
  if names = [] then [[]] else names.map Name.chars

theorem segments_names (names : List Name) :
    segments (joinSegments (names.map Name.chars)) = nameSegments names := by
  rw [nameSegments]
  split
  · subst names
    rfl
  · rename_i h
    apply segments_joinSegments (by simpa using h)
    intro s hs
    obtain ⟨n, -, rfl⟩ := List.mem_map.mp hs
    exact n.not_mem_chars

theorem toPath_segments (p : CanonicalPath) :
    p.toPath.segments = (if p.rooted then [[]] else []) ++ nameSegments p.names := by
  rw [Path.segments, toPath_chars]
  split
  · rw [List.singleton_append, segments, if_pos rfl, segments_names]
    rfl
  · rw [List.nil_append, segments_names]
    rfl

theorem filterMap_chars (names : List Name) :
    (names.map Name.chars).filterMap Component.ofSegment? = names.map .name := by
  induction names with
  | nil => rfl
  | cons n names ih =>
    rw [List.map_cons, List.filterMap_cons_some n.ofSegment?_chars, ih, List.map_cons]

theorem filterMap_nameSegments (names : List Name) :
    (nameSegments names).filterMap Component.ofSegment? = names.map .name := by
  rw [nameSegments]
  split
  · subst names
    decide
  · exact filterMap_chars names

theorem toPath_components (p : CanonicalPath) : p.toPath.components = p.components := by
  rw [Path.components, toPath_segments, components]
  cases p.rooted with
  | true =>
    have hrest : nameSegments p.names ≠ [] := by
      rw [nameSegments]
      split <;> simp_all
    simp only [if_true, List.singleton_append, Path.anchor, if_neg hrest,
      filterMap_nameSegments]
  | false =>
    cases p.names with
    | nil => rfl
    | cons n names =>
      have ha : Path.anchor n.chars (names.map Name.chars) = [.name n] := by
        rw [Path.anchor, if_neg n.chars_ne_nil, if_neg n.chars_ne_dot, n.ofSegment?_chars]
        rfl
      rw [nameSegments, if_neg (List.cons_ne_nil _ _), List.map_cons]
      simp only [Bool.false_eq_true, if_false, List.nil_append, ha, filterMap_chars]
      rfl

theorem dropBlank_chars (names : List Name) :
    Path.dropBlank (names.map Name.chars).reverse = (names.map Name.chars).reverse := by
  obtain rfl | ⟨names, n, rfl⟩ := List.eq_nil_or_concat' names
  · rfl
  · simp [Path.dropBlank, n.chars_ne_nil, n.chars_ne_dot]

theorem dropBlank_concat {s : List Char} (hnil : s ≠ []) (hdot : s ≠ ['.'])
    (segs : List (List Char)) : Path.dropBlank (segs ++ [s]).reverse = s :: segs.reverse := by
  simp [Path.dropBlank, hnil, hdot]

theorem parent?_of_segments {p : Path} {first s : List Char} {names : List Name}
    (hnil : s ≠ []) (hdot : s ≠ ['.']) (h : p.segments = first :: (names.map Name.chars ++ [s])) :
    p.parent? = some (Path.leading first (names.map Name.chars)) := by
  rw [Path.parent?, h]
  simp only [dropBlank_concat hnil hdot, dropBlank_chars, List.reverse_reverse]

theorem leading_root (names : List Name) :
    Path.leading [] (names.map Name.chars) = toPath ⟨true, names⟩ := by
  apply Path.ext_chars
  rw [toPath_chars]
  cases names <;> simp [Path.leading, Path.ofSegments, joinSegments]

theorem leading_name (n : Name) (names : List Name) :
    Path.leading n.chars (names.map Name.chars) = toPath ⟨false, n :: names⟩ := by
  apply Path.ext_chars
  rw [toPath_chars, Path.leading, if_neg (fun h => n.chars_ne_nil h.1)]
  simp [Path.ofSegments]

theorem nameSegments_append (names : List Name) (n : Name) :
    nameSegments (names ++ [n]) = names.map Name.chars ++ [n.chars] := by
  rw [nameSegments, if_neg (by simp), List.map_append]
  rfl

theorem toPath_parent? (p : CanonicalPath) : p.toPath.parent? = p.parent?.map toPath := by
  obtain ⟨rooted, names⟩ := p
  obtain rfl | ⟨names, n, rfl⟩ := List.eq_nil_or_concat' names
  · rw [Path.parent?, toPath_segments]
    cases rooted <;> rfl
  · have hparent : parent? ⟨rooted, names ++ [n]⟩ = some ⟨rooted, names⟩ := by simp [parent?]
    have hsegs := toPath_segments ⟨rooted, names ++ [n]⟩
    rw [hparent, Option.map_some]
    rw [nameSegments_append] at hsegs
    cases rooted with
    | true => rw [parent?_of_segments n.chars_ne_nil n.chars_ne_dot hsegs, leading_root]
    | false =>
      cases names with
      | nil =>
        rw [Path.parent?, hsegs]
        simp [Path.dropBlank, n.chars_ne_nil]
        rfl
      | cons m names =>
        rw [parent?_of_segments n.chars_ne_nil n.chars_ne_dot hsegs, leading_name]

theorem passesThrough_iff (p : CanonicalPath) (name : String) :
    p.passesThrough name = true ↔ ∃ c ∈ p.components.dropLast, c.text = name := by
  obtain ⟨rooted, names⟩ := p
  rw [passesThrough, Path.passesThrough, toPath_parent?]
  obtain rfl | ⟨names, n, rfl⟩ := List.eq_nil_or_concat' names
  · cases rooted <;> simp [parent?, components]
  · have hparent : parent? ⟨rooted, names ++ [n]⟩ = some ⟨rooted, names⟩ := by simp [parent?]
    have hdirs : (components ⟨rooted, names ++ [n]⟩).dropLast = components ⟨rooted, names⟩ := by
      simp [components, ← List.append_assoc]
    simp only [hparent, Option.map_some, toPath_components, hdirs, List.any_eq_true, beq_iff_eq]

end CanonicalPath

end Rebuild
