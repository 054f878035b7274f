import Rebuild.Proofs.Path.Spelling

/-!
# Joining paths

A relative path that is joined to a directory goes on from there: its
components come behind those of the directory, without the dot it may start
with. An absolute path stands for itself. What is joined to the text of a
canonical path by a name is the text of a canonical path again.
-/

set_option autoImplicit false

namespace Rebuild

theorem segments_append (s t : List Char) :
    segments (s ++ '/' :: t) = segments s ++ segments t := by
  induction s with
  | nil => rfl
  | cons c s ih =>
    by_cases hc : c = '/'
    · rw [List.cons_append, segments, segments, if_pos hc, if_pos hc, ih, List.cons_append]
    · rw [List.cons_append, segments, segments, if_neg hc, if_neg hc, ih]
      cases hs : segments s with
      | nil => exact absurd hs (segments_ne_nil s)
      | cons first rest => rfl

namespace Component

@[simp] theorem ofSegment?_nil : ofSegment? [] = none := by decide

@[simp] theorem ofSegment?_dot : ofSegment? ['.'] = none := by decide

theorem ofSegment?_ne_root (s : List Char) : ofSegment? s ≠ some .root := by
  rw [ofSegment?]
  split <;> simp

theorem ofSegment?_ne_here (s : List Char) : ofSegment? s ≠ some .here := by
  rw [ofSegment?]
  split <;> simp

def dropHere : List Component → List Component
  | .here :: rest => rest
  | cs => cs

theorem dropHere_of_not_mem {cs : List Component} (h : .here ∉ cs) : dropHere cs = cs := by
  cases cs with
  | nil => rfl
  | cons c rest => cases c <;> simp_all [dropHere]

theorem mem_dropHere {c : Component} {cs : List Component} (hc : c ∈ cs) (hne : c ≠ .here) :
    c ∈ dropHere cs := by
  cases cs with
  | nil => exact hc
  | cons b rest => cases b <;> simp_all [dropHere]

theorem here_not_mem_filterMap (segs : List (List Char)) :
    .here ∉ segs.filterMap ofSegment? := by
  intro hmem
  obtain ⟨s, -, hs⟩ := List.mem_filterMap.mp hmem
  exact ofSegment?_ne_here s hs

end Component

namespace Path

theorem joinSegments_segments (p : Path) : joinSegments p.segments = p.text.toList :=
  Rebuild.joinSegments_segments p.text.toList

theorem components_of_segments {p : Path} {first : List Char} {rest : List (List Char)}
    (h : p.segments = first :: rest) :
    p.components = anchor first rest ++ rest.filterMap Component.ofSegment? := by
  rw [components, h]

theorem isAbsolute_of_segments {p : Path} {s : List Char} {rest : List (List Char)}
    (h : p.segments = [] :: s :: rest) : p.isAbsolute = true := by
  have htext := p.joinSegments_segments
  rw [h, joinSegments_cons_cons] at htext
  simp [isAbsolute, ← htext]

theorem segments_of_isAbsolute {p : Path} (h : p.isAbsolute = true) :
    ∃ rest, rest ≠ [] ∧ p.segments = [] :: rest := by
  cases htext : p.text.toList with
  | nil => simp [isAbsolute, htext] at h
  | cons c cs =>
    have hc : c = '/' := by simpa [isAbsolute, htext] using h
    refine ⟨Rebuild.segments cs, segments_ne_nil cs, ?_⟩
    rw [segments, htext, Rebuild.segments, if_pos hc]

theorem components_of_isAbsolute {p : Path} (h : p.isAbsolute = true) :
    ∃ rest, p.components = .root :: rest := by
  obtain ⟨rest, hne, hsegs⟩ := segments_of_isAbsolute h
  rw [components_of_segments hsegs, anchor, if_pos rfl, if_neg hne]
  exact ⟨_, rfl⟩

/-- Inside a longer path a relative path loses the dot it may start with. -/
theorem filterMap_segments {p : Path} (h : p.isAbsolute = false) :
    p.segments.filterMap Component.ofSegment? = Component.dropHere p.components := by
  cases hsegs : p.segments with
  | nil => exact absurd hsegs (segments_ne_nil _)
  | cons first rest =>
    rw [components_of_segments hsegs]
    by_cases hnil : first = []
    · have hlone : rest = [] := by
        cases rest with
        | nil => rfl
        | cons s rest =>
          rw [hnil] at hsegs
          rw [isAbsolute_of_segments hsegs] at h
          cases h
      rw [hnil, hlone]
      rfl
    · by_cases hdot : first = ['.']
      · rw [hdot]
        simp [anchor, Component.dropHere]
      · have hcs : anchor first rest ++ rest.filterMap Component.ofSegment? =
            (first :: rest).filterMap Component.ofSegment? := by
          rw [anchor, if_neg hnil, if_neg hdot, List.filterMap_cons]
          cases Component.ofSegment? first <;> rfl
        rw [hcs, Component.dropHere_of_not_mem (Component.here_not_mem_filterMap _)]

theorem root_mem_components {p : Path} : .root ∈ p.components ↔ p.isAbsolute = true := by
  constructor
  · intro hroot
    by_contra habs
    have hinner := Component.mem_dropHere hroot (by decide)
    rw [← filterMap_segments (Bool.eq_false_iff.mpr habs)] at hinner
    obtain ⟨s, -, hs⟩ := List.mem_filterMap.mp hinner
    exact Component.ofSegment?_ne_root s hs
  · intro habs
    obtain ⟨rest, hrest⟩ := components_of_isAbsolute habs
    rw [hrest]
    exact List.mem_cons_self ..

theorem join_of_isAbsolute (dir : Path) {p : Path} (h : p.isAbsolute = true) :
    dir.join p = p := by
  rw [join, if_pos h]

@[simp] theorem empty_join (p : Path) : (⟨""⟩ : Path).join p = p := by
  cases h : p.isAbsolute with
  | true => exact join_of_isAbsolute _ h
  | false => simp [join, h]

theorem segments_join_open {dir p : Path} (hp : p.isAbsolute = false)
    (hend : dir.text.toList.getLast? = some '/') :
    ∃ first rest, dir.segments = first :: (rest ++ [[]]) ∧
      (dir.join p).segments = first :: (rest ++ p.segments) := by
  obtain ⟨front, hfront⟩ : ∃ front, dir.text.toList = front ++ ['/'] := by
    obtain hnil | ⟨front, c, hc⟩ := List.eq_nil_or_concat' dir.text.toList
    · simp [hnil] at hend
    · refine ⟨front, ?_⟩
      rw [hc, List.getLast?_concat] at hend
      rw [hc, Option.some.inj hend]
  obtain ⟨first, rest, hfirst⟩ := List.exists_cons_of_ne_nil (segments_ne_nil front)
  refine ⟨first, rest, ?_, ?_⟩
  · rw [segments, hfront, segments_append, hfirst]
    rfl
  · rw [join, hp, if_neg (by decide), if_pos (Or.inr hend), segments, String.toList_append, hfront,
      List.append_assoc, List.singleton_append, segments_append, hfirst]
    rfl

theorem segments_join_closed {dir p : Path} (hp : p.isAbsolute = false)
    (hsep : ¬(dir.text = "" ∨ dir.text.toList.getLast? = some '/')) :
    (dir.join p).segments = dir.segments ++ p.segments := by
  rw [join, hp, if_neg (by decide), if_neg hsep, segments, String.toList_append,
    String.toList_append, List.append_assoc]
  exact segments_append dir.text.toList p.text.toList

theorem join_components (dir : Path) {p : Path} (hp : p.isAbsolute = false)
    (hdir : dir.text ≠ "") :
    (dir.join p).components = dir.components ++ Component.dropHere p.components := by
  have hne : p.segments ≠ [] := segments_ne_nil _
  rw [← filterMap_segments hp]
  by_cases hend : dir.text.toList.getLast? = some '/'
  · obtain ⟨first, rest, hdirs, hjoined⟩ := segments_join_open hp hend
    rw [components_of_segments hdirs, components_of_segments hjoined]
    simp [anchor, hne]
  · have hjoined := segments_join_closed hp (not_or.mpr ⟨hdir, hend⟩)
    obtain ⟨first, rest, hfirst⟩ := List.exists_cons_of_ne_nil (segments_ne_nil dir.text.toList)
    have hdirs : dir.segments = first :: rest := hfirst
    rw [hdirs, List.cons_append] at hjoined
    rw [components_of_segments hdirs, components_of_segments hjoined, List.filterMap_append,
      List.append_assoc]
    by_cases hnil : first = []
    · have hrest : rest ≠ [] := by
        rintro rfl
        have htext := dir.joinSegments_segments
        rw [hdirs, hnil] at htext
        exact hdir (String.toList_eq_nil_iff.mp htext.symm)
      simp [anchor, hnil, hrest]
    · simp [anchor, hnil]

theorem join_components_of_not_mem (dir : Path) {p : Path} (hp : p.isAbsolute = false)
    (hhere : .here ∉ p.components) :
    (dir.join p).components = dir.components ++ p.components := by
  by_cases hdir : dir.text = ""
  · obtain rfl : dir = ⟨""⟩ := congrArg Path.mk hdir
    rw [empty_join]
    rfl
  · rw [join_components dir hp hdir, Component.dropHere_of_not_mem hhere]

theorem exists_front (dir : Path) :
    ∃ front, ∀ p : Path, p.isAbsolute = false →
      (dir.join p).text.toList = front ++ p.text.toList := by
  by_cases hopen : dir.text = "" ∨ dir.text.toList.getLast? = some '/'
  · refine ⟨dir.text.toList, fun p hp => ?_⟩
    rw [join, hp, if_neg (by decide), if_pos hopen, String.toList_append]
  · refine ⟨dir.text.toList ++ ['/'], fun p hp => ?_⟩
    rw [join, hp, if_neg (by decide), if_neg hopen, String.toList_append, String.toList_append]
    rfl

end Path

namespace CanonicalPath

theorem toPath_join_name (rooted : Bool) (names : List Name) (n : Name) :
    (toPath ⟨rooted, names⟩).join ⟨n.text⟩ = toPath ⟨rooted, names ++ [n]⟩ := by
  simp [toPath, Path.ofComponents, components, List.foldl_append, Component.text]

theorem toPath_isAbsolute (p : CanonicalPath) : p.toPath.isAbsolute = p.rooted := by
  rw [Bool.eq_iff_iff, ← Path.root_mem_components, toPath_components, components]
  cases p.rooted with
  | true => simp
  | false => simp

theorem segments_toPath_join (rooted : Bool) (names : List Name) {q : Path}
    (hq : '/' ∉ q.text.toList) :
    ((toPath ⟨rooted, names⟩).join q).segments =
      (if rooted then [[]] else []) ++ (names.map Name.chars ++ [q.text.toList]) := by
  have hrelative := Path.isAbsolute_of_not_mem hq
  have hsegments : q.segments = [q.text.toList] := segments_of_not_mem hq
  obtain rfl | ⟨names, n, rfl⟩ := List.eq_nil_or_concat' names
  · cases rooted with
    | true =>
      have hopen : (toPath ⟨true, []⟩).text.toList.getLast? = some '/' := rfl
      obtain ⟨first, rest, hdir, hjoined⟩ := Path.segments_join_open hrelative hopen
      obtain ⟨rfl, hrest⟩ := List.cons.inj (hdir.symm.trans (toPath_segments ⟨true, []⟩))
      obtain rfl : rest = [] := List.append_cancel_right (show rest ++ [[]] = [] ++ [[]] from hrest)
      rw [hjoined, hsegments]
      rfl
    | false =>
      have hjoin : (toPath ⟨false, []⟩).join q = q := Path.empty_join q
      rw [hjoin, hsegments]
      rfl
  · have hclosed := Path.join_name_open (toPath ⟨rooted, names⟩) n
    rw [toPath_join_name] at hclosed
    rw [Path.segments_join_closed hrelative hclosed, toPath_segments, nameSegments_append,
      hsegments]
    simp

theorem walk_rooted {dir : CanonicalPath} (h : dir.rooted = true) (cs : List Component) :
    (dir.walk cs).rooted = true := by
  induction cs generalizing dir with
  | nil => exact h
  | cons c cs ih =>
    have hstep : (dir.step c).rooted = true := by
      cases c with
      | root => rfl
      | here | up | name => exact h
    exact ih hstep

theorem join_of_isAbsolute (dir above : CanonicalPath) {p : Path} (h : p.isAbsolute = true) :
    dir.join p = above.join p := by
  obtain ⟨rest, hrest⟩ := Path.components_of_isAbsolute h
  rw [join, join, hrest]
  rfl

theorem join_rooted (dir : CanonicalPath) {p : Path} (h : p.isAbsolute = true) :
    (dir.join p).rooted = true := by
  rw [dir.join_of_isAbsolute ⟨true, []⟩ h]
  exact walk_rooted rfl _

end CanonicalPath

end Rebuild
