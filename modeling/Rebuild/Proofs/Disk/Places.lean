import Mathlib.Data.List.Induction
import Rebuild.Disk.Basic
import Rebuild.Proofs.Path.Joining

/-!
# Physical places

A place is physical if on the way to it from the root every entry is there and
none is a link. The system finds what lies in such a place under a name
without following anything, so inspecting it is one look at the tree.
-/

set_option autoImplicit false

namespace Rebuild

def Entry.isLink : Entry → Bool
  | .link _ => true
  | _ => false

namespace Disk

def pathTo (place : List Name) : Path := CanonicalPath.toPath ⟨true, place⟩

def look (d : Disk) (place : List Name) (n : Name) : Except DiskError Entry :=
  if (pathTo (place ++ [n])).text.toList.contains '\x00' then .error .nulInName
  else if maxPathBytes < (pathTo (place ++ [n])).text.utf8ByteSize then .error .nameTooLong
  else if !d.isDirectory place then .error .notDirectory
  else if maxNameBytes < n.text.utf8ByteSize then .error .nameTooLong
  else match d.entry? (place ++ [n]) with
    | none => .error .notFound
    | some e => .ok e

/-- Every name on the way is found and is no link. -/
def Physical (d : Disk) (place : List Name) : Prop :=
  ∀ q n, q ++ [n] <+: place → ∃ e, d.look q n = .ok e ∧ e.isLink = false

variable {d : Disk} {place : List Name} {n : Name} {e : Entry}

theorem look_eq_ok (h : d.look place n = .ok e) :
    d.isDirectory place = true ∧ n.text.utf8ByteSize ≤ maxNameBytes ∧
      d.entry? (place ++ [n]) = some e := by
  rw [look] at h
  split at h
  · cases h
  split at h
  · cases h
  split at h
  · cases h
  rename_i hdir
  split at h
  · cases h
  rename_i hsize
  cases he : d.entry? (place ++ [n]) with
  | none => simp [he] at h
  | some e' =>
    simp only [he, Except.ok.injEq] at h
    exact ⟨by simpa using hdir, by omega, congrArg some h⟩

namespace Physical

theorem root (d : Disk) : d.Physical [] := by
  intro q n h
  simp at h

theorem initial (h : d.Physical place) {q : List Name} (hq : q <+: place) : d.Physical q :=
  fun r n hr => h r n (hr.trans hq)

theorem parent (h : d.Physical place) : d.Physical place.dropLast :=
  h.initial <| List.dropLast_prefix place

theorem child (h : d.Physical place) (hlook : d.look place n = .ok e)
    (he : e.isLink = false) : d.Physical (place ++ [n]) := by
  intro q m hq
  rcases List.prefix_concat_iff.mp hq with heq | hq
  · obtain ⟨rfl, hm⟩ := List.append_inj' heq rfl
    cases hm
    exact ⟨e, hlook, he⟩
  · exact h q m hq

theorem last (h : d.Physical (place ++ [n])) : ∃ e, d.look place n = .ok e ∧ e.isLink = false :=
  h place n (List.prefix_refl _)

end Physical

theorem walk_name (d : Disk) (followLast : Bool) (place : List Name) (n : Name)
    (rest : List (List Char)) :
    d.walk followLast place (n.chars :: rest) =
      if !d.isDirectory place then .refused .notDirectory
      else if maxNameBytes < n.text.utf8ByteSize then .refused .nameTooLong
      else match d.entry? (place ++ [n]) with
        | none => .missing (place ++ [n]) rest
        | some (.link target) =>
          if rest = [] ∧ !followLast then .found (place ++ [n]) else .link place target rest
        | some _ => d.walk followLast (place ++ [n]) rest := by
  have htext : String.ofList n.chars = n.text := by simp [Name.chars]
  rw [walk]
  cases hentry : d.entry? (place ++ [n]) with
  | none =>
    simp only [n.chars_ne_nil, n.chars_ne_dot, n.chars_ne_dots, or_self, if_false, htext,
      Name.ofText?_text, hentry]
  | some e =>
    cases e <;> simp only [n.chars_ne_nil, n.chars_ne_dot, n.chars_ne_dots, or_self, if_false,
      htext, Name.ofText?_text, hentry]

theorem walk_found (d : Disk) (followLast : Bool) (place : List Name) :
    d.walk followLast place [] = .found place := by
  rw [walk]

theorem walk_past (hlook : d.look place n = .ok e) (he : e.isLink = false) (followLast : Bool)
    (rest : List (List Char)) :
    d.walk followLast place (n.chars :: rest) = d.walk followLast (place ++ [n]) rest := by
  obtain ⟨hdir, hsize, hentry⟩ := look_eq_ok hlook
  rw [walk_name, hdir, hentry, if_neg (by decide), if_neg (by omega)]
  cases e with
  | link target => cases he
  | file data => rfl
  | directory => rfl

theorem walk_physical (h : d.Physical place) (followLast : Bool) (rest : List (List Char)) :
    d.walk followLast [] (place.map Name.chars ++ rest) = d.walk followLast place rest := by
  induction place using List.reverseRecOn generalizing rest with
  | nil => rfl
  | append_singleton place n ih =>
    obtain ⟨e, hlook, he⟩ := h.last
    have hplace := h.initial (List.prefix_append place [n])
    rw [List.map_append, List.append_assoc, ih hplace]
    exact walk_past hlook he followLast rest

theorem pathTo_components (place : List Name) :
    (pathTo place).components = .root :: place.map .name := by
  rw [pathTo, CanonicalPath.toPath_components]
  rfl

theorem pathTo_segments (place : List Name) (n : Name) :
    (pathTo (place ++ [n])).segments = [] :: (place ++ [n]).map Name.chars := by
  rw [pathTo, CanonicalPath.toPath_segments, CanonicalPath.nameSegments_append, List.map_append]
  rfl

theorem inspect_child (h : d.Physical place) (n : Name) :
    d.inspect (pathTo (place ++ [n])) = d.look place n := by
  have hempty : (pathTo (place ++ [n])).text ≠ "" := by
    intro htext
    have hsegs := pathTo_segments place n
    rw [Path.segments, htext] at hsegs
    simp [segments] at hsegs
  have hwalk : d.walk false [] (pathTo (place ++ [n])).segments =
      d.walk false place [n.chars] := by
    rw [pathTo_segments, walk]
    have hroot : d.isDirectory [] = true := rfl
    simp only [hroot, Bool.not_true, Bool.false_eq_true, if_false, true_or, if_true]
    rw [List.map_append]
    exact walk_physical h false _
  have habs : (pathTo (place ++ [n])).isAbsolute = true := CanonicalPath.toPath_isAbsolute _
  rw [inspect, entryAt, locate, enter, habs, look]
  by_cases hnul : (pathTo (place ++ [n])).text.toList.contains '\x00' = true
  · rw [if_pos hnul, if_pos hnul]
  by_cases hlong : maxPathBytes < (pathTo (place ++ [n])).text.utf8ByteSize
  · rw [if_neg hnul, if_neg hempty, if_pos hlong, if_neg hnul, if_pos hlong]
  rw [if_neg hnul, if_neg hempty, if_neg hlong, if_neg hnul, if_neg hlong, if_pos rfl]
  dsimp only
  rw [walkLinks, hwalk, walk_name]
  by_cases hdir : d.isDirectory place = true
  · by_cases hsize : maxNameBytes < n.text.utf8ByteSize
    · simp [hdir, hsize]
    · cases hentry : d.entry? (place ++ [n]) with
      | none => simp [hdir, hsize]
      | some e =>
        cases e with
        | link target => simp [hdir, hsize, hentry]
        | file data => simp [hdir, hsize, hentry, walk_found]
        | directory => simp [hdir, hsize, hentry, walk_found]
  · simp [hdir]

theorem Physical.inspect (h : d.Physical place) (hne : place ≠ []) :
    ∃ e, d.entry? place = some e ∧ d.inspect (pathTo place) = .ok e ∧ e.isLink = false := by
  obtain hnil | ⟨q, n, rfl⟩ := List.eq_nil_or_concat' place
  · exact absurd hnil hne
  · obtain ⟨e, hlook, he⟩ := h.last
    have hq := h.initial <| List.prefix_append q [n]
    exact ⟨e, (look_eq_ok hlook).2.2, (inspect_child hq n).trans hlook, he⟩

end Disk

end Rebuild
