import Std.Data.TreeMap

/-!
# Components of a path

A path text is cut at its separators into segments. A segment that is not
empty and not a dot names a directory entry or climbs to the parent. The
anchor of an absolute path and the leading dot of a relative one are
components too. Components are ordered by kind first and by text second,
which is the order of the paths they spell.
-/

set_option autoImplicit false

namespace Rebuild

def IsName (s : String) : Prop := s ≠ "" ∧ s ≠ "." ∧ s ≠ ".." ∧ '/' ∉ s.toList

instance (s : String) : Decidable (IsName s) := by
  unfold IsName
  infer_instance

structure Name where
  text : String
  isName : IsName text
  deriving DecidableEq

namespace Name

theorem text_injective {a b : Name} (h : a.text = b.text) : a = b := by
  cases a
  cases b
  cases h
  rfl

instance : Ord Name := ⟨compareOn Name.text⟩

instance : Std.TransOrd Name := inferInstanceAs (Std.TransCmp (compareOn Name.text))

instance : Std.LawfulEqOrd Name where
  compare_self {a} := by
    show compare a.text a.text = .eq
    exact Std.ReflCmp.compare_self
  eq_of_compare {a b} h :=
    text_injective (Std.LawfulEqCmp.eq_of_compare (show compare a.text b.text = .eq from h))

def ofText? (s : String) : Option Name :=
  if h : IsName s then some ⟨s, h⟩ else none

@[simp] theorem ofText?_text (n : Name) : ofText? n.text = some n := by
  simp [ofText?, n.isName]

end Name

inductive Component where
  | root
  | here
  | up
  | name (n : Name)
  deriving DecidableEq

namespace Component

def text : Component → String
  | .root => "/"
  | .here => "."
  | .up => ".."
  | .name n => n.text

def rank : Component → Nat
  | .root => 0
  | .here => 1
  | .up => 2
  | .name _ => 3

theorem eq_of_rank_text {a b : Component} (hr : a.rank = b.rank) (ht : a.text = b.text) :
    a = b := by
  cases a <;> cases b <;> simp_all [rank, text]
  exact Name.text_injective ht

instance : Ord Component := ⟨compareLex (compareOn rank) (compareOn text)⟩

instance : Std.TransOrd Component :=
  inferInstanceAs (Std.TransCmp (compareLex (compareOn rank) (compareOn text)))

instance : Std.LawfulEqOrd Component where
  compare_self {a} := by
    show compareLex (compareOn rank) (compareOn text) a a = .eq
    simp [compareLex, compareOn]
  eq_of_compare {a b} h := by
    have h' : (compare a.rank b.rank).then (compare a.text b.text) = .eq := h
    rw [Ordering.then_eq_eq] at h'
    exact eq_of_rank_text (Std.LawfulEqCmp.eq_of_compare h'.1)
      (Std.LawfulEqCmp.eq_of_compare h'.2)

/-- An empty segment and a dot inside a path stand for nothing. -/
def ofSegment? (s : List Char) : Option Component :=
  if s = ['.', '.'] then some .up else (Name.ofText? (String.ofList s)).map .name

/-- The way from the place `source` to the place `target`: up once for each
component that is not shared, then down to the target. -/
def route : List Component → List Component → List Component
  | a :: source, b :: target =>
    if a = b then route source target
    else (a :: source).map (fun _ => .up) ++ b :: target
  | source, target => source.map (fun _ => .up) ++ target

end Component

def segments : List Char → List (List Char)
  | [] => [[]]
  | c :: cs =>
    if c = '/' then [] :: segments cs
    else match segments cs with
      | [] => [[c]]
      | s :: rest => (c :: s) :: rest

def joinSegments : List (List Char) → List Char
  | [] => []
  | [s] => s
  | s :: rest => s ++ '/' :: joinSegments rest

theorem segments_ne_nil (cs : List Char) : segments cs ≠ [] := by
  cases cs with
  | nil => simp [segments]
  | cons c cs =>
    rw [segments]
    split
    · simp
    · split <;> simp

theorem joinSegments_cons (c : Char) (s : List Char) (rest : List (List Char)) :
    joinSegments ((c :: s) :: rest) = c :: joinSegments (s :: rest) := by
  cases rest <;> simp [joinSegments]

theorem joinSegments_segments (cs : List Char) : joinSegments (segments cs) = cs := by
  induction cs with
  | nil => rfl
  | cons c cs ih =>
    rw [segments]
    split
    · rename_i h
      cases hs : segments cs with
      | nil => exact absurd hs (segments_ne_nil cs)
      | cons s rest => simp [joinSegments, ← hs, ih, h]
    · cases hs : segments cs with
      | nil => exact absurd hs (segments_ne_nil cs)
      | cons s rest => simp [joinSegments_cons, ← hs, ih]

end Rebuild
