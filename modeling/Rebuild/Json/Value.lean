import Rebuild.Number.Shortest

/-!
# JSON values

Whole numbers of a word are integers, all other numbers are floating-point.
A reader lists the members of an object in the order of their keys, each key
once. A writer keeps the order it is given.
-/

set_option autoImplicit false

namespace Rebuild

inductive Json where
  | null
  | bool (b : Bool)
  | integer (i : Int)
  | float (x : Binary64)
  | string (s : String)
  | array (items : List Json)
  | object (members : List (String × Json))
  deriving Inhabited

namespace Json

abbrev Members := List (String × Json)

/-- Sets a member of an ordered list. The last value given to a key stays. -/
def setMember (key : String) (value : Json) : Members → Members
  | [] => [(key, value)]
  | (k, v) :: rest =>
    match compare key k with
    | .lt => (key, value) :: (k, v) :: rest
    | .eq => (key, value) :: rest
    | .gt => (k, v) :: setMember key value rest

def member? {α : Type} (key : String) : List (String × α) → Option α
  | [] => none
  | (k, v) :: rest => if k = key then some v else member? key rest

def get? (key : String) : Json → Option Json
  | .object members => member? key members
  | _ => none

theorem member?_setMember (key : String) (value : Json) (members : Members) :
    member? key (setMember key value members) = some value := by
  induction members with
  | nil => simp [setMember, member?]
  | cons kv rest ih =>
    obtain ⟨k, v⟩ := kv
    rw [setMember]
    cases h : compare key k with
    | lt => simp [member?]
    | eq => simp [member?]
    | gt =>
      have hk : k ≠ key := by
        intro e
        subst e
        simp at h
      simp [member?, hk, ih]

end Json

end Rebuild
