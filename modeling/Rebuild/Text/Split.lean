/-!
# Splitting at a pattern

A text is split at the first or at the last place where a pattern occurs, into
what stands before it and what stands behind it.
-/

set_option autoImplicit false

namespace Rebuild.Text

def splitFrom? (pattern backward : List Char) : List Char → Option (List Char × List Char)
  | [] => if pattern = [] then some (backward.reverse, []) else none
  | c :: cs =>
    if pattern.isPrefixOf (c :: cs) then some (backward.reverse, (c :: cs).drop pattern.length)
    else splitFrom? pattern (c :: backward) cs

def splitFirst? (pattern cs : List Char) : Option (List Char × List Char) :=
  splitFrom? pattern [] cs

/-- The last place of a pattern is the first one seen from the end. -/
def splitLast? (pattern cs : List Char) : Option (List Char × List Char) :=
  (splitFirst? pattern.reverse cs.reverse).map (fun p => (p.2.reverse, p.1.reverse))

theorem splitFrom?_eq_some {pattern backward cs before after : List Char}
    (h : splitFrom? pattern backward cs = some (before, after)) :
    backward.reverse ++ cs = before ++ pattern ++ after := by
  induction cs generalizing backward with
  | nil =>
    rw [splitFrom?] at h
    split at h <;> simp_all
  | cons c cs ih =>
    rw [splitFrom?] at h
    split at h
    · rename_i hp
      obtain ⟨t, ht⟩ := List.isPrefixOf_iff_prefix.mp hp
      simp only [Option.some.injEq, Prod.mk.injEq] at h
      obtain ⟨rfl, rfl⟩ := h
      simp [← ht]
    · simpa using ih h

theorem splitFirst?_eq_some {pattern cs before after : List Char}
    (h : splitFirst? pattern cs = some (before, after)) : cs = before ++ pattern ++ after := by
  simpa using splitFrom?_eq_some h

end Rebuild.Text
