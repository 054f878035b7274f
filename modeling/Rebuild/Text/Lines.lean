/-!
# Lines of a text

A text is cut behind each newline, so its lines are the pieces that make it up
again. Nothing follows the last newline unless there is text behind it.
-/

set_option autoImplicit false

namespace Rebuild.Text

def linesFrom (backward : List Char) : List Char → List (List Char)
  | [] => if backward.isEmpty then [] else [backward.reverse]
  | c :: cs =>
    if c = '\n' then (c :: backward).reverse :: linesFrom [] cs else linesFrom (c :: backward) cs

def lines (cs : List Char) : List (List Char) := linesFrom [] cs

theorem flatten_linesFrom (backward cs : List Char) :
    (linesFrom backward cs).flatten = backward.reverse ++ cs := by
  induction cs generalizing backward with
  | nil => cases backward <;> simp [linesFrom]
  | cons c cs ih =>
    rw [linesFrom]
    split <;> simp [ih]

theorem flatten_lines (cs : List Char) : (lines cs).flatten = cs := by
  simp [lines, flatten_linesFrom]

end Rebuild.Text
