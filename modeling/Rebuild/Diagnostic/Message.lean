/-!
# Messages

A message is a text, or a chain of texts that each explain the one above. A
chain is flattened to one line per link, two blanks deeper at each level.
-/

set_option autoImplicit false

namespace Rebuild

inductive MessageChain where
  | link (text : String) (next : List MessageChain)
  deriving Inhabited

namespace MessageChain

def indent (depth : Nat) : String := String.ofList (List.replicate (2 * depth) ' ')

def opening (separator : String) (depth : Nat) : String :=
  if depth = 0 then "" else separator ++ indent depth

mutual

def renderOnto (separator : String) (depth : Nat) (written : String) : MessageChain → String
  | .link text next =>
    renderAllOnto separator (depth + 1) (written ++ opening separator depth ++ text) next

def renderAllOnto (separator : String) (depth : Nat) (written : String) :
    List MessageChain → String
  | [] => written
  | chain :: rest =>
    renderAllOnto separator depth (renderOnto separator depth written chain) rest

end

end MessageChain

inductive Message where
  | plain (text : String)
  | chain (chain : MessageChain)

namespace Message

def flatten (separator : String) : Message → String
  | .plain text => text
  | .chain c => c.renderOnto separator 0 ""

def lineSeparator : String := "\n"

end Message

end Rebuild
