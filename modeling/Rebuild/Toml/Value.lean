import Rebuild.Number.Binary64
import Rebuild.Toml.Datetime

/-!
# Configuration values

What a configuration text says. The entries of a table keep the order in which
they were written, each key once.
-/

set_option autoImplicit false

namespace Rebuild.Toml

inductive Value where
  | string (s : String)
  | integer (i : Int)
  | float (x : Binary64)
  | boolean (b : Bool)
  | datetime (d : Datetime)
  | array (items : List Value)
  | table (entries : List (String × Value))

abbrev Entries := List (String × Value)

def entry? (key : String) (entries : Entries) : Option Value :=
  (entries.find? (fun e => e.1 == key)).map Prod.snd

end Rebuild.Toml
