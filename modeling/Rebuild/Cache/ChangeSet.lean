import Rebuild.Content.Hash
import Rebuild.Path.Canonical

/-!
# Change sets

The difference of two maps from files to content hashes. Each file of either
map is in one of four lists, which are in the order of the paths, in whatever
order the files of the maps are visited.
-/

set_option autoImplicit false

namespace Rebuild

abbrev ContentHashes := Std.TreeMap CanonicalPath ContentHash

structure ChangeSet where
  added : List CanonicalPath
  modified : List CanonicalPath
  deleted : List CanonicalPath
  unchanged : List CanonicalPath
  deriving DecidableEq

namespace ChangeSet

def select (relation : ContentHash → Option ContentHash → Bool)
    (visited : List (CanonicalPath × ContentHash)) (others : ContentHashes) : List CanonicalPath :=
  ((visited.filter (fun f => relation f.2 others[f.1]?)).map Prod.fst).mergeSort
    (fun p q => (compare p q).isLE)

/-- The difference of two maps whose files are visited in the orders of two lists. -/
def visiting (visited visitedBefore : List (CanonicalPath × ContentHash))
    (current previous : ContentHashes) : ChangeSet where
  added := select (fun _ old => old.isNone) visited previous
  modified := select (fun hash old => old.isSome && old != some hash) visited previous
  deleted := select (fun _ kept => kept.isNone) visitedBefore current
  unchanged := select (fun hash old => old == some hash) visited previous

def between (current previous : ContentHashes) : ChangeSet :=
  visiting current.toList previous.toList current previous

def isEmpty (c : ChangeSet) : Bool :=
  c.added.isEmpty && c.modified.isEmpty && c.deleted.isEmpty

def dirtyCount (c : ChangeSet) : Nat := c.added.length + c.modified.length

end ChangeSet

end Rebuild
