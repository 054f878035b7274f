import Rebuild.Content.Hash
import Rebuild.Disk.Error
import Rebuild.FileKind

/-!
# Cache records

What the cache knows about one file: its text, the hash of the text, what the
parser made of it, and how the file takes part in the build.
-/

set_option autoImplicit false

namespace Rebuild

structure FileRecord (H : Type) where
  path : CanonicalPath
  relativePath : Path
  contents : String
  hash : ContentHash
  parsed : H
  isRoot : Bool
  isDependency : Bool

/-- Hashes are compared first, and equal hashes prove nothing alone. -/
def FileRecord.holds {H : Type} (r : FileRecord H) (hash : ContentHash) (contents : String) :
    Bool :=
  r.hash == hash && r.contents == contents

inductive Reuse where
  | current
  | previous
  | fresh
  deriving DecidableEq, Repr

structure Observation where
  file : Path
  path : CanonicalPath
  deriving DecidableEq

structure Admission (H : Type) where
  parsed : H
  reuse : Reuse
  observed : Observation

structure CacheStats where
  freshParses : Nat
  currentHits : Nat
  previousHits : Nat
  readMisses : Nat
  deriving DecidableEq, Repr

namespace CacheStats

def zero : CacheStats := ⟨0, 0, 0, 0⟩

def count (s : CacheStats) : Reuse → CacheStats
  | .current => { s with currentHits := s.currentHits + 1 }
  | .previous => { s with previousHits := s.previousHits + 1 }
  | .fresh => { s with freshParses := s.freshParses + 1 }

def countMiss (s : CacheStats) : CacheStats := { s with readMisses := s.readMisses + 1 }

end CacheStats

inductive CacheError where
  | unreadable (path : Path) (error : DiskError)
  deriving DecidableEq, Repr

def CacheError.message : CacheError → String
  | .unreadable path error => "failed to read source " ++ path.text ++ ": " ++ error.message

end Rebuild
