import Rebuild.Cache.ChangeSet
import Rebuild.Cache.Record
import Rebuild.Disk.Basic
import Std.Data.TreeSet

/-!
# The file cache

Files are admitted to the current generation. A file whose exact text is
recorded in the current or in the previous generation keeps its parsed form,
and any other text is parsed. A new generation starts empty and remembers one
generation before it. Parsing may change a state of its own.
-/

set_option autoImplicit false

namespace Rebuild

abbrev Parser (σ H : Type) := Path → String → σ → H × σ

abbrev Generation (H : Type) := Std.TreeMap CanonicalPath (FileRecord H)

structure FileCache (H : Type) where
  currentDir : CanonicalPath
  dependencyDir : String
  current : Generation H
  previous : Generation H
  stats : CacheStats

namespace FileCache

variable {σ H : Type}

def empty (currentDir : CanonicalPath) (dependencyDir : String) : FileCache H :=
  ⟨currentDir, dependencyDir, ∅, ∅, .zero⟩

def canonicalize (c : FileCache H) (p : Path) : CanonicalPath := c.currentDir.join p

/-- The parsed form recorded for exactly this text, the current generation first. -/
def recorded? (c : FileCache H) (path : CanonicalPath) (contents : String) :
    Option (H × Reuse) :=
  let hash := ContentHash.ofText contents
  match c.current[path]?.filter (·.holds hash contents) with
  | some r => some (r.parsed, .current)
  | none =>
    match c.previous[path]?.filter (·.holds hash contents) with
    | some r => some (r.parsed, .previous)
    | none => none

def isDependency (c : FileCache H) (path : CanonicalPath) : Bool :=
  path.passesThrough c.dependencyDir && FileKind.ofCanonical path != .declaration

/-- Without a flag of its own a file stays a root if it is one. -/
def rootFlag (c : FileCache H) (path : CanonicalPath) (isRoot : Option Bool) : Bool :=
  isRoot.getD ((c.current[path]?.map FileRecord.isRoot).getD false)

def record (c : FileCache H) (path : CanonicalPath) (contents : String) (isRoot : Option Bool)
    (parsed : H) : FileRecord H where
  path := path
  relativePath := path.relativeTo c.currentDir
  contents := contents
  hash := .ofText contents
  parsed := parsed
  isRoot := c.rootFlag path isRoot
  isDependency := c.isDependency path

def store (c : FileCache H) (path : CanonicalPath) (contents : String) (isRoot : Option Bool)
    (parsed : H) (reuse : Reuse) : Admission H × FileCache H :=
  (⟨parsed, reuse, ⟨path.relativeTo c.currentDir, path⟩⟩,
   { c with
     current := c.current.insert path (c.record path contents isRoot parsed)
     stats := c.stats.count reuse })

/-- Records a text in the current generation and parses it only if it is new. -/
def accept (c : FileCache H) (path : CanonicalPath) (contents : String) (isRoot : Option Bool)
    (parse : Parser σ H) (s : σ) : (Admission H × FileCache H) × σ :=
  match c.recorded? path contents with
  | some (parsed, reuse) => (c.store path contents isRoot parsed reuse, s)
  | none =>
    let (parsed, s) := parse (path.relativeTo c.currentDir) contents s
    (c.store path contents isRoot parsed .fresh, s)

def read (c : FileCache H) (disk : Disk) (p : Path) (isRoot : Option Bool)
    (parse : Parser σ H) (s : σ) : (Option (Admission H) × FileCache H) × σ :=
  let path := c.canonicalize p
  match disk.readText path.toPath with
  | .error _ => ((none, { c with stats := c.stats.countMiss }), s)
  | .ok contents =>
    let ((admission, c), s) := c.accept path contents isRoot parse s
    ((some admission, c), s)

def addFile (c : FileCache H) (disk : Disk) (p : Path) (isRoot : Bool) (parse : Parser σ H)
    (s : σ) : (Option (Admission H) × FileCache H) × σ :=
  c.read disk p (some isRoot) parse s

def load (c : FileCache H) (disk : Disk) (p : Path) (parse : Parser σ H) (s : σ) :
    (Option (Admission H) × FileCache H) × σ :=
  c.read disk p none parse s

def addSource (c : FileCache H) (p : Path) (contents : String) (isRoot : Bool)
    (parse : Parser σ H) (s : σ) : (Admission H × FileCache H) × σ :=
  c.accept (c.canonicalize p) contents (some isRoot) parse s

def reset (c : FileCache H) : FileCache H := { c with current := ∅, previous := c.current }

def get? (c : FileCache H) (path : CanonicalPath) : Option (FileRecord H) := c.current[path]?

def paths (c : FileCache H) : List CanonicalPath := c.current.keys

def select (c : FileCache H) (choose : FileRecord H → Bool) : List CanonicalPath :=
  (c.current.toList.filter (fun f => choose f.2)).map Prod.fst

def rootPaths (c : FileCache H) : List CanonicalPath := c.select FileRecord.isRoot

def dependencyPaths (c : FileCache H) : List CanonicalPath := c.select FileRecord.isDependency

def rootNames (c : FileCache H) : List CanonicalPath :=
  (Std.TreeSet.ofList (c.rootPaths ++ c.dependencyPaths)).toList

def hashes (g : Generation H) : ContentHashes := g.map (fun _ r => r.hash)

def changes (c : FileCache H) : ChangeSet := .between (hashes c.current) (hashes c.previous)

end FileCache

end Rebuild
