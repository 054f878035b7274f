import Rebuild.Disk.Error
import Rebuild.Path.Canonical

/-!
# The disk

A tree of files, directories and links, kept as a map from the names below
the root. Looking up a path takes its segments from left to right, climbs to
the real parent and goes on at the target of each link that is met. Only
directories have entries, so nothing is found below anything else.
-/

set_option autoImplicit false

namespace Rebuild

inductive Entry where
  | file (data : ByteArray)
  | directory
  | link (target : Path)

structure Disk where
  entries : Std.TreeMap (List Name) Entry
  workingDirectory : List Name

inductive Disk.Stop where
  | found (place : List Name)
  | missing (place : List Name) (rest : List (List Char))
  | refused (error : DiskError)
  | link (directory : List Name) (target : Path) (rest : List (List Char))

namespace Disk

def empty : Disk := ⟨∅, []⟩

def entry? (d : Disk) (place : List Name) : Option Entry :=
  if place = [] then some .directory else d.entries[place]?

def isDirectory (d : Disk) (place : List Name) : Bool :=
  match d.entry? place with
  | some .directory => true
  | _ => false

def maxNameBytes : Nat := 255

def maxPathBytes : Nat := 4095

def maxLinks : Nat := 40

/-- Walks to the first link that has to be followed. An empty segment and a dot
ask for a directory to be there. -/
def walk (d : Disk) (followLast : Bool) : List Name → List (List Char) → Stop
  | place, [] => .found place
  | place, s :: rest =>
    if !d.isDirectory place then .refused .notDirectory
    else if s = [] ∨ s = ['.'] then d.walk followLast place rest
    else if s = ['.', '.'] then d.walk followLast place.dropLast rest
    else if maxNameBytes < (String.ofList s).utf8ByteSize then .refused .nameTooLong
    else match Name.ofText? (String.ofList s) with
      | none => .refused .notFound
      | some n =>
        match d.entry? (place ++ [n]) with
        | none => .missing (place ++ [n]) rest
        | some (.link target) =>
          if rest = [] ∧ !followLast then .found (place ++ [n]) else .link place target rest
        | some _ => d.walk followLast (place ++ [n]) rest

def enter (start : List Name) (p : Path) : List Name × List (List Char) :=
  if p.isAbsolute then ([], p.segments) else (start, p.segments)

/-- Follows at most `links` links. -/
def walkLinks (d : Disk) (followLast : Bool) :
    Nat → List Name → List (List Char) → Stop
  | links, place, segs =>
    match d.walk followLast place segs with
    | .link directory target rest =>
      match links with
      | 0 => .refused .tooManyLinks
      | links + 1 =>
        let (start, more) := enter directory target
        d.walkLinks followLast links start (more ++ rest)
    | stop => stop

/-- Looks up a path. The last entry may be a link itself. -/
@[irreducible]
def locate (d : Disk) (followLast : Bool) (p : Path) : Stop :=
  if p.text.toList.contains '\x00' then .refused .nulInName
  else if p.text = "" then .refused .notFound
  else if maxPathBytes < p.text.utf8ByteSize then .refused .nameTooLong
  else
    let (start, segs) := enter d.workingDirectory p
    d.walkLinks followLast maxLinks start segs

def entryAt (d : Disk) (followLast : Bool) (p : Path) : Except DiskError Entry :=
  match d.locate followLast p with
  | .found place =>
    match d.entry? place with
    | some e => .ok e
    | none => .error .notFound
  | .missing _ _ => .error .notFound
  | .refused e => .error e
  | .link _ _ _ => .error .tooManyLinks

def inspect (d : Disk) (p : Path) : Except DiskError Entry := d.entryAt false p

def readBytes (d : Disk) (p : Path) : Except DiskError ByteArray :=
  match d.entryAt true p with
  | .ok (.file data) => .ok data
  | .ok .directory => .error .isDirectory
  | .ok (.link _) => .error .tooManyLinks
  | .error e => .error e

def readText (d : Disk) (p : Path) : Except DiskError String :=
  match d.readBytes p with
  | .ok data =>
    match String.fromUTF8? data with
    | some text => .ok text
    | none => .error .notText
  | .error e => .error e

end Disk

end Rebuild
