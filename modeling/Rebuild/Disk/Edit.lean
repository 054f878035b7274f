import Rebuild.Disk.Basic

/-!
# Changing the disk

Files, directories and links are put at paths, with the directories above
them. Removing a directory removes all below it and never goes through a
link. A change that the disk refuses leaves it as it is.
-/

set_option autoImplicit false

namespace Rebuild.Disk

inductive Edit where
  | file (path : Path) (data : ByteArray)
  | directory (path : Path)
  | link (path : Path) (target : Path)
  | remove (path : Path)

def put (d : Disk) (place : List Name) (e : Entry) : Disk :=
  if place = [] then d else { d with entries := d.entries.insert place e }

def makeDirectory (d : Disk) (p : Path) : Disk :=
  match d.locate true p with
  | .missing place rest =>
    if rest.all (fun s => s = [] ∨ s = ['.']) then d.put place .directory else d
  | _ => d

def leadingPaths (p : Path) : List Path :=
  (List.range p.components.length).map
    (fun n => Path.ofComponents (p.components.take (n + 1)))

def makeDirectories (d : Disk) (p : Path) : Disk := (leadingPaths p).foldl makeDirectory d

def makeParents (d : Disk) (p : Path) : Disk :=
  match p.parent? with
  | some dir => d.makeDirectories dir
  | none => d

def prune (d : Disk) (place : List Name) : Disk :=
  if place = [] then d
  else { d with entries := d.entries.filter (fun q _ => !place.isPrefixOf q) }

def remove (d : Disk) (p : Path) : Disk :=
  match d.locate false p with
  | .found place => d.prune place
  | _ => d

def writeFile (d : Disk) (p : Path) (data : ByteArray) : Disk :=
  match d.locate true p with
  | .found place => if d.isDirectory place then d else d.put place (.file data)
  | .missing place [] => d.put place (.file data)
  | _ => d

def makeLink (d : Disk) (p : Path) (target : Path) : Disk :=
  match d.locate false p with
  | .missing place [] => d.put place (.link target)
  | _ => d

def apply (d : Disk) : Edit → Disk
  | .file p data => (d.makeParents p).writeFile p data
  | .directory p => d.makeDirectories p
  | .link p target => ((d.makeParents p).remove p).makeLink p target
  | .remove p => d.remove p

def ofWorkingDirectory (dir : CanonicalPath) : Disk :=
  { Disk.empty.makeDirectories dir.toPath with workingDirectory := dir.names }

def canonicalize (d : Disk) (p : Path) : CanonicalPath :=
  CanonicalPath.join ⟨true, d.workingDirectory⟩ p

end Rebuild.Disk
