import Rebuild.Disk.Basic

/-!
# Real paths

The path of an entry with every link on the way replaced by its target. Each
component is inspected in turn. Where a link is met, its target takes the
place of the path so far and the walk starts again. The number of links is
bounded, so cycles end.
-/

set_option autoImplicit false

namespace Rebuild

inductive FollowError where
  | missing (path : Path)
  | tooManyLinks (path : Path)
  | uninspectable (path : Path) (error : DiskError)
  deriving DecidableEq, Repr

def FollowError.message : FollowError → String
  | .missing path => "path component does not exist: " ++ path.text
  | .tooManyLinks path => "too many levels of symbolic links at " ++ path.text
  | .uninspectable path error => "failed to inspect " ++ path.text ++ ": " ++ error.message

namespace Disk

inductive Advance where
  | arrived (real : Path)
  | failed (error : FollowError)
  | link (candidate directory target : Path) (rest : List Component)

def advance (d : Disk) : Path → List Component → Advance
  | real, [] => .arrived real
  | real, c :: rest =>
    match c with
    | .root => d.advance (real.join ⟨c.text⟩) rest
    | .here => d.advance real rest
    | .up => d.advance (real.parent?.getD real) rest
    | .name n =>
      let candidate := real.join ⟨n.text⟩
      match d.inspect candidate with
      | .error .notFound => .failed (.missing candidate)
      | .error e => .failed (.uninspectable candidate e)
      | .ok (.link target) => .link candidate real target rest
      | .ok _ => d.advance candidate rest

def maxHops : Nat := 40

def followFrom (d : Disk) : Nat → List Component → Except FollowError Path
  | hops, cs =>
    match d.advance ⟨""⟩ cs with
    | .arrived real => .ok real
    | .failed e => .error e
    | .link candidate directory target rest =>
      match hops with
      | 0 => .error (.tooManyLinks candidate)
      | hops + 1 => d.followFrom hops ((directory.join target).components ++ rest)

def follow (d : Disk) (p : Path) : Except FollowError Path := d.followFrom maxHops p.components

end Disk

end Rebuild
