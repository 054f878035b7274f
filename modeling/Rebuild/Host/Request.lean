import Rebuild.Host.Basic

/-!
# Requests to the host

All that a build tool can ask of a host, so that a whole run is a list. The
disk may be another one at each request.
-/

set_option autoImplicit false

namespace Rebuild

inductive Request where
  | addFile (path : Path) (isRoot : Bool)
  | addEntries (rows : List EntryRow)
  | compile
  | output (source : Path)
  | retrieve (file : Path)
  | transform (file : Path)
  | reset

inductive Response (H : Type) where
  | added (result : Except HostError (Option H))
  | gathered (result : Except HostError EntrySelection)
  | compiled (result : Except HostError PassSummary)
  | output (result : Option ByteArray)
  | retrieved (result : Except HostError ByteArray)
  | transformed (result : Except HostError Transformed)
  | reset

namespace Host

variable {σ H : Type}

def handle (h : Host σ H) (disk : Disk) : Request → Response H × Host σ H
  | .addFile path isRoot =>
    let (r, h) := h.addFile disk path isRoot
    (.added r, h)
  | .addEntries rows =>
    let (r, h) := h.addEntries disk rows
    (.gathered r, h)
  | .compile =>
    let (r, h) := h.compile disk
    (.compiled r, h)
  | .output source => (.output (h.output? source), h)
  | .retrieve file =>
    let (r, h) := h.retrieve disk file
    (.retrieved r, h)
  | .transform file =>
    let (r, h) := h.transform disk file
    (.transformed r, h)
  | .reset => (.reset, h.reset)

def run (h : Host σ H) : List (Disk × Request) → List (Response H) × Host σ H
  | [] => ([], h)
  | (disk, request) :: rest =>
    let (response, h) := h.handle disk request
    let (responses, h) := h.run rest
    (response :: responses, h)

end Host

end Rebuild
