import Rebuild.Service.Basic

/-!
# A scripted service

A compile service whose builds are laid down beforehand, one after the other.
Parsing puts a numbered stamp on a text. All that the service is asked and
answered is kept in a trace.
-/

set_option autoImplicit false

namespace Rebuild.Scripted

structure Stamp where
  name : Path
  serial : Nat
  bytes : Nat
  deriving DecidableEq, Repr

def Stamp.text (s : Stamp) : String :=
  s.name.text ++ "#" ++ s.serial.repr ++ ":" ++ s.bytes.repr

inductive TraceEntry where
  | parsed (stamp : Stamp)
  | built (roots : List CanonicalPath)
  | read (path : Path) (answer : Option Stamp)

/-- One build. The listed files are read, behind the roots if those are asked for. -/
structure Script where
  readRoots : Bool
  reads : List Path
  failure : Option String
  syntaxDiagnostics : List Diagnostic
  globalDiagnostics : List Diagnostic
  semanticDiagnostics : List Diagnostic
  emission : Emission

namespace Script

def blank : Script := ⟨false, [], none, [], [], [], ⟨[], [], [], false⟩⟩

def atBuild (scripts : List Script) (n : Nat) : Script :=
  (scripts[n]?.orElse (fun _ => scripts.getLast?)).getD blank

end Script

structure Stage where
  parses : Nat
  builds : Nat
  trace : List TraceEntry

namespace Stage

def empty : Stage := ⟨0, 0, []⟩

def note (s : Stage) (e : TraceEntry) : Stage := { s with trace := s.trace ++ [e] }

def collect (s : Stage) : List TraceEntry × Stage := (s.trace, { s with trace := [] })

end Stage

def parse : Parser Stage Stamp := fun name text s =>
  let stamp := Stamp.mk name (s.parses + 1) text.utf8ByteSize
  (stamp, { s with parses := s.parses + 1 }.note (.parsed stamp))

def Script.toProgram (script : Script) : Program Stage where
  syntaxDiagnostics s := (script.syntaxDiagnostics, s)
  globalDiagnostics s := (script.globalDiagnostics, s)
  semanticDiagnostics s := (script.semanticDiagnostics, s)
  emit s := (script.emission, s)

def Script.conclusion (script : Script) : Except InternalError (Program Stage) :=
  match script.failure with
  | some reason => .error ⟨reason⟩
  | none => .ok script.toProgram

def readAll (script : Script) : List Path → Stage → Session Stage Stamp
  | [], s => .finish script.conclusion s
  | path :: rest, s =>
    .read path s (fun answer s => readAll script rest (s.note (.read path answer)))

def service (scripts : List Script) : Service Stage Stamp where
  parse := parse
  build roots _ s :=
    let script := Script.atBuild scripts s.builds
    let asked := if script.readRoots then roots.map CanonicalPath.toPath else []
    readAll script (asked ++ script.reads) ({ s with builds := s.builds + 1 }.note (.built roots))

end Rebuild.Scripted
