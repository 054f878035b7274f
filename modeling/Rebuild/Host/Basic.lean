import Rebuild.Event.Basic
import Rebuild.Host.Entry
import Rebuild.Host.Outputs
import Rebuild.Service.Basic
import Rebuild.SourceMap.Rewrite

/-!
# The compile host

The host serves one build tool. In a generation files are added, then passes
of the compile service run over the roots, and outputs are fetched. A missing
output starts at most one pass. Once a fatal diagnostic has been raised nothing
is emitted any more. A reset starts the next generation with the parsed files
of this one.
-/

set_option autoImplicit false

namespace Rebuild

inductive Phase where
  | idle
  | compiled
  deriving DecidableEq, Repr

structure PassSummary where
  syntaxCount : Nat
  semanticCount : Nat
  emitCount : Nat
  written : Nat
  emitSkipped : Bool
  deriving DecidableEq, Repr

def PassSummary.diagnostics (s : PassSummary) : Nat :=
  s.syntaxCount + s.semanticCount + s.emitCount

/-- What becomes of a file that the build tool asks to transform. -/
inductive Transformed where
  | empty
  | compiled (data : ByteArray)
  | passThrough

inductive HostError where
  | addAfterCompile (path : Path)
  | noOutput (file : Path)
  | compileFailed (file : Path)
  | workingDirectory (e : DiskError)
  | internal (e : InternalError)
  deriving DecidableEq, Repr

def HostError.message : HostError → String
  | .addAfterCompile path =>
    "cannot add " ++ path.text ++ " after compiling; reset the host to start a new build"
  | .noOutput file => "no compiled output for " ++ file.text
  | .compileFailed file => "compilation failed; no output for " ++ file.text ++ " in this build"
  | .workingDirectory e => "cannot determine working directory: " ++ e.message
  | .internal e => e.message

structure Host (σ H : Type) where
  service : Service σ H
  serviceState : σ
  config : ResolvedConfig
  cache : FileCache H
  outputs : Outputs
  phase : Phase
  /-- Whether a fatal diagnostic was raised in this generation. -/
  failed : Bool
  /-- How many passes this generation has started. -/
  passes : Nat
  /-- Output keys that have started a pass. -/
  attempted : Std.TreeSet CanonicalPath
  listeners : List Listener
  rewriter : SourceMapRewriter

namespace Host

variable {σ H : Type}

def ofService (service : Service σ H) (state : σ) (config : ResolvedConfig) : Host σ H where
  service := service
  serviceState := state
  config := config
  cache := .empty config.currentDir config.dependencyDir
  outputs := ∅
  phase := .idle
  failed := false
  passes := 0
  attempted := ∅
  listeners := []
  rewriter := SourceMap.rewrite

def outputMap (h : Host σ H) : OutputMap := ⟨h.config.rootDir, h.config.outDir⟩

def outputPlace (h : Host σ H) : OutputPlace := ⟨h.config.currentDir, h.outputMap⟩

def outputKey (h : Host σ H) (source : CanonicalPath) : CanonicalPath :=
  h.outputMap.outputKey source h.config.compiler.jsx.keepsJsx

def strict (h : Host σ H) : Bool := h.config.compiler.noEmitOnError

def subscribe (h : Host σ H) (l : Listener) : Host σ H :=
  { h with listeners := h.listeners ++ [l] }

def tell (h : Host σ H) (e : Event) : Host σ H :=
  { h with listeners := h.listeners.map (·.receive e) }

def tellAll (h : Host σ H) (es : List Event) : Host σ H := es.foldl tell h

def report (h : Host σ H) (ds : List Diagnostic) : Host σ H :=
  h.tellAll (ds.map (fun d => .error (.ofDiagnostic d)))

/-- Keeps what reading a file has come to, and tells of the file if it was read. -/
def keep (h : Host σ H) : Option (Admission H) × FileCache H → Option H × Host σ H
  | (some a, cache) => (some a.parsed, { h with cache := cache }.tell (.file a.observed))
  | (none, cache) => (none, { h with cache := cache })

/-- A file that cannot be read is no error, it just has no output later. -/
def addFile (h : Host σ H) (disk : Disk) (path : Path) (isRoot : Bool) :
    Except HostError (Option H) × Host σ H :=
  if h.phase = .compiled then (.error (.addAfterCompile path), h)
  else
    let (r, state) := h.cache.addFile disk path isRoot h.service.parse h.serviceState
    let (parsed, h) := h.keep r
    (.ok parsed, { h with serviceState := state })

def addRoots (h : Host σ H) (disk : Disk) : List Path → Except HostError Unit × Host σ H
  | [] => (.ok (), h)
  | path :: rest =>
    match h.addFile disk path true with
    | (.error e, h) => (.error e, h)
    | (.ok _, h) => h.addRoots disk rest

def addEntries (h : Host σ H) (disk : Disk) (rows : List EntryRow) :
    Except HostError EntrySelection × Host σ H :=
  let gathered := EntrySelection.ofRows rows
  match h.addRoots disk gathered.entries with
  | (.error e, h) => (.error e, h)
  | (.ok (), h) => (.ok gathered, h)

def reset (h : Host σ H) : Host σ H :=
  { h with
    outputs := ∅
    attempted := ∅
    failed := false
    passes := 0
    phase := .idle
    cache := h.cache.reset }

def serve (h : Host σ H) (disk : Disk) :
    Session σ H → Except InternalError (Program σ) × Host σ H
  | .finish result state => (result, { h with serviceState := state })
  | .read path state next =>
    let r := h.cache.load disk path h.service.parse state
    let a := h.keep r.1
    a.2.serve disk (next a.1 r.2)

/-- Nothing is emitted in a generation that has failed. To a strict host any semantic
diagnostic is a failure. -/
def mayEmit (h : Host σ H) (found : List Diagnostic) : Bool :=
  !(h.failed || (h.strict && !found.isEmpty))

def pass (h : Host σ H) (disk : Disk) : Verdict × Host σ H :=
  let h := { h with phase := .compiled, passes := h.passes + 1 }
  match h.serve disk (h.service.build h.cache.rootNames h.config h.serviceState) with
  | (.error e, h) => (.failed e, h)
  | (.ok program, h) =>
    let (verdict, state) := program.consult h.mayEmit h.serviceState
    (verdict, { h with serviceState := state })

def fail (h : Host σ H) (severe : Bool) : Host σ H := { h with failed := h.failed || severe }

def storeAll (h : Host σ H) (disk : Disk) (writes : List (Path × ByteArray)) : Host σ H :=
  { h with outputs := h.outputPlace.writeAll disk h.outputs writes }

/-- Reports what a pass has found and stores what it has emitted. Any syntax error is
fatal, all else only if the host is strict. -/
def conclude (h : Host σ H) (disk : Disk) : Verdict → Except HostError PassSummary × Host σ H
  | .failed e => (.error (.internal e), h)
  | .malformed found => (.ok ⟨found.length, 0, 0, 0, true⟩, (h.report found).fail true)
  | .checked found =>
    (.ok ⟨0, found.length, 0, 0, true⟩, (h.report found).fail (h.strict && !found.isEmpty))
  | .emitted found emission =>
    (.ok ⟨0, found.length, emission.diagnostics.length, emission.writtenFiles.length,
        emission.skipped⟩,
      (((h.report found).storeAll disk emission.writes).report emission.diagnostics).fail
        (h.strict && !emission.diagnostics.isEmpty))

def compile (h : Host σ H) (disk : Disk) : Except HostError PassSummary × Host σ H :=
  let (verdict, h) := h.pass disk
  h.conclude disk verdict

def output? (h : Host σ H) (source : Path) : Option ByteArray :=
  h.outputs[h.outputKey (h.cache.canonicalize source)]?

/-- An output whose map cannot be rewritten is handed over as it is. -/
def deliver (h : Host σ H) (source : CanonicalPath) (data : ByteArray) : ByteArray :=
  if !h.config.compiler.inlineSourceMap then data
  else match String.fromUTF8? data with
    | none => data
    | some text =>
      match h.rewriter text (source.relativeTo h.config.sourceMapBase) with
      | .ok rewritten => rewritten.toUTF8
      | .error _ => data

def stored (h : Host σ H) (file : Path) : Except HostError ByteArray :=
  match h.output? file with
  | some data => .ok (h.deliver (h.cache.canonicalize file) data)
  | none => .error (.noOutput file)

/-- A key that has no output and has not started a pass starts one. -/
def retrieve (h : Host σ H) (disk : Disk) (file : Path) :
    Except HostError ByteArray × Host σ H :=
  if h.failed then (.error (.compileFailed file), h)
  else
    let key := h.outputKey (h.cache.canonicalize file)
    if h.outputs.contains key || h.attempted.contains key then (h.stored file, h)
    else
      match { h with attempted := h.attempted.insert key }.compile disk with
      | (.error e, h) => (.error e, h)
      | (.ok _, h) =>
        if h.failed then (.error (.compileFailed file), h) else (h.stored file, h)

def compiles (h : Host σ H) : FileKind → Bool
  | .typeScript | .tsx => true
  | .javaScript => h.config.compiler.allowJs
  | .declaration | .other => false

def transform (h : Host σ H) (disk : Disk) (file : Path) :
    Except HostError Transformed × Host σ H :=
  let kind := FileKind.ofPath file
  if kind = .declaration then (.ok .empty, h)
  else if !h.compiles kind then (.ok .passThrough, h)
  else if h.failed then (.ok .empty, h)
  else
    match h.retrieve disk file with
    | (.ok data, h) => (.ok (.compiled data), h)
    | (.error e, h) => (.error e, h)

end Host

end Rebuild
