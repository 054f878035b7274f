import Rebuild.OutputMap
import Rebuild.Service.Basic
import Rebuild.SourceMap.Rewrite
import Rebuild.Text.Lines

/-!
# The sketch language

A compile service for a small language, made to run a host without a compiler.
A line `import "file"` draws in another file, seen from the directory of the
one it stands in. Markers in a text stand for the mistakes a compiler would
find. Compiling puts one line in front of a text.
-/

set_option autoImplicit false

namespace Rebuild.Sketch

structure SketchFile where
  source : SourceFile
  imports : List String

structure ParseLog where
  names : List Path
  count : Nat

def ParseLog.empty : ParseLog := ⟨[], 0⟩

def ParseLog.collect (s : ParseLog) : List Path × ParseLog := (s.names, { s with names := [] })

def import? (line : List Char) : Option String :=
  ("import \"".toList.isPrefixOf? (Text.trim line)).map
    (fun rest => String.ofList (rest.takeWhile (· ≠ '"')))

def imports (text : String) : List String := (Text.lines text.toList).filterMap import?

def parse : Parser ParseLog SketchFile := fun name text s =>
  (⟨⟨name, text⟩, imports text⟩, ⟨s.names ++ [name], s.count + 1⟩)

namespace SketchFile

def offset? (f : SketchFile) (marker : String) : Option UInt32 :=
  (Text.splitFirst? marker.toList f.source.content.toList).map
    (fun parts => UInt32.ofNat parts.1.length)

def declarationOpening : List Char := "const ".toList

def isMistyped (line : List Char) : Bool :=
  match declarationOpening.isPrefixOf? line with
  | none => false
  | some rest =>
    match Text.splitFirst? ": number = \"".toList rest with
    | none => false
    | some (name, value) => !name.isEmpty && value.contains '"'

def mistypedFrom (start : Nat) : List (List Char) → List UInt32
  | [] => []
  | line :: rest =>
    let later := mistypedFrom (start + line.length) rest
    if isMistyped line then UInt32.ofNat (start + declarationOpening.length) :: later else later

def mistyped (f : SketchFile) : List UInt32 :=
  mistypedFrom 0 (Text.lines f.source.content.toList)

def mapComment (f : SketchFile) : String :=
  let name := (f.source.path.fileName?.map Name.text).getD ""
  let map := "\x7b\"version\":3,\"file\":\"out.js\",\"sources\":[\"" ++ name ++
    "\"],\"mappings\":\"AAAA\"\x7d"
  "\n" ++ String.ofList
    (SourceMap.opening ++ SourceMap.marker ++ Base64.encode map.toUTF8.data.toList)

def compiled (f : SketchFile) (withMap : Bool) : String :=
  "\"use strict\";\n" ++ f.source.content ++ (if withMap then f.mapComment else "")

end SketchFile

structure SketchProgram where
  files : List (CanonicalPath × SketchFile)
  config : ResolvedConfig

namespace SketchProgram

def marked (p : SketchProgram) (marker : String) (d : Diagnostic) : List Diagnostic :=
  p.files.filterMap (fun f => (f.2.offset? marker).map (d.pointingAt f.2.source))

def syntaxDiagnostics (p : SketchProgram) : List Diagnostic :=
  p.marked "@@" (.ofText .error 1005 "';' expected.")

def globalDiagnostics (p : SketchProgram) : List Diagnostic :=
  if p.files.any (fun f => (f.2.offset? "@nolib").isSome) then
    [.ofText .error 2318 "Cannot find global type 'Array'."]
  else []

def typeErrors (f : SketchFile) : List Diagnostic :=
  f.mistyped.map ((Diagnostic.ofText .error 2322
    "Type 'string' is not assignable to type 'number'.").pointingAt f.source)

def semanticDiagnostics (p : SketchProgram) : List Diagnostic :=
  p.files.flatMap (fun f => typeErrors f.2) ++
    p.marked "@unused" (.ofText .warning 6133 "'x' is declared but its value is never read.")

def outputKey (p : SketchProgram) (source : CanonicalPath) : CanonicalPath :=
  OutputMap.outputKey ⟨p.config.rootDir, p.config.outDir⟩ source
    p.config.compiler.jsx.keepsJsx

def writes (p : SketchProgram) : List (Path × ByteArray) :=
  (p.files.filter (fun f => FileKind.ofCanonical f.1 != .declaration)).map (fun f =>
    ((p.outputKey f.1).toPath, (f.2.compiled p.config.compiler.inlineSourceMap).toUTF8))

def emit (p : SketchProgram) : Emission :=
  if p.config.compiler.noEmitOnError && !p.semanticDiagnostics.isEmpty then
    .ofWrites [] [] true
  else
    .ofWrites p.writes (p.marked "@emit-error" (.ofText .error 5033 "Could not write file.")) false

def toProgram (p : SketchProgram) : Program ParseLog where
  syntaxDiagnostics s := (p.syntaxDiagnostics, s)
  globalDiagnostics s := (p.globalDiagnostics, s)
  semanticDiagnostics s := (p.semanticDiagnostics, s)
  emit s := (p.emit, s)

end SketchProgram

def imported (path : CanonicalPath) (f : SketchFile) : List CanonicalPath :=
  match path.parent? with
  | some dir => f.imports.map (fun name => dir.join ⟨name⟩)
  | none => []

/-- Reads file after file, nearest to the roots first. A path is read once. -/
def gather (config : ResolvedConfig) : Nat → List CanonicalPath → Std.TreeSet CanonicalPath →
    List (CanonicalPath × SketchFile) → ParseLog → Session ParseLog SketchFile
  | _, [], _, backward, s => .finish (.ok (SketchProgram.mk backward.reverse config).toProgram) s
  | 0, _ :: _, _, _, s => .finish (.error ⟨"too many imports"⟩) s
  | steps + 1, path :: queue, seen, backward, s =>
    if seen.contains path then gather config steps queue seen backward s
    else .read path.toPath s (fun answer s =>
      match answer with
      | none => gather config steps queue (seen.insert path) backward s
      | some f =>
        gather config steps (queue ++ imported path f) (seen.insert path) ((path, f) :: backward) s)

/-- More imports than any disk can hold are not followed. -/
def maxSteps : Nat := Nat.pow 10 12

def service : Service ParseLog SketchFile where
  parse := parse
  build roots config s := gather config maxSteps roots ∅ [] s

end Rebuild.Sketch
