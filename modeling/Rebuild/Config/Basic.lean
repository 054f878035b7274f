import Rebuild.Path.Canonical
import Rebuild.Toml.Value

/-!
# Configurations

What a project says about its directories and its compiler. Every entry has a
default. A resolved configuration has canonical directories: the current one is
found from the process, the others from the current one.
-/

set_option autoImplicit false

namespace Rebuild

structure DirectoryPaths where
  currentDir : Option Path
  rootDir : Option Path
  outDir : Option Path
  sourceMapBase : Option Path
  deriving DecidableEq, Repr

def DirectoryPaths.default : DirectoryPaths := ⟨none, none, none, none⟩

inductive JsxMode where
  | none
  | preserve
  | react
  | reactJsx
  | reactNative
  deriving DecidableEq, Repr

def JsxMode.keepsJsx (j : JsxMode) : Bool := j == .preserve

inductive ModuleFormat where
  | commonJs
  | amd
  | umd
  | system
  | es2015
  | es2020
  | esNext
  | node16
  | nodeNext
  deriving DecidableEq, Repr

structure CompilerOptions where
  noEmitOnError : Bool
  inlineSourceMap : Bool
  allowJs : Bool
  jsx : JsxMode
  moduleFormat : ModuleFormat
  /-- Options that are handed to the compile service as they are. -/
  extra : Toml.Entries

def CompilerOptions.default : CompilerOptions := ⟨false, false, false, .none, .commonJs, []⟩

def defaultDependencyDir : String := "node_modules"

structure Config where
  paths : DirectoryPaths
  compiler : CompilerOptions
  dependencyDir : String

structure ResolvedConfig where
  currentDir : CanonicalPath
  rootDir : CanonicalPath
  outDir : CanonicalPath
  sourceMapBase : CanonicalPath
  compiler : CompilerOptions
  dependencyDir : String

namespace Config

def default : Config := ⟨.default, .default, defaultDependencyDir⟩

def resolve (c : Config) (processDir : Path) : ResolvedConfig :=
  let currentDir := (c.paths.currentDir.getD processDir).canonicalize processDir
  let within (p : Option Path) (fallback : CanonicalPath) : CanonicalPath :=
    (p.map currentDir.join).getD fallback
  let rootDir := within c.paths.rootDir currentDir
  { currentDir := currentDir
    rootDir := rootDir
    outDir := within c.paths.outDir rootDir
    sourceMapBase := within c.paths.sourceMapBase currentDir
    compiler := c.compiler
    dependencyDir := c.dependencyDir }

end Config

def ResolvedConfig.default (processDir : Path) : ResolvedConfig :=
  Config.default.resolve processDir

end Rebuild
