import Rebuild.Config.Decode
import Rebuild.Disk.Basic
import Rebuild.Toml.Reader

/-!
# Loading configurations

A configuration is read from a file of a fixed name in the project directory.
The name of the dependency directory has to be one directory name.
-/

set_option autoImplicit false

namespace Rebuild

inductive ConfigError where
  | unreadable (path : Path) (error : DiskError)
  | unparsable (reason : String)
  | missingField (field : String)
  | invalid (field reason : String)
  deriving DecidableEq, Repr

def configFile : String := "kiln.toml"

def ConfigError.message : ConfigError → String
  | .unreadable path error => "cannot read " ++ path.text ++ ": " ++ error.message
  | .unparsable reason => "invalid " ++ configFile ++ ": " ++ reason
  | .missingField field => "missing required field: " ++ field
  | .invalid field reason => "invalid value for " ++ field ++ ": " ++ reason

namespace Config

def dependencyDirField : String := "cache.dependency_dir"

def isDirectoryName (s : String) : Bool :=
  !s.toList.contains '/' && !s.toList.contains '\\' && s != "." && s != ".."

def validate (c : Config) : Except ConfigError Config :=
  if c.dependencyDir = "" then .error (.missingField dependencyDirField)
  else if isDirectoryName c.dependencyDir then .ok c
  else
    .error (.invalid dependencyDirField
      ("must be a single directory name, got '" ++ c.dependencyDir ++ "'"))

def parse (text : String) : Except ConfigError Config :=
  match (Toml.parse? text).bind decode? with
  | none => .error (.unparsable "not a configuration")
  | some c => c.validate

def load (disk : Disk) (projectDir : Path) : Except ConfigError Config :=
  let path := projectDir.join ⟨configFile⟩
  match disk.readText path with
  | .error e => .error (.unreadable path e)
  | .ok text => parse text

end Config

end Rebuild
