import Rebuild.Config.Basic

/-!
# Decoding configurations

A section is a table, or the list of its fields in order with the last ones
left out. Keys that are not known are passed over. A choice is named by a text,
or by a table with its name as the only key and an empty container under it.
-/

set_option autoImplicit false

namespace Rebuild

namespace Toml

/-- The key under which a date stands where a table is expected, and which marks a
table that stands for a date. -/
def datetimeKey : String := "$__toml_private_datetime"

def Value.fields? (v : Value) (names : List String) : Option (List (Option Value)) :=
  match v with
  | .table entries => some (names.map (fun name => entry? name entries))
  | .array items => some ((List.range names.length).map (fun i => items[i]?))
  | .datetime _ => some (names.map (fun _ => none))
  | _ => none

def Value.boolean? : Value → Option Bool
  | .boolean b => some b
  | _ => none

def Value.string? : Value → Option String
  | .string s => some s
  | _ => none

def Value.isEmptyContainer : Value → Bool
  | .array [] => true
  | .table [] => true
  | _ => false

def Value.choice? : Value → Option String
  | .string s => some s
  | .table [(name, v)] => if v.isEmptyContainer then some name else none
  | _ => none

def datetimeOfEntries? : Entries → Option (Option Datetime)
  | (key, v) :: _ =>
    if key = datetimeKey then (v.string?.bind Datetime.ofText?).map some else some none
  | [] => some none

mutual

def Value.withDates? : Value → Option Value
  | .array items => (withDatesAll? items).map .array
  | .table entries =>
    match datetimeOfEntries? entries with
    | none => none
    | some (some d) => some (.datetime d)
    | some none => (entriesWithDates? entries).map .table
  | v => some v

def withDatesAll? : List Value → Option (List Value)
  | [] => some []
  | v :: rest =>
    match v.withDates?, withDatesAll? rest with
    | some v, some rest => some (v :: rest)
    | _, _ => none

def entriesWithDates? : List (String × Value) → Option (List (String × Value))
  | [] => some []
  | (key, v) :: rest =>
    match v.withDates?, entriesWithDates? rest with
    | some v, some rest => some ((key, v) :: rest)
    | _, _ => none

end

def Value.openTable? : Value → Option Entries
  | .table entries => entriesWithDates? entries
  | .datetime d => some [(datetimeKey, .string d.text)]
  | _ => none

end Toml

def fieldOr {α : Type} (default : α) (decode : Toml.Value → Option α) :
    Option Toml.Value → Option α
  | none => some default
  | some v => decode v

def JsxMode.ofName? (s : String) : Option JsxMode :=
  if s = "none" then some .none
  else if s = "preserve" then some .preserve
  else if s = "react" then some .react
  else if s = "react-jsx" then some .reactJsx
  else if s = "react-native" then some .reactNative
  else Option.none

def ModuleFormat.ofName? (s : String) : Option ModuleFormat :=
  if s = "commonjs" then some .commonJs
  else if s = "amd" then some .amd
  else if s = "umd" then some .umd
  else if s = "system" then some .system
  else if s = "es2015" then some .es2015
  else if s = "es2020" then some .es2020
  else if s = "esnext" then some .esNext
  else if s = "node16" then some .node16
  else if s = "nodenext" then some .nodeNext
  else none

def pathField (v : Toml.Value) : Option (Option Path) := v.string?.map (fun s => some ⟨s⟩)

def DirectoryPaths.decode? (v : Toml.Value) : Option DirectoryPaths := do
  let fields ← v.fields? ["current_dir", "root_dir", "out_dir", "source_map_base"]
  some
    { currentDir := ← fieldOr none pathField (fields[0]?.getD none)
      rootDir := ← fieldOr none pathField (fields[1]?.getD none)
      outDir := ← fieldOr none pathField (fields[2]?.getD none)
      sourceMapBase := ← fieldOr none pathField (fields[3]?.getD none) }

def CompilerOptions.decode? (v : Toml.Value) : Option CompilerOptions := do
  let fields ← v.fields?
    ["no_emit_on_error", "inline_source_map", "allow_js", "jsx", "module", "extra"]
  some
    { noEmitOnError := ← fieldOr false Toml.Value.boolean? (fields[0]?.getD none)
      inlineSourceMap := ← fieldOr false Toml.Value.boolean? (fields[1]?.getD none)
      allowJs := ← fieldOr false Toml.Value.boolean? (fields[2]?.getD none)
      jsx := ← fieldOr .none (fun v => v.choice?.bind JsxMode.ofName?) (fields[3]?.getD none)
      moduleFormat := ← fieldOr .commonJs (fun v => v.choice?.bind ModuleFormat.ofName?)
        (fields[4]?.getD none)
      extra := ← fieldOr [] Toml.Value.openTable? (fields[5]?.getD none) }

def decodeDependencyDir? (v : Toml.Value) : Option String := do
  let fields ← v.fields? ["dependency_dir"]
  fieldOr defaultDependencyDir Toml.Value.string? (fields[0]?.getD none)

def Config.decode? (entries : Toml.Entries) : Option Config := do
  some
    { paths := ← fieldOr .default DirectoryPaths.decode? (Toml.entry? "paths" entries)
      compiler := ← fieldOr .default CompilerOptions.decode? (Toml.entry? "compiler" entries)
      dependencyDir := ← fieldOr defaultDependencyDir decodeDependencyDir?
        (Toml.entry? "cache" entries) }

end Rebuild
