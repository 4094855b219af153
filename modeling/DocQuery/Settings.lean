import DocQuery.Files
import DocQuery.Toml.Reader
import DocQuery.Toml.Writer

/-!
# Settings

What the command does when its arguments do not say: the query to run and the form of its output.
Settings are kept as TOML, where each that is not mentioned has its default.
-/

namespace DocQuery

/-- How matches are printed. -/
inductive OutputFormat where
  /-- A line for each match. -/
  | paths
  | json
  | yaml
  deriving DecidableEq, Repr

namespace OutputFormat

def all : List OutputFormat :=
  [.paths, .json, .yaml]

def name : OutputFormat → String
  | .paths => "paths"
  | .json => "json"
  | .yaml => "yaml"

def ofName? (name : String) : Option OutputFormat :=
  all.find? (·.name == name)

end OutputFormat

structure Settings where
  defaultQuery : String
  outputFormat : OutputFormat
  logLevel : String
  /-- Whether the lines of `OutputFormat.paths` show what was matched. -/
  showValues : Bool
  deriving DecidableEq, Repr

/-- Why there are no settings to be had from a file. -/
inductive SettingsError where
  | unreadable (file : String)
  | invalid (file : String)
  deriving DecidableEq, Repr

def SettingsError.message : SettingsError → String
  | .unreadable file => "Failed to read config file " ++ file
  | .invalid file => "Failed to parse config file " ++ file

namespace Settings

/-- Every leaf, each on a line with its path. -/
def standard : Settings where
  defaultQuery := "\\>\""
  outputFormat := .paths
  logLevel := "warn"
  showValues := true

/-- The setting under `key`, none if it has no meaning. -/
def setting? {α : Type} (table : Toml.Value.Table) (key : String) (default : α)
    (meaning? : Toml.Value → Option α) : Option α :=
  match table.lookup key with
  | some value => meaning? value
  | none => some default

def text? : Toml.Value → Option String
  | .string text => some text
  | _ => none

def flag? : Toml.Value → Option Bool
  | .bool value => some value
  | _ => none

/-- A format is named by a text, or by the only key of a table with nothing below it. -/
def format? : Toml.Value → Option OutputFormat
  | .string name => OutputFormat.ofName? name
  | .table _ [(name, .array [])] => OutputFormat.ofName? name
  | .table _ [(name, .table _ [])] => OutputFormat.ofName? name
  | _ => none

/-- The settings in a text. Keys that are no settings do not matter. -/
def ofText? (text : String) : Option Settings := do
  let table ← Toml.ofText? text
  let defaultQuery ← setting? table "default_query" standard.defaultQuery text?
  let outputFormat ← setting? table "output_format" standard.outputFormat format?
  let logLevel ← setting? table "log_level" standard.logLevel text?
  let showValues ← setting? table "show_values" standard.showValues flag?
  return { defaultQuery, outputFormat, logLevel, showValues }

/-- The text that keeps the settings. -/
def text (s : Settings) : String :=
  "default_query = " ++ Toml.quote s.defaultQuery ++ "\n" ++
  "output_format = " ++ Toml.quote s.outputFormat.name ++ "\n" ++
  "log_level = " ++ Toml.quote s.logLevel ++ "\n" ++
  "show_values = " ++ (if s.showValues then "true" else "false") ++ "\n"

/-- The settings in what the name `file` was found to lead to. -/
def ofFound (file : String) (found : Found) : Except SettingsError Settings :=
  match found.text? with
  | none => .error (.unreadable file)
  | some content =>
    match ofText? content with
    | some settings => .ok settings
    | none => .error (.invalid file)

/-- Where settings are kept in a home directory. -/
def homeFile : String :=
  ".config/treequery/config.toml"

/-- The settings kept in a home directory, the standard ones if those cannot be used. -/
def ofHome (found : Found) : Settings :=
  (ofFound homeFile found).toOption.getD standard

end Settings

end DocQuery
