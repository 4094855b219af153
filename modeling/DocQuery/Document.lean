import DocQuery.Files
import DocQuery.Gzip.Member
import DocQuery.Json.Reader
import DocQuery.Yaml.Reader

/-!
# Loading documents

A document comes from a named file or from a stream of bytes, may be compressed, and is JSON or
YAML. The name of a file says which; where it does not, and for streams, JSON is tried first.
-/

namespace DocQuery

inductive Format where
  | json
  | yaml
  deriving DecidableEq, Repr

/-- Why a document cannot be loaded. -/
inductive LoadError where
  | invalidJson
  | invalidYaml
  /-- Tried as both. -/
  | neither
  | unreadable (file : String)
  | notText
  | damagedInput
  | unopened
  | damagedFile
  /-- The failure of a document on the standard input. -/
  | standardInput (e : LoadError)
  deriving DecidableEq, Repr

namespace LoadError

/-- What is said of a failure, the outermost first. -/
def contexts : LoadError → List String
  | .invalidJson => ["Failed to parse JSON"]
  | .invalidYaml => ["Failed to parse YAML"]
  | .neither => ["Input is neither valid JSON nor valid YAML", "Failed to parse YAML"]
  | .unreadable file => ["Failed to read file " ++ file]
  | .notText => ["Invalid UTF-8 in input"]
  | .damagedInput => ["Failed to decompress gzipped input"]
  | .unopened => ["Failed to open gzipped file"]
  | .damagedFile => ["Failed to decompress gzipped file - file may be corrupted"]
  | .standardInput e => "Failed to load document from stdin" :: e.contexts

def message (e : LoadError) : String :=
  String.intercalate ": " e.contexts

end LoadError

namespace Format

/-- Whether a name ends in `ending`. -/
def nameEnds (name ending : List Char) : Bool :=
  ending.isSuffixOf name

def gzEnding : List Char :=
  ".gz".toList

/-- The format that a file name ends in, before one ending `.gz` if it has one. -/
def ofName? (name : String) : Option Format :=
  let chars := name.toList
  let base := if nameEnds chars gzEnding then chars.take (chars.length - 3) else chars
  if nameEnds base ".json".toList then some .json
  else if nameEnds base ".yaml".toList || nameEnds base ".yml".toList then some .yaml
  else none

/-- Reads a text of a known format. -/
def parse (format : Format) (text : String) : Except LoadError Tree :=
  match format with
  | .json =>
    match Json.Value.ofText? text with
    | some value => .ok value.toTree
    | none => .error .invalidJson
  | .yaml =>
    match Yaml.Value.ofText? text with
    | some value => .ok value.toTree
    | none => .error .invalidYaml

end Format

namespace Document

/-- Reads a text as JSON, or else as YAML. -/
def parseAny (text : String) : Except LoadError Tree :=
  match Format.json.parse text, Format.yaml.parse text with
  | .ok tree, _ => .ok tree
  | .error _, .ok tree => .ok tree
  | .error _, .error _ => .error .neither

/-- Reads a document of unknown name. Compressed data is known by its first bytes. -/
def ofBytes (bytes : List UInt8) : Except LoadError Tree :=
  if Gzip.magic.isPrefixOf bytes then
    match (Gzip.decompress? bytes).bind textOfBytes? with
    | some text => parseAny text
    | none => .error .damagedInput
  else
    match textOfBytes? bytes with
    | some text => parseAny text
    | none => .error .notText

def ofStandardInput (bytes : List UInt8) : Except LoadError Tree :=
  (ofBytes bytes).mapError .standardInput

/-- Whether a file is taken for compressed: its name is more than the ending `.gz`. -/
def isCompressedName (name : String) : Bool :=
  match (Directory.place name).getLast? with
  | some base => Format.nameEnds base.toList Format.gzEnding && base.toList != Format.gzEnding
  | none => false

/-- The text of a file, decompressed if its name says so. -/
def textOfFile (files : Files) (name : String) : Except LoadError String :=
  if isCompressedName name then
    match files name with
    | .nothing => .error .unopened
    | .directory => .error .damagedFile
    | .file bytes =>
      match (Gzip.decompress? bytes).bind textOfBytes? with
      | some text => .ok text
      | none => .error .damagedFile
  else
    match (files name).text? with
    | some text => .ok text
    | none => .error (.unreadable name)

/-- Reads the document in a file. -/
def ofFile (files : Files) (name : String) : Except LoadError Tree := do
  let text ← textOfFile files name
  match Format.ofName? name with
  | some format => format.parse text
  | none => parseAny text

end Document

end DocQuery
