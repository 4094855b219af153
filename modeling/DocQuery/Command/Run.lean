import DocQuery.Command.Arguments
import DocQuery.Command.Output
import DocQuery.Document
import DocQuery.Query.Parser

/-!
# Running the command

A run reads its settings, then the document and then the query, and the first of them that fails
ends it. What it reads is given by its surroundings.
-/

namespace DocQuery.Command

structure Surroundings where
  files : Files
  /-- What the settings in the home directory were found to be. -/
  homeSettings : Found
  /-- The bytes of the standard input, unless somebody would have to type them. -/
  input : Option (List UInt8)

/-- Why a run fails. -/
inductive Failure where
  | settings (e : SettingsError)
  | document (e : LoadError)
  | noInput
  | invalidQuery (text : String)
  deriving DecidableEq, Repr

/-- Of a document that cannot be loaded only the outermost context is told. -/
def Failure.message : Failure → String
  | .settings e => e.message
  | .document e => e.contexts.headD ""
  | .noInput => "No input: pass a FILE or pipe a document on stdin"
  | .invalidQuery text => "Invalid query '" ++ text ++ "'"

inductive Outcome where
  | printed (text : String)
  | failed (f : Failure)
  | misused
  deriving DecidableEq, Repr

namespace Outcome

def exitCode : Outcome → UInt32
  | .printed _ => 0
  | .failed _ => 1
  | .misused => 2

def output : Outcome → String
  | .printed text => text
  | _ => ""

end Outcome

def version : String :=
  "treeq 0.2.1"

namespace Request

def settings (r : Request) (s : Surroundings) : Except Failure Settings :=
  match r.settingsFile with
  | some file => (Settings.ofFound file (s.files file)).mapError .settings
  | none => .ok (Settings.ofHome s.homeSettings)

def document (r : Request) (s : Surroundings) : Except Failure Tree :=
  match r.document?, s.input with
  | some file, _ => (Document.ofFile s.files file).mapError .document
  | none, some bytes => (Document.ofStandardInput bytes).mapError .document
  | none, none => .error .noInput

def query (r : Request) (settings : Settings) : Except Failure Query :=
  let text := r.query?.getD settings.defaultQuery
  ((Location.parse text).map Location.toQuery).mapError fun _ => .invalidQuery text

/-- What is found in a document: everything, or what the query matches. -/
def found (r : Request) (settings : Settings) (root : Tree) : Except Failure (List Match) :=
  if r.all then
    .ok (if r.first then root.firstDescendant?.toList else root.descendants)
  else do
    let query ← r.query settings
    return if r.first then (root.selectFirst? query).toList else root.select query

def answer (r : Request) (s : Surroundings) : Except Failure String := do
  let settings ← r.settings s
  let found ← r.found settings (← r.document s)
  if r.count then return toString found.length ++ "\n"
  else
    let format := r.format.getD settings.outputFormat
    return format.print (settings.showValues && !r.noValues) found

end Request

def run (arguments : List String) (s : Surroundings) : Outcome :=
  match Request.read arguments with
  | .error .version => .printed (version ++ "\n")
  | .error .misuse => .misused
  | .ok request =>
    match request.answer s with
    | .ok text => .printed text
    | .error f => .failed f

end DocQuery.Command
