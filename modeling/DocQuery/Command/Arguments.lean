import DocQuery.Settings

/-!
# Arguments of the command

Arguments are read from the left. What starts with a dash is an option, up to a `--` on its own;
a single dash is none. Options of one letter may stand together, and an option may be given once.
-/

namespace DocQuery.Command

/-- What the command is asked to do. -/
structure Request where
  /-- The arguments that are no options: at most two. -/
  operands : List String := []
  format : Option OutputFormat := none
  settingsFile : Option String := none
  all : Bool := false
  first : Bool := false
  count : Bool := false
  noValues : Bool := false
  deriving DecidableEq, Repr

/-- Why there is no request: the arguments ask for the version only, or they make no sense. -/
inductive Interruption where
  | version
  | misuse
  deriving DecidableEq, Repr

/-- An option without a value. -/
inductive Switch where
  | all
  | first
  | count
  | noValues
  deriving DecidableEq, Repr

/-- An option with a value. -/
inductive Parameter where
  | format
  | settingsFile
  deriving DecidableEq, Repr

inductive Choice where
  | switch (s : Switch)
  | parameter (p : Parameter)
  | version
  deriving DecidableEq, Repr

namespace Choice

def ofLetter? : Char → Option Choice
  | 'a' => some (.switch .all)
  | 'c' => some (.switch .count)
  | 'f' => some (.parameter .format)
  | 'V' => some .version
  | _ => none

def ofWord? : String → Option Choice
  | "all" => some (.switch .all)
  | "first" => some (.switch .first)
  | "count" => some (.switch .count)
  | "no-values" => some (.switch .noValues)
  | "format" => some (.parameter .format)
  | "config" => some (.parameter .settingsFile)
  | "version" => some .version
  | _ => none

end Choice

namespace Request

def addOperand (r : Request) (operand : String) : Except Interruption Request :=
  if r.operands.length < 2 then .ok { r with operands := r.operands ++ [operand] }
  else .error .misuse

def has (r : Request) : Switch → Bool
  | .all => r.all
  | .first => r.first
  | .count => r.count
  | .noValues => r.noValues

def turnOn (r : Request) (s : Switch) : Except Interruption Request :=
  if r.has s then .error .misuse
  else
    match s with
    | .all => .ok { r with all := true }
    | .first => .ok { r with first := true }
    | .count => .ok { r with count := true }
    | .noValues => .ok { r with noValues := true }

def set (r : Request) (p : Parameter) (value : String) : Except Interruption Request :=
  match p, r.format, r.settingsFile with
  | .format, none, _ =>
    match OutputFormat.ofName? value with
    | some format => .ok { r with format := some format }
    | none => .error .misuse
  | .settingsFile, _, none => .ok { r with settingsFile := some value }
  | _, _, _ => .error .misuse

/-- The file that the document is in, if it is not on the standard input. -/
def document? (r : Request) : Option String :=
  if r.all then r.operands.getLast? else r.operands[1]?

/-- The query to run, if one is named. -/
def query? (r : Request) : Option String :=
  if r.all then none else r.operands[0]?

end Request

/-- Arguments that have been read. -/
structure Reading where
  request : Request := {}
  /-- The option that the next argument is the value of. -/
  pending : Option Parameter := none
  /-- Whether no more options follow. -/
  literal : Bool := false

namespace Reading

/-- Reads letters of options. The letters behind that of a parameter are its value, which an equals
sign may precede. -/
def letters (r : Reading) : List Char → Except Interruption Reading
  | [] => .ok r
  | c :: rest =>
    match Choice.ofLetter? c, rest with
    | none, _ => .error .misuse
    | some .version, _ => .error .version
    | some (.switch s), rest => do letters { r with request := ← r.request.turnOn s } rest
    | some (.parameter p), [] => .ok { r with pending := some p }
    | some (.parameter p), '=' :: value | some (.parameter p), value =>
      return { r with request := ← r.request.set p (String.ofList value) }

/-- Reads the word of an option and perhaps its value. -/
def word (r : Reading) (text : List Char) : Except Interruption Reading :=
  let value? := match text.dropWhile (· ≠ '=') with
    | [] => none
    | _ :: value => some (String.ofList value)
  match Choice.ofWord? (String.ofList (text.takeWhile (· ≠ '='))), value? with
  | some .version, none => .error .version
  | some (.switch s), none => return { r with request := ← r.request.turnOn s }
  | some (.parameter p), none => .ok { r with pending := some p }
  | some (.parameter p), some value => return { r with request := ← r.request.set p value }
  | _, _ => .error .misuse

def isOption : List Char → Bool
  | '-' :: _ :: _ => true
  | _ => false

def step (r : Reading) (argument : String) : Except Interruption Reading :=
  match r.pending, isOption argument.toList with
  | some _, true => .error .misuse
  | some p, false => return { r with request := ← r.request.set p argument, pending := none }
  | none, isOption =>
    if r.literal || !isOption then
      return { r with request := ← r.request.addOperand argument }
    else
      match argument.toList.drop 1 with
      | ['-'] => .ok { r with literal := true }
      | '-' :: text => r.word text
      | text => r.letters text

end Reading

def Request.read (arguments : List String) : Except Interruption Request := do
  let reading ← arguments.foldlM Reading.step {}
  if reading.pending.isSome then throw .misuse else return reading.request

end DocQuery.Command
