import DocQuery.Toml.Scalar
import DocQuery.Toml.Text

/-!
# Reading TOML

A text is read line by line: headers begin tables, and entries go into the table begun last.
-/

namespace DocQuery.Toml

/-! ## Values -/

/-- A reader of what comes first, which hands on the rest. -/
abbrev Front (α : Type) := List Char → Option (α × List Char)

/-- The items of an array and its closing bracket. -/
def items? (item : Front Value) (cs : List Char) : Nat → Option (List Value × List Char)
  | 0 => none
  | steps + 1 => do
    match ← skipLines? cs with
    | ']' :: rest => return ([], rest)
    | start =>
      let (first, rest) ← item start
      match ← skipLines? rest with
      | ']' :: rest => return ([first], rest)
      | ',' :: rest =>
        let (more, rest) ← items? item rest steps
        return (first :: more, rest)
      | _ => none

/-- A key, the sign behind it and a value. -/
def entry? (item : Front Value) : Front (List String × Value) := fun cs => do
  let (keys, rest) ← dottedKey? cs
  match rest with
  | '=' :: rest =>
    let (value, rest) ← item (skipBlanks rest)
    return ((keys, value), rest)
  | _ => none

/-- Entries added to those of a table between braces, and the closing brace. -/
def braced? (item : Front Value) (entries : Value.Table) (cs : List Char) :
    Nat → Option (Value.Table × List Char)
  | 0 => none
  | steps + 1 => do
    let ((keys, value), rest) ← entry? item cs
    let entries ← Value.insert? value keys entries
    match skipBlanks rest with
    | '}' :: rest => return (entries, rest)
    | ',' :: rest => braced? item entries rest steps
    | _ => none

/-- A value with at most `depth` levels of arrays and tables. -/
def value? : (depth : Nat) → Front Value
  | depth + 1, '[' :: rest =>
    (items? (value? depth) rest (rest.length + 1)).map fun (items, rest) => (.array items, rest)
  | depth + 1, '{' :: rest =>
    match skipBlanks rest with
    | '}' :: rest => some (.table .inline [], rest)
    | _ =>
      (braced? (value? depth) [] rest (rest.length + 1)).map fun (entries, rest) =>
        (.table .inline entries, rest)
  | _, cs =>
    match text? cs with
    | some (text, rest) => some (.string text, rest)
    | none =>
      let (word, rest) := splitWord cs
      (ofWord? word).map (·, rest)

/-! ## Lines -/

/-- What has been read: all tables, and the name of the one that entries go into. It is empty for
the outermost table. -/
structure Reading where
  root : Value.Table
  header : List String

namespace Reading

def put? (r : Reading) (keys : List String) (value : Value) : Option Reading :=
  let root? := if r.header.isEmpty then Value.insert? value keys r.root
    else Value.alter? (Value.addEntry? keys value) r.header r.root
  root?.map fun root => { r with root }

def begin? (r : Reading) (start : Option Value → Option Value) (keys : List String) :
    Option Reading :=
  (Value.alter? start keys r.root).map (⟨·, keys⟩)

/-- Reads a header or an entry. -/
def step? (r : Reading) : Front Reading
  | '[' :: '[' :: rest => do
    match ← dottedKey? rest with
    | (keys, ']' :: ']' :: rest) => return (← r.begin? Value.beginTables? keys, rest)
    | _ => none
  | '[' :: rest => do
    match ← dottedKey? rest with
    | (keys, ']' :: rest) => return (← r.begin? Value.beginTable? keys, rest)
    | _ => none
  | cs => do
    let ((keys, value), rest) ← entry? (value? maxDepth) cs
    return (← r.put? keys value, rest)

/-- Reads lines to the end. Each but the last ends in a line break. -/
def lines? (r : Reading) (cs : List Char) : Nat → Option Reading
  | 0 => none
  | steps + 1 => do
    match ← skipLines? cs with
    | [] => return r
    | start =>
      let (r, rest) ← r.step? start
      match ← skipComment? rest with
      | [] => return r
      | rest => r.lines? (← newline? rest) steps

end Reading

/-- The outermost table of a text, which may start with a byte order mark. -/
def ofText? (text : String) : Option Value.Table :=
  let cs := match text.toList with
    | '\ufeff' :: rest => rest
    | cs => cs
  (Reading.lines? ⟨[], []⟩ cs (cs.length + 1)).map Reading.root

end DocQuery.Toml
