import DocQuery.Yaml.Lexer
import DocQuery.Yaml.Node
import DocQuery.Yaml.Scalar.Resolution

/-!
# Reading YAML

A text holds one document or none. Its node becomes a value: aliases are replaced by the nodes that
they stand for, plain scalars by what they mean, and a mapping must not repeat a key. Nesting is
limited, which also ends an alias inside the node that it stands for, and so is the number of
aliases that are followed.
-/

namespace DocQuery.Yaml

/-! ## The node of a text -/

namespace Grouping

/-- The handles that need no directive. -/
def defaultHandles : List (String × String) :=
  [("!", "!"), ("!!", "tag:yaml.org,2002:")]

/-- The directives in front of a document: one version at most, which is 1.1 or 1.2, and each handle
once. -/
def directives (seenVersion : Bool) (handles : List (String × String)) : Nat →
    Grouping (List (String × String))
  | 0 => failure
  | budget + 1 => do
    match ← peek with
    | .version major minor =>
      advance
      if seenVersion || major ≠ 1 || (minor ≠ 1 && minor ≠ 2) then failure
      else directives true handles budget
    | .handle name start =>
      advance
      if (handles.lookup name).isSome then failure
      else directives seenVersion ((name, start) :: handles) budget
    | _ => return handles

def skipDocumentEnds : Nat → Grouping Unit
  | 0 => failure
  | budget + 1 => do
    if ← accept .documentEnd then skipDocumentEnds budget

/-- The start of a document is a mark or a directive, or else its content. -/
def startsExplicitly : Token → Bool
  | .version _ _ | .handle _ _ | .documentStart => true
  | _ => false

/-- The root of the only document, or an empty node where there is none. -/
def document (budget : Nat) : Grouping Node := do
  let first ← peek
  if first = .streamEnd then return .empty
  else
    let root ←
      if startsExplicitly first then
        let handles ← directives false [] budget
        expect .documentStart
        modify fun s => { s with handles := handles ++ defaultHandles }
        let next ← peek
        if startsExplicitly next || next = .documentEnd || next = .streamEnd then pure .empty
        else node budget true false
      else
        modify fun s => { s with handles := defaultHandles }
        node budget true false
    skipDocumentEnds budget
    expect .streamEnd
    return root

end Grouping

/-- The root node of a text. -/
def Node.ofText? (text : List Char) : Option Node := do
  let tokens ← Token.ofText? text
  let (root, _) ← (Grouping.document (4 * tokens.length + 8)).run { tokens }
  return root

/-! ## The value of a node -/

namespace Value

/-- What a node needs to know of the text that it is in. -/
structure Context where
  anchored : List (Nat × Node)
  /-- How many aliases may be followed. -/
  limit : Nat

/-- Counts the aliases that were followed. -/
abbrev Following := StateT Nat Option

/-- The node that an alias stands for: the last one to start under its number. -/
def follow (context : Context) (anchor : Nat) : Following Node := do
  modify (· + 1)
  if context.limit < (← get) then failure
  else
    match context.anchored.reverse.lookup anchor with
    | some target => return target
    | none => failure

/-- The part of a tag that names an application's own type, none for other tags. -/
def localTag? (tag : Option String) : Option String :=
  match tag.map String.toList with
  | some ['!'] => some "!"
  | some ('!' :: name) => some (String.ofList name)
  | _ => none

def withTag (tag : Option String) (value : Value) : Value :=
  match localTag? tag with
  | some name => .tagged name value
  | none => value

/-- The value of a scalar. A tag of the core schema decides its kind, any other tag leaves it to the
look of a plain scalar. -/
def ofScalar? (tag : Option String) (text : String) (plain : Bool) : Option Value :=
  match tag, localTag? tag with
  | some core, none => ofCore? core text
  | _, _ => (if plain then ofPlain? text else some (.string text)).map (withTag tag)

/-- The value of a node inside of which containers may be nested `depth` deep. -/
def ofNode (context : Context) (depth : Nat) (node : Node) : Following Value := do
  let node ← match node with
    | .alias anchor => follow context anchor
    | node => pure node
  match node, depth with
  | .scalar _ tag text plain, _ => ofScalar? tag text plain
  | .sequence _ tag items, depth + 1 =>
    return withTag tag (.sequence (← items.mapM (ofNode context depth)))
  | .mapping _ tag entries, depth + 1 =>
    let read ← entries.foldlM (fun read entry => do
      let key ← ofNode context depth entry.1
      if read.any fun other => same other.1 key then failure
      else return (key, ← ofNode context depth entry.2) :: read) []
    return withTag tag (.mapping read.reverse)
  | _, _ => failure

/-- How deep containers may be nested. -/
def maxDepth : Nat :=
  128

/-- The value of a YAML text. -/
def ofText? (text : String) : Option Value := do
  let root ← Node.ofText? text.toList
  let context : Context := ⟨root.anchored, 100 * root.weight⟩
  let (value, _) ← (ofNode context maxDepth root).run 0
  return value

end Value

end DocQuery.Yaml
