import DocQuery.Yaml.Token

/-!
# YAML nodes

Tokens grouped into nodes: scalars, sequences, mappings and aliases. Tags are given in full. An
anchor is known by a number, and an alias has the number that its anchor had when it was written.
-/

namespace DocQuery.Yaml

inductive Node where
  | alias (anchor : Nat)
  | scalar (anchor : Option Nat) (tag : Option String) (text : String) (plain : Bool)
  | sequence (anchor : Option Nat) (tag : Option String) (items : List Node)
  | mapping (anchor : Option Nat) (tag : Option String) (entries : List (Node × Node))

namespace Node

/-- Stands where a node is left out. -/
def empty : Node :=
  .scalar none none "" true

mutual

/-- The nodes with an anchor, in the order in which they start. -/
def anchored : Node → List (Nat × Node)
  | .alias _ => []
  | .scalar anchor tag text plain => mark anchor (.scalar anchor tag text plain)
  | .sequence anchor tag items => mark anchor (.sequence anchor tag items) ++ anchoredItems items
  | .mapping anchor tag entries =>
    mark anchor (.mapping anchor tag entries) ++ anchoredEntries entries

def anchoredItems : List Node → List (Nat × Node)
  | [] => []
  | item :: items => anchored item ++ anchoredItems items

def anchoredEntries : List (Node × Node) → List (Nat × Node)
  | [] => []
  | (key, value) :: entries => anchored key ++ anchored value ++ anchoredEntries entries

def mark (anchor : Option Nat) (node : Node) : List (Nat × Node) :=
  (anchor.map (·, node)).toList

end

mutual

/-- How many scalars and aliases there are, a collection counting for two more. -/
def weight : Node → Nat
  | .sequence _ _ items => 2 + weightOfItems items
  | .mapping _ _ entries => 2 + weightOfEntries entries
  | _ => 1

def weightOfItems : List Node → Nat
  | [] => 0
  | item :: items => weight item + weightOfItems items

def weightOfEntries : List (Node × Node) → Nat
  | [] => 0
  | (key, value) :: entries => weight key + weight value + weightOfEntries entries

end

end Node

/-! ## Grouping tokens -/

/-- Tokens still to be grouped, with the anchors and tag handles that are known. -/
structure Source where
  tokens : List Token
  anchors : List (String × Nat) := []
  handles : List (String × String) := []

abbrev Grouping := StateT Source Option

namespace Grouping

/-- The next token, which stays. -/
def peek : Grouping Token := do
  return (← get).tokens.headD .streamEnd

def advance : Grouping Unit :=
  modify fun s => { s with tokens := s.tokens.drop 1 }

/-- Takes the next token if it is `t`. -/
def accept (t : Token) : Grouping Bool := do
  if (← peek) = t then
    advance
    return true
  else return false

def expect (t : Token) : Grouping Unit := do
  guard (← accept t)

def nextIsIn (ts : List Token) : Grouping Bool := do
  return ts.contains (← peek)

/-- The number of an anchor: how many names there were before. A name that is used again counts
once. -/
def declare (name : String) : Grouping Nat := do
  let known := (← get).anchors
  modify fun s => { s with anchors := (name, known.length) :: known.filter (·.1 ≠ name) }
  return known.length

def resolveAlias (name : String) : Grouping Nat := do
  (← get).anchors.lookup name

/-- The tag that a handle and a suffix stand for. -/
def resolveTag (handle suffix : String) : Grouping String := do
  if handle.isEmpty then return suffix
  else return (← (← get).handles.lookup handle) ++ suffix

/-- An anchor and a tag, in either order. -/
def properties : Grouping (Option Nat × Option String) := do
  match ← peek with
  | .anchor name =>
    advance
    let anchor ← declare name
    match ← peek with
    | .tag handle suffix =>
      advance
      return (some anchor, some (← resolveTag handle suffix))
    | _ => return (some anchor, none)
  | .tag handle suffix =>
    advance
    match ← peek with
    | .anchor name =>
      advance
      let anchor ← declare name
      return (some anchor, some (← resolveTag handle suffix))
    | _ => return (none, some (← resolveTag handle suffix))
  | _ => return (none, none)

mutual

/-- A node. In `block` context it may be a block collection; where `indentless`, a sequence may
start with its first entry. Every function here takes one step of `budget` and hands on the rest. -/
def node (budget : Nat) (block indentless : Bool) : Grouping Node := do
  match budget with
  | 0 => failure
  | budget + 1 =>
    match ← peek with
    | .alias name =>
      advance
      return .alias (← resolveAlias name)
    | _ =>
      let (anchor, tag) ← properties
      match ← peek with
      | .blockEntry =>
        if indentless then return .sequence anchor tag (← indentlessItems budget)
        else withoutContent anchor tag
      | .scalar text plain =>
        advance
        return .scalar anchor (tag.filter (· ≠ "!")) text plain
      | .flowSequence =>
        advance
        return .sequence anchor tag (← flowItems budget true)
      | .flowMapping =>
        advance
        return .mapping anchor tag (← flowEntries budget true)
      | .blockSequence =>
        if block then
          advance
          return .sequence anchor tag (← blockItems budget)
        else withoutContent anchor tag
      | .blockMapping =>
        if block then
          advance
          return .mapping anchor tag (← blockEntries budget)
        else withoutContent anchor tag
      | _ => withoutContent anchor tag

/-- A node of which only the anchor or the tag is there. -/
def withoutContent (anchor : Option Nat) (tag : Option String) : Grouping Node :=
  if anchor.isSome || tag.isSome then return .scalar anchor tag "" true else failure

/-- A node unless one of `ends` comes next. -/
def nodeUnless (budget : Nat) (ends : List Token) (block indentless : Bool) : Grouping Node := do
  match budget with
  | 0 => failure
  | budget + 1 => if ← nextIsIn ends then return .empty else node budget block indentless

def blockItems (budget : Nat) : Grouping (List Node) := do
  match budget with
  | 0 => failure
  | budget + 1 =>
    if ← accept .blockEnd then return []
    else
      expect .blockEntry
      let item ← nodeUnless budget [.blockEntry, .blockEnd] true false
      return item :: (← blockItems budget)

/-- The items of a sequence that is not indented below its key. -/
def indentlessItems (budget : Nat) : Grouping (List Node) := do
  match budget with
  | 0 => failure
  | budget + 1 =>
    if ← accept .blockEntry then
      let item ← nodeUnless budget [.blockEntry, .key, .value, .blockEnd] true false
      return item :: (← indentlessItems budget)
    else return []

def blockEntries (budget : Nat) : Grouping (List (Node × Node)) := do
  match budget with
  | 0 => failure
  | budget + 1 =>
    if ← accept .blockEnd then return []
    else
      expect .key
      let ends := [.key, .value, .blockEnd]
      let key ← nodeUnless budget ends true true
      let value ← if ← accept .value then nodeUnless budget ends true true else pure .empty
      return (key, value) :: (← blockEntries budget)

def flowItems (budget : Nat) (first : Bool) : Grouping (List Node) := do
  match budget with
  | 0 => failure
  | budget + 1 =>
    if ← accept .flowSequenceEnd then return []
    else
      if !first then expect .flowEntry
      if ← accept .flowSequenceEnd then return []
      else
        let item ← if ← accept .key then flowPair budget else node budget false false
        return item :: (← flowItems budget false)

/-- A mapping of one entry written as an item of a flow sequence. -/
def flowPair (budget : Nat) : Grouping Node := do
  match budget with
  | 0 => failure
  | budget + 1 =>
    let ends := [.flowEntry, .flowSequenceEnd]
    let key ←
      if ← nextIsIn (.value :: ends) then
        advance
        pure .empty
      else node budget false false
    let value ← if ← accept .value then nodeUnless budget ends false false else pure .empty
    return .mapping none none [(key, value)]

def flowEntries (budget : Nat) (first : Bool) : Grouping (List (Node × Node)) := do
  match budget with
  | 0 => failure
  | budget + 1 =>
    if ← accept .flowMappingEnd then return []
    else
      if !first then expect .flowEntry
      if ← accept .flowMappingEnd then return []
      else
        let ends := [.flowEntry, .flowMappingEnd]
        let entry ←
          if ← accept .key then
            let key ← nodeUnless budget (.value :: ends) false false
            let value ← if ← accept .value then nodeUnless budget ends false false else pure .empty
            pure (key, value)
          else
            let key ← node budget false false
            pure (key, .empty)
        return entry :: (← flowEntries budget false)

end

end Grouping

end DocQuery.Yaml
