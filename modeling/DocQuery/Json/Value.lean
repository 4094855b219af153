import DocQuery.Tree.Basic

/-!
# JSON values

What a JSON text says, before it is a document: whole numbers are not limited to 64 bits with a
sign, and an object lists its entries with each key once.
-/

namespace DocQuery.Json

inductive Value where
  | null
  | bool (value : Bool)
  | integer (value : Int)
  | float (value : Float)
  | string (text : String)
  | array (items : List Value)
  | object (entries : List (String × Value))

namespace Value

mutual

/-- The document that a value stands for. -/
def toTree : Value → Tree
  | .null => .null
  | .bool value => .bool value
  | .integer value => .number (.ofInt value)
  | .float value => .number (.float value)
  | .string text => .string text
  | .array items => .array (toTrees items)
  | .object entries => .object (toEntries entries)

def toTrees : List Value → List Tree
  | [] => []
  | item :: items => toTree item :: toTrees items

def toEntries : List (String × Value) → List (String × Tree)
  | [] => []
  | (key, value) :: entries => (key, toTree value) :: toEntries entries

end

end Value

end DocQuery.Json
