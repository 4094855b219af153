import DocQuery.Entries

/-!
# TOML values

Tables remember how they came to be, which decides whether a later line may still add to them.
-/

namespace DocQuery.Toml

/-- How a table came to be. -/
inductive Origin where
  /-- Written between braces. -/
  | inline
  /-- Named by a header of its own. -/
  | header
  /-- On the way to a table that a header names. -/
  | implied
  /-- On the way to a value under a dotted key. -/
  | dotted
  deriving DecidableEq

inductive Value where
  | string (text : String)
  | integer (value : Int)
  | float (value : Float)
  | bool (value : Bool)
  | dateTime
  | array (items : List Value)
  | table (origin : Origin) (entries : List (String × Value))
  /-- Tables that were each begun by a header in double brackets, in reverse. -/
  | tables (items : List (List (String × Value)))

namespace Value

abbrev Table := List (String × Value)

/-- The table with `value` under the dotted key `keys`. The value goes into a table that dotted keys
made, or right into the table that the key is written in: `mayHold` says whether this is one. On the
way may also be tables that no header named; of tables in an array the last one is meant. -/
def insertBelow? (value : Value) : List String → (mayHold : Bool) → Table → Option Table
  | [], _, _ => none
  | [key], mayHold, entries =>
    if mayHold && (entries.lookup key).isNone then some (entries ++ [(key, value)]) else none
  | key :: keys, _, entries =>
    match entries.lookup key with
    | none =>
      (insertBelow? value keys true []).map fun inner => entries ++ [(key, .table .dotted inner)]
    | some (.table .dotted inner) =>
      (insertBelow? value keys true inner).map fun inner =>
        Entries.put entries key (.table .dotted inner)
    | some (.table .implied inner) =>
      (insertBelow? value keys false inner).map fun inner =>
        Entries.put entries key (.table .implied inner)
    | some (.tables (last :: before)) =>
      (insertBelow? value keys false last).map fun last =>
        Entries.put entries key (.tables (last :: before))
    | some _ => none

/-- The table with `value` under a dotted key written in it. -/
def insert? (value : Value) (keys : List String) (entries : Table) : Option Table :=
  insertBelow? value keys true entries

/-- The table with the table that a header names changed by `change`. Tables on the way are made if
they are missing; of tables in an array the last one is meant. -/
def alter? (change : Option Value → Option Value) : List String → Table → Option Table
  | [], _ => none
  | [key], entries => (change (entries.lookup key)).map (Entries.put entries key)
  | key :: keys, entries =>
    match entries.lookup key with
    | none => (alter? change keys []).map fun inner => entries ++ [(key, .table .implied inner)]
    | some (.table .inline _) => none
    | some (.table origin inner) =>
      (alter? change keys inner).map fun inner => Entries.put entries key (.table origin inner)
    | some (.tables (last :: before)) =>
      (alter? change keys last).map fun last => Entries.put entries key (.tables (last :: before))
    | some _ => none

/-- What a header makes of what is there under its name. -/
def beginTable? : Option Value → Option Value
  | none => some (.table .header [])
  | some (.table .implied entries) => some (.table .header entries)
  | some _ => none

/-- What a header in double brackets makes of what is there under its name. -/
def beginTables? : Option Value → Option Value
  | none => some (.tables [[]])
  | some (.tables items) => some (.tables ([] :: items))
  | some _ => none

/-- Adds an entry to the table that the last header named. -/
def addEntry? (keys : List String) (value : Value) : Option Value → Option Value
  | some (.table .header entries) => (insert? value keys entries).map (.table .header)
  | some (.tables (last :: before)) =>
    (insert? value keys last).map fun last => .tables (last :: before)
  | _ => none

end Value

end DocQuery.Toml
