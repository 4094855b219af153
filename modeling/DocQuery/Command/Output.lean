import DocQuery.Json.Writer
import DocQuery.Settings
import DocQuery.Tree.Text
import DocQuery.Walk.Match
import DocQuery.Yaml.Writer

/-!
# Printed matches
-/

namespace DocQuery

/-- Matches as one document. -/
def Match.listing (found : List Match) : Tree :=
  .array (found.map fun m => .object [("path", .string m.path.text), ("value", m.node)])

/-- A match on a line of its own, which its text may break. -/
def Match.line (showValues : Bool) (m : Match) : String :=
  if showValues then m.path.text ++ ": " ++ m.node.text ++ "\n" else m.path.text ++ "\n"

/-- The text that is printed for matches. Only `paths` can leave out what was matched. -/
def OutputFormat.print (format : OutputFormat) (showValues : Bool) (found : List Match) : String :=
  match format with
  | .paths => String.join (found.map (Match.line showValues))
  | .json => Json.pretty (Match.listing found) ++ "\n"
  | .yaml => Yaml.write (Match.listing found)

end DocQuery
