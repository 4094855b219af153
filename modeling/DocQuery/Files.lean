import DocQuery.Path

/-!
# Files by name

All that is known of a file system is what a name leads to. `Directory` gives such knowledge by the
files that are in and below one directory, the one that names start from.
-/

namespace DocQuery

/-- What a name leads to. -/
inductive Found where
  | file (content : List UInt8)
  | directory
  | nothing
  deriving DecidableEq, Repr

abbrev Files := String → Found

/-- The text that bytes spell. -/
def textOfBytes? (bytes : List UInt8) : Option String :=
  String.fromUTF8? (ByteArray.mk bytes.toArray)

def Found.text? : Found → Option String
  | .file content => textOfBytes? content
  | _ => none

/-- Files by their names. -/
abbrev Directory := List (String × List UInt8)

namespace Directory

def pieces (name : String) : List String :=
  Segments.ofText '/' name

/-- Whether a piece of a name leads nowhere else. -/
def staysHere (piece : String) : Bool :=
  piece = "" || piece = "."

/-- The directories that a name passes through, and what it ends in. -/
def place (name : String) : List String :=
  (pieces name).filter fun piece => !staysHere piece

/-- What is at a place. -/
def look (d : Directory) (there : List String) : Found :=
  match d.find? (place ·.1 == there) with
  | some (_, content) => .file content
  | none =>
    if there.isEmpty || d.any fun (name, _) => there.isPrefixOf (place name) then .directory
    else .nothing

/-- The place that a piece of a name leads to from `here`, which has to be a directory. -/
def follow? (d : Directory) (here : List String) (piece : String) : Option (List String) :=
  match d.look here with
  | .directory =>
    if staysHere piece then some here
    else if piece = ".." then (if here.isEmpty then none else some here.dropLast)
    else some (here ++ [piece])
  | _ => none

/-- Follows a name that starts from the directory. -/
def find (d : Directory) : Files := fun name =>
  match name.toList with
  | [] | '/' :: _ => .nothing
  | _ =>
    match (pieces name).foldlM d.follow? [] with
    | some there => d.look there
    | none => .nothing

end Directory

end DocQuery
