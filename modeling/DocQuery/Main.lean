import DocQuery.Command.Run

/-!
# The command line

Reads what a run asks for, runs it and prints the outcome.
-/

namespace DocQuery.Command

/-- All bytes of a stream, behind those read so far. -/
partial def readAll (stream : IO.FS.Stream) (bytes : ByteArray) : IO ByteArray := do
  let more ← stream.read 65536
  if more.isEmpty then return bytes else readAll stream (bytes ++ more)

/-- Looks up a name in the file system. -/
def look (name : String) : IO Found := do
  try
    return .file (← IO.FS.readBinFile name).toList
  catch
    | .inappropriateType .. => return .directory
    | _ => return .nothing

/-- Reads what a request needs. -/
def Request.surroundings (r : Request) : IO Surroundings := do
  let names := r.settingsFile.toList ++ r.document?.toList
  let known ← names.mapM fun name => return (name, ← look name)
  let homeSettings ←
    match ← IO.getEnv "HOME" with
    | some home => look (home ++ "/" ++ Settings.homeFile)
    | none => pure .nothing
  let stream ← IO.getStdin
  let input ←
    if r.document?.isSome then pure none
    else if ← stream.isTty then pure none
    else some <$> readAll stream .empty
  return {
    files := fun name => (known.lookup name).getD .nothing
    homeSettings
    input := input.map ByteArray.toList }

end DocQuery.Command

open DocQuery.Command

def main (arguments : List String) : IO UInt32 := do
  let outcome ←
    match Request.read arguments with
    | .ok request => run arguments <$> request.surroundings
    | .error _ => pure (run arguments ⟨fun _ => .nothing, .nothing, none⟩)
  (← IO.getStdout).putStr outcome.output
  match outcome with
  | .failed f => IO.eprintln ("Error: " ++ f.message)
  | .misused => IO.eprintln "usage: treeq [options] [QUERY] [FILE]"
  | .printed _ => pure ()
  return outcome.exitCode
