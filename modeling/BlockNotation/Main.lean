import BlockNotation.Command.Run

/-!
# The program

Reads the files that a command line names, runs the program on them, and writes what it gives.
-/

namespace BlockNotation

/-- What an error of the operating system says about a path. -/
def fileError : IO.Error → FileError
  | .noFileOrDirectory .. => .notFound
  | .inappropriateType .. => .notDirectory
  | e => .other (toString e)

/-- The file or directory at a path, with all that is in it. -/
partial def loadEntry (path : String) : IO Entry := do
  try
    return .file (String.fromUTF8? (← IO.FS.readBinFile path))
  catch unreadable =>
    let place ← try IO.FS.realPath path catch _ => throw unreadable
    if !(← place.isDir) then throw unreadable
    let children ← place.readDir
    let entries ← children.toList.mapM fun child => do
      return (child.fileName, ← loadEntry (path ++ "/" ++ child.fileName))
    return .directory entries

/-- The files at some paths. -/
def loadFiles (paths : List String) : IO Files := do
  let loaded ← paths.mapM fun path => do
    let entry ← try .ok <$> loadEntry path catch e => pure (.error (fileError e))
    return (path, entry)
  return fun path => (loaded.lookup path).getD (.error .notFound)

/-- A notice as it is shown. -/
def Notice.text : Notice → String
  | .line text => text
  | .diagnostic d => d.text

end BlockNotation

open BlockNotation in
/-- Runs the program and gives its exit code. -/
def main (words : List String) : IO UInt32 := do
  let paths := match Request.ofArguments words with
    | .ok request => request.paths
    | .error _ => []
  let outcome := run (← loadFiles paths) words
  IO.print (textOfLines outcome.output)
  IO.eprint (textOfLines (outcome.notices.map Notice.text))
  return outcome.exitCode.toUInt32
