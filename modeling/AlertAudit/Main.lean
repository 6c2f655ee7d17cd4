import AlertAudit.Command.Run

/-!
The program: reads the files and directories that its arguments name and the standard input if they
name it, writes the outcome and ends with its code.
-/

set_option autoImplicit false

open AlertAudit.Command

namespace AlertAudit.Main

/-- Reads the tree at a path. Of files below a directory only the rule files are read. -/
partial def readTree (isNamed : Bool) (path : String) : IO FileTree := do
  let place := (← IO.currentDir) / path
  if ← place.isDir then
    let entries ← place.readDir
    return .directory (← entries.toList.mapM fun e ↦
      return (e.fileName, ← readTree false (joinPath path e.fileName)))
  else if isNamed || isRuleFile path then return .file (← IO.FS.readFile path)
  else return .file ""

/-- The reason that a failed access gives. -/
def accessError : IO.Error → AccessError
  | .noFileOrDirectory .. => .missing
  | .inappropriateType .. => .notDirectory
  | e => .other (toString e)

/-- What is found under a path. -/
def access (path : String) : IO (Except AccessError FileTree) := do
  try
    return .ok (← readTree true path)
  catch e =>
    return .error (accessError e)

/-- Reads the rest of a stream. -/
partial def readAll (stream : IO.FS.Stream) (before : String) : IO String := do
  let line ← stream.getLine
  if line.isEmpty then return before else readAll stream (before ++ line)

/-- The paths that the arguments name. -/
def pathsOf (words : List String) : List String :=
  match Invocation.ofWords words with
  | .ok ⟨_, .lint paths _ _ _⟩ => paths
  | _ => []

end AlertAudit.Main

/-- Runs the program with its arguments. -/
def main (words : List String) : IO UInt32 := do
  let paths := AlertAudit.Main.pathsOf words
  let input ← if paths.contains "-" then AlertAudit.Main.readAll (← IO.getStdin) "" else pure ""
  let found ← (paths.filter (· ≠ "-")).mapM fun path ↦
    return (path, ← AlertAudit.Main.access path)
  let find (path : String) := (found.lookup path).getD (.error .missing)
  let output ← IO.getStdout
  let outcome := run ⟨find, input⟩ (← output.isTty) words
  output.putStr outcome.output
  IO.eprint outcome.errors
  return outcome.code.toUInt32
