import AlertAudit.Command.FileTree

/-!
The rule files that paths name. A dash is the standard input, a directory stands for all rule files
below it, of which there must be one, and any other file is taken whatever its name.
-/

set_option autoImplicit false

namespace AlertAudit.Command

/-- A rule file with the path that reports name. -/
structure SourceFile where
  path : String
  source : String
  deriving DecidableEq, Repr

/-- Why rule files cannot be loaded. -/
inductive LoadError where
  | unreadable (path : String) (reason : AccessError)
  | noRuleFiles (directory : String)
  deriving DecidableEq, Repr

def LoadError.message : LoadError → String
  | unreadable path reason => s!"failed to read '{path}': " ++ reason.message
  | noRuleFiles directory => s!"no .yml or .yaml files found in '{directory}'"

/-- What can be read. -/
structure Source where
  /-- What is found under a path. -/
  find : String → Except AccessError FileTree
  /-- The standard input. -/
  input : String := ""

def joinPath (directory name : String) : String :=
  if directory.endsWith "/" then directory ++ name else directory ++ "/" ++ name

/-- The rule files under a path. -/
def filesAt (path : String) : FileTree → Except LoadError (List SourceFile)
  | .file content => .ok [⟨path, content⟩]
  | .directory entries =>
    let found := FileTree.ruleFiles entries
    if found.isEmpty then .error (.noRuleFiles path)
    else .ok (found.map fun f ↦ ⟨joinPath path (String.intercalate "/" f.names), f.content⟩)

/-- The rule files that paths name. The standard input can be read once, and is empty then. -/
def load (s : Source) : List String → Except LoadError (List SourceFile)
  | [] => .ok []
  | path :: rest =>
    if path = "-" then do return ⟨"<stdin>", s.input⟩ :: (← load { s with input := "" } rest)
    else do
      let tree ← (s.find path).mapError (.unreadable path)
      let files ← filesAt path tree
      return files ++ (← load s rest)

end AlertAudit.Command
