/-!
Trees of files. Rule files are those whose names end in `.yml` or `.yaml`; the ones below a
directory are found at any depth and come in the order of their paths, name by name.
-/

set_option autoImplicit false

namespace AlertAudit.Command

/-- A file, or a directory with its entries in any order. -/
inductive FileTree where
  | file (content : String)
  | directory (entries : List (String × FileTree))
  deriving Repr, Inhabited

def pathNames (path : String) : List String := (path.toList.splitOn '/').map String.ofList

/-- The last name of a path, if it is the name of a file and not a way to a directory. -/
def fileName? (path : String) : Option String :=
  ((pathNames path).filter fun name ↦ name ≠ "" && name ≠ ".").getLast?.filter (· ≠ "..")

/-- What stands behind the last dot of a name, unless the dot is the first character. -/
def extension? (name : String) : Option String :=
  let backwards := name.toList.reverse
  let ending := backwards.takeWhile (· ≠ '.')
  match backwards.drop ending.length with
  | _ :: _ :: _ => some (String.ofList ending.reverse)
  | _ => none

def isRuleFile (path : String) : Bool :=
  match (fileName? path).bind extension? with
  | some ending => ending = "yml" || ending = "yaml"
  | none => false

/-- A file that was found below a directory. -/
structure FoundFile where
  /-- The names of the directories on the way, and its own. -/
  names : List String
  content : String
  deriving DecidableEq, Repr

namespace FileTree

/-- What was found for each name, in the order of the names. -/
def inOrder (found : List (String × List FoundFile)) : List FoundFile :=
  (found.mergeSort fun a b ↦ a.1 ≤ b.1).flatMap (·.2)

mutual

/-- The rule files in a tree that has a name: those below a directory, or the file itself. -/
def ruleFilesAs (name : String) : FileTree → List FoundFile
  | .file content => if isRuleFile name then [⟨[name], content⟩] else []
  | .directory entries =>
    (inOrder (ruleFilesByName entries)).map fun f ↦ { f with names := name :: f.names }

/-- The rule files in each entry of a directory. -/
def ruleFilesByName : List (String × FileTree) → List (String × List FoundFile)
  | [] => []
  | (name, tree) :: rest => (name, ruleFilesAs name tree) :: ruleFilesByName rest

end

/-- The rule files below a directory with some entries. -/
def ruleFiles (entries : List (String × FileTree)) : List FoundFile :=
  inOrder (ruleFilesByName entries)

end FileTree

/-- Why nothing is found under a path. -/
inductive AccessError where
  | missing
  /-- The path goes on behind a file. -/
  | notDirectory
  | other (text : String)
  deriving DecidableEq, Repr

def AccessError.message : AccessError → String
  | missing => "No such file or directory (os error 2)"
  | notDirectory => "Not a directory (os error 20)"
  | other text => text

namespace FileTree

/-- Follows names from a tree, below the directories that enclose it. -/
def follow (enclosing : List FileTree) : FileTree → List String → Except AccessError FileTree
  | tree, [] => .ok tree
  | .file _, _ :: _ => .error .notDirectory
  | .directory entries, name :: rest =>
    if name = "" || name = "." then follow enclosing (.directory entries) rest
    else if name = ".." then
      match enclosing with
      | [] => .error .missing
      | outer :: enclosing => follow enclosing outer rest
    else
      match entries.lookup name with
      | none => .error .missing
      | some tree => follow (.directory entries :: enclosing) tree rest

/-- What is found under a path in a directory. Nothing is known of what is not below it. -/
def find (root : FileTree) (path : String) : Except AccessError FileTree :=
  if path.startsWith "/" then .error .missing else follow [] root (pathNames path)

end FileTree

end AlertAudit.Command
