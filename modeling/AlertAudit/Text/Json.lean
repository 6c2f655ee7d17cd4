import AlertAudit.Text.Quoted

/-!
JSON documents in writing, on one line without spaces or on several lines with an indentation of
two spaces. Only what JSON requires is escaped.
-/

set_option autoImplicit false

namespace AlertAudit.Text

/-- A JSON value without fractions and truth values. -/
inductive Json where
  | number (n : Nat)
  | string (s : String)
  | array (items : List Json)
  | object (fields : List (String × Json))
  deriving Repr, Inhabited

namespace Json

/-- One character between the quotes of a JSON string. -/
def escape (c : Char) : List Char :=
  match c with
  | '"' => ['\\', '"']
  | '\\' => ['\\', '\\']
  | '\x08' => ['\\', 'b']
  | '\t' => ['\\', 't']
  | '\n' => ['\\', 'n']
  | '\x0c' => ['\\', 'f']
  | '\r' => ['\\', 'r']
  | c => if c.toNat < 0x20 then '\\' :: 'u' :: hexDigits 4 c.toNat else [c]

def ofString (s : String) : String := String.ofList ('"' :: s.toList.flatMap escape ++ ['"'])

mutual

/-- A value on one line. -/
def compact : Json → String
  | number n => toString n
  | string s => ofString s
  | array items => "[" ++ String.intercalate "," (compactItems items) ++ "]"
  | object fields => "\x7b" ++ String.intercalate "," (compactFields fields) ++ "\x7d"

/-- The items of an array, each on one line. -/
def compactItems : List Json → List String
  | [] => []
  | x :: xs => compact x :: compactItems xs

/-- The fields of an object, each on one line. -/
def compactFields : List (String × Json) → List String
  | [] => []
  | (name, x) :: rest => (ofString name ++ ":" ++ compact x) :: compactFields rest

end

/-- A line break with the indentation of a nesting depth. -/
def newLine (depth : Nat) : String := "\n" ++ String.ofList (List.replicate (2 * depth) ' ')

/-- Parts on a line each, between an opening and a closing bracket; nothing stands between the
brackets if there are no parts. -/
def bracket (opening closing : String) (depth : Nat) (parts : List String) : String :=
  if parts.isEmpty then opening ++ closing
  else
    opening ++ newLine (depth + 1) ++ String.intercalate ("," ++ newLine (depth + 1)) parts ++
      newLine depth ++ closing

mutual

/-- A value on several lines, at a nesting depth. -/
def pretty (depth : Nat) : Json → String
  | number n => toString n
  | string s => ofString s
  | array items => bracket "[" "]" depth (prettyItems (depth + 1) items)
  | object fields => bracket "\x7b" "\x7d" depth (prettyFields (depth + 1) fields)

/-- The items of an array, each on several lines. -/
def prettyItems (depth : Nat) : List Json → List String
  | [] => []
  | x :: xs => pretty depth x :: prettyItems depth xs

/-- The fields of an object, each on several lines. -/
def prettyFields (depth : Nat) : List (String × Json) → List String
  | [] => []
  | (name, x) :: rest => (ofString name ++ ": " ++ pretty depth x) :: prettyFields depth rest

end

end Json

end AlertAudit.Text
