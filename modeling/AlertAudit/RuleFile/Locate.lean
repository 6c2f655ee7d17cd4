import AlertAudit.RuleFile.LineRange
import AlertAudit.Text.Blank
import AlertAudit.Text.Lines

/-!
Where rules stand in a rule file. Only the indentation of lines, list dashes and the keys at the
start of lines are looked at. A list item with a key `alert` or `record` is a rule; what is inside
of one, and the lines of a block scalar, hold no further rules. The lines of a key's value reach to
the last line that is indented deeper than the key.
-/

set_option autoImplicit false

namespace AlertAudit.Locate

open AlertAudit.Text

/-- Where a key and its value stand. -/
structure KeySpan where
  name : String
  line : Nat
  /-- The column of the key. -/
  column : Nat
  value : LineRange
  /-- The value begins on the line of the key. -/
  isInline : Bool
  deriving DecidableEq, Repr, Inhabited

def KeySpan.lines (k : KeySpan) : LineRange := (LineRange.single k.line).cover k.value

/-- Where a rule stands, and its keys. -/
structure RuleSpan where
  lines : LineRange
  keys : List KeySpan
  deriving DecidableEq, Repr, Inhabited

def RuleSpan.key? (r : RuleSpan) (name : String) : Option KeySpan := r.keys.find? (·.name = name)

def isSpace (c : Char) : Bool := c = ' '

def indentOf (cs : List Char) : Nat := (cs.takeWhile isSpace).length

def isComment (cs : List Char) : Bool := (trimStart cs).head? = some '#'

/-- The column of a line that holds something besides a comment. -/
def contentColumn? (cs : List Char) : Option Nat :=
  if isBlankText cs || isComment cs then none else some (indentOf cs)

/-- The decoded text up to a closing single quote, and what follows. -/
def singleQuoted? : List Char → Option (List Char × List Char)
  | [] => none
  | '\'' :: '\'' :: cs => (singleQuoted? cs).map fun (name, rest) ↦ ('\'' :: name, rest)
  | c :: cs =>
    if c = '\'' then some ([], cs)
    else (singleQuoted? cs).map fun (name, rest) ↦ (c :: name, rest)

/-- The decoded text up to a closing double quote, and what follows. A backslash before `n` or `t`
is a control character, and otherwise stands for the next character. -/
def doubleQuoted? : List Char → Option (List Char × List Char)
  | [] => none
  | '\\' :: c :: cs =>
    let decoded := if c = 'n' then '\n' else if c = 't' then '\t' else c
    (doubleQuoted? cs).map fun (name, rest) ↦ (decoded :: name, rest)
  | c :: cs =>
    if c = '"' then some ([], cs)
    else (doubleQuoted? cs).map fun (name, rest) ↦ (c :: name, rest)

/-- The text in front of the first colon that ends a word, and what follows from there. -/
def plainKey? : List Char → Option (List Char × List Char)
  | [] => none
  | c :: cs =>
    if c = ':' && cs.head?.all (fun d ↦ d = ' ' || d = '\t') then some ([], c :: cs)
    else (plainKey? cs).map fun (name, rest) ↦ (c :: name, rest)

/-- The characters that no key begins with. -/
def startsNoKey (c : Char) : Bool := ['-', '#', '{', '[', '|', '>'].contains c

/-- Splits a line into a key and what follows its colon. -/
def splitKey? : List Char → Option (String × List Char)
  | [] => none
  | c :: cs => do
    let (name, rest) ←
      if c = '\'' then singleQuoted? cs
      else if c = '"' then doubleQuoted? cs
      else if startsNoKey c then none
      else (plainKey? (c :: cs)).map fun (name, rest) ↦ (trimEnd name, rest)
    match rest.dropWhile isSpace with
    | ':' :: after =>
      if after.head?.all fun d ↦ d = ' ' || d = '\t' then return (String.ofList name, after)
      else none
    | _ => none

/-- What follows the colon of a key begins a block scalar. -/
def startsBlockScalar (after : List Char) : Bool :=
  match (trimStart after).head? with
  | some c => c = '|' || c = '>'
  | none => false

/-- Nothing, or only a comment, follows the colon of a key. -/
def startsNested (after : List Char) : Bool := (trimStart after).head?.all (· = '#')

/-- The last of the lines at the front that are indented deeper than `column`. Blank lines do not
end such a block, and neither do comments. -/
def blockEnd? (column : Nat) : List Line → Option Nat
  | [] => none
  | l :: rest =>
    if isBlankText l.text then blockEnd? column rest
    else if indentOf l.text ≤ column then
      if isComment l.text then blockEnd? column rest else none
    else some ((blockEnd? column rest).getD l.number)

/-- The first line up to `last` that is not blank, with the lines behind it. -/
def contentLine? (last : Nat) : List Line → Option (Line × List Line)
  | [] => none
  | l :: rest =>
    if last < l.number then none
    else if isBlankText l.text then contentLine? last rest
    else some (l, rest)

/-- The key at a column of a line; `rest` are the lines below. -/
def keySpan? (l : Line) (column : Nat) (rest : List Line) : Option KeySpan := do
  let (name, after) ← splitKey? (l.text.drop column)
  let last := blockEnd? column rest
  let isInline := !(startsNested after || startsBlockScalar after)
  let value :=
    if isInline then ⟨l.number, last.getD l.number⟩
    else
      match last.bind fun last ↦
        (contentLine? last rest).map fun (first, _) ↦ (first.number, last) with
      | some (first, last) => ⟨first, last⟩
      | none => LineRange.single l.number
  return { name, line := l.number, column, value, isInline }

/-- The keys that stand at a column of the lines up to `last`. -/
def keysBelow (column last : Nat) : List Line → List KeySpan
  | [] => []
  | l :: rest =>
    if last < l.number then []
    else if contentColumn? l.text = some column then
      (keySpan? l column rest).toList ++ keysBelow column last rest
    else keysBelow column last rest

/-- The key at a column of a line, and the keys at that column of the lines below up to `last`. -/
def keysFrom (l : Line) (column last : Nat) (rest : List Line) : List KeySpan :=
  (keySpan? l column rest).toList ++ keysBelow column last rest

/-- Takes quotes off both ends. -/
def stripQuotes (cs : List Char) : List Char :=
  let isQuote (c : Char) : Bool := c = '\'' || c = '"'
  ((cs.dropWhile isQuote).reverse.dropWhile isQuote).reverse

/-- The name in one part of a flow mapping. -/
def flowName? (part : List Char) : Option String :=
  if part.contains ':' then
    let name := stripQuotes (trim (part.takeWhile (· ≠ ':')))
    if name.isEmpty then none else some (String.ofList name)
  else none

/-- The keys of a flow mapping that stands on one line. -/
def flowKeys (content : List Char) (lines : LineRange) : List KeySpan :=
  let parts := (content.dropWhile (· = '{')).splitOn ','
  (parts.filterMap flowName?).map fun name ↦
    { name, line := lines.first, column := 0, value := lines, isInline := true }

/-- The keys of the list item whose dash stands at a column of a line. -/
def itemKeys (l : Line) (dash : Nat) (lines : LineRange) (rest : List Line) : List KeySpan :=
  let after := l.text.drop (dash + 1)
  let content := after.dropWhile isSpace
  if content.head?.all (· = '#') then
    match contentLine? lines.last rest with
    | some (first, below) => keysFrom first (indentOf first.text) lines.last below
    | none => []
  else if content.head? = some '{' then flowKeys content lines
  else keysFrom l (dash + 1 + indentOf after) lines.last rest

/-- The rule in the list item whose dash stands at a column of a line. -/
def ruleSpan? (l : Line) (dash : Nat) (rest : List Line) : Option RuleSpan :=
  let lines : LineRange := ⟨l.number, (blockEnd? dash rest).getD l.number⟩
  let keys := itemKeys l dash lines rest
  if keys.any fun k ↦ k.name = "alert" || k.name = "record" then some ⟨lines, keys⟩ else none

/-- A dash that begins a list item. -/
def startsItem (cs : List Char) : Bool := cs.head? = some '-' && cs.tail.head?.all isSpace

/-- The line begins with a key whose value is a block scalar. -/
def opensBlockScalar (cs : List Char) : Bool :=
  (splitKey? cs).any fun (_, after) ↦ startsBlockScalar after

def linesAfter (last : Nat) (ls : List Line) : List Line := ls.dropWhile (·.number ≤ last)

theorem length_linesAfter (last : Nat) (ls : List Line) :
    (linesAfter last ls).length ≤ ls.length :=
  (List.dropWhile_sublist _).length_le

/-- The rules in some lines, in their order. -/
def rules : List Line → List RuleSpan
  | [] => []
  | l :: rest =>
    let column := indentOf l.text
    let content := l.text.drop column
    if startsItem content then
      match ruleSpan? l column rest with
      | some r => r :: rules (linesAfter r.lines.last rest)
      | none => rules rest
    else if opensBlockScalar content then
      rules (linesAfter ((blockEnd? column rest).getD l.number) rest)
    else rules rest
termination_by ls => ls.length
decreasing_by
  all_goals
    simp only [List.length_cons]
    have := length_linesAfter
    grind

/-- The keys of the mapping that is the value of a key, given all lines of the text. -/
def children (ls : List Line) (parent : KeySpan) : List KeySpan :=
  if parent.isInline || parent.value.first = parent.line then []
  else
    match linesAfter (parent.value.first - 1) ls with
    | l :: rest => keysFrom l (indentOf l.text) parent.value.last rest
    | [] => []

end AlertAudit.Locate
