import AlertAudit.Yaml.Scalar.Block
import AlertAudit.Yaml.Scalar.Plain
import AlertAudit.Yaml.Scalar.Quoted
import AlertAudit.Yaml.Token
import AlertAudit.Yaml.Token.Tag

/-!
YAML texts as tokens. The scan keeps the columns of the open block collections, closes those that
are deeper than the next token, and remembers in each nesting of brackets the last place where a
key could have begun: only a colon on the same line, at most 1024 characters on, makes it one.
Every step takes at least one character.
-/

set_option autoImplicit false

namespace AlertAudit.Yaml

/-- A place where a key of a mapping may have begun. -/
structure KeyPlace where
  /-- The number of tokens in front of it. -/
  index : Nat
  line : Nat
  column : Nat
  /-- The number of characters that follow. -/
  remaining : Nat
  /-- Nothing but a key can begin there. -/
  required : Bool
  deriving DecidableEq, Repr, Inhabited

namespace KeyPlace

/-- The most characters that a key takes. -/
def maxLength : Nat := 1024

/-- A colon that stands here comes too late. -/
def isStale (k : KeyPlace) (here : Cursor) : Bool :=
  k.line < here.line || here.rest.length + maxLength < k.remaining

end KeyPlace

/-- A scan of a text up to some place. -/
structure Scan where
  here : Cursor
  /-- The tokens found, the last one first. -/
  found : List Token := []
  /-- The columns of the open block collections, the innermost first. -/
  levels : List Nat := []
  /-- The place of a possible key in the innermost nesting. -/
  keyPlace : Option KeyPlace := none
  /-- The places of possible keys around each open bracket, the innermost first. -/
  outerKeys : List (Option KeyPlace) := []
  /-- A key may begin here. -/
  keyAllowed : Bool := true
  deriving Repr, Inhabited

namespace Scan

def inFlow (s : Scan) : Bool := !s.outerKeys.isEmpty

/-- The least column of content in the innermost block collection. -/
def margin (s : Scan) : Nat :=
  match s.levels with
  | [] => 0
  | level :: _ => level + 1

def push (t : Token) (s : Scan) : Scan := { s with found := t :: s.found }

def insert (index : Nat) (t : Token) (s : Scan) : Scan :=
  let later := s.found.length - index
  { s with found := s.found.take later ++ t :: s.found.drop later }

def skip (n : Nat) (s : Scan) : Scan := { s with here := s.here.skip n }

/-- Past white space, comments and line breaks. Behind a line break a key may begin. -/
def skipSpace (s : Scan) : Scan :=
  go s.here.rest s.here.line s.here.column s.keyAllowed false
where
  /-- `comment` tells whether a comment has begun on this line. -/
  go : List Char → Nat → Nat → Bool → Bool → Scan
    | [], line, column, allowed, _ => { s with here := ⟨[], line, column⟩, keyAllowed := allowed }
    | c :: cs, line, column, allowed, comment =>
      if isBreak c then go cs (line + 1) 0 (allowed || !s.inFlow) false
      else if comment then go cs line (column + 1) allowed true
      else if c = '#' then go cs line (column + 1) allowed true
      else if c = ' ' || (c = '\t' && (s.inFlow || !allowed)) || (column = 0 && c = byteOrderMark)
      then go cs line (column + 1) allowed false
      else { s with here := ⟨c :: cs, line, column⟩, keyAllowed := allowed }

/-- Gives up the place of a possible key; nothing else may stand at a required one. -/
def dropKey (s : Scan) : Option Scan :=
  match s.keyPlace with
  | none => some s
  | some k => if k.required then none else some { s with keyPlace := none }

/-- Gives up the places of possible keys that a colon here comes too late for. -/
def dropStale (s : Scan) : Option Scan :=
  let isStale (k : Option KeyPlace) : Bool := k.any (·.isStale s.here)
  let places := s.keyPlace :: s.outerKeys
  if places.any fun k ↦ isStale k && k.any (·.required) then none
  else
    let keep (k : Option KeyPlace) : Option KeyPlace := if isStale k then none else k
    some { s with keyPlace := keep s.keyPlace, outerKeys := s.outerKeys.map keep }

/-- Notes that a key may begin here. -/
def markKey (s : Scan) : Option Scan :=
  if s.keyAllowed then
    s.dropKey.map fun s ↦ { s with
      keyPlace := some {
        index := s.found.length
        line := s.here.line
        column := s.here.column
        remaining := s.here.rest.length
        required := !s.inFlow && s.levels.head? == some s.here.column } }
  else some s

/-- Closes the block collections that begin right of a column; `none` closes them all. -/
def closeTo (column : Option Nat) (s : Scan) : Scan :=
  if s.inFlow then s
  else
    let open_ := s.levels.takeWhile fun level ↦ column.all (· < level)
    { s with
      levels := s.levels.drop open_.length
      found := open_.map (fun _ ↦ .blockEnd) ++ s.found }

/-- Opens a block collection at a column if none is open there, with its token at `index`. -/
def openAt (column index : Nat) (t : Token) (s : Scan) : Scan :=
  if s.inFlow || s.levels.head?.any (column ≤ ·) then s
  else { s with levels := column :: s.levels }.insert index t

/-- Opens a block collection at this place; outside of brackets only where a key may begin. -/
def openHere (t : Token) (s : Scan) : Option Scan :=
  if s.inFlow then some s
  else if s.keyAllowed then some (s.openAt s.here.column s.found.length t)
  else none

/-- A token of punctuation that takes one character. -/
def punctuation (t : Token) (keyAllowed : Bool) (s : Scan) : Scan :=
  { (s.push t).skip 1 with keyAllowed }

def openBracket (t : Token) (s : Scan) : Option Scan :=
  s.markKey.map fun s ↦
    { s with outerKeys := s.keyPlace :: s.outerKeys, keyPlace := none }.punctuation t true

def closeBracket (t : Token) (s : Scan) : Option Scan :=
  s.dropKey.map fun s ↦
    let s := match s.outerKeys with
      | [] => s
      | outer :: outers => { s with keyPlace := outer, outerKeys := outers }
    s.punctuation t false

def blockEntry (s : Scan) : Option Scan := do
  let s ← s.openHere .blockSequenceStart
  return (← s.dropKey).punctuation .blockEntry true

def explicitKey (s : Scan) : Option Scan := do
  let s ← s.openHere .blockMappingStart
  let s ← s.dropKey
  return s.punctuation .key (!s.inFlow)

/-- A colon before a value. -/
def value (s : Scan) : Option Scan :=
  match s.keyPlace with
  | some k =>
    let s := (s.insert k.index .key).openAt k.column k.index .blockMappingStart
    some ({ s with keyPlace := none }.punctuation .value false)
  | none => do
    let s ← s.openHere .blockMappingStart
    return s.punctuation .value (!s.inFlow)

/-- An anchor or an alias: a mark and a name. -/
def reference (make : String → Token) (s : Scan) : Option Scan := do
  let s ← s.markKey
  let name := (s.here.rest.drop 1).takeWhile isNameChar
  let next := s.here.skip (name.length + 1)
  let ended := atSeparator next.rest ||
    next.rest.head?.any (['?', ':', ',', ']', '}', '%', '@', '`'].contains ·)
  if name.isEmpty || !ended then none
  else return { s.push (make (String.ofList name)) with here := next, keyAllowed := false }

def tag (s : Scan) : Option Scan := do
  let s ← s.markKey
  let (handle, suffix, rest) ← Tag.read? s.here.rest
  let next := s.here.skip (s.here.rest.length - rest.length)
  if atSeparator rest || (s.inFlow && rest.head? == some ',') then
    return { s.push (.tag handle suffix) with here := next, keyAllowed := false }
  else none

def quoted (quote : Quote) (s : Scan) : Option Scan := do
  let s ← s.markKey
  let (text, next) ← Quoted.read quote s.here
  return { s.push (.scalar false (String.ofList text)) with here := next, keyAllowed := false }

def block (folded : Bool) (s : Scan) : Option Scan := do
  let s ← s.dropKey
  let (text, next) ← Block.read folded (s.levels.headD 0) s.margin s.here
  return { s.push (.scalar false (String.ofList text)) with here := next, keyAllowed := true }

def plain (s : Scan) : Option Scan := do
  let s ← s.markKey
  let (text, broken, next) ← Plain.read s.inFlow s.margin s.here
  return { s.push (.scalar true (String.ofList text)) with here := next, keyAllowed := broken }

/-- The token of a directive whose name has been read, and where it ends. -/
def directiveBody? (name : List Char) (here : Cursor) : Option (Token × Cursor) := do
  let here := here.skipWhile isGap
  if name = ['Y', 'A', 'M', 'L'] then
    let next := here.skipWhile Char.isDigit
    let major := here.rest.takeWhile Char.isDigit
    let minor := (next.rest.drop 1).takeWhile Char.isDigit
    if next.rest.head? == some '.' && major == ['1'] && (minor == ['1'] || minor == ['2']) then
      return (.version, next.skip (1 + minor.length))
    else none
  else if name = ['T', 'A', 'G'] then
    let (handle, rest) ← Tag.handle? here.rest
    let next := here.skip (here.rest.length - rest.length)
    let start := next.skipWhile isGap
    let (meaning, rest) ← Tag.suffix? true start.rest.length start.rest
    if (handle.length = 1 || handle.getLast? == some '!') && rest.length < start.rest.length
        && next.rest.length ≠ start.rest.length then
      return (.tagHandle (String.ofList handle) (String.ofList meaning),
        start.skip (start.rest.length - rest.length))
    else none
  else none

/-- A directive, which takes the rest of its line. -/
def directive (s : Scan) : Option Scan := do
  let s ← (s.closeTo none).dropKey
  let here := s.here.skip 1
  let name := here.rest.takeWhile isNameChar
  let (t, stop) ← directiveBody? name (here.skip name.length)
  let comment := stop.skipWhile isGap
  let next := if comment.rest.head? == some '#' then comment.skipWhile (!isBreak ·) else comment
  if atLineEnd next.rest then
    return { s.push t with here := next.endLine, keyAllowed := false }
  else none

/-- A mark between documents. -/
def documentMarker (t : Token) (s : Scan) : Option Scan := do
  let s ← (s.closeTo none).dropKey
  return { (s.push t).skip 3 with keyAllowed := false }

/-- A character that no plain scalar begins with. -/
def isIndicator (c : Char) : Bool :=
  isSeparator c || ['-', '?', ':', ',', '[', ']', '{', '}', '#', '&', '*', '!', '|', '>', '\'', '"',
    '%', '@',
    '`'].contains c

/-- Reads the token at `c`, which stands before `cs`. -/
def token (c : Char) (cs : List Char) (s : Scan) : Option Scan :=
  if s.here.column = 0 && c = '%' then s.directive
  else if s.here.atMarker '-' then s.documentMarker .documentStart
  else if s.here.atMarker '.' then s.documentMarker .documentEnd
  else if c = '[' then s.openBracket .flowSequenceStart
  else if c = '{' then s.openBracket .flowMappingStart
  else if c = ']' then s.closeBracket .flowSequenceEnd
  else if c = '}' then s.closeBracket .flowMappingEnd
  else if c = ',' then s.dropKey.map (·.punctuation .flowEntry true)
  else if c = '-' && atSeparator cs then s.blockEntry
  else if c = '?' && (s.inFlow || atSeparator cs) then s.explicitKey
  else if c = ':' && (s.inFlow || atSeparator cs) then s.value
  else if c = '*' then s.reference .alias
  else if c = '&' then s.reference .anchor
  else if c = '!' then s.tag
  else if c = '|' && !s.inFlow then s.block false
  else if c = '>' && !s.inFlow then s.block true
  else if c = '\'' then s.quoted .single
  else if c = '"' then s.quoted .double
  else if !isIndicator c || c = '-' || (!s.inFlow && (c = '?' || c = ':')) then s.plain
  else none

/-- Reads all tokens. -/
def run (s : Scan) : Option (List Token) :=
  match s.skipSpace.dropStale with
  | none => none
  | some t =>
    match t.here.rest with
    | [] => ((t.closeTo none).dropKey).map (·.found.reverse)
    | c :: cs =>
      match (t.closeTo (some t.here.column)).token c cs with
      | none => none
      | some next =>
        if next.here.rest.length < s.here.rest.length then next.run else none
termination_by s.here.rest.length

end Scan

/-- The tokens of a YAML text; there are none if the text has a character that YAML does not allow
or a place where no token can begin. -/
def Token.ofText? (text : String) : Option (List Token) :=
  let cs := unifyBreaks text.toList
  let cs := if cs.head? == some byteOrderMark then cs.drop 1 else cs
  if cs.all isAllowed then Scan.run { here := ⟨cs, 0, 0⟩ } else none

end AlertAudit.Yaml
