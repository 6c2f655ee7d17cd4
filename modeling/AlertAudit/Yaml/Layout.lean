import AlertAudit.Text.Blank
import AlertAudit.Text.Quoted
import AlertAudit.Yaml.Cursor
import AlertAudit.Yaml.Node

/-!
Values as block YAML. Collections are written one item or entry a line, two columns further in for
each level; a sequence that is the value of an entry begins in the column of its key. Strings stand
without quotes where they read back as themselves, and keep their lines where they have several.
-/

set_option autoImplicit false

namespace AlertAudit.Yaml

open AlertAudit.Text

inductive Style where
  | plain
  | single
  | double
  | literal
  deriving DecidableEq, Repr

namespace Style

/-- A string that reads as something else, or easily could. -/
def isAmbiguous (s : String) : Bool :=
  Scalar.isPaddedDigits s.toList ||
    match Scalar.plain? s with
    | some (.string _) => false
    | some _ => true
    | none => false

/-- A character that needs no escape. -/
def isShown (c : Char) : Bool :=
  let n := c.toNat
  n == 0x0A || (0x20 ≤ n && n ≤ 0x7E) || (0xA0 ≤ n && n ≤ 0xFFFD && n ≠ 0xFEFF) || 0x10000 ≤ n

def isBlankOrNone (c : Option Char) : Bool :=
  c.all fun c ↦ isSeparator c || c = '\r' || c = '\u0085'

/-- An indicator at the start of a string that keeps it from standing without quotes. -/
def startsWithIndicator : List Char → Bool
  | [] => false
  | c :: cs =>
    ['#', ',', '[', ']', '{', '}', '&', '*', '!', '|', '>', '\'', '"', '%', '@', '`'].contains c ||
      (['?', ':', '-'].contains c && isBlankOrNone cs.head?)

/-- An indicator behind the first character that keeps a string from standing without quotes. -/
def hasIndicator : List Char → Bool
  | c :: d :: cs =>
    (d = ':' && isBlankOrNone cs.head?) || (d = '#' && isBlankOrNone (some c)) ||
      hasIndicator (d :: cs)
  | _ => false

/-- Two neighbouring characters, the first of one class and the second of another. -/
def hasPair (p q : Char → Bool) : List Char → Bool
  | c :: d :: cs => (p c && q d) || hasPair p q (d :: cs)
  | _ => false

def isSpace (c : Char) : Bool := c = ' '

/-- A string that may stand without quotes. -/
def allowsPlain (cs : List Char) : Bool :=
  let mark := cs.take 3
  !(mark == ['-', '-', '-'] || mark == ['.', '.', '.']) && !startsWithIndicator cs &&
    !hasIndicator cs && cs.all (fun c ↦ isShown c && !isBreak c) && cs.head? != some ' ' &&
    cs.getLast? != some ' '

/-- A string that may stand in single quotes. -/
def allowsSingle (cs : List Char) : Bool :=
  cs.all isShown && !hasPair isSpace isBreak cs && !hasPair isBreak isSpace cs

/-- A string that may be written as a block of lines. -/
def allowsLiteral (cs : List Char) : Bool :=
  cs.all isShown && !hasPair isSpace isBreak cs && cs.getLast? != some ' '

/-- The way to write a string. -/
def ofString (s : String) : Style :=
  let cs := s.toList
  let quoted := if allowsSingle cs then single else double
  if cs.contains '\n' then if allowsLiteral cs then literal else double
  else if isAmbiguous s then quoted
  else if allowsPlain cs then plain
  else quoted

end Style

namespace Layout

def pad (indent : Nat) : List Char := List.replicate indent ' '

/-- A text of several lines with white space in front of those that are not empty. -/
def padLines (indent : Nat) (fresh : Bool) : List Char → List Char
  | [] => []
  | c :: cs =>
    if isBreak c then c :: padLines indent true cs
    else (if fresh then pad indent else []) ++ c :: padLines indent false cs

/-- Escapes one character between double quotes. -/
def escape (c : Char) : List Char :=
  match c with
  | '\x00' => ['\\', '0']
  | '\x07' => ['\\', 'a']
  | '\x08' => ['\\', 'b']
  | '\t' => ['\\', 't']
  | '\n' => ['\\', 'n']
  | '\x0b' => ['\\', 'v']
  | '\x0c' => ['\\', 'f']
  | '\r' => ['\\', 'r']
  | '\x1b' => ['\\', 'e']
  | '"' => ['\\', '"']
  | '\\' => ['\\', '\\']
  | '\u0085' => ['\\', 'N']
  | '\u2028' => ['\\', 'L']
  | '\u2029' => ['\\', 'P']
  | c =>
    if Style.isShown c then [c]
    else
      let n := c.toNat
      let digits (width : Nat) := (hexDigits width n).map Char.toUpper
      if n ≤ 0xFF then '\\' :: 'x' :: digits 2
      else if n ≤ 0xFFFF then '\\' :: 'u' :: digits 4
      else '\\' :: 'U' :: digits 8

/-- The indicators behind `|`: the indentation where the first line hides it, and what becomes of
the line breaks at the end. -/
def literalHeader (cs : List Char) : List Char :=
  let hint := if cs.head?.any (fun c ↦ c = ' ' || isBreak c) then ['2'] else []
  let chomp := match cs.reverse with
    | last :: before =>
      if !isBreak last then ['-']
      else if before.head?.all isBreak then ['+'] else []
    | [] => ['-']
  '|' :: hint ++ chomp

/-- A string in writing, with further lines at column `indent`. -/
def ofString (indent : Nat) (s : String) : List Char :=
  let cs := s.toList
  match Style.ofString s with
  | .plain => cs
  | .single =>
    '\'' :: padLines indent false (cs.flatMap fun c ↦ if c = '\'' then [c, c] else [c]) ++ ['\'']
  | .double => '"' :: cs.flatMap escape ++ ['"']
  | .literal => literalHeader cs ++ '\n' :: padLines indent true cs

def utf8Bytes (c : Char) : List Nat :=
  let n := c.toNat
  if n < 0x80 then [n]
  else if n < 0x800 then [0xC0 + n / 64, 0x80 + n % 64]
  else if n < 0x10000 then [0xE0 + n / 4096, 0x80 + n / 64 % 64, 0x80 + n % 64]
  else [0xF0 + n / 262144, 0x80 + n / 4096 % 64, 0x80 + n / 64 % 64, 0x80 + n % 64]

def ofTag (name : String) : List Char :=
  '!' :: name.toList.flatMap fun c ↦
    if isNameChar c || [';', '/', '?', ':', '@', '&', '=', '+', '$', ',', '.', '~', '*', '\'', '(',
      ')', '[', ']', '!'].contains c then [c]
    else (utf8Bytes c).flatMap fun b ↦ '%' :: (hexDigits 2 b).map Char.toUpper

/-- Where a value stands. -/
inductive Place where
  /-- It is the whole document. -/
  | document
  /-- Behind the dash of a sequence at some column. -/
  | item (column : Nat)
  /-- Behind the question mark or the colon of a mapping at some column, each on its own line. -/
  | part (column : Nat)
  /-- Behind the colon on the line of its key, in a mapping at some column. -/
  | value (column : Nat)
  deriving DecidableEq, Repr

namespace Place

/-- What sets a scalar off from what stands in front. -/
def gap : Place → List Char
  | document => []
  | _ => [' ']

/-- The column of the collection around the place. -/
def column : Place → Nat
  | document => 0
  | item c => c
  | part c => c
  | value c => c

/-- The column of a collection at this place, on a line of its own or not. -/
def inner (isSequence onNewLine : Bool) : Place → Nat
  | document => 0
  | item c => c + 2
  | part c => if isSequence && onNewLine then c else c + 2
  | value c => if isSequence then c else c + 2

/-- What stands between a value's place and the first line of a collection there, and the column of
that collection. -/
def opening (isSequence : Bool) (tag : Option String) (place : Place) : List Char × Nat :=
  let tagText := tag.elim [] fun t ↦ place.gap ++ ofTag t
  let onNewLine := tag.isSome || (match place with | value _ => true | _ => false)
  let column := place.inner isSequence onNewLine
  if onNewLine then (tagText ++ '\n' :: pad column, column)
  else (place.gap, column)

end Place

/-- Begins a new line at some column; a text that ends with a line break has done so. -/
def newLine (column : Nat) (text : List Char) : List Char :=
  (if text.getLast? = some '\n' then [] else ['\n']) ++ pad column

/-- The most bytes of a key that shares a line with its value. -/
def maxKeyLength : Nat := 128

/-- A string that can be a key on the line of its value. -/
def isShortKey (tagLength : Nat) (cs : List Char) : Bool :=
  !cs.any isBreak && cs.foldr (fun c n ↦ c.utf8Size + n) tagLength ≤ maxKeyLength

/-- A key that can stand on the line of its value, behind a tag of some length. -/
def isSimple (tagLength : Nat) : Node → Bool
  | .string s => isShortKey tagLength s.toList
  | .sequence items => items.isEmpty && isShortKey tagLength []
  | .mapping entries => entries.isEmpty && isShortKey tagLength []
  | .tagged name content => isSimple (tagLength + name.utf8ByteSize + 1) content
  | _ => isShortKey tagLength []

/-- A text on one line with the tag in front of it. -/
def onLine (place : Place) (tag : Option String) (text : List Char) : List Char :=
  place.gap ++ tag.elim [] (fun t ↦ ofTag t ++ [' ']) ++ text

/-- A scalar other than a string. -/
def ofScalar : Node → List Char
  | .bool b => if b then ['t', 'r', 'u', 'e'] else ['f', 'a', 'l', 's', 'e']
  | .int n => (toString n).toList
  | .float x => x.toText.toList
  | _ => ['n', 'u', 'l', 'l']

mutual

/-- A value in writing, with what sets it off from its place. -/
def ofNode (place : Place) (tag : Option String) : Node → List Char
  | .sequence [] => onLine place tag ['[', ']']
  | .mapping [] => onLine place tag ['{', '}']
  | .sequence (x :: xs) =>
    let (lead, column) := place.opening true tag
    let first := '-' :: ofNode (.item column) none x
    lead ++ first ++ ofItems column first xs
  | .mapping (e :: rest) =>
    let (lead, column) := place.opening false tag
    let first := ofEntry column e
    lead ++ first ++ ofEntries column first rest
  | .tagged name content => ofNode place (some name) content
  | .string s => onLine place tag (ofString (place.column + 2) s)
  | scalar => onLine place tag (ofScalar scalar)

/-- The items behind the first one, each on a new line. -/
def ofItems (column : Nat) (before : List Char) : List Node → List Char
  | [] => []
  | x :: xs =>
    let text := newLine column before ++ '-' :: ofNode (.item column) none x
    text ++ ofItems column text xs

/-- One entry of a mapping. -/
def ofEntry (column : Nat) : Node × Node → List Char
  | (key, value) =>
    if isSimple 0 key then
      ofNode .document none key ++ ':' :: ofNode (.value column) none value
    else
      let first := '?' :: ofNode (.part column) none key
      first ++ newLine column first ++ ':' :: ofNode (.part column) none value

/-- The entries behind the first one, each on a new line. -/
def ofEntries (column : Nat) (before : List Char) : List (Node × Node) → List Char
  | [] => []
  | e :: rest =>
    let text := newLine column before ++ ofEntry column e
    text ++ ofEntries column text rest

end

mutual

/-- A value that can be written. A mapping of a single entry without a tag cannot if its key has a
tag or is such a mapping itself. -/
def isWritable : Node → Bool
  | .sequence items => areWritable items
  | .mapping [(.mapping [_], _)] => false
  | .mapping [(.tagged _ _, _)] => false
  | .mapping entries => entriesWritable entries
  | .tagged _ (.mapping entries) => entriesWritable entries
  | .tagged _ content => isWritable content
  | _ => true

def areWritable : List Node → Bool
  | [] => true
  | x :: xs => isWritable x && areWritable xs

def entriesWritable : List (Node × Node) → Bool
  | [] => true
  | (key, value) :: rest => isWritable key && isWritable value && entriesWritable rest

end

end Layout

/-- A value as text. Null is nothing, scalars stand without quotes, and collections and tagged
values are block YAML without white space at the end; those that cannot be written are nothing. -/
def Node.toText : Node → String
  | .null => ""
  | .bool b => if b then "true" else "false"
  | .int n => toString n
  | .float x => x.toText
  | .string s => s
  | node =>
    if Layout.isWritable node then
      String.ofList (Text.trimEnd (Layout.ofNode .document none node))
    else ""

end AlertAudit.Yaml
