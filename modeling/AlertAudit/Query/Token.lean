import AlertAudit.Decimal.Notation

/-!
Queries as tokens. What a character means depends on the brackets around it: braces hold label
matchers, in which all words are names, and square brackets hold durations. White space is ASCII
and a comment runs from `#` to the end of its line.
-/

set_option autoImplicit false

namespace AlertAudit.Query

open AlertAudit.Decimal

inductive Mark where
  | parenOpen | parenClose | braceOpen | braceClose | bracketOpen | bracketClose
  | comma | colon | at
  | equal | notEqual | matches | notMatches
  | plus | minus | star | slash | percent | caret
  | equals | less | lessEqual | greater | greaterEqual
  /-- The word that separates alternatives between braces. -/
  | alternative
  deriving DecidableEq, Repr

inductive Token where
  | mark (mark : Mark)
  | number (value : Binary64)
  /-- A duration, in milliseconds. -/
  | duration (milliseconds : Nat)
  /-- A string as it stands between its quotes. -/
  | string (text : String)
  | word (text : String)
  deriving DecidableEq, Repr

namespace Token

/-- ASCII white space. -/
def isSpace (c : Char) : Bool := c = ' ' || c = '\t' || c = '\n' || c = '\r' || c = '\x0c'

def isAlpha (c : Char) : Bool := c.isAlpha || c = '_'

def isAlnum (c : Char) : Bool := c.isAlphanum || c = '_'

/-- The brackets around a place. -/
inductive Mode where
  | plain | braces
  /-- Square brackets, and whether they have a colon yet. -/
  | brackets (colon : Bool)
  deriving DecidableEq

/-- The unit of a duration: its length in milliseconds and its place in the order of units. -/
def unit? : List Char → Option (Nat × Nat × List Char)
  | 'm' :: 's' :: cs => some (1, 7, cs)
  | 'y' :: cs => some (365 * 24 * 60 * 60 * 1000, 1, cs)
  | 'w' :: cs => some (7 * 24 * 60 * 60 * 1000, 2, cs)
  | 'd' :: cs => some (24 * 60 * 60 * 1000, 3, cs)
  | 'h' :: cs => some (60 * 60 * 1000, 4, cs)
  | 'm' :: cs => some (60 * 1000, 5, cs)
  | 's' :: cs => some (1000, 6, cs)
  | _ => none

/-- The sum of counts of units, the units in descending order. The fuel bounds their number. -/
def durationSum? : Nat → Nat → List Char → Option Nat
  | _, _, [] => some 0
  | 0, _, _ => none
  | fuel + 1, last, cs => do
    let digits := cs.takeWhile Char.isDigit
    let (size, place, rest) ← unit? (cs.dropWhile Char.isDigit)
    if digits.isEmpty || place ≤ last then none
    else
      let n := natOfDigits 10 digitValue digits
      let sum ← durationSum? fuel place rest
      if n < Nat.pow 2 64 then some (n * size + sum) else none

/-- A duration that is not zero. -/
def duration? (cs : List Char) : Option Nat := do
  let n ← durationSum? 7 0 cs
  if n = 0 || n ≥ Nat.pow 2 64 then none else some n

/-- The value of a whole number with a base mark, or of a decimal. -/
def number? : List Char → Option Binary64
  | '0' :: x :: ds =>
    if x = 'x' || x = 'X' then
      let n := natOfDigits 16 hexValue ds
      if ds.isEmpty || !ds.all isHexDigit || n ≥ Nat.pow 2 63 then none
      else some (.ofDecimal false n 0)
    else (unsigned? ('0' :: x :: ds)).map fun d ↦ .ofDecimal false d.1 d.2
  | cs => (unsigned? cs).map fun d ↦ .ofDecimal false d.1 d.2

/-- The length of what reads like a number. -/
def numberLength (cs : List Char) : Nat :=
  let hex := match cs with
    | '0' :: x :: _ => x = 'x' || x = 'X'
    | _ => false
  let isDigit := if hex then isHexDigit else Char.isDigit
  let start := if hex then 2 else 0
  let whole := start + ((cs.drop start).takeWhile isDigit).length
  let fraction := match cs.drop whole with
    | '.' :: r => whole + 1 + (r.takeWhile isDigit).length
    | _ => whole
  match cs.drop fraction with
  | e :: r =>
    if e = 'e' || e = 'E' then
      let sign := match r with
        | s :: _ => if s = '+' || s = '-' then 1 else 0
        | [] => 0
      fraction + 1 + sign + ((r.drop sign).takeWhile Char.isDigit).length
    else fraction
  | [] => fraction

/-- A number or a duration at the front. A letter must not follow. -/
def numberOrDuration (cs : List Char) : Option (Token × List Char) :=
  let n := numberLength cs
  match (cs.drop n).head? with
  | some c =>
    if isAlnum c then
      let text := cs.takeWhile isAlnum
      (duration? text).map (.duration ·, cs.dropWhile isAlnum)
    else (number? (cs.take n)).map (.number ·, cs.drop n)
  | none => (number? (cs.take n)).map (.number ·, cs.drop n)

/-- What follows a string behind its opening quote, and its text. Escapes are checked and kept. -/
def stringBody (quote : Char) : List Char → Option (List Char × List Char)
  | [] => none
  | '\\' :: c :: cs =>
    if c = quote || "abfnrtv\\01234567xuU".toList.contains c then
      (stringBody quote cs).map fun r ↦ ('\\' :: c :: r.1, r.2)
    else none
  | c :: cs =>
    if c = quote then some ([], cs)
    else if c = '\\' then none
    else (stringBody quote cs).map fun r ↦ (c :: r.1, r.2)

/-- A string at the front. -/
def string? : List Char → Option (Token × List Char)
  | c :: cs =>
    if c = '"' || c = '\'' || c = '`' then
      (stringBody c cs).map fun r ↦ (.string (String.ofList r.1), r.2)
    else none
  | [] => none

def wordNumber? (word : String) : Option Binary64 :=
  let w := word.toLower
  if w = "inf" then some (.infinite false) else if w = "nan" then some .nan else none

/-- A mark of two characters or of one. -/
def plainMark? : List Char → Option (Mark × List Char)
  | '=' :: '=' :: cs => some (.equals, cs)
  | '=' :: '~' :: _ => none
  | '!' :: '=' :: cs => some (.notEqual, cs)
  | '<' :: '=' :: cs => some (.lessEqual, cs)
  | '>' :: '=' :: cs => some (.greaterEqual, cs)
  | c :: cs =>
    let mark? : Option Mark := match c with
      | '(' => some .parenOpen
      | ')' => some .parenClose
      | '{' => some .braceOpen
      | '[' => some .bracketOpen
      | ',' => some .comma
      | '@' => some .at
      | '=' => some .equal
      | '<' => some .less
      | '>' => some .greater
      | '+' => some .plus
      | '-' => some .minus
      | '*' => some .star
      | '/' => some .slash
      | '%' => some .percent
      | '^' => some .caret
      | _ => none
    mark?.map (·, cs)
  | [] => none

/-- A token outside of braces and square brackets. -/
def plain? (cs : List Char) : Option (Token × List Char) :=
  match cs with
  | [] => none
  | c :: rest =>
    if c.isDigit || (c = '.' && rest.head?.any Char.isDigit) then numberOrDuration cs
    else if isAlpha c || c = ':' then
      let isWord := fun d : Char ↦ isAlnum d || d = ':'
      let word := String.ofList (cs.takeWhile isWord)
      let token := match wordNumber? word with
        | some v => .number v
        | none => .word word
      some (token, cs.dropWhile isWord)
    else match string? cs with
      | some r => some r
      | none => (plainMark? cs).map fun r ↦ (.mark r.1, r.2)

/-- A token between braces. -/
def inBraces? (cs : List Char) : Option (Token × List Char) :=
  match cs with
  | [] => none
  | ',' :: rest => some (.mark .comma, rest)
  | '}' :: rest => some (.mark .braceClose, rest)
  | '=' :: '~' :: rest => some (.mark .matches, rest)
  | '=' :: rest => some (.mark .equal, rest)
  | '!' :: '~' :: rest => some (.mark .notMatches, rest)
  | '!' :: '=' :: rest => some (.mark .notEqual, rest)
  | o :: r :: ' ' :: rest =>
    if (o = 'o' || o = 'O') && (r = 'r' || r = 'R') then some (.mark .alternative, ' ' :: rest)
    else word? cs
  | _ => word? cs
where
  /-- A name or a string. -/
  word? (cs : List Char) : Option (Token × List Char) :=
    if cs.head?.any isAlpha then
      some (.word (String.ofList (cs.takeWhile isAlnum)), cs.dropWhile isAlnum)
    else string? cs

/-- A token between square brackets. -/
def inBrackets? (colon : Bool) (cs : List Char) : Option (Token × List Char) :=
  match cs with
  | ']' :: rest => some (.mark .bracketClose, rest)
  | ':' :: rest => if colon then none else some (.mark .colon, rest)
  | c :: _ => if c.isDigit then numberOrDuration cs else none
  | [] => none

def next? : Mode → List Char → Option (Token × List Char)
  | .plain, cs => plain? cs
  | .braces, cs => inBraces? cs
  | .brackets colon, cs => inBrackets? colon cs

def modeAfter (mode : Mode) : Token → Mode
  | .mark .braceOpen => .braces
  | .mark .bracketOpen => .brackets false
  | .mark .braceClose | .mark .bracketClose => .plain
  | .mark .colon => .brackets true
  | _ => mode

/-- The tokens of a text; `none` where some part is no token. The fuel bounds their number. -/
def tokens? : Nat → Mode → List Char → Option (List Token)
  | _, mode, [] => if mode = .plain then some [] else none
  | 0, _, _ => none
  | fuel + 1, mode, c :: cs =>
    if isSpace c then tokens? fuel mode cs
    else if c = '#' && (mode = .plain || mode = .braces) then
      tokens? fuel mode (cs.dropWhile (· ≠ '\n'))
    else do
      let (token, rest) ← next? mode (c :: cs)
      let tokens ← tokens? fuel (modeAfter mode token) rest
      return token :: tokens

/-- The tokens of a query. Every token takes a character. -/
def ofText? (text : String) : Option (List Token) :=
  tokens? text.toList.length .plain text.toList

end Token

end AlertAudit.Query
