import AlertAudit.Text.Blank
import AlertAudit.Text.Columns
import AlertAudit.Text.Lines
import AlertAudit.Text.Span

/-!
The source that a snippet is taken from, by lines, and the places in it that byte offsets stand for.
-/

set_option autoImplicit false

namespace AlertAudit.Snippet

open AlertAudit.Text

structure SourceLine where
  number : Nat
  text : List Char
  /-- The byte where the line starts. -/
  start : Nat
  /-- The byte behind the line break. -/
  stop : Nat
  /-- The bytes of the line break. -/
  breakLength : Nat
  deriving DecidableEq, Repr, Inhabited

/-- The lines of a text from some line and byte on. -/
def sourceLinesFrom (number start : Nat) (cs : List Char) : List SourceLine :=
  match cs with
  | [] => []
  | c :: tail =>
    let line := (firstLine (c :: tail)).1
    let breakLength := (lineBreak (c :: tail)).length
    let stop := start + utf8Length line + breakLength
    { number, text := line, start, stop, breakLength } ::
      sourceLinesFrom (number + 1) stop (firstLine (c :: tail)).2
termination_by cs.length
decreasing_by exact length_of_firstLine c tail

/-- The lines of a text; an empty text has an empty line. -/
def sourceLines (cs : List Char) : List SourceLine :=
  if cs.isEmpty then [{ number := 1, text := [], start := 0, stop := 1, breakLength := 0 }]
  else sourceLinesFrom 1 0 cs

/-- A place in the source. -/
structure Place where
  line : Nat
  /-- The number of characters in front of it on its line. -/
  char : Nat
  /-- The number of columns in front of it on its line. -/
  column : Nat
  byte : Nat
  deriving DecidableEq, Repr, Inhabited

/-- The line that a byte belongs to; bytes behind the text belong to the last line. -/
def lineOf (ls : List SourceLine) (byte : Nat) : SourceLine :=
  (ls.find? fun l ↦ l.start ≤ byte && byte < l.stop).getD (ls.getLastD default)

/-- The place of a byte on a line. Places behind the end of the line count as its end. -/
def placeOn (l : SourceLine) (byte : Nat) : Place :=
  let before := takeBytes (byte - l.start) l.text
  { line := l.number, char := before.length, column := columns before, byte }

/-- The places where a stretch starts and stops. The stop moves one column on where the stretch
takes several lines and its end lies inside of a line break. -/
def placesOf (ls : List SourceLine) (s : Span) : Place × Place :=
  let first := lineOf ls s.start
  let start := placeOn first s.start
  let start :=
    if utf8Length first.text < s.start - first.start then { start with char := start.char + 1 }
    else start
  if s.start = s.stop then (start, start)
  else
    let last := lineOf ls s.stop
    let stop := placeOn last s.stop
    let stop :=
      if start.line ≠ stop.line ∧ last.stop - last.breakLength < s.stop then
        { stop with char := stop.char + 1, column := stop.column + 1 }
      else stop
    (start, stop)

/-- A line that says little: nothing, a lone bracket or a comment of two slashes. -/
def isFiller (cs : List Char) : Bool :=
  match trim cs with
  | [] => true
  | [c] => ['\x7b', '\x7d', '(', ')', '[', ']'].contains c
  | '/' :: '/' :: rest => rest.head?.all fun c ↦ c ≠ '/' && c ≠ '!'
  | _ => false

end AlertAudit.Snippet
