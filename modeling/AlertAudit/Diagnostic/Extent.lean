import AlertAudit.RuleFile.LineRange
import AlertAudit.Text.Span

/-!
The stretch of a text that a run of lines takes: without the indentation of the first line and the
line break of the last one. Lines end at `\n` only, and lines that the text does not have stand at
its end. In a text that is not empty, no stretch is empty: that of an empty line is the character
behind it.
-/

set_option autoImplicit false

namespace AlertAudit.LineRange

open AlertAudit.Text

/-- The byte where a line starts. -/
def startOf : Nat → List Char → Nat
  | _, [] => 0
  | line, c :: cs =>
    if line ≤ 1 then 0 else c.utf8Size + startOf (if c = '\n' then line - 1 else line) cs

/-- The byte behind the text of a line. -/
def stopOf (line : Nat) (cs : List Char) : Nat :=
  let start := startOf line cs
  if line = 0 then start
  else start + utf8Length ((dropBytes start cs).takeWhile (· ≠ '\n'))

def isIndent (c : Char) : Bool := c = ' ' || c = '\t'

/-- The stretch of a text that the lines take. -/
def extent (r : LineRange) (cs : List Char) : Span :=
  let start := startOf r.first cs
  let stop := max (stopOf r.last cs) start
  let indent := ((Span.slice ⟨start, stop⟩ cs).takeWhile isIndent).length
  if start + indent < stop then ⟨start + indent, stop⟩
  else if start < stop then ⟨start, stop⟩
  else ⟨start, min (start + 1) (utf8Length cs)⟩

end AlertAudit.LineRange
