/-!
Places in a YAML text. Line breaks come in five spellings; `unifyBreaks` writes the common ones as
`\n` before anything else is read, so that a place is no more than the rest of the text with the
line and the column where that rest begins.
-/

set_option autoImplicit false

namespace AlertAudit.Yaml

/-- A line break of a text with unified breaks. -/
def isBreak (c : Char) : Bool := c = '\n' || c = '\u2028' || c = '\u2029'

/-- White space inside a line. -/
def isGap (c : Char) : Bool := c = ' ' || c = '\t'

/-- White space of either sort. -/
def isSeparator (c : Char) : Bool := isGap c || isBreak c

/-- White space or nothing stands at the front. -/
def atSeparator : List Char → Bool
  | [] => true
  | c :: _ => isSeparator c

/-- A line break or nothing stands at the front. -/
def atLineEnd : List Char → Bool
  | [] => true
  | c :: _ => isBreak c

/-- A character of a name: of an anchor, a directive or a tag handle. -/
def isNameChar (c : Char) : Bool := c.isAlphanum || c = '_' || c = '-'

/-- The characters that a YAML text may hold. -/
def isAllowed (c : Char) : Bool :=
  let n := c.toNat
  n == 0x09 || n == 0x0A || n == 0x0D || (0x20 ≤ n && n ≤ 0x7E) || n == 0x85 ||
    (0xA0 ≤ n && n ≤ 0xFFFD) || 0x10000 ≤ n

/-- The mark of byte order, which may stand where a line begins. -/
def byteOrderMark : Char := '\uFEFF'

/-- Writes the line breaks of the common systems as `\n`. -/
def unifyBreaks : List Char → List Char
  | '\r' :: '\n' :: cs => '\n' :: unifyBreaks cs
  | c :: cs => (if c = '\r' ∨ c = '\u0085' then '\n' else c) :: unifyBreaks cs
  | [] => []

/-- A place in a text: what follows, and where that is. Lines and columns count from zero. -/
structure Cursor where
  rest : List Char
  line : Nat := 0
  column : Nat := 0
  deriving DecidableEq, Repr, Inhabited

namespace Cursor

/-- Past `n` characters of the line. -/
def skip (n : Nat) (here : Cursor) : Cursor :=
  { here with rest := here.rest.drop n, column := here.column + n }

/-- Past the characters of a class, which has no line breaks. -/
def skipWhile (p : Char → Bool) (here : Cursor) : Cursor :=
  here.skip (here.rest.takeWhile p).length

/-- Past a line break. -/
def nextLine (here : Cursor) : Cursor := ⟨here.rest.drop 1, here.line + 1, 0⟩

/-- Behind the line break if one stands here. -/
def endLine (here : Cursor) : Cursor := if here.rest.isEmpty then here else here.nextLine

/-- Three equal characters at the start of a line that set documents apart. -/
def atMarker (mark : Char) (here : Cursor) : Bool :=
  here.column = 0 && here.rest.take 3 == [mark, mark, mark] && atSeparator (here.rest.drop 3)

/-- The start or the end of a document is marked here. -/
def atDocumentMarker (here : Cursor) : Bool := here.atMarker '-' || here.atMarker '.'

end Cursor

/-- White space between two parts of a scalar: what stands before the first line break, and the
line breaks. -/
structure Gap where
  blanks : List Char := []
  breaks : List Char := []
  deriving DecidableEq, Repr, Inhabited

namespace Gap

def isEmpty (g : Gap) : Bool := g.blanks.isEmpty && g.breaks.isEmpty

def hasBreak (g : Gap) : Bool := !g.breaks.isEmpty

/-- What a gap stands for: a single line break is a space, further ones stay. -/
def text (g : Gap) : List Char :=
  match g.breaks with
  | [] => g.blanks
  | ['\n'] => [' ']
  | '\n' :: more => more
  | breaks => breaks

/-- Reads white space. A tab may not stand left of column `margin` on a line that goes on. -/
def read (margin : Nat) : List Char → Gap → Nat → Nat → Option (Gap × Cursor)
  | [], g, line, column => some (g, ⟨[], line, column⟩)
  | c :: cs, g, line, column =>
    if isBreak c then read margin cs { g with breaks := g.breaks ++ [c] } (line + 1) 0
    else if isGap c then
      if g.breaks.isEmpty then read margin cs { g with blanks := g.blanks ++ [c] } line (column + 1)
      else if c = '\t' ∧ column < margin then none
      else read margin cs g line (column + 1)
    else some (g, ⟨c :: cs, line, column⟩)

theorem length_of_read {margin : Nat} {cs : List Char} {g g' : Gap} {line column : Nat}
    {next : Cursor} (h : read margin cs g line column = some (g', next)) :
    next.rest.length ≤ cs.length := by
  induction cs generalizing g line column with
  | nil =>
    simp only [read, Option.some.injEq, Prod.mk.injEq] at h
    simp [← h.2]
  | cons c cs ih =>
    simp only [read] at h
    have shorter : ∀ {n : Nat}, n ≤ cs.length → n ≤ (c :: cs).length := fun hn ↦ by
      simp only [List.length_cons]
      omega
    split at h
    · exact shorter (ih h)
    · split at h
      · split at h
        · exact shorter (ih h)
        · split at h
          · exact absurd h (by simp)
          · exact shorter (ih h)
      · simp only [Option.some.injEq, Prod.mk.injEq] at h
        simp [← h.2]

end Gap

end AlertAudit.Yaml
