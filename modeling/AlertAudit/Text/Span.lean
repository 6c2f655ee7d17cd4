/-!
Stretches of a text, measured in the bytes of its UTF-8 form. The start belongs to the stretch and
the stop does not.
-/

set_option autoImplicit false

namespace AlertAudit.Text

/-- A stretch of a text by byte offsets. -/
structure Span where
  start : Nat
  stop : Nat
  deriving DecidableEq, Repr, Inhabited

/-- The number of bytes that a list of characters takes in UTF-8. -/
def utf8Length (cs : List Char) : Nat := cs.foldr (fun c n ↦ c.utf8Size + n) 0

/-- The characters that start before byte `offset`. -/
def takeBytes : Nat → List Char → List Char
  | 0, _ => []
  | _, [] => []
  | offset, c :: cs => c :: takeBytes (offset - c.utf8Size) cs

/-- The characters that start at byte `offset` or later. -/
def dropBytes : Nat → List Char → List Char
  | 0, cs => cs
  | _, [] => []
  | offset, c :: cs => dropBytes (offset - c.utf8Size) cs

/-- The characters that start inside a stretch. -/
def Span.slice (s : Span) (cs : List Char) : List Char :=
  takeBytes (s.stop - s.start) (dropBytes s.start cs)

/-- The number of line breaks before byte `offset`. -/
def lineAt (cs : List Char) (offset : Nat) : Nat := (takeBytes offset cs).count '\n'

end AlertAudit.Text
