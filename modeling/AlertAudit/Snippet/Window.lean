import AlertAudit.Snippet.Mark

/-!
The columns of the source that a snippet shows. Lines are cut only where they do not fit into the
terminal, or where all of them begin with much white space; the marks and their labels decide what
is kept.
-/

set_option autoImplicit false

namespace AlertAudit.Snippet

def terminalWidth : Nat := 140

/-- The columns kept free beside what has to be shown. -/
def breathingSpace : Nat := 6

/-- The columns that are shown. -/
structure Window where
  left : Nat
  right : Nat
  /-- The columns that there is room for. -/
  width : Nat
  deriving DecidableEq, Repr, Inhabited

namespace Window

/-- The number of columns of white space at the start of a line. -/
def leadingBlanks (cs : List Char) : Nat :=
  (cs.takeWhile Text.isBlank).foldr (fun c n ↦ (if c = '\t' then 4 else 1) + n) 0

def least (ns : List Nat) : Nat := (ns.min?).getD 0

def greatest (ns : List Nat) : Nat := (ns.max?).getD 0

/-- The window for some lines where there is room for `width` columns. -/
def ofLines (width : Nat) (ls : List MarkedLine) : Window :=
  let strokes := ls.flatMap (·.strokes)
  let blanks := least ((ls.filter fun l ↦ !Text.isBlankText l.line.text).map
    fun l ↦ leadingBlanks l.line.text)
  let spanLeft := least (strokes.map fun s ↦ min s.start s.stop) - breathingSpace
  let spanRight := greatest (strokes.map fun s ↦ max s.start s.stop) + breathingSpace
  let labelRight := greatest (strokes.map fun s ↦
    s.stop + s.label.elim 0 fun label ↦ Text.columns label.toList + 1) + breathingSpace
  let longest := greatest (ls.map fun l ↦ Text.columns l.line.text)
  let blanks := blanks - breathingSpace
  let left := if 20 < blanks then blanks - 16 else 0
  let right := max longest left
  if right - left ≤ width then ⟨left, right, width⟩
  else if labelRight - blanks ≤ width then ⟨blanks, blanks + width, width⟩
  else if labelRight - spanLeft ≤ width then
    let left := spanLeft - (width - (labelRight - spanLeft)) / 2
    ⟨left, left + width, width⟩
  else if spanRight - spanLeft ≤ width then
    let left := spanLeft - (width - (spanRight - spanLeft)) / 5 * 2
    ⟨left, left + width, width⟩
  else ⟨spanLeft, spanRight, width⟩

/-- The first column that is shown of a line of some length. -/
def leftOf (w : Window) (length : Nat) : Nat := min w.left length

/-- The column where the shown part of a line of some length ends. -/
def rightOf (w : Window) (length : Nat) : Nat :=
  if length - w.left ≤ w.width then length else min length w.right

end Window

end AlertAudit.Snippet
