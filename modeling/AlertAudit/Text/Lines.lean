/-!
Texts as numbered lines. A line ends with `\n` or `\r\n`; behind the last line break there is no
further line unless characters follow.
-/

set_option autoImplicit false

namespace AlertAudit.Text

/-- A line of a text; lines are counted from one. -/
structure Line where
  number : Nat
  text : List Char
  deriving DecidableEq, Repr, Inhabited

/-- The first line of a text without its line break, and what follows the break. -/
def firstLine (cs : List Char) : List Char × List Char :=
  let line := cs.takeWhile (· ≠ '\n')
  let rest := cs.drop line.length
  match rest with
  | [] => (line, [])
  | _ :: rest => (if line.getLast? = some '\r' then line.dropLast else line, rest)

/-- The line break behind the first line of a text, if there is one. -/
def lineBreak (cs : List Char) : List Char :=
  let line := cs.takeWhile (· ≠ '\n')
  match cs.drop line.length with
  | [] => []
  | _ => if line.getLast? = some '\r' then ['\r', '\n'] else ['\n']

theorem length_of_firstLine (c : Char) (cs : List Char) :
    (firstLine (c :: cs)).2.length < (c :: cs).length := by
  simp only [firstLine]
  split
  · simp
  · rename_i heq
    have := congrArg List.length heq
    simp only [List.length_drop, List.length_cons] at this
    simp only [List.length_cons]
    omega

/-- The lines of a text, the first one with a given number. -/
def linesFrom (number : Nat) (cs : List Char) : List Line :=
  match cs with
  | [] => []
  | c :: cs =>
    ⟨number, (firstLine (c :: cs)).1⟩ :: linesFrom (number + 1) (firstLine (c :: cs)).2
termination_by cs.length
decreasing_by exact length_of_firstLine c cs

def lines (text : String) : List Line := linesFrom 1 text.toList

end AlertAudit.Text
