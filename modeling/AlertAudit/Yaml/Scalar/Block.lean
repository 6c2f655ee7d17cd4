import AlertAudit.Text.Digits
import AlertAudit.Yaml.Cursor

/-!
Block scalars: a header behind `|` or `>`, and indented lines. Literal scalars keep their line
breaks; in folded ones a single break between two lines that begin with no white space is a space.
What happens to the breaks at the end is a choice of the header.
-/

set_option autoImplicit false

namespace AlertAudit.Yaml.Block

/-- What is kept of the line breaks at the end. -/
inductive Chomp where
  | strip
  | clip
  | keep
  deriving DecidableEq, Repr

/-- The indicators behind `|` or `>`. -/
structure Header where
  chomp : Chomp := .clip
  /-- The indentation of the lines, counted from the enclosing block. -/
  indent : Option Nat := none
  deriving DecidableEq, Repr

/-- A sign that tells what to keep of the line breaks at the end. -/
def chomp? : Char → Option Chomp
  | '-' => some .strip
  | '+' => some .keep
  | _ => none

/-- Reads the digit of an indentation if one stands at the front; zero is none. -/
def indent? : List Char → Option (Option Nat × List Char)
  | c :: cs =>
    if c = '0' then none
    else
      match Text.digit? 10 c with
      | some n => some (some n, cs)
      | none => some (none, c :: cs)
  | [] => some (none, [])

/-- Reads the indicators, in either order. -/
def header? : List Char → Option (Header × List Char)
  | [] => some ({}, [])
  | c :: cs =>
    match chomp? c with
    | some chomp => (indent? cs).map fun (indent, rest) ↦ (⟨chomp, indent⟩, rest)
    | none => do
      let (indent, rest) ← indent? (c :: cs)
      match indent, rest with
      | some n, d :: tail =>
        match chomp? d with
        | some chomp => return (⟨chomp, some n⟩, tail)
        | none => return (⟨.clip, some n⟩, rest)
      | indent, rest => return (⟨.clip, indent⟩, rest)

/-- Reads empty lines and the indentation of the line behind them: their breaks, the deepest
column that was seen, and where that is. Indentation ends at column `limit` if there is one. A tab
may not stand in it. -/
def readBlank (limit : Option Nat) : List Char → List Char → Nat → Nat → Nat →
    Option (List Char × Nat × Cursor)
  | [], breaks, deepest, line, column => some (breaks, max deepest column, ⟨[], line, column⟩)
  | c :: cs, breaks, deepest, line, column =>
    let indenting := limit.all (column < ·)
    if isBreak c then readBlank limit cs (breaks ++ [c]) (max deepest column) (line + 1) 0
    else if c = ' ' ∧ indenting then readBlank limit cs breaks deepest line (column + 1)
    else if c = '\t' ∧ indenting then none
    else some (breaks, max deepest column, ⟨c :: cs, line, column⟩)

/-- Reads the lines at column `indent`. `lead` is the break behind the line before, `blank` are the
breaks of empty lines, and `spaced` tells whether the line before began with white space. -/
def readLines (folded : Bool) (chomp : Chomp) (indent : Nat) (text lead blank : List Char)
    (spaced : Bool) (here : Cursor) : Option (List Char × Cursor) :=
  let line := here.rest.takeWhile (!isBreak ·)
  if here.column ≠ indent ∨ line.isEmpty then
    some (text ++ (if chomp = .strip then [] else lead) ++ (if chomp = .keep then blank else []),
      here)
  else
    let nowSpaced := line.head?.any isGap
    let joint :=
      if folded && lead == ['\n'] && !spaced && !nowSpaced then if blank.isEmpty then [' '] else []
      else lead
    let stop := here.skip line.length
    let next := stop.endLine
    match readBlank (some indent) next.rest [] 0 next.line next.column with
    | none => none
    | some (breaks, _, start) =>
      if start.rest.length < here.rest.length then
        readLines folded chomp indent (text ++ joint ++ blank ++ line) (stop.rest.take 1) breaks
          nowSpaced start
      else none
termination_by here.rest.length

/-- Reads a block scalar whose `|` or `>` stands here, in a block whose content begins at column
`margin` or deeper; `base` is the column that an indentation given by number counts from. -/
def read (folded : Bool) (base margin : Nat) (here : Cursor) : Option (List Char × Cursor) := do
  let (header, rest) ← header? (here.rest.drop 1)
  let mid := here.skip (here.rest.length - rest.length)
  let mid := mid.skipWhile isGap
  let mid := if mid.rest.head? == some '#' then mid.skipWhile (!isBreak ·) else mid
  if !atLineEnd mid.rest then none
  else
    let next := mid.endLine
    let limit := header.indent.map (base + ·)
    let (breaks, deepest, start) ← readBlank limit next.rest [] 0 next.line next.column
    readLines folded header.chomp (limit.getD (max (max deepest margin) 1)) [] [] breaks false start

end AlertAudit.Yaml.Block
