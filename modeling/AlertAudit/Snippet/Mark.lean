import AlertAudit.Snippet.Source

/-!
Marks on a source, and what they leave on each line. A mark within a line is underlined. One of
several lines is a bar at the left from its first to its last line; bars that overlap stand in
different lanes. Of a long bar only the first lines, and the one or two last ones, are shown.
-/

set_option autoImplicit false

namespace AlertAudit.Snippet

/-- A labelled stretch of the source. -/
structure Mark where
  span : Text.Span
  label : String
  isPrimary : Bool
  deriving DecidableEq, Repr, Inhabited

/-- What a mark is on a line; bars have the number of their lane. -/
inductive Shape where
  | underline
  | barStart (lane : Nat)
  | bar
  | barEnd (lane : Nat)
  deriving DecidableEq, Repr, Inhabited

/-- The part of a mark on one line. -/
structure Stroke where
  shape : Shape
  startChar : Nat
  start : Nat
  stop : Nat
  label : Option String
  isPrimary : Bool
  deriving DecidableEq, Repr, Inhabited

namespace Stroke

def hasLabel (s : Stroke) : Bool := s.label.any (!·.isEmpty)

/-- The stroke runs to the bar at the left. -/
def joinsBar (s : Stroke) : Bool :=
  match s.shape with
  | .barStart _ | .barEnd _ => true
  | _ => false

/-- The lane of a bar that starts on this line. -/
def startLane? (s : Stroke) : Option Nat :=
  match s.shape with
  | .barStart lane => some lane
  | _ => none

/-- The lane of a bar that starts or ends on this line. -/
def lane? (s : Stroke) : Option Nat :=
  match s.shape with
  | .barStart lane | .barEnd lane => some lane
  | _ => none

/-- The number of columns that are underlined. -/
def length (s : Stroke) : Nat := if s.start < s.stop then s.stop - s.start else s.start - s.stop

end Stroke

/-- A mark of several lines. -/
structure Bar where
  start : Place
  stop : Place
  label : String
  isPrimary : Bool
  lane : Nat := 1
  /-- Another mark has the same stretch and draws the bar. -/
  isShared : Bool := false
  deriving DecidableEq, Repr, Inhabited

namespace Bar

def sameSpan (a b : Bar) : Bool := a.start = b.start && a.stop = b.stop

/-- There is a line that both take. -/
def meets (a b : Bar) : Bool :=
  (b.start.line ≤ a.start.line && a.start.line ≤ b.stop.line) ||
    (a.start.line ≤ b.start.line && b.start.line ≤ a.stop.line)

/-- Moves the bars in front of `b` in the list out of its lane, and notes those with its stretch.
A bar with the stretch of a primary mark is primary. -/
def makeRoom (b : Bar) (primary : List (Place × Place)) : List Bar → List Bar
  | [] => []
  | a :: rest =>
    if !b.sameSpan a && b.meets a then { a with lane := a.lane + 1 } :: makeRoom b primary rest
    else if b.sameSpan a && b ≠ a then { a with isShared := true } :: makeRoom b primary rest
    else
      { a with isPrimary := a.isPrimary || primary.contains (a.start, a.stop) } :: rest

/-- The order in which lanes are given: by first line, longer bars first. -/
def before (a b : Bar) : Bool :=
  a.start.line < b.start.line || (a.start.line = b.start.line && b.stop.line ≤ a.stop.line)

/-- Gives bars their lanes, and tells how many there are. -/
def arrange (bars : List Bar) : Nat × List Bar :=
  let sorted := bars.mergeSort before
  let step := fun (state : List Bar × List (Place × Place)) (b : Bar) ↦
    let primary := if b.isPrimary then state.2 ++ [(b.start, b.stop)] else state.2
    (makeRoom b primary state.1, primary)
  let (placed, _) := sorted.foldl step (sorted, [])
  let lanes := (placed.map (·.lane)).foldl max 0
  (lanes, placed.map fun b ↦ { b with lane := lanes - b.lane + 1 })

def startStroke (b : Bar) : Stroke :=
  { shape := .barStart b.lane, startChar := b.start.char, start := b.start.column
    stop := b.start.column + 1, label := none, isPrimary := b.isPrimary }

def wayStroke (b : Bar) : Stroke :=
  { shape := .bar, startChar := 0, start := 0, stop := 0, label := none, isPrimary := b.isPrimary }

/-- The stroke where the bar ends, or that stands for it if another mark draws the bar. -/
def endStroke (b : Bar) : Stroke :=
  { shape := if b.isShared then .underline else .barEnd b.lane, startChar := b.stop.char - 1
    start := b.stop.column - 1, stop := b.stop.column, label := some b.label
    isPrimary := b.isPrimary }

/-- The lines of the source text that a bar shows between its first and its last line: up to three
behind the first one, without filler at their end, and the one before the last if it says
something. -/
def shownLines (ls : List SourceLine) (b : Bar) : List Nat :=
  let isFillerLine (n : Nat) : Bool := (ls.find? (·.number = n)).any (isFiller ·.text)
  let middle := min (b.start.line + 4) b.stop.line
  let head := (List.range' b.start.line (middle - b.start.line)).reverse.dropWhile isFillerLine
  let last := b.stop.line - 1
  List.range' (b.start.line + 1) (head.length - 1) ++
    if middle < last && !isFillerLine last then [last] else []

/-- The strokes of a bar with the numbers of their lines. -/
def strokes (ls : List SourceLine) (b : Bar) : List (Nat × Stroke) :=
  (if b.isShared then []
    else (b.start.line, b.startStroke) :: (b.shownLines ls).map (·, b.wayStroke)) ++
    [(b.stop.line, b.endStroke)]

end Bar

/-- A line of the source with the strokes on it. -/
structure MarkedLine where
  line : SourceLine
  strokes : List Stroke
  deriving Repr, Inhabited

/-- The mark as a stroke on its line, or as a bar. -/
def Mark.place (ls : List SourceLine) (m : Mark) : (Nat × Stroke) ⊕ Bar :=
  let (start, stop) := placesOf ls m.span
  if start.line = stop.line then
    .inl (start.line, {
      shape := .underline, startChar := start.char, start := start.column
      stop := if start.column = stop.column then stop.column + 1 else stop.column
      label := some m.label, isPrimary := m.isPrimary })
  else .inr { start, stop, label := m.label, isPrimary := m.isPrimary }

/-- The number of lanes that marks take, and the lines with strokes in ascending order. -/
def markedLines (ls : List SourceLine) (marks : List Mark) : Nat × List MarkedLine :=
  let placed := marks.map (·.place ls)
  let single := placed.filterMap fun p ↦ p.getLeft?
  let (lanes, bars) := Bar.arrange (placed.filterMap fun p ↦ p.getRight?)
  let strokes := single ++ bars.flatMap (·.strokes ls)
  let marked := ls.map fun l ↦
    { line := l, strokes := (strokes.filter (·.1 = l.number)).map (·.2) : MarkedLine }
  (lanes, marked.filter (!·.strokes.isEmpty))

end AlertAudit.Snippet
