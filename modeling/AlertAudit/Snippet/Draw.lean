import AlertAudit.Snippet.Grid
import AlertAudit.Snippet.Rows
import AlertAudit.Snippet.Window

/-!
Snippets: a title, the place of the main mark, and the marked lines of a source with their
underlines, bars and labels. One line between two marked ones is shown, and more are three dots.
-/

set_option autoImplicit false

namespace AlertAudit

/-- What a snippet shows. -/
structure Snippet where
  isError : Bool
  title : String
  path : Option String
  source : String
  marks : List Snippet.Mark

end AlertAudit

namespace AlertAudit.Snippet

open AlertAudit.Text

/-- The columns that the parts of a snippet stand in. -/
structure Frame where
  /-- The digits of the greatest line number. -/
  numberWidth : Nat
  /-- The number of lanes for bars. -/
  lanes : Nat
  window : Window
  deriving Repr, Inhabited

namespace Frame

/-- The column of the rule between line numbers and source. -/
def rule (f : Frame) : Nat := f.numberWidth + 1

/-- The column of the bars in a lane. -/
def lane (f : Frame) (lane : Nat) : Nat := f.numberWidth + 2 + lane

/-- The first column of the source where bars take some lanes. -/
def sourceColumn (numberWidth lanes : Nat) : Nat :=
  numberWidth + 3 + if lanes = 0 then 0 else lanes + 1

/-- The first column of the source. -/
def source (f : Frame) : Nat := sourceColumn f.numberWidth f.lanes

end Frame

def dots : List Char := ['.', '.', '.']

def markStyle (isPrimary : Bool) : Style := if isPrimary then .primary else .secondary

def underlineChar (isPrimary : Bool) : Char := if isPrimary then '^' else '-'

/-- Draws the rule between line numbers and source. -/
def drawRule (f : Frame) (row : Nat) (g : Grid) : Grid := g.put row f.rule '|' .secondary

/-- The number of characters that fill some columns, or all there are. -/
def charsFilling (width : Nat) : List Char → Nat
  | [] => 0
  | c :: cs => if width ≤ columnsOf c then 1 else charsFilling (width - columnsOf c) cs + 1

/-- The characters that fit into some columns. -/
def charsWithin (width : Nat) : List Char → List Char
  | [] => []
  | c :: cs => if columnsOf c ≤ width then c :: charsWithin (width - columnsOf c) cs else []

/-- Draws a line of the source with its number. The answer is the first column of the line that is
shown. -/
def drawSource (f : Frame) (number : Nat) (text : List Char) (row : Nat) (g : Grid) :
    Grid × Nat :=
  let text := visible text
  let length := columns text
  let left := f.window.leftOf length
  let right := f.window.rightOf length
  let skipped := if left = 0 then 0 else charsFilling left text
  let shown := charsWithin (right - left) (text.drop skipped)
  let left := max left (columns (text.take skipped))
  let cut := if f.window.left = 0 then 0 else charsFilling dots.length shown
  let cutWidth := columns (shown.take cut)
  let left := left - (cutWidth - dots.length)
  let g := if f.window.left = 0 then g else g.putText row f.source dots .secondary
  let g := g.putText row (f.source + cutWidth) (shown.drop cut) .plain
  let g :=
    if right < length then
      let tail := charsFilling dots.length shown.reverse
      g.putText row (f.source + cutWidth + (shown.length - cut) - tail) dots .secondary
    else g
  let digits := (toString number).toList
  let padded := List.replicate (f.numberWidth - digits.length) ' ' ++ digits
  (drawRule f row (g.putText row 0 padded .secondary), left)

def drawBar (f : Frame) (bar : Nat × Style) (row : Nat) (g : Grid) : Grid :=
  g.put row (f.lane bar.1) '|' bar.2

def drawBars (f : Frame) (bars : List (Nat × Style)) (row : Nat) (g : Grid) : Grid :=
  bars.foldl (fun g bar ↦ drawBar f bar row g) g

/-- The bars that begin with nothing but white space in front of them on their line. They are drawn
as slashes, if nothing but bars is on the line. -/
def shortStarts? (text : List Char) : List Stroke → Option (List (Nat × Style))
  | [] => some []
  | s :: rest =>
    match s.shape with
    | .barStart lane =>
      if ((visible text).take s.start).all isBlank then
        (shortStarts? text rest).map ((lane, markStyle s.isPrimary) :: ·)
      else none
    | .bar => shortStarts? text rest
    | _ => none

/-- Where the strokes of a line are drawn: the row of the line, the first column of the source, and
the last row below. -/
structure Area where
  row : Nat
  column : Nat
  last : Nat

/-- The column of a stroke's start. -/
def Area.at (a : Area) (offset left : Nat) : Nat := a.column + offset - left

/-- Draws the line that leads from a stroke to the bar at the left. -/
def drawArm (f : Frame) (row left : Nat) (s : Nat × Stroke) (g : Grid) : Grid :=
  match s.2.lane? with
  | some lane =>
    g.putRange (row + s.1 + 1) (f.lane lane + 1) (f.source + s.2.start - left) '_'
      (markStyle s.2.isPrimary)
  | none => g

/-- Draws the lines that lead from a stroke down to its label, and the bar beside them. `count` is
the number of rows below the underlines. -/
def drawStem (f : Frame) (row count left : Nat) (s : Nat × Stroke) (g : Grid) : Grid :=
  let style := markStyle s.2.isPrimary
  let depth := s.1 + 1
  let g :=
    if 0 < s.1 && (s.2.hasLabel || s.2.joinsBar) then
      (List.range' (row + 1) depth).foldl
        (fun g r ↦ g.put r (f.source + s.2.start - left) '|' style) g
    else g
  match s.2.shape with
  | .barStart lane =>
    let g := g.put (row + depth) (f.lane lane) ' ' style
    (List.range' (row + depth + 1) (count + 1 - depth)).foldl
      (fun g r ↦ g.put r (f.lane lane) '|' style) g
  | .barEnd lane =>
    (List.range' row (depth + 1)).foldl (fun g r ↦ g.put r (f.lane lane) '|' style) g
  | _ => g

/-- Draws the label of a stroke: behind its underline, or below the underline's start. -/
def drawLabel (f : Frame) (row left : Nat) (s : Nat × Stroke) (g : Grid) : Grid :=
  match s.2.label with
  | none => g
  | some label =>
    let (down, column) :=
      if s.1 = 0 then (1, (if s.2.stop = 0 then 2 else s.2.stop + 1) - left)
      else (s.1 + 2, s.2.start - left)
    g.putText (row + down) (f.source + column) (visible label.toList) (markStyle s.2.isPrimary)

def drawUnderline (f : Frame) (row left : Nat) (s : Nat × Stroke) (g : Grid) : Grid :=
  let style := markStyle s.2.isPrimary
  let char := underlineChar s.2.isPrimary
  let g := (List.range' s.2.start (s.2.stop - s.2.start)).foldl
    (fun g column ↦ g.put (row + 1) (f.source + column - left) char style) g
  if s.2.joinsBar || (s.1 ≠ 0 && s.2.hasLabel) then
    g.put (row + 1) (f.source + s.2.start - left) char style
  else g

/-- Leaves out the columns of a row from one up to another, for three dots. -/
def elide (row first stop : Nat) (g : Grid) : Grid :=
  g.modify row fun cells ↦
    if stop ≤ first ∨ cells.size < stop then cells
    else
      cells.extract 0 first ++ (dots.map fun c ↦ (⟨c, .secondary⟩ : Cell)).toArray ++
        cells.extract stop cells.size

/-- Leaves out the middle of an underline that is much longer than the terminal is wide. -/
def elideLong (f : Frame) (row : Nat) (s : Stroke) (g : Grid) : Grid :=
  let width := s.stop - s.start
  if s.shape = .underline && f.window.width * 2 < width && 10 < width then
    let pad := max (f.window.width / 3) 5
    elide (row + 1) (s.start + pad) (s.stop - pad) (elide row (s.start + pad) (s.stop - pad) g)
  else g

/-- The strokes that share no column with another one. -/
def lone (strokes : List Stroke) : List Stroke :=
  strokes.filter fun s ↦ (strokes.countP fun t ↦ overlaps 0 t s || overlaps 0 s t) ≤ 1

/-- Draws a marked line and what belongs below it. The answer has the bars that begin or end here.
-/
def drawLine (f : Frame) (l : MarkedLine) (g : Grid) : Grid × List (Nat × Style) :=
  let row := g.size
  let (g, left) := drawSource f l.line.number l.line.text row g
  match shortStarts? l.line.text l.strokes with
  | some starts =>
    (starts.foldl (fun g (lane, style) ↦ g.put row (f.lane lane) '/' style) g, starts)
  | none =>
    let (rows, count) := rowsOf l.strokes
    let g := (List.range' (row + 1) (count + 1)).foldl (fun g r ↦ drawRule f r g) g
    let g := rows.foldl (fun g s ↦ drawArm f row left s g) g
    let g := rows.foldl (fun g s ↦ drawStem f row count left s g) g
    let g := rows.foldl (fun g s ↦ drawLabel f row left s g) g
    -- shorter underlines are drawn over longer ones, and primary ones over others
    let layered := rows.mergeSort fun a b ↦
      b.2.length < a.2.length || (b.2.length = a.2.length && (!a.2.isPrimary || b.2.isPrimary))
    let g := layered.foldl (fun g s ↦ drawUnderline f row left s g) g
    let g := (lone (layered.map (·.2))).foldl (fun g s ↦ elideLong f row s g) g
    (g, layered.filterMap fun (_, s) ↦ s.lane?.map (·, markStyle s.isPrimary))

/-- Draws what stands between two marked lines: nothing, one line, or three dots. -/
def drawBetween (f : Frame) (ls : List SourceLine) (bars : List (Nat × Style))
    (l next : MarkedLine) (g : Grid) : Grid :=
  let row := g.size
  let started := l.strokes.filterMap fun s ↦ s.startLane?.map (·, markStyle s.isPrimary)
  if next.line.number = l.line.number + 2 then
    let text := ((ls.find? (·.number = l.line.number + 1)).map (·.text)).getD []
    let g := (drawSource f (l.line.number + 1) text row g).1
    drawBars f started row (drawBars f bars row g)
  else if l.line.number + 2 < next.line.number then
    drawBars f started row (drawBars f bars row (g.putText row 0 dots .secondary))
  else g

/-- The bars that go on behind a line: those that end are taken out, and those that begin are
new. -/
def crossing (bars ends : List (Nat × Style)) : List (Nat × Style) × List (Nat × Style) :=
  ends.foldl (fun (state : List (Nat × Style) × List (Nat × Style)) e ↦
    if state.1.any (·.1 = e.1) then (state.1.filter (·.1 ≠ e.1), state.2)
    else (state.1, (state.2.filter (·.1 ≠ e.1)) ++ [e])) (bars, [])

/-- Draws the marked lines with the bars that pass them. -/
def drawLines (f : Frame) (ls : List SourceLine) (bars : List (Nat × Style)) :
    List MarkedLine → Grid → Grid
  | [], g => g
  | l :: rest, g =>
    let row := g.size
    let (g, ends) := drawLine f l g
    let (passing, starting) := crossing bars ends
    let g := (List.range' row (g.size - row)).foldl (fun g r ↦ drawBars f passing r g) g
    let g := match rest with
      | next :: _ => drawBetween f ls passing l next g
      | [] => g
    drawLines f ls (passing ++ starting) rest g

/-- The lines of a text, split at line breaks only. -/
def splitLines (cs : List Char) : List (List Char) := cs.splitOn '\n'

/-- Draws the title. Its further lines are indented as far as the first one. -/
def drawTitle (s : Snippet) : Grid :=
  let level := if s.isError then ['e', 'r', 'r', 'o', 'r'] else ['w', 'a', 'r', 'n', 'i', 'n', 'g']
  let start := Grid.append 0 [':', ' '] .title (Grid.append 0 level .primary #[])
  (splitLines (visible s.title.toList)).zipIdx.foldl (fun g (line, row) ↦
    let g := if row = 0 then g else g.append row (List.replicate (level.length + 2) ' ') .plain
    g.append row line .title) start

/-- The line and the column of the main mark, for the place of the snippet. -/
def mainPlace? (ls : List MarkedLine) : Option (Nat × Nat) := do
  let l ← (ls.find? fun l ↦ l.strokes.any (·.isPrimary)).or ls.head?
  let primary := l.strokes.filter (·.isPrimary)
  let candidates := if primary.isEmpty then l.strokes else primary
  return (l.line.number, (candidates.map (·.startChar)).min?.getD 0 + 1)

/-- Draws the place of the snippet, if it has a path, and the empty row in front of the lines. -/
def drawPlace (f : Frame) (s : Snippet) (ls : List MarkedLine) (g : Grid) : Grid :=
  let g := match s.path with
    | none => g
    | some path =>
      let row := g.size
      let place := match mainPlace? ls with
        | some (line, column) => s!"{path}:{line}:{column}"
        | none => path
      let arrow := List.replicate f.numberWidth ' '
      ((g.append row arrow .plain).append row ['-', '-', '>', ' '] .secondary).append row
        place.toList .plain
  drawRule f g.size g

/-- The number of digits that line numbers take: those of the line in which the last mark stops. -/
def numberWidth (s : Snippet) : Nat :=
  let stop := (s.marks.map (·.span.stop)).foldl max 0
  let lines := (linesFrom 1 (takeBytes stop s.source.toList)).length
  (toString (1 + (lines - 1))).length

/-- A snippet as a grid. -/
def draw (s : Snippet) : Grid :=
  let ls := sourceLines s.source.toList
  let (lanes, marked) := markedLines ls s.marks
  let width := numberWidth s
  let window := Window.ofLines (terminalWidth - Frame.sourceColumn width lanes) marked
  let f : Frame := { numberWidth := width, lanes, window }
  drawLines f ls [] marked (drawPlace f s marked (drawTitle s))

/-- A snippet as text, without a line break at the end. -/
def toText (styled : Bool) (s : Snippet) : String := s.draw.toText styled s.isError

end AlertAudit.Snippet
