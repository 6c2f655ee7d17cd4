/-!
Grids of styled characters. Characters are put at a row and a column, in any order, and replace
what was there; rows and columns that were passed over are spaces without a style. A grid becomes
text with or without escape sequences for the styles.
-/

set_option autoImplicit false

namespace AlertAudit.Snippet

/-- How a character is shown. -/
inductive Style where
  | plain
  /-- The wording of a title. -/
  | title
  /-- The level of a message, and what belongs to its main mark. -/
  | primary
  /-- Line numbers, frames, and what belongs to further marks. -/
  | secondary
  deriving DecidableEq, Repr, Inhabited

/-- A styled character. -/
structure Cell where
  char : Char := ' '
  style : Style := .plain
  deriving DecidableEq, Repr, Inhabited

/-- Rows of styled characters. -/
abbrev Grid := Array (Array Cell)

namespace Grid

def padTo {α : Type} (n : Nat) (fill : α) (xs : Array α) : Array α :=
  xs ++ Array.replicate (n - xs.size) fill

def putCell (row column : Nat) (cell : Cell) (g : Grid) : Grid :=
  (padTo (row + 1) #[] g).modify row fun cells ↦ (padTo (column + 1) {} cells).set! column cell

def put (row column : Nat) (char : Char) (style : Style) (g : Grid) : Grid :=
  g.putCell row column ⟨char, style⟩

/-- Puts a text at a row, from a column on. The row is there even if the text is empty. -/
def putText (row column : Nat) (text : List Char) (style : Style) (g : Grid) : Grid :=
  (text.zipIdx column).foldl (fun g (c, column) ↦ g.put row column c style) (padTo (row + 1) #[] g)

/-- Puts a text behind what a row holds. -/
def append (row : Nat) (text : List Char) (style : Style) (g : Grid) : Grid :=
  g.putText row (g.getD row #[]).size text style

/-- Puts a character at every column from one up to another. -/
def putRange (row first stop : Nat) (char : Char) (style : Style) (g : Grid) : Grid :=
  g.putText row first (List.replicate (stop - first) char) style

/-- The escape sequences that begin the styles. -/
def opening (isError : Bool) : Style → List Char
  | .plain => []
  | .title => ['\x1b', '[', '1', 'm']
  | .primary =>
    ['\x1b', '[', '1', 'm', '\x1b', '['] ++ (if isError then ['9', '1'] else ['3', '3']) ++ ['m']
  | .secondary => ['\x1b', '[', '1', 'm', '\x1b', '[', '9', '4', 'm']

/-- The escape sequence that ends a style. -/
def closing : Style → List Char
  | .plain => []
  | _ => ['\x1b', '[', '0', 'm']

/-- The text of a row with escape sequences, behind a character of some style. -/
def styledRow (isError : Bool) (current : Style) : List Cell → List Char
  | [] => closing current
  | cell :: cells =>
    if cell.style = current then cell.char :: styledRow isError current cells
    else
      closing current ++ opening isError cell.style ++
        cell.char :: styledRow isError cell.style cells

def rowText (styled isError : Bool) (cells : List Cell) : List Char :=
  if styled then styledRow isError .plain cells else cells.map (·.char)

/-- The text of a grid, without a line break at the end. -/
def toText (styled isError : Bool) (g : Grid) : String :=
  String.intercalate "\n"
    (g.toList.map fun cells ↦ String.ofList (rowText styled isError cells.toList))

end Grid

end AlertAudit.Snippet
