import AlertAudit.Snippet.Mark

/-!
The rows below a line of the source on which the labels of its strokes stand. The rightmost label
stands behind its underline if there is room; the others stand below, each on a row of its own, so
that no label covers another.
-/

set_option autoImplicit false

namespace AlertAudit.Snippet

/-- Two strokes share a column if the first is made longer by some columns. -/
def overlaps (padding : Nat) (a b : Stroke) : Bool :=
  (b.start ≤ a.start && a.start < b.stop) ||
    (a.start ≤ b.start && b.start < a.stop + padding)

/-- The label of a stroke in the first row needs a new row because of a later stroke. A later stroke
at the same place without a label is drawn as one with it. -/
def collides (s : Stroke) : List Stroke → Bool
  | [] => false
  | next :: rest =>
    if overlaps 0 next s && s.hasLabel then
      if next.start = s.start && next.stop = s.stop && !next.hasLabel then collides s rest else true
    else collides s rest

/-- A later stroke has to be a row below this one. -/
def pushesDown (s next : Stroke) (row : Nat) : Bool :=
  let padding := next.label.elim 0 fun label ↦ label.utf8ByteSize + 2
  (overlaps padding next s && s.hasLabel && next.hasLabel) ||
    (s.joinsBar && next.hasLabel) || (s.hasLabel && next.joinsBar) ||
    (s.joinsBar && next.joinsBar) ||
    (overlaps padding next s && next.stop ≤ s.stop && next.hasLabel && row = 0)

/-- The rows of strokes from right to left, from a row on, and the last row that is in use. -/
def assignRows : Nat → List Stroke → List (Nat × Stroke) × Nat
  | row, [] => ([], row)
  | row, s :: rest =>
    let own := if row = 0 && collides s rest then 1 else row
    let after := if rest.any fun next ↦ pushesDown s next own then own + 1 else own
    let (more, last) := assignRows after rest
    ((own, s) :: more, last)

/-- The rows of the strokes of a line, and how many rows there are below the underlines. -/
def rowsOf (strokes : List Stroke) : List (Nat × Stroke) × Nat :=
  let sorted := strokes.mergeSort fun a b ↦ b.start ≤ a.start
  let (rows, last) := assignRows 0 sorted
  let count := if last = 0 then 0 else last + 1
  if rows.all fun (_, s) ↦ s.startLane?.isSome then
    -- bars that start together are joined from the outside in
    let deepest := (rows.map (·.1)).foldl max 0
    (rows.map fun (row, s) ↦ (deepest - row, s), count - 1)
  else (rows, count)

end AlertAudit.Snippet
