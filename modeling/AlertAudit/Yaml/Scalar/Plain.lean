import AlertAudit.Yaml.Cursor

/-!
Scalars without quotes. A plain scalar is made of runs of characters with gaps between them; a gap
with a line break folds. It ends before a comment, a mark of a document, a colon that white space
follows, a line that is not indented enough and, inside of brackets, before punctuation.
-/

set_option autoImplicit false

namespace AlertAudit.Yaml.Plain

def isFlowMark (c : Char) : Bool := c = ',' || c = '[' || c = ']' || c = '{' || c = '}'

/-- Splits the characters up to the next gap or the end of the scalar off the front. Inside of
brackets a colon right before punctuation is an error. -/
def run (flow : Bool) : List Char → Option (List Char × List Char)
  | [] => some ([], [])
  | c :: cs =>
    if flow && c = ':' && cs.head?.any (fun d ↦ isFlowMark d || d = '?') then none
    else if isSeparator c || (c = ':' && atSeparator cs) || (flow && isFlowMark c) then
      some ([], c :: cs)
    else (run flow cs).map fun (taken, rest) ↦ (c :: taken, rest)

theorem append_of_run {flow : Bool} {cs taken rest : List Char}
    (h : run flow cs = some (taken, rest)) : taken ++ rest = cs := by
  induction cs generalizing taken rest with
  | nil =>
    simp only [run, Option.some.injEq, Prod.mk.injEq] at h
    simp [← h.1, ← h.2]
  | cons c cs ih =>
    simp only [run] at h
    split at h
    · cases h
    · split at h
      · cases h
        rfl
      · obtain ⟨⟨more, r⟩, hm, he⟩ := Option.map_eq_some_iff.1 h
        cases he
        simp [ih hm]

/-- Reads on from a scalar that is `text` so far. The answer tells whether the last gap broke the
line, and where the reading stopped. -/
def readMore (flow : Bool) (margin : Nat) (text : List Char) (here : Cursor) :
    Option (List Char × Bool × Cursor) :=
  match _hg : Gap.read margin here.rest {} here.line here.column with
  | none => none
  | some (gap, next) =>
    if gap.isEmpty then some (text, false, next)
    else if next.atDocumentMarker || next.rest.head? == some '#'
        || (!flow && next.column < margin) then
      some (text, gap.hasBreak, next)
    else
      match _hr : run flow next.rest with
      | none => none
      | some ([], _) => some (text, gap.hasBreak, next)
      | some (c :: taken, rest) =>
        readMore flow margin (text ++ gap.text ++ c :: taken)
          ⟨rest, next.line, next.column + (c :: taken).length⟩
termination_by here.rest.length
decreasing_by
  have hl := Gap.length_of_read _hg
  have := congrArg List.length (append_of_run _hr)
  simp only [List.length_append, List.length_cons] at this
  omega

def read (flow : Bool) (margin : Nat) (here : Cursor) : Option (List Char × Bool × Cursor) := do
  let (taken, rest) ← run flow here.rest
  readMore flow margin taken ⟨rest, here.line, here.column + taken.length⟩

end AlertAudit.Yaml.Plain
