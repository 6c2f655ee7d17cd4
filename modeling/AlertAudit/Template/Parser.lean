import AlertAudit.Template.Literal
import AlertAudit.Template.ParseError
import AlertAudit.Template.Scan
import AlertAudit.Template.Tree

/-!
What a parser of templates works with. A parser moves tokens from the input into the tree under
construction: `bump` takes one, and `node` groups what a parser takes. White space that a parser
has looked past waits in `pending`; it goes into the tree right before the next token is taken or
the next node starts, whichever comes first. Nothing else touches the input, so no token is lost,
doubled or moved. Only the first error is kept, and it sits at the token that was next when it
arose.
-/

set_option autoImplicit false

namespace AlertAudit.Template

open AlertAudit.Text

namespace Parser

/-- What a parser sees and builds. -/
structure State where
  /-- White space in front of `rest` that has been looked past and is not in the tree yet. -/
  pending : List Token := []
  /-- Tokens that have not been looked past. -/
  rest : List Token
  /-- Where the text ends. -/
  stop : Nat
  /-- Why the tokens end early, if they do. -/
  scanError : Option ScanError
  /-- The children of the node under construction, the last one first. -/
  built : List Tree := []
  error : Option ParseError := none
  /-- Variables in scope, the innermost first. -/
  vars : List String
  /-- The number of loops around this place. -/
  loops : Nat := 0
  /-- The number of parentheses open around this place. -/
  depth : Nat := 0

end Parser

/-- A step of the parser. -/
abbrev Parser (α : Type) := StateM Parser.State α

namespace Parser

/-- Looks past the leading white space. -/
def State.look (s : State) : State :=
  { s with
    pending := s.pending ++ s.rest.takeWhile (·.isTrivia)
    rest := s.rest.dropWhile (·.isTrivia) }

/-- Puts the white space that has been looked past into the tree. -/
def State.settle (s : State) : State :=
  { s with pending := [], built := s.pending.reverse.map .leaf ++ s.built }

/-- The next token that is not white space. -/
def next : Parser (Option Token) := do
  modify State.look
  return (← get).rest.head?

/-- The kind of the next token that is not white space. -/
def current : Parser (Option TokenKind) := return (← next).map (·.kind)

/-- The text of the next token that is not white space; empty at the end. -/
def currentText : Parser String := return ((← next).map (·.text)).getD ""

/-- The kind of the token after the next one, white space not counted. -/
def second : Parser (Option TokenKind) := do
  modify State.look
  return ((← get).rest.tail.find? (!·.isTrivia)).map (·.kind)

/-- The kind of the token right behind what has been looked past or taken. -/
def adjacent : Parser (Option TokenKind) := return (← get).rest.head?.map (·.kind)

def failed : Parser Bool := return (← get).error.isSome

/-- Whether there is nothing to go on with. -/
def stopped : Parser Bool := do
  let s ← get
  return s.error.isSome || s.rest.isEmpty

/-- Records an error at the next token, unless there is one already. -/
def fail (cause : Cause) : Parser Unit := do
  unless ← failed do
    let token ← next
    modify fun s ↦ { s with error := some ⟨cause, (token.map (·.span)).getD ⟨s.stop, s.stop⟩⟩ }

/-- The next token as it is named in an error. -/
def found : Option Token → Found
  | none => .endOfInput
  | some t => if t.kind.isKeyword || t.kind = .dot then .word t.text else .piece t.text

/-- Records that the next token does not belong here. -/
def unexpected (context : Context) : Parser Unit := do
  let token ← next
  match token, (← get).scanError with
  | some ⟨.lexError, _, _⟩, some e => fail (.scan e)
  | _, _ => fail (.unexpected (found token) context)

/-- Takes the next token that is not white space. -/
def bump : Parser Unit := do
  if let some token ← next then
    modify fun s ↦
      let s := s.settle
      { s with rest := s.rest.tail, built := .leaf token :: s.built }

/-- Takes all tokens of a kind that follow without a space. -/
def takeAll (kind : TokenKind) : Parser Unit :=
  modify fun s ↦
    let s := s.settle
    { s with
      rest := s.rest.dropWhile (·.kind = kind)
      built := (s.rest.takeWhile (·.kind = kind)).reverse.map .leaf ++ s.built }

/-- Groups what `p` takes. White space that has been looked past stays outside of the group. -/
def node {α : Type} (kind : NodeKind) (p : Parser α) : Parser α := do
  modify State.settle
  let outer := (← get).built
  modify ({ · with built := [] })
  let a ← p
  modify fun s ↦ { s with built := .node kind s.built.reverse :: outer }
  return a

def eat (kind : TokenKind) : Parser Bool := do
  if (← current) = some kind then
    bump
    return true
  else
    return false

/-- Takes the next token if it is of the kind, and records an error otherwise. -/
def expect (kind : TokenKind) (context : Context) : Parser Bool := do
  if ← eat kind then
    return true
  else
    unexpected context
    return false

/-- Runs `p`, after which the variables in scope are as many as before. -/
def keepingVars {α : Type} (p : Parser α) : Parser α := do
  let mark := (← get).vars.length
  let a ← p
  modify fun s ↦ { s with vars := s.vars.drop (s.vars.length - mark) }
  return a

/-- Runs `p` inside one more loop. -/
def inLoop {α : Type} (p : Parser α) : Parser α := do
  modify fun s ↦ { s with loops := s.loops + 1 }
  let a ← p
  modify fun s ↦ { s with loops := s.loops - 1 }
  return a

/-- Runs `p` inside one more pair of parentheses. -/
def inParens {α : Type} (p : Parser α) : Parser α := do
  modify fun s ↦ { s with depth := s.depth + 1 }
  let a ← p
  modify fun s ↦ { s with depth := s.depth - 1 }
  return a

/-- Runs `p` as the body of a template of its own: with no variable but `$`, outside of loops. -/
def isolated {α : Type} (p : Parser α) : Parser α := do
  let outer ← get
  modify ({ · with vars := ["$"], loops := 0 })
  let a ← p
  modify ({ · with vars := outer.vars, loops := outer.loops })
  return a

/-- Repeats `step` for as long as it asks to go on and tokens get fewer. -/
def iterate {β : Type} (step : β → Parser (Bool × β)) (b : β) : Parser β := fun s ↦
  match step b s with
  | ((true, b), t) => if t.rest.length < s.rest.length then iterate step b t else (b, t)
  | ((false, b), t) => (b, t)
termination_by s => s.rest.length

/-- Takes all that is left as one error node. -/
def takeRest : Parser Unit := do
  if (← next).isSome then
    node .error <| modify fun s ↦
      { s with rest := [], built := s.rest.reverse.map .leaf ++ s.built }
  else
    modify State.settle

end Parser

end AlertAudit.Template
