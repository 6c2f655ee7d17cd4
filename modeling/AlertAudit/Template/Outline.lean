import AlertAudit.Template.Parser.Items

/-!
What a tree means: items, pipelines and operands, without delimiters, white space and text. The
outline of a tree is read from the leaves up; `Part` is what each subtree contributes to the one
around it. Trees that stop at an error have an outline too, in which parts may be missing.
-/

set_option autoImplicit false

namespace AlertAudit.Template

open AlertAudit.Text

/-- The variables that a pipeline binds. -/
structure Decl where
  names : List Token
  /-- `=` rather than `:=`. -/
  isAssign : Bool

mutual

/-- What an operand starts with. -/
inductive Term where
  | dot
  | field
  | variable (name : Option Token)
  | function (name : Option Token)
  | literal (token : Option Token)
  | paren (body : Option Pipeline)

/-- An argument of a command: a term, and the fields read from it. The fields of a `field` term
are the whole chain. -/
inductive Operand where
  | mk (term : Term) (span : Span) (fields : List Token)

/-- Commands, the result of which may be bound to variables. -/
inductive Pipeline where
  | mk (decl : Option Decl) (commands : List (List Operand))

end

mutual

/-- What stands in a list of items. -/
inductive Item where
  | action (span : Span) (pipeline : Option Pipeline)
  | control (kind : Control) (span : Span) (pipeline : Option Pipeline) (body : Body)
      (otherwise : Otherwise)
  | define (span : Span) (name : Option String) (body : Body)
  | block (span : Span) (name : Option String) (pipeline : Option Pipeline) (body : Body)
  | call (span : Span) (name : Option String) (pipeline : Option Pipeline)

/-- The items of a block. -/
inductive Body where
  | missing
  | items (items : List Item)

inductive Otherwise where
  | none
  /-- A block of its own, as in `else if`. -/
  | nested (item : Item)
  | body (body : Body)

end

/-- What a subtree contributes to the outline of the tree around it. -/
inductive Part where
  | token (token : Token)
  | operand (operand : Operand)
  | command (operands : List Operand)
  | decl (decl : Decl)
  | pipeline (pipeline : Pipeline)
  | list (items : List Item)
  | otherwise (branch : Otherwise)
  | item (item : Item)
  | nothing

namespace Part

def token? : Part → Option Token
  | token t => some t
  | _ => none

def operand? : Part → Option Operand
  | operand o => some o
  | _ => none

def command? : Part → Option (List Operand)
  | command os => some os
  | _ => none

def decl? : Part → Option Decl
  | decl d => some d
  | _ => none

def pipeline? : Part → Option Pipeline
  | pipeline p => some p
  | _ => none

def list? : Part → Option Body
  | list is => some (.items is)
  | _ => none

def otherwise? : Part → Option Otherwise
  | otherwise o => some o
  | _ => none

def item? : Part → Option Item
  | item i => some i
  | _ => none

/-- A block of the kind that can follow the word `else`. -/
def nested? : Part → Option Item
  | item (.control kind span p b o) =>
    if kind = .rangeBlock then none else some (.control kind span p b o)
  | _ => none

end Part

namespace Outline

/-- The tokens of a kind that stand directly in a node. -/
def tokensOf (kind : TokenKind) (parts : List Part) : List Token :=
  (parts.filterMap Part.token?).filter (·.kind = kind)

/-- The name that a string in a node gives to a template. -/
def templateName? (parts : List Part) : Option String := do
  let t ← (parts.filterMap Part.token?).find? (·.kind.namesTemplate)
  Literal.unquote t.text

/-- The first list in a node. -/
def body (parts : List Part) : Body := (parts.findSome? Part.list?).getD .missing

/-- What a node contributes, by its kind, its tree and the parts of its children. -/
def assemble (kind : NodeKind) (tree : Tree) (parts : List Part) : Part :=
  let span := tree.span?.getD ⟨0, 0⟩
  let pipeline := parts.findSome? Part.pipeline?
  let operand (term : Term) : Part := .operand (.mk term span (tokensOf .field parts))
  match kind with
  | .list => .list (parts.filterMap Part.item?)
  | .action => .item (.action span pipeline)
  | .control kind =>
    .item (.control kind span pipeline (body parts)
      ((parts.findSome? Part.otherwise?).getD .none))
  | .elseBranch =>
    .otherwise <| match parts.findSome? Part.nested? with
      | some item => .nested item
      | none => .body (body parts)
  | .define => .item (.define span (templateName? parts) (body parts))
  | .block => .item (.block span (templateName? parts) pipeline (body parts))
  | .call => .item (.call span (templateName? parts) pipeline)
  | .pipeline => .pipeline (.mk (parts.findSome? Part.decl?) (parts.filterMap Part.command?))
  | .decl => .decl ⟨tokensOf .variable parts, !(tokensOf .assign parts).isEmpty⟩
  | .command => .command (parts.filterMap Part.operand?)
  | .dot => operand .dot
  | .field => operand .field
  | .variable => operand (.variable (tokensOf .variable parts).head?)
  | .function => operand (.function (tokensOf .identifier parts).head?)
  | .literal => operand (.literal ((parts.filterMap Part.token?).find? (!·.isTrivia)))
  | .paren => operand (.paren pipeline)
  | .error | .root | .comment | .endAction | .breakLoop | .continueLoop => .nothing

mutual

/-- What a tree contributes to the outline of the tree around it. -/
def ofTree : Tree → Part
  | .leaf t => .token t
  | .node kind children => assemble kind (.node kind children) (ofTrees children)

def ofTrees : List Tree → List Part
  | [] => []
  | t :: ts => ofTree t :: ofTrees ts

end

end Outline

/-- The items of a whole template. -/
def Tree.items : Tree → List Item
  | .leaf _ => []
  | .node _ children => (Outline.ofTrees children).filterMap Part.item?

/-- The value of a string literal; other literals have none. -/
def Token.stringValue? (t : Token) : Option String :=
  if t.kind.namesTemplate then Literal.unquote t.text else none

end AlertAudit.Template
