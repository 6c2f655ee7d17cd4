import AlertAudit.Template.Parser.Items

/-!
The grammar of templates. White space inside of actions only matters where it separates operands,
so a template is read as its other tokens, each with a note whether white space comes right behind
it (`pieces`). The rules carry the variables in scope in front of a phrase and behind it:
a declaration stays in scope until the block around it ends, also when it stands in parentheses.
-/

set_option autoImplicit false

namespace AlertAudit.Template

/-- A token that is no white space. -/
structure Piece where
  token : Token
  /-- White space comes right behind the token. -/
  spaced : Bool
  deriving DecidableEq

/-- The tokens that are no white space. -/
def pieces : List Token → List Piece
  | [] => []
  | t :: ts =>
    if t.isTrivia then pieces ts else ⟨t, ts.head?.any (·.isTrivia)⟩ :: pieces ts

namespace Piece

def kind (p : Piece) : TokenKind := p.token.kind

def text (p : Piece) : String := p.token.text

/-- A string that names a template. -/
def Names (p : Piece) : Prop := p.kind.namesTemplate ∧ (Literal.unquote p.text).isSome

end Piece

/-- The word with which a block starts. -/
def Control.word : Control → Keyword
  | .ifBlock => .ifWord
  | .withBlock => .withWord
  | .rangeBlock => .rangeWord

namespace Grammar

open AlertAudit.Template.Parser (OperandClass)

/-! ### Pipelines -/

/-- An operand of one token, without fields. -/
inductive Atom (vars : List String) (p : Piece) : OperandClass → Prop
  | function : p.kind = .identifier → Builtin.isDefined p.text → Atom vars p .executable
  | inScope : p.kind = .variable → p.text ∈ vars → Atom vars p .executable
  | field : p.kind = .field → Atom vars p .executable
  | dot : p.kind = .dot → Atom vars p .dot
  | nil : p.kind = .keyword .nilWord → Atom vars p .nil
  | bool {value : Bool} : p.kind = .bool value → Atom vars p .bool
  | char : p.kind = .charLit → Literal.isCharConstant p.text → Atom vars p .number
  | number : p.kind = .number → Atom vars p .number
  | string : p.kind = .str ∨ p.kind = .rawStr → (Literal.unquote p.text).isSome →
    Atom vars p .string

/-- Fields attached to a term: no white space comes in front of any of them. The truth values tell
whether white space comes behind the term and behind the last field. -/
inductive Fields : Bool → List Piece → Bool → Prop
  | nil {spaced : Bool} : Fields spaced [] spaced
  | cons {f : Piece} {fs : List Piece} {spaced : Bool} : f.kind = .field →
    Fields f.spaced fs spaced → Fields false (f :: fs) spaced

/-- A declaration in front of a pipeline that starts with a token of the kind `next`. -/
inductive Declares (inRange : Bool) (vars : List String) (next : Option TokenKind) :
    List Piece → List String → Prop
  | none : Declares inRange vars next [] vars
  | one {v mark : Piece} : v.kind = .variable → mark.kind = .declare ∨ mark.kind = .assign →
    Declares inRange vars next [v, mark] (v.text :: vars)
  | two {v comma w mark : Piece} : inRange → v.kind = .variable → comma.kind = .comma →
    w.kind = .variable → mark.kind = .declare ∨ mark.kind = .assign →
    Declares inRange vars next [v, comma, w, mark] (w.text :: v.text :: vars)
  | index {v comma : Piece} : inRange → v.kind = .variable → comma.kind = .comma →
    next = some .variable → Declares inRange vars next [v, comma] (v.text :: vars)

mutual

/-- An operand with its fields, in which parentheses nest to a depth. It has a class, and white
space comes behind it or not. -/
inductive Operand : Nat → List String → List Piece → OperandClass → Bool → List String → Prop
  | atom {depth : Nat} {vars : List String} {p : Piece} {fs : List Piece} {c : OperandClass}
    {spaced : Bool} : Atom vars p c → Fields p.spaced fs spaced → (fs ≠ [] → c = .executable) →
    Operand depth vars (p :: fs) c spaced vars
  | paren {depth : Nat} {vars vars' : List String} {left right : Piece} {ps fs : List Piece}
    {spaced : Bool} : left.kind = .parenOpen → Pipeline depth false vars ps vars' →
    right.kind = .parenClose → Fields right.spaced fs spaced →
    Operand (depth + 1) vars (left :: ps ++ right :: fs) .executable spaced vars'

/-- Operands separated by white space. A command is of the class of its first operand. -/
inductive Command : Nat → List String → List Piece → OperandClass → List String → Prop
  | last {depth : Nat} {vars vars' : List String} {ps : List Piece} {c : OperandClass}
    {spaced : Bool} : Operand depth vars ps c spaced vars' → Command depth vars ps c vars'
  | more {depth : Nat} {vars vars' vars'' : List String} {ps qs : List Piece}
    {c d : OperandClass} : Operand depth vars ps c true vars' → Command depth vars' qs d vars'' →
    Command depth vars (ps ++ qs) c vars''

/-- The commands behind the first one, each of which can be run, and a last bar that may stand
behind them. -/
inductive Stages : Nat → List String → List Piece → List String → Prop
  | nil {depth : Nat} {vars : List String} : Stages depth vars [] vars
  | bar {depth : Nat} {vars : List String} {bar : Piece} : bar.kind = .pipe →
    Stages depth vars [bar] vars
  | cons {depth : Nat} {vars vars' vars'' : List String} {bar : Piece} {ps qs : List Piece} :
    bar.kind = .pipe → Command depth vars ps .executable vars' → Stages depth vars' qs vars'' →
    Stages depth vars (bar :: ps ++ qs) vars''

/-- A pipeline, which may be the header of a loop. -/
inductive Pipeline : Nat → Bool → List String → List Piece → List String → Prop
  | mk {depth : Nat} {inRange : Bool} {vars vars₁ vars₂ vars₃ : List String}
    {ds ps qs : List Piece} {c : OperandClass} :
    Declares inRange vars (ps.head?.map Piece.kind) ds vars₁ → Command depth vars₁ ps c vars₂ →
    c ≠ .nil → Stages depth vars₂ qs vars₃ → Pipeline depth inRange vars (ds ++ ps ++ qs) vars₃

end

/-- The pipeline of an action. -/
abbrev Header (inRange : Bool) (vars : List String) (ps : List Piece) (vars' : List String) :
    Prop := Pipeline Parser.maxDepth inRange vars ps vars'

/-! ### Items -/

/-- The start of an action with a word. -/
def Opens (word : Keyword) (ps : List Piece) : Prop :=
  ∃ left w : Piece, ps = [left, w] ∧ left.kind = .leftDelim ∧ w.kind = .keyword word

/-- An action that is a word. -/
def Marks (word : Keyword) (ps : List Piece) : Prop :=
  ∃ left w right : Piece, ps = [left, w, right] ∧ left.kind = .leftDelim ∧
    w.kind = .keyword word ∧ right.kind = .rightDelim

mutual

/-- An item, inside of a loop or not. -/
inductive Item : Bool → List String → List Piece → List String → Prop
  | text {inLoop : Bool} {vars : List String} {p : Piece} : p.kind = .text →
    Item inLoop vars [p] vars
  | comment {inLoop : Bool} {vars : List String} {p : Piece} : p.kind = .comment →
    Item inLoop vars [p] vars
  | action {inLoop : Bool} {vars vars' : List String} {left right : Piece} {ps : List Piece} :
    left.kind = .leftDelim → Header false vars ps vars' → right.kind = .rightDelim →
    Item inLoop vars (left :: ps ++ [right]) vars'
  | guarded {inLoop : Bool} {vars : List String} {kind : Control} {start ps : List Piece} :
    Opens kind.word start → Guarded inLoop kind vars ps → Item inLoop vars (start ++ ps) vars
  | block {inLoop : Bool} {vars vars' vars'' : List String} {start ps qs close : List Piece}
    {name right : Piece} : Opens .blockWord start → name.Names → Header false vars ps vars' →
    right.kind = .rightDelim → Items false ["$"] qs vars'' → Marks .endWord close →
    Item inLoop vars (start ++ name :: ps ++ right :: qs ++ close) vars'
  | call {inLoop : Bool} {vars : List String} {start : List Piece} {name right : Piece} :
    Opens .templateWord start → name.Names → right.kind = .rightDelim →
    Item inLoop vars (start ++ [name, right]) vars
  | callWith {inLoop : Bool} {vars vars' : List String} {start ps : List Piece}
    {name right : Piece} : Opens .templateWord start → name.Names → Header false vars ps vars' →
    right.kind = .rightDelim → Item inLoop vars (start ++ name :: ps ++ [right]) vars'
  | breaks {vars : List String} {ps : List Piece} : Marks .breakWord ps → Item true vars ps vars
  | continues {vars : List String} {ps : List Piece} : Marks .continueWord ps →
    Item true vars ps vars

/-- What follows the word of a condition, of a binding or of a loop. -/
inductive Guarded : Bool → Control → List String → List Piece → Prop
  | mk {inLoop : Bool} {kind : Control} {vars vars' vars'' : List String} {right : Piece}
    {ps qs rs : List Piece} : Header (kind = .rangeBlock) vars ps vars' →
    right.kind = .rightDelim → Items (inLoop || kind = .rangeBlock) vars' qs vars'' →
    Tail inLoop kind vars'' rs → Guarded inLoop kind vars (ps ++ right :: qs ++ rs)

/-- The end of a block, with the else branch in front of it. -/
inductive Tail : Bool → Control → List String → List Piece → Prop
  | close {inLoop : Bool} {kind : Control} {vars : List String} {close : List Piece} :
    Marks .endWord close → Tail inLoop kind vars close
  | otherwise {inLoop : Bool} {kind : Control} {vars vars' : List String}
    {start ps close : List Piece} : Marks .elseWord start → Items inLoop vars ps vars' →
    Marks .endWord close → Tail inLoop kind vars (start ++ ps ++ close)
  | chained {inLoop : Bool} {kind : Control} {vars : List String} {start ps : List Piece}
    {w : Piece} : kind ≠ .rangeBlock → Opens .elseWord start → w.kind = .keyword kind.word →
    Guarded inLoop kind vars ps → Tail inLoop kind vars (start ++ w :: ps)

/-- Items one after the other. -/
inductive Items : Bool → List String → List Piece → List String → Prop
  | nil {inLoop : Bool} {vars : List String} : Items inLoop vars [] vars
  | cons {inLoop : Bool} {vars vars' vars'' : List String} {ps qs : List Piece} :
    Item inLoop vars ps vars' → Items inLoop vars' qs vars'' →
    Items inLoop vars (ps ++ qs) vars''

end

/-- The definition of a template, which stands at the top of a template only. -/
inductive Definition : List Piece → Prop
  | mk {start ps close : List Piece} {name right : Piece} {vars : List String} :
    Opens .defineWord start → name.Names → right.kind = .rightDelim → Items false ["$"] ps vars →
    Marks .endWord close → Definition (start ++ name :: right :: ps ++ close)

/-- Definitions and items. -/
inductive Root : List String → List Piece → Prop
  | nil {vars : List String} : Root vars []
  | definition {vars : List String} {ps qs : List Piece} : Definition ps → Root vars qs →
    Root vars (ps ++ qs)
  | item {vars vars' : List String} {ps qs : List Piece} : Item false vars ps vars' →
    Root vars' qs → Root vars (ps ++ qs)

end Grammar

end AlertAudit.Template
