/-!
The kinds of things that a template is made of. Tokens are the smallest pieces of its text, nodes
group them. Each kind has a number, its position in `Kind.all`, and a name under which it is
shown. The three sets of token kinds at the end drive the scanner and the parser.
-/

set_option autoImplicit false

namespace AlertAudit.Template

/-- The reserved words of an action, other than the two truth values. -/
inductive Keyword where
  | ifWord | elseWord | endWord | rangeWord | withWord | defineWord | templateWord | blockWord
  | breakWord | continueWord | nilWord
  deriving DecidableEq, Repr

inductive TokenKind where
  | parenOpen | parenClose | pipe | comma | declare | assign | colon | variable | field | dot
  | number | str | rawStr | charLit
  | keyword (word : Keyword)
  | bool (value : Bool)
  | identifier | whitespace | punct | leftDelim | rightDelim | text | comment
  /-- The rest of a template from where no token could be read. -/
  | lexError
  deriving DecidableEq, Repr

/-- The actions that guard a body: a condition, a binding of the dot, a loop. -/
inductive Control where
  | ifBlock | withBlock | rangeBlock
  deriving DecidableEq, Repr

/-- The kinds of nodes. -/
inductive NodeKind where
  | error | root | list | action | comment
  | control (kind : Control)
  | elseBranch | endAction | define | block | call | breakLoop | continueLoop
  | pipeline | decl | command
  | dot | field | variable | function | paren | literal
  deriving DecidableEq, Repr

/-- A token kind or a node kind. -/
inductive Kind where
  | token (kind : TokenKind)
  | node (kind : NodeKind)
  deriving DecidableEq, Repr

namespace Keyword

/-- The reserved words in the order of their numbers. -/
def all : List Keyword :=
  [.ifWord, .elseWord, .endWord, .rangeWord, .withWord, .defineWord, .templateWord, .blockWord,
    .breakWord, .continueWord, .nilWord]

/-- The word as it is written in a template. -/
def text : Keyword → String
  | .ifWord => "if"
  | .elseWord => "else"
  | .endWord => "end"
  | .rangeWord => "range"
  | .withWord => "with"
  | .defineWord => "define"
  | .templateWord => "template"
  | .blockWord => "block"
  | .breakWord => "break"
  | .continueWord => "continue"
  | .nilWord => "nil"

end Keyword

namespace TokenKind

/-- The token kinds in the order of their numbers. -/
def all : List TokenKind :=
  [.parenOpen, .parenClose, .pipe, .comma, .declare, .assign, .colon, .variable, .field, .dot,
    .number, .str, .rawStr, .charLit] ++ Keyword.all.map .keyword ++
  [.bool true, .bool false, .identifier, .whitespace, .punct, .leftDelim, .rightDelim, .text,
    .comment, .lexError]

/-- The kind of a word: a reserved word, a truth value or a function name. -/
def ofWord (word : String) : TokenKind :=
  if word = "true" then .bool true
  else if word = "false" then .bool false
  else match Keyword.all.find? (·.text = word) with
    | some k => .keyword k
    | none => .identifier

def name : TokenKind → String
  | .parenOpen => "ParenOpen"
  | .parenClose => "ParenClose"
  | .pipe => "Pipe"
  | .comma => "Comma"
  | .declare => "Declare"
  | .assign => "Assign"
  | .colon => "Colon"
  | .variable => "Variable"
  | .field => "Field"
  | .dot => "Dot"
  | .number => "Number"
  | .str => "Str"
  | .rawStr => "RawStr"
  | .charLit => "CharLit"
  | .keyword k => "Kw" ++ k.text.capitalize
  | .bool b => if b then "KwTrue" else "KwFalse"
  | .identifier => "Identifier"
  | .whitespace => "Whitespace"
  | .punct => "Punct"
  | .leftDelim => "LeftDelim"
  | .rightDelim => "RightDelim"
  | .text => "Text"
  | .comment => "Comment"
  | .lexError => "LexError"

/-- White space inside an action, which carries no meaning of its own. -/
def isTrivia (k : TokenKind) : Bool := k = .whitespace

/-- A reserved word. -/
def isKeyword : TokenKind → Bool
  | .keyword _ => true
  | _ => false

def startsOperand : TokenKind → Bool
  | .bool _ | .charLit | .dot | .field | .identifier | .number | .keyword .nilWord | .rawStr | .str
  | .variable | .parenOpen => true
  | _ => false

def namesTemplate : TokenKind → Bool
  | .str | .rawStr => true
  | _ => false

/-- A token that must be followed by a space, a separator or the end of the action. -/
def needsTerminator : TokenKind → Bool
  | .identifier | .field | .variable | .dot | .keyword _ | .bool _ => true
  | _ => false

end TokenKind

namespace NodeKind

/-- The node kinds in the order of their numbers. -/
def all : List NodeKind :=
  [.error, .root, .list, .action, .comment, .control .ifBlock, .control .withBlock,
    .control .rangeBlock, .elseBranch, .endAction, .define, .block, .call, .breakLoop,
    .continueLoop, .pipeline, .decl, .command, .dot, .field, .variable, .function, .paren,
    .literal]

def name : NodeKind → String
  | .error => "Error"
  | .root => "Root"
  | .list => "List"
  | .action => "Action"
  | .comment => "CommentAction"
  | .control .ifBlock => "IfBlock"
  | .control .withBlock => "WithBlock"
  | .control .rangeBlock => "RangeBlock"
  | .elseBranch => "ElseBranch"
  | .endAction => "EndAction"
  | .define => "Define"
  | .block => "Block"
  | .call => "TemplateCall"
  | .breakLoop => "Break"
  | .continueLoop => "Continue"
  | .pipeline => "Pipeline"
  | .decl => "Decl"
  | .command => "Command"
  | .dot => "DotExpr"
  | .field => "FieldExpr"
  | .variable => "VarExpr"
  | .function => "FuncExpr"
  | .paren => "ParenExpr"
  | .literal => "LitExpr"

end NodeKind

namespace Kind

/-- All kinds in the order of their numbers, the token kinds first. -/
def all : List Kind := TokenKind.all.map .token ++ NodeKind.all.map .node

def ofNumber? (n : Nat) : Option Kind := all[n]?

def name : Kind → String
  | .token k => k.name
  | .node k => k.name

/-- Whether a kind is a token kind with property `p`. -/
def isTokenWith (p : TokenKind → Bool) : Kind → Bool
  | .token k => p k
  | .node _ => false

/-- A set of kinds as it is shown: each member once, in the order of their numbers. -/
def showSet (members : List Kind) : String :=
  "\x7b" ++ ", ".intercalate ((all.filter (members.contains ·)).map name) ++ "\x7d"

end Kind

end AlertAudit.Template
