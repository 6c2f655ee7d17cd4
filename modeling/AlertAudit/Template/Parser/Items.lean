import AlertAudit.Template.Parser.Pipeline

/-!
The items of a template: text, comments and actions. Some actions hold a list of items up to their
end; `Bodies` are the parsers for such lists and for the blocks in them, one level further in.
-/

set_option autoImplicit false

namespace AlertAudit.Template.Parser

/-- How a list of items ended. -/
inductive ListEnd where
  /-- In front of an end action. -/
  | atEnd
  /-- In front of an else action. -/
  | atElse
  /-- At the end of the input, or with an error. -/
  | stopped
  deriving DecidableEq, Repr

/-- Parsers for what stands inside of a block. -/
structure Bodies where
  /-- The items up to the action that closes or divides the block. -/
  list : Parser ListEnd
  /-- A block that starts at its word: the left delimiter may have been taken. -/
  control : Control → Parser Unit

/-- The kind of the second token if the next one opens an action. -/
def actionWord : Parser (Option TokenKind) := do
  if (← current) = some .leftDelim then second else return none

def endAction : Parser Unit :=
  node .endAction do
    bump
    bump
    let _ ← expect .rightDelim .endAction

/-- The word with which a block inside an else action would start. -/
def startsNested (kind : Option TokenKind) : Bool :=
  kind = some (.keyword .ifWord) || kind = some (.keyword .withWord)

/-- An else action without a block that it belongs to. -/
def strayElse : Parser Unit :=
  node .elseBranch do
    bump
    bump
    unless startsNested (← current) do
      let _ ← expect .rightDelim .elseAction

/-- The block that may follow the word `else` and shares the end of the block around it. -/
def chained? : Control → Option TokenKind → Option Control
  | .ifBlock, some (.keyword .ifWord) => some .ifBlock
  | .withBlock, some (.keyword .withWord) => some .withBlock
  | _, _ => none

/-- An else action with its list, and the end of the block. -/
def elseBranch (bodies : Bodies) (kind : Control) : Parser Unit := do
  let listEnd ← node .elseBranch do
    bump
    bump
    match chained? kind (← current) with
    | some nested =>
      bodies.control nested
      return .stopped
    | none =>
      unless startsNested (← current) do
        let _ ← expect .rightDelim .elseAction
      if ← failed then return .stopped
      bodies.list
  match listEnd with
  | .atEnd => endAction
  | .atElse =>
    strayElse
    fail .secondElse
  | .stopped => return

/-- A block with a header, a list and an optional else branch. -/
def control (bodies : Bodies) (kind : Control) : Parser Unit :=
  keepingVars <| node (.control kind) do
    let _ ← eat .leftDelim
    bump
    actionPipeline (.header kind)
    let _ ← eat .rightDelim
    let listEnd ← if kind = .rangeBlock then inLoop bodies.list else bodies.list
    match listEnd with
    | .atEnd => endAction
    | .atElse => elseBranch bodies kind
    | .stopped => return

def templateName (context : Context) : Parser Unit := do
  if ← failed then return
  unless (← current).any (·.namesTemplate) do
    unexpected context
    return
  unless (Literal.unquote (← currentText)).isSome do fail .invalidString
  bump

/-- The body of a named template, with its end. -/
def templateBody (bodies : Bodies) (context : Context) : Parser Unit := do
  if ← failed then return
  isolated do
    match ← bodies.list with
    | .atEnd => endAction
    | .atElse =>
      strayElse
      fail (.elseInBody context)
    | .stopped => return

def define (bodies : Bodies) : Parser Unit :=
  node .define do
    bump
    bump
    templateName .defineClause
    let _ ← expect .rightDelim .defineClause
    templateBody bodies .defineClause

/-- A template that is defined and called at once. -/
def block (bodies : Bodies) : Parser Unit :=
  node .block do
    bump
    bump
    templateName .blockClause
    actionPipeline .blockClause
    let _ ← eat .rightDelim
    templateBody bodies .blockClause

/-- A call of a template, with an optional argument. -/
def call : Parser Unit :=
  node .call do
    bump
    bump
    templateName .templateClause
    unless ← failed do
      unless (← current) = some .rightDelim do actionPipeline .templateClause
    let _ ← eat .rightDelim

/-- An action that leaves or repeats a loop. -/
def loopAction (kind : NodeKind) (context : Context) : Parser Unit :=
  node kind do
    bump
    bump
    if ← expect .rightDelim context then
      if (← get).loops = 0 then fail (.outsideLoop context)

/-- An action, by the word behind its left delimiter. -/
def action (bodies : Bodies) : Parser Unit := do
  match ← second with
  | some (.keyword .ifWord) => bodies.control .ifBlock
  | some (.keyword .withWord) => bodies.control .withBlock
  | some (.keyword .rangeWord) => bodies.control .rangeBlock
  | some (.keyword .blockWord) => block bodies
  | some (.keyword .templateWord) => call
  | some (.keyword .breakWord) => loopAction .breakLoop .breakAction
  | some (.keyword .continueWord) => loopAction .continueLoop .continueAction
  | _ =>
    node .action do
      bump
      actionPipeline .command
      let _ ← eat .rightDelim

def item (bodies : Bodies) : Parser Unit := do
  match ← current with
  | some .text => bump
  | some .comment => node .comment bump
  | some .leftDelim => action bodies
  | _ => unexpected .input

/-- Items up to the end or else action that closes them, which stays in the input. -/
def list (bodies : Bodies) : Parser ListEnd :=
  node .list (iterate (fun _ ↦ do
    if ← stopped then
      fail .listNotClosed
      return (false, .stopped)
    match ← actionWord with
    | some (.keyword .endWord) => return (false, .atEnd)
    | some (.keyword .elseWord) => return (false, .atElse)
    | _ =>
      item bodies
      return (true, .stopped)) .stopped)

/-- The parsers for bodies in which blocks nest to the given depth. -/
def bodiesTo : Nat → Bodies
  | 0 => ⟨do fail .listNotClosed; return .stopped, fun _ ↦ fail .listNotClosed⟩
  | depth + 1 => ⟨list (bodiesTo depth), control (bodiesTo depth)⟩

/-- A whole template. What cannot be parsed ends up in an error node at its end. -/
def root (bodies : Bodies) : Parser Unit :=
  node .root do
    iterate (fun _ ↦ do
      if ← stopped then return (false, ())
      match ← actionWord with
      | some (.keyword .defineWord) =>
        define bodies
        return (true, ())
      | some (.keyword .endWord) =>
        endAction
        fail .unexpectedEnd
        return (false, ())
      | some (.keyword .elseWord) =>
        strayElse
        fail .unexpectedElse
        return (false, ())
      | _ =>
        item bodies
        return (true, ())) ()
    takeRest

end AlertAudit.Template.Parser

namespace AlertAudit.Template

/-- The variables with which an alert template starts. -/
def prelude : List String := ["$", "$labels", "$externalLabels", "$externalURL", "$value"]

/-- The tree of a template and the error that stopped the parser. -/
structure Parse where
  tree : Tree
  error : Option ParseError

/-- Parses a template. Every block takes a token, so the number of tokens bounds their nesting. -/
def Parse.ofText (text : String) : Parse :=
  let scanned := Tokens.ofText text
  let start : Parser.State :=
    { rest := scanned.tokens, stop := text.utf8ByteSize, scanError := scanned.error,
      vars := prelude }
  let (_, final) := Parser.root (Parser.bodiesTo (scanned.tokens.length + 1)) start
  ⟨final.built.headD (.node .root []), final.error⟩

end AlertAudit.Template
