import AlertAudit.Query.Expr
import AlertAudit.Query.Token

/-!
Queries as expressions. Operators are grouped by how tightly they bind; what stands behind an
operand (ranges, subqueries, offsets, fixed times) binds tightest. Words that could be operators
are metric names where an operand is expected.
-/

set_option autoImplicit false

namespace AlertAudit.Query

/-- Takes a part of a query from its tokens. -/
abbrev Parser (α : Type) := StateT (List Token) Option α

namespace Parser

open AlertAudit.Decimal

/-- The next token, which stays. -/
def peek : Parser (Option Token) := return (← get).head?

/-- The next token. -/
def advance : Parser Token := do
  match ← get with
  | [] => failure
  | t :: ts =>
    set ts
    return t

/-- Whether the next token is a mark, which is then taken. -/
def takes (m : Mark) : Parser Bool := do
  if (← peek) = some (.mark m) then
    let _ ← advance
    return true
  else
    return false

def expect (m : Mark) : Parser Unit := do
  unless ← takes m do failure

/-- The next token as a keyword, in lower case; empty for other tokens. -/
def keyword : Parser String := do
  match ← peek with
  | some (.word w) => return w.toLower
  | _ => return ""

/-- Whether the next token is a keyword, which is then taken. -/
def takesWord (word : String) : Parser Bool := do
  if (← keyword) = word then
    let _ ← advance
    return true
  else
    return false

def aggregator? (word : String) : Option Aggregator :=
  match word.toLower with
  | "sum" => some .sum
  | "avg" => some .avg
  | "count" => some .count
  | "min" => some .min
  | "max" => some .max
  | "group" => some .group
  | "stddev" => some .stddev
  | "stdvar" => some .stdvar
  | "topk" => some .topk
  | "bottomk" => some .bottomk
  | "count_values" => some .countValues
  | "quantile" => some .quantile
  | _ => none

/-- Keywords that cannot name a metric. -/
def reserved : List String := ["on", "ignoring", "group_left", "group_right", "bool", "atan2"]

/-- A word that can be a label in a list of labels. -/
def isLabel (word : String) : Bool :=
  word.toList.all Token.isAlnum && word.toLower ≠ "without"

def operator? : Option Token → Option BinaryOp
  | some (.mark m) =>
    match m with
    | .plus => some .add
    | .minus => some .sub
    | .star => some .mul
    | .slash => some .div
    | .percent => some .mod
    | .caret => some .pow
    | .equals => some .eq
    | .notEqual => some .ne
    | .less => some .lt
    | .lessEqual => some .le
    | .greater => some .gt
    | .greaterEqual => some .ge
    | _ => none
  | some (.word w) =>
    match w.toLower with
    | "or" => some .or
    | "and" => some .and
    | "unless" => some .unless
    | "atan2" => some .atan2
    | _ => none
  | _ => none

/-- Labels separated by commas, up to a closing parenthesis; a last comma is allowed. -/
def labelsBefore : Nat → List String → Parser (List String)
  | 0, _ => failure
  | fuel + 1, labels => do
    match ← advance with
    | .word w =>
      guard (isLabel w)
      let labels := labels ++ [w]
      if ← takes .parenClose then return labels
      expect .comma
      if ← takes .parenClose then return labels
      labelsBefore fuel labels
    | _ => failure

/-- A list of labels in parentheses. -/
def labels : Parser (List String) := do
  expect .parenOpen
  if ← takes .parenClose then return []
  labelsBefore (← get).length []

/-- The labels of an aggregation, if they come next. -/
def grouping? : Parser (Option Grouping) := do
  if ← takesWord "by" then return some (.by (← labels))
  if ← takesWord "without" then return some (.without (← labels))
  return none

/-- How the series of the operands of an operator are matched. -/
def modifier : Parser Modifier := do
  let returnBool ← takesWord "bool"
  if ← takesWord "on" then group returnBool (.on (← labels))
  else if ← takesWord "ignoring" then group returnBool (.ignoring (← labels))
  else return { returnBool }
where
  /-- The side on which several series may share a partner. -/
  group (returnBool : Bool) (matching : Matching) : Parser Modifier := do
    if ← takesWord "group_left" then
      return { returnBool, matching, group := some (.left (← carried)) }
    if ← takesWord "group_right" then
      return { returnBool, matching, group := some (.right (← carried)) }
    return { returnBool, matching }
  /-- Labels taken over from the other side; they may be left out. -/
  carried : Parser (List String) := do
    if (← peek) = some (.mark .parenOpen) then labels else return []

/-- A length of time: a duration or a number of seconds. -/
def duration : Parser Unit := do
  match ← advance with
  | .duration _ => return
  | .number v => guard v.isFinite
  | _ => failure

/-- A matcher of a label. -/
def matcher : Parser Matcher := do
  let .word name ← advance | failure
  let .mark op ← advance | failure
  let .string value ← advance | failure
  match op with
  | .equal => return ⟨name, .equal, value⟩
  | .notEqual => return ⟨name, .notEqual, value⟩
  | .matches => return ⟨name, .regex (← (Pattern.ofMatcher? value : Option Pattern)), value⟩
  | .notMatches => return ⟨name, .notRegex (← (Pattern.ofMatcher? value : Option Pattern)), value⟩
  | _ => failure

/-- The selector with one more matcher, in the last alternative if there are any. -/
def addMatcher (s : Selector) (m : Matcher) : Selector :=
  match s.alternatives.getLast? with
  | some last => { s with alternatives := s.alternatives.dropLast ++ [last ++ [m]] }
  | none => { s with matchers := s.matchers ++ [m] }

def addAlternative (s : Selector) (m : Matcher) : Selector :=
  let before := if s.matchers.isEmpty then [] else [s.matchers]
  { s with matchers := [], alternatives := s.alternatives ++ before ++ [[m]] }

/-- Further matchers up to the closing brace; a last comma is allowed. -/
def matchersAfter : Nat → Selector → Parser Selector
  | 0, _ => failure
  | fuel + 1, s => do
    match ← advance with
    | .mark .braceClose => return s
    | .mark .comma =>
      if ← takes .braceClose then return s
      matchersAfter fuel (addMatcher s (← matcher))
    | .mark .alternative => matchersAfter fuel (addAlternative s (← matcher))
    | _ => failure

/-- A selector whose metric name, if any, has been taken. -/
def selector (metric : Option String) : Parser Expr := do
  let s : Selector := { metric }
  unless ← takes .braceOpen do return ← Expr.selector? s
  if ← takes .braceClose then return ← Expr.selector? s
  let s := addMatcher s (← matcher)
  Expr.selector? (← matchersAfter (← get).length s)

/-- A fixed time, behind its mark. -/
def fixedTime : Parser Unit := do
  if (← takesWord "start") || (← takesWord "end") then
    expect .parenOpen
    expect .parenClose
  else
    unless ← takes .plus do
      let _ ← takes .minus
    duration

/-- What stands in square brackets behind an expression. -/
def bracketed (e : Expr) : Parser Expr := do
  duration
  if ← takes .bracketClose then return ← Expr.range? e
  expect .colon
  unless ← takes .bracketClose do
    duration
    expect .bracketClose
  Expr.subquery? e

/-- What stands behind an operand. -/
def suffixes : Nat → Expr → Parser Expr
  | 0, _ => failure
  | fuel + 1, e => do
    if ← takes .bracketOpen then suffixes fuel (← bracketed e)
    else if ← takesWord "offset" then
      unless ← takes .plus do
        let _ ← takes .minus
      duration
      suffixes fuel (← e.offset?)
    else if ← takes .at then
      fixedTime
      suffixes fuel (← e.at?)
    else return e

mutual

/-- An expression of operators that bind at least as tightly as `least`. -/
def expr : Nat → Nat → Parser Expr
  | 0, _ => failure
  | fuel + 1, least => do operations fuel least (← unary fuel)

/-- Operators and their right operands behind a left operand. -/
def operations : Nat → Nat → Expr → Parser Expr
  | 0, _, _ => failure
  | fuel + 1, least, lhs => do
    match operator? (← peek) with
    | none => return lhs
    | some op =>
      if op.precedence < least then return lhs
      let _ ← advance
      let m ← modifier
      let rhs ← expr fuel (if op.isRightAssoc then op.precedence else op.precedence + 1)
      operations fuel least (← Expr.binary? op m lhs rhs)

/-- An operand with its sign; only powers bind more tightly than a sign. -/
def unary : Nat → Parser Expr
  | 0 => failure
  | fuel + 1 => do
    if ← takes .plus then expr fuel BinaryOp.pow.precedence
    else if ← takes .minus then
      let e ← expr fuel BinaryOp.pow.precedence
      Expr.neg? e
    else
      let e ← operand fuel
      suffixes (← get).length.succ e

/-- An operand without what stands behind it. -/
def operand : Nat → Parser Expr
  | 0 => failure
  | fuel + 1 => do
    match ← peek with
    | some (.number v) =>
      let _ ← advance
      return .number v
    | some (.duration ms) =>
      let _ ← advance
      return .number (.ofDecimal false ms (-3))
    | some (.string s) =>
      let _ ← advance
      return .string s
    | some (.mark .parenOpen) =>
      let _ ← advance
      let e ← expr fuel 0
      expect .parenClose
      return .paren e
    | some (.mark .braceOpen) => selector none
    | some (.word w) =>
      let _ ← advance
      let next ← peek
      let follow ← keyword
      match aggregator? w with
      | some op =>
        if next = some (.mark .parenOpen) || follow = "by" || follow = "without" then
          let before ← grouping?
          let args ← arguments fuel
          let after ← if before.isNone then grouping? else pure none
          Expr.aggregate? op (before <|> after) args
        else selector w
      | none =>
        if reserved.contains w.toLower then failure
        else if next = some (.mark .parenOpen) then
          let args ← arguments fuel
          Expr.call? w args
        else selector w
    | _ => failure

/-- Arguments in parentheses. -/
def arguments : Nat → Parser (List Expr)
  | 0 => failure
  | fuel + 1 => do
    expect .parenOpen
    if ← takes .parenClose then return []
    argumentsBefore fuel

/-- One or more arguments and the closing parenthesis. -/
def argumentsBefore : Nat → Parser (List Expr)
  | 0 => failure
  | fuel + 1 => do
    let e ← expr fuel 0
    if ← takes .parenClose then return [e]
    expect .comma
    let es ← argumentsBefore fuel
    return e :: es

end

end Parser

/-- The expression of a query; `none` if the query is malformed or ill-typed. Between two tokens
at most six steps go one level down. -/
def Expr.ofText? (text : String) : Option Expr := do
  let tokens ← Token.ofText? text
  match ← (Parser.expr (6 * tokens.length + 6) 0).run tokens with
  | (e, []) => some e
  | _ => none

end AlertAudit.Query
