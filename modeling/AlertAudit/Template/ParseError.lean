import AlertAudit.Template.Kind
import AlertAudit.Template.ScanError
import AlertAudit.Text.Span

/-!
Why a template is rejected, and where. Each reason is a case of `Cause`; `Cause.message` is the
one place that words it.
-/

set_option autoImplicit false

namespace AlertAudit.Template

open AlertAudit.Text

/-- The part of a template in which something stands. -/
inductive Context where
  | input | command | operand | parenthesized
  | header (kind : Control)
  | elseAction | endAction
  | defineClause | blockClause | templateClause
  | breakAction | continueAction
  deriving DecidableEq, Repr

/-- A token as it is named when it stands in the wrong place. -/
inductive Found where
  | endOfInput
  /-- A reserved word or the dot. -/
  | word (text : String)
  /-- Any other token. -/
  | piece (text : String)
  deriving DecidableEq, Repr

/-- The reasons for which a template is rejected. -/
inductive Cause where
  | scan (error : ScanError)
  | unexpected (found : Found) (context : Context)
  | unexpectedEnd
  | unexpectedElse
  | elseInBody (context : Context)
  | secondElse
  | listNotClosed
  | invalidString
  | outsideLoop (context : Context)
  | missingValue (context : Context)
  | nilCommand
  /-- A stage, counted from one, that is neither a call nor a read. -/
  | notExecutable (stage : Nat)
  | tooManyDeclarations (context : Context)
  | rangeDeclaration
  | undefinedFunction (name : String)
  | undefinedVariable (name : String)
  | malformedChar (text : String)
  | fieldAfterTerm (text : String)
  | tooDeep
  deriving DecidableEq, Repr

def Context.text : Context → String
  | .input => "input"
  | .command => "command"
  | .operand => "operand"
  | .parenthesized => "parenthesized pipeline"
  | .header .ifBlock => "if"
  | .header .withBlock => "with"
  | .header .rangeBlock => "range"
  | .elseAction => "else"
  | .endAction => "end"
  | .defineClause => "define clause"
  | .blockClause => "block clause"
  | .templateClause => "template clause"
  | .breakAction => "\x7b\x7bbreak\x7d\x7d"
  | .continueAction => "\x7b\x7bcontinue\x7d\x7d"

/-- Pieces of more than ten characters are cut. -/
def Found.text : Found → String
  | .endOfInput => "EOF"
  | .word text => "<" ++ text ++ ">"
  | .piece text =>
    if text.length > 10 then quoted (String.ofList (text.toList.take 10)) ++ "..." else quoted text

def Cause.message : Cause → String
  | .scan error => error.message
  | .unexpected found context => "unexpected " ++ found.text ++ " in " ++ context.text
  | .unexpectedEnd => "unexpected \x7b\x7bend\x7d\x7d"
  | .unexpectedElse => "unexpected \x7b\x7belse\x7d\x7d"
  | .elseInBody context => "unexpected \x7b\x7belse\x7d\x7d in " ++ context.text
  | .secondElse => "expected end; found \x7b\x7belse\x7d\x7d"
  | .listNotClosed => "unexpected EOF"
  | .invalidString => "invalid syntax"
  | .outsideLoop context => context.text ++ " outside \x7b\x7brange\x7d\x7d"
  | .missingValue context => "missing value for " ++ context.text
  | .nilCommand => "nil is not a command"
  | .notExecutable stage => "non executable command in pipeline stage " ++ toString stage
  | .tooManyDeclarations context => "too many declarations in " ++ context.text
  | .rangeDeclaration => "range can only initialize variables"
  | .undefinedFunction name => "function " ++ quoted name ++ " not defined"
  | .undefinedVariable name => "undefined variable " ++ quoted name
  | .malformedChar text => "malformed character constant: " ++ text
  | .fieldAfterTerm text => "unexpected . after term " ++ quoted text
  | .tooDeep => "max expression depth exceeded"

/-- A reason and the token at which it arose. -/
structure ParseError where
  cause : Cause
  span : Span
  deriving DecidableEq, Repr

def ParseError.message (e : ParseError) : String := e.cause.message

end AlertAudit.Template
