import AlertAudit.Text.Quoted

/-!
Why a template cannot be split into tokens.
-/

set_option autoImplicit false

namespace AlertAudit.Template

open AlertAudit.Text

/-- The reasons for which no token can be read. -/
inductive ScanError where
  | unclosedComment
  | commentNotLast
  | unclosedParen
  | unclosedAction
  | loneColon
  | unexpectedParen
  | badNumber (text : String)
  | unrecognizedChar (c : Char)
  | missingTerminator (c : Char)
  | unterminatedString
  | unterminatedRawString
  | unterminatedChar
  deriving DecidableEq, Repr

def ScanError.message : ScanError → String
  | .unclosedComment => "unclosed comment"
  | .commentNotLast => "comment ends before closing delimiter"
  | .unclosedParen => "unclosed left paren"
  | .unclosedAction => "unclosed action"
  | .loneColon => "expected :="
  | .unexpectedParen => "unexpected right paren"
  | .badNumber text => "bad number syntax: " ++ quoted text
  | .unrecognizedChar c => "unrecognized character in action: " ++ describeChar c
  | .missingTerminator c => "bad character " ++ describeChar c
  | .unterminatedString => "unterminated quoted string"
  | .unterminatedRawString => "unterminated raw quoted string"
  | .unterminatedChar => "unterminated character constant"

end AlertAudit.Template
