import AlertAudit.Template.Kind
import AlertAudit.Text.Span

/-!
Lexemes and tokens. A lexeme is a kind with the characters it covers; a token is a lexeme placed
in a text. `place` puts lexemes side by side from a byte offset on, so placed tokens never leave a
gap between them.
-/

set_option autoImplicit false

namespace AlertAudit.Template

open AlertAudit.Text

/-- A piece of a template. -/
structure Lexeme where
  kind : TokenKind
  chars : List Char
  deriving DecidableEq, Repr

/-- A piece of a template and where it starts. -/
structure Token where
  kind : TokenKind
  start : Nat
  text : String
  deriving DecidableEq, Repr

namespace Token

def stop (t : Token) : Nat := t.start + t.text.utf8ByteSize

def span (t : Token) : Span := ⟨t.start, t.stop⟩

def isTrivia (t : Token) : Bool := t.kind.isTrivia

/-- Lexemes as tokens, the first of which starts at `start`. -/
def place (start : Nat) : List Lexeme → List Token
  | [] => []
  | l :: ls =>
    let t : Token := ⟨l.kind, start, String.ofList l.chars⟩
    t :: place t.stop ls

end Token

end AlertAudit.Template
