import AlertAudit.Text.Printable

/-!
Texts shown inside double quotes in messages. The quote and the backslash are escaped, the four
common control characters have names, and every other character that cannot be shown is written
as a code point in braces.
-/

set_option autoImplicit false

namespace AlertAudit.Text

/-- The digits of a number in base sixteen, lower case, at least `width` of them. -/
def hexDigits (width n : Nat) : List Char :=
  let digits := Nat.toDigits 16 n
  List.replicate (width - digits.length) '0' ++ digits

/-- One character as it stands between double quotes. -/
def escapeChar (c : Char) : List Char :=
  if c = '"' then ['\\', '"']
  else if c = '\\' then ['\\', '\\']
  else if c = '\n' then ['\\', 'n']
  else if c = '\r' then ['\\', 'r']
  else if c = '\t' then ['\\', 't']
  else if c = '\x00' then ['\\', '0']
  else if isPrintable c then [c]
  else ['\\', 'u', '{'] ++ hexDigits 1 c.toNat ++ ['}']

def quoted (s : String) : String :=
  String.ofList ('"' :: s.toList.flatMap escapeChar ++ ['"'])

/-- A character by code point and glyph, as in `U+0023 '#'`. -/
def describeChar (c : Char) : String :=
  "U+" ++ String.ofList ((hexDigits 4 c.toNat).map Char.toUpper) ++ " '" ++ String.singleton c ++
    "'"

end AlertAudit.Text
