import AlertAudit.Decimal.Binary64

/-!
Decimal numbers as they are written: digits with an optional point and an optional exponent.
-/

set_option autoImplicit false

namespace AlertAudit.Decimal

/-- The number that a run of decimal digits stands for. -/
def natOfDigits (base : Nat) (value : Char → Nat) (cs : List Char) : Nat :=
  cs.foldl (fun n c ↦ n * base + value c) 0

def digitValue (c : Char) : Nat := c.toNat - '0'.toNat

def hexValue (c : Char) : Nat :=
  if c.isDigit then digitValue c
  else if 'a' ≤ c ∧ c ≤ 'f' then c.toNat - 'a'.toNat + 10
  else c.toNat - 'A'.toNat + 10

def isHexDigit (c : Char) : Bool :=
  c.isDigit || ('a' ≤ c && c ≤ 'f') || ('A' ≤ c && c ≤ 'F')

/-- Reads an exponent: nothing, or a mark, an optional sign and at least one digit. -/
def exponent? : List Char → Option Int
  | [] => some 0
  | mark :: cs =>
    if mark = 'e' || mark = 'E' then
      let (negative, digits) := match cs with
        | '-' :: ds => (true, ds)
        | '+' :: ds => (false, ds)
        | ds => (false, ds)
      if digits.isEmpty || !digits.all Char.isDigit then none
      else
        let n : Int := natOfDigits 10 digitValue digits
        some (if negative then -n else n)
    else none

/-- Reads an unsigned decimal: digits on at least one side of an optional point, and an optional
exponent. The result is a whole number and a power of ten to multiply it with. -/
def unsigned? (cs : List Char) : Option (Nat × Int) :=
  let whole := cs.takeWhile Char.isDigit
  let rest := cs.dropWhile Char.isDigit
  let (fraction, rest) := match rest with
    | '.' :: r => (r.takeWhile Char.isDigit, r.dropWhile Char.isDigit)
    | r => ([], r)
  if whole.isEmpty && fraction.isEmpty then none
  else (exponent? rest).map fun e ↦
    (natOfDigits 10 digitValue (whole ++ fraction), e - fraction.length)

end AlertAudit.Decimal
