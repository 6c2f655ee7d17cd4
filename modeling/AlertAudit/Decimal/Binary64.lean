/-!
Double-precision numbers, exactly. A finite number is a whole number of at most 53 bits times a
power of two; `ofDecimal` is the nearest one to a decimal, ties to the even neighbour, and goes to
infinity where the range ends.
-/

set_option autoImplicit false

namespace AlertAudit.Decimal

/-- A double-precision number; `finite` stands for `mantissa * 2 ^ exponent` with a sign. -/
inductive Binary64 where
  | finite (negative : Bool) (mantissa : Nat) (exponent : Int)
  | infinite (negative : Bool)
  | nan
  deriving DecidableEq, Repr, Inhabited

/-- The quotient rounded to the nearest whole number, a half to the even one. -/
def roundDiv (num den : Nat) : Nat :=
  let quotient := num / den
  let twice := 2 * (num % den)
  if twice < den then quotient
  else if den < twice then quotient + 1
  else quotient + quotient % 2

/-- `n * base ^ e` as a quotient. -/
def scaled (base n : Nat) (e : Int) : Nat × Nat :=
  if 0 ≤ e then (n * base.pow e.toNat, 1) else (n, base.pow (-e).toNat)

namespace Binary64

def minExponent : Int := -1074

/-- The exponent from which on a mantissa of 53 bits is out of range. -/
def overflowExponent : Int := 972

/-- The binary logarithm of a positive quotient, rounded down. -/
def log2Div (num den : Nat) : Int :=
  let guess : Int := (num.log2 : Int) - den.log2
  let (n, d) := scaled 2 den guess
  if n ≤ num * d then guess else guess - 1

/-- The double nearest to a positive quotient. -/
def ofQuotient (negative : Bool) (num den : Nat) : Binary64 :=
  let exponent := max minExponent (log2Div num den - 52)
  let (n, d) := scaled 2 den exponent
  let mantissa := roundDiv (num * d) n
  let (mantissa, exponent) :=
    if mantissa = Nat.pow 2 53 then (Nat.pow 2 52, exponent + 1) else (mantissa, exponent)
  if overflowExponent ≤ exponent then .infinite negative else .finite negative mantissa exponent

/-- The double nearest to `digits * 10 ^ exponent`. -/
def ofDecimal (negative : Bool) (digits : Nat) (exponent : Int) : Binary64 :=
  if digits = 0 then .finite negative 0 minExponent
  else
    -- the order of magnitude decides far outside of the range
    let magnitude : Int := exponent + (Nat.toDigits 10 digits).length
    if 400 < magnitude then .infinite negative
    else if magnitude < -400 then .finite negative 0 minExponent
    else
      let (num, den) := scaled 10 digits exponent
      ofQuotient negative num den

def neg : Binary64 → Binary64
  | finite s m e => finite (!s) m e
  | infinite s => infinite (!s)
  | nan => nan

def isFinite : Binary64 → Bool
  | finite .. => true
  | _ => false

def isPositive : Binary64 → Bool
  | finite s m _ => !s && m != 0
  | infinite s => !s
  | nan => false

end Binary64

end AlertAudit.Decimal
