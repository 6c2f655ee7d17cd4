import AlertAudit.Decimal.Binary64

/-!
The shortest decimal that reads back as a double. A number `m * 2 ^ e` is the reading of every
decimal in an interval around it whose ends belong to it when `m` is even. For 1, 2, … 17 digits
the two neighbours of the number on the grid of that many digits are tried; of two hits the nearer
one counts, and of two equally near ones the even one.

Positional notation is used from `0.00001` up to below `10 ^ 16`, with a digit on each side of the
point; beyond that one digit stands before the point and the exponent is marked with `e`.
-/

set_option autoImplicit false

namespace AlertAudit.Decimal

/-- The interval of the decimals that read as `m * 2 ^ e`, in units of `2 ^ (e - 2)`. Below a power
of two the numbers lie closer together. -/
def readingInterval (m : Nat) (e : Int) : Nat × Nat :=
  let below := if m = Nat.pow 2 52 ∧ Binary64.minExponent < e then 1 else 2
  (4 * m - below, 4 * m + 2)

/-- The power of ten of the leading digit of a positive quotient. -/
def magnitude (num den : Nat) : Int :=
  let guess : Int := ((Nat.toDigits 10 num).length : Int) - (Nat.toDigits 10 den).length
  let (n, d) := scaled 10 den guess
  if n ≤ num * d then guess else guess - 1

/-- Tries `count` digits: a whole number and a power of ten. -/
def ofDigitCount? (m : Nat) (e : Int) (count : Nat) : Option (Nat × Int) :=
  let (num, den) := scaled 2 m e
  let grid := magnitude num den - count + 1
  let (a, b) := scaled 10 1 grid
  -- the number in units of the grid
  let (num, den) := (num * b, den * a)
  let floor := num / den
  let (low, high) := readingInterval m e
  let (p, q) := scaled 2 1 (e - 2)
  let even := m % 2 = 0
  let hits (c : Nat) : Bool :=
    let x := c * a * q
    let l := low * p * b
    let h := high * p * b
    if even then l ≤ x && x ≤ h else l < x && x < h
  -- twice the distance to the lower neighbour, in units of the grid
  let twice := 2 * (num - floor * den)
  match hits floor, hits (floor + 1) with
  | true, true =>
    if twice < den then some (floor, grid)
    else if den < twice then some (floor + 1, grid)
    else some (floor + floor % 2, grid)
  | true, false => some (floor, grid)
  | false, true => some (floor + 1, grid)
  | false, false => none

/-- A whole number without its trailing zeros, and their count; `fuel` bounds it. -/
def dropZeros : Nat → Nat → Int → Nat × Int
  | 0, n, e => (n, e)
  | fuel + 1, n, e => if n ≠ 0 ∧ n % 10 = 0 then dropZeros fuel (n / 10) (e + 1) else (n, e)

/-- The digits of the shortest decimal that reads as `m * 2 ^ e`, and the power of ten to multiply
them with. -/
def shortest (m : Nat) (e : Int) : Nat × Int :=
  let found := (List.range 17).findSome? fun n ↦ ofDigitCount? m e (n + 1)
  let (n, exponent) := found.getD (m, e)
  dropZeros 18 n exponent

/-- The decimal `digits * 10 ^ exponent` in writing. -/
def layout (digits : Nat) (exponent : Int) : List Char :=
  let ds := Nat.toDigits 10 digits
  let point : Int := ds.length + exponent
  let zeros (n : Int) : List Char := List.replicate n.toNat '0'
  if 0 ≤ exponent ∧ point ≤ 16 then ds ++ zeros exponent ++ ['.', '0']
  else if 0 < point ∧ point ≤ 16 then ds.take point.toNat ++ '.' :: ds.drop point.toNat
  else if -5 < point ∧ point ≤ 0 then ['0', '.'] ++ zeros (-point) ++ ds
  else
    let fraction := ds.drop 1
    ds.take 1 ++ (if fraction.isEmpty then [] else '.' :: fraction) ++
      'e' :: (toString (point - 1)).toList

/-- A number in writing; infinities and NaN have a leading point. -/
def Binary64.toText : Binary64 → String
  | .nan => ".nan"
  | .infinite false => ".inf"
  | .infinite true => "-.inf"
  | .finite negative m e =>
    let sign := if negative then ['-'] else []
    if m = 0 then String.ofList (sign ++ ['0', '.', '0'])
    else
      let (digits, exponent) := shortest m e
      String.ofList (sign ++ layout digits exponent)

end AlertAudit.Decimal
