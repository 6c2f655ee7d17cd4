import AlertAudit.Decimal.Notation
import AlertAudit.Decimal.Shortest
import AlertAudit.Text.Digits

/-!
The values of YAML documents, and how scalars become values. Scalars without quotes are null,
truth values, whole numbers or floating-point numbers if they are written like one, and strings
otherwise. A tag that begins with a single exclamation mark is part of the value.
-/

set_option autoImplicit false

namespace AlertAudit.Yaml

open AlertAudit.Decimal

/-- A value of a YAML document. -/
inductive Node where
  | null
  | bool (value : Bool)
  | int (value : Int)
  | float (value : Binary64)
  | string (value : String)
  | sequence (items : List Node)
  | mapping (entries : List (Node × Node))
  | tagged (tag : String) (content : Node)
  deriving Repr, Inhabited

namespace Node

def untagged : Node → Node
  | tagged _ content => content.untagged
  | node => node

/-- Two floating-point numbers that count as one key; zeros do, whatever their signs. -/
def sameFloat : Binary64 → Binary64 → Bool
  | .finite _ 0 _, .finite _ 0 _ => true
  | x, y => x = y

mutual

/-- Two values that count as one key. The order of entries does not matter. -/
def same : Node → Node → Bool
  | null, null => true
  | bool a, bool b => a = b
  | int a, int b => a = b
  | float a, float b => sameFloat a b
  | string a, string b => a = b
  | sequence as, sequence bs => sameItems as bs
  | mapping as, mapping bs => as.length = bs.length && entriesIn as bs
  | tagged s a, tagged t b => s = t && same a b
  | _, _ => false

/-- Two lists of values that count as one key. -/
def sameItems : List Node → List Node → Bool
  | [], [] => true
  | a :: as, b :: bs => same a b && sameItems as bs
  | _, _ => false

/-- Every entry of the first list is in the second one. -/
def entriesIn : List (Node × Node) → List (Node × Node) → Bool
  | [], _ => true
  | (key, value) :: as, bs =>
    bs.any (fun b ↦ same key b.1 && same value b.2) && entriesIn as bs

end

/-- No two entries have the same key. -/
def distinctKeys : List (Node × Node) → Bool
  | [] => true
  | (key, _) :: rest => !rest.any (fun e ↦ same key e.1) && distinctKeys rest

mutual

/-- The number of collections around the deepest value. -/
def depth : Node → Nat
  | sequence items => depthOfItems items + 1
  | mapping entries => depthOfEntries entries + 1
  | tagged _ content => depth content
  | _ => 0

/-- The greatest depth of some values. -/
def depthOfItems : List Node → Nat
  | [] => 0
  | x :: xs => max (depth x) (depthOfItems xs)

/-- The greatest depth of keys and values. -/
def depthOfEntries : List (Node × Node) → Nat
  | [] => 0
  | (key, value) :: rest => max (max (depth key) (depth value)) (depthOfEntries rest)

end

end Node

namespace Scalar

/-- The spellings of null, besides nothing at all. -/
def isNull (s : String) : Bool := ["null", "Null", "NULL", "~"].contains s

/-- The truth values. -/
def bool? (s : String) : Option Bool :=
  if ["true", "True", "TRUE"].contains s then some true
  else if ["false", "False", "FALSE"].contains s then some false
  else none

/-- Digits with a needless zero in front are no number. -/
def isPaddedDigits (cs : List Char) : Bool :=
  let cs := match cs with
    | '-' :: r => r
    | '+' :: r => r
    | r => r
  2 ≤ cs.length && cs.head? == some '0' && cs.all Char.isDigit

/-- Reads digits in a base of at most sixteen, at least one. -/
def digits? (base : Nat) (cs : List Char) : Option Nat :=
  match cs.mapM (Text.digit? base) with
  | some [] => none
  | some ds => some (ds.foldl (fun n d ↦ n * base + d) 0)
  | none => none

/-- Reads a whole number without its sign: in base ten, or in another base that a letter behind a
zero tells. -/
def magnitude? : List Char → Option Nat
  | '0' :: 'x' :: cs => digits? 16 cs
  | '0' :: 'o' :: cs => digits? 8 cs
  | '0' :: 'b' :: cs => digits? 2 cs
  | cs => if isPaddedDigits cs then none else digits? 10 cs

def int? : List Char → Option Int
  | '+' :: cs => (magnitude? cs).map Int.ofNat
  | '-' :: cs => (magnitude? cs).map fun n ↦ -(n : Int)
  | cs => (magnitude? cs).map Int.ofNat

def minInt : Int := -Int.pow 2 63

def maxInt : Int := Int.pow 2 64 - 1

/-- A whole number that needs no more than 128 bits. -/
def isWide (n : Int) : Bool := -Int.pow 2 127 ≤ n && n < Int.pow 2 128

/-- Reads a finite number in decimal notation. -/
def finite? (cs : List Char) : Option Binary64 :=
  let (negative, digits) := match cs with
    | '-' :: r => (true, r)
    | '+' :: r => (false, r)
    | r => (false, r)
  match unsigned? digits with
  | none => none
  | some (n, e) =>
    let x := Binary64.ofDecimal negative n e
    if x.isFinite then some x else none

/-- Reads a floating-point number. -/
def float? (s : String) : Option Binary64 :=
  if [".inf", ".Inf", ".INF", "+.inf", "+.Inf", "+.INF"].contains s then some (.infinite false)
  else if ["-.inf", "-.Inf", "-.INF"].contains s then some (.infinite true)
  else if [".nan", ".NaN", ".NAN"].contains s then some .nan
  else finite? s.toList

/-- The whole number that a scalar is written as: none, a value, or one that is out of range. -/
inductive Whole where
  | missing
  | inRange (value : Int)
  | outOfRange
  deriving DecidableEq, Repr

/-- Reads a whole number. One of more than 128 bits is not taken for one. -/
def whole (s : String) : Whole :=
  match int? s.toList with
  | none => .missing
  | some n =>
    if minInt ≤ n ∧ n ≤ maxInt then .inRange n else if isWide n then .outOfRange else .missing

/-- The value of a scalar without quotes and without a tag. -/
def plain? (s : String) : Option Node :=
  if s.isEmpty || isNull s then some .null
  else
    match bool? s with
    | some b => some (.bool b)
    | none =>
      match whole s with
      | .inRange n => some (.int n)
      | .outOfRange => none
      | .missing =>
        if isPaddedDigits s.toList then some (.string s)
        else some ((float? s).elim (.string s) .float)

/-- The name in a tag that belongs to the value: behind a single exclamation mark, which may also
stand alone. -/
def localName? (tag : String) : Option String :=
  match tag.toList with
  | ['!'] => some "!"
  | '!' :: name => some (String.ofList name)
  | _ => none

/-- The beginning of the tags of the standard types. -/
def coreTag (name : String) : String := "tag:yaml.org,2002:" ++ name

/-- The value of a scalar. -/
def node? (tag : Option String) (plain : Bool) (s : String) : Option Node :=
  match tag with
  | none => if plain then plain? s else some (.string s)
  | some tag =>
    match localName? tag with
    | some name => (if plain then plain? s else some (.string s)).map (.tagged name)
    | none =>
      if tag = coreTag "bool" then (bool? s).map .bool
      else if tag = coreTag "int" then
        match whole s with
        | .inRange n => some (.int n)
        | _ => none
      else if tag = coreTag "float" then (float? s).map .float
      else if tag = coreTag "null" then if isNull s then some .null else none
      else some (.string s)

end Scalar

end AlertAudit.Yaml
