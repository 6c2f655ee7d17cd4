/-!
Regular expressions of label matchers. Two things matter about one: whether it is well formed, and
whether it matches the empty text, which decides whether a selector selects anything. Expressions
are anchored at both ends before they are read, and a brace that starts no repetition is taken
literally where the expression would be malformed otherwise.
-/

set_option autoImplicit false

namespace AlertAudit.Query

/-- A regular expression, as far as lengths go. -/
inductive Pattern where
  | empty
  /-- One character of some class. -/
  | single
  /-- A condition on the place, and whether it holds in the empty text. -/
  | assertion (holds : Bool)
  | concat (first second : Pattern)
  | choice (first second : Pattern)
  /-- At least `min` times. -/
  | repetition (min : Nat) (body : Pattern)
  /-- A group with a name. -/
  | named (name : List Char) (body : Pattern)
  deriving Repr

namespace Pattern

def matchesEmpty : Pattern → Bool
  | empty => true
  | single => false
  | assertion holds => holds
  | concat a b => a.matchesEmpty && b.matchesEmpty
  | choice a b => a.matchesEmpty || b.matchesEmpty
  | repetition min body => min == 0 || body.matchesEmpty
  | named _ body => body.matchesEmpty

def groupNames : Pattern → List (List Char)
  | concat a b | choice a b => a.groupNames ++ b.groupNames
  | repetition _ body => body.groupNames
  | named name body => name :: body.groupNames
  | _ => []

/-- Marks that have a meaning in patterns. -/
def isMeta (c : Char) : Bool := "\\.+*?()|[]\x7b\x7d^$#&-~".toList.contains c

def isHex (c : Char) : Bool :=
  c.isDigit || ('a' ≤ c && c ≤ 'f') || ('A' ≤ c && c ≤ 'F')

/-- The value of a hexadecimal digit. -/
def hexOf (c : Char) : Nat :=
  if c.isDigit then c.toNat - '0'.toNat
  else if c.isUpper then c.toNat - 'A'.toNat + 10
  else c.toNat - 'a'.toNat + 10

/-- A character by its code point in hexadecimal digits. -/
def codePoint? (digits : List Char) : Option Char :=
  let n := digits.foldl (fun n c ↦ n * 16 + hexOf c) 0
  if digits.isEmpty || !digits.all isHex || digits.length > 8 then none
  else if n.isValidChar then some (Char.ofNat n) else none

/-- Reads a code point of a fixed number of digits, or any number of them in braces. -/
def escapedCodePoint (width : Nat) : List Char → Option (Char × List Char)
  | '{' :: cs =>
    match cs.dropWhile (· ≠ '}') with
    | '}' :: rest => (codePoint? (cs.takeWhile (· ≠ '}'))).map (·, rest)
    | _ => none
  | cs =>
    if cs.length < width then none else (codePoint? (cs.take width)).map (·, cs.drop width)

/-- The character that a letter stands for behind a backslash. -/
def namedEscape? : Char → Option Char
  | 'a' => some '\x07'
  | 'f' => some '\x0c'
  | 't' => some '\t'
  | 'n' => some '\n'
  | 'r' => some '\r'
  | 'v' => some '\x0b'
  | _ => none

/-- What stands behind a backslash: one character, a class of characters or an assertion. -/
inductive Escape where
  | char (c : Char)
  | charClass
  | assertion (holds : Bool)

/-- Reads the name of a class of characters. -/
def className : List Char → Option (List Char)
  | '{' :: cs =>
    let name := cs.takeWhile (· ≠ '}')
    match cs.dropWhile (· ≠ '}') with
    | '}' :: rest =>
      let bare := if name.head? = some '^' then name.drop 1 else name
      let ok := fun c : Char ↦ c.isAlphanum || c = '_' || c = ' ' || c = '-' || c = '=' || c = ':'
      if bare.isEmpty || !bare.all ok then none else some rest
    | _ => none
  | c :: rest => if "CLMNPSZ".toList.contains c then some rest else none
  | [] => none

/-- Reads what stands behind a backslash. -/
def escape : List Char → Option (Escape × List Char)
  | [] => none
  | c :: cs =>
    if "dDsSwW".toList.contains c then some (.charClass, cs)
    else if c = 'p' || c = 'P' then (className cs).map (.charClass, ·)
    else if c = 'x' then (escapedCodePoint 2 cs).map fun r ↦ (.char r.1, r.2)
    else if c = 'u' then (escapedCodePoint 4 cs).map fun r ↦ (.char r.1, r.2)
    else if c = 'U' then (escapedCodePoint 8 cs).map fun r ↦ (.char r.1, r.2)
    else if c = 'A' || c = 'z' then some (.assertion true, cs)
    else if c = 'B' then some (.assertion true, cs)
    else if c = 'b' then
      match cs with
      | '{' :: name =>
        let inner := String.ofList (name.takeWhile (· ≠ '}'))
        let rest := (name.dropWhile (· ≠ '}')).drop 1
        if inner = "start" || inner = "end" then some (.assertion false, rest)
        else if inner = "start-half" || inner = "end-half" then some (.assertion true, rest)
        else some (.assertion false, cs)
      | _ => some (.assertion false, cs)
    else if c = '<' || c = '>' then some (.assertion false, cs)
    else match namedEscape? c with
      | some d => some (.char d, cs)
      | none =>
        if isMeta c || (c.toNat < 0x80 && !c.isAlphanum) then some (.char c, cs) else none

/-- One member of a bracketed class: a character, or `none` for a class. -/
def classItem : List Char → Option (Option Char × List Char)
  | '\\' :: cs =>
    match escape cs with
    | some (.char c, rest) => some (some c, rest)
    | some (.charClass, rest) => some (none, rest)
    | _ => none
  | c :: cs => some (some c, cs)
  | [] => none

/-- The names of the classes that are written inside brackets and colons. -/
def asciiClasses : List String :=
  ["alnum", "alpha", "ascii", "blank", "cntrl", "digit", "graph", "lower", "print", "punct",
    "space", "upper", "word", "xdigit"]

/-- Reads a class such as `[:alpha:]` behind its opening bracket. -/
def asciiClass? : List Char → Option (List Char)
  | ':' :: cs =>
    let cs := if cs.head? = some '^' then cs.drop 1 else cs
    let name := cs.takeWhile (· ≠ ':')
    match cs.dropWhile (· ≠ ':') with
    | ':' :: ']' :: rest =>
      if asciiClasses.contains (String.ofList name) then some rest else none
    | _ => none
  | _ => none

/-- Reads a bracketed class up to its closing bracket; `depth` counts the brackets inside it. The
fuel bounds the number of members. -/
def classBody : Nat → Nat → List Char → Option (List Char)
  | 0, _, _ => none
  | _ + 1, _, [] => none
  | fuel + 1, depth, ']' :: cs => if depth = 0 then some cs else classBody fuel (depth - 1) cs
  | fuel + 1, depth, '[' :: cs =>
    match asciiClass? cs with
    | some rest => classBody fuel depth rest
    | none => classBody fuel (depth + 1) (openClass cs)
  | fuel + 1, depth, '&' :: '&' :: cs => classBody fuel depth cs
  | fuel + 1, depth, '-' :: '-' :: cs => classBody fuel depth cs
  | fuel + 1, depth, '~' :: '~' :: cs => classBody fuel depth cs
  | fuel + 1, depth, c :: cs =>
    match classItem (c :: cs) with
    | none => none
    | some (low, '-' :: next :: rest) =>
      if next = ']' || next = '-' then classBody fuel depth ('-' :: next :: rest)
      else match low, classItem (next :: rest) with
        | some low, some (some high, rest) =>
          if low ≤ high then classBody fuel depth rest else none
        | _, _ => none
    | some (_, rest) => classBody fuel depth rest
where
  /-- What follows the marks that are taken literally at the start of a class. -/
  openClass (cs : List Char) : List Char :=
    let cs := if cs.head? = some '^' then cs.drop 1 else cs
    let dashes := cs.takeWhile (· = '-')
    let rest := cs.dropWhile (· = '-')
    if dashes.isEmpty && rest.head? = some ']' then rest.drop 1 else rest

/-- Reads a bracketed class behind its opening bracket. -/
def bracketed (cs : List Char) : Option (List Char) :=
  classBody (cs.length + 1) 0 (classBody.openClass cs)

/-- Reads a number with white space around it. -/
def count? (cs : List Char) : Option (Nat × List Char) :=
  let cs := cs.dropWhile Char.isWhitespace
  let digits := cs.takeWhile Char.isDigit
  let n := digits.foldl (fun n c ↦ n * 10 + (c.toNat - '0'.toNat)) 0
  if digits.isEmpty || n ≥ Nat.pow 2 32 then none
  else some (n, (cs.dropWhile Char.isDigit).dropWhile Char.isWhitespace)

/-- Reads the bounds of a repetition behind its opening brace; the lower one is the result. -/
def bounds? (cs : List Char) : Option (Nat × List Char) := do
  let (low, rest) ← count? cs
  match rest with
  | '}' :: rest => some (low, rest)
  | ',' :: rest =>
    match rest.dropWhile Char.isWhitespace with
    | '}' :: rest => some (low, rest)
    | _ => do
      let (high, rest) ← count? rest
      match rest with
      | '}' :: rest => if low ≤ high then some (low, rest) else none
      | _ => none
  | _ => none

/-- Drops the mark that makes a repetition prefer few rounds. -/
def dropLazy : List Char → List Char
  | '?' :: cs => cs
  | cs => cs

/-- Applies the repetitions that follow a piece. The fuel bounds their number. -/
def repeated : Nat → Pattern → List Char → Option (Pattern × List Char)
  | 0, _, _ => none
  | fuel + 1, p, cs =>
    match cs with
    | '*' :: cs => repeated fuel (.repetition 0 p) (dropLazy cs)
    | '+' :: cs => repeated fuel (.repetition 1 p) (dropLazy cs)
    | '?' :: cs => repeated fuel (.repetition 0 p) (dropLazy cs)
    | '{' :: cs =>
      match bounds? cs with
      | some (low, rest) => repeated fuel (.repetition low p) (dropLazy rest)
      | none => none
    | cs => some (p, cs)

/-- Reads flags up to the closing parenthesis or a colon. Each may occur once, a minus sign once
and not at the end. -/
def flags? (seen : List Char) (minus last : Bool) : List Char → Option (List Char)
  | ')' :: cs => if last || seen.isEmpty then none else some (')' :: cs)
  | ':' :: cs => if last then none else some (':' :: cs)
  | '-' :: cs => if minus then none else flags? seen true true cs
  | c :: cs =>
    if "imsUuxR".toList.contains c && !seen.contains c then flags? (c :: seen) minus false cs
    else none
  | [] => none

/-- Reads the name of a group up to its closing bracket. -/
def groupName? (cs : List Char) : Option (List Char × List Char) :=
  let name := cs.takeWhile (· ≠ '>')
  let ok := fun c : Char ↦ c.isAlphanum || c = '_' || c = '.' || c = '[' || c = ']'
  match name, cs.dropWhile (· ≠ '>') with
  | first :: _, '>' :: rest =>
    if (first.isAlpha || first = '_') && name.all ok then some (name, rest) else none
  | _, _ => none

/-- How a group opens: with a body to follow, perhaps under a name, or as flags without one. -/
inductive Opening where
  | body
  | namedBody (name : List Char)
  | flags

/-- Reads the opening of a group behind its parenthesis. -/
def opening : List Char → Option (Opening × List Char)
  | '?' :: '<' :: cs => (groupName? cs).map fun (name, rest) ↦ (.namedBody name, rest)
  | '?' :: 'P' :: '<' :: cs => (groupName? cs).map fun (name, rest) ↦ (.namedBody name, rest)
  | '?' :: cs =>
    match flags? [] false false cs with
    | some (':' :: rest) => some (.body, rest)
    | some (')' :: rest) => some (.flags, rest)
    | _ => none
  | cs => some (.body, cs)

mutual

/-- Reads alternatives up to a closing parenthesis or the end. -/
def alternatives : Nat → List Char → Option (Pattern × List Char)
  | 0, _ => none
  | fuel + 1, cs => do
    let (p, rest) ← sequence fuel .empty cs
    match rest with
    | '|' :: rest =>
      let (q, rest) ← alternatives fuel rest
      return (.choice p q, rest)
    | rest => return (p, rest)

/-- Reads pieces one after the other, behind what has been read. -/
def sequence : Nat → Pattern → List Char → Option (Pattern × List Char)
  | 0, _, _ => none
  | fuel + 1, before, cs =>
    match cs with
    | [] => some (before, [])
    | '|' :: _ => some (before, cs)
    | ')' :: _ => some (before, cs)
    | _ => do
      let (p, rest) ← piece fuel cs
      match p with
      | none => sequence fuel before rest
      | some p =>
        let (p, rest) ← repeated fuel p rest
        sequence fuel (.concat before p) rest

/-- Reads one piece; flags are none. -/
def piece : Nat → List Char → Option (Option Pattern × List Char)
  | 0, _ => none
  | _ + 1, [] => none
  | fuel + 1, c :: cs =>
    if c = '(' then do
      match ← opening cs with
      | (.flags, rest) => return (none, rest)
      | (.body, rest) =>
        let (p, rest) ← alternatives fuel rest
        match rest with
        | ')' :: rest => return (some p, rest)
        | _ => none
      | (.namedBody name, rest) =>
        let (p, rest) ← alternatives fuel rest
        match rest with
        | ')' :: rest => return (some (.named name p), rest)
        | _ => none
    else if c = '[' then (bracketed cs).map (some .single, ·)
    else if c = '.' then some (some .single, cs)
    else if c = '^' || c = '$' then some (some (.assertion true), cs)
    else if c = '\\' then
      match escape cs with
      | some (.char _, rest) | some (.charClass, rest) => some (some .single, rest)
      | some (.assertion holds, rest) => some (some (.assertion holds), rest)
      | none => none
    else if c = '*' || c = '+' || c = '?' || c = '{' then none
    else some (some .single, cs)

end

/-- Names that differ from each other. -/
def areDistinct : List (List Char) → Bool
  | [] => true
  | name :: rest => !rest.contains name && areDistinct rest

/-- Reads a whole pattern, in which no two groups have one name. Every step takes a character or
goes one level down. -/
def parse? (cs : List Char) : Option Pattern :=
  match alternatives (4 * cs.length + 4) cs with
  | some (p, []) => if areDistinct p.groupNames then some p else none
  | _ => none

/-- Whether the text behind a brace is the rest of a repetition, and how much of it was looked at
to tell. -/
def boundsPrefix (taken : List Char) (comma : Bool) : List Char → Bool × List Char × List Char
  | [] => (false, taken.reverse, [])
  | c :: cs =>
    let taken' := c :: taken
    if c = ',' then
      if comma || taken.isEmpty then (false, taken'.reverse, cs) else boundsPrefix taken' true cs
    else if c = '}' then (!taken.isEmpty, taken'.reverse, cs)
    else if c.isDigit then boundsPrefix taken' comma cs
    else (false, taken'.reverse, cs)

/-- Escapes the braces that start no repetition. The fuel bounds the number of characters. -/
def escapeBraces : Nat → List Char → List Char
  | 0, _ => []
  | _ + 1, [] => []
  | fuel + 1, '\\' :: c :: cs => '\\' :: c :: escapeBraces fuel cs
  | _ + 1, ['\\'] => []
  | fuel + 1, '{' :: cs =>
    let (ok, taken, rest) := boundsPrefix [] false cs
    (if ok then ['{'] else ['\\', '{']) ++ taken ++ escapeBraces fuel rest
  | fuel + 1, c :: cs => c :: escapeBraces fuel cs

/-- The pattern of a matcher, anchored at both ends. -/
def ofMatcher? (text : String) : Option Pattern :=
  let anchored := ['^', '(', '?', ':'] ++ text.toList ++ [')', '$']
  match parse? anchored with
  | some p => some p
  | none => parse? (escapeBraces anchored.length anchored)

end Pattern

end AlertAudit.Query
