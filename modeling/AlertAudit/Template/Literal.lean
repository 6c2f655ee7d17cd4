import AlertAudit.Text.Digits

/-!
String and character literals of templates. `unquote` decodes a literal with its quotes: between
double quotes escapes stand for characters, between back quotes everything stands for itself and
carriage returns vanish. `isCharConstant` accepts single quotes around exactly one character.
-/

set_option autoImplicit false

namespace AlertAudit.Template.Literal

open AlertAudit.Text

/-- The escapes that have a name. -/
def named? : Char → Option Char
  | 'a' => some '\x07'
  | 'b' => some '\x08'
  | 'f' => some '\x0c'
  | 'n' => some '\n'
  | 'r' => some '\r'
  | 't' => some '\t'
  | 'v' => some '\x0b'
  | '\\' => some '\\'
  | _ => none

/-- Reads what follows a backslash inside `quote`: the character it stands for and the rest. -/
def unescape (quote : Char) : List Char → Option (Char × List Char)
  | [] => none
  | c :: cs =>
    match named? c with
    | some decoded => some (decoded, cs)
    | none =>
      if c = quote then some (c, cs)
      else if c = 'x' then coded 16 2 255 cs
      else if c = 'u' then coded 16 4 0x10FFFF cs
      else if c = 'U' then coded 16 8 0x10FFFF cs
      else if (digit? 8 c).isSome then coded 8 3 255 (c :: cs)
      else none
where
  /-- A character given by a fixed number of digits, at most `limit`. -/
  coded (base count limit : Nat) (cs : List Char) : Option (Char × List Char) := do
    let (value, rest) ← number? base count 0 cs
    if value ≤ limit then return (← char? value, rest) else none

theorem length_of_coded {base count limit : Nat} {cs rest : List Char} {c : Char}
    (h : unescape.coded base count limit cs = some (c, rest)) : rest.length ≤ cs.length := by
  simp only [unescape.coded, Option.bind_eq_bind, Option.bind_eq_some_iff] at h
  obtain ⟨⟨value, tail⟩, hn, h⟩ := h
  split at h
  · simp only [Option.bind_eq_some_iff, Option.pure_def, Option.some.injEq, Prod.mk.injEq] at h
    obtain ⟨_, _, _, rfl⟩ := h
    exact length_of_number? hn
  · exact absurd h (by simp)

theorem length_of_unescape {quote c : Char} {cs rest : List Char}
    (h : unescape quote cs = some (c, rest)) : rest.length ≤ cs.length := by
  cases cs with
  | nil => simp [unescape] at h
  | cons d tail =>
    simp only [unescape] at h
    split at h
    · simp only [Option.some.injEq, Prod.mk.injEq] at h
      simp [← h.2]
    · have short : ∀ {x y : List Char}, x.length ≤ tail.length → x.length ≤ (d :: tail).length := by
        intro x _ hx
        simp only [List.length_cons]
        omega
      repeat' split at h
      · simp only [Option.some.injEq, Prod.mk.injEq] at h
        simp [← h.2]
      · exact short (length_of_coded h) (y := [])
      · exact short (length_of_coded h) (y := [])
      · exact short (length_of_coded h) (y := [])
      · exact length_of_coded h
      · exact absurd h (by simp)

/-- Decodes the inside of a double-quoted literal. -/
def decode (cs : List Char) : Option (List Char) :=
  match cs with
  | [] => some []
  | '\\' :: rest =>
    match _h : unescape '"' rest with
    | some (c, tail) => (decode tail).map (c :: ·)
    | none => none
  | c :: rest => if c = '"' ∨ c = '\n' then none else (decode rest).map (c :: ·)
termination_by cs.length
decreasing_by
  · have := length_of_unescape _h
    simp only [List.length_cons]
    omega
  · simp

/-- The text between a leading and a trailing `quote`. -/
def between? (quote : Char) : List Char → Option (List Char)
  | [] => none
  | c :: cs =>
    if c = quote then
      match cs.getLast? with
      | some d => if d = quote then some cs.dropLast else none
      | none => none
    else none

def unquote (text : String) : Option String :=
  match text.toList with
  | '`' :: cs => (between? '`' ('`' :: cs)).map fun body ↦ String.ofList (body.filter (· ≠ '\r'))
  | cs => do
    let body ← between? '"' cs
    let decoded ← decode body
    return String.ofList decoded

/-- Whether a literal with its single quotes holds exactly one character. -/
def isCharConstant (text : String) : Bool :=
  match between? '\'' text.toList with
  | none => false
  | some [] => false
  | some ('\\' :: rest) =>
    match unescape '\'' rest with
    | some (_, []) => true
    | _ => false
  | some (c :: rest) => c ≠ '\'' && rest.isEmpty

end AlertAudit.Template.Literal
