import AlertAudit.Text.Digits
import AlertAudit.Yaml.Cursor

/-!
Scalars in quotes. Between single quotes a doubled quote stands for a quote and all else for
itself. Between double quotes a backslash begins an escape, which at the end of a line joins that
line with the next. Gaps with line breaks fold in both.
-/

set_option autoImplicit false

namespace AlertAudit.Yaml

open AlertAudit.Text

inductive Quote where
  | single
  | double
  deriving DecidableEq, Repr

/-- The character that opens and closes a scalar. -/
def Quote.mark : Quote → Char
  | .single => '\''
  | .double => '"'

namespace Quoted

/-- The escapes of one letter. -/
def named? : Char → Option Char
  | '0' => some '\x00'
  | 'a' => some '\x07'
  | 'b' => some '\x08'
  | 't' => some '\t'
  | '\t' => some '\t'
  | 'n' => some '\n'
  | 'v' => some '\x0b'
  | 'f' => some '\x0c'
  | 'r' => some '\r'
  | 'e' => some '\x1b'
  | ' ' => some ' '
  | '"' => some '"'
  | '/' => some '/'
  | '\\' => some '\\'
  | 'N' => some '\u0085'
  | '_' => some '\u00a0'
  | 'L' => some '\u2028'
  | 'P' => some '\u2029'
  | _ => none

/-- The number of digits behind an escape that gives a code point. -/
def digitCount? : Char → Option Nat
  | 'x' => some 2
  | 'u' => some 4
  | 'U' => some 8
  | _ => none

/-- Reads what follows a backslash: the character it stands for and the rest. -/
def unescape : List Char → Option (Char × List Char)
  | [] => none
  | c :: cs =>
    match named? c with
    | some decoded => some (decoded, cs)
    | none => do
      let (value, rest) ← number? 16 (← digitCount? c) 0 cs
      return (← char? value, rest)

theorem length_of_unescape {cs rest : List Char} {c : Char} (h : unescape cs = some (c, rest)) :
    rest.length < cs.length := by
  cases cs with
  | nil => simp [unescape] at h
  | cons d tail =>
    simp only [unescape] at h
    split at h
    · simp only [Option.some.injEq, Prod.mk.injEq] at h
      simp [← h.2]
    · simp only [Option.bind_eq_bind, Option.bind_eq_some_iff, Option.pure_def, Option.some.injEq,
        Prod.mk.injEq, Prod.exists] at h
      obtain ⟨_, _, value, r, hn, _, _, _, rfl⟩ := h
      have := length_of_number? hn
      simp only [List.length_cons]
      omega

/-- Decodes the characters up to the next gap, the closing quote or the end of the text. -/
def singleRun : List Char → List Char × List Char
  | [] => ([], [])
  | '\'' :: '\'' :: cs =>
    let (taken, rest) := singleRun cs
    ('\'' :: taken, rest)
  | c :: cs =>
    if c = '\'' || isSeparator c then ([], c :: cs)
    else
      let (taken, rest) := singleRun cs
      (c :: taken, rest)

/-- Decodes the characters up to the next gap, a backslash that ends its line, the closing quote
or the end of the text. -/
def doubleRun (cs : List Char) : Option (List Char × List Char) :=
  match cs with
  | [] => some ([], [])
  | c :: tail =>
    if c = '"' || isSeparator c then some ([], c :: tail)
    else if c = '\\' then
      if tail.head?.any isBreak then some ([], c :: tail)
      else
        match _h : unescape tail with
        | none => none
        | some (decoded, rest) => (doubleRun rest).map fun (taken, r) ↦ (decoded :: taken, r)
    else (doubleRun tail).map fun (taken, r) ↦ (c :: taken, r)
termination_by cs.length
decreasing_by
  · have := length_of_unescape _h
    simp only [List.length_cons]
    omega
  · simp

/-- Decodes the characters up to a place where the scalar ends or its line does. -/
def run : Quote → List Char → Option (List Char × List Char)
  | .single, cs => some (singleRun cs)
  | .double, cs => doubleRun cs

/-- The gap at the front, and what it stands for; behind a backslash only empty lines count. -/
def gap (here : Cursor) : Option (List Char × Cursor) :=
  match here.rest with
  | '\\' :: _ :: cs => (Gap.read 0 cs {} (here.line + 1) 0).map fun (g, next) ↦ (g.breaks, next)
  | cs => (Gap.read 0 cs {} here.line here.column).map fun (g, next) ↦ (g.text, next)

/-- Reads on from a scalar that is `text` so far, up to and with the closing quote. A mark of a
document may not stand inside. -/
def readMore (quote : Quote) (text : List Char) (here : Cursor) : Option (List Char × Cursor) :=
  if here.atDocumentMarker then none
  else
    match run quote here.rest with
    | none => none
    | some (taken, rest) =>
      let stop : Cursor := ⟨rest, here.line, here.column + (here.rest.length - rest.length)⟩
      if rest.head? == some quote.mark then some (text ++ taken, stop.skip 1)
      else
        match gap stop with
        | none => none
        | some (between, next) =>
          if next.rest.length < here.rest.length then readMore quote (text ++ taken ++ between) next
          else none
termination_by here.rest.length

/-- Reads a scalar whose opening quote stands here. -/
def read (quote : Quote) (here : Cursor) : Option (List Char × Cursor) :=
  readMore quote [] (here.skip 1)

end Quoted

end AlertAudit.Yaml
