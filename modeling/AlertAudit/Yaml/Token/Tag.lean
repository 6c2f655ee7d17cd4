import AlertAudit.Text.Digits
import AlertAudit.Yaml.Cursor

/-!
Tags as they are written: `!<…>` word for word, `!handle!suffix`, `!suffix` or a lone `!`. In a
suffix a percent sign and two digits stand for one byte of a character.
-/

set_option autoImplicit false

namespace AlertAudit.Yaml.Tag

open AlertAudit.Text

/-- A character of a tag besides the percent sign. Punctuation of flow collections may stand in
tags that are written out in full. -/
def isTagChar (full : Bool) (c : Char) : Bool :=
  isNameChar c || [';', '/', '?', ':', '@', '&', '=', '+', '$', '.', '!', '~', '*', '\'', '(',
    ')'].contains c || (full && [',', '[', ']'].contains c)

/-- Reads one byte written with a percent sign. -/
def byte? : List Char → Option (Nat × List Char)
  | '%' :: cs => number? 16 2 0 cs
  | _ => none

/-- Reads the further bytes of a character. -/
def trailing? : Nat → Nat → List Char → Option (Nat × List Char)
  | 0, value, cs => some (value, cs)
  | count + 1, value, cs => do
    let (byte, rest) ← byte? cs
    if byte / 64 = 2 then trailing? count (value * 64 + byte % 64) rest else none

/-- Reads a character of one to four bytes written with percent signs. -/
def encoded? (cs : List Char) : Option (Char × List Char) := do
  let (first, rest) ← byte? cs
  let (value, rest) ←
    if first < 0x80 then some (first, rest)
    else if first / 32 = 6 then trailing? 1 (first % 32) rest
    else if first / 16 = 14 then trailing? 2 (first % 16) rest
    else if first / 8 = 30 then trailing? 3 (first % 8) rest
    else none
  return (← char? value, rest)

/-- Reads as many characters of a tag as there are; `fuel` bounds their number. -/
def suffix? (full : Bool) : Nat → List Char → Option (List Char × List Char)
  | 0, cs => some ([], cs)
  | fuel + 1, cs =>
    match cs with
    | [] => some ([], [])
    | c :: rest =>
      if c = '%' then do
        let (decoded, rest) ← encoded? cs
        let (more, rest) ← suffix? full fuel rest
        return (decoded :: more, rest)
      else if isTagChar full c then do
        let (more, rest) ← suffix? full fuel rest
        return (c :: more, rest)
      else some ([], cs)

/-- Reads a handle: an exclamation mark, and a name with another one if that follows. The answer is
the name with its marks and the rest. -/
def handle? : List Char → Option (List Char × List Char)
  | '!' :: cs =>
    let name := cs.takeWhile isNameChar
    match cs.dropWhile isNameChar with
    | '!' :: rest => some ('!' :: name ++ ['!'], rest)
    | rest => some ('!' :: name, rest)
  | _ => none

/-- Reads a tag: its handle, its suffix and the rest. The handle of a tag that is written out in
full, and of the lone mark, is empty. -/
def read? (cs : List Char) : Option (String × String × List Char) :=
  match cs with
  | '!' :: '<' :: rest => do
    let (suffix, rest) ← suffix? true rest.length rest
    match suffix, rest with
    | _ :: _, '>' :: rest => return ("", String.ofList suffix, rest)
    | _, _ => none
  | _ => do
    let (handle, rest) ← handle? cs
    let (suffix, rest) ← suffix? false rest.length rest
    if 2 ≤ handle.length ∧ handle.getLast? = some '!' then
      if suffix.isEmpty then none else return (String.ofList handle, String.ofList suffix, rest)
    else
      match handle.drop 1 ++ suffix with
      | [] => return ("", "!", rest)
      | name => return ("!", String.ofList name, rest)

end AlertAudit.Yaml.Tag
