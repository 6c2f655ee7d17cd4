import AlertAudit.Proofs.Yaml.Quotation
import AlertAudit.Yaml.Token.Scan
import Mathlib.Data.List.Basic

/-!
Block collections written one key a line. A row is a line with a key, behind the dash of a list item
if it begins one, and with a quoted value unless the value is the block below. Which tokens a row
stands for depends only on the columns of the blocks that are open in front of it
(`Row.tokens`, `Row.levels`), so the tokens of a text are put together from those of its rows
(`ofText?_rows`).
-/

set_option autoImplicit false

namespace AlertAudit.Yaml

/-- How a key is written. -/
inductive RowKey where
  | word (text : List Char)
  | quoted (text : List Char)
  deriving DecidableEq, Repr

namespace RowKey

def chars : RowKey → List Char
  | word text => text
  | quoted text => quotation text

/-- What the key says. -/
def text : RowKey → List Char
  | word text => text
  | quoted text => text

def token : RowKey → Token
  | word text => .scalar true (String.ofList text)
  | quoted text => .scalar false (String.ofList text)

/-- A character of a word, which means nothing by itself. -/
def isWordChar (c : Char) : Bool := isAscii c && !Scan.isIndicator c && c ≠ '.'

/-- The characters of a word are ASCII, no indicators and no points. -/
theorem isWordChar_iff {c : Char} :
    isWordChar c ↔ isAscii c ∧ Scan.isIndicator c = false ∧ c ≠ '.' := by
  simp [isWordChar, and_assoc]

/-- No character of a word is an indicator. -/
theorem ne_of_isWordChar {c d : Char} (hc : isWordChar c) (hd : Scan.isIndicator d) : c ≠ d :=
  fun h ↦ Bool.false_ne_true ((isWordChar_iff.mp hc).2.1.symm.trans (h ▸ hd))

/-- The key can be written and is short enough to be taken for one. -/
def Fits : RowKey → Prop
  | word text => text ≠ [] ∧ (∀ c ∈ text, isWordChar c) ∧ text.length ≤ KeyPlace.maxLength
  | quoted text => Printable text ∧ (quotation text).length ≤ KeyPlace.maxLength

/-- A key that fits is not too long. -/
theorem Fits.length_chars_le {key : RowKey} (h : key.Fits) :
    key.chars.length ≤ KeyPlace.maxLength := by
  cases key with
  | word text => exact h.2.2
  | quoted text => exact h.2

/-- A key that fits is not empty. -/
theorem Fits.length_chars_pos {key : RowKey} (h : key.Fits) : 0 < key.chars.length := by
  cases key with
  | word text => exact List.length_pos_of_ne_nil h.1
  | quoted text => simp [chars, quotation]

end RowKey

/-- A line of a block. -/
structure Row where
  column : Nat
  /-- The row begins an item of a list. -/
  dash : Bool := false
  key : RowKey
  value : Option (List Char) := none
  deriving DecidableEq, Repr

namespace Row

def keyColumn (r : Row) : Nat := r.column + if r.dash then 2 else 0

def valueChars (r : Row) : List Char := ':' :: r.value.elim [] fun v ↦ ' ' :: quotation v

/-- The characters of the row behind its indentation. -/
def body (r : Row) : List Char :=
  (if r.dash then ['-', ' '] else []) ++ (r.key.chars ++ r.valueChars)

/-- The characters of the row, without a line break. -/
def chars (r : Row) : List Char := List.replicate r.column ' ' ++ r.body

/-- The row can be written. -/
structure Fits (r : Row) : Prop where
  key : r.key.Fits
  value : ∀ v ∈ r.value, Printable v

end Row

/-- The text of some rows, one a line. -/
def rowsText (rows : List Row) : List Char := rows.flatMap fun r ↦ r.chars ++ ['\n']

theorem rowsText_cons (r : Row) (rows : List Row) :
    rowsText (r :: rows) = List.replicate r.column ' ' ++ (r.body ++ '\n' :: rowsText rows) := by
  simp [rowsText, Row.chars]

/-! ### The tokens of a row -/

/-- The tokens that close the blocks right of a column and open one there if none is open. -/
def enterTokens (start : Token) (column : Nat) (levels : List Nat) : List Token :=
  (levels.takeWhile (column < ·)).map (fun _ ↦ .blockEnd) ++
    if (levels.dropWhile (column < ·)).head?.any (column ≤ ·) then [] else [start]

/-- The columns of the blocks that are open then. -/
def enterLevels (column : Nat) (levels : List Nat) : List Nat :=
  let left := levels.dropWhile (column < ·)
  if left.head?.any (column ≤ ·) then left else column :: left

namespace Row

def entryTokens (r : Row) : List Token :=
  .key :: r.key.token :: .value :: (r.value.elim [] fun v ↦ [.scalar false (String.ofList v)])

/-- The tokens of a row in which the blocks at some columns are open. -/
def tokens (levels : List Nat) (r : Row) : List Token :=
  if r.dash then
    enterTokens .blockSequenceStart r.column levels ++ .blockEntry ::
      (enterTokens .blockMappingStart r.keyColumn (enterLevels r.column levels) ++ r.entryTokens)
  else enterTokens .blockMappingStart r.column levels ++ r.entryTokens

/-- The columns of the blocks that are open behind a row. -/
def levels (levels : List Nat) (r : Row) : List Nat :=
  if r.dash then enterLevels r.keyColumn (enterLevels r.column levels)
  else enterLevels r.column levels

end Row

/-- The tokens of some rows and of the end of the text. -/
def rowsTokens (levels : List Nat) : List Row → List Token
  | [] => levels.map fun _ ↦ .blockEnd
  | r :: rows => r.tokens levels ++ rowsTokens (r.levels levels) rows

namespace Scan

/-! ### Steps of the scan -/

/-- A character at which the skipping of space ends. -/
def startsToken (c : Char) : Bool := !isSeparator c && c ≠ '#' && c ≠ byteOrderMark

/-- Spaces in front of a token are passed over. -/
theorem go_replicate (s : Scan) {c : Char} (hc : startsToken c) (k : Nat) (cs : List Char)
    (line column : Nat) (allowed : Bool) :
    skipSpace.go s (List.replicate k ' ' ++ c :: cs) line column allowed false =
      { s with here := ⟨c :: cs, line, column + k⟩, keyAllowed := allowed } := by
  have hspace : c ≠ ' ' := by rintro rfl; exact absurd hc (by decide)
  have htab : c ≠ '\t' := by rintro rfl; exact absurd hc (by decide)
  obtain ⟨⟨hsep, hhash⟩, hmark⟩ : (isSeparator c = false ∧ c ≠ '#') ∧ c ≠ byteOrderMark := by
    simpa [startsToken] using hc
  have hbreak : isBreak c = false := (Bool.or_eq_false_iff.mp hsep).2
  induction k generalizing column with
  | zero => simp [skipSpace.go, hbreak, hhash, hspace, htab, hmark]
  | succ k ih =>
    have hspaceBreak : isBreak ' ' = false := by decide
    rw [List.replicate_succ, List.cons_append, skipSpace.go]
    simp [hspaceBreak, ih, Nat.add_comm, Nat.add_left_comm]

/-- Spaces in front of a token are skipped. -/
theorem skipSpace_replicate {s : Scan} {c : Char} (hc : startsToken c) (k : Nat) (cs : List Char)
    (hrest : s.here.rest = List.replicate k ' ' ++ c :: cs) :
    s.skipSpace = { s with here := ⟨c :: cs, s.here.line, s.here.column + k⟩ } := by
  rw [skipSpace, hrest, go_replicate s hc]

/-- Behind a line break and the spaces of the next line a key may begin. -/
theorem skipSpace_newline {s : Scan} {c : Char} (hc : startsToken c) (k : Nat) (cs : List Char)
    (hrest : s.here.rest = '\n' :: (List.replicate k ' ' ++ c :: cs)) (hflow : s.inFlow = false) :
    s.skipSpace = { s with here := ⟨c :: cs, s.here.line + 1, k⟩, keyAllowed := true } := by
  have hbreak : isBreak '\n' = true := by decide
  rw [skipSpace, hrest, skipSpace.go, if_pos hbreak, hflow, go_replicate s hc]
  simp

/-- One step of the scan. -/
theorem run_of_token {s t next : Scan} {c : Char} {cs : List Char}
    (hspace : s.skipSpace.dropStale = some t) (hrest : t.here.rest = c :: cs)
    (htoken : (t.closeTo (some t.here.column)).token c cs = some next)
    (hlt : next.here.rest.length < s.here.rest.length) : s.run = next.run := by
  rw [run, hspace]
  simp [hrest, htoken, hlt]

/-- A line with another first character is no mark of a document. -/
theorem atMarker_eq_false {mark c : Char} {here : Cursor} {cs : List Char}
    (hrest : here.rest = c :: cs) (hc : c ≠ mark) : here.atMarker mark = false := by
  simp [Cursor.atMarker, hrest, hc]

/-- A dash with a space behind it begins an item. -/
theorem token_dash {s : Scan} {cs : List Char} (hrest : s.here.rest = '-' :: ' ' :: cs) :
    s.token '-' (' ' :: cs) = s.blockEntry := by
  have hdots := atMarker_eq_false hrest (show '-' ≠ '.' by decide)
  have hdashes : s.here.atMarker '-' = false := by simp [Cursor.atMarker, hrest]
  simp [token, hdots, hdashes, atSeparator, show isSeparator ' ' from rfl]

/-- A colon with a separator behind it follows a key. -/
theorem token_colon {s : Scan} {cs : List Char} (hrest : s.here.rest = ':' :: cs)
    (hcs : atSeparator cs) : s.token ':' cs = s.value := by
  have hdots := atMarker_eq_false hrest (show ':' ≠ '.' by decide)
  have hdashes := atMarker_eq_false hrest (show ':' ≠ '-' by decide)
  simp [token, hdots, hdashes, hcs]

/-- A single quote begins a scalar. -/
theorem token_quote {s : Scan} {cs : List Char} (hrest : s.here.rest = '\'' :: cs) :
    s.token '\'' cs = s.quoted .single := by
  have hdots := atMarker_eq_false hrest (show '\'' ≠ '.' by decide)
  have hdashes := atMarker_eq_false hrest (show '\'' ≠ '-' by decide)
  simp [token, hdots, hdashes]

/-- A character of a word begins a plain scalar. -/
theorem token_word {s : Scan} {c : Char} {cs : List Char} (hrest : s.here.rest = c :: cs)
    (hc : RowKey.isWordChar c) : s.token c cs = s.plain := by
  obtain ⟨⟨-, hindicator⟩, hdot⟩ : (isAscii c ∧ isIndicator c = false) ∧ c ≠ '.' := by
    simpa [RowKey.isWordChar] using hc
  have hdots := atMarker_eq_false hrest hdot
  have hmembers := hindicator
  simp only [isIndicator, List.contains_eq_mem, List.mem_cons, List.not_mem_nil, or_false,
    Bool.or_eq_false_iff, decide_eq_false_iff_not, not_or] at hmembers
  have hdashes := atMarker_eq_false hrest hmembers.2.1
  simp [token, hdots, hdashes, hmembers, hindicator]

/-- Where no place of a key is noted, there is none to forget. -/
theorem dropStale_of_none {s : Scan} (hkey : s.keyPlace = none) (houter : s.outerKeys = []) :
    s.dropStale = some s := by
  obtain ⟨here, found, levels, keyPlace, outerKeys, keyAllowed⟩ := s
  obtain rfl : keyPlace = none := hkey
  obtain rfl : outerKeys = [] := houter
  rfl

theorem drop_length_takeWhile {α : Type} (p : α → Bool) (xs : List α) :
    xs.drop (xs.takeWhile p).length = xs.dropWhile p := by
  calc xs.drop (xs.takeWhile p).length
      = (xs.takeWhile p ++ xs.dropWhile p).drop (xs.takeWhile p).length := by
        rw [List.takeWhile_append_dropWhile]
    _ = xs.dropWhile p := List.drop_left

/-- Blocks further in than a column end there. -/
theorem closeTo_some {s : Scan} (houter : s.outerKeys = []) (column : Nat) :
    s.closeTo (some column) = { s with
      levels := s.levels.dropWhile (column < ·)
      found := (s.levels.takeWhile (column < ·)).map (fun _ ↦ .blockEnd) ++ s.found } := by
  simp [closeTo, inFlow, houter, drop_length_takeWhile]

/-- Behind what is left open at a column nothing further to the right is closed. -/
theorem takeWhile_dropWhile {column right : Nat} (h : column ≤ right) (levels : List Nat) :
    (levels.dropWhile (column < ·)).takeWhile (right < ·) = [] := by
  induction levels with
  | nil => rfl
  | cons level levels ih =>
    by_cases hlevel : column < level
    · rwa [List.dropWhile_cons_of_pos (by simpa using hlevel)]
    · rw [List.dropWhile_cons_of_neg (by simpa using hlevel),
        List.takeWhile_cons_of_neg (by simp; omega)]

theorem reverse_map_blockEnd (levels : List Nat) :
    (levels.map fun _ ↦ Token.blockEnd).reverse = levels.map fun _ ↦ .blockEnd := by
  rw [List.map_const', List.reverse_replicate]

/-- The dash of a list item. -/
theorem run_dash {s : Scan} {here : Cursor} {found : List Token} {levels : List Nat}
    {cs : List Char} (hspace : s.skipSpace = { here, found, levels })
    (hrest : here.rest = '-' :: ' ' :: cs) (hlt : cs.length + 1 < s.here.rest.length) :
    s.run = Scan.run {
      here := here.skip 1
      found :=
        .blockEntry :: ((enterTokens .blockSequenceStart here.column levels).reverse ++ found)
      levels := enterLevels here.column levels } := by
  have hstale : s.skipSpace.dropStale = some { here, found, levels } := by
    rw [hspace, dropStale_of_none rfl rfl]
  refine run_of_token hstale hrest ?_ (by simpa [Cursor.skip, hrest])
  rw [closeTo_some rfl, token_dash hrest]
  simp only [blockEntry, openHere, openAt, inFlow, enterTokens, enterLevels, List.isEmpty_nil,
    List.reverse_append, reverse_map_blockEnd]
  by_cases hopen : (levels.dropWhile (here.column < ·)).head?.any (here.column ≤ ·) = true
  · simp [hopen, dropKey, punctuation, push, skip]
  · simp [hopen, dropKey, punctuation, push, skip, insert]

/-- A word in front of a colon that ends it. -/
theorem read_word {text rest : List Char} (htext : ∀ c ∈ text, RowKey.isWordChar c)
    (hrest : atSeparator rest) (margin line column : Nat) :
    Plain.read false margin ⟨text ++ ':' :: rest, line, column⟩ =
      some (text, false, ⟨':' :: rest, line, column + text.length⟩) := by
  have hrun : Plain.run false (text ++ ':' :: rest) = some (text, ':' :: rest) := by
    induction text with
    | nil => simp [Plain.run, hrest]
    | cons c text ih =>
      have hc := htext c List.mem_cons_self
      have hsep : isSeparator c = false := by
        rw [isSeparator_of_isAscii (RowKey.isWordChar_iff.mp hc).1,
          decide_eq_false (RowKey.ne_of_isWordChar hc (by decide))]
      have hcolon : c ≠ ':' := RowKey.ne_of_isWordChar hc (by decide)
      simp [Plain.run, ih fun d hd ↦ htext d (List.mem_cons_of_mem c hd), hsep, hcolon]
  have hgap : Gap.read margin (':' :: rest) {} line (column + text.length) =
      some ({}, ⟨':' :: rest, line, column + text.length⟩) := by
    simp [Gap.read, show isBreak ':' = false by decide, show isGap ':' = false by decide]
  rw [Plain.read, hrun]
  simp only [Option.bind_eq_bind, Option.bind_some]
  rw [Plain.readMore]
  split
  next hnone => exact absurd (hnone.symm.trans hgap) (by simp)
  next gap next hsome =>
    obtain ⟨rfl, rfl⟩ : gap = {} ∧ next = ⟨':' :: rest, line, column + text.length⟩ := by
      simpa using hsome.symm.trans hgap
    rfl

/-- The key of a row is read as its token, and its place is noted. -/
theorem token_key {key : RowKey} (hkey : key.Fits) {c : Char} {cs rest : List Char}
    (hchars : key.chars ++ ':' :: rest = c :: cs) (hrest : atSeparator rest) (found : List Token)
    (levels : List Nat) (line column : Nat) :
    ∃ required, token c cs { here := ⟨key.chars ++ ':' :: rest, line, column⟩, found, levels } =
      some {
        here := ⟨':' :: rest, line, column + key.chars.length⟩
        found := key.token :: found
        levels
        keyPlace :=
          some ⟨found.length, line, column, (key.chars ++ ':' :: rest).length, required⟩
        keyAllowed := false } := by
  cases key with
  | word text =>
    obtain ⟨hnil, htext, -⟩ := hkey
    have hc : RowKey.isWordChar c := by
      cases text with
      | nil => exact absurd rfl hnil
      | cons d text =>
        obtain ⟨rfl, -⟩ := List.cons.inj hchars
        exact htext d List.mem_cons_self
    refine ⟨levels.head? == some column, ?_⟩
    rw [token_word hchars hc]
    simp [plain, markKey, dropKey, inFlow, push, RowKey.chars, RowKey.token,
      read_word htext hrest]
  | quoted text =>
    obtain rfl : '\'' = c := Option.some.inj (congrArg List.head? hchars)
    refine ⟨levels.head? == some column, ?_⟩
    rw [token_quote hchars]
    simp [quoted, markKey, dropKey, inFlow, push, RowKey.chars, RowKey.token,
      Quoted.read_quotation hkey.1 (show ':' ≠ '\'' by decide)]

/-- A token is inserted behind those that were found before. -/
theorem insert_append {s : Scan} (later found : List Token) (h : s.found = later ++ found)
    (t : Token) : s.insert found.length t = { s with found := later ++ t :: found } := by
  simp [insert, h]

/-- The token of a colon turns the scalar in front of it into a key. -/
theorem value_of_keyPlace {s : Scan} {k : KeyPlace} {t : Token} {found : List Token}
    (hplace : s.keyPlace = some k) (houter : s.outerKeys = []) (hindex : k.index = found.length)
    (hfound : s.found = t :: found) :
    s.value = some { s with
      here := s.here.skip 1
      found := .value :: t :: .key ::
        ((if s.levels.head?.any (k.column ≤ ·) then [] else [.blockMappingStart]) ++ found)
      levels := if s.levels.head?.any (k.column ≤ ·) then s.levels else k.column :: s.levels
      keyPlace := none
      keyAllowed := false } := by
  obtain ⟨here, _, levels, _, _, keyAllowed⟩ := s
  obtain rfl : _ = some k := hplace
  obtain rfl : _ = [] := houter
  obtain rfl : _ = t :: found := hfound
  have hkey := insert_append (s := ⟨here, t :: found, levels, some k, [], keyAllowed⟩)
    [t] found rfl .key
  have hstart := insert_append
    (s := ⟨here, [t] ++ .key :: found, k.column :: levels, some k, [], keyAllowed⟩)
    [t, .key] found rfl .blockMappingStart
  simp only [value, hindex, hkey, openAt, inFlow, List.isEmpty_nil, Bool.not_true, Bool.false_or]
  split
  · rfl
  · rw [hstart]
    rfl

/-- The colon behind a key that is not too long makes it one. -/
theorem run_colon {s : Scan} {k : KeyPlace} {t : Token} {found : List Token} {rest : List Char}
    (hhere : s.here.rest = ':' :: rest) (hrest : atSeparator rest) (hplace : s.keyPlace = some k)
    (houter : s.outerKeys = []) (hfresh : k.isStale s.here = false)
    (hindex : k.index = found.length) (hfound : s.found = t :: found)
    (hlevels : s.levels.takeWhile (s.here.column < ·) = []) :
    s.run = Scan.run { s with
      here := s.here.skip 1
      found := .value :: t :: .key ::
        ((if s.levels.head?.any (k.column ≤ ·) then [] else [.blockMappingStart]) ++ found)
      levels := if s.levels.head?.any (k.column ≤ ·) then s.levels else k.column :: s.levels
      keyPlace := none
      keyAllowed := false } := by
  have hspace : s.skipSpace = s := by
    rw [skipSpace_replicate (c := ':') (by decide) 0 _ hhere, Nat.add_zero, ← hhere]
  have hstale : s.dropStale = some s := by
    obtain ⟨here, found', levels, keyPlace, outerKeys, keyAllowed⟩ := s
    obtain rfl : keyPlace = some k := hplace
    obtain rfl : outerKeys = [] := houter
    simp [dropStale, hfresh]
  have hclose : s.closeTo (some s.here.column) = s := by
    rw [closeTo_some houter, ← drop_length_takeWhile, hlevels]
    rfl
  refine run_of_token (by rw [hspace, hstale]) hhere ?_ (by simp [Cursor.skip, hhere])
  rw [hclose, token_colon hhere hrest, value_of_keyPlace hplace houter hindex hfound]

/-- The key of a row and the colon behind it. -/
theorem run_key {s : Scan} {found : List Token} {levels : List Nat} {key : RowKey}
    {rest : List Char} {line column : Nat} (hspace : s.skipSpace =
      { here := ⟨key.chars ++ ':' :: rest, line, column⟩, found, levels })
    (hkey : key.Fits) (hrest : atSeparator rest)
    (hlt : (key.chars ++ ':' :: rest).length ≤ s.here.rest.length) :
    s.run = Scan.run {
      here := ⟨rest, line, column + key.chars.length + 1⟩
      found := .value :: key.token :: .key ::
        ((enterTokens .blockMappingStart column levels).reverse ++ found)
      levels := enterLevels column levels
      keyAllowed := false } := by
  obtain ⟨c, cs, hchars⟩ : ∃ c cs, key.chars ++ ':' :: rest = c :: cs :=
    List.exists_cons_of_ne_nil (by simp)
  have hpos := hkey.length_chars_pos
  have hlength := hkey.length_chars_le
  have hstale : s.skipSpace.dropStale =
      some { here := ⟨key.chars ++ ':' :: rest, line, column⟩, found, levels } := by
    rw [hspace, dropStale_of_none rfl rfl]
  obtain ⟨required, htoken⟩ := token_key hkey hchars hrest
    ((levels.takeWhile (column < ·)).map (fun _ ↦ .blockEnd) ++ found)
    (levels.dropWhile (column < ·)) line column
  have hfresh (index : Nat) :
      KeyPlace.isStale ⟨index, line, column, (key.chars ++ ':' :: rest).length, required⟩
        ⟨':' :: rest, line, column + key.chars.length⟩ = false := by
    simp [KeyPlace.isStale]
    omega
  rw [run_of_token hstale hchars (by rw [closeTo_some rfl]; exact htoken)
    (by simp only [List.length_append, List.length_cons] at hlt ⊢; omega),
    run_colon rfl hrest rfl rfl (hfresh _) rfl rfl
      (takeWhile_dropWhile (Nat.le_add_right _ _) levels)]
  simp only [enterTokens, enterLevels, List.reverse_append, reverse_map_blockEnd]
  split <;> simp [Cursor.skip]

/-- The value behind a colon. -/
theorem run_quotation {s : Scan} {v rest : List Char} {d : Char} (hv : Printable v) (hd : d ≠ '\'')
    (hrest : s.here.rest = ' ' :: (quotation v ++ d :: rest)) (hplace : s.keyPlace = none)
    (houter : s.outerKeys = []) (hallowed : s.keyAllowed = false)
    (hlevels : s.levels.takeWhile (s.here.column + 1 < ·) = []) :
    s.run = Scan.run { s with
      here := ⟨d :: rest, s.here.line, s.here.column + 1 + (quotation v).length⟩
      found := .scalar false (String.ofList v) :: s.found } := by
  obtain ⟨here, found, levels, keyPlace, _, _⟩ := s
  obtain rfl : _ = none := hplace
  obtain rfl : _ = [] := houter
  obtain rfl : _ = false := hallowed
  have hspace := skipSpace_replicate (s := ⟨here, found, levels, none, [], false⟩) (c := '\'')
    (by decide) 1 _ hrest
  refine run_of_token (by rw [hspace, dropStale_of_none rfl rfl]) rfl ?_
    (by simp [show here.rest = _ from hrest, quotation]; omega)
  rw [closeTo_some rfl, ← drop_length_takeWhile]
  simp only at hlevels ⊢
  rw [hlevels, token_quote rfl]
  have hread := Quoted.read_quotation hv hd rest here.line (here.column + 1)
  simp only [quotation, List.cons_append, List.append_assoc, List.nil_append] at hread
  simp [quoted, markKey, push, hread, quotation]

/-- Blocks that are open behind a row are no further in than it. -/
theorem takeWhile_enterLevels {column right : Nat} (h : column ≤ right) (levels : List Nat) :
    (enterLevels column levels).takeWhile (right < ·) = [] := by
  rw [enterLevels]
  split
  · exact takeWhile_dropWhile h levels
  · rw [List.takeWhile_cons_of_neg (by simpa using h)]

/-- The key of a row begins with a character that begins a token. -/
theorem startsToken_of_fits {key : RowKey} (hkey : key.Fits) (rest : List Char) :
    ∃ c cs, key.chars ++ rest = c :: cs ∧ startsToken c := by
  cases key with
  | word text =>
    obtain ⟨c, text, rfl⟩ := List.exists_cons_of_ne_nil hkey.1
    refine ⟨c, text ++ rest, rfl, ?_⟩
    have hc := hkey.2.1 c List.mem_cons_self
    have hprintable := (RowKey.isWordChar_iff.mp hc).1
    have hspace : c ≠ ' ' := RowKey.ne_of_isWordChar hc (by decide)
    have hhash : c ≠ '#' := RowKey.ne_of_isWordChar hc (by decide)
    simp [startsToken, isSeparator_of_isAscii hprintable, hspace, hhash,
      ne_of_isAscii hprintable (d := byteOrderMark) (by decide)]
  | quoted text => exact ⟨'\'', _, rfl, by decide⟩

/-- The key of a row with its value. -/
theorem run_entry {s : Scan} {found : List Token} {levels : List Nat} {r : Row} (hr : r.Fits)
    {rest : List Char} {line column : Nat} (hspace : s.skipSpace =
      { here := ⟨r.key.chars ++ (r.valueChars ++ '\n' :: rest), line, column⟩, found, levels })
    (hlt : (r.key.chars ++ (r.valueChars ++ '\n' :: rest)).length ≤ s.here.rest.length) :
    ∃ stop, s.run = Scan.run {
      here := ⟨'\n' :: rest, line, stop⟩
      found := r.entryTokens.reverse ++
        ((enterTokens .blockMappingStart column levels).reverse ++ found)
      levels := enterLevels column levels
      keyAllowed := false } := by
  obtain ⟨column', dash, key, value⟩ := r
  cases value with
  | none => exact ⟨_, run_key hspace hr.key rfl hlt⟩
  | some v =>
    have hsep : atSeparator (' ' :: (quotation v ++ '\n' :: rest)) := rfl
    simp only [Row.valueChars, Option.elim_some, List.cons_append] at hspace hlt
    have hvalue := run_quotation (s := {
      here := ⟨' ' :: (quotation v ++ '\n' :: rest), line, column + key.chars.length + 1⟩
      found := .value :: key.token :: .key ::
        ((enterTokens .blockMappingStart column levels).reverse ++ found)
      levels := enterLevels column levels
      keyAllowed := false }) (hr.value v rfl) (show '\n' ≠ '\'' by decide) rfl rfl rfl rfl
        (takeWhile_enterLevels (by simp only; omega) levels)
    exact ⟨_, (run_key hspace hr.key hsep hlt).trans hvalue⟩

/-- A row whose indentation has been skipped. -/
theorem run_row {s : Scan} {found : List Token} {levels : List Nat} {r : Row} (hr : r.Fits)
    {rest : List Char} {line : Nat} (hspace : s.skipSpace =
      { here := ⟨r.body ++ '\n' :: rest, line, r.column⟩, found, levels })
    (hlt : (r.body ++ '\n' :: rest).length ≤ s.here.rest.length) :
    ∃ stop, s.run = Scan.run {
      here := ⟨'\n' :: rest, line, stop⟩
      found := (r.tokens levels).reverse ++ found
      levels := r.levels levels
      keyAllowed := false } := by
  obtain ⟨column, dash, key, value⟩ := r
  cases dash with
  | false =>
    simp only [Row.body, Bool.false_eq_true, if_false, List.nil_append,
      List.append_assoc] at hspace hlt
    obtain ⟨stop, hrun⟩ := run_entry hr hspace hlt
    refine ⟨stop, ?_⟩
    rw [hrun]
    simp [Row.tokens, Row.levels]
  | true =>
    simp only [Row.body, if_true, List.cons_append, List.nil_append,
      List.append_assoc] at hspace hlt
    simp only [List.length_cons] at hlt
    have hdash := run_dash hspace rfl (by omega)
    obtain ⟨c, cs, hcons, hc⟩ := startsToken_of_fits hr.key
      (Row.valueChars ⟨column, true, key, value⟩ ++ '\n' :: rest)
    have hkey := skipSpace_replicate (s := {
      here := Cursor.skip 1 ⟨'-' :: ' ' :: (key.chars ++
        (Row.valueChars ⟨column, true, key, value⟩ ++ '\n' :: rest)), line, column⟩
      found := .blockEntry :: ((enterTokens .blockSequenceStart column levels).reverse ++ found)
      levels := enterLevels column levels }) hc 1 cs (by simp [Cursor.skip, hcons])
    rw [← hcons] at hkey
    obtain ⟨stop, hrun⟩ := run_entry hr hkey (by simp [Cursor.skip])
    refine ⟨stop, ?_⟩
    rw [hdash, hrun]
    simp [Row.tokens, Row.levels, Row.keyColumn, Cursor.skip]

/-- So does the whole row behind its indentation. -/
theorem startsToken_body {r : Row} (hr : r.Fits) (rest : List Char) :
    ∃ c cs, r.body ++ rest = c :: cs ∧ startsToken c := by
  rw [Row.body]
  cases r.dash with
  | false =>
    simp only [Bool.false_eq_true, if_false, List.nil_append, List.append_assoc]
    exact startsToken_of_fits hr.key _
  | true => exact ⟨'-', _, rfl, by decide⟩

/-- The rest of the rows behind a line break. -/
theorem run_rows {rows : List Row} (hrows : ∀ r ∈ rows, r.Fits) (s : Scan)
    (hrest : s.here.rest = '\n' :: rowsText rows) (hplace : s.keyPlace = none)
    (houter : s.outerKeys = []) : s.run = some (s.found.reverse ++ rowsTokens s.levels rows) := by
  induction rows generalizing s with
  | nil =>
    have hspace : s.skipSpace =
        { here := ⟨[], s.here.line + 1, 0⟩, found := s.found, levels := s.levels } := by
      have hflow : s.inFlow = false := by simp [inFlow, houter]
      simp [skipSpace, hrest, rowsText, skipSpace.go, show isBreak '\n' from rfl, hflow, hplace,
        houter]
    have htake : s.levels.takeWhile (fun _ ↦ true) = s.levels :=
      List.takeWhile_eq_self_iff.mpr fun _ _ ↦ rfl
    rw [run, hspace, dropStale_of_none rfl rfl]
    simp [closeTo, inFlow, dropKey, htake, rowsTokens]
  | cons r rows ih =>
    have hr := hrows r List.mem_cons_self
    obtain ⟨c, cs, hcons, hc⟩ := startsToken_body hr ('\n' :: rowsText rows)
    have hspace := skipSpace_newline (s := s) hc r.column cs
      (by rw [hrest, rowsText_cons, hcons]) (by simp [inFlow, houter])
    rw [← hcons, hplace, houter] at hspace
    obtain ⟨stop, hrun⟩ := run_row hr hspace
      (by rw [hrest, rowsText_cons]; simp only [List.length_append, List.length_cons]; omega)
    rw [hrun, ih (fun r hr ↦ hrows r (List.mem_cons_of_mem _ hr)) _ rfl rfl rfl]
    simp [rowsTokens]

end Scan

/-! ### The tokens of the text -/

/-- All ASCII characters are allowed. -/
theorem isAllowed_of_isAscii {c : Char} (h : isAscii c) : isAllowed c := by
  have : 0x20 ≤ c.toNat ∧ c.toNat ≤ 0x7E := by simpa [isAscii] using h
  simp [isAllowed, this]

/-- Only a carriage return and a next line are other line breaks. -/
theorem unifyBreaks_append {cs : List Char} (h : ∀ c ∈ cs, c ≠ '\r' ∧ c ≠ '\u0085')
    (rest : List Char) : unifyBreaks (cs ++ rest) = cs ++ unifyBreaks rest := by
  induction cs with
  | nil => rfl
  | cons c cs ih =>
    have hc := h c List.mem_cons_self
    rw [List.cons_append, unifyBreaks.eq_2 c _ (fun _ hcr _ ↦ hc.1 hcr),
      if_neg (by simp [hc]), ih fun d hd ↦ h d (List.mem_cons_of_mem _ hd), List.cons_append]

/-- A text without those stays as it is. -/
theorem unifyBreaks_eq_self {cs : List Char} (h : ∀ c ∈ cs, c ≠ '\r' ∧ c ≠ '\u0085') :
    unifyBreaks cs = cs := by
  have happend := unifyBreaks_append h []
  rwa [List.append_nil, unifyBreaks, List.append_nil] at happend

/-- A row consists of ASCII characters. -/
theorem isAscii_of_mem_body {r : Row} (hr : r.Fits) {c : Char} (hc : c ∈ r.body) :
    isAscii c := by
  have hkey : ∀ c ∈ r.key.chars, isAscii c := by
    have hfits := hr.key
    cases hrow : r.key with
    | word text =>
      rw [hrow] at hfits
      exact fun c hc ↦ ((Bool.and_eq_true _ _).mp ((Bool.and_eq_true _ _).mp (hfits.2.1 c hc)).1).1
    | quoted text =>
      rw [hrow] at hfits
      exact printable_quotation hfits.1
  simp only [Row.body, Row.valueChars, List.mem_append, List.mem_cons] at hc
  rcases hc with hc | hc | rfl | hc
  · split at hc
    · rcases List.mem_pair.mp hc with rfl | rfl <;> decide
    · exact absurd hc List.not_mem_nil
  · exact hkey c hc
  · decide
  · cases hv : r.value with
    | none => simp [hv] at hc
    | some v =>
      rw [hv] at hc
      rcases List.mem_cons.mp hc with rfl | hc
      · decide
      · exact printable_quotation (hr.value v hv) c hc

/-- A text of rows has no other line breaks. -/
theorem mem_rowsText {rows : List Row} (hrows : ∀ r ∈ rows, r.Fits) {c : Char}
    (hc : c ∈ rowsText rows) : isAscii c ∨ c = '\n' := by
  obtain ⟨r, hr, hc⟩ := List.mem_flatMap.mp hc
  rcases List.mem_append.mp hc with hc | hc
  · rcases List.mem_append.mp hc with hc | hc
    · obtain rfl := List.eq_of_mem_replicate hc
      exact .inl (by decide)
    · exact .inl (isAscii_of_mem_body (hrows r hr) hc)
  · exact .inr (List.mem_singleton.mp hc)

/-- The tokens of a text of rows. -/
theorem ofText?_rows {rows : List Row} (hrows : ∀ r ∈ rows, r.Fits) :
    Token.ofText? (String.ofList (rowsText rows)) = some (rowsTokens [] rows) := by
  have hallowed : ∀ c ∈ rowsText rows, isAllowed c ∧ c ≠ '\r' ∧ c ≠ '\u0085' ∧
      c ≠ byteOrderMark := by
    intro c hc
    rcases mem_rowsText hrows hc with hc | rfl
    · exact ⟨isAllowed_of_isAscii hc, ne_of_isAscii hc (by decide),
        ne_of_isAscii hc (by decide), ne_of_isAscii hc (by decide)⟩
    · decide
  have hunify : unifyBreaks (rowsText rows) = rowsText rows :=
    unifyBreaks_eq_self fun c hc ↦ ⟨(hallowed c hc).2.1, (hallowed c hc).2.2.1⟩
  have hmark : ((rowsText rows).head? == some byteOrderMark) = false := by
    cases htext : rowsText rows with
    | nil => rfl
    | cons c cs => simpa using (hallowed c (by simp [htext])).2.2.2
  have hall : (rowsText rows).all isAllowed := List.all_eq_true.mpr fun c hc ↦ (hallowed c hc).1
  rw [Token.ofText?, String.toList_ofList, hunify, hmark]
  simp only [Bool.false_eq_true, if_false, hall, if_true]
  cases rows with
  | nil => rw [Scan.run]; rfl
  | cons r rows =>
    have hr := hrows r List.mem_cons_self
    obtain ⟨c, cs, hcons, hc⟩ := Scan.startsToken_body hr ('\n' :: rowsText rows)
    have hspace := Scan.skipSpace_replicate (s := { here := ⟨rowsText (r :: rows), 0, 0⟩ })
      hc r.column cs (by rw [rowsText_cons, hcons])
    rw [← hcons, Nat.zero_add] at hspace
    obtain ⟨stop, hrun⟩ := Scan.run_row hr hspace
      (by rw [rowsText_cons]; simp only [List.length_append, List.length_cons]; omega)
    rw [hrun, Scan.run_rows (fun r hr ↦ hrows r (List.mem_cons_of_mem _ hr)) _ rfl rfl rfl]
    simp [rowsTokens]

end AlertAudit.Yaml
