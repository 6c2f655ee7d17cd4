import AlertAudit.Proofs.RuleFile.KeyBytes
import AlertAudit.Proofs.RuleFile.Nesting
import AlertAudit.Proofs.Rounds

/-!
Rules found by counting lines. The lines of a text are looked up by their numbers, a column is
taken for a number of bytes, and what has been found is told by numbers again; a number that no line
has, a byte at which a line cannot be cut, a difference below zero and a run of lines that ends in
front of its beginning are each a `Fault`. There is none in any text, and every round behind which
the search goes on leaves more lines behind (`rules_counted`).
-/

set_option autoImplicit false

namespace AlertAudit.Locate

open AlertAudit.Text

variable {ls rest below : List Line} {l first : Line} {column last dash n : Nat}

/-! ### Numbers -/

/-- The line with a number, where lines are counted from one. -/
def textAt (texts : List (List Char)) : Nat → Counted (List Char)
  | 0 => .error (.noLine 0)
  | i + 1 =>
    match texts[i]? with
    | some text => .ok text
    | none => .error (.noLine (i + 1))

/-- How much larger `a` is than `b`. -/
def minus (a b : Nat) : Counted Nat := if b ≤ a then .ok (a - b) else .error .negative

def runTo (first last : Nat) : Counted LineRange :=
  if first ≤ last then .ok ⟨first, last⟩ else .error (.inverted first last)

def numbersTo (n last : Nat) : List Nat := List.range' (n + 1) (last - n)

/-- The number of bytes in front of a line that are spaces. -/
def indentAt (cs : List Char) : Counted Nat :=
  minus (utf8Length cs) (utf8Length (cs.dropWhile isSpace))

/-! ### Blocks and keys -/

/-- The last of the lines `ns` that are indented deeper than `column`; `found` is the one so far. -/
def blockEndAmong (texts : List (List Char)) (column : Nat) :
    List Nat → Option Nat → Counted (Option Nat)
  | [], found => return found
  | n :: ns, found => do
    let line ← textAt texts n
    if isBlankText line then blockEndAmong texts column ns found
    else if (← indentAt line) ≤ column then
      if isComment line then blockEndAmong texts column ns found else return found
    else blockEndAmong texts column ns (some n)

/-- The end of the block that is opened at a column of line `n`. -/
def blockEndAt (texts : List (List Char)) (n column : Nat) : Counted (Option Nat) :=
  blockEndAmong texts column (numbersTo n texts.length) none

/-- The first of the lines `ns` that is not blank. -/
def contentLineAmong (texts : List (List Char)) : List Nat → Counted (Option Nat)
  | [] => return none
  | n :: ns => do
    if isBlankText (← textAt texts n) then contentLineAmong texts ns else return some n

/-- The lines of the value of a key on line `n`, where a block of the key ends at line `last`. -/
def valueAt (texts : List (List Char)) (n : Nat) (isInline : Bool) (last : Option Nat) :
    Counted LineRange :=
  if isInline then runTo n (last.getD n)
  else
    match last with
    | some last => do
      match ← contentLineAmong texts (numbersTo n last) with
      | some first => runTo first last
      | none => runTo n n
    | none => runTo n n

/-- The key at a column of line `n`. -/
def keySpanAt (texts : List (List Char)) (n column : Nat) : Counted (Option KeySpan) := do
  let some (name, after) ← splitKeyAt (← fromByte (← textAt texts n) column) | return none
  let last ← blockEndAt texts n column
  let isInline := !(startsNested after || startsBlockScalar after)
  let value ← valueAt texts n isInline last
  return some { name, line := n, column, value, isInline }

/-- The keys that stand at a column of the lines `ns`. -/
def keysAmong (texts : List (List Char)) (column : Nat) : List Nat → Counted (List KeySpan)
  | [] => return []
  | n :: ns => do
    let line ← textAt texts n
    if !isBlankText line && (← indentAt line) == column && !isComment line then
      return (← keySpanAt texts n column).toList ++ (← keysAmong texts column ns)
    else keysAmong texts column ns

/-- The keys that stand at a column of line `n` and of the lines below up to `last`. -/
def keysAt (texts : List (List Char)) (n column last : Nat) : Counted (List KeySpan) := do
  return (← keySpanAt texts n column).toList ++ (← keysAmong texts column (numbersTo n last))

/-! ### Items -/

/-- The keys of the list item whose dash stands at a column of line `n`. -/
def itemKeysAt (texts : List (List Char)) (n dash : Nat) (lines : LineRange) :
    Counted (List KeySpan) := do
  let after ← fromByte (← textAt texts n) (dash + 1)
  let content := after.dropWhile isSpace
  if content.head?.all (· = '#') then
    match ← contentLineAmong texts (numbersTo n lines.last) with
    | some first => keysAt texts first (← indentAt (← textAt texts first)) lines.last
    | none => return []
  else if content.head? = some '{' then return flowKeys content lines
  else keysAt texts n (dash + 1 + (← minus (utf8Length after) (utf8Length content))) lines.last

/-- The rule in the list item whose dash stands at a column of line `n`. -/
def ruleSpanAt (texts : List (List Char)) (n dash : Nat) : Counted (Option RuleSpan) := do
  let lines ← runTo n ((← blockEndAt texts n dash).getD n)
  let keys ← itemKeysAt texts n dash lines
  return if keys.any fun k ↦ k.name = "alert" || k.name = "record" then some ⟨lines, keys⟩ else none

/-- What line `n` holds for the search of rules: the number of the line to go on with, and the rule
if one begins on the line. -/
def advance (texts : List (List Char)) (n : Nat) : Counted (Nat × Option RuleSpan) := do
  let line ← textAt texts n
  let column ← indentAt line
  let content ← fromByte line column
  if startsItem content then
    match ← ruleSpanAt texts n column with
    | some r => return (r.lines.last + 1, some r)
    | none => return (n + 1, none)
  else
    let key ← splitKeyAt content
    if key.any fun (_, after) ↦ startsBlockScalar after then
      return ((← blockEndAt texts n column).getD n + 1, none)
    else return (n + 1, none)

/-- A round of the search, with the number of a line and the rules so far. -/
def ruleRound (texts : List (List Char)) :
    Nat × List RuleSpan → (Nat × List RuleSpan) ⊕ Counted (List RuleSpan)
  | (n, found) =>
    if texts.length < n then .inr (.ok found)
    else
      match advance texts n with
      | .ok (next, rule) => .inl (next, found ++ rule.toList)
      | .error fault => .inr (.error fault)

/-- The keys of the mapping that is the value of a key. -/
def childrenAt (texts : List (List Char)) (parent : KeySpan) : Counted (List KeySpan) := do
  if parent.isInline || parent.value.first = parent.line then return []
  else
    let column ← indentAt (← textAt texts parent.value.first)
    keysAt texts parent.value.first column parent.value.last

def keyLinesAt (k : KeySpan) : Counted LineRange := do
  let own ← runTo k.line k.line
  runTo (min own.first k.value.first) (max own.last k.value.last)

/-! ### Columns as bytes -/

/-- A run from one line to a later one is one. -/
theorem runTo_of_le {first last : Nat} (h : first ≤ last) : runTo first last = .ok ⟨first, last⟩ :=
  if_pos h

/-- A space is one byte. -/
theorem utf8Length_of_forall_isSpace {cs : List Char} (h : ∀ c ∈ cs, isSpace c = true) :
    utf8Length cs = cs.length := by
  induction cs with
  | nil => rfl
  | cons c cs ih =>
    obtain ⟨hc, hcs⟩ := List.forall_mem_cons.mp h
    obtain rfl : c = ' ' := of_decide_eq_true hc
    rw [utf8Length_cons, ih hcs, List.length_cons, Nat.add_comm]
    rfl

/-- The spaces in front of a line have as many bytes as the column of what follows. -/
theorem utf8Length_takeWhile_isSpace (cs : List Char) :
    utf8Length (cs.takeWhile isSpace) = indentOf cs :=
  utf8Length_of_forall_isSpace fun _ hc ↦ List.mem_takeWhile_imp hc

/-- What the spaces take off the bytes of a line is the column. -/
theorem minus_dropWhile (cs : List Char) :
    minus (utf8Length cs) (utf8Length (cs.dropWhile isSpace)) = .ok (indentOf cs) := by
  have hsum : utf8Length cs = indentOf cs + utf8Length (cs.dropWhile isSpace) := by
    rw [← utf8Length_takeWhile_isSpace, ← utf8Length_append, List.takeWhile_append_dropWhile]
  rw [minus, hsum, if_pos (Nat.le_add_left _ _), Nat.add_sub_cancel]

/-- The indentation that is counted in bytes is the column. -/
theorem indentAt_eq (cs : List Char) : indentAt cs = .ok (indentOf cs) := minus_dropWhile cs

/-- What is behind a byte is cut again where characters of it end. -/
theorem fromByte_add {cs chars back : List Char} {byte : Nat}
    (h : fromByte cs byte = .ok (chars ++ back)) :
    fromByte cs (byte + utf8Length chars) = .ok back := by
  rw [fromByte] at h
  cases hsplit : splitBytes? byte cs with
  | none =>
    rw [hsplit] at h
    exact absurd h (by simp)
  | some parts =>
    obtain ⟨front, behind⟩ := parts
    rw [hsplit] at h
    obtain rfl := Except.ok.inj h
    obtain ⟨rfl, rfl⟩ := splitBytes?_eq_some_iff.mp hsplit
    rw [← utf8Length_append, ← List.append_assoc, fromByte_append]

/-- Behind spaces a text is cut at the byte that has the number of the column. -/
theorem fromByte_add_indentOf {cs back : List Char} {byte : Nat} (h : fromByte cs byte = .ok back) :
    fromByte cs (byte + indentOf back) = .ok (back.drop (indentOf back)) := by
  rw [drop_indentOf, ← utf8Length_takeWhile_isSpace]
  refine fromByte_add ?_
  rw [List.takeWhile_append_dropWhile, h]

/-- A line can be cut behind its indentation. -/
theorem fromByte_indentOf (cs : List Char) :
    fromByte cs (indentOf cs) = .ok (cs.drop (indentOf cs)) := by
  have hzero : fromByte cs 0 = .ok cs := fromByte_append [] cs
  have hcut := fromByte_add_indentOf hzero
  rwa [Nat.zero_add] at hcut

/-- A dash is one byte. -/
theorem fromByte_dash {cs : List Char} (h : startsItem (cs.drop (indentOf cs)) = true) :
    fromByte cs (indentOf cs + 1) = .ok (cs.drop (indentOf cs + 1)) := by
  have hcut := fromByte_indentOf cs
  rw [startsItem, Bool.and_eq_true, decide_eq_true_eq] at h
  obtain ⟨after, hafter⟩ := List.head?_eq_some_iff.mp h.1
  have hbehind : cs.drop (indentOf cs + 1) = after := by
    rw [← List.drop_drop, hafter]
    rfl
  rw [hbehind]
  exact fromByte_add (hcut.trans (congrArg Except.ok (hafter.trans List.singleton_append.symm)))

/-! ### Lines by their numbers -/

def Numbered (ls : List Line) : Prop := ls.map (·.number) = List.range' 1 ls.length

/-- The lines of a text are numbered from one. -/
theorem numbered_lines (source : String) : Numbered (lines source) := map_number_linesFrom 1 _

def texts (ls : List Line) : List (List Char) := ls.map (·.text)

theorem length_texts : (texts ls).length = ls.length := List.length_map _

/-- The lines behind a line are further down if `last` is. -/
theorem linesAfter_of_suffix (h : Ascending ls) (hl : l :: rest <:+ ls) (hlast : l.number ≤ last) :
    linesAfter last ls = linesAfter last rest := by
  obtain ⟨front, rfl⟩ := hl
  have hfront : ∀ m ∈ front ++ [l], decide (m.number ≤ last) = true := by
    intro m hm
    rcases List.mem_append.mp hm with hm | hm
    · have hlt := (List.pairwise_append.mp h).2.2 m hm l List.mem_cons_self
      exact decide_eq_true (by omega)
    · exact decide_eq_true (List.mem_singleton.mp hm ▸ hlast)
  rw [linesAfter, linesAfter, ← List.singleton_append, ← List.append_assoc,
    List.dropWhile_append_of_pos hfront]

/-- Behind its own number come the lines below a line. -/
theorem linesAfter_number (h : Ascending (l :: rest)) : linesAfter l.number rest = rest := by
  cases rest with
  | nil => rfl
  | cons m rest =>
    have hlt := h.lt List.mem_cons_self
    rw [linesAfter, List.dropWhile_cons_of_neg (by simpa using hlt)]

/-- In front of the first line behind `last`, the lines are numbered up to `last`. -/
theorem map_takeWhile_number {n : Nat} (h : rest.map (·.number) = List.range' (n + 1) rest.length)
    (hlast : last ≤ n + rest.length) :
    (rest.takeWhile (·.number ≤ last)).map (·.number) = numbersTo n last := by
  induction rest generalizing n with
  | nil =>
    have hnone : last - n = 0 := Nat.sub_eq_zero_of_le hlast
    rw [numbersTo, hnone]
    rfl
  | cons m rest ih =>
    rw [List.map_cons, List.length_cons, List.range'_succ] at h
    obtain ⟨hm, hrest⟩ := List.cons.inj h
    rw [List.length_cons] at hlast
    by_cases hle : n + 1 ≤ last
    · have hsub : last - n = last - (n + 1) + 1 := by omega
      rw [List.takeWhile_cons_of_pos (by simpa [hm] using hle), List.map_cons,
        ih hrest (by omega), hm, numbersTo, numbersTo, hsub, List.range'_succ]
    · rw [List.takeWhile_cons_of_neg (by simpa [hm] using hle), numbersTo,
        Nat.sub_eq_zero_of_le (by omega), List.range'_zero, List.map_nil]

section Numbered

variable (hls : Numbered ls)

include hls

/-- Lines that are numbered from one have ascending numbers. -/
theorem Numbered.ascending : Ascending ls :=
  List.pairwise_map.mp (hls ▸ List.pairwise_lt_range')

/-- Their numbers are those that a line can be looked up by. -/
theorem Numbered.bounds (hl : l ∈ ls) : 1 ≤ l.number ∧ l.number ≤ ls.length := by
  have hmem : l.number ∈ ls.map (·.number) := List.mem_map_of_mem hl
  rw [hls, List.mem_range'_1] at hmem
  omega

/-- A line and those below it are numbered on from its own number. -/
theorem Numbered.suffix (hl : l :: rest <:+ ls) :
    l.number + rest.length = ls.length ∧
      rest.map (·.number) = List.range' (l.number + 1) rest.length := by
  obtain ⟨front, rfl⟩ := hl
  have hmap : front.map (·.number) ++ (l :: rest).map (·.number) =
      List.range' 1 front.length ++ List.range' (1 + front.length) (rest.length + 1) := by
    rw [← List.map_append, hls, List.length_append, List.length_cons, List.range'_append_1]
  obtain ⟨-, hback⟩ := List.append_inj hmap (by rw [List.length_map, List.length_range'])
  rw [List.map_cons, List.range'_succ] at hback
  obtain ⟨hnumber, hrest⟩ := List.cons.inj hback
  refine ⟨?_, hnumber ▸ hrest⟩
  rw [List.length_append, List.length_cons, hnumber]
  omega

/-- Under its number each line is found. -/
theorem textAt_of_mem (hl : l ∈ ls) : textAt (texts ls) l.number = .ok l.text := by
  obtain ⟨i, hi, rfl⟩ := List.getElem_of_mem hl
  have hnumber : (ls.map (·.number))[i]? = some (1 + i) := by
    rw [hls, List.getElem?_range' hi, Nat.one_mul]
  have htext : (texts ls)[i]? = some ls[i].text := by
    rw [texts, List.getElem?_map, List.getElem?_eq_getElem hi]
    rfl
  rw [List.getElem?_map, List.getElem?_eq_getElem hi, Option.map_some, Option.some_inj,
    Nat.add_comm] at hnumber
  rw [hnumber, textAt, htext]

/-- The lines up to `last` are those that are looked up by the numbers. -/
theorem numbersTo_eq (hl : l :: rest <:+ ls) (hlast : last ≤ ls.length) :
    numbersTo l.number last = (rest.takeWhile (·.number ≤ last)).map (·.number) := by
  obtain ⟨hlength, hrest⟩ := hls.suffix hl
  exact (map_takeWhile_number hrest (hlength ▸ hlast)).symm

end Numbered

/-! ### What is found on the lines below -/

/-- Where a step finds something, the steps behind it go on with that. -/
theorem ok_bind {α β : Type} (a : α) (f : α → Counted β) : (Except.ok a >>= f) = f a := rfl

/-- Lines that can be looked up by their numbers. -/
def Readable (ts : List (List Char)) (ls : List Line) : Prop :=
  ∀ l ∈ ls, textAt ts l.number = .ok l.text

section Readable

variable {ts : List (List Char)}

/-- The end of a block is found among the numbers of the lines below. -/
theorem blockEndAmong_eq (h : Readable ts ls) (found : Option Nat) :
    blockEndAmong ts column (ls.map (·.number)) found = .ok ((blockEnd? column ls).or found) := by
  induction ls generalizing found with
  | nil => rfl
  | cons l rest ih =>
    obtain ⟨hl, hrest⟩ := List.forall_mem_cons.mp h
    rw [List.map_cons, blockEndAmong, hl, ok_bind, blockEnd?]
    split
    · exact ih hrest found
    · rw [indentAt_eq, ok_bind]
      split
      · split
        · exact ih hrest found
        · rfl
      · rw [ih hrest, Option.or_some]
        rfl

/-- The first content up to a line is found among the numbers. -/
theorem contentLineAmong_eq (h : Readable ts ls) :
    contentLineAmong ts ((ls.takeWhile (·.number ≤ last)).map (·.number)) =
      .ok ((contentLine? last ls).map (·.1.number)) := by
  induction ls with
  | nil => rfl
  | cons l rest ih =>
    obtain ⟨hl, hrest⟩ := List.forall_mem_cons.mp h
    rw [contentLine?]
    split
    next hlast =>
      rw [List.takeWhile_cons_of_neg (by simpa using hlast)]
      rfl
    next hlast =>
      rw [List.takeWhile_cons_of_pos (by simpa using hlast), List.map_cons, contentLineAmong, hl,
        ok_bind]
      split
      · exact ih hrest
      · rfl

end Readable

/-! ### What is found on a line -/

section Found

variable (hls : Numbered ls) (hl : l :: rest <:+ ls)

include hls hl

/-- A line of the text is found under its number. -/
theorem textAt_eq : textAt (texts ls) l.number = .ok l.text :=
  textAt_of_mem hls (hl.subset List.mem_cons_self)

/-- So are the lines below it. -/
theorem readable_rest : Readable (texts ls) rest :=
  fun _ hm ↦ textAt_of_mem hls (hl.subset (List.mem_cons_of_mem l hm))

/-- The end of a block below a line is found by the number of the line. -/
theorem blockEndAt_eq (column : Nat) :
    blockEndAt (texts ls) l.number column = .ok (blockEnd? column rest) := by
  obtain ⟨hlength, hrest⟩ := hls.suffix hl
  have hnumbers : numbersTo l.number (texts ls).length = rest.map (·.number) := by
    rw [hrest, numbersTo, length_texts, ← hlength, Nat.add_sub_cancel_left]
  rw [blockEndAt, hnumbers, blockEndAmong_eq (readable_rest hls hl), Option.or_none]

/-- No block ends behind the last line of the text. -/
theorem lastLine_le_length (column : Nat) : lastLine column l rest ≤ ls.length := by
  obtain ⟨m, hm, hnumber⟩ := exists_mem_lastLine column l rest
  exact hnumber ▸ (hls.bounds (hl.subset hm)).2

/-- The first content below a line is found by the number of the line. -/
theorem contentLineAt_eq (hlast : last ≤ ls.length) :
    contentLineAmong (texts ls) (numbersTo l.number last) =
      .ok ((contentLine? last rest).map (·.1.number)) := by
  rw [numbersTo_eq hls hl hlast, contentLineAmong_eq (readable_rest hls hl)]

/-- The lines of a value are found by the number of the line of its key, and they do not end in
front of their beginning. -/
theorem valueAt_eq (column : Nat) (isInline : Bool) :
    valueAt (texts ls) l.number isInline (blockEnd? column rest) =
      .ok (if isInline then ⟨l.number, (blockEnd? column rest).getD l.number⟩
      else
        match (blockEnd? column rest).bind fun last ↦
          (contentLine? last rest).map fun (first, _) ↦ (first.number, last) with
        | some (first, last) => ⟨first, last⟩
        | none => LineRange.single l.number) := by
  have hsingle : runTo l.number l.number = .ok (LineRange.single l.number) :=
    runTo_of_le (Nat.le_refl _)
  cases isInline with
  | true => exact runTo_of_le (le_lastLine (hls.ascending.suffix hl))
  | false =>
    cases hend : blockEnd? column rest with
    | none => exact hsingle
    | some last =>
      have hlast : last ≤ ls.length := by
        have hle := lastLine_le_length hls hl column
        rwa [lastLine, hend] at hle
      simp only [valueAt, Bool.false_eq_true, if_false, contentLineAt_eq hls hl hlast, ok_bind,
        Option.bind_some]
      cases hcontent : contentLine? last rest with
      | none => exact hsingle
      | some found => exact runTo_of_le (contentLine?_eq_some hcontent).2.1

/-- A key at a column at which the line can be cut. -/
theorem keySpanAt_eq (hcut : fromByte l.text column = .ok (l.text.drop column)) :
    keySpanAt (texts ls) l.number column = .ok (keySpan? l column rest) := by
  rw [keySpanAt, textAt_eq hls hl, ok_bind, hcut, ok_bind, splitKeyAt_eq, ok_bind, keySpan?]
  cases splitKey? (l.text.drop column) with
  | none => rfl
  | some split =>
    simp only [blockEndAt_eq hls hl, ok_bind, valueAt_eq hls hl]
    rfl

end Found

/-- A line has content at a column if it is neither blank nor a comment and is indented as far. -/
theorem contentColumn?_eq_some_iff {cs : List Char} : contentColumn? cs = some column ↔
    (!isBlankText cs && indentOf cs == column && !isComment cs) = true := by
  rw [contentColumn?]
  cases isBlankText cs <;> cases isComment cs <;> simp

/-- The keys at a column are found among the numbers of the lines. -/
theorem keysAmong_eq (hls : Numbered ls) (hbelow : below <:+ ls) :
    keysAmong (texts ls) column ((below.takeWhile (·.number ≤ last)).map (·.number)) =
      .ok (keysBelow column last below) := by
  induction below with
  | nil => rfl
  | cons l rest ih =>
    have hrest := ih ((List.suffix_cons l rest).trans hbelow)
    rw [keysBelow]
    split
    next hlast =>
      rw [List.takeWhile_cons_of_neg (by simpa using hlast)]
      rfl
    next hlast =>
      rw [List.takeWhile_cons_of_pos (by simpa using hlast), List.map_cons, keysAmong,
        textAt_eq hls hbelow, ok_bind, indentAt_eq, ok_bind]
      split
      next hcolumn =>
        have hcontent := contentColumn?_eq_some_iff.mpr hcolumn
        obtain ⟨-, -, rfl⟩ := contentColumn?_eq_some hcontent
        rw [if_pos hcontent, keySpanAt_eq hls hbelow (fromByte_indentOf l.text), ok_bind,
          hrest]
        rfl
      next hcolumn =>
        rw [if_neg (mt contentColumn?_eq_some_iff.mp hcolumn), hrest]

section Found

variable (hls : Numbered ls) (hl : l :: rest <:+ ls)

include hls hl

/-- The keys at a column from a line on are found by the number of the line. -/
theorem keysAt_eq (hcut : fromByte l.text column = .ok (l.text.drop column))
    (hlast : last ≤ ls.length) :
    keysAt (texts ls) l.number column last = .ok (keysFrom l column last rest) := by
  rw [keysAt, keySpanAt_eq hls hl hcut, ok_bind, numbersTo_eq hls hl hlast,
    keysAmong_eq hls ((List.suffix_cons l rest).trans hl)]
  rfl

/-- The keys of an item whose dash is the first thing on its line. -/
theorem itemKeysAt_eq {lines : LineRange}
    (hitem : startsItem (l.text.drop (indentOf l.text)) = true)
    (hlast : lines.last ≤ ls.length) :
    itemKeysAt (texts ls) l.number (indentOf l.text) lines =
      .ok (itemKeys l (indentOf l.text) lines rest) := by
  have hafter := fromByte_dash hitem
  rw [itemKeysAt, textAt_eq hls hl, ok_bind, hafter, ok_bind, itemKeys]
  dsimp only
  split
  · rw [contentLineAt_eq hls hl hlast, ok_bind]
    cases hcontent : contentLine? lines.last rest with
    | none => rfl
    | some found =>
      obtain ⟨first, below⟩ := found
      have hfirst := ((contentLine?_eq_some hcontent).1.trans (List.suffix_cons l rest)).trans hl
      simp only [Option.map_some, textAt_eq hls hfirst, ok_bind, indentAt_eq]
      exact keysAt_eq hls hfirst (fromByte_indentOf first.text) hlast
  · split
    · rfl
    · have hcut := fromByte_add_indentOf hafter
      rw [List.drop_drop] at hcut
      rw [minus_dropWhile, ok_bind, keysAt_eq hls hl hcut hlast]

/-- The rule that begins at a dash is found by the number of its line. -/
theorem ruleSpanAt_eq (hitem : startsItem (l.text.drop (indentOf l.text)) = true) :
    ruleSpanAt (texts ls) l.number (indentOf l.text) =
      .ok (ruleSpan? l (indentOf l.text) rest) := by
  have hle : l.number ≤ (blockEnd? (indentOf l.text) rest).getD l.number :=
    le_lastLine (hls.ascending.suffix hl)
  have hlast : (blockEnd? (indentOf l.text) rest).getD l.number ≤ ls.length :=
    lastLine_le_length hls hl _
  rw [ruleSpanAt, blockEndAt_eq hls hl, ok_bind, runTo_of_le hle, ok_bind,
    itemKeysAt_eq hls hl hitem hlast]
  rfl

/-- What a line holds for the search is what the search goes on with. -/
theorem exists_advance : ∃ next rule, advance (texts ls) l.number = .ok (next + 1, rule) ∧
    l.number ≤ next ∧ rules (l :: rest) = rule.toList ++ rules (linesAfter next rest) := by
  have hown := hls.ascending.suffix hl
  have hon : rules rest = rules (linesAfter l.number rest) := by rw [linesAfter_number hown]
  rw [advance, textAt_eq hls hl, ok_bind, indentAt_eq, ok_bind, fromByte_indentOf, ok_bind, rules]
  dsimp only
  split
  next hitem =>
    rw [ruleSpanAt_eq hls hl hitem, ok_bind]
    cases hrule : ruleSpan? l (indentOf l.text) rest with
    | none => exact ⟨l.number, none, rfl, Nat.le_refl _, hon⟩
    | some r =>
      refine ⟨r.lines.last, some r, rfl, ?_, rfl⟩
      rw [lines_of_ruleSpan? hrule]
      exact le_lastLine hown
  next =>
    rw [splitKeyAt_eq, ok_bind, opensBlockScalar]
    split
    next =>
      rw [blockEndAt_eq hls hl, ok_bind]
      exact ⟨_, none, rfl, le_lastLine hown, rfl⟩
    next => exact ⟨l.number, none, rfl, Nat.le_refl _, hon⟩

end Found

/-! ### The search -/

section Search

variable (hls : Numbered ls)

include hls

/-- Behind each number that is less than that of the last line there is a line. -/
theorem Numbered.exists_suffix (h : n < ls.length) :
    ∃ l rest, l :: rest <:+ ls ∧ l.number = n + 1 := by
  have hdrop : ls[n] :: ls.drop (n + 1) = ls.drop n := (List.drop_eq_getElem_cons h).symm
  have hl : ls[n] :: ls.drop (n + 1) <:+ ls := hdrop ▸ List.drop_suffix n ls
  refine ⟨_, _, hl, ?_⟩
  have hlength := (hls.suffix hl).1
  rw [List.length_drop] at hlength
  omega

/-- There are no lines behind the last one. -/
theorem linesAfter_of_length_le (h : ls.length ≤ n) : linesAfter n ls = [] :=
  List.dropWhile_eq_nil_iff.mpr fun _ hl ↦
    decide_eq_true (Nat.le_trans (hls.bounds hl).2 h)

/-- A round at a line of the text goes on behind the line, with the rule that begins there. -/
theorem exists_ruleRound (h : n < ls.length) (found : List RuleSpan) : ∃ next rule,
    ruleRound (texts ls) (n + 1, found) = .inl (next + 1, found ++ rule) ∧ n < next ∧
      rules (linesAfter n ls) = rule ++ rules (linesAfter next ls) := by
  obtain ⟨l, rest, hl, hnumber⟩ := hls.exists_suffix h
  obtain ⟨next, rule, hadvance, hle, hrules⟩ := exists_advance hls hl
  have hpred := linesAfter_pred hls.ascending hl (by omega)
  rw [hnumber] at hadvance hle hpred
  refine ⟨next, rule.toList, ?_, hle, ?_⟩
  · rw [ruleRound, length_texts, if_neg (by omega), hadvance]
  · rw [Nat.add_sub_cancel] at hpred
    rw [hpred, hrules, linesAfter_of_suffix hls.ascending hl (by omega)]

/-- What the search comes to that goes on with a line. -/
def outcome (ls : List Line) : Nat × List RuleSpan → Counted (List RuleSpan)
  | (0, _) => .error (.noLine 0)
  | (n + 1, found) => .ok (found ++ rules (linesAfter n ls))

/-- The round that ends the search has found what the search comes to. -/
theorem ruleRound_last {s : Nat × List RuleSpan} {found : Counted (List RuleSpan)}
    (h : ruleRound (texts ls) s = .inr found) : outcome ls s = found := by
  obtain ⟨n, before⟩ := s
  cases n with
  | zero => exact Sum.inr.inj h
  | succ n =>
    by_cases hn : n < ls.length
    · obtain ⟨next, rule, hround, -, -⟩ := exists_ruleRound hls hn before
      exact absurd (hround.symm.trans h) Sum.inl_ne_inr
    · rw [ruleRound, length_texts, if_pos (by omega)] at h
      rw [outcome, linesAfter_of_length_le hls (by omega), rules, List.append_nil]
      exact Sum.inr.inj h

/-- Any other round goes further down, and the search still comes to the same. -/
theorem ruleRound_more {s t : Nat × List RuleSpan} (h : ruleRound (texts ls) s = .inl t) :
    s.1 < t.1 ∧ s.1 ≤ ls.length ∧ outcome ls s = outcome ls t := by
  obtain ⟨n, before⟩ := s
  cases n with
  | zero => exact absurd h Sum.inr_ne_inl
  | succ n =>
    by_cases hn : n < ls.length
    · obtain ⟨next, rule, hround, hlt, hrules⟩ := exists_ruleRound hls hn before
      obtain rfl := Sum.inl.inj (hround.symm.trans h)
      exact ⟨Nat.succ_lt_succ hlt, hn, by rw [outcome, outcome, hrules, List.append_assoc]⟩
    · rw [ruleRound, length_texts, if_pos (by omega)] at h
      exact absurd h Sum.inr_ne_inl

/-- With every round fewer lines are left. -/
theorem shrinks_ruleRound : Shrinks (ruleRound (texts ls)) fun s ↦ ls.length + 1 - s.1 := by
  intro s t h
  have hmore := ruleRound_more hls h
  dsimp only
  omega

/-- The rounds of the search come to the rules of the text, and to nothing else. -/
theorem repeats_ruleRound_iff {found : Counted (List RuleSpan)} :
    Repeats (ruleRound (texts ls)) (1, []) found ↔ found = .ok (rules ls) := by
  have hall : linesAfter 0 ls = ls := by
    cases ls with
    | nil => rfl
    | cons l rest =>
      have hpos : ¬l.number ≤ 0 := Nat.not_le_of_lt (hls.bounds List.mem_cons_self).1
      rw [linesAfter, List.dropWhile_cons_of_neg (by simpa using hpos)]
  have hstart : outcome ls (1, []) = .ok (rules ls) := by
    rw [outcome, hall, List.nil_append]
  rw [repeats_iff (shrinks_ruleRound hls) (fun _ _ ↦ ruleRound_last hls)
    fun _ _ h ↦ (ruleRound_more hls h).2.2, hstart]

/-- The keys in the value of a key are found by the number of its line. -/
theorem childrenAt_eq {k : KeySpan} (hl : l :: rest <:+ ls) (hk : KeyAt l column rest k) :
    childrenAt (texts ls) k = .ok (children ls k) := by
  rw [childrenAt, children]
  split
  · rfl
  next hbelow =>
    simp only [Bool.or_eq_true, decide_eq_true_eq, not_or, Bool.not_eq_true] at hbelow
    obtain ⟨first, below, hcontent, hnumber, -⟩ := hk.nested hbelow.1 hbelow.2
    have hfirst := ((contentLine?_eq_some hcontent).1.trans (List.suffix_cons l rest)).trans hl
    have hlast : k.value.last ≤ ls.length :=
      Nat.le_trans hk.last_le (lastLine_le_length hls hl column)
    have hpos := (hls.bounds (hfirst.subset List.mem_cons_self)).1
    rw [← hnumber, linesAfter_pred hls.ascending hfirst hpos, textAt_eq hls hfirst, ok_bind,
      indentAt_eq, ok_bind, keysAt_eq hls hfirst (fromByte_indentOf first.text) hlast]

end Search

/-- The lines of a key and its value do not end in front of their beginning. -/
theorem keyLinesAt_eq (k : KeySpan) : keyLinesAt k = .ok k.lines := by
  rw [keyLinesAt, runTo_of_le (Nat.le_refl _), ok_bind]
  exact runTo_of_le (Nat.le_trans (Nat.min_le_left _ _) (Nat.le_max_left _ _))

/-- The value of a key of a rule, at any depth, does not end in front of its beginning. -/
theorem proper_of_keyOf {r : RuleSpan} {k : KeySpan} (hr : Nested ls r) (hk : KeyOf ls r k) :
    k.value.first ≤ k.value.last := by
  cases hk with
  | key hk => exact (hr.inside k hk).proper
  | child hparent hk => exact ((hr.nested _ hparent).begins k hk).proper

/-- In every text the search of rules goes further down with every round, so it comes to an end; it
comes to the rules, as do the searches for keys in their values, and no number or byte that is
counted on the way misses its line or falls into a character. -/
theorem rules_counted (source : String) :
    (∀ n found next found',
      ruleRound (texts (lines source)) (n, found) = .inl (next, found') → n < next) ∧
    (∀ found, Repeats (ruleRound (texts (lines source))) (1, []) found ↔
      found = .ok (rules (lines source))) ∧
    ∀ r ∈ rules (lines source), r.lines.first ≤ r.lines.last ∧
      ∀ k, KeyOf (lines source) r k → k.value.first ≤ k.value.last ∧ keyLinesAt k = .ok k.lines ∧
        childrenAt (texts (lines source)) k = .ok (children (lines source) k) := by
  have hls := numbered_lines source
  refine ⟨fun n found next found' h ↦ (ruleRound_more hls h).1, fun found ↦
    repeats_ruleRound_iff hls,
    fun r hr ↦ ?_⟩
  have hnested := (rules_nested source).2 r hr
  refine ⟨hnested.proper, fun k hk ↦ ⟨proper_of_keyOf hnested hk, keyLinesAt_eq k, ?_⟩⟩
  rcases exists_keyAt_of_keyOf hls.ascending (fun _ ↦ hls.bounds) hr hk with
    hinline | ⟨l, column, rest, hl, hat⟩
  · rw [childrenAt, children, hinline, Bool.true_or, if_pos rfl, if_pos rfl]
    rfl
  · exact childrenAt_eq hls hl hat

/-- Longer characters behind a backslash and in quotes that nothing closes, and a backslash at the
very end. -/
def unclosed : String :=
  "- 'ä: \"\\\n- alert: \"ü\n  labels:\n    \"\\ä\\\"\": |\n      \\\n    'ö''\n- \"record\\"

/-- The search comes to the rule on the lines 2 to 6, and to the key among its labels. -/
theorem rules_counted_unclosed :
    ∃ r, Repeats (ruleRound (texts (lines unclosed))) (1, []) (.ok [r]) ∧
    r.lines = ⟨2, 6⟩ ∧ ∃ k ∈ r.keys, k.value = ⟨4, 6⟩ ∧ keyLinesAt k = .ok ⟨3, 6⟩ ∧
      (childrenAt (texts (lines unclosed)) k).map (·.map (·.name)) = .ok ["ä\""] := by
  have hfound : ∃ r, rules (lines unclosed) = [r] ∧ r.lines = ⟨2, 6⟩ ∧ ∃ k ∈ r.keys,
      k.value = ⟨4, 6⟩ ∧ k.lines = ⟨3, 6⟩ ∧
        (children (lines unclosed) k).map (·.name) = ["ä\""] := by
    refine ⟨⟨⟨2, 6⟩, [⟨"alert", 2, 2, ⟨2, 2⟩, true⟩, ⟨"labels", 3, 2, ⟨4, 6⟩, false⟩]⟩, ?_, rfl,
      ⟨"labels", 3, 2, ⟨4, 6⟩, false⟩, ?_, rfl, rfl, ?_⟩
    all_goals decide +kernel
  obtain ⟨r, hrules, hlines, k, hk, hvalue, hown, hchildren⟩ := hfound
  obtain ⟨-, hrepeats, hkeys⟩ := rules_counted unclosed
  obtain ⟨-, hkeys⟩ := hkeys r (hrules ▸ List.mem_cons_self)
  obtain ⟨-, hcover, hbelow⟩ := hkeys k (.key hk)
  refine ⟨r, (hrepeats _).mpr (hrules ▸ rfl), hlines, k, hk, hvalue, hcover.trans (hown ▸ rfl), ?_⟩
  rw [hbelow, ← hchildren]
  rfl

end AlertAudit.Locate
