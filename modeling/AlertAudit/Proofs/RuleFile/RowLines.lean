import AlertAudit.Proofs.Yaml.Items
import AlertAudit.RuleFile.Locate
import Mathlib.Algebra.GroupWithZero.Nat

/-!
Where lists of mappings stand that are written one key a line. The lines of the text are its rows
(`linesFrom_rowsText`); the rules that are located are the items with a rule's key, each with the
rows of its fields (`rules_itemsRows`), and the entries of a field are the rows further in
(`children_field`).
-/

set_option autoImplicit false

namespace AlertAudit.Locate

open AlertAudit.Text AlertAudit.Yaml

/-! ### Lines -/

/-- The lines of some rows, the first one with a given number. -/
def rowLines (number : Nat) : List Row → List Line
  | [] => []
  | r :: rows => ⟨number, r.chars⟩ :: rowLines (number + 1) rows

/-- The first line of a text ends at its first line break. -/
theorem firstLine_append {line : List Char} (hline : ∀ c ∈ line, isAscii c) (rest : List Char) :
    firstLine (line ++ '\n' :: rest) = (line, rest) := by
  have htake : (line ++ '\n' :: rest).takeWhile (· ≠ '\n') = line := by
    rw [List.takeWhile_append_of_pos fun c hc ↦
      decide_eq_true (ne_of_isAscii (hline c hc) (by decide))]
    simp
  have hlast : line.getLast? ≠ some '\r' := fun h ↦
    ne_of_isAscii (hline _ (List.mem_of_getLast? h)) (by decide) rfl
  simp only [firstLine, htake, List.drop_left, if_neg hlast]

/-- A row consists of ASCII characters. -/
theorem isAscii_of_mem_chars {r : Row} (hr : r.Fits) {c : Char} (hc : c ∈ r.chars) :
    isAscii c := by
  rcases List.mem_append.mp hc with hc | hc
  · rw [List.eq_of_mem_replicate hc]
    decide
  · exact isAscii_of_mem_body hr hc

/-- The lines of a text of rows are the rows. -/
theorem linesFrom_rowsText {rows : List Row} (hrows : ∀ r ∈ rows, r.Fits) (number : Nat) :
    linesFrom number (rowsText rows) = rowLines number rows := by
  induction rows generalizing number with
  | nil => simp [rowsText, linesFrom, rowLines]
  | cons r rows ih =>
    have hfirst := firstLine_append (fun c ↦ isAscii_of_mem_chars (hrows r List.mem_cons_self))
      (rowsText rows)
    have htext : rowsText (r :: rows) = r.chars ++ '\n' :: rowsText rows := by
      simp [rowsText]
    obtain ⟨c, cs, hcons⟩ : ∃ c cs, r.chars ++ '\n' :: rowsText rows = c :: cs :=
      List.exists_cons_of_ne_nil (by simp)
    rw [htext, hcons, linesFrom, ← hcons, hfirst,
      ih (fun r hr ↦ hrows r (List.mem_cons_of_mem _ hr)), rowLines]

/-- The lines behind a line are the rows behind it. -/
theorem linesAfter_rowLines {last number : Nat} (h : number ≤ last + 1) (rows : List Row) :
    linesAfter last (rowLines number rows) =
      rowLines (last + 1) (rows.drop (last + 1 - number)) := by
  induction rows generalizing number with
  | nil => simp [linesAfter, rowLines]
  | cons r rows ih =>
    by_cases hle : number ≤ last
    · have hsub : last + 1 - number = last + 1 - (number + 1) + 1 := by omega
      rw [rowLines, linesAfter, List.dropWhile_cons_of_pos (by simpa using hle), ← linesAfter,
        ih (by omega), hsub, List.drop_succ_cons]
    · obtain rfl : number = last + 1 := by omega
      rw [rowLines, linesAfter, List.dropWhile_cons_of_neg (by simp), Nat.sub_self, List.drop_zero,
        rowLines]

/-! ### One line -/

theorem isBlank_of_isAscii {c : Char} (h : isAscii c) : isBlank c = decide (c = ' ') := by
  have hrange : 0x20 ≤ c.toNat ∧ c.toNat ≤ 0x7E := by simpa [isAscii] using h
  by_cases hspace : c = ' '
  · rw [hspace]
    rfl
  · have hne : c.toNat ≠ 0x20 := fun hn ↦ hspace (Char.ext (UInt32.toNat_inj.mp hn))
    simp only [isBlank, decide_eq_false hspace]
    simp
    omega

/-- A row has content behind its indentation, which is no comment. -/
theorem exists_cons_body {r : Row} (hr : r.Fits) :
    ∃ c cs, r.body = c :: cs ∧ isBlank c = false ∧ c ≠ ' ' ∧ c ≠ '#' := by
  obtain ⟨c, cs, hcons, hc⟩ := Scan.startsToken_body hr []
  rw [List.append_nil] at hcons
  have hprintable : isAscii c := isAscii_of_mem_body hr (hcons ▸ List.mem_cons_self)
  simp only [Scan.startsToken, isSeparator_of_isAscii hprintable, Bool.and_eq_true,
    Bool.not_eq_true', decide_eq_false_iff_not, decide_eq_true_eq] at hc
  exact ⟨c, cs, hcons, by simp [isBlank_of_isAscii hprintable, hc.1.1], hc.1.1, hc.1.2⟩

theorem indentOf_replicate {c : Char} (hc : c ≠ ' ') (k : Nat) (cs : List Char) :
    indentOf (List.replicate k ' ' ++ c :: cs) = k := by
  rw [indentOf, List.takeWhile_append_of_pos (by simp [isSpace])]
  simp [isSpace, hc]

/-- A row is indented up to its column. -/
theorem indentOf_chars {r : Row} (hr : r.Fits) : indentOf r.chars = r.column := by
  obtain ⟨c, cs, hcons, -, hspace, -⟩ := exists_cons_body hr
  rw [Row.chars, hcons, indentOf_replicate hspace]

/-- Behind its indentation a row has its body. -/
theorem drop_column_chars (r : Row) : r.chars.drop r.column = r.body := by
  rw [Row.chars, List.drop_append_of_le_length (by simp)]
  simp

/-- A row is not blank. -/
theorem isBlankText_chars {r : Row} (hr : r.Fits) : isBlankText r.chars = false := by
  obtain ⟨c, cs, hcons, hblank, -⟩ := exists_cons_body hr
  simp [isBlankText, Row.chars, hcons, hblank]

/-- A row is no comment. -/
theorem isComment_chars {r : Row} (hr : r.Fits) : isComment r.chars = false := by
  obtain ⟨c, cs, hcons, hblank, -, hhash⟩ := exists_cons_body hr
  rw [isComment, trimStart, Row.chars, List.dropWhile_append_of_pos (by simp [isBlank]), hcons,
    List.dropWhile_cons_of_neg (by simp [hblank])]
  simpa using hhash

/-- A row has content at its column. -/
theorem contentColumn?_chars {r : Row} (hr : r.Fits) : contentColumn? r.chars = some r.column := by
  simp [contentColumn?, isBlankText_chars hr, isComment_chars hr, indentOf_chars hr]

/-- A text in single quotes is read up to the quote that is not doubled. -/
theorem singleQuoted?_doubled (text : List Char) {d : Char} (hd : d ≠ '\'') (cs : List Char) :
    singleQuoted? (doubled text ++ '\'' :: d :: cs) = some (text, d :: cs) := by
  induction text with
  | nil => simp [singleQuoted?, hd]
  | cons c text ih =>
    rw [doubled_cons]
    by_cases hc : c = '\''
    · rw [if_pos hc, hc]
      simp [singleQuoted?, ih]
    · rw [if_neg hc]
      simp [singleQuoted?, hc, ih]

/-- A word is read up to its colon. -/
theorem plainKey?_word {text after : List Char} (htext : ':' ∉ text)
    (hafter : after.head?.all fun d ↦ d = ' ' || d = '\t') :
    plainKey? (text ++ ':' :: after) = some (text, ':' :: after) := by
  induction text with
  | nil => simp only [List.nil_append, plainKey?, hafter, decide_true, Bool.and_self, if_true]
  | cons c text ih =>
    obtain ⟨hc, htext⟩ := not_or.mp (List.mem_cons.not.mp htext)
    simp [plainKey?, ih htext, Ne.symm hc]

/-- A word has no white space at its end. -/
theorem trimEnd_word {text : List Char} (htext : ∀ c ∈ text, RowKey.isWordChar c) :
    trimEnd text = text := by
  have hblank : ∀ c ∈ text, isBlank c = false := by
    intro c hc
    rw [isBlank_of_isAscii (RowKey.isWordChar_iff.mp (htext c hc)).1,
      decide_eq_false (RowKey.ne_of_isWordChar (htext c hc) (by decide))]
  have hreverse : text.reverse.dropWhile isBlank = text.reverse := by
    cases hrev : text.reverse with
    | nil => rfl
    | cons c cs =>
      have hc : c ∈ text := by
        rw [← List.mem_reverse, hrev]
        exact List.mem_cons_self
      rw [List.dropWhile_cons_of_neg (by simp [hblank c hc])]
  rw [trimEnd, hreverse, List.reverse_reverse]

/-- The key of a line is read back from it. -/
theorem splitKey?_chars {key : RowKey} (hkey : key.Fits) (after : List Char)
    (hafter : after.head?.all fun d ↦ d = ' ' || d = '\t') :
    splitKey? (key.chars ++ ':' :: after) = some (String.ofList key.text, after) := by
  cases key with
  | quoted text =>
    have hread := singleQuoted?_doubled text (show ':' ≠ '\'' by decide) after
    simp [RowKey.chars, RowKey.text, quotation, splitKey?, hread, isSpace, hafter]
  | word text =>
    obtain ⟨hne, htext, -⟩ := hkey
    have hread := plainKey?_word
      (fun h ↦ RowKey.ne_of_isWordChar (htext ':' h) (by decide) rfl) hafter
    have htrim := trimEnd_word htext
    obtain ⟨c, text, rfl⟩ := List.exists_cons_of_ne_nil hne
    have hc {d : Char} (hd : Scan.isIndicator d) : c ≠ d :=
      RowKey.ne_of_isWordChar (htext c List.mem_cons_self) hd
    have hkey : startsNoKey c = false := by
      simp [startsNoKey, hc (d := '-') (by decide), hc (d := '#') (by decide),
        hc (d := '\x7b') (by decide), hc (d := '[') (by decide), hc (d := '|') (by decide),
        hc (d := '>') (by decide)]
    simp only [List.cons_append] at hread
    simp [RowKey.chars, RowKey.text, splitKey?, hc (d := '\'') (by decide),
      hc (d := '"') (by decide), hkey, hread, htrim, isSpace, hafter]

/-! ### Blocks -/

variable {column width : Nat} {inner rows : List Row}

/-- Rows no further in than a column are no block there. -/
theorem blockEnd?_rowLines_eq_none (number : Nat) (hrows : ∀ r ∈ rows, r.Fits)
    (h : ∀ r ∈ rows.head?, r.column ≤ column) : blockEnd? column (rowLines number rows) = none := by
  cases rows with
  | nil => rfl
  | cons r rows =>
    have hr := hrows r List.mem_cons_self
    simp [rowLines, blockEnd?, isBlankText_chars hr, indentOf_chars hr, isComment_chars hr, h r rfl]

/-- The rows further in than a column are the block there. -/
theorem blockEnd?_rowLines (number : Nat) (hinner : ∀ r ∈ inner, r.Fits)
    (hrows : ∀ r ∈ rows, r.Fits)
    (hdeeper : ∀ r ∈ inner, column < r.column) (h : ∀ r ∈ rows.head?, r.column ≤ column) :
    blockEnd? column (rowLines (number + 1) (inner ++ rows)) =
      if inner = [] then none else some (number + inner.length) := by
  induction inner generalizing number with
  | nil => exact blockEnd?_rowLines_eq_none _ hrows h
  | cons r inner ih =>
    have hr := hinner r List.mem_cons_self
    have hcolumn := hdeeper r List.mem_cons_self
    have hrest := ih (number + 1) (fun r hr ↦ hinner r (List.mem_cons_of_mem _ hr))
      (fun r hr ↦ hdeeper r (List.mem_cons_of_mem _ hr))
    simp only [List.cons_append, rowLines, blockEnd?, isBlankText_chars hr, indentOf_chars hr,
      hrest, Nat.not_le_of_lt hcolumn, Bool.false_eq_true, if_false]
    split
    next hnil => simp [hnil]
    next => simp; omega

/-! ### Keys -/

def height (f : Field) : Nat :=
  match f.content with
  | .text _ => 1
  | .entries es => es.length + 1

/-- Where a field stands whose key is at a place. -/
def fieldSpan (column number : Nat) (f : Field) : KeySpan :=
  { name := String.ofList f.key.text
    line := number
    column
    value := match f.content with
      | .text _ => .single number
      | .entries es => ⟨number + 1, number + es.length⟩
    isInline := match f.content with
      | .text _ => true
      | .entries _ => false }

/-- Where some fields stand that begin in a line. -/
def fieldSpans (column number : Nat) : List Field → List KeySpan
  | [] => []
  | f :: fields => fieldSpan column number f :: fieldSpans column (number + height f) fields

/-- A field has as many rows as its height. -/
theorem length_rows (f : Field) : (f.rows column width).length = height f := by
  obtain ⟨key, value | es⟩ := f <;> simp [Field.rows, height]

/-- A key with a text on its line. -/
theorem keySpan?_text {l : Line} {key : RowKey} (hkey : key.Fits) {value : List Char}
    (hdrop : l.text.drop column = key.chars ++ ':' :: ' ' :: quotation value) {rest : List Line}
    (hrest : blockEnd? column rest = none) :
    keySpan? l column rest =
      some ⟨String.ofList key.text, l.number, column, .single l.number, true⟩ := by
  have hsplit := splitKey?_chars hkey (' ' :: quotation value) (by simp)
  have hafter : trimStart (' ' :: quotation value) = quotation value := by
    rw [trimStart, List.dropWhile_cons_of_pos (by decide), quotation,
      List.dropWhile_cons_of_neg (by decide)]
  have hnested : startsNested (' ' :: quotation value) = false := by
    rw [startsNested, hafter]
    simp [quotation]
  have hblock : startsBlockScalar (' ' :: quotation value) = false := by
    simp only [startsBlockScalar, hafter]
    simp [quotation]
  simp [keySpan?, hdrop, hsplit, hnested, hblock, hrest, LineRange.single]

/-- A field is located with all of its rows, in front of rows no further in. -/
theorem keySpan?_field (number : Nat) {f : Field} (hf : f.Fits) (hwidth : 0 < width) {r : Row}
    (hsplit : f.rows column width = r :: inner) (rows : List Row) (hrows : ∀ r ∈ rows, r.Fits)
    (h : ∀ r ∈ rows.head?, r.column ≤ column) :
    keySpan? ⟨number, r.chars⟩ column (rowLines (number + 1) (inner ++ rows)) =
      some (fieldSpan column number f) := by
  obtain ⟨key, value | es⟩ := f
  · obtain ⟨rfl, rfl⟩ := List.cons.inj hsplit
    have hdrop := drop_column_chars { column, key, value := some value }
    exact keySpan?_text hf.key hdrop (blockEnd?_rowLines_eq_none _ hrows h)
  · obtain ⟨rfl, rfl⟩ := List.cons.inj hsplit
    obtain ⟨hne, hentries⟩ := hf.entries es rfl
    have hdrop := drop_column_chars { column, key }
    have hkey := splitKey?_chars hf.key [] rfl
    have hinner : ∀ r ∈ es.map (entryRow (column + width)), r.Fits := by
      intro r hr
      obtain ⟨e, he, rfl⟩ := List.mem_map.mp hr
      exact ⟨(hentries e he).1, fun v hv ↦ Option.some.inj hv ▸ (hentries e he).2⟩
    have hdeeper : ∀ r ∈ es.map (entryRow (column + width)), column < r.column := by
      intro r hr
      obtain ⟨e, he, rfl⟩ := List.mem_map.mp hr
      simp only [entryRow]
      omega
    have hend := blockEnd?_rowLines number hinner hrows hdeeper h
    obtain ⟨e, es, rfl⟩ := List.exists_cons_of_ne_nil hne
    have hfirst := hinner _ List.mem_cons_self
    simp only [Row.body, Row.valueChars, Bool.false_eq_true, if_false, List.nil_append,
      Option.elim_none] at hdrop
    have hcontent : contentLine? (number + (e :: es).length)
        (rowLines (number + 1) ((e :: es).map (entryRow (column + width)) ++ rows)) =
      some (⟨number + 1, (entryRow (column + width) e).chars⟩,
        rowLines (number + 2) (es.map (entryRow (column + width)) ++ rows)) := by
      simp [rowLines, contentLine?, isBlankText_chars hfirst]
    simp only [List.map_cons, List.cons_append, List.length_cons] at hcontent
    have hnone : trimStart [] = [] := rfl
    simp only [keySpan?, hdrop, hkey, hend, Option.bind_eq_bind, Option.bind_some, startsNested,
      startsBlockScalar, hnone]
    simp [hcontent, fieldSpan]

/-- Rows further in hold no key at a column. -/
theorem keysBelow_inner (number : Nat) {last : Nat} (hinner : ∀ r ∈ inner, r.Fits)
    (hdeeper : ∀ r ∈ inner, column < r.column) (rows : List Row)
    (hlast : number + inner.length ≤ last + 1) :
    keysBelow column last (rowLines number (inner ++ rows)) =
      keysBelow column last (rowLines (number + inner.length) rows) := by
  induction inner generalizing number with
  | nil => rfl
  | cons r inner ih =>
    have hr := hinner r List.mem_cons_self
    have hcolumn := hdeeper r List.mem_cons_self
    simp only [List.length_cons] at hlast
    have hrest := ih (number + 1) (fun r hr ↦ hinner r (List.mem_cons_of_mem _ hr))
      (fun r hr ↦ hdeeper r (List.mem_cons_of_mem _ hr)) (by omega)
    have hlength : number + 1 + inner.length = number + (r :: inner).length := by
      simp only [List.length_cons]
      omega
    rw [List.cons_append, rowLines, keysBelow, if_neg (by simp only; omega),
      contentColumn?_chars hr, if_neg (by simpa using (Nat.ne_of_lt hcolumn).symm), hrest, hlength]

def heights (fields : List Field) : Nat := (fields.map height).sum

/-- Some fields have as many rows as all of them together. -/
theorem length_fieldsRows (column width : Nat) (fields : List Field) :
    (fields.flatMap (Field.rows column width)).length = heights fields := by
  simp [heights, List.length_flatMap, length_rows]

/-- A field begins with a row at its column, and its other rows are further in. -/
theorem exists_cons_rows (column width : Nat) (f : Field) : ∃ r inner,
    f.rows column width = r :: inner ∧ r.column = column ∧ r.dash = false ∧
      (0 < width → ∀ r ∈ inner, column < r.column) := by
  obtain ⟨key, value | es⟩ := f
  · exact ⟨_, [], rfl, rfl, rfl, fun _ r hr ↦ absurd hr List.not_mem_nil⟩
  · refine ⟨_, es.map (entryRow (column + width)), rfl, rfl, rfl, fun hwidth r hr ↦ ?_⟩
    obtain ⟨e, -, rfl⟩ := List.mem_map.mp hr
    exact Nat.lt_add_of_pos_right hwidth

/-- The keys of the rows of some fields, in front of rows no further in. -/
theorem keysBelow_fields (number : Nat) (hwidth : 0 < width) {fields : List Field}
    (hfields : ∀ f ∈ fields, f.Fits) (hrows : ∀ r ∈ rows, r.Fits)
    (h : ∀ r ∈ rows.head?, r.column ≤ column) (last : Nat)
    (hlast : last + 1 = number + heights fields) :
    keysBelow column last (rowLines number (fields.flatMap (Field.rows column width) ++ rows)) =
      fieldSpans column number fields := by
  induction fields generalizing number with
  | nil =>
    cases rows with
    | nil => rfl
    | cons r rows =>
      simp only [heights, List.map_nil, List.sum_nil] at hlast
      simp only [List.flatMap_nil, List.nil_append, rowLines, keysBelow, fieldSpans]
      rw [if_pos (by omega)]
  | cons f fields ih =>
    have hf := hfields f List.mem_cons_self
    have hrest := fun g hg ↦ hfields g (List.mem_cons_of_mem _ hg)
    obtain ⟨r, inner, hsplit, hcolumn, -, hdeeper⟩ := exists_cons_rows column width f
    have hfits : ∀ s ∈ r :: inner, s.Fits := fun s hs ↦ fits_of_mem_rows hf (hsplit ▸ hs)
    have hr := hfits r List.mem_cons_self
    have hheight : height f = inner.length + 1 := by rw [← length_rows, hsplit]; rfl
    have hmore : ∀ r ∈ fields.flatMap (Field.rows column width) ++ rows, r.Fits := fun r hr ↦
      (List.mem_append.mp hr).elim (fits_of_mem_fieldsRows hrest r) (hrows r)
    have hkey := keySpan?_field number hf hwidth hsplit _ hmore
      (column_le_of_mem_head? h)
    have hsum : heights (f :: fields) = height f + heights fields := rfl
    have hskip := keysBelow_inner (number + 1) (fun s hs ↦ hfits s (List.mem_cons_of_mem _ hs))
      (hdeeper hwidth) (fields.flatMap (Field.rows column width) ++ rows)
      (show number + 1 + inner.length ≤ last + 1 by omega)
    have hnumber : number + 1 + inner.length = number + height f := by omega
    rw [List.flatMap_cons, hsplit, List.append_assoc, List.cons_append, rowLines, keysBelow,
      if_neg (by simp only; omega), contentColumn?_chars hr, hcolumn, if_pos rfl, hkey, hskip,
      hnumber, ih _ hrest (by omega)]
    rfl

/-! ### Rules -/

/-- Where an item stands that begins in a line. -/
def itemSpan (column number : Nat) (i : Item) : RuleSpan :=
  { lines := ⟨number, number + heights i.fields⟩
    keys := ⟨String.ofList i.key.text, number, column + 2, .single number, true⟩ ::
      fieldSpans (column + 2) (number + 1) i.fields }

/-- Where some items stand that begin in a line. -/
def itemSpans (column number : Nat) : List Item → List RuleSpan
  | [] => []
  | i :: items =>
    itemSpan column number i :: itemSpans column (number + heights i.fields + 1) items

/-- The rows of the fields of an item are further in than its dash. -/
theorem column_lt_of_mem_fieldsRows {fields : List Field} {r : Row}
    (hr : r ∈ fields.flatMap (Field.rows (column + 2) width)) : column < r.column := by
  obtain ⟨f, -, hr⟩ := List.mem_flatMap.mp hr
  obtain ⟨key, value | es⟩ := f
  · obtain rfl := List.mem_singleton.mp hr
    exact Nat.lt_add_of_pos_right (by decide)
  · rcases List.mem_cons.mp hr with rfl | hr
    · exact Nat.lt_add_of_pos_right (by decide)
    · obtain ⟨e, -, rfl⟩ := List.mem_map.mp hr
      simp only [entryRow]
      omega

/-- The name of a key that tells a rule from other list items. -/
def namesRule (name : String) : Bool := name = "alert" || name = "record"

/-- The item has a key that names a rule. -/
def isRuleItem (i : Item) : Bool :=
  namesRule (String.ofList i.key.text) ||
    i.fields.any fun f ↦ namesRule (String.ofList f.key.text)

/-- Some items, each with the line in which it begins. -/
def itemsFrom (number : Nat) : List Item → List (Nat × Item)
  | [] => []
  | i :: items => (number, i) :: itemsFrom (number + heights i.fields + 1) items

/-- Where those of some items stand that are rules. -/
def ruleSpans (column : Nat) (items : List (Nat × Item)) : List RuleSpan :=
  (items.filter (isRuleItem ·.2)).map fun p ↦ itemSpan column p.1 p.2

/-- An item stands in front of the other ones if it is a rule. -/
theorem ruleSpans_cons (column number : Nat) (i : Item) (items : List (Nat × Item)) :
    ruleSpans column ((number, i) :: items) =
      (if isRuleItem i then [itemSpan column number i] else []) ++ ruleSpans column items := by
  simp only [ruleSpans, List.filter_cons]
  split <;> rfl

/-- Where all items are rules, all of them are located. -/
theorem ruleSpans_itemsFrom (column number : Nat) {items : List Item}
    (h : ∀ i ∈ items, isRuleItem i) :
    ruleSpans column (itemsFrom number items) = itemSpans column number items := by
  induction items generalizing number with
  | nil => rfl
  | cons i items ih =>
    obtain ⟨hi, hitems⟩ := List.forall_mem_cons.mp h
    rw [itemSpans, itemsFrom, ruleSpans_cons, if_pos hi, ih _ hitems, List.singleton_append]

/-- No key begins like a comment, a flow mapping or another item. -/
theorem head_chars {key : RowKey} (hkey : key.Fits) (rest : List Char) :
    ∃ c cs, key.chars ++ rest = c :: cs ∧ c ≠ ' ' ∧ c ≠ '#' ∧ c ≠ '\x7b' ∧ c ≠ '-' := by
  cases key with
  | word text =>
    obtain ⟨c, text, rfl⟩ := List.exists_cons_of_ne_nil hkey.1
    have hc := hkey.2.1 c List.mem_cons_self
    have hne {d : Char} (hd : Scan.isIndicator d) : c ≠ d := RowKey.ne_of_isWordChar hc hd
    exact ⟨c, _, rfl, hne (by decide), hne (by decide), hne (by decide), hne (by decide)⟩
  | quoted text => exact ⟨'\'', _, rfl, by decide, by decide, by decide, by decide⟩

/-- The names of the located keys are those of the fields. -/
theorem any_fieldSpans (number : Nat) (fields : List Field) (p : String → Bool) :
    (fieldSpans column number fields).any (fun k ↦ p k.name) =
      fields.any fun f ↦ p (String.ofList f.key.text) := by
  induction fields generalizing number with
  | nil => rfl
  | cons f fields ih => rw [fieldSpans, List.any_cons, List.any_cons, ih, fieldSpan]

/-- Behind its dash an item begins with its key. -/
theorem drop_row (column : Nat) (i : Item) : (i.row column).chars.drop (column + 2) =
    i.key.chars ++ ':' :: ' ' :: quotation i.value := by
  have hdash : (i.row column).chars.drop column = (i.row column).body :=
    drop_column_chars (i.row column)
  rw [← List.drop_drop, hdash]
  rfl

/-- The keys of an item are looked for from behind its dash on. -/
theorem itemKeys_row (number : Nat) {i : Item} (hi : i.Fits) (lines : LineRange)
    (rest : List Line) : itemKeys ⟨number, (i.row column).chars⟩ column lines rest =
      keysFrom ⟨number, (i.row column).chars⟩ (column + 2) lines.last rest := by
  obtain ⟨c, cs, hcons, hspace, hhash, hbrace, -⟩ :=
    head_chars hi.key (':' :: ' ' :: quotation i.value)
  have hdash : (i.row column).chars.drop column = (i.row column).body :=
    drop_column_chars (i.row column)
  have hafter : (i.row column).chars.drop (column + 1) = ' ' :: c :: cs := by
    rw [← List.drop_drop, hdash, ← hcons]
    rfl
  have hindent : indentOf (' ' :: c :: cs) = 1 := indentOf_replicate hspace 1 cs
  have hcontent : (' ' :: c :: cs).dropWhile isSpace = c :: cs := by
    rw [List.dropWhile_cons_of_pos rfl,
      List.dropWhile_cons_of_neg (by simpa [isSpace] using hspace)]
  simp only [itemKeys, hafter, hcontent, List.head?_cons, hindent]
  rw [if_neg (by simpa using hhash), if_neg (by simpa using hbrace)]

/-- An item with the key of a rule is located with the rows of its fields. -/
theorem ruleSpan?_item (number : Nat) (hwidth : 0 < width) {i : Item} (hi : i.Fits)
    (hrows : ∀ r ∈ rows, r.Fits) (h : ∀ r ∈ rows.head?, r.column ≤ column) :
    ruleSpan? ⟨number, (i.row column).chars⟩
      column (rowLines (number + 1) (i.fields.flatMap (Field.rows (column + 2) width) ++ rows)) =
      if isRuleItem i then some (itemSpan column number i) else none := by
  have hinner : ∀ r ∈ i.fields.flatMap (Field.rows (column + 2) width), r.Fits :=
    fits_of_mem_fieldsRows hi.fields
  have hbelow : ∀ r ∈ rows.head?, r.column ≤ column + 2 := fun r hr ↦ (h r hr).trans (by omega)
  have hend : (blockEnd? column (rowLines (number + 1)
      (i.fields.flatMap (Field.rows (column + 2) width) ++ rows))).getD number =
      number + heights i.fields := by
    rw [blockEnd?_rowLines number hinner hrows (fun r ↦ column_lt_of_mem_fieldsRows) h,
      ← length_fieldsRows (column + 2) width]
    split
    next hnil => simp [hnil]
    next => rfl
  have hall : ∀ r ∈ i.fields.flatMap (Field.rows (column + 2) width) ++ rows, r.Fits := fun r hr ↦
    (List.mem_append.mp hr).elim (hinner r) (hrows r)
  have hhead := keySpan?_text (l := ⟨number, (i.row column).chars⟩) hi.key (drop_row column i)
    (blockEnd?_rowLines_eq_none (number + 1) hall (column_le_of_mem_head? hbelow))
  have hbelow := keysBelow_fields (number + 1) hwidth hi.fields hrows hbelow
    (number + heights i.fields) (by omega)
  have hkeys : itemKeys ⟨number, (i.row column).chars⟩ column
      ⟨number, number + heights i.fields⟩ (rowLines (number + 1)
        (i.fields.flatMap (Field.rows (column + 2) width) ++ rows)) =
      (itemSpan column number i).keys := by
    rw [itemKeys_row number hi, keysFrom, hhead, hbelow]
    rfl
  have hany : ((itemSpan column number i).keys.any fun k ↦
      k.name = "alert" || k.name = "record") = isRuleItem i := by
    rw [isRuleItem, ← any_fieldSpans (number + 1) i.fields namesRule]
    rfl
  rw [ruleSpan?]
  simp only [hend, hkeys, hany]
  rfl

/-- The rows of fields begin no items. -/
theorem dash_of_mem_fieldsRows {fields : List Field} {r : Row}
    (hr : r ∈ fields.flatMap (Field.rows column width)) : r.dash = false := by
  obtain ⟨f, -, hr⟩ := List.mem_flatMap.mp hr
  obtain ⟨key, value | es⟩ := f
  · rw [List.mem_singleton.mp hr]
  · rcases List.mem_cons.mp hr with rfl | hr
    · rfl
    · obtain ⟨e, -, rfl⟩ := List.mem_map.mp hr
      rfl

/-- A key on its own line that stands in no rule is passed over. -/
theorem rules_row_cons {r : Row} (hr : r.Fits) (hdash : r.dash = false) (number : Nat)
    (ls : List Line) : rules (⟨number, r.chars⟩ :: ls) = rules ls := by
  obtain ⟨c, cs, hcons, -, -, -, hminus⟩ := head_chars hr.key r.valueChars
  have hbody : r.body = r.key.chars ++ r.valueChars := by simp [Row.body, hdash]
  have hitem : startsItem r.body = false := by
    rw [hbody, hcons]
    simp [startsItem, hminus]
  have hscalar : opensBlockScalar r.body = false := by
    have hsplit := splitKey?_chars hr.key (r.value.elim [] fun v ↦ ' ' :: quotation v)
      (by cases r.value <;> simp)
    rw [opensBlockScalar, hbody, Row.valueChars, hsplit]
    cases r.value with
    | none => rfl
    | some v => simp [startsBlockScalar, trimStart, quotation, isBlank]
  rw [rules]
  simp only [indentOf_chars hr, drop_column_chars, hitem, hscalar, Bool.false_eq_true, if_false]

/-- Rows without a dash hold no rules. -/
theorem rules_rows (number : Nat) (hinner : ∀ r ∈ inner, r.Fits ∧ r.dash = false)
    (rows : List Row) : rules (rowLines number (inner ++ rows)) =
      rules (rowLines (number + inner.length) rows) := by
  induction inner generalizing number with
  | nil => rfl
  | cons r inner ih =>
    obtain ⟨⟨hfits, hdash⟩, hinner⟩ := List.forall_mem_cons.mp hinner
    rw [List.cons_append, rowLines, rules_row_cons hfits hdash, ih _ hinner, List.length_cons,
      Nat.add_right_comm, Nat.add_assoc]

section ItemRow

variable {i : Item} {number : Nat} {rest : List Line}

/-- The first row of an item begins with a dash. -/
theorem startsItem_row (i : Item) (column : Nat) :
    startsItem ((i.row column).chars.drop column) = true := by
  have hdrop : (i.row column).chars.drop column = (i.row column).body :=
    drop_column_chars (i.row column)
  rw [hdrop]
  rfl

/-- What is inside of a rule holds no further rules. -/
theorem rules_row_of_some (hi : i.Fits) {span : RuleSpan}
    (h : ruleSpan? ⟨number, (i.row column).chars⟩ column rest = some span) :
    rules (⟨number, (i.row column).chars⟩ :: rest) =
      span :: rules (linesAfter span.lines.last rest) := by
  have hindent : indentOf (i.row column).chars = column := indentOf_chars (fits_row hi)
  rw [rules]
  simp only [hindent, startsItem_row, if_true, h]

/-- An item without the key of a rule is passed over with its first row. -/
theorem rules_row_of_none (hi : i.Fits)
    (h : ruleSpan? ⟨number, (i.row column).chars⟩ column rest = none) :
    rules (⟨number, (i.row column).chars⟩ :: rest) = rules rest := by
  have hindent : indentOf (i.row column).chars = column := indentOf_chars (fits_row hi)
  rw [rules]
  simp only [hindent, startsItem_row, if_true, h]

end ItemRow

/-- The rules that are located are the items with the key of a rule. -/
theorem rules_items (number : Nat) (hwidth : 0 < width) {items : List Item}
    (hitems : ∀ i ∈ items, i.Fits) (hrows : ∀ r ∈ rows, r.Fits)
    (h : ∀ r ∈ rows.head?, r.column ≤ column) :
    rules (rowLines number (itemsRows column width items ++ rows)) =
      ruleSpans column (itemsFrom number items) ++
        rules (rowLines (number + (itemsRows column width items).length) rows) := by
  induction items generalizing number with
  | nil => rfl
  | cons i items ih =>
    have hi := hitems i List.mem_cons_self
    have hmore := fun j hj ↦ hitems j (List.mem_cons_of_mem i hj)
    have hrest := ih (number + heights i.fields + 1) hmore
    have hlength : number + (itemsRows column width (i :: items)).length =
        number + heights i.fields + 1 + (itemsRows column width items).length := by
      rw [itemsRows_cons, List.length_cons, List.length_append, length_fieldsRows]
      omega
    have hbehind : ∀ r ∈ itemsRows column width items ++ rows, r.Fits := fun r hr ↦
      (List.mem_append.mp hr).elim (fits_of_mem_itemsRows hmore r) (hrows r)
    have hbelow : ∀ r ∈ (itemsRows column width items ++ rows).head?, r.column ≤ column := by
      intro r hr
      cases items with
      | nil => exact h r hr
      | cons j items =>
        rw [itemsRows_cons, List.cons_append] at hr
        obtain rfl := Option.some.inj hr
        exact Nat.le_refl _
    have hspan := ruleSpan?_item number hwidth hi hbehind hbelow
    rw [hlength, itemsRows_cons, List.cons_append, List.append_assoc, rowLines, itemsFrom,
      ruleSpans_cons]
    by_cases hrule : isRuleItem i = true
    · have hafter : linesAfter (number + heights i.fields) (rowLines (number + 1)
          (i.fields.flatMap (Field.rows (column + 2) width) ++
            (itemsRows column width items ++ rows))) =
          rowLines (number + heights i.fields + 1) (itemsRows column width items ++ rows) := by
        rw [linesAfter_rowLines (by omega), List.drop_append_of_le_length
          (by rw [length_fieldsRows]; omega), List.drop_eq_nil_of_le
          (by rw [length_fieldsRows]; omega), List.nil_append]
      rw [if_pos hrule] at hspan ⊢
      rw [rules_row_of_some hi hspan, itemSpan, hafter, hrest, List.singleton_append,
        List.cons_append]
    · rw [if_neg hrule] at hspan ⊢
      have hfields : ∀ r ∈ i.fields.flatMap (Field.rows (column + 2) width),
          r.Fits ∧ r.dash = false := fun r hr ↦
        ⟨fits_of_mem_fieldsRows hi.fields r hr, dash_of_mem_fieldsRows hr⟩
      rw [rules_row_of_none hi hspan, rules_rows _ hfields, length_fieldsRows, Nat.add_right_comm,
        hrest, List.nil_append]

/-- The rules that are located in a list are its items with the key of a rule. -/
theorem rules_itemsRows (number : Nat) (hwidth : 0 < width) {items : List Item}
    (hitems : ∀ i ∈ items, i.Fits) : rules (rowLines number (itemsRows column width items)) =
      ruleSpans column (itemsFrom number items) := by
  have hrules : rules (rowLines number (itemsRows column width items ++ [])) =
      ruleSpans column (itemsFrom number items) ++ rules [] :=
    rules_items number hwidth hitems (by simp) (by simp)
  rwa [List.append_nil, rules, List.append_nil] at hrules

/-! ### Entries -/

def entryField (e : List Char × List Char) : Field := ⟨.quoted e.1, .text e.2⟩

/-- The keys below the key of a field are its entries. -/
theorem children_field (number : Nat) {ls : List Line} {f : Field} (hf : f.Fits)
    {es : List (List Char × List Char)} (hes : f.content = .entries es) {right : Nat}
    (hrows : ∀ r ∈ rows, r.Fits) (h : ∀ r ∈ rows.head?, r.column ≤ right)
    (hls : linesAfter number ls = rowLines (number + 1) (es.map (entryRow right) ++ rows)) :
    children ls (fieldSpan column number f) =
      fieldSpans right (number + 1) (es.map entryField) := by
  obtain ⟨key, content⟩ := f
  obtain rfl : content = .entries es := hes
  obtain ⟨hne, hentries⟩ := hf.entries _ rfl
  have hfields : ∀ g ∈ es.map entryField, g.Fits := by
    intro g hg
    obtain ⟨e, he, rfl⟩ := List.mem_map.mp hg
    exact ⟨(hentries e he).1, fun v hv ↦ Content.text.inj hv ▸ (hentries e he).2,
      fun es hes ↦ absurd hes (by simp [entryField])⟩
  have hrowsOf (es : List (List Char × List Char)) :
      es.map (entryRow right) = (es.map entryField).flatMap (Field.rows right 1) := by
    rw [List.flatMap_map]
    exact (List.flatMap_singleton' _).symm.trans (List.flatMap_map ..)
  obtain ⟨e, es, rfl⟩ := List.exists_cons_of_ne_nil hne
  have hmore := fun g hg ↦ hfields g (List.mem_cons_of_mem (entryField e) hg)
  have hkey := keySpan?_field (number + 1) (hfields _ List.mem_cons_self) Nat.one_pos
    (show (entryField e).rows right 1 = [entryRow right e] from rfl)
    ((es.map entryField).flatMap (Field.rows right 1) ++ rows)
    (fun r hr ↦ (List.mem_append.mp hr).elim (fits_of_mem_fieldsRows hmore r) (hrows r))
    (column_le_of_mem_head? h)
  have hheights : heights (es.map entryField) = es.length := by
    simp [heights, Function.comp_def, entryField, height]
  have hbelow := keysBelow_fields (number + 2) Nat.one_pos hmore hrows h
    (number + (es.length + 1)) (by omega)
  have hindent : indentOf (entryRow right e).chars = right :=
    indentOf_chars (fits_of_mem_rows (hfields _ List.mem_cons_self)
      (show entryRow right e ∈ (entryField e).rows right 1 from List.mem_cons_self))
  rw [List.map_cons, List.cons_append, rowLines, hrowsOf] at hls
  simp only [children, fieldSpan, Bool.false_or, Nat.add_sub_cancel, hls, hindent, keysFrom]
  rw [if_neg (by simp)]
  simp only [List.length_cons, hbelow]
  have hhead : keySpan? ⟨number + 1, (entryRow right e).chars⟩ right
      (rowLines (number + 2) ((es.map entryField).flatMap (Field.rows right 1) ++ rows)) =
      some (fieldSpan right (number + 1) (entryField e)) := hkey
  rw [hhead]
  rfl

end AlertAudit.Locate
