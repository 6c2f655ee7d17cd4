import AlertAudit.Proofs.Yaml.Rows
import AlertAudit.Yaml.Document

/-!
Lists of mappings, one key a line. A field of an item is a text, or a mapping of texts one level
further in. The value of such a text is the list of the items' values (`ofText?_items`): its rows
give the tokens of the list (`rowsTokens_items`), and these are read as the list (`reads_items`).
-/

set_option autoImplicit false

namespace AlertAudit.Yaml

/-- What a field holds: a text, or a mapping with at least one entry. -/
inductive Content where
  | text (value : List Char)
  | entries (es : List (List Char × List Char))
  deriving DecidableEq, Repr

/-- A field of an item. -/
structure Field where
  key : RowKey
  content : Content
  deriving DecidableEq, Repr

/-- An item of a list: a text on the line of the dash, and further fields. -/
structure Item where
  key : RowKey
  value : List Char
  fields : List Field
  deriving DecidableEq, Repr

/-! ### Values -/

def textNode (cs : List Char) : Node := .string (String.ofList cs)

def entryNode (e : List Char × List Char) : Node × Node := (textNode e.1, textNode e.2)

/-- The value of a field. -/
def Content.node : Content → Node
  | text value => textNode value
  | entries es => .mapping (es.map entryNode)

def Field.entry (f : Field) : Node × Node := (textNode f.key.text, f.content.node)

def Item.node (i : Item) : Node :=
  .mapping ((textNode i.key.text, textNode i.value) :: i.fields.map Field.entry)

/-! ### Rows -/

def entryRow (column : Nat) (e : List Char × List Char) : Row :=
  { column, key := .quoted e.1, value := some e.2 }

/-- The rows of a field, with the entries of a mapping `width` columns further in. -/
def Field.rows (column width : Nat) (f : Field) : List Row :=
  match f.content with
  | .text value => [{ column, key := f.key, value := some value }]
  | .entries es => { column, key := f.key } :: es.map (entryRow (column + width))

/-- The row with the dash of an item. -/
def Item.row (column : Nat) (i : Item) : Row :=
  { column, dash := true, key := i.key, value := some i.value }

def Item.rows (column width : Nat) (i : Item) : List Row :=
  i.row column :: i.fields.flatMap (Field.rows (column + 2) width)

def itemsRows (column width : Nat) (items : List Item) : List Row :=
  items.flatMap (Item.rows column width)

/-! ### Tokens -/

def textTokens (key : RowKey) (value : List Char) : List Token :=
  [.key, key.token, .value, .scalar false (String.ofList value)]

def entriesTokens (es : List (List Char × List Char)) : List Token :=
  es.flatMap fun e ↦ textTokens (.quoted e.1) e.2

def Field.tokens (f : Field) : List Token :=
  match f.content with
  | .text value => textTokens f.key value
  | .entries es =>
    [.key, f.key.token, .value, .blockMappingStart] ++ (entriesTokens es ++ [.blockEnd])

def Item.tokens (i : Item) : List Token :=
  .blockMappingStart :: (textTokens i.key i.value ++ (i.fields.flatMap Field.tokens ++ [.blockEnd]))

/-- The tokens of some items and the end of their list. -/
def itemsTokens (items : List Item) : List Token :=
  items.flatMap (fun i ↦ .blockEntry :: i.tokens) ++ [.blockEnd]

/-! ### The rows give the tokens -/

section Levels

variable {start : Token} {column level : Nat} {levels outer : List Nat}

/-- A block further in than the next row ends in front of it. -/
theorem enterTokens_leave (h : column < level) :
    enterTokens start column (level :: levels) = .blockEnd :: enterTokens start column levels := by
  simp [enterTokens, h]

theorem enterLevels_leave (h : column < level) :
    enterLevels column (level :: levels) = enterLevels column levels := by
  simp [enterLevels, h]

/-- At its own column a block stays open. -/
theorem enterTokens_self : enterTokens start column (column :: outer) = [] := by
  simp [enterTokens]

theorem enterLevels_self : enterLevels column (column :: outer) = column :: outer := by
  simp [enterLevels]

/-- Further in than all others a block opens. -/
theorem enterTokens_deeper (h : ∀ level ∈ outer.head?, level < column) :
    enterTokens start column outer = [start] := by
  cases outer with
  | nil => rfl
  | cons level outer =>
    have hlevel : level < column := h level rfl
    simp [enterTokens, Nat.not_lt_of_lt hlevel, Nat.not_le_of_lt hlevel]

/-- Then it is open, and so are the others. -/
theorem enterLevels_deeper (h : ∀ level ∈ outer.head?, level < column) :
    enterLevels column outer = column :: outer := by
  cases outer with
  | nil => rfl
  | cons level outer =>
    have hlevel : level < column := h level rfl
    simp [enterLevels, Nat.not_lt_of_lt hlevel, Nat.not_le_of_lt hlevel]

/-- A block ends in front of a row that is further out. -/
theorem rowsTokens_leave {rows : List Row} (h : ∀ r ∈ rows.head?, r.column < level) :
    rowsTokens (level :: levels) rows = .blockEnd :: rowsTokens levels rows := by
  cases rows with
  | nil => rfl
  | cons r rows =>
    have hr : r.column < level := h r rfl
    simp only [rowsTokens, Row.tokens, Row.levels, enterTokens_leave hr, enterLevels_leave hr]
    split <;> rfl

/-- A list opens in front of its first item, further in than the blocks around it. -/
theorem rowsTokens_enter {r : Row} (hdash : r.dash) (h : ∀ level ∈ levels.head?, level < r.column)
    (rows : List Row) : rowsTokens levels (r :: rows) =
      .blockSequenceStart :: rowsTokens (r.column :: levels) (r :: rows) := by
  simp [rowsTokens, Row.tokens, Row.levels, hdash, enterTokens_deeper h, enterLevels_deeper h,
    enterTokens_self, enterLevels_self]

/-- The rows of some entries give their tokens where a mapping is open at their column. -/
theorem rowsTokens_entries (column : Nat) (outer : List Nat)
    (es : List (List Char × List Char)) (rows : List Row) :
    rowsTokens (column :: outer) (es.map (entryRow column) ++ rows) =
      entriesTokens es ++ rowsTokens (column :: outer) rows := by
  induction es with
  | nil => rfl
  | cons e es ih =>
    rw [List.map_cons, List.cons_append, rowsTokens]
    simp only [Row.tokens, Row.levels, entryRow, Bool.false_eq_true, if_false, enterTokens_self,
      enterLevels_self, List.nil_append]
    rw [← entryRow, ih]
    rfl

end Levels

/-- The field can be written. -/
structure Field.Fits (f : Field) : Prop where
  key : f.key.Fits
  text : ∀ v, f.content = .text v → Printable v
  entries : ∀ es, f.content = .entries es → es ≠ [] ∧
    ∀ e ∈ es, (RowKey.quoted e.1).Fits ∧ Printable e.2

/-- A field begins at its column. -/
theorem column_of_mem_head? {column width : Nat} {f : Field} {r : Row} {rows : List Row}
    (hr : r ∈ (f.rows column width ++ rows).head?) : r.column = column := by
  obtain ⟨key, _ | es⟩ := f
  all_goals
    simp only [Field.rows, List.cons_append, List.head?_cons, Option.mem_some_iff] at hr
    rw [← hr]

/-- The rows of a field in an open mapping at their column, in front of rows no further in. -/
theorem rowsTokens_field {column width : Nat} (hwidth : 0 < width) {outer : List Nat} {f : Field}
    (hf : f.Fits) {rows : List Row} (hrows : ∀ r ∈ rows.head?, r.column ≤ column) :
    rowsTokens (column :: outer) (f.rows column width ++ rows) =
      f.tokens ++ rowsTokens (column :: outer) rows := by
  obtain ⟨key, value | es⟩ := f
  · simp [Field.rows, Field.tokens, rowsTokens, Row.tokens, Row.levels, Row.entryTokens,
      enterTokens_self, enterLevels_self, textTokens]
  · obtain ⟨e, es, rfl⟩ := List.exists_cons_of_ne_nil (hf.entries es rfl).1
    have hdeeper : ∀ level ∈ (column :: outer).head?, level < column + width := by
      intro level hlevel
      obtain rfl := Option.some.inj hlevel
      omega
    have hends : rowsTokens ((column + width) :: column :: outer) rows =
        .blockEnd :: rowsTokens (column :: outer) rows := rowsTokens_leave
      fun r hr ↦ Nat.lt_of_le_of_lt (hrows r hr) (by omega)
    have hentries := rowsTokens_entries (column + width) (column :: outer) es rows
    simp only [Field.rows, Field.tokens, List.map_cons, List.cons_append, rowsTokens, Row.tokens,
      Row.levels, entryRow, Row.entryTokens, enterTokens_self, enterLevels_self,
      enterTokens_deeper hdeeper, enterLevels_deeper hdeeper, Bool.false_eq_true, if_false] at *
    rw [hentries, hends]
    simp [entriesTokens, textTokens, RowKey.token]

/-- Neither do the rows of some fields begin further in than their column. -/
theorem column_le_of_mem_head? {column width : Nat} {fields : List Field} {rows : List Row}
    (hrows : ∀ r ∈ rows.head?, r.column ≤ column) :
    ∀ r ∈ (fields.flatMap (Field.rows column width) ++ rows).head?, r.column ≤ column := by
  intro r hr
  cases fields with
  | nil => exact hrows r hr
  | cons f fields =>
    rw [List.flatMap_cons, List.append_assoc] at hr
    exact (column_of_mem_head? hr).le

/-- The rows of some fields in an open mapping at their column give their tokens. -/
theorem rowsTokens_fields {column width : Nat} (hwidth : 0 < width) (outer : List Nat)
    {fields : List Field} (hfields : ∀ f ∈ fields, f.Fits) {rows : List Row}
    (hrows : ∀ r ∈ rows.head?, r.column ≤ column) :
    rowsTokens (column :: outer) (fields.flatMap (Field.rows column width) ++ rows) =
      fields.flatMap Field.tokens ++ rowsTokens (column :: outer) rows := by
  induction fields with
  | nil => rfl
  | cons f fields ih =>
    have hrest := ih fun f hf ↦ hfields f (List.mem_cons_of_mem _ hf)
    rw [List.flatMap_cons, List.append_assoc,
      rowsTokens_field hwidth (hfields f List.mem_cons_self) (column_le_of_mem_head? hrows), hrest,
      List.flatMap_cons, List.append_assoc]

/-- The item can be written. -/
structure Item.Fits (i : Item) : Prop where
  key : i.key.Fits
  value : Printable i.value
  fields : ∀ f ∈ i.fields, f.Fits

/-- The rows of a field that fits can be written. -/
theorem fits_of_mem_rows {column width : Nat} {f : Field} (hf : f.Fits) {r : Row}
    (hr : r ∈ f.rows column width) : r.Fits := by
  obtain ⟨key, value | es⟩ := f
  · obtain rfl := List.mem_singleton.mp hr
    exact ⟨hf.key, fun v hv ↦ Option.some.inj hv ▸ hf.text value rfl⟩
  · rcases List.mem_cons.mp hr with rfl | hr
    · exact ⟨hf.key, fun v hv ↦ absurd hv (by simp)⟩
    · obtain ⟨e, he, rfl⟩ := List.mem_map.mp hr
      have hentry := (hf.entries es rfl).2 e he
      exact ⟨hentry.1, fun v hv ↦ Option.some.inj hv ▸ hentry.2⟩

/-- So can those of some fields. -/
theorem fits_of_mem_fieldsRows {column width : Nat} {fields : List Field}
    (hfields : ∀ f ∈ fields, f.Fits) :
    ∀ r ∈ fields.flatMap (Field.rows column width), r.Fits := by
  intro r hr
  obtain ⟨f, hf, hr⟩ := List.mem_flatMap.mp hr
  exact fits_of_mem_rows (hfields f hf) hr

theorem fits_row {column : Nat} {i : Item} (hi : i.Fits) : (i.row column).Fits :=
  ⟨hi.key, fun _ hv ↦ Option.some.inj hv ▸ hi.value⟩

/-- So can all rows of some items. -/
theorem fits_of_mem_itemsRows {column width : Nat} {items : List Item}
    (hitems : ∀ i ∈ items, i.Fits) : ∀ r ∈ itemsRows column width items, r.Fits := by
  intro r hr
  obtain ⟨i, hi, hr⟩ := List.mem_flatMap.mp hr
  rcases List.mem_cons.mp hr with rfl | hr
  · exact fits_row (hitems i hi)
  · exact fits_of_mem_fieldsRows (hitems i hi).fields r hr

/-- The rows of the next item begin at the column of the list. -/
theorem column_of_mem_head?_itemsRows {column width : Nat} {items : List Item} {r : Row}
    (hr : r ∈ (itemsRows column width items).head?) : r.column = column := by
  cases items with
  | nil => exact absurd hr (by simp [itemsRows])
  | cons i items =>
    simp only [itemsRows, List.flatMap_cons, Item.rows, List.cons_append, List.head?_cons,
      Option.mem_some_iff] at hr
    rw [← hr, Item.row]

theorem itemsRows_cons (column width : Nat) (i : Item) (items : List Item) :
    itemsRows column width (i :: items) =
      i.row column ::
        (i.fields.flatMap (Field.rows (column + 2) width) ++ itemsRows column width items) := by
  simp [itemsRows, Item.rows]

/-- The row with the dash of an item, in a list that is open. -/
theorem rowsTokens_row (column : Nat) (outer : List Nat) (i : Item) (rows : List Row) :
    rowsTokens (column :: outer) (i.row column :: rows) =
      .blockEntry :: .blockMappingStart ::
        (textTokens i.key i.value ++ rowsTokens ((column + 2) :: column :: outer) rows) := by
  have hdeeper : ∀ level ∈ (column :: outer).head?, level < column + 2 := by simp
  rw [rowsTokens]
  simp only [Item.row, Row.tokens, Row.levels, Row.keyColumn, enterTokens_self, enterLevels_self,
    enterTokens_deeper hdeeper, enterLevels_deeper hdeeper, if_true, List.nil_append]
  simp [Row.entryTokens, textTokens]

/-- The rows of some items in a list that is open, in front of rows further out. -/
theorem rowsTokens_items {column width : Nat} (hwidth : 0 < width) (outer : List Nat)
    {items : List Item} (hitems : ∀ i ∈ items, i.Fits) {rows : List Row}
    (hrows : ∀ r ∈ rows.head?, r.column < column) :
    rowsTokens (column :: outer) (itemsRows column width items ++ rows) =
      itemsTokens items ++ rowsTokens outer rows := by
  induction items with
  | nil => exact rowsTokens_leave hrows
  | cons i items ih =>
    have hrest := ih fun i hi ↦ hitems i (List.mem_cons_of_mem _ hi)
    have hbelow : ∀ r ∈ (itemsRows column width items ++ rows).head?, r.column < column + 2 := by
      intro r hr
      cases items with
      | nil => exact Nat.lt_add_right 2 (hrows r hr)
      | cons j items =>
        rw [itemsRows_cons, List.cons_append] at hr
        obtain rfl := Option.some.inj hr
        exact Nat.lt_add_of_pos_right Nat.two_pos
    rw [itemsRows_cons, List.cons_append, List.append_assoc, rowsTokens_row,
      rowsTokens_fields hwidth _ (hitems i List.mem_cons_self).fields fun r hr ↦ (hbelow r hr).le,
      rowsTokens_leave hbelow, hrest]
    simp [itemsTokens, Item.tokens]

/-- A list of items opens and ends between rows further out. -/
theorem rowsTokens_list {column width : Nat} (hwidth : 0 < width) {outer : List Nat}
    (houter : ∀ level ∈ outer.head?, level < column) {items : List Item} (hne : items ≠ [])
    (hitems : ∀ i ∈ items, i.Fits) {rows : List Row} (hrows : ∀ r ∈ rows.head?, r.column < column) :
    rowsTokens outer (itemsRows column width items ++ rows) =
      .blockSequenceStart :: (itemsTokens items ++ rowsTokens outer rows) := by
  rw [← rowsTokens_items hwidth outer hitems hrows]
  obtain ⟨i, items, rfl⟩ := List.exists_cons_of_ne_nil hne
  exact rowsTokens_enter rfl houter _

end AlertAudit.Yaml
