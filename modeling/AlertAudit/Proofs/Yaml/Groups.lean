import AlertAudit.Proofs.Yaml.Composition
import Mathlib.Data.List.Nodup

/-!
Lists of groups, one key a line. A group is a mapping of which the last field holds a list of items,
and the list of the groups is the value of a key. Such a text is read as these mappings
(`ofText?_groups`): its rows give the tokens of the list (`rowsTokens_groups`), and these are read
as the list (`reads_groups`).
-/

set_option autoImplicit false

namespace AlertAudit.Yaml

/-- A mapping that ends with a list of items. -/
structure ItemGroup where
  /-- The fields in front of the list. -/
  head : Item
  key : RowKey
  items : List Item
  deriving DecidableEq, Repr

namespace ItemGroup

/-- The value of a group. -/
def node (g : ItemGroup) : Node :=
  .mapping ((textNode g.head.key.text, textNode g.head.value) ::
    (g.head.fields.map Field.entry ++
      [(textNode g.key.text, .sequence (g.items.map Item.node))]))

/-- The rows of a group, with its items `width` columns further in than its keys. -/
def rows (column width : Nat) (g : ItemGroup) : List Row :=
  g.head.rows column width ++
    { column := column + 2, key := g.key } :: itemsRows (column + 2 + width) width g.items

def tokens (g : ItemGroup) : List Token :=
  .blockMappingStart :: (textTokens g.head.key g.head.value ++
    (g.head.fields.flatMap Field.tokens ++
      (.key :: g.key.token :: .value :: .blockSequenceStart ::
        (itemsTokens g.items ++ [.blockEnd]))))

/-- The group can be written. -/
structure Fits (g : ItemGroup) : Prop where
  head : g.head.Fits
  key : g.key.Fits
  items : ∀ i ∈ g.items, i.Fits
  ne_nil : g.items ≠ []

/-- The group has texts for keys, none of them twice, and so have its items. -/
structure Legible (g : ItemGroup) : Prop where
  headKey : g.head.key.IsText
  fields : ∀ f ∈ g.head.fields, f.Legible
  key : g.key.IsText
  items : ∀ i ∈ g.items, i.Legible
  keys : (g.head.key.text :: (g.head.fields.map (·.key.text) ++ [g.key.text])).Nodup

end ItemGroup

def groupsRows (column width : Nat) (groups : List ItemGroup) : List Row :=
  groups.flatMap (ItemGroup.rows column width)

/-- The tokens of some groups and the end of their list. -/
def groupsTokens (groups : List ItemGroup) : List Token :=
  groups.flatMap (fun g ↦ .blockEntry :: g.tokens) ++ [.blockEnd]

/-- The rows of a key and the groups in its list. -/
def listRows (key : RowKey) (width : Nat) (groups : List ItemGroup) : List Row :=
  { column := 0, key } :: groupsRows width width groups

variable {column width : Nat} {groups : List ItemGroup} {key : RowKey}

/-! ### Rows -/

theorem groupsRows_cons (column width : Nat) (g : ItemGroup) (groups : List ItemGroup) :
    groupsRows column width (g :: groups) =
      g.head.row column :: (g.head.fields.flatMap (Field.rows (column + 2) width) ++
        ({ column := column + 2, key := g.key } ::
          (itemsRows (column + 2 + width) width g.items ++ groupsRows column width groups))) := by
  simp [groupsRows, ItemGroup.rows, Item.rows]

/-- The rows of the next group begin at the column of the list. -/
theorem column_of_mem_head?_groupsRows {rows : List Row}
    (hrows : ∀ r ∈ rows.head?, r.column < column) {r : Row}
    (hr : r ∈ (groupsRows column width groups ++ rows).head?) : r.column ≤ column := by
  cases groups with
  | nil => exact (hrows r hr).le
  | cons g groups =>
    rw [groupsRows_cons, List.cons_append] at hr
    obtain rfl := Option.some.inj hr
    exact Nat.le_refl _

/-- All rows of some groups can be written. -/
theorem fits_of_mem_groupsRows (hgroups : ∀ g ∈ groups, g.Fits) :
    ∀ r ∈ groupsRows column width groups, r.Fits := by
  intro r hr
  obtain ⟨g, hg, hr⟩ := List.mem_flatMap.mp hr
  have hfits := hgroups g hg
  rcases List.mem_append.mp hr with hr | hr
  · rcases List.mem_cons.mp hr with rfl | hr
    · exact fits_row hfits.head
    · exact fits_of_mem_fieldsRows hfits.head.fields r hr
  · rcases List.mem_cons.mp hr with rfl | hr
    · exact ⟨hfits.key, fun v hv ↦ absurd hv (by simp)⟩
    · exact fits_of_mem_itemsRows hfits.items r hr

/-! ### The rows give the tokens -/

/-- A key without a value on its line, in a mapping that is open. -/
theorem rowsTokens_key (column : Nat) (outer : List Nat) (key : RowKey) (rows : List Row) :
    rowsTokens (column :: outer) ({ column, key } :: rows) =
      .key :: key.token :: .value :: rowsTokens (column :: outer) rows := by
  simp [rowsTokens, Row.tokens, Row.levels, Row.entryTokens, enterTokens_self, enterLevels_self]

/-- The rows of some groups in a list that is open, in front of rows further out. -/
theorem rowsTokens_groups (hwidth : 0 < width) (outer : List Nat) (hgroups : ∀ g ∈ groups, g.Fits)
    {rows : List Row} (hrows : ∀ r ∈ rows.head?, r.column < column) :
    rowsTokens (column :: outer) (groupsRows column width groups ++ rows) =
      groupsTokens groups ++ rowsTokens outer rows := by
  induction groups with
  | nil => exact rowsTokens_leave hrows
  | cons g groups ih =>
    obtain ⟨hg, hgroups⟩ := List.forall_mem_cons.mp hgroups
    have hbehind : ∀ r ∈ (groupsRows column width groups ++ rows).head?, r.column < column + 2 :=
      fun r hr ↦ Nat.lt_succ_of_le (Nat.le_succ_of_le (column_of_mem_head?_groupsRows hrows hr))
    have hdeeper : ∀ level ∈ ((column + 2) :: column :: outer).head?,
        level < column + 2 + width := by simpa using hwidth
    have hlist := rowsTokens_list hwidth hdeeper hg.ne_nil hg.items
      fun r hr ↦ (hbehind r hr).trans_le (Nat.le_add_right _ width)
    rw [groupsRows_cons, List.cons_append, List.append_assoc, List.cons_append, List.append_assoc,
      rowsTokens_row, rowsTokens_fields hwidth _ hg.head.fields (by simp), rowsTokens_key, hlist,
      rowsTokens_leave hbehind, ih hgroups]
    simp [groupsTokens, ItemGroup.tokens]

/-! ### The tokens give the value -/

namespace Compose

variable {ts more : List Token} {nodes : List Node} {entries : List (Node × Node)}

/-- A key with a list. -/
theorem reads_list (hkey : key.IsText) (hlist : Reads 0 blockItems ts nodes)
    (hrest : Reads 0 blockEntries more entries) :
    Reads 0 blockEntries (.key :: key.token :: .value :: .blockSequenceStart :: (ts ++ more))
      ((textNode key.text, .sequence nodes) :: entries) := by
  have hvalue := (reads_sequence true hlist).nodeUnless [.key, .value, .blockEnd]
    ⟨_, rfl, trivial, by simp⟩
  simpa using reads_entries_cons (reads_key hkey (token_not_mem key)) hvalue hrest

/-- A group is read as a mapping with its list of items. -/
theorem reads_group (indentless : Bool) {g : ItemGroup} (hg : g.Legible) :
    Reads 2 (content true indentless {} none) g.tokens g.node := by
  have hlist := reads_list hg.key (reads_items hg.items) reads_entries_nil
  refine reads_mapping indentless
    (reads_textTokens hg.headKey g.head.value (reads_fields hg.fields hlist)) ?_
  refine distinctKeys_of_nodup
    (g.head.key.text :: (g.head.fields.map (·.key.text) ++ [g.key.text])) ?_ hg.keys
  simp [Field.entry, Function.comp_def]

/-- Some groups are read from their tokens. -/
theorem reads_groups (hgroups : ∀ g ∈ groups, g.Legible) :
    Reads 0 blockItems (groupsTokens groups) (groups.map ItemGroup.node) := by
  induction groups with
  | nil => exact reads_items_nil
  | cons g groups ih =>
    obtain ⟨hg, hgroups⟩ := List.forall_mem_cons.mp hgroups
    have hgroup := (reads_group false hg).nodeUnless [.blockEntry, .blockEnd]
      ⟨_, rfl, trivial, by simp⟩
    simpa [groupsTokens] using reads_items_cons hgroup (ih hgroups)

end Compose

/-- A group is a mapping that holds a list of items. -/
theorem depth_group_le (g : ItemGroup) : g.node.depth ≤ 4 := by
  refine Nat.succ_le_succ (depthOfEntries_le fun e he ↦ ?_)
  rcases List.mem_cons.mp he with rfl | he
  · exact ⟨Nat.zero_le 3, Nat.zero_le 3⟩
  rcases List.mem_append.mp he with he | he
  · obtain ⟨f, -, rfl⟩ := List.mem_map.mp he
    have hfield := depth_field_le f
    exact ⟨hfield.1.trans (by decide), hfield.2.trans (by decide)⟩
  · obtain rfl := List.mem_singleton.mp he
    exact ⟨Nat.zero_le 3, depth_items_le g.items⟩

/-- All groups together are not too deep to be read. -/
theorem depth_groups_le (key : RowKey) (groups : List ItemGroup) :
    (Node.mapping [(textNode key.text, .sequence (groups.map ItemGroup.node))]).depth ≤ 6 := by
  refine Nat.succ_le_succ (depthOfEntries_le fun e he ↦ ?_)
  obtain rfl := List.mem_singleton.mp he
  refine ⟨Nat.zero_le 5, Nat.succ_le_succ (depthOfItems_le fun x hx ↦ ?_)⟩
  obtain ⟨g, -, rfl⟩ := List.mem_map.mp hx
  exact depth_group_le g

/-- The rows of a key with a list of groups give the tokens of both. -/
theorem rowsTokens_listRows (hwidth : 0 < width) (hne : groups ≠ [])
    (hgroups : ∀ g ∈ groups, g.Fits) : rowsTokens [] (listRows key width groups) =
      .blockMappingStart :: .key :: key.token :: .value :: .blockSequenceStart ::
        (groupsTokens groups ++ [.blockEnd]) := by
  have hopen : rowsTokens [] (listRows key width groups) =
      .blockMappingStart :: rowsTokens [0] (listRows key width groups) := by
    simp [listRows, rowsTokens, Row.tokens, Row.levels, enterTokens, enterLevels]
  have hlist : rowsTokens [0] (groupsRows width width groups ++ []) =
      .blockSequenceStart :: (groupsTokens groups ++ rowsTokens [0] []) := by
    have hgroups : rowsTokens [width, 0] (groupsRows width width groups ++ []) =
        groupsTokens groups ++ rowsTokens [0] [] :=
      rowsTokens_groups hwidth [0] hgroups (by simp)
    rw [← hgroups]
    obtain ⟨g, groups, rfl⟩ := List.exists_cons_of_ne_nil hne
    rw [groupsRows_cons, List.cons_append]
    exact rowsTokens_enter rfl (by simpa [Item.row] using hwidth) _
  rw [List.append_nil] at hlist
  rw [hopen, listRows, rowsTokens_key, hlist]
  rfl

/-- The value of a list of groups that is written one key a line. -/
theorem ofText?_groups (hwidth : 0 < width) (hkey : key.Fits) (htext : key.IsText)
    (hne : groups ≠ []) (hfits : ∀ g ∈ groups, g.Fits) (hlegible : ∀ g ∈ groups, g.Legible) :
    Node.ofText? (String.ofList (rowsText (listRows key width groups))) =
      some (.mapping [(textNode key.text, .sequence (groups.map ItemGroup.node))]) := by
  have hrows : ∀ r ∈ listRows key width groups, r.Fits :=
    List.forall_mem_cons.mpr ⟨⟨hkey, fun v hv ↦ absurd hv (by simp)⟩, fits_of_mem_groupsRows hfits⟩
  have hread := Compose.reads_mapping false
    (Compose.reads_list htext (Compose.reads_groups hlegible) Compose.reads_entries_nil)
    (distinctKeys_of_nodup [key.text] rfl (List.nodup_singleton _))
  rw [Node.ofText?, ofText?_rows hrows, rowsTokens_listRows hwidth hne hfits, Option.bind_some]
  exact ofTokens?_of_reads (t := .blockMappingStart) trivial hread
    ((depth_groups_le key groups).trans (by decide))

end AlertAudit.Yaml
