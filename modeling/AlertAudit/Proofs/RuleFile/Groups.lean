import AlertAudit.Proofs.RuleFile.Placement
import AlertAudit.Proofs.RuleFile.Written
import AlertAudit.Proofs.Yaml.Groups
import Mathlib.Data.Prod.Basic

/-!
Lists and groups of rules, one key a line. The rules that are located in such a text are those items
of the lists that have the key of a rule (`rules_groupsRows`), and the rules of the document are the
same items (`titles_of_mapM`). So each rule that is read has the lines of its own item, whatever
other fields the groups have and whatever items that are no rules stand in between (`read_layout`).
-/

set_option autoImplicit false

namespace AlertAudit

open AlertAudit.Locate AlertAudit.Shape AlertAudit.Yaml

namespace Locate

open AlertAudit.Text

variable {column width last number : Nat} {rows : List Row} {groups : List ItemGroup} {k : KeySpan}

/-! ### Names of keys -/

/-- A key that is found in a row is the one of the row. -/
theorem name_of_keySpan? {r : Row} (hr : r.Fits) {rest : List Line}
    (h : keySpan? ⟨number, r.chars⟩ r.column rest = some k) :
    k.name = String.ofList r.key.text := by
  obtain ⟨after, hsplit⟩ := exists_splitKey?_of_keySpan? h
  rw [drop_column_chars] at hsplit
  cases hdash : r.dash with
  | true =>
    have hnone : splitKey? r.body = none := by simp [Row.body, hdash, splitKey?, startsNoKey]
    exact absurd (hnone.symm.trans hsplit) (by simp)
  | false =>
    have hbody : r.body = r.key.chars ++ r.valueChars := by simp [Row.body, hdash]
    have hread := splitKey?_chars hr.key (r.value.elim [] fun v ↦ ' ' :: quotation v)
      (by cases r.value <;> simp)
    rw [hbody, Row.valueChars, hread] at hsplit
    exact (Prod.mk.inj (Option.some.inj hsplit)).1.symm

/-- Each line of a text of rows is one of the rows. -/
theorem exists_of_mem_rowLines {l : Line} (h : l ∈ rowLines number rows) :
    ∃ r ∈ rows, l.text = r.chars := by
  induction rows generalizing number with
  | nil => exact absurd h List.not_mem_nil
  | cons r rows ih =>
    rcases List.mem_cons.mp h with rfl | h
    · exact ⟨r, List.mem_cons_self, rfl⟩
    · obtain ⟨s, hs, htext⟩ := ih h
      exact ⟨s, List.mem_cons_of_mem r hs, htext⟩

/-- The keys at a column of some rows are those of the rows there. -/
theorem exists_of_mem_keysBelow_rowLines (hrows : ∀ r ∈ rows, r.Fits)
    (h : k ∈ keysBelow column last (rowLines number rows)) :
    ∃ r ∈ rows, r.column = column ∧ k.name = String.ofList r.key.text := by
  obtain ⟨⟨m, text⟩, rest, hsuffix, -, hcolumn, hkey⟩ := exists_of_mem_keysBelow h
  obtain ⟨r, hr, rfl : text = r.chars⟩ :=
    exists_of_mem_rowLines (hsuffix.subset List.mem_cons_self)
  obtain rfl : r.column = column :=
    Option.some.inj ((contentColumn?_chars (hrows r hr)).symm.trans hcolumn)
  exact ⟨r, hr, rfl, name_of_keySpan? (hrows r hr) hkey⟩

/-- An item is no rule if none of the keys in its column names one. -/
theorem ruleSpan?_row_eq_none (number below : Nat) {i : Item} (hi : i.Fits)
    (hkey : namesRule (String.ofList i.key.text) = false) (hrows : ∀ r ∈ rows, r.Fits)
    (h : ∀ r ∈ rows, r.column = column + 2 → namesRule (String.ofList r.key.text) = false) :
    ruleSpan? ⟨number, (i.row column).chars⟩ column (rowLines below rows) = none := by
  have hnames : ∀ lines : LineRange, ∀ k ∈ itemKeys ⟨number, (i.row column).chars⟩ column lines
      (rowLines below rows), namesRule k.name = false := by
    intro lines k hk
    rw [itemKeys_row number hi] at hk
    rcases List.mem_append.mp hk with hk | hk
    · obtain ⟨after, hsplit⟩ := exists_splitKey?_of_keySpan? (Option.mem_toList.mp hk)
      have hread := splitKey?_chars hi.key (' ' :: quotation i.value) (by simp)
      rw [drop_row, hread] at hsplit
      rwa [← (Prod.mk.inj (Option.some.inj hsplit)).1]
    · obtain ⟨r, hr, hcolumn, hname⟩ := exists_of_mem_keysBelow_rowLines hrows hk
      rw [hname]
      exact h r hr hcolumn
  rw [ruleSpan?]
  exact if_neg fun hany ↦ by
    obtain ⟨k, hk, hname⟩ := List.any_eq_true.mp hany
    exact Bool.false_ne_true ((hnames _ k hk).symm.trans hname)

/-! ### The rules of groups -/

def groupHeight (g : ItemGroup) : Nat :=
  heights g.head.fields + 2 + (g.items.map fun i ↦ heights i.fields + 1).sum

/-- The items in some groups, each with the line in which it begins. -/
def groupItems (number : Nat) : List ItemGroup → List (Nat × Item)
  | [] => []
  | g :: groups =>
    itemsFrom (number + heights g.head.fields + 2) g.items ++
      groupItems (number + groupHeight g) groups

/-- No key of the group but those of its items names a rule. -/
structure IsPlainGroup (g : ItemGroup) : Prop where
  head : isRuleItem g.head = false
  key : namesRule (String.ofList g.key.text) = false

/-- A list has as many rows as all of its items together. -/
theorem length_itemsRows (column width : Nat) (items : List Item) :
    (itemsRows column width items).length = (items.map fun i ↦ heights i.fields + 1).sum := by
  have hitem (i : Item) : (i.rows column width).length = heights i.fields + 1 := by
    rw [Item.rows, List.length_cons, length_fieldsRows]
  simp only [itemsRows, List.length_flatMap, hitem]

/-- The rules among some items and some more are those among both. -/
theorem ruleSpans_append (column : Nat) (items more : List (Nat × Item)) :
    ruleSpans column (items ++ more) = ruleSpans column items ++ ruleSpans column more := by
  simp [ruleSpans]

/-- No row of a list is further out than its dashes. -/
theorem column_le_of_mem_itemsRows {items : List Item} {r : Row}
    (hr : r ∈ itemsRows column width items) : column ≤ r.column := by
  obtain ⟨i, -, hr⟩ := List.mem_flatMap.mp hr
  rcases List.mem_cons.mp hr with rfl | hr
  · exact Nat.le_refl _
  · exact (column_lt_of_mem_fieldsRows hr).le

/-- In the column of a field stands its own key only. -/
theorem key_of_mem_rows (hwidth : 0 < width) {f : Field} {r : Row} (hr : r ∈ f.rows column width)
    (hcolumn : r.column = column) : r.key = f.key := by
  obtain ⟨key, value | es⟩ := f
  · rw [List.mem_singleton.mp hr]
  · rcases List.mem_cons.mp hr with rfl | hr
    · rfl
    · obtain ⟨e, -, rfl⟩ := List.mem_map.mp hr
      exact absurd hcolumn (by simp only [entryRow]; omega)

/-- In the column of the keys of the groups stand the keys of their heads and of their lists. -/
theorem namesRule_of_mem_groupsRows (hwidth : 0 < width) (hgroups : ∀ g ∈ groups, IsPlainGroup g)
    {r : Row} (hr : r ∈ groupsRows column width groups) (hcolumn : r.column = column + 2) :
    namesRule (String.ofList r.key.text) = false := by
  obtain ⟨g, hg, hr⟩ := List.mem_flatMap.mp hr
  have hhead := (hgroups g hg).head
  rw [isRuleItem, Bool.or_eq_false_iff, List.any_eq_false] at hhead
  rcases List.mem_append.mp hr with hr | hr
  · rcases List.mem_cons.mp hr with rfl | hr
    · exact hhead.1
    · obtain ⟨f, hf, hr⟩ := List.mem_flatMap.mp hr
      rw [key_of_mem_rows hwidth hr hcolumn]
      exact Bool.eq_false_iff.mpr (hhead.2 f hf)
  · rcases List.mem_cons.mp hr with rfl | hr
    · exact (hgroups g hg).key
    · have hle := column_le_of_mem_itemsRows hr
      omega

/-- The rules that are located in some groups are the items with the key of a rule. -/
theorem rules_groupsRows (number : Nat) (hwidth : 0 < width) (hfits : ∀ g ∈ groups, g.Fits)
    (hgroups : ∀ g ∈ groups, IsPlainGroup g) :
    rules (rowLines number (groupsRows column width groups)) =
      ruleSpans (column + 2 + width) (groupItems number groups) := by
  induction groups generalizing number with
  | nil =>
    rw [groupsRows, List.flatMap_nil, rowLines, rules]
    rfl
  | cons g groups ih =>
    have hall : ∀ r ∈ groupsRows column width (g :: groups), r.Fits := fits_of_mem_groupsRows hfits
    have hnames : ∀ r ∈ groupsRows column width (g :: groups), r.column = column + 2 →
        namesRule (String.ofList r.key.text) = false := fun r hr hcolumn ↦
      namesRule_of_mem_groupsRows hwidth hgroups hr hcolumn
    obtain ⟨hg, hmore⟩ := List.forall_mem_cons.mp hfits
    obtain ⟨hplain, hgroups⟩ := List.forall_mem_cons.mp hgroups
    obtain ⟨hkey, -⟩ := Bool.or_eq_false_iff.mp hplain.head
    have hkeys : ∀ r ∈ g.head.fields.flatMap (Field.rows (column + 2) width) ++
        [{ column := column + 2, key := g.key }], r.Fits ∧ r.dash = false := by
      intro r hr
      rcases List.mem_append.mp hr with hr | hr
      · exact ⟨fits_of_mem_fieldsRows hg.head.fields r hr, dash_of_mem_fieldsRows hr⟩
      · obtain rfl := List.mem_singleton.mp hr
        exact ⟨⟨hg.key, fun v hv ↦ absurd hv (by simp)⟩, rfl⟩
    have hbehind : ∀ r ∈ (groupsRows column width groups).head?, r.column ≤ column + 2 + width := by
      intro r hr
      rw [← List.append_nil (groupsRows column width groups)] at hr
      have hle : r.column ≤ column := column_of_mem_head?_groupsRows (by simp) hr
      omega
    rw [groupsRows_cons] at hall hnames ⊢
    have hspan := ruleSpan?_row_eq_none number (number + 1) hg.head hkey
      (fun r hr ↦ hall r (List.mem_cons_of_mem _ hr))
      (fun r hr ↦ hnames r (List.mem_cons_of_mem _ hr))
    rw [rowLines, rules_row_of_none hg.head hspan]
    rw [← List.singleton_append, ← List.append_assoc, rules_rows _ hkeys,
      rules_items _ hwidth hg.items (fits_of_mem_groupsRows hmore) hbehind, List.length_append,
      length_fieldsRows, length_itemsRows, groupItems, ruleSpans_append, ← ih _ hmore hgroups]
    congr 2
    · congr 1
      simp only [List.length_singleton]
      omega
    · simp only [List.length_singleton, groupHeight]
      congr 1
      omega

end Locate

namespace RuleFile

variable {width : Nat} {groups : List ItemGroup} {i : Item} {f : RuleFields}

/-! ### The rules of the document -/

/-- The values of an item, each with its name. -/
def itemNodes (i : Item) : List (String × Node) :=
  (String.ofList i.key.text, textNode i.value) ::
    i.fields.map fun f ↦ (String.ofList f.key.text, f.content.node)

def itemValue? (i : Item) (name : String) : Option Node :=
  ((itemNodes i).find? (·.1 = name)).map (·.2)

/-- The sort and the name of the rule that an item is, if it is one. -/
def itemTitle? (i : Item) : Option (RuleKind × String) :=
  title? { alert := itemValue? i "alert", record := itemValue? i "record" }

/-- An item is a mapping of its values. -/
theorem node_eq (i : Item) : i.node = .mapping ((itemNodes i).map fun e ↦ (.string e.1, e.2)) := by
  simp [Item.node, itemNodes, textNode, Field.entry]

/-- No name comes twice among the values of an item. -/
theorem nodup_itemNodes (hi : i.Legible) : ((itemNodes i).map Prod.fst).Nodup := by
  have hnames : (itemNodes i).map Prod.fst =
      (i.key.text :: i.fields.map (·.key.text)).map String.ofList := by
    simp [itemNodes]
  rw [hnames]
  exact hi.keys.map fun _ _ ↦ String.ofList_injective

/-- There is no entry with a name that none of them has. -/
theorem filter_name_eq_nil {name : String} {es : List (String × Node)}
    (h : name ∉ es.map Prod.fst) : es.filter (·.1 = name) = [] :=
  List.filter_eq_nil_iff.mpr fun _ he hname ↦
    h (of_decide_eq_true hname ▸ List.mem_map_of_mem he)

/-- Among distinct names a field is the first one with its name. -/
theorem field?_of_nodup (name : String) {es : List (String × Node)}
    (h : (es.map Prod.fst).Nodup) :
    field? name es = some ((es.find? (·.1 = name)).map (·.2)) := by
  induction es with
  | nil => rfl
  | cons e es ih =>
    obtain ⟨hfresh, hes⟩ := List.nodup_cons.mp h
    by_cases hname : e.1 = name
    · rw [field?, List.filter_cons_of_pos (by simpa using hname),
        filter_name_eq_nil (hname ▸ hfresh), List.find?_cons_of_pos (by simpa using hname)]
      rfl
    · rw [List.find?_cons_of_neg (by simpa using hname), ← ih hes, field?,
        List.filter_cons_of_neg (by simpa using hname), field?]

/-- A field of an item is the value with its name. -/
theorem field?_itemNodes (hi : i.Legible) (name : String) :
    field? name (itemNodes i) = some (itemValue? i name) :=
  field?_of_nodup name (nodup_itemNodes hi)

/-- No value of an item is null. -/
theorem optional_itemValue? (i : Item) (name : String) :
    (itemValue? i name).bind Shape.optional = itemValue? i name := by
  cases hfind : (itemNodes i).find? (·.1 = name) with
  | none => rw [itemValue?, hfind]; rfl
  | some e =>
    rw [itemValue?, hfind]
    rcases List.mem_cons.mp (List.mem_of_find?_eq_some hfind) with rfl | he
    · rfl
    · obtain ⟨⟨key, value | es⟩, -, rfl⟩ := List.mem_map.mp he <;> rfl

/-- The texts of a rule are those of its fields, where these are not null. -/
theorem ruleOfValues?_eq_some {alert record expr labels annotations : Option Node}
    (h : ruleOfValues? alert record expr labels annotations = some f) :
    f.alert = alert.bind Shape.optional ∧ f.record = record.bind Shape.optional := by
  simp only [ruleOfValues?, Option.bind_eq_bind, Option.bind_eq_some_iff] at h
  obtain ⟨labels, -, annotations, -, hf⟩ := h
  obtain rfl := Option.some.inj hf
  exact ⟨rfl, rfl⟩

/-- A rule of the document has the title that its item says. -/
theorem title?_of_rule? (hi : i.Legible) (h : rule? i.node = some f) :
    title? f = itemTitle? i := by
  have hstrings := stringEntries?_map Prod.fst Prod.snd (itemNodes i)
  rw [node_eq, rule?] at h
  simp only [Node.untagged, hstrings, Prod.mk.eta, List.map_id', Option.bind_eq_bind,
    Option.bind_some, field?_itemNodes hi] at h
  obtain ⟨halert, hrecord⟩ := ruleOfValues?_eq_some h
  rw [optional_itemValue?] at halert hrecord
  rw [itemTitle?, title?, title?, halert, hrecord]

/-- The items that have a title are those with the key of a rule. -/
theorem isSome_itemTitle? (i : Item) : (itemTitle? i).isSome = isRuleItem i := by
  have htitle : (itemTitle? i).isSome =
      ((itemValue? i "alert").isSome || (itemValue? i "record").isSome) := by
    rw [itemTitle?, title?]
    cases itemValue? i "alert" <;> cases itemValue? i "record" <;> rfl
  have hvalue (name : String) : (itemValue? i name).isSome =
      (itemNodes i).any (·.1 = name) := by
    rw [itemValue?, Option.isSome_map, List.isSome_find?]
  have hany : (itemNodes i).any (namesRule ·.1) = isRuleItem i := by
    simp [itemNodes, isRuleItem, Function.comp_def]
  rw [htitle, hvalue, hvalue, ← hany, Bool.eq_iff_iff]
  simp only [Bool.or_eq_true, List.any_eq_true, namesRule, and_or_left, exists_or]

/-- A group of rules that can be read: its list is under the key `rules`. -/
structure IsRuleGroup (g : ItemGroup) : Prop where
  fits : g.Fits
  legible : g.Legible
  key : g.key.text = "rules".toList
  head : isRuleItem g.head = false

/-- In a group of rules no key names a rule besides those of its items. -/
theorem IsRuleGroup.isPlainGroup {g : ItemGroup} (hg : IsRuleGroup g) : IsPlainGroup g where
  head := hg.head
  key := by
    rw [hg.key]
    rfl

def groupsText (width : Nat) (groups : List ItemGroup) : String :=
  String.ofList (rowsText (listRows (.word "groups".toList) width groups))

def itemsText (width : Nat) (items : List Item) : String :=
  String.ofList (rowsText (itemsRows 0 width items))

/-- The last field of a mapping is found by its name, if no other one has it. -/
theorem field?_append {name : String} {es : List (String × Node)} (h : name ∉ es.map Prod.fst)
    (value : Node) : field? name (es ++ [(name, value)]) = some (some value) := by
  rw [field?, List.filter_append, filter_name_eq_nil h]
  simp

/-- The values of a group, each with its name. -/
def groupNodes (g : ItemGroup) : List (String × Node) :=
  itemNodes g.head ++ [(String.ofList g.key.text, .sequence (g.items.map Item.node))]

/-- A group is a mapping of its values. -/
theorem node_group (g : ItemGroup) :
    g.node = .mapping ((groupNodes g).map fun e ↦ (.string e.1, e.2)) := by
  simp [ItemGroup.node, groupNodes, itemNodes, textNode, Field.entry]

/-- The rules of a list are those of its items. -/
theorem rules?_items (items : List Item) :
    rules? (.sequence (items.map Item.node)) = items.mapM fun i ↦ rule? i.node := by
  simp [rules?, items?, Node.untagged, List.mapM_map, Function.comp_def]

/-- The rules of a group are those of its items. -/
theorem group?_node {g : ItemGroup} (hg : IsRuleGroup g) :
    group? g.node = g.items.mapM fun i ↦ rule? i.node := by
  have hkey : String.ofList g.key.text = "rules" := by rw [hg.key]; rfl
  have hfresh : "rules" ∉ (itemNodes g.head).map Prod.fst := by
    intro hmem
    obtain ⟨text, htext, hname⟩ : ∃ text ∈ g.head.key.text :: g.head.fields.map (·.key.text),
        String.ofList text = "rules" := by simpa [itemNodes, eq_comm] using hmem
    have hkeys := hg.legible.keys
    rw [← List.cons_append, List.nodup_append] at hkeys
    exact hkeys.2.2 text htext g.key.text (by simp)
      (String.ofList_injective (hname.trans hkey.symm))
  have hstrings := stringEntries?_map Prod.fst Prod.snd (groupNodes g)
  have hrules : field? "rules" (groupNodes g) =
      some (some (.sequence (g.items.map Item.node))) := by
    rw [groupNodes, hkey, field?_append hfresh]
  rw [node_group, group?]
  simp only [Node.untagged, hstrings, Prod.mk.eta, List.map_id', Option.bind_eq_bind,
    Option.bind_some, hrules, rules?_items]

/-- The rules of some groups are those of all their items. -/
theorem groups?_nodes (hgroups : ∀ g ∈ groups, IsRuleGroup g) :
    groups? (.sequence (groups.map ItemGroup.node)) =
      (groups.flatMap (·.items)).mapM fun i ↦ rule? i.node := by
  have hgroupsOf (nodes : List Node) : groups? (.sequence nodes) =
      (nodes.mapM group?).map List.flatten := by
    rw [Option.map_eq_bind]
    rfl
  rw [hgroupsOf]
  induction groups with
  | nil => rfl
  | cons g groups ih =>
    obtain ⟨hg, hgroups⟩ := List.forall_mem_cons.mp hgroups
    rw [List.map_cons, List.mapM_cons, List.flatMap_cons, List.mapM_append, ← ih hgroups,
      group?_node hg]
    cases g.items.mapM fun i ↦ rule? i.node <;>
      cases (groups.map ItemGroup.node).mapM group? <;> rfl

/-- A document that is read has the rules that are found in it. -/
theorem of_elim_eq_ok {found : Option (List RuleFields)} {all : List RuleFields}
    (h : found.elim (Except.error ReadError.invalidYaml) Except.ok = Except.ok all) :
    found = some all := by
  cases found with
  | none => exact absurd h (by simp)
  | some found => exact congrArg some (Except.ok.inj h)

/-- The rules of a document that is a list are those of its items. -/
theorem mapM_of_fields_sequence {items : List Item} {all : List RuleFields}
    (h : fields (.sequence (items.map Item.node)) = .ok all) :
    (items.mapM fun i ↦ rule? i.node) = some all := by
  simp only [fields, Node.untagged, rules?_items] at h
  exact of_elim_eq_ok h

/-- The value of some groups under the key `groups`. -/
def groupsNode (groups : List ItemGroup) : Node :=
  .mapping [(.string "groups", .sequence (groups.map ItemGroup.node))]

/-- The rules of a document with groups are those of the items of all groups. -/
theorem mapM_of_fields_groupsNode (hgroups : ∀ g ∈ groups, IsRuleGroup g)
    {all : List RuleFields} (h : fields (groupsNode groups) = .ok all) :
    ((groups.flatMap (·.items)).mapM fun i ↦ rule? i.node) = some all := by
  have hfind : groupsOf? (groupsNode groups) = some (.sequence (groups.map ItemGroup.node)) := rfl
  rw [groupsNode] at hfind h
  simp only [fields, Node.untagged, hfind, groups?_nodes hgroups] at h
  exact of_elim_eq_ok h

/-! ### The lines of the rules -/

/-- The titles of the rules among some items are those of the items. -/
theorem titles_of_mapM {items : List Item} (hitems : ∀ i ∈ items, i.Legible)
    {all : List RuleFields} (h : (items.mapM fun i ↦ rule? i.node) = some all) :
    (all.filterMap fun f ↦ (title? f).map (·, f)).map (·.1) = items.filterMap itemTitle? := by
  induction items generalizing all with
  | nil =>
    obtain rfl := Option.some.inj h
    rfl
  | cons i items ih =>
    obtain ⟨hi, hitems⟩ := List.forall_mem_cons.mp hitems
    rw [List.mapM_cons] at h
    obtain ⟨f, hf, more, hmore, hall⟩ : ∃ f, rule? i.node = some f ∧ ∃ more,
        (items.mapM fun i ↦ rule? i.node) = some more ∧ f :: more = all := by
      simpa [Option.bind_eq_some_iff] using h
    rw [← hall, List.filterMap_cons, List.filterMap_cons, ← ih hitems hmore,
      ← title?_of_rule? hi hf]
    cases title? f <;> rfl

/-- The items that are told with their lines are the items. -/
theorem items_itemsFrom (number : Nat) (items : List Item) :
    (itemsFrom number items).map (·.2) = items := by
  induction items generalizing number with
  | nil => rfl
  | cons i items ih => rw [itemsFrom, List.map_cons, ih]

/-- So are those of some groups. -/
theorem items_groupItems (number : Nat) (groups : List ItemGroup) :
    (groupItems number groups).map (·.2) = groups.flatMap (·.items) := by
  induction groups generalizing number with
  | nil => rfl
  | cons g groups ih =>
    rw [groupItems, List.map_append, items_itemsFrom, ih, List.flatMap_cons]

/-- The titles of the items that are rules, each with the lines of its item. -/
def itemTitles (items : List (Nat × Item)) : List ((RuleKind × String) × LineRange) :=
  items.filterMap fun p ↦ (itemTitle? p.2).map (·, ⟨p.1, p.1 + heights p.2.fields⟩)

/-- What is said of a rule, and where. -/
def placed (r : Rule) : (RuleKind × String) × LineRange := ((r.kind, r.name), r.lines)

/-- The titles of the document and the places in the text belong to the same items. -/
theorem zip_itemTitles (column : Nat) (items : List (Nat × Item)) :
    List.zip (items.filterMap fun p ↦ itemTitle? p.2) ((ruleSpans column items).map (·.lines)) =
      itemTitles items := by
  induction items with
  | nil => rfl
  | cons p items ih =>
    have hsome := isSome_itemTitle? p.2
    rw [itemTitles, List.filterMap_cons, List.filterMap_cons, ← itemTitles, ← ih, ruleSpans_cons]
    cases htitle : itemTitle? p.2 with
    | none =>
      rw [htitle] at hsome
      rw [← hsome]
      rfl
    | some title =>
      rw [htitle] at hsome
      rw [← hsome]
      rfl

/-- The titles of the rules come from the document, and their lines from the text. -/
theorem map_placed_zipWith (ls : List Text.Line) (found : List ((RuleKind × String) × RuleFields))
    (spans : List RuleSpan) :
    (List.zipWith (fun f span ↦ rule ls f.1 f.2 span) found spans).map placed =
      List.zip (found.map (·.1)) (spans.map (·.lines)) := by
  rw [List.map_zipWith, List.zip_map, List.zip, List.map_zipWith]
  rfl

theorem isWord_groups : IsWord "groups" := isWord (by decide) (by decide) (by decide)

theorem isWord_rules : IsWord "rules" := isWord (by decide) (by decide) (by decide)

theorem isWord_name : IsWord "name" := isWord (by decide) (by decide) (by decide)

/-- The lines of a text of groups are its rows, and the rules that are located are items. -/
theorem rules_groupsText (hwidth : 0 < width) (hgroups : ∀ g ∈ groups, IsRuleGroup g) :
    Locate.rules (Text.lines (groupsText width groups)) =
      ruleSpans (width + 2 + width) (groupItems 2 groups) := by
  have hfits : ∀ g ∈ groups, g.Fits := fun g hg ↦ (hgroups g hg).fits
  have hkey : ({ column := 0, key := .word "groups".toList } : Row).Fits :=
    ⟨isWord_groups.fits, fun v hv ↦ absurd hv (by simp)⟩
  have hlines : Text.lines (groupsText width groups) =
      rowLines 1 (listRows (.word "groups".toList) width groups) := by
    rw [Text.lines, groupsText, String.toList_ofList, linesFrom_rowsText]
    exact List.forall_mem_cons.mpr ⟨hkey, fits_of_mem_groupsRows hfits⟩
  rw [hlines, listRows, rowLines, rules_row_cons hkey rfl,
    rules_groupsRows _ hwidth hfits fun g hg ↦ (hgroups g hg).isPlainGroup]

/-- Each rule has the lines of its own item where the document has the rules of some items, and
those of them that are rules are located. -/
theorem placed_of_read {source : String} {document : Node} {column : Nat}
    {items : List (Nat × Item)} {rules : List Rule}
    (hblank : Text.isBlankText source.toList = false)
    (hdocument : Node.ofText? source = some document)
    (hfields : ∀ all, fields document = .ok all →
      ((items.map (·.2)).mapM fun i ↦ rule? i.node) = some all)
    (hspans : Locate.rules (Text.lines source) = ruleSpans column items)
    (hlegible : ∀ i ∈ items.map (·.2), i.Legible) (h : read source = .ok rules) :
    rules.map placed = itemTitles items := by
  rcases read_eq_ok h with ⟨hempty, -⟩ | ⟨document', all, hsome, hall, rfl⟩
  · exact absurd (hblank.symm.trans hempty) Bool.false_ne_true
  obtain rfl : document = document' := Option.some.inj (hdocument.symm.trans hsome)
  have htitles := titles_of_mapM hlegible (hfields all hall)
  rw [List.filterMap_map] at htitles
  rw [map_placed_zipWith, htitles, hspans]
  exact zip_itemTitles column items

/-- Each rule of a list has the lines of its own item. -/
theorem read_items (hwidth : 0 < width) {items : List Item} (hfits : ∀ i ∈ items, i.Fits)
    (hlegible : ∀ i ∈ items, i.Legible) {rules : List Rule}
    (h : read (itemsText width items) = .ok rules) :
    rules.map placed = itemTitles (itemsFrom 1 items) := by
  by_cases hempty : items = []
  · subst hempty
    have hread : read (itemsText width []) = .ok [] := rfl
    obtain rfl := Except.ok.inj (hread.symm.trans h)
    rfl
  have hblank : Text.isBlankText (itemsText width items).toList = false := by
    obtain ⟨i, items, rfl⟩ := List.exists_cons_of_ne_nil hempty
    simp [itemsText, itemsRows_cons, rowsText_cons, Item.row, Row.body, Text.isBlankText,
      show Text.isBlank '-' = false from rfl]
  have hspans : Locate.rules (Text.lines (itemsText width items)) =
      ruleSpans 0 (itemsFrom 1 items) := by
    rw [Text.lines, itemsText, String.toList_ofList,
      linesFrom_rowsText (fits_of_mem_itemsRows hfits), rules_itemsRows 1 hwidth hfits]
  refine placed_of_read hblank (ofText?_items hwidth hempty hfits hlegible) (fun all hall ↦ ?_)
    hspans ((items_itemsFrom 1 items).symm ▸ hlegible) h
  rw [items_itemsFrom]
  exact mapM_of_fields_sequence hall

/-- Each rule of some groups has the lines of its own item. -/
theorem read_groups (hwidth : 0 < width) (hgroups : ∀ g ∈ groups, IsRuleGroup g) {rules : List Rule}
    (h : read (groupsText width groups) = .ok rules) :
    rules.map placed = itemTitles (groupItems 2 groups) := by
  by_cases hempty : groups = []
  · subst hempty
    have hread : read (groupsText width []) = .ok [] := by
      have htext : groupsText width [] = "groups:\n" := rfl
      rw [htext]
      decide +kernel
    obtain rfl := Except.ok.inj (hread.symm.trans h)
    rfl
  have hblank : Text.isBlankText (groupsText width groups).toList = false := by
    simp [groupsText, listRows, rowsText_cons, Row.body, RowKey.chars, Text.isBlankText,
      show Text.isBlank 'g' = false from rfl]
  have hdocument : Node.ofText? (groupsText width groups) = some (groupsNode groups) :=
    ofText?_groups hwidth isWord_groups.fits isWord_groups.isText hempty
      (fun g hg ↦ (hgroups g hg).fits) (fun g hg ↦ (hgroups g hg).legible)
  refine placed_of_read hblank hdocument (fun all hall ↦ ?_) (rules_groupsText hwidth hgroups) ?_ h
  · rw [items_groupItems]
    exact mapM_of_fields_groupsNode hgroups hall
  · rw [items_groupItems]
    intro i hi
    obtain ⟨g, hg, hi⟩ := List.mem_flatMap.mp hi
    exact (hgroups g hg).legible.items i hi

/-! ### Lists and groups -/

/-- What rules are written in: a list, or the lists of some groups. -/
inductive RuleLayout where
  | list (items : List Item)
  | groups (groups : List ItemGroup)
  deriving DecidableEq, Repr

namespace RuleLayout

/-- The text, with each part `width` columns further in than the one around it. -/
def text (width : Nat) : RuleLayout → String
  | .list items => itemsText width items
  | .groups groups => groupsText width groups

/-- All items, each with the line in which it begins. -/
def items : RuleLayout → List (Nat × Item)
  | .list items => itemsFrom 1 items
  | .groups groups => groupItems 2 groups

/-- All parts can be written and read. -/
def Readable : RuleLayout → Prop
  | .list items => ∀ i ∈ items, i.Fits ∧ i.Legible
  | .groups groups => ∀ g ∈ groups, IsRuleGroup g

end RuleLayout

/-- Each rule has the lines of the item that says its sort and its name, and the items that are no
rules lend their lines to none. -/
theorem read_layout (hwidth : 0 < width) {layout : RuleLayout} (hlayout : layout.Readable)
    {rules : List Rule} (h : read (layout.text width) = .ok rules) :
    rules.map placed = itemTitles layout.items := by
  cases layout with
  | list items =>
    exact read_items hwidth (fun i hi ↦ (hlayout i hi).1) (fun i hi ↦ (hlayout i hi).2) h
  | groups groups => exact read_groups hwidth hlayout h

/-- An alert whose name is not its first field. -/
def lateAlert : Item where
  key := .word "expr".toList
  value := "up == 0".toList
  fields := ⟨.word "alert".toList, .text "A".toList⟩ ::
    sectionFields "labels" [("a: b", "- alert: B")]

/-- A recording rule with its name in quotes. -/
def quotedRecord : Item where
  key := .quoted "record".toList
  value := "job:up:sum".toList
  fields := [⟨.word "expr".toList, .text "sum(up)".toList⟩]

/-- Two groups: the first one has an item that is no rule between its rules, and the second one a
label that is called like the key of a rule. -/
def mixedGroups : RuleLayout := .groups
  [{ head := { key := .word "name".toList, value := "g".toList, fields := [] }
     key := .word "rules".toList
     items := [lateAlert, { key := .word "name".toList, value := "x".toList, fields := [] },
       quotedRecord] },
    { head := { key := .word "name".toList, value := "h".toList,
                fields := sectionFields "labels" [("alert", "C")] }
      key := .word "rules".toList
      items := [{ key := .word "alert".toList, value := "D".toList, fields := [] }] }]

theorem text_mixedGroups : mixedGroups.text 2 =
    "groups:\n  - name: 'g'\n    rules:\n      - expr: 'up == 0'\n        alert: 'A'\n" ++
      "        labels:\n          'a: b': '- alert: B'\n      - name: 'x'\n" ++
      "      - 'record': 'job:up:sum'\n        expr: 'sum(up)'\n  - name: 'h'\n" ++
      "    labels:\n      'alert': 'C'\n    rules:\n      - alert: 'D'\n" := by
  decide +kernel

/-- The alert can be written and read. -/
theorem readable_lateAlert : lateAlert.Fits ∧ lateAlert.Legible := by
  have hfits : ∀ f ∈ sectionFields "labels" [("a: b", "- alert: B")], f.Fits := fun f ↦
    fits_of_mem_sectionFields isWord_labels (by decide)
  have hlegible : ∀ f ∈ sectionFields "labels" [("a: b", "- alert: B")], f.Legible := fun f ↦
    legible_of_mem_sectionFields isWord_labels (by decide)
  exact ⟨⟨isWord_expr.fits, by decide,
      List.forall_mem_cons.mpr ⟨isWord_alert.fits_text (by decide), hfits⟩⟩,
    ⟨isWord_expr.isText, List.forall_mem_cons.mpr ⟨isWord_alert.legible_text _, hlegible⟩,
      by decide⟩⟩

/-- The recording rule can be written and read. -/
theorem readable_quotedRecord : quotedRecord.Fits ∧ quotedRecord.Legible :=
  ⟨⟨⟨by decide, by decide⟩, by decide,
      List.forall_mem_singleton.mpr (isWord_expr.fits_text (by decide))⟩,
    ⟨trivial, List.forall_mem_singleton.mpr (isWord_expr.legible_text _), by decide⟩⟩

/-- A word with a text and nothing else. -/
theorem IsWord.readable_item {name : String} (h : IsWord name) {value : List Char}
    (hvalue : Printable value) :
    (⟨.word name.toList, value, []⟩ : Item).Fits ∧
      (⟨.word name.toList, value, []⟩ : Item).Legible :=
  ⟨⟨h.fits, hvalue, by simp⟩, ⟨h.isText, by simp, by simp⟩⟩

/-- The two groups can be written and read. -/
theorem readable_mixedGroups : mixedGroups.Readable := by
  have hname {value : String} (hvalue : Printable value.toList) := isWord_name.readable_item hvalue
  refine List.forall_mem_cons.mpr ⟨?_, List.forall_mem_singleton.mpr ?_⟩
  · have hitems : ∀ i ∈ [lateAlert, ⟨.word "name".toList, "x".toList, []⟩, quotedRecord],
        i.Fits ∧ i.Legible := by
      simp only [List.forall_mem_cons]
      exact ⟨readable_lateAlert, hname (by decide), readable_quotedRecord, by simp⟩
    exact {
      fits := ⟨(hname (by decide)).1, isWord_rules.fits, fun i hi ↦ (hitems i hi).1, by simp⟩
      legible := ⟨isWord_name.isText, by simp, isWord_rules.isText, fun i hi ↦ (hitems i hi).2,
        by decide⟩
      key := rfl
      head := by decide }
  · have hitem := isWord_alert.readable_item (show Printable "D".toList by decide)
    have hfits : ∀ f ∈ sectionFields "labels" [("alert", "C")], f.Fits := fun f ↦
      fits_of_mem_sectionFields isWord_labels (by decide)
    have hlegible : ∀ f ∈ sectionFields "labels" [("alert", "C")], f.Legible := fun f ↦
      legible_of_mem_sectionFields isWord_labels (by decide)
    exact {
      fits := ⟨⟨isWord_name.fits, by decide, hfits⟩, isWord_rules.fits,
        List.forall_mem_singleton.mpr hitem.1, by simp⟩
      legible := ⟨isWord_name.isText, hlegible, isWord_rules.isText,
        List.forall_mem_singleton.mpr hitem.2, by decide⟩
      key := rfl
      head := by decide }

/-- The three rules of the two groups stand on their own lines, whatever stands between them. -/
theorem read_layout_mixedGroups : 0 < 2 ∧ mixedGroups.Readable ∧ ∃ rules,
    read (mixedGroups.text 2) = .ok rules ∧ rules.map placed =
      [((.alerting, "A"), ⟨4, 7⟩), ((.recording, "job:up:sum"), ⟨9, 10⟩),
        ((.alerting, "D"), ⟨15, 15⟩)] := by
  have hread : (read (mixedGroups.text 2)).isOk = true := by
    rw [text_mixedGroups]
    decide +kernel
  have htitles : itemTitles mixedGroups.items = [((.alerting, "A"), ⟨4, 7⟩),
      ((.recording, "job:up:sum"), ⟨9, 10⟩), ((.alerting, "D"), ⟨15, 15⟩)] := by
    decide +kernel
  cases hrules : read (mixedGroups.text 2) with
  | error err =>
    rw [hrules] at hread
    exact absurd hread Bool.false_ne_true
  | ok rules =>
    exact ⟨Nat.two_pos, readable_mixedGroups, rules, rfl,
      (read_layout Nat.two_pos readable_mixedGroups hrules).trans htitles⟩

end RuleFile

end AlertAudit
