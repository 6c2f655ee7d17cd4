import AlertAudit.Proofs.RuleFile.RowLines
import AlertAudit.Proofs.Yaml.Composition
import AlertAudit.RuleFile.Read
import Mathlib.Data.List.Nodup

/-!
Writing alerts and reading them back. Alerts are written as a list, one item each: the name behind
the dash, the query, and labels and annotations as mappings, one entry a line, with all values and
the keys of the entries in single quotes. Such a text is read as the same alerts, each with the
lines on which its parts were written (`read_written`).
-/

set_option autoImplicit false

namespace AlertAudit.RuleFile

open AlertAudit.Locate AlertAudit.Shape AlertAudit.Yaml

/-- An alert as it is written. -/
structure Alert where
  name : String
  query : String
  labels : List (String × String) := []
  annotations : List (String × String) := []
  deriving DecidableEq, Repr

def entryChars (e : String × String) : List Char × List Char := (e.1.toList, e.2.toList)

/-- The field for some entries; there is none if there are no entries. -/
def sectionFields (name : String) (es : List (String × String)) : List Field :=
  if es.isEmpty then [] else [⟨.word name.toList, .entries (es.map entryChars)⟩]

namespace Alert

/-- The fields below the name. -/
def lowerFields (a : Alert) : List Field :=
  ⟨.word "expr".toList, .text a.query.toList⟩ ::
    (sectionFields "labels" a.labels ++ sectionFields "annotations" a.annotations)

def item (a : Alert) : Item :=
  { key := .word "alert".toList, value := a.name.toList, fields := a.lowerFields }

/-- The alert can be written: its texts are printable, and the keys of its entries are distinct and
not too long. -/
structure Writable (a : Alert) : Prop where
  name : Printable a.name.toList
  query : Printable a.query.toList
  entries : ∀ e ∈ a.labels ++ a.annotations,
    Printable e.1.toList ∧ Printable e.2.toList ∧ e.1.length ≤ 500
  labels : (a.labels.map Prod.fst).Nodup
  annotations : (a.annotations.map Prod.fst).Nodup

end Alert

/-- Alerts in writing, with entries `width` columns further in than the fields. -/
def written (width : Nat) (alerts : List Alert) : String :=
  String.ofList (rowsText (itemsRows 0 width (alerts.map Alert.item)))

/-! ### The lines of the parts -/

/-- Entries that are written one a line. -/
def entriesFrom (number : Nat) : List (String × String) → List Entry
  | [] => []
  | (key, value) :: es =>
    ⟨⟨key, .single number⟩, ⟨value, .single number⟩⟩ :: entriesFrom (number + 1) es

def sectionHeight (es : List (String × String)) : Nat := if es.isEmpty then 0 else es.length + 1

namespace Alert

def lineCount (a : Alert) : Nat := 2 + sectionHeight a.labels + sectionHeight a.annotations

/-- The alert as a rule whose item begins in a line. -/
def rule (number : Nat) (a : Alert) : Rule where
  kind := .alerting
  name := a.name
  lines := ⟨number, number + a.lineCount - 1⟩
  query := some ⟨a.query, .single (number + 1)⟩
  labels := entriesFrom (number + 3) a.labels
  annotations := entriesFrom (number + 3 + sectionHeight a.labels) a.annotations

end Alert

/-- Alerts as rules, one behind the other. -/
def rulesFrom (number : Nat) : List Alert → List Rule
  | [] => []
  | a :: alerts => a.rule number :: rulesFrom (number + a.lineCount) alerts

/-! ### Alerts as items -/

/-- The words that rules have for keys: they mean nothing else where they stand without quotes. -/
structure IsWord (name : String) : Prop where
  fits : (RowKey.word name.toList).Fits
  isText : (RowKey.word name.toList).IsText

/-- What is decided of a word of the language: its characters and its length, and that it is no
other value. -/
theorem isWord {name : String} (hchars : name.toList.all RowKey.isWordChar)
    (hlength : name.length ≠ 0 ∧ name.length ≤ KeyPlace.maxLength)
    (hother : (name.isEmpty || Scalar.isNull name) = false ∧ Scalar.bool? name = none ∧
      Scalar.whole name = .missing ∧ Scalar.isPaddedDigits name.toList = false ∧
      (Scalar.float? name).isNone) : IsWord name := by
  rw [← String.length_toList] at hlength
  refine ⟨⟨List.ne_nil_of_length_pos (Nat.pos_of_ne_zero hlength.1),
    List.all_eq_true.mp hchars, hlength.2⟩, ?_⟩
  obtain ⟨hnull, hbool, hwhole, hpadded, hfloat⟩ := hother
  rw [RowKey.IsText, textNode, String.ofList_toList, Scalar.plain?, if_neg (by simp [hnull]), hbool,
    hwhole]
  simp [hpadded, Option.isNone_iff_eq_none.mp hfloat]

/-- A word with a text can be written. -/
theorem IsWord.fits_text {name : String} (h : IsWord name) {value : List Char}
    (hvalue : Printable value) : (⟨.word name.toList, .text value⟩ : Field).Fits :=
  ⟨h.fits, fun _ hv ↦ Content.text.inj hv ▸ hvalue, fun es hes ↦ absurd hes (by simp)⟩

/-- A word with a text can be read back. -/
theorem IsWord.legible_text {name : String} (h : IsWord name) (value : List Char) :
    (⟨.word name.toList, .text value⟩ : Field).Legible :=
  ⟨h.isText, fun es hes ↦ absurd hes (by simp)⟩

theorem isWord_alert : IsWord "alert" := isWord (by decide) (by decide) (by decide)

theorem isWord_expr : IsWord "expr" := isWord (by decide) (by decide) (by decide)

theorem isWord_labels : IsWord "labels" := isWord (by decide) (by decide) (by decide)

theorem isWord_annotations : IsWord "annotations" := isWord (by decide) (by decide) (by decide)

section Sections

variable {name : String} {es : List (String × String)} {f : Field}

/-- A section that is written is the field for its entries. -/
theorem mem_sectionFields (hf : f ∈ sectionFields name es) :
    es ≠ [] ∧ f = ⟨.word name.toList, .entries (es.map entryChars)⟩ := by
  rw [sectionFields] at hf
  split at hf
  · exact absurd hf List.not_mem_nil
  next hempty => exact ⟨by simpa using hempty, List.mem_singleton.mp hf⟩

/-- A section is written under its name or not at all. -/
theorem keys_sectionFields (name : String) (es : List (String × String)) :
    ((sectionFields name es).map (·.key.text)).Sublist [name.toList] := by
  rw [sectionFields]
  split
  · exact List.nil_sublist _
  · exact List.Sublist.refl _

/-- A section can be written if its entries can. -/
theorem fits_of_mem_sectionFields (hname : IsWord name)
    (hes : ∀ e ∈ es, Printable e.1.toList ∧ Printable e.2.toList ∧ e.1.length ≤ 500)
    (hf : f ∈ sectionFields name es) : f.Fits := by
  obtain ⟨hne, rfl⟩ := mem_sectionFields hf
  refine ⟨hname.fits, fun v hv ↦ absurd hv (by simp), fun cs hcs ↦ ?_⟩
  obtain rfl : es.map entryChars = cs := Content.entries.inj hcs
  refine ⟨by simpa using hne, fun e he ↦ ?_⟩
  obtain ⟨e, hmem, rfl⟩ := List.mem_map.mp he
  obtain ⟨hkey, hvalue, hlength⟩ := hes e hmem
  have hdoubled := length_doubled_le e.1.toList
  refine ⟨⟨hkey, ?_⟩, hvalue⟩
  rw [String.length_toList] at hdoubled
  simp only [quotation, entryChars, List.length_cons, List.length_append, List.length_nil,
    KeyPlace.maxLength]
  omega

/-- A section can be read back if no key of its entries comes twice. -/
theorem legible_of_mem_sectionFields (hname : IsWord name) (hes : (es.map Prod.fst).Nodup)
    (hf : f ∈ sectionFields name es) : f.Legible := by
  obtain ⟨-, rfl⟩ := mem_sectionFields hf
  refine ⟨hname.isText, fun cs hcs ↦ ?_⟩
  obtain rfl : es.map entryChars = cs := Content.entries.inj hcs
  have hkeys : (es.map entryChars).map Prod.fst = (es.map Prod.fst).map String.toList := by
    simp [entryChars]
  rw [hkeys]
  exact hes.map fun _ _ ↦ String.toList_injective

end Sections

namespace Alert

variable {a : Alert}

/-- The item of an alert that can be written can be written as rows. -/
theorem Writable.fits (ha : a.Writable) : a.item.Fits := by
  refine ⟨isWord_alert.fits, ha.name, fun f hf ↦ ?_⟩
  rcases List.mem_cons.mp hf with rfl | hf
  · exact isWord_expr.fits_text ha.query
  · rcases List.mem_append.mp hf with hf | hf
    · exact fits_of_mem_sectionFields isWord_labels
        (fun e he ↦ ha.entries e (List.mem_append_left _ he)) hf
    · exact fits_of_mem_sectionFields isWord_annotations
        (fun e he ↦ ha.entries e (List.mem_append_right _ he)) hf

/-- It can be read back. -/
theorem Writable.legible (ha : a.Writable) : a.item.Legible where
  key := isWord_alert.isText
  fields f hf := by
    rcases List.mem_cons.mp hf with rfl | hf
    · exact isWord_expr.legible_text _
    · rcases List.mem_append.mp hf with hf | hf
      · exact legible_of_mem_sectionFields isWord_labels ha.labels hf
      · exact legible_of_mem_sectionFields isWord_annotations ha.annotations hf
  keys := by
    have hwords : ["alert".toList, "expr".toList, "labels".toList, "annotations".toList].Nodup := by
      decide
    refine hwords.sublist (.cons_cons _ (.cons_cons _ ?_))
    rw [List.map_append]
    exact (keys_sectionFields "labels" a.labels).append (keys_sectionFields _ _)

def fields (a : Alert) : RuleFields where
  alert := some (.string a.name)
  expr := some (.string a.query)
  labels := if a.labels.isEmpty then none else some (a.labels.map fun e ↦ (e.1, .string e.2))
  annotations :=
    if a.annotations.isEmpty then none else some (a.annotations.map fun e ↦ (e.1, .string e.2))

end Alert

/-! ### The fields of the document -/

section Shape

def sectionNodes (name : String) (es : List (String × String)) : List (String × Node) :=
  if es.isEmpty then [] else [(name, .mapping (es.map fun e ↦ (.string e.1, .string e.2)))]

/-- An entry with a new key comes behind the other ones. -/
theorem setEntry_append {key : String} {value : Node} {es : List (String × Node)}
    (h : key ∉ es.map Prod.fst) : setEntry key value es = es ++ [(key, value)] := by
  induction es with
  | nil => rfl
  | cons e es ih =>
    obtain ⟨hkey, hes⟩ := not_or.mp (List.mem_cons.not.mp h)
    rw [setEntry, if_neg (Ne.symm hkey), ih hes, List.cons_append]

/-- So do several entries whose keys are distinct. -/
theorem foldl_setEntry (done : List (String × Node)) {es : List (String × Node)}
    (h : ((done ++ es).map Prod.fst).Nodup) :
    es.foldl (fun acc e ↦ setEntry e.1 e.2 acc) done = done ++ es := by
  induction es generalizing done with
  | nil => simp
  | cons e es ih =>
    have hfresh : e.1 ∉ done.map Prod.fst := by
      rw [List.map_append, List.nodup_append] at h
      exact fun hmem ↦ h.2.2 e.1 hmem e.1 (by simp) rfl
    rw [List.foldl_cons, setEntry_append hfresh, ih _ (by simpa using h), List.append_assoc,
      List.singleton_append]

/-- What succeeds for each one succeeds for all of them. -/
theorem mapM_eq_some_map {α β : Type} {f : α → Option β} {g : α → β} {xs : List α}
    (h : ∀ x ∈ xs, f x = some (g x)) : xs.mapM f = some (xs.map g) := by
  induction xs with
  | nil => rfl
  | cons x xs ih =>
    rw [List.mapM_cons, h x List.mem_cons_self, ih fun y hy ↦ h y (List.mem_cons_of_mem x hy)]
    rfl

/-- A mapping whose keys are texts is read as entries with these keys. -/
theorem stringEntries?_map {α : Type} (key : α → String) (value : α → Node) (es : List α) :
    stringEntries? (es.map fun e ↦ (.string (key e), value e)) =
      some (es.map fun e ↦ (key e, value e)) := by
  rw [stringEntries?, List.mapM_map]
  exact mapM_eq_some_map fun e _ ↦ rfl

/-- The texts of a section are read as its entries. -/
theorem texts?_mapping {es : List (String × String)} (hes : (es.map Prod.fst).Nodup) :
    texts? (.mapping (es.map fun e ↦ (Node.string e.1, Node.string e.2))) =
      some (some (es.map fun e ↦ (e.1, Node.string e.2))) := by
  have hkeys : ((es.map fun e ↦ (e.1, Node.string e.2)).map Prod.fst).Nodup := by
    simpa [Function.comp_def] using hes
  have hstrings := stringEntries?_map Prod.fst (fun e ↦ Node.string e.2) es
  simp only [texts?, Node.untagged, hstrings, Option.map_some]
  exact congrArg (some ∘ some) (foldl_setEntry [] hkeys)

/-- The entries of a section are a mapping of texts. -/
theorem node_entries (es : List (String × String)) :
    Content.node (.entries (es.map entryChars)) =
      .mapping (es.map fun e ↦ (.string e.1, .string e.2)) := by
  simp [Content.node, entryNode, entryChars, textNode, Function.comp_def]

/-- The values of the fields below the name, by name. -/
def Alert.nodes (a : Alert) : List (String × Node) :=
  ("alert", .string a.name) :: ("expr", .string a.query) ::
    (sectionNodes "labels" a.labels ++ sectionNodes "annotations" a.annotations)

/-- The fields of a section are its values. -/
theorem entry_sectionFields (name : String) (es : List (String × String)) :
    (sectionFields name es).map Field.entry =
      (sectionNodes name es).map fun e ↦ (Node.string e.1, e.2) := by
  rw [sectionFields, sectionNodes]
  split
  · rfl
  · simp [Field.entry, RowKey.text, textNode, node_entries]

/-- The item of an alert is a mapping of its values. -/
theorem node_item (a : Alert) :
    a.item.node = .mapping (a.nodes.map fun e ↦ (.string e.1, e.2)) := by
  simp [Item.node, Alert.item, Alert.nodes, Alert.lowerFields, RowKey.text, textNode, Field.entry,
    Content.node, entry_sectionFields]

/-- The item of an alert is read as its fields. -/
theorem rule?_item {a : Alert} (ha : a.Writable) : rule? a.item.node = some a.fields := by
  have hstrings := stringEntries?_map Prod.fst Prod.snd a.nodes
  rw [node_item, rule?]
  simp only [Node.untagged, hstrings]
  by_cases hlabels : a.labels = [] <;> by_cases hannotations : a.annotations = [] <;>
    simp [Alert.nodes, sectionNodes, field?, ruleOfValues?, Shape.optional, hlabels, hannotations,
      texts?_mapping ha.labels, texts?_mapping ha.annotations, Alert.fields]

/-- The fields of a written document are those of the alerts. -/
theorem fields_items {alerts : List Alert} (halerts : ∀ a ∈ alerts, a.Writable) :
    fields (.sequence ((alerts.map Alert.item).map Item.node)) =
      .ok (alerts.map Alert.fields) := by
  have hrules : ((alerts.map Alert.item).map Item.node).mapM rule? =
      some (alerts.map Alert.fields) := by
    rw [List.mapM_map, List.mapM_map]
    exact mapM_eq_some_map fun a ha ↦ rule?_item (halerts a ha)
  simp only [fields, Node.untagged, rules?, items?, Option.bind_eq_bind, Option.bind_some, hrules]
  rfl

end Shape

/-! ### The spans of the parts -/

section Spans

variable {name : String} {es : List (String × String)} {column number : Nat} {fields : List Field}

/-- Some fields and some more have as many rows as both have. -/
theorem heights_append (fields more : List Field) :
    heights (fields ++ more) = heights fields + heights more := by
  simp [heights]

/-- A section has a row for its name and one for each entry. -/
theorem heights_sectionFields (name : String) (es : List (String × String)) :
    heights (sectionFields name es) = sectionHeight es := by
  rw [sectionFields, sectionHeight]
  split <;> simp [heights, height]

/-- An alert has a line for each of its rows. -/
theorem heights_item (a : Alert) : heights a.item.fields + 1 = a.lineCount := by
  have hcons : heights a.item.fields = 1 +
      heights (sectionFields "labels" a.labels ++ sectionFields "annotations" a.annotations) := rfl
  rw [hcons, heights_append, heights_sectionFields, heights_sectionFields, Alert.lineCount]
  omega

/-- The fields behind others begin in the line behind the rows of those. -/
theorem fieldSpans_append (fields more : List Field) : fieldSpans column number (fields ++ more) =
    fieldSpans column number fields ++ fieldSpans column (number + heights fields) more := by
  induction fields generalizing number with
  | nil => rfl
  | cons f fields ih =>
    have hsum : heights (f :: fields) = height f + heights fields := rfl
    rw [List.cons_append, fieldSpans, ih, fieldSpans, List.cons_append, hsum, Nat.add_assoc]

/-- The key of a section, if it is written. -/
theorem find?_sectionFields (other : String) :
    (fieldSpans column number (sectionFields name es)).find? (·.name = other) =
      if es.isEmpty = false ∧ name = other then
        some (fieldSpan column number ⟨.word name.toList, .entries (es.map entryChars)⟩)
      else none := by
  rw [sectionFields]
  split
  next hempty => simp [fieldSpans, hempty]
  next hempty =>
    by_cases h : name = other <;> simp [fieldSpans, fieldSpan, RowKey.text, h, hempty]

/-- Each field has a place. -/
theorem length_fieldSpans (fields : List Field) :
    (fieldSpans column number fields).length = fields.length := by
  induction fields generalizing number with
  | nil => rfl
  | cons f fields ih => rw [fieldSpans, List.length_cons, ih, List.length_cons]

/-- Entries and the places of as many keys, put together. -/
theorem zipWith_fieldSpans (column number : Nat) (es : List (String × String)) :
    List.zipWith (fun e k ↦ (⟨⟨e.1, .single k.line⟩, ⟨e.2, k.value⟩⟩ : Entry)) es
      (fieldSpans column number ((es.map entryChars).map entryField)) = entriesFrom number es := by
  induction es generalizing number with
  | nil => rfl
  | cons e es ih =>
    rw [entriesFrom, ← ih]
    rfl

/-- The entries of a section are read from the lines on which they stand. -/
theorem entries_section {ls : List Text.Line} {span : RuleSpan} {f : Field} {right : Nat}
    (hparent : span.key? name = some (fieldSpan column number f))
    (hchildren : children ls (fieldSpan column number f) =
      fieldSpans right (number + 1) ((es.map entryChars).map entryField)) :
    entries ls span name (es.map fun e ↦ (e.1, Node.string e.2)) = entriesFrom (number + 1) es := by
  have hlength : (fieldSpans right (number + 1) ((es.map entryChars).map entryField)).length =
      (es.map fun e ↦ (e.1, Node.string e.2)).length := by
    simp [length_fieldSpans]
  rw [← zipWith_fieldSpans right]
  simp only [entries, hparent, Option.elim_some, hchildren, hlength, if_true]
  rw [List.zipWith_map]
  rfl

/-- The lines behind a line are among those behind a line further up. -/
theorem linesAfter_linesAfter (first : Nat) {last : Nat} (h : first ≤ last) (ls : List Text.Line) :
    linesAfter last (linesAfter first ls) = linesAfter last ls := by
  induction ls with
  | nil => rfl
  | cons l ls ih =>
    by_cases hl : l.number ≤ first
    · have hlast : l.number ≤ last := hl.trans h
      rw [linesAfter, linesAfter, linesAfter, List.dropWhile_cons_of_pos (by simpa using hl),
        List.dropWhile_cons_of_pos (by simpa using hlast)]
      exact ih
    · rw [linesAfter, linesAfter, List.dropWhile_cons_of_neg (by simpa using hl), linesAfter]

/-- The entries of a section whose rows begin in a line. -/
theorem entries_sectionFields (width : Nat) {rows : List Row} {ls : List Text.Line}
    {span : RuleSpan} (hfits : ∀ f ∈ sectionFields name es, f.Fits) (hrows : ∀ r ∈ rows, r.Fits)
    (h : ∀ r ∈ rows.head?, r.column ≤ column)
    (hkey : span.key? name = if es.isEmpty then none else
      some (fieldSpan column number ⟨.word name.toList, .entries (es.map entryChars)⟩))
    (hls : linesAfter number ls = rowLines (number + 1)
      (((sectionFields name es).flatMap (Field.rows column width) ++ rows).drop 1)) :
    entries ls span name
        ((if es.isEmpty then none else some (es.map fun e ↦ (e.1, Node.string e.2))).getD []) =
      entriesFrom (number + 1) es := by
  by_cases hempty : es = []
  · subst hempty
    simp [entries, entriesFrom]
  · have hsection : sectionFields name es =
        [⟨.word name.toList, .entries (es.map entryChars)⟩] := by
      simp [sectionFields, hempty]
    rw [if_neg (by simpa using hempty)] at hkey ⊢
    rw [hsection] at hfits hls
    have hdeeper : ∀ r ∈ rows.head?, r.column ≤ column + width := fun r hr ↦
      (h r hr).trans (Nat.le_add_right _ _)
    exact entries_section hkey (children_field number (hfits _ List.mem_cons_self) rfl hrows hdeeper
      (by simpa [Field.rows] using hls))

end Spans

/-- The keys of an alert: its name, its query and its sections. -/
theorem keys_itemSpan (number : Nat) (a : Alert) : (itemSpan 0 number a.item).keys =
    ⟨"alert", number, 2, .single number, true⟩ ::
      ⟨"expr", number + 1, 2, .single (number + 1), true⟩ ::
        (fieldSpans 2 (number + 2) (sectionFields "labels" a.labels) ++
          fieldSpans 2 (number + 2 + sectionHeight a.labels)
            (sectionFields "annotations" a.annotations)) := by
  rw [← heights_sectionFields "labels", ← fieldSpans_append]
  simp [itemSpan, Alert.item, Alert.lowerFields, fieldSpans, fieldSpan, RowKey.text, height]

/-- The query stands on the second line of an alert. -/
theorem key?_expr (number : Nat) (a : Alert) : (itemSpan 0 number a.item).key? "expr" =
    some ⟨"expr", number + 1, 2, .single (number + 1), true⟩ := by
  rw [RuleSpan.key?, keys_itemSpan, List.find?_cons_of_neg (by simp),
    List.find?_cons_of_pos (by simp)]

/-- Other keys are looked for among the sections. -/
theorem key?_section {name : String} (halert : "alert" ≠ name) (hexpr : "expr" ≠ name)
    (number : Nat) (a : Alert) : (itemSpan 0 number a.item).key? name =
      ((fieldSpans 2 (number + 2) (sectionFields "labels" a.labels)).find? (·.name = name)).or
        ((fieldSpans 2 (number + 2 + sectionHeight a.labels)
          (sectionFields "annotations" a.annotations)).find? (·.name = name)) := by
  rw [RuleSpan.key?, keys_itemSpan, List.find?_cons_of_neg (by simpa using halert),
    List.find?_cons_of_neg (by simpa using hexpr), List.find?_append]

/-- The labels stand below the query, if there are any. -/
theorem key?_labels (number : Nat) (a : Alert) : (itemSpan 0 number a.item).key? "labels" =
    if a.labels.isEmpty then none else
      some (fieldSpan 2 (number + 2)
        ⟨.word "labels".toList, .entries (a.labels.map entryChars)⟩) := by
  have hother : "annotations" ≠ "labels" := by decide
  rw [key?_section (by decide) (by decide), find?_sectionFields, find?_sectionFields]
  cases a.labels <;> simp [hother]

/-- The annotations stand below the labels, if there are any. -/
theorem key?_annotations (number : Nat) (a : Alert) :
    (itemSpan 0 number a.item).key? "annotations" = if a.annotations.isEmpty then none else
      some (fieldSpan 2 (number + 2 + sectionHeight a.labels)
        ⟨.word "annotations".toList, .entries (a.annotations.map entryChars)⟩) := by
  have hother : "labels" ≠ "annotations" := by decide
  rw [key?_section (by decide) (by decide), find?_sectionFields, find?_sectionFields]
  cases a.annotations <;> simp [hother]

/-- The rows of an alert and what is behind them. -/
theorem itemsRows_alert (width : Nat) (a : Alert) (items : List Item) :
    itemsRows 0 width (a.item :: items) =
      a.item.row 0 :: { column := 2, key := .word "expr".toList, value := some a.query.toList } ::
        ((sectionFields "labels" a.labels).flatMap (Field.rows 2 width) ++
          ((sectionFields "annotations" a.annotations).flatMap (Field.rows 2 width) ++
            itemsRows 0 width items)) := by
  simp [itemsRows_cons, Alert.item, Alert.lowerFields, Field.rows]

/-- An alert is read from its item. -/
theorem rule_item {width number : Nat} (hnumber : 1 ≤ number) {a : Alert}
    (ha : a.Writable) {items : List Item} (hitems : ∀ i ∈ items, i.Fits) {ls : List Text.Line}
    (hls : linesAfter (number - 1) ls = rowLines number (itemsRows 0 width (a.item :: items))) :
    rule ls (.alerting, a.name) a.fields (itemSpan 0 number a.item) = a.rule number := by
  have hfits := ha.fits.fields
  have hlabelsFits : ∀ f ∈ sectionFields "labels" a.labels, f.Fits := fun f hf ↦
    hfits f (List.mem_cons_of_mem _ (List.mem_append_left _ hf))
  have hannotationsFits : ∀ f ∈ sectionFields "annotations" a.annotations, f.Fits := fun f hf ↦
    hfits f (List.mem_cons_of_mem _ (List.mem_append_right _ hf))
  have hrows : ∀ r ∈ itemsRows 0 width items, r.Fits := fits_of_mem_itemsRows hitems
  have hcolumn : ∀ r ∈ (itemsRows 0 width items).head?, r.column ≤ 2 := by
    intro r hr
    rw [column_of_mem_head?_itemsRows hr]
    exact Nat.zero_le 2
  have hafter (k : Nat) : linesAfter (number + k) ls =
      rowLines (number + k + 1) ((itemsRows 0 width (a.item :: items)).drop (k + 1)) := by
    have hdrop : number + k + 1 - number = k + 1 := by omega
    rw [← linesAfter_linesAfter (number - 1) (by omega), hls,
      linesAfter_rowLines (by omega), hdrop]
  have hlength : ((sectionFields "labels" a.labels).flatMap (Field.rows 2 width)).length =
      sectionHeight a.labels := by
    rw [length_fieldsRows, heights_sectionFields]
  have hlabels := entries_sectionFields width hlabelsFits
    (fun r hr ↦ (List.mem_append.mp hr).elim (fits_of_mem_fieldsRows hannotationsFits r) (hrows r))
    (column_le_of_mem_head? hcolumn) (key?_labels number a)
    (by rw [hafter 2, itemsRows_alert]; rfl)
  have hannotations := entries_sectionFields width hannotationsFits hrows hcolumn
    (key?_annotations number a) (by
      rw [Nat.add_assoc, hafter, itemsRows_alert, ← hlength, Nat.add_comm 2, List.drop_succ_cons,
        List.drop_succ_cons, Nat.add_comm _ 1, List.drop_length_add_append])
  have hlast : number + heights a.item.fields = number + a.lineCount - 1 := by
    have := heights_item a
    omega
  have hnumber : number + 2 + sectionHeight a.labels + 1 = number + 3 + sectionHeight a.labels := by
    omega
  rw [hnumber] at hannotations
  simp only [rule, key?_expr, Option.map_some, Option.elim_some, Alert.rule, Alert.fields, hlabels,
    hannotations]
  rw [itemSpan, hlast]
  rfl

/-- Each item has a place. -/
theorem length_itemSpans (column number : Nat) (items : List Item) :
    (itemSpans column number items).length = items.length := by
  induction items generalizing number with
  | nil => rfl
  | cons i items ih => rw [itemSpans, List.length_cons, ih, List.length_cons]

/-- Behind the rows of an item come those of the next ones. -/
theorem drop_itemsRows (column width : Nat) (i : Item) (items : List Item) :
    (itemsRows column width (i :: items)).drop (heights i.fields + 1) =
      itemsRows column width items := by
  rw [itemsRows_cons, List.drop_succ_cons, ← length_fieldsRows (column + 2) width,
    List.drop_left]

/-- Some alerts are read from their items. -/
theorem zipWith_rule {width : Nat} (number : Nat) (hnumber : 1 ≤ number) {alerts : List Alert}
    (halerts : ∀ a ∈ alerts, a.Writable) {ls : List Text.Line}
    (hls : linesAfter (number - 1) ls =
      rowLines number (itemsRows 0 width (alerts.map Alert.item))) :
    List.zipWith (fun (a : Alert) span ↦ rule ls (.alerting, a.name) a.fields span) alerts
      (itemSpans 0 number (alerts.map Alert.item)) = rulesFrom number alerts := by
  induction alerts generalizing number with
  | nil => rfl
  | cons a alerts ih =>
    have ha := halerts a List.mem_cons_self
    have hmore := fun b hb ↦ halerts b (List.mem_cons_of_mem a hb)
    have hitems : ∀ i ∈ alerts.map Alert.item, i.Fits := by
      intro i hi
      obtain ⟨b, hb, rfl⟩ := List.mem_map.mp hi
      exact (hmore b hb).fits
    have hcount := heights_item a
    have hdrop : number + a.lineCount - 1 + 1 - number = heights a.item.fields + 1 := by omega
    have hfirst : number + a.lineCount - 1 + 1 = number + a.lineCount := by omega
    have hrest := ih (number + a.lineCount) (by omega) hmore (by
      rw [← linesAfter_linesAfter (number - 1) (by omega), hls,
        linesAfter_rowLines (by omega), List.map_cons, hdrop, drop_itemsRows, hfirst])
    rw [List.map_cons, itemSpans, List.zipWith_cons_cons, rulesFrom,
      rule_item hnumber ha hitems hls, Nat.add_assoc, heights_item, hrest]

/-- Alerts are read as they were written, with the lines on which their parts stand. -/
theorem read_written {width : Nat} (hwidth : 0 < width) {alerts : List Alert}
    (halerts : ∀ a ∈ alerts, a.Writable) :
    read (written width alerts) = .ok (rulesFrom 1 alerts) := by
  by_cases hempty : alerts = []
  · subst hempty
    simp [read, written, rowsText, itemsRows, Text.isBlankText, rulesFrom]
  have hfits : ∀ i ∈ alerts.map Alert.item, i.Fits := by
    intro i hi
    obtain ⟨a, ha, rfl⟩ := List.mem_map.mp hi
    exact (halerts a ha).fits
  have hlegible : ∀ i ∈ alerts.map Alert.item, i.Legible := by
    intro i hi
    obtain ⟨a, ha, rfl⟩ := List.mem_map.mp hi
    exact (halerts a ha).legible
  have hblank : Text.isBlankText (written width alerts).toList = false := by
    obtain ⟨a, alerts, rfl⟩ := List.exists_cons_of_ne_nil hempty
    simp [written, itemsRows_cons, rowsText_cons, Item.row, Row.body, Text.isBlankText,
      show Text.isBlank '-' = false from rfl]
  have hdocument : Node.ofText? (written width alerts) = _ :=
    ofText?_items hwidth (by simpa using hempty) hfits hlegible
  have hlines : Text.lines (written width alerts) =
      rowLines 1 (itemsRows 0 width (alerts.map Alert.item)) := by
    rw [Text.lines, written, String.toList_ofList, linesFrom_rowsText (fits_of_mem_itemsRows hfits)]
  have hspans : Locate.rules (rowLines 1 (itemsRows 0 width (alerts.map Alert.item))) =
      itemSpans 0 1 (alerts.map Alert.item) := by
    rw [rules_itemsRows 1 hwidth hfits, ruleSpans_itemsFrom]
    intro i hi
    obtain ⟨a, -, rfl⟩ := List.mem_map.mp hi
    rfl
  have htitles : (alerts.map Alert.fields).filterMap (fun f ↦ (title? f).map (·, f)) =
      alerts.map fun a ↦ ((.alerting, a.name), a.fields) := by
    rw [List.filterMap_map, ← List.filterMap_eq_map]
    rfl
  have hrules := zipWith_rule 1 (Nat.le_refl 1) halerts
    (linesAfter_rowLines (Nat.le_refl 1) (itemsRows 0 width (alerts.map Alert.item)))
  rw [read, if_neg (by simp [hblank]), hdocument]
  simp only [fields_items halerts, hlines, hspans, length_itemSpans]
  rw [← hrules]
  simp only [bind, Except.bind, htitles, List.length_map, if_true, List.zipWith_map_left]
  rfl

/-- Alerts with texts that look like comments, keys, list items, block scalars and quotes. -/
def oddAlerts : List Alert :=
  [{ name := "- alert: 'B'", query := "up # == 0", labels := [("a: b", "|"), ("#c", "it's")] },
    { name := "", query := "'", annotations := [("'x': y", "- z")] }]

/-- Two alerts with a comment, a key, a list item, a block scalar and quotes in their texts, and the
lines of their parts. -/
theorem read_written_oddAlerts : 0 < 2 ∧ (∀ a ∈ oddAlerts, a.Writable) ∧
    read (written 2 oddAlerts) = .ok [
      { kind := .alerting, name := "- alert: 'B'", lines := ⟨1, 5⟩
        query := some ⟨"up # == 0", ⟨2, 2⟩⟩
        labels := [⟨⟨"a: b", ⟨4, 4⟩⟩, ⟨"|", ⟨4, 4⟩⟩⟩, ⟨⟨"#c", ⟨5, 5⟩⟩, ⟨"it's", ⟨5, 5⟩⟩⟩]
        annotations := [] },
      { kind := .alerting, name := "", lines := ⟨6, 9⟩
        query := some ⟨"'", ⟨7, 7⟩⟩
        labels := []
        annotations := [⟨⟨"'x': y", ⟨9, 9⟩⟩, ⟨"- z", ⟨9, 9⟩⟩⟩] }] := by
  have hwritable : ∀ a ∈ oddAlerts, a.Writable := by
    intro a ha
    rcases List.mem_pair.mp ha with rfl | rfl
    · exact ⟨by decide, by decide, by decide, by decide, by decide⟩
    · exact ⟨by decide, by decide, by decide, by decide, by decide⟩
  exact ⟨Nat.two_pos, hwritable, read_written Nat.two_pos hwritable⟩

example : written 2 oddAlerts =
    "- alert: '- alert: ''B'''\n  expr: 'up # == 0'\n  labels:\n    'a: b': '|'\n" ++
      "    '#c': 'it''s'\n- alert: ''\n  expr: ''''\n  annotations:\n    '''x'': y': '- z'\n" := by
  decide +kernel

end AlertAudit.RuleFile
