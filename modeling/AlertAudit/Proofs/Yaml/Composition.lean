import AlertAudit.Proofs.Yaml.Items

/-!
The value of a list of mappings. The tokens of each part are read as the value of that part,
whatever follows (`Reads`), with as much fuel as the whole document gives, and so the whole text is
read as the list of its items (`ofText?_items`).
-/

set_option autoImplicit false

namespace AlertAudit.Yaml

namespace Compose

/-! ### Steps of the reading -/

theorem run_peek (c : Composing) : peek.run c = some (c.tokens.head?, c) := rfl

theorem run_advance (c : Composing) :
    advance.run c = some ((), { c with tokens := c.tokens.drop 1 }) := rfl

theorem run_count (n : Nat) (c : Composing) :
    (count n).run c = some ((), { c with events := c.events + n }) := rfl

theorem run_take? (t : Token) (c : Composing) : (take? t).run c =
    if c.tokens.head? = some t then some (true, { c with tokens := c.tokens.drop 1 })
    else some (false, c) := by
  rw [take?, StateT.run_bind, run_peek]
  by_cases h : c.tokens.head? = some t <;> simp [h, run_advance]

/-- Some tokens are read as `x`, whatever follows them, where the fuel is at most `spent` less than
four for each token. No alias is followed and no anchor is seen. -/
def Reads {α : Type} (spent : Nat) (m : Nat → Compose α) (ts : List Token) (x : α) : Prop :=
  ∀ fuel, 4 * ts.length ≤ fuel + spent → ∀ (c : Composing) (rest : List Token),
    c.tokens = ts ++ rest → ∃ events, (m fuel).run c = some (x, { c with tokens := rest, events })

/-- A token that begins a value without properties. -/
def StartsContent : Token → Prop
  | .scalar .. | .blockSequenceStart | .blockMappingStart => True
  | _ => False

variable {block indentless : Bool} {ts : List Token} {x : Node}

/-- Content without properties is a value. -/
theorem Reads.node (h : Reads 2 (content block indentless {} none) ts x)
    (hstart : ∃ t, ts.head? = some t ∧ StartsContent t) : Reads 1 (node block indentless) ts x := by
  intro fuel hfuel c rest htokens
  obtain ⟨t, ht, hcontent⟩ := hstart
  obtain ⟨t, ts, rfl⟩ : ∃ t' ts', ts = t' :: ts' :=
    List.exists_cons_of_ne_nil (by rintro rfl; cases ht)
  obtain rfl := Option.some.inj ht
  obtain ⟨fuel, rfl⟩ : ∃ n, fuel = n + 1 := Nat.exists_eq_succ_of_ne_zero (by simp at hfuel; omega)
  obtain ⟨events, hrun⟩ := h fuel (by omega) c rest htokens
  refine ⟨events, ?_⟩
  rw [Compose.node, StateT.run_bind, run_peek, htokens]
  cases t <;> try exact absurd hcontent id
  all_goals
    simp [properties, StateT.run_bind, run_peek, htokens, fullTag, openAnchor, closeAnchor, hrun]

/-- A value is read where none of the tokens stands that may stand in its place. -/
theorem Reads.nodeUnless (stops : List Token) (h : Reads 2 (content block indentless {} none) ts x)
    (hstart : ∃ t, ts.head? = some t ∧ StartsContent t ∧ t ∉ stops) :
    Reads 0 (nodeUnless stops block indentless) ts x := by
  intro fuel hfuel c rest htokens
  obtain ⟨t, ht, hcontent, hstops⟩ := hstart
  have hlength : 0 < ts.length := List.length_pos_of_ne_nil (by rintro rfl; cases ht)
  obtain ⟨fuel, rfl⟩ : ∃ n, fuel = n + 1 := Nat.exists_eq_succ_of_ne_zero (by omega)
  obtain ⟨events, hrun⟩ := h.node ⟨t, ht, hcontent⟩ fuel (by omega) c rest htokens
  refine ⟨events, ?_⟩
  have hhead : c.tokens.head? = some t := by
    rw [htokens, List.head?_append, ht]
    rfl
  simp [Compose.nodeUnless, stopsAt, StateT.run_bind, run_peek, hhead, hstops, hrun]

/-- A text in quotes, or one that is written without quotes and is no other value. -/
theorem reads_scalar (plain : Bool) {text : String} (h : Scalar.node? none plain text = some x) :
    Reads 2 (content block indentless {} none) [.scalar plain text] x := by
  intro fuel hfuel c rest htokens
  obtain ⟨fuel, rfl⟩ : ∃ n, fuel = n + 1 := Nat.exists_eq_succ_of_ne_zero (by simp at hfuel; omega)
  refine ⟨c.events + 1, ?_⟩
  simp [content, StateT.run_bind, run_peek, run_advance, run_count, htokens, h]

/-- The entries of a block, with no key twice, are a mapping. -/
theorem reads_mapping (indentless : Bool) {entries : List (Node × Node)}
    (h : Reads 0 blockEntries ts entries)
    (hkeys : Node.distinctKeys entries) :
    Reads 2 (content true indentless {} none) (.blockMappingStart :: ts) (.mapping entries) := by
  intro fuel hfuel c rest htokens
  simp only [List.length_cons] at hfuel
  obtain ⟨fuel, rfl⟩ : ∃ n, fuel = n + 1 := Nat.exists_eq_succ_of_ne_zero (by omega)
  obtain ⟨events, hrun⟩ := h fuel (by omega) { c with tokens := ts ++ rest } rest rfl
  refine ⟨events + 2, ?_⟩
  simp [content, mapping, withTag, StateT.run_bind, run_peek, run_advance, run_count, htokens, hrun,
    hkeys]

/-- The items of a block are a list. -/
theorem reads_sequence (indentless : Bool) {items : List Node} (h : Reads 0 blockItems ts items) :
    Reads 2 (content true indentless {} none) (.blockSequenceStart :: ts) (.sequence items) := by
  intro fuel hfuel c rest htokens
  simp only [List.length_cons] at hfuel
  obtain ⟨fuel, rfl⟩ : ∃ n, fuel = n + 1 := Nat.exists_eq_succ_of_ne_zero (by omega)
  obtain ⟨events, hrun⟩ := h fuel (by omega) { c with tokens := ts ++ rest } rest rfl
  refine ⟨events + 2, ?_⟩
  simp [content, sequence, withTag, StateT.run_bind, run_peek, run_advance, run_count, htokens,
    hrun]

theorem reads_entries_nil : Reads 0 blockEntries [.blockEnd] [] := by
  intro fuel hfuel c rest htokens
  obtain ⟨fuel, rfl⟩ : ∃ n, fuel = n + 1 := Nat.exists_eq_succ_of_ne_zero (by simp at hfuel; omega)
  refine ⟨c.events, ?_⟩
  simp [blockEntries, require, StateT.run_bind, run_take?, htokens]

/-- A key and a value in front of the other entries. -/
theorem reads_entries_cons {keyTokens valueTokens : List Token} {key value : Node}
    {entries : List (Node × Node)}
    (hkey : Reads 0 (nodeUnless [.key, .value, .blockEnd] true true) keyTokens key)
    (hvalue : Reads 0 (nodeUnless [.key, .value, .blockEnd] true true) valueTokens value)
    (hrest : Reads 0 blockEntries ts entries) :
    Reads 0 blockEntries (.key :: (keyTokens ++ .value :: (valueTokens ++ ts)))
      ((key, value) :: entries) := by
  intro fuel hfuel c rest htokens
  simp only [List.length_cons, List.length_append] at hfuel
  obtain ⟨fuel, rfl⟩ : ∃ n, fuel = n + 1 := Nat.exists_eq_succ_of_ne_zero (by omega)
  obtain ⟨eventsKey, hkey⟩ := hkey fuel (by omega)
    { c with tokens := keyTokens ++ .value :: (valueTokens ++ ts ++ rest) } _ rfl
  obtain ⟨eventsValue, hvalue⟩ := hvalue fuel (by omega)
    { c with tokens := valueTokens ++ (ts ++ rest), events := eventsKey } _ rfl
  obtain ⟨events, hrest⟩ := hrest fuel (by omega)
    { c with tokens := ts ++ rest, events := eventsValue } _ rfl
  refine ⟨events, ?_⟩
  simp only [List.append_assoc] at hkey
  simp [blockEntries, StateT.run_bind, run_take?, htokens, hkey, hvalue, hrest]

theorem reads_items_nil : Reads 0 blockItems [.blockEnd] [] := by
  intro fuel hfuel c rest htokens
  obtain ⟨fuel, rfl⟩ : ∃ n, fuel = n + 1 := Nat.exists_eq_succ_of_ne_zero (by simp at hfuel; omega)
  refine ⟨c.events, ?_⟩
  simp [blockItems, require, StateT.run_bind, run_take?, htokens]

/-- An item in front of the other ones. -/
theorem reads_items_cons {itemTokens : List Token} {items : List Node}
    (hitem : Reads 0 (nodeUnless [.blockEntry, .blockEnd] true false) itemTokens x)
    (hrest : Reads 0 blockItems ts items) :
    Reads 0 blockItems (.blockEntry :: (itemTokens ++ ts)) (x :: items) := by
  intro fuel hfuel c rest htokens
  simp only [List.length_cons, List.length_append] at hfuel
  obtain ⟨fuel, rfl⟩ : ∃ n, fuel = n + 1 := Nat.exists_eq_succ_of_ne_zero (by omega)
  obtain ⟨eventsItem, hitem⟩ := hitem fuel (by omega)
    { c with tokens := itemTokens ++ (ts ++ rest) } _ rfl
  obtain ⟨events, hrest⟩ := hrest fuel (by omega)
    { c with tokens := ts ++ rest, events := eventsItem } _ rfl
  refine ⟨events, ?_⟩
  simp [blockItems, StateT.run_bind, run_take?, htokens, hitem, hrest]

end Compose

/-! ### Lists of mappings -/

/-- A key that is a text and nothing else. -/
def RowKey.IsText : RowKey → Prop
  | word text => Scalar.plain? (String.ofList text) = some (textNode text)
  | quoted _ => True

/-- A field with a text for a key, and with no key twice in its mapping. -/
structure Field.Legible (f : Field) : Prop where
  key : f.key.IsText
  entries : ∀ es, f.content = .entries es → (es.map Prod.fst).Nodup

/-- An item with texts for keys, none of them twice. -/
structure Item.Legible (i : Item) : Prop where
  key : i.key.IsText
  fields : ∀ f ∈ i.fields, f.Legible
  keys : (i.key.text :: i.fields.map (·.key.text)).Nodup

/-- Keys with different texts are different keys. -/
theorem distinctKeys_of_nodup (keys : List (List Char)) {entries : List (Node × Node)}
    (hentries : entries.map Prod.fst = keys.map textNode) (hkeys : keys.Nodup) :
    Node.distinctKeys entries := by
  induction entries generalizing keys with
  | nil => rfl
  | cons e entries ih =>
    obtain _ | ⟨key, keys⟩ := keys
    · simp at hentries
    obtain ⟨node, value⟩ := e
    simp only [List.map_cons, List.cons.injEq] at hentries
    obtain ⟨rfl, hentries⟩ := hentries
    obtain ⟨hkey, hkeys⟩ := List.nodup_cons.mp hkeys
    rw [Node.distinctKeys, ih keys hentries hkeys, Bool.and_true, Bool.not_eq_true',
      List.any_eq_false]
    intro e he hsame
    obtain ⟨other, hother, heq⟩ : ∃ other ∈ keys, textNode other = e.1 := by
      have : e.1 ∈ keys.map textNode := hentries ▸ List.mem_map_of_mem he
      simpa using this
    rw [← heq] at hsame
    have : String.ofList key = String.ofList other := by simpa [textNode, Node.same] using hsame
    exact hkey ((String.ofList_injective this) ▸ hother)

namespace Compose

/-- The key of a row is read as its text. -/
theorem reads_key {key : RowKey} (hkey : key.IsText) {stops : List Token}
    (hstops : key.token ∉ stops) {block indentless : Bool} :
    Reads 0 (nodeUnless stops block indentless) [key.token] (textNode key.text) := by
  cases key with
  | word text => exact (reads_scalar true hkey).nodeUnless stops ⟨_, rfl, trivial, hstops⟩
  | quoted text => exact (reads_scalar false rfl).nodeUnless stops ⟨_, rfl, trivial, hstops⟩

/-- The token of a key is none that ends an entry. -/
theorem token_not_mem (key : RowKey) : key.token ∉ [Token.key, .value, .blockEnd] := by
  cases key <;> simp [RowKey.token]

/-- A key with a text is read as an entry. -/
theorem reads_textTokens {key : RowKey} (hkey : key.IsText) (value : List Char)
    {ts : List Token} {entries : List (Node × Node)} (hrest : Reads 0 blockEntries ts entries) :
    Reads 0 blockEntries (textTokens key value ++ ts)
      ((textNode key.text, textNode value) :: entries) :=
  reads_entries_cons (reads_key hkey (token_not_mem key))
    (reads_key (show (RowKey.quoted value).IsText from trivial) (token_not_mem _)) hrest

/-- The entries of a mapping are read from their tokens, with the end of the mapping. -/
theorem reads_entries (es : List (List Char × List Char)) :
    Reads 0 blockEntries (entriesTokens es ++ [.blockEnd]) (es.map entryNode) := by
  induction es with
  | nil => exact reads_entries_nil
  | cons e es ih =>
    have h := reads_textTokens (show (RowKey.quoted e.1).IsText from trivial) e.2 ih
    rwa [← List.append_assoc] at h

/-- A field is read from its tokens. -/
theorem reads_field {f : Field} (hf : f.Legible) {ts : List Token} {entries : List (Node × Node)}
    (hrest : Reads 0 blockEntries ts entries) :
    Reads 0 blockEntries (f.tokens ++ ts) (f.entry :: entries) := by
  obtain ⟨key, value | es⟩ := f
  · exact reads_textTokens hf.key value hrest
  · have hkeys : Node.distinctKeys (es.map entryNode) :=
      distinctKeys_of_nodup (es.map Prod.fst) (by simp [entryNode]) (hf.entries es rfl)
    have hvalue := (reads_mapping true (reads_entries es) hkeys).nodeUnless
      [.key, .value, .blockEnd] ⟨_, rfl, trivial, by simp⟩
    have h := reads_entries_cons (reads_key hf.key (token_not_mem key)) hvalue hrest
    simpa [Field.tokens, Field.entry, Content.node] using h

/-- Some fields are read from their tokens. -/
theorem reads_fields {fields : List Field} (hfields : ∀ f ∈ fields, f.Legible) {ts : List Token}
    {entries : List (Node × Node)} (hrest : Reads 0 blockEntries ts entries) :
    Reads 0 blockEntries (fields.flatMap Field.tokens ++ ts)
      (fields.map Field.entry ++ entries) := by
  induction fields with
  | nil => exact hrest
  | cons f fields ih =>
    have h := reads_field (hfields f List.mem_cons_self)
      (ih fun f hf ↦ hfields f (List.mem_cons_of_mem _ hf))
    rwa [← List.append_assoc] at h

/-- An item is read as a mapping. -/
theorem reads_item (indentless : Bool) {i : Item} (hi : i.Legible) :
    Reads 2 (content true indentless {} none) i.tokens i.node := by
  have hfields := reads_fields hi.fields reads_entries_nil
  rw [List.append_nil] at hfields
  refine reads_mapping indentless (reads_textTokens hi.key i.value hfields) ?_
  refine distinctKeys_of_nodup (i.key.text :: i.fields.map (·.key.text)) ?_ hi.keys
  simp [Field.entry, Function.comp_def]

/-- The items of a list are read from their tokens. -/
theorem reads_items {items : List Item} (hitems : ∀ i ∈ items, i.Legible) :
    Reads 0 blockItems (itemsTokens items) (items.map Item.node) := by
  induction items with
  | nil => exact reads_items_nil
  | cons i items ih =>
    have hitem := (reads_item false (hitems i List.mem_cons_self)).nodeUnless
      [.blockEntry, .blockEnd] ⟨_, rfl, trivial, by simp⟩
    have h := reads_items_cons hitem (ih fun i hi ↦ hitems i (List.mem_cons_of_mem _ hi))
    simpa [itemsTokens] using h

end Compose

/-- A mapping is as deep as its deepest key or value. -/
theorem depthOfEntries_le {n : Nat} {entries : List (Node × Node)}
    (h : ∀ e ∈ entries, e.1.depth ≤ n ∧ e.2.depth ≤ n) : Node.depthOfEntries entries ≤ n := by
  induction entries with
  | nil => exact Nat.zero_le n
  | cons e entries ih =>
    obtain ⟨key, value⟩ := e
    have he := h _ List.mem_cons_self
    have hrest := ih fun e he ↦ h e (List.mem_cons_of_mem _ he)
    simp only [Node.depthOfEntries, Nat.max_le]
    exact ⟨he, hrest⟩

/-- A field holds nothing deeper than a mapping of texts. -/
theorem depth_field_le (f : Field) : f.entry.1.depth ≤ 1 ∧ f.entry.2.depth ≤ 1 := by
  obtain ⟨key, value | es⟩ := f
  · exact ⟨Nat.zero_le 1, Nat.zero_le 1⟩
  · refine ⟨Nat.zero_le 1, Nat.succ_le_succ (depthOfEntries_le fun e he ↦ ?_)⟩
    obtain ⟨e, -, rfl⟩ := List.mem_map.mp he
    exact ⟨Nat.le_refl 0, Nat.le_refl 0⟩

/-- An item is a mapping of fields. -/
theorem depth_item_le (i : Item) : i.node.depth ≤ 2 := by
  refine Nat.succ_le_succ (depthOfEntries_le fun e he ↦ ?_)
  rcases List.mem_cons.mp he with rfl | he
  · exact ⟨Nat.zero_le 1, Nat.zero_le 1⟩
  · obtain ⟨f, -, rfl⟩ := List.mem_map.mp he
    exact depth_field_le f

/-- A list is as deep as its deepest item. -/
theorem depthOfItems_le {n : Nat} {nodes : List Node} (h : ∀ x ∈ nodes, x.depth ≤ n) :
    Node.depthOfItems nodes ≤ n := by
  induction nodes with
  | nil => exact Nat.zero_le n
  | cons x nodes ih =>
    obtain ⟨hx, hnodes⟩ := List.forall_mem_cons.mp h
    exact Nat.max_le.mpr ⟨hx, ih hnodes⟩

/-- A list of items is three levels deep. -/
theorem depth_items_le (items : List Item) : (Node.sequence (items.map Item.node)).depth ≤ 3 := by
  refine Nat.succ_le_succ (depthOfItems_le fun x hx ↦ ?_)
  obtain ⟨i, -, rfl⟩ := List.mem_map.mp hx
  exact depth_item_le i

/-- Tokens that are read as a value which is not too deep are a document. -/
theorem ofTokens?_of_reads {t : Token} {ts : List Token} {x : Node} (ht : Compose.StartsContent t)
    (h : Compose.Reads 2 (Compose.content true false {} none) (t :: ts) x)
    (hdepth : x.depth ≤ Compose.maxDepth) : Node.ofTokens? (t :: ts) = some x := by
  obtain ⟨events, hrun⟩ := h.node ⟨t, rfl, ht⟩ (4 * (t :: ts).length + 4) (by omega)
    { tokens := t :: ts, handles := Compose.standardHandles } [] (by simp)
  have hdocument : Compose.document Compose.standardHandles (t :: ts) false = some x := by
    simp only [Compose.document, hrun, Bool.false_eq_true, if_false]
    simp [hdepth]
  cases t <;> first | exact absurd ht id | exact hdocument

/-- The tokens of a list of items are read as the list. -/
theorem ofTokens?_items {items : List Item} (hitems : ∀ i ∈ items, i.Legible) :
    Node.ofTokens? (.blockSequenceStart :: itemsTokens items) =
      some (.sequence (items.map Item.node)) :=
  ofTokens?_of_reads (t := .blockSequenceStart) trivial
    (Compose.reads_sequence false (Compose.reads_items hitems))
    (Nat.le_trans (depth_items_le items) (by decide))

/-- The value of a list of mappings that is written one key a line. -/
theorem ofText?_items {column width : Nat} (hwidth : 0 < width) {items : List Item}
    (hne : items ≠ []) (hfits : ∀ i ∈ items, i.Fits) (hlegible : ∀ i ∈ items, i.Legible) :
    Node.ofText? (String.ofList (rowsText (itemsRows column width items))) =
      some (.sequence (items.map Item.node)) := by
  have htokens : rowsTokens [] (itemsRows column width items ++ []) =
      .blockSequenceStart :: (itemsTokens items ++ []) :=
    rowsTokens_list hwidth (by simp) hne hfits (by simp)
  rw [List.append_nil, List.append_nil] at htokens
  rw [Node.ofText?, ofText?_rows (fits_of_mem_itemsRows hfits), htokens, Option.bind_some,
    ofTokens?_items hlegible]

end AlertAudit.Yaml
