import AlertAudit.Proofs.RuleFile.Spans

/-!
How the located parts of a text lie in one another. The rules follow one another; the keys of a rule
follow one another in its lines, each with its value, and so do the keys in the value of a key, at
any depth (`rules_nested`). Keys in one column are apart since the block of the first ends in front
of the second (`lastLine_lt`). Only the end of a nested key can lie outside: a section that begins
with a comment behind a tab is searched in the column of the comment, and blocks reach further there
(`not_forall_children_inside`).
-/

set_option autoImplicit false

namespace AlertAudit.Locate

open AlertAudit.Text

variable {l m first : Line} {rest below ls : List Line} {column last : Nat} {k c a b : KeySpan}
  {r : RuleSpan}

/-- The key stands in a run of lines, and its value from the line of the key on. -/
structure KeySpan.LiesIn (k : KeySpan) (lines : LineRange) : Prop where
  first_le : lines.first ≤ k.line
  le_first : k.line ≤ k.value.first
  proper : k.value.first ≤ k.value.last
  last_le : k.value.last ≤ lines.last

/-- The key `a` and its value stand in front of the key `b`. -/
def KeySpan.Precedes (a b : KeySpan) : Prop := a.line < b.line ∧ a.value.last < b.line

/-- A key lies in the lines that hold its own line and the end of its value. -/
theorem KeyAt.liesIn {lines : LineRange} (h : KeyAt l column rest k)
    (hfirst : lines.first ≤ l.number)
    (hlast : k.value.last ≤ lines.last) : k.LiesIn lines :=
  ⟨h.line ▸ hfirst, h.line ▸ h.le_first, h.proper, hlast⟩

/-- So it does in lines that may end with its value. -/
theorem KeyAt.liesIn_of_beginsIn {lines : LineRange} {bound : Nat} (h : KeyAt l column rest k)
    (hbegins : k.lines.BeginsIn lines bound) : k.LiesIn ⟨lines.first, bound⟩ := by
  rw [h.lines_eq] at hbegins
  exact h.liesIn hbegins.first_le hbegins.last_le

/-! ### Keys in one column -/

/-- A block ends in front of the next content in the column of the line that opens it. -/
theorem lastLine_lt (h : Ascending (l :: rest)) (hm : m ∈ rest)
    (hcolumn : contentColumn? m.text = some column) : lastLine column l rest < m.number := by
  refine Nat.lt_of_not_le fun hle ↦ ?_
  obtain ⟨hblank, hcomment, hindent⟩ := contentColumn?_eq_some hcolumn
  have hdeeper : column < indentOf m.text :=
    lt_indentOf_of_le_blockEnd? h.rest (blockEnd?_eq_lastLine h hm hle) hm hle hblank hcomment
  exact Nat.lt_irrefl _ (hindent ▸ hdeeper)

/-- A key stands in front of the keys below it in its column. -/
theorem precedes_of_mem_keysBelow (hls : Ascending (l :: rest))
    (ha : keySpan? l column rest = some a) (hb : b ∈ keysBelow column last rest) :
      a.Precedes b := by
  obtain ⟨m, below, hm, -, hcolumn, hkey⟩ := exists_of_mem_keysBelow hb
  have hmem : m ∈ rest := hm.subset List.mem_cons_self
  have hat := keyAt_of_keySpan? hls ha
  have hbt := keyAt_of_keySpan? (hls.rest.suffix hm) hkey
  rw [KeySpan.Precedes, hat.line, hbt.line]
  exact ⟨hls.lt hmem, Nat.lt_of_le_of_lt hat.last_le (lastLine_lt hls hmem hcolumn)⟩

/-- Where the keys below follow one another, so do those from the line on. -/
theorem pairwise_keysFrom_of_below (hls : Ascending (l :: rest))
    (h : (keysBelow column last rest).Pairwise KeySpan.Precedes) :
    (keysFrom l column last rest).Pairwise KeySpan.Precedes := by
  rw [keysFrom]
  cases hkey : keySpan? l column rest with
  | none => exact h
  | some a => exact List.pairwise_cons.mpr ⟨fun b ↦ precedes_of_mem_keysBelow hls hkey, h⟩

/-- The keys in a column follow one another. -/
theorem pairwise_keysBelow (hls : Ascending ls) :
    (keysBelow column last ls).Pairwise KeySpan.Precedes := by
  induction ls with
  | nil => exact .nil
  | cons l rest ih =>
    rw [keysBelow]
    split
    · exact .nil
    · split
      · exact pairwise_keysFrom_of_below hls (ih hls.rest)
      · exact ih hls.rest

/-- So do those from a line on. -/
theorem pairwise_keysFrom (hls : Ascending (l :: rest)) :
    (keysFrom l column last rest).Pairwise KeySpan.Precedes :=
  pairwise_keysFrom_of_below hls (pairwise_keysBelow hls.rest)

/-! ### Keys of rules -/

/-- A flow mapping follows the dash of the rule. -/
def StartsFlow (ls : List Line) (r : RuleSpan) : Prop :=
  ∃ l ∈ ls, l.number = r.lines.first ∧
    ((l.text.drop (indentOf l.text + 1)).dropWhile isSpace).head? = some '{'

/-- A key of a rule lies in the lines of the rule. -/
theorem liesIn_of_mem_ruleSpan? {dash : Nat} (hls : Ascending (l :: rest))
    (h : ruleSpan? l dash rest = some r) (hk : k ∈ r.keys) : k.LiesIn r.lines := by
  have hlines := lines_of_ruleSpan? h
  have hproper : l.number ≤ lastLine dash l rest := le_lastLine hls
  rcases keyAt_of_mem_ruleSpan? hls h hk with
    ⟨-, hline, hvalue⟩ | ⟨m, below, column, hm, hmle, hcolumn, hat⟩
  · refine ⟨?_, ?_, ?_, ?_⟩ <;> simp only [hline, hvalue, hlines, Nat.le_refl, hproper]
  · rw [hlines] at hmle ⊢
    exact hat.liesIn (hls.le_of_suffix hm)
      (Nat.le_trans hat.last_le (lastLine_le hcolumn hls hm hmle))

/-- Beside the dash or below it, the keys of an item stand in one column. -/
theorem pairwise_itemKeys {dash : Nat} {lines : LineRange} (hls : Ascending (l :: rest))
    (hflow : ((l.text.drop (dash + 1)).dropWhile isSpace).head? ≠ some '{') :
    (itemKeys l dash lines rest).Pairwise KeySpan.Precedes := by
  rw [itemKeys, if_neg hflow]
  split
  · cases hfirst : contentLine? lines.last rest with
    | none => exact .nil
    | some found => exact pairwise_keysFrom (hls.rest.suffix (contentLine?_eq_some hfirst).1)
  · exact pairwise_keysFrom hls

/-- The keys of a rule follow one another, unless it is a flow mapping. -/
theorem pairwise_of_ruleSpan? (hls : Ascending ls) (hl : l :: rest <:+ ls)
    (h : ruleSpan? l (indentOf l.text) rest = some r) (hflow : ¬StartsFlow ls r) :
    r.keys.Pairwise KeySpan.Precedes := by
  have hcontent : ((l.text.drop (indentOf l.text + 1)).dropWhile isSpace).head? ≠ some '{' :=
    fun hhead ↦ hflow ⟨l, hl.subset List.mem_cons_self, by rw [lines_of_ruleSpan? h], hhead⟩
  rw [ruleSpan?] at h
  split at h
  · obtain rfl := Option.some.inj h
    exact pairwise_itemKeys (hls.suffix hl) hcontent
  · exact absurd h (by simp)

/-! ### Keys in values -/

/-- A key of the rule, or a key in the value of such a key, at any depth. -/
inductive KeyOf (ls : List Line) (r : RuleSpan) : KeySpan → Prop
  | key {k : KeySpan} : k ∈ r.keys → KeyOf ls r k
  | child {k c : KeySpan} : KeyOf ls r k → c ∈ children ls k → KeyOf ls r c

/-- How the keys in the value of a key lie. -/
structure NestedKeys (ls : List Line) (k : KeySpan) : Prop where
  apart : (children ls k).Pairwise KeySpan.Precedes
  begin_le : ∀ c ∈ children ls k, c.line ≤ k.value.last
  begins : ∀ c ∈ children ls k, c.LiesIn ⟨k.value.first, ls.length⟩
  inside : (∀ l ∈ ls, l.number = k.value.first → PlainComment l.text) →
    ∀ c ∈ children ls k, c.LiesIn k.value

section Children

variable (hls : Ascending ls) (hnumber : ∀ l ∈ ls, 1 ≤ l.number ∧ l.number ≤ ls.length)

include hls hnumber

/-- A key in a value stands in its own column, on a line up to the end of the value. -/
theorem keyAt_of_mem_children (hl : l :: rest <:+ ls) (hk : KeyAt l column rest k)
    (hc : c ∈ children ls k) :
    ∃ m column below, m :: below <:+ ls ∧ m.number ≤ k.value.last ∧ KeyAt m column below c := by
  rcases children_eq hls (fun l hl ↦ (hnumber l hl).1) hl hk with
    hnone | ⟨first, below, hcontent, -, -, hsome⟩
  · rw [hnone] at hc
    exact absurd hc List.not_mem_nil
  · rw [hsome] at hc
    obtain ⟨hfirst, hle, -⟩ := contentLine?_eq_some hcontent
    obtain ⟨m, below', hm, hmle, hkey, -⟩ := exists_of_mem_keysFrom hle hc
    have hmLs := hm.trans ((hfirst.trans (List.suffix_cons l rest)).trans hl)
    exact ⟨m, _, below', hmLs, hmle, keyAt_of_keySpan? (hls.suffix hmLs) hkey⟩

/-- The keys in the value of a key lie in one another. -/
theorem nestedKeys_of_keyAt (hl : l :: rest <:+ ls) (hk : KeyAt l column rest k) :
    NestedKeys ls k where
  apart := by
    rcases children_eq hls (fun l hl ↦ (hnumber l hl).1) hl hk with
      hnone | ⟨first, below, hcontent, -, -, hsome⟩
    · rw [hnone]
      exact .nil
    · rw [hsome]
      exact pairwise_keysFrom ((hls.suffix hl).rest.suffix (contentLine?_eq_some hcontent).1)
  begin_le c hc := by
    obtain ⟨m, column, below, -, hmle, hat⟩ := keyAt_of_mem_children hls hnumber hl hk hc
    exact hat.line ▸ hmle
  begins c hc := by
    obtain ⟨m, column, below, -, -, hat⟩ := keyAt_of_mem_children hls hnumber hl hk hc
    exact hat.liesIn_of_beginsIn (beginsIn_of_mem_children hls hnumber hl hk hc).1
  inside hplain c hc := by
    obtain ⟨m, column, below, -, -, hat⟩ := keyAt_of_mem_children hls hnumber hl hk hc
    exact hat.liesIn_of_beginsIn ((beginsIn_of_mem_children hls hnumber hl hk hc).2 hplain)

end Children

/-! ### Whole texts -/

/-- How a rule and its keys lie in a text. -/
structure Nested (ls : List Line) (r : RuleSpan) : Prop where
  pos : 1 ≤ r.lines.first
  proper : r.lines.first ≤ r.lines.last
  last_le : r.lines.last ≤ ls.length
  inside : ∀ k ∈ r.keys, k.LiesIn r.lines
  apart : ¬StartsFlow ls r → r.keys.Pairwise KeySpan.Precedes
  nested : ∀ k, KeyOf ls r k → NestedKeys ls k

/-- A key either has its value beside it, and then no keys in it, or stands in a column. -/
theorem exists_keyAt_of_keyOf (hls : Ascending ls)
    (hnumber : ∀ l ∈ ls, 1 ≤ l.number ∧ l.number ≤ ls.length) (hr : r ∈ rules ls)
    (hk : KeyOf ls r k) :
    k.isInline = true ∨ ∃ l column rest, l :: rest <:+ ls ∧ KeyAt l column rest k := by
  induction hk with
  | key hk =>
    obtain ⟨l, rest, hl, hrule⟩ := exists_of_mem_rules hr
    rcases keyAt_of_mem_ruleSpan? (hls.suffix hl) hrule hk with
      ⟨hinline, -⟩ | ⟨m, below, column, hm, -, -, hat⟩
    · exact .inl hinline
    · exact .inr ⟨m, column, below, hm.trans hl, hat⟩
  | @child k c _ hc ih =>
    rcases ih with hinline | ⟨l, column, rest, hl, hat⟩
    · rw [children, hinline, Bool.true_or, if_pos rfl] at hc
      exact absurd hc List.not_mem_nil
    · obtain ⟨m, column', below, hm, -, hat'⟩ := keyAt_of_mem_children hls hnumber hl hat hc
      exact .inr ⟨m, column', below, hm, hat'⟩

/-- The keys of each rule lie in it, and so on inside of them. -/
theorem nested_of_mem_rules (hls : Ascending ls)
    (hnumber : ∀ l ∈ ls, 1 ≤ l.number ∧ l.number ≤ ls.length) (hr : r ∈ rules ls) :
    Nested ls r := by
  obtain ⟨l, rest, hl, hrule⟩ := exists_of_mem_rules hr
  have hat : RuleAt ls ls.length r := ruleAt_of_ruleSpan? hls hnumber hl hrule
  refine ⟨hat.pos, hat.proper, hat.last_le, fun k ↦ liesIn_of_mem_ruleSpan? (hls.suffix hl) hrule,
    pairwise_of_ruleSpan? hls hl hrule, fun k hk ↦ ?_⟩
  rcases exists_keyAt_of_keyOf hls hnumber hr hk with hinline | ⟨m, column, below, hm, hkey⟩
  · have hnone : children ls k = [] := by rw [children, hinline, Bool.true_or, if_pos rfl]
    refine ⟨?_, ?_, ?_, ?_⟩ <;> simp [hnone]
  · exact nestedKeys_of_keyAt hls hnumber hm hkey

/-- The rules of a text follow one another in it, and the keys of each follow one another in the
rule, and so on inside of them. -/
theorem rules_nested (source : String) :
    (rules (lines source)).Pairwise (fun a b ↦ a.lines.last < b.lines.first) ∧
      ∀ r ∈ rules (lines source), Nested (lines source) r :=
  ⟨pairwise_rules (ascending_lines source),
    fun _ hr ↦ nested_of_mem_rules (ascending_lines source) (fun _ ↦ number_of_mem_lines) hr⟩

/-- A rule with two sections, and another one. -/
def sections : String :=
  "- alert: A\n  labels:\n    # two entries\n    a: b\n    c: |\n      d\n  annotations:\n    e: f\n" ++
    "- record: r\n"

/-- The keys in the section of the labels stand on the lines 4 to 6. -/
theorem rules_nested_sections : ∃ r ∈ rules (lines sections), Nested (lines sections) r ∧
    r.keys.Pairwise KeySpan.Precedes ∧ ∃ k ∈ r.keys, k.value = ⟨3, 6⟩ ∧
      (children (lines sections) k).map KeySpan.lines = [⟨4, 4⟩, ⟨5, 6⟩] ∧
      ∀ c ∈ children (lines sections) k, c.LiesIn k.value := by
  have hkey : ∃ r ∈ rules (lines sections), r.lines = ⟨1, 8⟩ ∧ ∃ k ∈ r.keys, k.value = ⟨3, 6⟩ ∧
      (children (lines sections) k).map KeySpan.lines = [⟨4, 4⟩, ⟨5, 6⟩] := by decide +kernel
  have hplain : ∀ l ∈ lines sections, PlainComment l.text := by
    unfold PlainComment
    decide +kernel
  have hblock : ∀ l ∈ lines sections, l.number = 1 →
      ((l.text.drop (indentOf l.text + 1)).dropWhile isSpace).head? ≠ some '{' := by decide +kernel
  obtain ⟨r, hr, hlines, k, hk, hvalue, hchildren⟩ := hkey
  have hnested := (rules_nested sections).2 r hr
  have hflow : ¬StartsFlow (lines sections) r := by
    rintro ⟨l, hl, hnumber, hhead⟩
    exact hblock l hl (hnumber.trans (by rw [hlines])) hhead
  exact ⟨r, hr, hnested, hnested.apart hflow, k, hk, hvalue, hchildren,
    (hnested.nested k (.key hk)).inside fun l hl _ ↦ hplain l hl⟩

/-- A rule in a flow mapping below its dash, with a comment behind a tab in front of its labels, and
another rule. -/
def tabbedSection : String :=
  " -\n  \x7b\n  alert: A,\n  labels:\n\t#:\n   \x7ba: b\x7d\n  \x7d\n - alert: B\n"

/-- The keys in a section do not all end in it: of the lines 5 and 6, the comment on the first is
taken for a key, whose value reaches to line 8. -/
theorem not_forall_children_inside : ¬∀ source : String,
    (rules (lines source)).Pairwise (fun a b ↦ a.lines.last < b.lines.first) ∧
      ∀ r ∈ rules (lines source),
        (1 ≤ r.lines.first ∧ r.lines.first ≤ r.lines.last ∧
          r.lines.last ≤ (lines source).length) ∧
        (¬StartsFlow (lines source) r →
          (∀ k ∈ r.keys, k.LiesIn r.lines) ∧ r.keys.Pairwise KeySpan.Precedes) ∧
        ∀ k ∈ r.keys, (children (lines source) k).Pairwise KeySpan.Precedes ∧
          ∀ c ∈ children (lines source) k, c.LiesIn k.value := by
  intro h
  have hbeyond : ∃ r ∈ rules (lines tabbedSection), ∃ k ∈ r.keys, k.value = ⟨5, 6⟩ ∧
      ∃ c ∈ children (lines tabbedSection) k, c.value = ⟨6, 8⟩ := by decide +kernel
  obtain ⟨r, hr, k, hk, hvalue, c, hc, hend⟩ := hbeyond
  have hinside := (((h tabbedSection).2 r hr).2.2 k hk).2 c hc
  have hle : c.value.last ≤ k.value.last := hinside.last_le
  rw [hvalue, hend] at hle
  exact absurd hle (by decide)

end AlertAudit.Locate
