import AlertAudit.Proofs.RuleFile.Nesting
import Mathlib.Data.List.Infix

/-!
Blank lines in a rule file. Where a line of white space is put in, every line below gets the next
number, and nothing else about the rules and their keys changes: each part of the scan passes over a
blank line wherever it comes to one. `Spread` relates the lines in front and behind, one lemma for
each part of the scan says what becomes of its result, and the rules follow by the order of the
lines (`Spread.rules_eq`).
-/

set_option autoImplicit false

namespace AlertAudit

/-- The number of a line, once a line has been put in behind line `gap`. -/
def pushed (gap line : Nat) : Nat := if gap < line then line + 1 else line

/-- Lines keep their order. -/
theorem pushed_le_pushed {gap a b : Nat} : pushed gap a ≤ pushed gap b ↔ a ≤ b := by
  unfold pushed
  split <;> split <;> omega

theorem pushed_lt_pushed {gap a b : Nat} : pushed gap a < pushed gap b ↔ a < b := by
  rw [← Nat.not_le, pushed_le_pushed, Nat.not_le]

/-- No two lines get the same number. -/
theorem pushed_inj {gap a b : Nat} : pushed gap a = pushed gap b ↔ a = b := by
  rw [Nat.le_antisymm_iff, pushed_le_pushed, pushed_le_pushed, ← Nat.le_antisymm_iff]

/-- No line gets the number of the line that is put in. -/
theorem pushed_ne (gap line : Nat) : pushed gap line ≠ gap + 1 := by
  unfold pushed
  split <;> omega

/-- A line gets its own number or a larger one. -/
theorem le_pushed (gap line : Nat) : line ≤ pushed gap line := by
  unfold pushed
  split <;> omega

/-- Just the lines behind the gap are behind the line that is put in. -/
theorem succ_le_pushed {gap line : Nat} : gap + 1 ≤ pushed gap line ↔ gap < line := by
  unfold pushed
  split <;> omega

/-- The run of lines, once a line has been put in behind line `gap`. -/
def LineRange.pushed (gap : Nat) (r : LineRange) : LineRange :=
  ⟨AlertAudit.pushed gap r.first, AlertAudit.pushed gap r.last⟩

namespace Locate

open AlertAudit.Text

/-- The key, once a line has been put in behind line `gap`. -/
def KeySpan.pushed (gap : Nat) (k : KeySpan) : KeySpan :=
  { k with line := AlertAudit.pushed gap k.line, value := k.value.pushed gap }

/-- The rule, once a line has been put in behind line `gap`. -/
def RuleSpan.pushed (gap : Nat) (r : RuleSpan) : RuleSpan :=
  ⟨r.lines.pushed gap, r.keys.map (·.pushed gap)⟩

/-- The line with the number that it has once a line has been put in behind line `gap`. -/
def pushedLine (gap : Nat) (l : Line) : Line := { l with number := AlertAudit.pushed gap l.number }

/-- The second lines are the first ones with blank lines behind line `gap`. -/
inductive Spread (gap : Nat) : List Line → List Line → Prop
  | nil : Spread gap [] []
  | line {l : Line} {ls ls' : List Line} : Spread gap ls ls' →
    Spread gap (l :: ls) (pushedLine gap l :: ls')
  | blank {b : Line} {ls ls' : List Line} : b.number = gap + 1 → isBlankText b.text →
    (∀ l ∈ ls, gap < l.number) → Spread gap ls ls' → Spread gap ls (b :: ls')

variable {gap column last dash : Nat} {l : Line} {ls ls' : List Line} {lines : LineRange}

/-! ### Blank lines -/

theorem isBlank_of_mem {cs : List Char} (h : isBlankText cs) {c : Char} (hc : c ∈ cs) :
    isBlank c = true := List.all_eq_true.mp h c hc

/-- Nothing else is in white space. -/
theorem ne_of_isBlank {c d : Char} (hc : isBlank c = true) (hd : isBlank d = false) : c ≠ d := by
  rintro rfl
  exact absurd (hc.symm.trans hd) (by decide)

theorem plainKey?_of_isBlankText {cs : List Char} (h : isBlankText cs) : plainKey? cs = none := by
  induction cs with
  | nil => rfl
  | cons c cs ih =>
    have hc := ne_of_isBlank (isBlank_of_mem h List.mem_cons_self) (d := ':') (by decide)
    have hcs : isBlankText cs := List.all_eq_true.mpr fun d hd ↦
      isBlank_of_mem h (List.mem_cons_of_mem c hd)
    rw [plainKey?, if_neg (by simp [hc]), ih hcs]
    rfl

/-- No key stands in white space. -/
theorem splitKey?_of_isBlankText {cs : List Char} (h : isBlankText cs) : splitKey? cs = none := by
  cases cs with
  | nil => rfl
  | cons c cs =>
    have hc {d : Char} (hd : isBlank d = false) : c ≠ d :=
      ne_of_isBlank (isBlank_of_mem h List.mem_cons_self) hd
    rw [splitKey?, if_neg (hc (by decide)), if_neg (hc (by decide)), plainKey?_of_isBlankText h]
    split <;> rfl

/-- The rest of a blank line is blank. -/
theorem isBlankText_drop {cs : List Char} (h : isBlankText cs) (n : Nat) :
    isBlankText (cs.drop n) :=
  List.all_eq_true.mpr fun _ hc ↦ isBlank_of_mem h (List.mem_of_mem_drop hc)

/-- A blank line begins no item. -/
theorem startsItem_of_isBlankText {cs : List Char} (h : isBlankText cs) :
    startsItem cs = false := by
  cases cs with
  | nil => rfl
  | cons c cs =>
    have hc := ne_of_isBlank (isBlank_of_mem h List.mem_cons_self) (d := '-') (by decide)
    simp [startsItem, hc]

/-- A blank line opens no block scalar. -/
theorem opensBlockScalar_of_isBlankText {cs : List Char} (h : isBlankText cs) :
    opensBlockScalar cs = false := by
  rw [opensBlockScalar, splitKey?_of_isBlankText h]
  rfl

/-- A blank line has no content at any column. -/
theorem contentColumn?_of_isBlankText {cs : List Char} (h : isBlankText cs) :
    contentColumn? cs = none := by
  rw [contentColumn?, h, Bool.true_or, if_pos rfl]

/-- A blank line in front changes no rules. -/
theorem rules_blank_cons (h : isBlankText l.text) (rest : List Line) :
    rules (l :: rest) = rules rest := by
  have hcontent := isBlankText_drop h (indentOf l.text)
  rw [rules]
  simp only [startsItem_of_isBlankText hcontent, opensBlockScalar_of_isBlankText hcontent,
    Bool.false_eq_true, if_false]

/-! ### The parts of the scan -/

/-- There is no content on lines behind the last one. -/
theorem contentLine?_eq_none (h : ∀ l ∈ ls, last < l.number) : contentLine? last ls = none := by
  cases ls with
  | nil => rfl
  | cons l rest => rw [contentLine?, if_pos (h l List.mem_cons_self)]

/-- There are no keys on lines behind the last one. -/
theorem keysBelow_eq_nil (h : ∀ l ∈ ls, last < l.number) : keysBelow column last ls = [] := by
  cases ls with
  | nil => rfl
  | cons l rest => rw [keysBelow, if_pos (h l List.mem_cons_self)]

/-- All lines that are behind a last one are left behind it. -/
theorem linesAfter_eq_self (h : ∀ l ∈ ls, last < l.number) : linesAfter last ls = ls := by
  cases ls with
  | nil => rfl
  | cons l rest =>
    have hl := h l List.mem_cons_self
    exact List.dropWhile_cons_of_neg (by simp; omega)

/-- Lines behind the gap come behind a last line that is not pushed past it. -/
theorem lt_of_pushed_lt (hlast : pushed gap last < gap + 1) (h : ∀ l ∈ ls, gap < l.number) :
    ∀ l ∈ ls, last < l.number := by
  intro l hl
  have hle : ¬gap < last := fun hlt ↦ Nat.not_lt.mpr (succ_le_pushed.mpr hlt) hlast
  exact Nat.lt_of_le_of_lt (Nat.le_of_not_lt hle) (h l hl)

/-- The lines of the value of a key, which begins beside the key or below it. -/
def valueLines (inline : Bool) (l : Line) (column : Nat) (rest : List Line) : LineRange :=
  if inline then ⟨l.number, (blockEnd? column rest).getD l.number⟩
  else
    match (blockEnd? column rest).bind fun last ↦
      (contentLine? last rest).map fun (first, _) ↦ (first.number, last) with
    | some (first, last) => ⟨first, last⟩
    | none => .single l.number

/-- The key of a line has the name that the line says, and the lines of its value. -/
theorem keySpan?_eq_map (l : Line) (column : Nat) (rest : List Line) :
    keySpan? l column rest = (splitKey? (l.text.drop column)).map fun (name, after) ↦
      { name, line := l.number, column,
        value := valueLines (!(startsNested after || startsBlockScalar after)) l column rest,
        isInline := !(startsNested after || startsBlockScalar after) } := by
  rw [keySpan?]
  cases splitKey? (l.text.drop column) <;> rfl

namespace Spread

/-- A block ends with the same line. -/
theorem blockEnd?_eq (h : Spread gap ls ls') (column : Nat) :
    blockEnd? column ls' = (blockEnd? column ls).map (pushed gap) := by
  induction h with
  | nil => rfl
  | @line l ls ls' _ ih =>
    rw [blockEnd?, blockEnd?, ih]
    cases blockEnd? column ls with
    | none => split_ifs <;> simp_all [pushedLine]
    | some last => split_ifs <;> simp_all [pushedLine]
  | blank _ hblank _ _ ih => rw [blockEnd?, if_pos hblank, ih]

/-- The first content is the same line, and the lines behind it are spread. -/
theorem contentLine?_cases (h : Spread gap ls ls') (last : Nat) :
    contentLine? last ls = none ∧ contentLine? (pushed gap last) ls' = none ∨
      ∃ first below below', contentLine? last ls = some (first, below) ∧
        contentLine? (pushed gap last) ls' = some (pushedLine gap first, below') ∧
          Spread gap below below' := by
  induction h with
  | nil => exact .inl ⟨rfl, rfl⟩
  | @line l ls ls' hls ih =>
    have hlast : pushed gap last < (pushedLine gap l).number ↔ last < l.number := pushed_lt_pushed
    have htext : (pushedLine gap l).text = l.text := rfl
    rw [contentLine?, contentLine?, htext]
    by_cases hle : last < l.number
    · rw [if_pos hle, if_pos (hlast.mpr hle)]
      exact .inl ⟨rfl, rfl⟩
    · rw [if_neg hle, if_neg (mt hlast.mp hle)]
      by_cases hblank : isBlankText l.text
      · rw [if_pos hblank, if_pos hblank]
        exact ih
      · rw [if_neg hblank, if_neg hblank]
        exact .inr ⟨l, ls, ls', rfl, rfl, hls⟩
  | @blank b ls ls' hnumber hblank hbehind _ ih =>
    rw [contentLine?, hnumber]
    by_cases hlast : pushed gap last < gap + 1
    · rw [if_pos hlast]
      exact .inl ⟨contentLine?_eq_none (lt_of_pushed_lt hlast hbehind), rfl⟩
    · rw [if_neg hlast, if_pos hblank]
      exact ih

/-- A value has the same lines. -/
theorem valueLines_eq (h : Spread gap ls ls') (inline : Bool) (l : Line) (column : Nat) :
    valueLines inline (pushedLine gap l) column ls' =
      (valueLines inline l column ls).pushed gap := by
  cases inline with
  | true =>
    rw [valueLines, valueLines, if_pos rfl, if_pos rfl, h.blockEnd?_eq]
    cases blockEnd? column ls <;> rfl
  | false =>
    rw [valueLines, valueLines, if_neg (by simp), if_neg (by simp), h.blockEnd?_eq]
    cases blockEnd? column ls with
    | none => rfl
    | some last =>
      simp only [Option.map_some, Option.bind_some]
      rcases h.contentLine?_cases last with
        ⟨hnone, hnone'⟩ | ⟨first, below, below', hsome, hsome', -⟩
      · rw [hnone, hnone']
        rfl
      · rw [hsome, hsome']
        rfl

/-- A key is the same one, further down. -/
theorem keySpan?_eq (h : Spread gap ls ls') (l : Line) (column : Nat) :
    keySpan? (pushedLine gap l) column ls' = (keySpan? l column ls).map (·.pushed gap) := by
  have htext : (pushedLine gap l).text = l.text := rfl
  rw [keySpan?_eq_map, keySpan?_eq_map, htext, Option.map_map]
  refine congrArg (Option.map · _) (funext fun split ↦ ?_)
  simp only [h.valueLines_eq]
  rfl

/-- The keys at a column are the same ones, further down. -/
theorem keysBelow_eq (h : Spread gap ls ls') (column last : Nat) :
    keysBelow column (pushed gap last) ls' = (keysBelow column last ls).map (·.pushed gap) := by
  induction h with
  | nil => rfl
  | @line l ls ls' hls ih =>
    have hlast : pushed gap last < (pushedLine gap l).number ↔ last < l.number := pushed_lt_pushed
    have htext : (pushedLine gap l).text = l.text := rfl
    rw [keysBelow, keysBelow, htext, ih, hls.keySpan?_eq]
    by_cases hle : last < l.number
    · rw [if_pos hle, if_pos (hlast.mpr hle)]
      rfl
    · rw [if_neg hle, if_neg (mt hlast.mp hle)]
      split
      · rw [List.map_append]
        cases keySpan? l column ls <;> rfl
      · rfl
  | @blank b ls ls' hnumber hblank hbehind _ ih =>
    have hcolumn : contentColumn? b.text ≠ some column := by
      rw [contentColumn?_of_isBlankText hblank]
      exact (Option.some_ne_none column).symm
    rw [keysBelow, hnumber, if_neg hcolumn]
    by_cases hlast : pushed gap last < gap + 1
    · rw [if_pos hlast, keysBelow_eq_nil (lt_of_pushed_lt hlast hbehind)]
      rfl
    · rw [if_neg hlast]
      exact ih

/-- So are those from a line on. -/
theorem keysFrom_eq (h : Spread gap ls ls') (l : Line) (column last : Nat) :
    keysFrom (pushedLine gap l) column (pushed gap last) ls' =
      (keysFrom l column last ls).map (·.pushed gap) := by
  rw [keysFrom, keysFrom, h.keySpan?_eq, h.keysBelow_eq, List.map_append]
  cases keySpan? l column ls <;> rfl

/-- The keys of a flow mapping stand on the lines of the mapping. -/
theorem flowKeys_pushed (content : List Char) (lines : LineRange) :
    flowKeys content (lines.pushed gap) = (flowKeys content lines).map (·.pushed gap) := by
  rw [flowKeys, flowKeys, List.map_map]
  rfl

/-- The keys of an item are the same ones, further down. -/
theorem itemKeys_eq (h : Spread gap ls ls') (l : Line) (dash : Nat) (lines : LineRange) :
    itemKeys (pushedLine gap l) dash (lines.pushed gap) ls' =
      (itemKeys l dash lines ls).map (·.pushed gap) := by
  have htext : (pushedLine gap l).text = l.text := rfl
  rw [itemKeys, itemKeys, htext]
  split
  · rcases h.contentLine?_cases lines.last with
      ⟨hnone, hnone'⟩ | ⟨first, below, below', hsome, hsome', hbelow⟩
    · simp only [LineRange.pushed, hnone, hnone', List.map_nil]
    · simp only [LineRange.pushed, hsome, hsome']
      exact hbelow.keysFrom_eq _ _ _
  · split
    · exact flowKeys_pushed _ _
    · exact h.keysFrom_eq _ _ _

/-- A rule is the same one, further down. -/
theorem ruleSpan?_eq (h : Spread gap ls ls') (l : Line) (dash : Nat) :
    ruleSpan? (pushedLine gap l) dash ls' = (ruleSpan? l dash ls).map (·.pushed gap) := by
  have hlines : (⟨(pushedLine gap l).number, (blockEnd? dash ls').getD (pushedLine gap l).number⟩ :
      LineRange) = LineRange.pushed gap ⟨l.number, (blockEnd? dash ls).getD l.number⟩ := by
    rw [h.blockEnd?_eq]
    cases blockEnd? dash ls <;> rfl
  rw [ruleSpan?, ruleSpan?, hlines, h.itemKeys_eq, List.any_map]
  split_ifs <;> simp_all [Function.comp_def, KeySpan.pushed, RuleSpan.pushed]

/-- The lines behind a line are spread. -/
theorem linesAfter (h : Spread gap ls ls') (last : Nat) :
    Spread gap (linesAfter last ls) (linesAfter (pushed gap last) ls') := by
  induction h with
  | nil => exact .nil
  | @line l ls ls' hls ih =>
    have hlast : (pushedLine gap l).number ≤ pushed gap last ↔ l.number ≤ last := pushed_le_pushed
    by_cases hle : l.number ≤ last
    · rw [Locate.linesAfter, Locate.linesAfter, List.dropWhile_cons_of_pos (by simpa using hle),
        List.dropWhile_cons_of_pos (by simpa using hlast.mpr hle)]
      exact ih
    · rw [Locate.linesAfter, Locate.linesAfter, List.dropWhile_cons_of_neg (by simpa using hle),
        List.dropWhile_cons_of_neg (by simpa using mt hlast.mp hle)]
      exact hls.line
  | @blank b ls ls' hnumber hblank hbehind hls ih =>
    by_cases hle : b.number ≤ pushed gap last
    · rw [Locate.linesAfter, Locate.linesAfter, List.dropWhile_cons_of_pos (by simpa using hle)]
      exact ih
    · have hlast : pushed gap last < gap + 1 := hnumber ▸ Nat.lt_of_not_le hle
      rw [linesAfter_eq_self (lt_of_pushed_lt hlast hbehind), Locate.linesAfter,
        List.dropWhile_cons_of_neg (by simpa using hle)]
      exact .blank hnumber hblank hbehind hls

/-- The rules are the same ones, further down. -/
theorem rules_eq (h : Spread gap ls ls') : rules ls' = (rules ls).map (·.pushed gap) := by
  induction hlength : ls'.length using Nat.strongRecOn generalizing ls ls' with
  | ind length ih =>
    cases h with
    | nil => simp [rules]
    | @blank b _ ls' hnumber hblank hbehind hls =>
      rw [rules_blank_cons hblank]
      exact ih _ (by simp [← hlength]) hls rfl
    | @line l ls ls' hls =>
      have hrest : rules ls' = (rules ls).map (·.pushed gap) :=
        ih _ (by simp [← hlength]) hls rfl
      have hafter (last : Nat) : rules (Locate.linesAfter (pushed gap last) ls') =
          (rules (Locate.linesAfter last ls)).map (·.pushed gap) := by
        refine ih _ ?_ (hls.linesAfter last) rfl
        rw [← hlength, List.length_cons]
        exact Nat.lt_succ_of_le (length_linesAfter _ _)
      have htext : (pushedLine gap l).text = l.text := rfl
      rw [rules, rules]
      simp only [htext, hls.ruleSpan?_eq, hls.blockEnd?_eq, hrest]
      split
      · cases ruleSpan? l (indentOf l.text) ls with
        | none => rfl
        | some r => exact congrArg (r.pushed gap :: ·) (hafter r.lines.last)
      · split
        · cases blockEnd? (indentOf l.text) ls with
          | none => exact hafter l.number
          | some last => exact hafter last
        · rfl

/-- From each line on, the lines are spread. -/
theorem suffix (h : Spread gap ls ls') {rest : List Line} (hl : l :: rest <:+ ls) :
    ∃ rest', pushedLine gap l :: rest' <:+ ls' ∧ Spread gap rest rest' := by
  induction h with
  | nil => exact absurd (List.suffix_nil.mp hl) (List.cons_ne_nil _ _)
  | @line m ls ls' hls ih =>
    rcases List.suffix_cons_iff.mp hl with heq | hl
    · obtain ⟨rfl, rfl⟩ := List.cons.inj heq
      exact ⟨ls', List.suffix_refl _, hls⟩
    · obtain ⟨rest', hrest', hspread⟩ := ih hl
      exact ⟨rest', hrest'.trans (List.suffix_cons _ _), hspread⟩
  | blank _ _ _ _ ih =>
    obtain ⟨rest', hrest', hspread⟩ := ih hl
    exact ⟨rest', hrest'.trans (List.suffix_cons _ _), hspread⟩

/-- Each line is among those with the blank lines, with its new number. -/
theorem mem (h : Spread gap ls ls') (hl : l ∈ ls) : pushedLine gap l ∈ ls' := by
  obtain ⟨front, rest, rfl⟩ := List.append_of_mem hl
  obtain ⟨rest', hsuffix, -⟩ := h.suffix (List.suffix_append front (l :: rest))
  exact hsuffix.subset List.mem_cons_self

/-- The keys in a value are the same ones, further down. -/
theorem children_eq (h : Spread gap ls ls') (hls : Ascending ls) (hls' : Ascending ls')
    {k : KeySpan} (hl : l ∈ ls) (hpos : 1 ≤ l.number) (hfirst : l.number = k.value.first) :
    children ls' (k.pushed gap) = (children ls k).map (·.pushed gap) := by
  obtain ⟨front, rest, rfl⟩ := List.append_of_mem hl
  have hsuffix : l :: rest <:+ front ++ l :: rest := List.suffix_append _ _
  obtain ⟨rest', hsuffix', hspread⟩ := h.suffix hsuffix
  have hpos' : 1 ≤ (pushedLine gap l).number := Nat.le_trans hpos (le_pushed gap l.number)
  have hfirst' : (k.pushed gap).value.first = (pushedLine gap l).number :=
    congrArg (AlertAudit.pushed gap) hfirst.symm
  have hbeside : (k.pushed gap).value.first = (k.pushed gap).line ↔ k.value.first = k.line :=
    pushed_inj
  have hinline : (k.pushed gap).isInline = k.isInline := rfl
  rw [children, children, hinline]
  simp only [hbeside]
  split
  · rfl
  · rw [hfirst', linesAfter_pred hls' hsuffix' hpos', ← hfirst, linesAfter_pred hls hsuffix hpos]
    exact hspread.keysFrom_eq l (indentOf l.text) k.value.last

end Spread

/-! ### Whole texts -/

/-- Texts as lines, the first one with a given number. -/
def numbered (number : Nat) : List (List Char) → List Line
  | [] => []
  | text :: texts => ⟨number, text⟩ :: numbered (number + 1) texts

/-- Lines that are numbered again from the same number are the same lines. -/
theorem numbered_map_text (number : Nat) (cs : List Char) :
    numbered number ((linesFrom number cs).map (·.text)) = linesFrom number cs := by
  fun_induction linesFrom number cs with
  | case1 => rfl
  | case2 number c cs ih => rw [List.map_cons, numbered, ih]

/-- No line has a smaller number than the first one. -/
theorem le_number_of_mem_numbered {number : Nat} {texts : List (List Char)}
    (h : l ∈ numbered number texts) : number ≤ l.number := by
  induction texts generalizing number with
  | nil => exact absurd h List.not_mem_nil
  | cons text texts ih =>
    rcases List.mem_cons.mp h with rfl | h
    · exact Nat.le_refl _
    · exact Nat.le_of_succ_le (ih h)

/-- Behind the gap each line has the next number. -/
theorem spread_behind {number : Nat} (h : gap < number) (texts : List (List Char)) :
    Spread gap (numbered number texts) (numbered (number + 1) texts) := by
  induction texts generalizing number with
  | nil => exact .nil
  | cons text texts ih =>
    have hline : pushedLine gap ⟨number, text⟩ = ⟨number + 1, text⟩ := by
      rw [pushedLine, pushed, if_pos h]
    rw [numbered, numbered, ← hline]
    exact (ih (Nat.lt_succ_of_lt h)).line

/-- A blank line among the lines moves those behind it. -/
theorem spread_insertIdx {blank : List Char} (hblank : isBlankText blank) (start : Nat)
    {texts : List (List Char)} {i : Nat} (hi : i ≤ texts.length) :
    Spread (start + i) (numbered (start + 1) texts)
      (numbered (start + 1) (texts.insertIdx i blank)) := by
  induction texts generalizing i start with
  | nil =>
    obtain rfl := Nat.le_zero.mp hi
    exact .blank rfl hblank (fun _ hl ↦ absurd hl List.not_mem_nil) .nil
  | cons text texts ih =>
    cases i with
    | zero =>
      exact .blank rfl hblank (fun _ ↦ le_number_of_mem_numbered)
        (spread_behind (Nat.lt_succ_self start) _)
    | succ i =>
      have hbefore : ¬start + (i + 1) < start + 1 := by omega
      have hline : pushedLine (start + (i + 1)) ⟨start + 1, text⟩ = ⟨start + 1, text⟩ :=
        congrArg (Line.mk · text) (if_neg hbefore)
      have hrest := (ih (start + 1) (Nat.le_of_succ_le_succ hi)).line (l := ⟨start + 1, text⟩)
      rw [Nat.add_right_comm start 1 i, Nat.add_assoc start i 1, hline] at hrest
      rw [List.insertIdx_succ_cons, numbered, numbered]
      exact hrest

/-- The second text has the lines of the first one, and one more, of white space only, behind line
`gap`. -/
def BlankInserted (gap : Nat) (source source' : String) : Prop :=
  gap ≤ (Text.lines source).length ∧ ∃ blank, isBlankText blank ∧
    (Text.lines source').map (·.text) = ((Text.lines source).map (·.text)).insertIdx gap blank

/-- The lines of the text with the blank line are those of the text without it, spread at the gap.
-/
theorem BlankInserted.spread {source source' : String} (h : BlankInserted gap source source') :
    Spread gap (Text.lines source) (Text.lines source') := by
  obtain ⟨hgap, blank, hblank, htexts⟩ := h
  have hlength : gap ≤ ((Text.lines source).map (·.text)).length := by rwa [List.length_map]
  have hspread := spread_insertIdx hblank 0 hlength
  rw [← htexts] at hspread
  simp only [Nat.zero_add, Text.lines, numbered_map_text] at hspread
  exact hspread

/-- A line of white space put into a text behind a line break. -/
theorem blankInserted_append {a b blank : String}
    (ha : a.toList = [] ∨ a.toList.getLast? = some '\n') (hblank : isBlankText blank.toList)
    (hbreak : '\n' ∉ blank.toList) :
    BlankInserted (Text.lines a).length (a ++ b) (a ++ blank ++ "\n" ++ b) := by
  have htext : (a ++ blank ++ "\n" ++ b).toList =
      a.toList ++ (blank.toList ++ '\n' :: b.toList) := by
    simp
  have hline (number : Nat) : linesFrom number (blank.toList ++ '\n' :: b.toList) =
      ⟨number, (firstLine (blank.toList ++ '\n' :: b.toList)).1⟩ ::
        linesFrom (number + 1) b.toList := by
    obtain ⟨c, cs, hcons⟩ : ∃ c cs, blank.toList ++ '\n' :: b.toList = c :: cs :=
      List.exists_cons_of_ne_nil (by simp)
    rw [hcons, linesFrom, ← hcons, firstLine_of_notMem hbreak]
  refine ⟨?_, (firstLine (blank.toList ++ '\n' :: b.toList)).1, ?_, ?_⟩
  · simp only [Text.lines, String.toList_append, linesFrom_append ha, List.length_append]
    exact Nat.le_add_right _ _
  · rw [firstLine_of_notMem hbreak]
    split
    · exact List.all_eq_true.mpr fun c hc ↦ isBlank_of_mem hblank (List.mem_of_mem_dropLast hc)
    · exact hblank
  · have hinsert := List.modifyTailIdx_add
      (List.cons (firstLine (blank.toList ++ '\n' :: b.toList)).1) 0
      ((linesFrom 1 a.toList).map (·.text))
    rw [List.length_map, Nat.add_zero] at hinsert
    simp only [Text.lines, htext, String.toList_append, linesFrom_append ha, hline,
      List.map_append, List.map_cons]
    rw [map_text_linesFrom (1 + (linesFrom 1 a.toList).length + 1)
      (1 + (linesFrom 1 a.toList).length) b.toList]
    exact (hinsert _).symm

def AtNeitherEnd (line : Nat) (r : LineRange) : Prop := r.first ≠ line ∧ r.last ≠ line

/-- No run of lines begins or ends with a line that is put in. -/
theorem atNeitherEnd_pushed (gap : Nat) (r : LineRange) :
    AtNeitherEnd (gap + 1) (r.pushed gap) := ⟨pushed_ne _ _, pushed_ne _ _⟩

/-- The keys of a rule, at any depth, are the same ones, further down. -/
theorem keyOf_pushed_iff {ls ls' : List Line} (hchildren : ∀ {r k}, r ∈ rules ls → KeyOf ls r k →
      children ls' (k.pushed gap) = (children ls k).map (·.pushed gap))
    {r : RuleSpan} (hr : r ∈ rules ls) {k' : KeySpan} :
    KeyOf ls' (r.pushed gap) k' ↔ ∃ k, KeyOf ls r k ∧ k' = k.pushed gap := by
  constructor
  · intro h
    induction h with
    | key hmem =>
      obtain ⟨k, hk, rfl⟩ := List.mem_map.mp hmem
      exact ⟨k, .key hk, rfl⟩
    | child _ hmem ih =>
      obtain ⟨k, hk, rfl⟩ := ih
      rw [hchildren hr hk] at hmem
      obtain ⟨c, hc, rfl⟩ := List.mem_map.mp hmem
      exact ⟨c, .child hk hc, rfl⟩
  · rintro ⟨k, hk, rfl⟩
    induction hk with
    | key hk => exact .key (List.mem_map_of_mem hk)
    | child hk hc ih =>
      refine .child ih ?_
      rw [hchildren hr hk]
      exact List.mem_map_of_mem hc

/-- The value of a key begins on a line of the text, or beside the key. -/
theorem exists_line_of_keyOf {source : String} {r : RuleSpan} {k : KeySpan}
    (hr : r ∈ rules (Text.lines source)) (hk : KeyOf (Text.lines source) r k) :
    k.isInline = true ∨ ∃ l ∈ Text.lines source, l.number = k.value.first := by
  have hls := ascending_lines source
  rcases exists_keyAt_of_keyOf hls (fun _ ↦ number_of_mem_lines) hr hk with
    hinline | ⟨l, column, rest, hl, hat⟩
  · exact .inl hinline
  cases hinline : k.isInline with
  | true => exact .inl rfl
  | false =>
    refine .inr ?_
    by_cases hfirst : k.value.first = k.line
    · exact ⟨l, hl.subset List.mem_cons_self, (hfirst.trans hat.line).symm⟩
    · obtain ⟨first, below, hcontent, hnumber, -⟩ := hat.nested hinline hfirst
      have hsuffix := (contentLine?_eq_some hcontent).1
      exact ⟨first, hl.subset (List.mem_cons_of_mem l (hsuffix.subset List.mem_cons_self)), hnumber⟩

/-- A blank line only moves what is below it. In the text with the line put in, the rules, their
keys and the keys in the values of these are those of the text without it, with the numbers of the
lines below raised by one; so none of their runs of lines begins or ends with the line that was put
in. -/
theorem rules_blankInserted {source source' : String} (h : BlankInserted gap source source') :
    rules (Text.lines source') = (rules (Text.lines source)).map (·.pushed gap) ∧
      (∀ k : KeySpan, (∃ l ∈ Text.lines source, l.number = k.value.first) →
        children (Text.lines source') (k.pushed gap) =
          (children (Text.lines source) k).map (·.pushed gap)) ∧
      (∀ r ∈ rules (Text.lines source), ∀ k', KeyOf (Text.lines source') (r.pushed gap) k' ↔
        ∃ k, KeyOf (Text.lines source) r k ∧ k' = k.pushed gap) ∧
      ∀ r' ∈ rules (Text.lines source'), AtNeitherEnd (gap + 1) r'.lines ∧
        ∀ k', KeyOf (Text.lines source') r' k' →
          k'.line ≠ gap + 1 ∧ AtNeitherEnd (gap + 1) k'.value := by
  have hrules := h.spread.rules_eq
  have hchildren (k : KeySpan) (hfirst : ∃ l ∈ Text.lines source, l.number = k.value.first) :
      children (Text.lines source') (k.pushed gap) =
        (children (Text.lines source) k).map (·.pushed gap) := by
    obtain ⟨l, hl, hnumber⟩ := hfirst
    exact h.spread.children_eq (ascending_lines source) (ascending_lines source') hl
      (number_of_mem_lines hl).1 hnumber
  have hkeys {r : RuleSpan} (hr : r ∈ rules (Text.lines source)) {k' : KeySpan} :
      KeyOf (Text.lines source') (r.pushed gap) k' ↔
        ∃ k, KeyOf (Text.lines source) r k ∧ k' = k.pushed gap := by
    refine keyOf_pushed_iff (fun {r k} hr hk ↦ ?_) hr
    rcases exists_line_of_keyOf hr hk with hinline | hfirst
    · simp [children, KeySpan.pushed, hinline]
    · exact hchildren k hfirst
  refine ⟨hrules, hchildren, fun r hr k' ↦ hkeys hr, fun r' hr' ↦ ?_⟩
  rw [hrules] at hr'
  obtain ⟨r, hr, rfl⟩ := List.mem_map.mp hr'
  refine ⟨atNeitherEnd_pushed _ _, fun k' hk' ↦ ?_⟩
  obtain ⟨k, -, rfl⟩ := (hkeys hr).mp hk'
  exact ⟨pushed_ne _ _, atNeitherEnd_pushed _ _⟩

/-- A blank line between a dash and its mapping, and above a block scalar. -/
theorem rules_blankInserted_behind_dash :
    BlankInserted 1 ("-\n" ++ "  alert: A\n  labels:\n    a: |\n      b\n")
        ("-\n" ++ " \t" ++ "\n" ++ "  alert: A\n  labels:\n    a: |\n      b\n") ∧
      rules (Text.lines ("-\n" ++ " \t" ++ "\n" ++ "  alert: A\n  labels:\n    a: |\n      b\n")) =
        [⟨⟨1, 6⟩, [⟨"alert", 3, 2, ⟨3, 3⟩, true⟩, ⟨"labels", 4, 2, ⟨5, 6⟩, false⟩]⟩] := by
  have hlength : (Text.lines "-\n").length = 1 := by decide +kernel
  have h := blankInserted_append (a := "-\n") (b := "  alert: A\n  labels:\n    a: |\n      b\n")
    (.inr (by decide)) (show isBlankText " \t".toList by decide) (by decide)
  rw [hlength] at h
  exact ⟨h, (rules_blankInserted h).1.trans (by decide +kernel)⟩

end Locate

end AlertAudit
