import AlertAudit.Proofs.RuleFile.BlankLines

/-!
Block scalars in a rule file. The scan for rules does not look into the value of a key that stands
at the front of its line and opens a block scalar, nor into the lines of a rule; so no rule begins
in the text of a block scalar, whether its key stands alone on its line or, in a rule, behind a dash
(`first_ne_of_mem_scalarLines`). Behind the dash of an item that is no rule the key is not looked
at, and an item in its text is taken for a rule (`not_forall_first_ne`).
-/

set_option autoImplicit false

namespace AlertAudit.Locate

open AlertAudit.Text

variable {column last : Nat} {l m : Line} {ls rest : List Line} {r : RuleSpan}

/-- The lines below a key that can belong to its block scalar: those up to the first one that is
neither blank nor indented deeper than the key. -/
def scalarLines (column : Nat) (rest : List Line) : List Line :=
  rest.takeWhile fun m ↦ isBlankText m.text || column < indentOf m.text

/-- The line begins with a key whose value is a block scalar. -/
structure ScalarAlone (l : Line) (column : Nat) : Prop where
  column_eq : column = indentOf l.text
  opens : opensBlockScalar (l.text.drop column)
  noComment : isComment l.text = false

/-- A key whose value is a block scalar stands behind the dash at the front of the line. -/
structure ScalarBehindDash (l : Line) (column : Nat) : Prop where
  dash : startsItem (l.text.drop (indentOf l.text))
  column_eq : column = indentOf l.text + 1 + indentOf (l.text.drop (indentOf l.text + 1))
  opens : opensBlockScalar (l.text.drop column)

/-! ### Lines of scalars -/

/-- A line of a scalar that is not blank is in the block of the key. -/
theorem exists_blockEnd?_of_mem_scalarLines (hrest : Ascending rest)
    (hm : m ∈ scalarLines column rest) (hblank : isBlankText m.text = false) :
    ∃ last, blockEnd? column rest = some last ∧ m.number ≤ last := by
  induction rest with
  | nil => exact absurd hm List.not_mem_nil
  | cons n rest ih =>
    by_cases hn : isBlankText n.text || column < indentOf n.text
    · rw [scalarLines, List.takeWhile_cons, if_pos hn] at hm
      rcases List.mem_cons.mp hm with rfl | hm
      · have hdeeper : ¬indentOf m.text ≤ column := by simpa [hblank] using hn
        rw [blockEnd?, if_neg (Bool.eq_false_iff.mp hblank), if_neg hdeeper]
        exact ⟨_, rfl, le_lastLine hrest⟩
      · obtain ⟨last, hlast, hle⟩ := ih hrest.rest hm
        refine ⟨last, ?_, hle⟩
        rw [blockEnd?, hlast]
        rcases Bool.or_eq_true_iff.mp hn with hn | hn
        · rw [if_pos hn]
        · rw [if_neg (Nat.not_le.mpr (of_decide_eq_true hn)), Option.getD_some, ite_self]
    · rw [scalarLines, List.takeWhile_cons, if_neg hn] at hm
      exact absurd hm List.not_mem_nil

/-- The lines of a scalar that are not blank are in the block below its key. -/
theorem le_lastLine_of_mem_scalarLines (hls : Ascending (l :: rest))
    (hm : m ∈ scalarLines column rest) (hblank : isBlankText m.text = false) :
    m.number ≤ lastLine column l rest := by
  obtain ⟨last, hlast, hle⟩ := exists_blockEnd?_of_mem_scalarLines hls.rest hm hblank
  rwa [lastLine, hlast]

/-! ### The scan -/

/-- A line that begins with a key begins no item. -/
theorem startsItem_of_opensBlockScalar {cs : List Char} (h : opensBlockScalar cs) :
    startsItem cs = false := by
  cases cs with
  | nil => rfl
  | cons c cs =>
    rw [Bool.eq_false_iff]
    intro hitem
    obtain rfl : c = '-' := by simpa using (Bool.and_eq_true_iff.mp hitem).1
    simp [opensBlockScalar, splitKey?, startsNoKey] at h

/-- The line of a key is not blank. -/
theorem ScalarAlone.isBlankText_eq (h : ScalarAlone l column) : isBlankText l.text = false := by
  rw [Bool.eq_false_iff]
  intro hblank
  exact absurd h.opens (by simp [opensBlockScalar_of_isBlankText (isBlankText_drop hblank column)])

/-- Of two lines the one further down is among the lines from the other one on. -/
theorem Ascending.suffix_of_le {x : Line} {xs : List Line} (hls : Ascending ls)
    (hl : l :: rest <:+ ls) (hx : x :: xs <:+ ls) (hle : x.number ≤ l.number) :
    l :: rest <:+ x :: xs := by
  rcases List.suffix_or_suffix_of_suffix hl hx with hsuffix | hsuffix
  · exact hsuffix
  · rcases List.suffix_cons_iff.mp hsuffix with heq | hrest
    · rw [heq]
    · exact absurd hle (Nat.not_le.mpr ((hls.suffix hl).lt (hrest.subset List.mem_cons_self)))

/-- The lines behind line `last` have each line with a greater number. -/
theorem suffix_linesAfter (hl : l :: rest <:+ ls) (hlast : last < l.number) :
    l :: rest <:+ linesAfter last ls := by
  induction ls with
  | nil => exact absurd (List.suffix_nil.mp hl) (List.cons_ne_nil _ _)
  | cons m ms ih =>
    rw [linesAfter]
    by_cases hm : m.number ≤ last
    · rw [List.dropWhile_cons_of_pos (by simpa using hm)]
      rcases List.suffix_cons_iff.mp hl with heq | hl
      · exact absurd ((List.cons.inj heq).1 ▸ hm) (Nat.not_le.mpr hlast)
      · exact ih hl
    · rwa [List.dropWhile_cons_of_neg (by simpa using hm)]

/-- A block that opens in the block of a line further up ends in it. -/
theorem lastLine_le_of_within {x : Line} {xs : List Line} (hls : Ascending (x :: xs))
    (hl : l :: rest <:+ xs) (hle : l.number ≤ lastLine (indentOf x.text) x xs)
    (hblank : isBlankText l.text = false) (hcomment : isComment l.text = false)
    (hcolumn : indentOf l.text ≤ column) :
    lastLine column l rest ≤ lastLine (indentOf x.text) x xs := by
  have hmem : l ∈ xs := hl.subset List.mem_cons_self
  have hdeeper : indentOf x.text < indentOf l.text :=
    lt_indentOf_of_le_blockEnd? hls.rest (blockEnd?_eq_lastLine hls hmem hle) hmem hle hblank
      hcomment
  exact lastLine_le (Nat.le_of_lt (Nat.lt_of_lt_of_le hdeeper hcolumn)) hls
    (hl.trans (List.suffix_cons x xs)) hle

/-- Rules that are found behind a line begin behind it. -/
theorem lt_first_of_mem_rules (hls : Ascending ls) (hr : r ∈ rules (linesAfter last ls)) :
    last < r.lines.first := by
  obtain ⟨x, xs, hx, hrule⟩ := exists_of_mem_rules hr
  rw [lines_of_ruleSpan? hrule]
  exact lt_number_of_mem_linesAfter hls (hx.subset List.mem_cons_self)

/-- Behind a block that the scan passes over, a rule does not begin in the block of a key: either
the key comes behind as well, or its block ends in the one that is passed over. -/
theorem first_notMem_block_of_linesAfter {x : Line} {xs : List Line} (hls : Ascending (x :: xs))
    (hl : l :: rest <:+ xs) (h : ScalarAlone l column)
    (hlast : last = lastLine (indentOf x.text) x xs)
    (hr : r ∈ rules (linesAfter last xs))
    (hbehind : l :: rest <:+ linesAfter last xs →
      r.lines.first ≤ l.number ∨ lastLine column l rest < r.lines.first) :
    r.lines.first ≤ l.number ∨ lastLine column l rest < r.lines.first := by
  by_cases hle : l.number ≤ last
  · refine .inr (Nat.lt_of_le_of_lt ?_ (lt_first_of_mem_rules hls.rest hr))
    rw [hlast] at hle ⊢
    exact lastLine_le_of_within hls hl hle h.isBlankText_eq h.noComment h.column_eq.ge
  · exact hbehind (suffix_linesAfter hl (Nat.lt_of_not_le hle))

/-- No rule begins below a key that stands at the front of a line, up to the end of its block, if
the key opens a block scalar. -/
theorem first_notMem_block (hls : Ascending ls) (hl : l :: rest <:+ ls) (h : ScalarAlone l column)
    (hr : r ∈ rules ls) : r.lines.first ≤ l.number ∨ lastLine column l rest < r.lines.first := by
  have hopens : opensBlockScalar (l.text.drop (indentOf l.text)) := h.column_eq ▸ h.opens
  have hitem := startsItem_of_opensBlockScalar hopens
  fun_induction rules ls with
  | case1 => exact absurd hr List.not_mem_nil
  | case2 x xs indent content hstarts found hfound ih =>
    rcases List.suffix_cons_iff.mp hl with heq | hl
    · obtain ⟨rfl, rfl⟩ := List.cons.inj heq
      exact absurd hstarts (Bool.eq_false_iff.mp hitem)
    · have hbehind := hls.rest.suffix (linesAfter_suffix found.lines.last xs)
      have hlines := lines_of_ruleSpan? hfound
      rcases List.mem_cons.mp hr with rfl | hr
      · rw [hlines]
        exact .inl (Nat.le_of_lt (hls.lt (hl.subset List.mem_cons_self)))
      · exact first_notMem_block_of_linesAfter hls hl h (congrArg LineRange.last hlines) hr
          fun hl ↦ ih hbehind hl hr
  | case3 x xs indent content hstarts hnone ih =>
    rcases List.suffix_cons_iff.mp hl with heq | hl
    · obtain ⟨rfl, rfl⟩ := List.cons.inj heq
      exact absurd hstarts (Bool.eq_false_iff.mp hitem)
    · exact ih hls.rest hl hr
  | case4 x xs indent content hstarts hscalar ih =>
    rcases List.suffix_cons_iff.mp hl with heq | hl
    · obtain ⟨rfl, rfl⟩ := List.cons.inj heq
      rw [h.column_eq]
      exact .inr (lt_first_of_mem_rules hls.rest hr)
    · have hbehind := hls.rest.suffix (linesAfter_suffix (lastLine indent x xs) xs)
      exact first_notMem_block_of_linesAfter hls hl h rfl hr fun hl ↦ ih hbehind hl hr
  | case5 x xs indent content hstarts hscalar ih =>
    rcases List.suffix_cons_iff.mp hl with heq | hl
    · obtain ⟨rfl, rfl⟩ := List.cons.inj heq
      exact absurd hopens hscalar
    · exact ih hls.rest hl hr

/-- A rule does not end in front of its beginning. -/
theorem first_le_last_of_mem_rules (hls : Ascending ls) (hr : r ∈ rules ls) :
    r.lines.first ≤ r.lines.last := by
  obtain ⟨x, xs, hx, hrule⟩ := exists_of_mem_rules hr
  rw [lines_of_ruleSpan? hrule]
  exact le_lastLine (hls.suffix hx)

/-- No rule begins in the lines of another one. -/
theorem first_le_or_last_lt (hls : Ascending ls) (hr : r ∈ rules ls) {found : RuleSpan}
    (hfound : found ∈ rules ls) :
    r.lines.first ≤ found.lines.first ∨ found.lines.last < r.lines.first := by
  have hpairs := pairwise_rules hls
  refine List.Pairwise.forall_of_forall_of_flip
    (R := fun a b : RuleSpan ↦ a.lines.first ≤ b.lines.first ∨ b.lines.last < a.lines.first)
    (fun a _ ↦ .inl (Nat.le_refl _)) ?_ ?_ hr hfound
  · refine hpairs.imp_of_mem fun {a b} ha _ hab ↦ .inl ?_
    exact Nat.le_of_lt (Nat.lt_of_le_of_lt (first_le_last_of_mem_rules hls ha) hab)
  · exact hpairs.imp fun hab ↦ .inr hab

/-- No rule begins in a block that opens in the lines of a rule. -/
theorem first_notMem_block_of_rule (hls : Ascending ls) (hl : l :: rest <:+ ls)
    (hcolumn : indentOf l.text ≤ column) (hblank : isBlankText l.text = false)
    (hcomment : isComment l.text = false) {found : RuleSpan} (hfound : found ∈ rules ls)
    (hfirst : found.lines.first ≤ l.number) (hlast : l.number ≤ found.lines.last)
    (hr : r ∈ rules ls) : r.lines.first ≤ l.number ∨ lastLine column l rest < r.lines.first := by
  have hend : lastLine column l rest ≤ found.lines.last := by
    obtain ⟨x, xs, hx, hrule⟩ := exists_of_mem_rules hfound
    rw [lines_of_ruleSpan? hrule] at hfirst hlast ⊢
    have hxs := hls.suffix hx
    rcases List.suffix_cons_iff.mp (hls.suffix_of_le hl hx hfirst) with heq | hl
    · obtain ⟨rfl, rfl⟩ := List.cons.inj heq
      exact lastLine_le hcolumn hxs (List.suffix_refl _) hlast
    · exact lastLine_le_of_within hxs hl hlast hblank hcomment hcolumn
  rcases first_le_or_last_lt hls hr hfound with hle | hlt
  · exact .inl (Nat.le_trans hle hfirst)
  · exact .inr (Nat.lt_of_le_of_lt hend hlt)

/-! ### Rules and scalars -/

/-- A rule begins with the dash of an item. -/
theorem exists_startsItem_of_mem_rules (hr : r ∈ rules ls) :
    ∃ x ∈ ls, x.number = r.lines.first ∧ startsItem (x.text.drop (indentOf x.text)) := by
  fun_induction rules ls with
  | case1 => exact absurd hr List.not_mem_nil
  | case2 x xs indent content hstarts found hfound ih =>
    rcases List.mem_cons.mp hr with rfl | hr
    · exact ⟨x, List.mem_cons_self, by rw [lines_of_ruleSpan? hfound], hstarts⟩
    · obtain ⟨y, hy, h⟩ := ih hr
      exact ⟨y, List.mem_cons_of_mem x ((linesAfter_suffix _ xs).subset hy), h⟩
  | case3 x xs indent content hstarts hnone ih =>
    obtain ⟨y, hy, h⟩ := ih hr
    exact ⟨y, List.mem_cons_of_mem x hy, h⟩
  | case4 x xs indent content hstarts hscalar ih =>
    obtain ⟨y, hy, h⟩ := ih hr
    exact ⟨y, List.mem_cons_of_mem x ((linesAfter_suffix _ xs).subset hy), h⟩
  | case5 x xs indent content hstarts hscalar ih =>
    obtain ⟨y, hy, h⟩ := ih hr
    exact ⟨y, List.mem_cons_of_mem x hy, h⟩

/-- A line is told by its number. -/
theorem Ascending.eq_of_number_eq {x : Line} (hls : Ascending ls) (hx : x ∈ ls) (hm : m ∈ ls)
    (hnumber : x.number = m.number) : x = m := by
  refine List.Pairwise.forall_of_forall_of_flip (R := fun a b : Line ↦ a.number = b.number → a = b)
    (fun _ _ _ ↦ rfl) ?_ ?_ hx hm hnumber
  · exact hls.imp fun hab heq ↦ absurd heq (Nat.ne_of_lt hab)
  · exact hls.imp fun hab heq ↦ absurd heq (Nat.ne_of_gt hab)

/-- A line with a dash is not blank. -/
theorem ScalarBehindDash.isBlankText_eq (h : ScalarBehindDash l column) :
    isBlankText l.text = false := by
  rw [Bool.eq_false_iff]
  intro hblank
  exact absurd h.dash (by simp [startsItem_of_isBlankText (isBlankText_drop hblank _)])

/-- A line with a dash is no comment. -/
theorem ScalarBehindDash.isComment_eq (h : ScalarBehindDash l column) :
    isComment l.text = false := by
  rw [Bool.eq_false_iff]
  intro hcomment
  obtain ⟨c, cs, hcs, hc⟩ := exists_of_isComment hcomment
  have hdash := h.dash
  rw [hcs] at hdash
  obtain rfl : c = '-' := by simpa using (Bool.and_eq_true_iff.mp hdash).1
  exact absurd hc (by decide)

/-- No rule begins in the text of a block scalar whose key stands alone on its line, or behind a
dash in the lines of a rule. -/
theorem first_ne_of_mem_scalarLines {source : String} (hl : l :: rest <:+ lines source)
    (hkey : ScalarAlone l column ∨ ScalarBehindDash l column ∧ ∃ found ∈ rules (lines source),
      found.lines.first ≤ l.number ∧ l.number ≤ found.lines.last)
    (hm : m ∈ scalarLines column rest) (hr : r ∈ rules (lines source)) :
    r.lines.first ≠ m.number := by
  intro hfirst
  have hls := ascending_lines source
  have hmem : m ∈ rest := (List.takeWhile_sublist _).subset hm
  have hlt : l.number < m.number := (hls.suffix hl).lt hmem
  have hblank : isBlankText m.text = false := by
    obtain ⟨x, hx, hnumber, hstarts⟩ := exists_startsItem_of_mem_rules hr
    have hmls := hl.subset (List.mem_cons_of_mem l hmem)
    obtain rfl := hls.eq_of_number_eq hx hmls (hnumber.trans hfirst)
    rw [Bool.eq_false_iff]
    intro hblank
    exact absurd hstarts (by simp [startsItem_of_isBlankText (isBlankText_drop hblank _)])
  have hle := le_lastLine_of_mem_scalarLines (hls.suffix hl) hm hblank
  have hblock : r.lines.first ≤ l.number ∨ lastLine column l rest < r.lines.first := by
    rcases hkey with hkey | ⟨hkey, found, hfound, hfirst, hlast⟩
    · exact first_notMem_block hls hl hkey hr
    · have hcolumn : indentOf l.text ≤ column := by
        rw [hkey.column_eq, Nat.add_assoc]
        exact Nat.le_add_right _ _
      exact first_notMem_block_of_rule hls hl hcolumn hkey.isBlankText_eq hkey.isComment_eq hfound
        hfirst hlast hr
  omega

/-- The text of the note behind the dash of a rule holds an item. -/
theorem first_ne_of_mem_scalarLines_note :
    ∃ r ∈ rules (lines "- note: |\n    - alert: B\n  alert: A\n"),
      r.lines.first ≤ 1 ∧ 1 ≤ r.lines.last ∧ r.lines.first ≠ 2 := by
  have hl : ⟨1, "- note: |".toList⟩ :: [⟨2, "    - alert: B".toList⟩, ⟨3, "  alert: A".toList⟩] <:+
      lines "- note: |\n    - alert: B\n  alert: A\n" := by decide +kernel
  have hkey : ScalarBehindDash ⟨1, "- note: |".toList⟩ 2 := ⟨by decide, by decide, by decide⟩
  have hm : ⟨2, "    - alert: B".toList⟩ ∈
      scalarLines 2 [⟨2, "    - alert: B".toList⟩, ⟨3, "  alert: A".toList⟩] := by decide
  have hrule : ∃ r ∈ rules (lines "- note: |\n    - alert: B\n  alert: A\n"),
      r.lines.first ≤ 1 ∧ 1 ≤ r.lines.last := by decide +kernel
  obtain ⟨r, hr, hfirst, hlast⟩ := hrule
  exact ⟨r, hr, hfirst, hlast,
    first_ne_of_mem_scalarLines hl (.inr ⟨hkey, r, hr, hfirst, hlast⟩) hm hr⟩

/-- An item that is no rule, with an item in the text of the key behind its dash. -/
theorem not_forall_first_ne : ¬∀ (source : String) (l m : Line) (rest : List Line) (column : Nat),
    l :: rest <:+ lines source → ScalarAlone l column ∨ ScalarBehindDash l column →
      m ∈ scalarLines column rest → ∀ r ∈ rules (lines source), r.lines.first ≠ m.number := by
  intro h
  have hl : ⟨1, "- note: |".toList⟩ :: [⟨2, "    - alert: B".toList⟩] <:+
      lines "- note: |\n    - alert: B\n" := by decide +kernel
  have hkey : ScalarBehindDash ⟨1, "- note: |".toList⟩ 2 := ⟨by decide, by decide, by decide⟩
  have hm : ⟨2, "    - alert: B".toList⟩ ∈ scalarLines 2 [⟨2, "    - alert: B".toList⟩] := by decide
  have hrule : ∃ r ∈ rules (lines "- note: |\n    - alert: B\n"), r.lines.first = 2 := by
    decide +kernel
  obtain ⟨r, hr, hfirst⟩ := hrule
  exact h _ _ _ _ _ hl (.inr hkey) hm r hr hfirst

end AlertAudit.Locate
