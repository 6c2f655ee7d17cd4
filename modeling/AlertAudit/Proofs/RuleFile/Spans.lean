import AlertAudit.Proofs.RuleFile.Blocks
import Mathlib.Data.List.DropRight

/-!
Where rules and their keys stand. The runs of lines of the rules follow one another. A key of a rule
stands in the rule with its value; an entry of a section begins in it, and ends in it unless the
section begins with a comment that something besides spaces indents.
-/

set_option autoImplicit false

namespace AlertAudit

namespace LineRange

variable {a b r : LineRange} {bound : Nat}

/-- A run has the lines from its first one to its last one. -/
theorem mem_lines {line : Nat} : line ∈ r.lines ↔ r.first ≤ line ∧ line ≤ r.last := by
  rw [lines, List.mem_range'_1]
  omega

theorem cover_self (r : LineRange) : r.cover r = r := by simp [cover]

/-- The run begins in `r`, and ends at line `bound` at the latest. -/
structure BeginsIn (a r : LineRange) (bound : Nat) : Prop where
  first_le : r.first ≤ a.first
  le_last : a.first ≤ r.last
  proper : a.first ≤ a.last
  last_le : a.last ≤ bound

/-- What begins in a run that begins in another one begins there, too. -/
theorem BeginsIn.trans (hab : a.BeginsIn b bound) (hbr : b.BeginsIn r r.last) :
    a.BeginsIn r bound where
  first_le := Nat.le_trans hbr.first_le hab.first_le
  le_last := Nat.le_trans hab.le_last hbr.last_le
  proper := hab.proper
  last_le := hab.last_le

end LineRange

namespace Locate

open AlertAudit.Text

variable {l m first : Line} {rest below ls : List Line} {column last dash : Nat} {k c : KeySpan}

/-! ### Keys -/

/-- A line with content at a column is neither blank nor a comment, and it is indented up to the
column. -/
theorem contentColumn?_eq_some {cs : List Char} (h : contentColumn? cs = some column) :
    isBlankText cs = false ∧ isComment cs = false ∧ indentOf cs = column := by
  rw [contentColumn?] at h
  by_cases hcontent : isBlankText cs || isComment cs
  · rw [if_pos hcontent] at h
    exact absurd h (by simp)
  · rw [if_neg hcontent] at h
    simp only [Bool.or_eq_true, not_or, Bool.not_eq_true] at hcontent
    exact ⟨hcontent.1, hcontent.2, Option.some.inj h⟩

/-- The first content up to a line is the first line that is not blank. -/
theorem contentLine?_eq_some (h : contentLine? last ls = some (l, rest)) :
    l :: rest <:+ ls ∧ l.number ≤ last ∧ isBlankText l.text = false := by
  induction ls with
  | nil => exact absurd h (by simp [contentLine?])
  | cons m ms ih =>
    rw [contentLine?] at h
    by_cases hlast : last < m.number
    · rw [if_pos hlast] at h
      exact absurd h (by simp)
    rw [if_neg hlast] at h
    by_cases hblank : isBlankText m.text
    · rw [if_pos hblank] at h
      obtain ⟨hsuffix, hrest⟩ := ih h
      exact ⟨hsuffix.trans (List.suffix_cons m ms), hrest⟩
    · rw [if_neg hblank] at h
      obtain ⟨rfl, rfl⟩ := Prod.mk.inj (Option.some.inj h)
      exact ⟨List.suffix_refl _, Nat.le_of_not_lt hlast, by simpa using hblank⟩

/-- A key at a column of a line, with its value in the block that the line opens there. -/
structure KeyAt (l : Line) (column : Nat) (rest : List Line) (k : KeySpan) : Prop where
  line : k.line = l.number
  le_first : l.number ≤ k.value.first
  proper : k.value.first ≤ k.value.last
  last_le : k.value.last ≤ lastLine column l rest
  /-- A value that begins below its key reaches from the next content to the end of the block. -/
  nested : k.isInline = false → k.value.first ≠ k.line → ∃ first below,
    contentLine? k.value.last rest = some (first, below) ∧ first.number = k.value.first ∧
      blockEnd? column rest = some k.value.last

/-- A key that is found at a column of a line stands there, with its value in its block. -/
theorem keyAt_of_keySpan? (hls : Ascending (l :: rest)) (h : keySpan? l column rest = some k) :
    KeyAt l column rest k := by
  rw [keySpan?] at h
  cases hsplit : splitKey? (l.text.drop column) with
  | none =>
    rw [hsplit] at h
    exact absurd h (by simp)
  | some split =>
    obtain ⟨name, after⟩ := split
    rw [hsplit] at h
    obtain rfl := Option.some.inj h
    have hlast : l.number ≤ lastLine column l rest := le_lastLine hls
    have hsingle : ∀ inline, KeyAt l column rest
        ⟨name, l.number, column, .single l.number, inline⟩ := fun inline ↦
      ⟨rfl, Nat.le_refl _, Nat.le_refl _, hlast, fun _ hne ↦ absurd rfl hne⟩
    cases hinline : !(startsNested after || startsBlockScalar after) with
    | true => exact ⟨rfl, Nat.le_refl _, hlast, Nat.le_refl _, fun h ↦ absurd h (by simp)⟩
    | false =>
      cases hend : blockEnd? column rest with
      | none => exact hsingle false
      | some last =>
        cases hcontent : contentLine? last rest with
        | none => simpa [hcontent] using hsingle false
        | some content =>
          obtain ⟨first, below⟩ := content
          obtain ⟨hsuffix, hle, -⟩ := contentLine?_eq_some hcontent
          have hlt := hls.lt (hsuffix.subset List.mem_cons_self)
          have hkey : KeyAt l column rest
              ⟨name, l.number, column, ⟨first.number, last⟩, false⟩ :=
            ⟨rfl, Nat.le_of_lt hlt, hle, by rw [lastLine, hend]; exact Nat.le_refl _,
              fun _ _ ↦ ⟨first, below, hcontent, rfl, hend⟩⟩
          simpa [hcontent] using hkey

/-- A key reaches from its own line to the end of its value. -/
theorem lines_eq (hfirst : k.line ≤ k.value.first) (hproper : k.value.first ≤ k.value.last) :
    k.lines = ⟨k.line, k.value.last⟩ := by
  rw [KeySpan.lines, LineRange.cover, LineRange.single, Nat.min_eq_left hfirst,
    Nat.max_eq_right (Nat.le_trans hfirst hproper)]

/-- A key reaches from the line where it is found to the end of its value. -/
theorem KeyAt.lines_eq (h : KeyAt l column rest k) : k.lines = ⟨l.number, k.value.last⟩ := by
  rw [Locate.lines_eq (h.line ▸ h.le_first) h.proper, h.line]

/-- A key that is found below stands in its column on one of the lines. -/
theorem exists_of_mem_keysBelow (h : k ∈ keysBelow column last ls) : ∃ l rest,
    l :: rest <:+ ls ∧ l.number ≤ last ∧ contentColumn? l.text = some column ∧
      keySpan? l column rest = some k := by
  induction ls with
  | nil => exact absurd h (by simp [keysBelow])
  | cons m ms ih =>
    have hrest : k ∈ keysBelow column last ms → ∃ l rest, l :: rest <:+ m :: ms ∧
        l.number ≤ last ∧ contentColumn? l.text = some column ∧
          keySpan? l column rest = some k := by
      intro h
      obtain ⟨l, rest, hsuffix, hkey⟩ := ih h
      exact ⟨l, rest, hsuffix.trans (List.suffix_cons m ms), hkey⟩
    rw [keysBelow] at h
    by_cases hlast : last < m.number
    · rw [if_pos hlast] at h
      exact absurd h List.not_mem_nil
    rw [if_neg hlast] at h
    by_cases hcolumn : contentColumn? m.text = some column
    · rw [if_pos hcolumn] at h
      rcases List.mem_append.mp h with h | h
      · exact ⟨m, ms, List.suffix_refl _, Nat.le_of_not_lt hlast, hcolumn, Option.mem_toList.mp h⟩
      · exact hrest h
    · rw [if_neg hcolumn] at h
      exact hrest h

/-- A key that is found from a line on stands on that line, or in its column on a line below. -/
theorem exists_of_mem_keysFrom (hle : l.number ≤ last) (h : k ∈ keysFrom l column last rest) :
    ∃ m below, m :: below <:+ l :: rest ∧ m.number ≤ last ∧ keySpan? m column below = some k ∧
      (m = l ∨ contentColumn? m.text = some column) := by
  rcases List.mem_append.mp h with h | h
  · exact ⟨l, rest, List.suffix_refl _, hle, Option.mem_toList.mp h, .inl rfl⟩
  · obtain ⟨m, below, hsuffix, hm, hcolumn, hkey⟩ := exists_of_mem_keysBelow h
    exact ⟨m, below, hsuffix.trans (List.suffix_cons l rest), hm, hkey, .inr hcolumn⟩

/-! ### Comments -/

/-- Only spaces stand in front of the comment on the line, if there is one. -/
def PlainComment (cs : List Char) : Prop :=
  isComment cs = true → (cs.drop (indentOf cs)).head? = some '#'

/-- Behind its indentation a line has what follows its spaces. -/
theorem drop_indentOf (cs : List Char) : cs.drop (indentOf cs) = cs.dropWhile isSpace := by
  have hdrop : (cs.takeWhile isSpace ++ cs.dropWhile isSpace).drop (indentOf cs) =
    cs.dropWhile isSpace := List.drop_left
  rwa [List.takeWhile_append_dropWhile] at hdrop

/-- No key is found where a comment stands behind spaces alone. -/
theorem keySpan?_plainComment (hplain : PlainComment l.text) (hcomment : isComment l.text = true) :
    keySpan? l (indentOf l.text) rest = none := by
  have hhead := hplain hcomment
  cases hcs : l.text.drop (indentOf l.text) with
  | nil => exact absurd hhead (by simp [hcs])
  | cons c cs =>
    obtain rfl : c = '#' := by simpa [hcs] using hhead
    have hsplit : splitKey? ('#' :: cs) = none := rfl
    rw [keySpan?, hcs, hsplit]
    rfl

/-- Behind the spaces in front of a comment stands the comment, or white space of another kind. -/
theorem exists_of_isComment {cs : List Char} (h : isComment cs = true) :
    ∃ c rest, cs.drop (indentOf cs) = c :: rest ∧ (c = '#' ∨ isBlank c = true) := by
  rw [drop_indentOf]
  induction cs with
  | nil => exact absurd h (by simp [isComment, trimStart])
  | cons c cs ih =>
    by_cases hspace : isSpace c
    · obtain rfl : c = ' ' := of_decide_eq_true hspace
      exact ih h
    · rw [List.dropWhile_cons_of_neg hspace]
      refine ⟨c, cs, rfl, ?_⟩
      by_cases hblank : isBlank c
      · exact .inr hblank
      · rw [isComment, trimStart, List.dropWhile_cons_of_neg hblank] at h
        exact .inl (by simpa using h)

/-- The name of a key is read at its column. -/
theorem exists_splitKey?_of_keySpan? (h : keySpan? l column rest = some k) :
    ∃ after, splitKey? (l.text.drop column) = some (k.name, after) := by
  rw [keySpan?] at h
  cases hsplit : splitKey? (l.text.drop column) with
  | none =>
    rw [hsplit] at h
    exact absurd h (by simp)
  | some split =>
    rw [hsplit] at h
    obtain rfl := Option.some.inj h
    exact ⟨split.2, rfl⟩

/-- A name in front of which stands white space begins with it. -/
theorem isBlank_of_splitKey? {c d : Char} {cs after : List Char} {name : String}
    (hc : isBlank c = true) (h : splitKey? (c :: cs) = some (name, after))
    (hd : name.toList.head? = some d) : isBlank d = true := by
  have hne : ∀ e, isBlank e = false → c ≠ e := fun e he hce ↦ by
    rw [hce, he] at hc
    exact absurd hc (by simp)
  have hplain : plainKey? (c :: cs) = none ∨
      ∃ text rest, plainKey? (c :: cs) = some (c :: text, rest) := by
    rw [plainKey?, if_neg (by simp [hne ':' (by decide)])]
    cases plainKey? cs with
    | none => exact .inl rfl
    | some split => exact .inr ⟨split.1, split.2, rfl⟩
  rw [splitKey?, if_neg (hne '\'' (by decide)), if_neg (hne '"' (by decide))] at h
  by_cases hstart : startsNoKey c
  · rw [if_pos hstart] at h
    exact absurd h (by simp)
  rw [if_neg hstart] at h
  rcases hplain with hnone | ⟨text, rest, hsome⟩
  · rw [hnone] at h
    exact absurd h (by simp)
  · rw [hsome] at h
    have hname : name = String.ofList (trimEnd (c :: text)) := by
      simp only [Option.map_some, Option.bind_eq_bind, Option.bind_some] at h
      split at h
      · split at h
        · exact (Prod.mk.inj (Option.some.inj h)).1.symm
        · exact absurd h (by simp)
      · exact absurd h (by simp)
    have hprefix : trimEnd (c :: text) <+: c :: text := List.rdropWhile_prefix isBlank _
    rw [hname, String.toList_ofList] at hd
    obtain ⟨tail, htail⟩ := hprefix
    cases htrim : trimEnd (c :: text) with
    | nil => exact absurd hd (by simp [htrim])
    | cons e es =>
      rw [htrim] at hd htail
      obtain rfl : e = d := Option.some.inj hd
      obtain rfl : e = c := (List.cons.inj htail).1
      exact hc

/-- A comment is not taken for a key whose name begins like a word. -/
theorem isBlank_of_isComment {d : Char} (hcomment : isComment l.text = true)
    (h : keySpan? l (indentOf l.text) rest = some k) (hd : k.name.toList.head? = some d) :
    isBlank d = true := by
  obtain ⟨after, hsplit⟩ := exists_splitKey?_of_keySpan? h
  obtain ⟨c, cs, hcs, rfl | hc⟩ := exists_of_isComment hcomment
  · have hnone : splitKey? ('#' :: cs) = none := rfl
    rw [hcs, hnone] at hsplit
    exact absurd hsplit (by simp)
  · rw [hcs] at hsplit
    exact isBlank_of_splitKey? hc hsplit hd

/-! ### Sections -/

/-- The lines behind a line are the last ones of all. -/
theorem linesAfter_suffix (last : Nat) (ls : List Line) : linesAfter last ls <:+ ls :=
  List.dropWhile_suffix _

/-- They have greater numbers. -/
theorem lt_number_of_mem_linesAfter (hls : Ascending ls) (h : l ∈ linesAfter last ls) :
    last < l.number := by
  induction ls with
  | nil => exact absurd h List.not_mem_nil
  | cons m ms ih =>
    rw [linesAfter] at h
    by_cases hm : m.number ≤ last
    · rw [List.dropWhile_cons_of_pos (by simpa using hm)] at h
      exact ih hls.rest h
    · rw [List.dropWhile_cons_of_neg (by simpa using hm)] at h
      rcases List.mem_cons.mp h with rfl | h
      · exact Nat.lt_of_not_le hm
      · exact Nat.lt_trans (Nat.lt_of_not_le hm) (hls.lt h)

/-- Behind the line in front of it, the text goes on with a line. -/
theorem linesAfter_pred (hls : Ascending ls) (hsuffix : l :: rest <:+ ls) (hpos : 1 ≤ l.number) :
    linesAfter (l.number - 1) ls = l :: rest := by
  induction ls with
  | nil => exact absurd (List.suffix_nil.mp hsuffix) (List.cons_ne_nil _ _)
  | cons m ms ih =>
    rw [linesAfter]
    rcases List.suffix_cons_iff.mp hsuffix with heq | hsuffix
    · obtain ⟨rfl, rfl⟩ := List.cons.inj heq
      exact List.dropWhile_cons_of_neg (by simp; omega)
    · have hlt := hls.lt (hsuffix.subset List.mem_cons_self)
      rw [List.dropWhile_cons_of_pos (by simp; omega)]
      exact ih hls.rest hsuffix

/-- The keys of a section are looked for from the first content of its value on. -/
theorem children_eq (hls : Ascending ls) (hpos : ∀ l ∈ ls, 1 ≤ l.number) (hl : l :: rest <:+ ls)
    (hk : KeyAt l column rest k) : children ls k = [] ∨ ∃ first below,
      contentLine? k.value.last rest = some (first, below) ∧ first.number = k.value.first ∧
        blockEnd? column rest = some k.value.last ∧
          children ls k = keysFrom first (indentOf first.text) k.value.last below := by
  rw [children]
  split
  · exact .inl rfl
  rename_i hbelow
  simp only [Bool.or_eq_true, decide_eq_true_eq, not_or, Bool.not_eq_true] at hbelow
  obtain ⟨first, below, hcontent, hfirst, hend⟩ := hk.nested hbelow.1 hbelow.2
  have hsuffix := ((contentLine?_eq_some hcontent).1.trans (List.suffix_cons l rest)).trans hl
  refine .inr ⟨first, below, hcontent, hfirst, hend, ?_⟩
  rw [← hfirst, linesAfter_pred hls hsuffix (hpos first (hsuffix.subset List.mem_cons_self))]

/-- The keys in a section begin in it, and end in it unless it begins with a comment in front of
which stands something besides spaces. -/
theorem beginsIn_of_mem_children {bound : Nat} (hls : Ascending ls)
    (hnumber : ∀ l ∈ ls, 1 ≤ l.number ∧ l.number ≤ bound) (hl : l :: rest <:+ ls)
    (hk : KeyAt l column rest k) (hc : c ∈ children ls k) :
    c.lines.BeginsIn k.value bound ∧
      ((∀ l ∈ ls, l.number = k.value.first → PlainComment l.text) →
        c.lines.BeginsIn k.value k.value.last) := by
  rcases children_eq hls (fun l hl ↦ (hnumber l hl).1) hl hk with
    hnone | ⟨first, below, hcontent, hfirst, hend, hsome⟩
  · rw [hnone] at hc
    exact absurd hc List.not_mem_nil
  rw [hsome] at hc
  obtain ⟨hfirstRest, hle, -⟩ := contentLine?_eq_some hcontent
  have hfirstLs := (hfirstRest.trans (List.suffix_cons l rest)).trans hl
  obtain ⟨m, below', hm, hmle, hkey, hcolumn⟩ := exists_of_mem_keysFrom hle hc
  have hmRest := hm.trans hfirstRest
  have hmLs := hm.trans hfirstLs
  have hat := keyAt_of_keySpan? (hls.suffix hmLs) hkey
  have hbegins : ∀ end_, lastLine (indentOf first.text) m below' ≤ end_ →
      c.lines.BeginsIn k.value end_ := by
    intro end_ hend
    rw [hat.lines_eq]
    exact ⟨hfirst ▸ (hls.suffix hfirstLs).le_of_suffix hm, hmle, hat.le_first.trans hat.proper,
      hat.last_le.trans hend⟩
  refine ⟨hbegins _ ?_, fun hplain ↦ hbegins _ ?_⟩
  · obtain ⟨m', hm', hnumber'⟩ := exists_mem_lastLine (indentOf first.text) m below'
    rw [← hnumber']
    exact (hnumber m' (hmLs.subset hm')).2
  · have hinner : ∀ l' ∈ rest, l'.number ≤ k.value.last → isBlankText l'.text = false →
        isComment l'.text = false → column < indentOf l'.text := fun l' hl' ↦
      lt_indentOf_of_le_blockEnd? (hls.suffix hl).rest hend hl'
    have hdeeper : column < indentOf first.text := by
      rcases hcolumn with rfl | hcolumn
      · cases hcomment : isComment m.text with
        | true =>
          have hnone : keySpan? m (indentOf m.text) below' = none :=
            keySpan?_plainComment (hplain m (hmLs.subset List.mem_cons_self) hfirst) hcomment
          exact absurd (hnone.symm.trans hkey) (by simp)
        | false =>
          exact hinner m (hmRest.subset List.mem_cons_self) hmle (contentLine?_eq_some hcontent).2.2
            hcomment
      · obtain ⟨hblank, hcomment, hindent⟩ := contentColumn?_eq_some hcolumn
        rw [← hindent]
        exact hinner m (hmRest.subset List.mem_cons_self) hmle hblank hcomment
    have hlast : lastLine column l rest = k.value.last := by
      rw [lastLine, hend]
      rfl
    rw [← hlast]
    exact lastLine_le (Nat.le_of_lt hdeeper) (hls.suffix hl)
      (hmRest.trans (List.suffix_cons l rest)) (hlast ▸ hmle)

/-! ### Rules -/

/-- The block of a list item with a key that names a rule is indented deeper than its dash. -/
theorem lt_indentOf_of_named (hrest : Ascending rest) (hend : blockEnd? dash rest = some last)
    (hcontent : contentLine? last rest = some (first, below))
    (hk : k ∈ keysFrom first (indentOf first.text) last below)
    (hname : k.name = "alert" ∨ k.name = "record") : dash < indentOf first.text := by
  obtain ⟨hfirst, hle, hblank⟩ := contentLine?_eq_some hcontent
  obtain ⟨m, below', hm, hmle, hkey, hcolumn⟩ := exists_of_mem_keysFrom hle hk
  have hmRest := (hm.trans hfirst).subset List.mem_cons_self
  rcases hcolumn with rfl | hcolumn
  · cases hcomment : isComment m.text with
    | true =>
      have hblank := fun d ↦ isBlank_of_isComment (d := d) hcomment hkey
      rcases hname with hname | hname
      · exact absurd (hblank 'a' (by rw [hname]; rfl)) (by decide)
      · exact absurd (hblank 'r' (by rw [hname]; rfl)) (by decide)
    | false => exact lt_indentOf_of_le_blockEnd? hrest hend hmRest hmle hblank hcomment
  · obtain ⟨hblank, hcomment, hindent⟩ := contentColumn?_eq_some hcolumn
    rw [← hindent]
    exact lt_indentOf_of_le_blockEnd? hrest hend hmRest hmle hblank hcomment

/-- A key of a rule stands in its block, or in a flow mapping. -/
theorem keyAt_of_mem_itemKeys {lines : LineRange} (hls : Ascending (l :: rest))
    (hlines : lines = ⟨l.number, lastLine dash l rest⟩)
    (hnamed : ∃ k ∈ itemKeys l dash lines rest, k.name = "alert" ∨ k.name = "record")
    (hk : k ∈ itemKeys l dash lines rest) :
    (k.isInline = true ∧ k.line = lines.first ∧ k.value = lines) ∨
      ∃ m below column, m :: below <:+ l :: rest ∧ m.number ≤ lines.last ∧ dash ≤ column ∧
        KeyAt m column below k := by
  obtain ⟨named, hnamed, hname⟩ := hnamed
  have hlast : lines.last = lastLine dash l rest := by rw [hlines]
  have hat : ∀ {m below column}, m :: below <:+ l :: rest → m.number ≤ lines.last →
      dash ≤ column → keySpan? m column below = some k → ∃ m below column,
        m :: below <:+ l :: rest ∧ m.number ≤ lines.last ∧ dash ≤ column ∧ KeyAt m column below k :=
    fun {m below column} hm hmle hcolumn hkey ↦
      ⟨m, below, column, hm, hmle, hcolumn, keyAt_of_keySpan? (hls.suffix hm) hkey⟩
  rw [itemKeys] at hk hnamed
  split at hk
  · rename_i hempty
    rw [if_pos hempty] at hnamed
    cases hcontent : contentLine? lines.last rest with
    | none =>
      rw [hcontent] at hk
      exact absurd hk List.not_mem_nil
    | some content =>
      obtain ⟨first, below⟩ := content
      rw [hcontent] at hk hnamed
      obtain ⟨hfirst, hle, -⟩ := contentLine?_eq_some hcontent
      have hend : blockEnd? dash rest = some lines.last := by
        rw [hlast]
        exact blockEnd?_eq_lastLine hls (hfirst.subset List.mem_cons_self) (hlast ▸ hle)
      have hdeeper := lt_indentOf_of_named hls.rest hend hcontent hnamed hname
      obtain ⟨m, below', hm, hmle, hkey, -⟩ := exists_of_mem_keysFrom hle hk
      exact .inr (hat ((hm.trans hfirst).trans (List.suffix_cons l rest)) hmle
        (Nat.le_of_lt hdeeper) hkey)
  · rename_i hbeside
    rw [if_neg hbeside] at hnamed
    split at hk
    · obtain ⟨name, -, rfl⟩ := List.mem_map.mp hk
      exact .inl ⟨rfl, rfl, rfl⟩
    · have hle : l.number ≤ lines.last := hlast ▸ le_lastLine hls
      obtain ⟨m, below', hm, hmle, hkey, -⟩ := exists_of_mem_keysFrom hle hk
      exact .inr (hat hm hmle (by omega) hkey)

/-- A rule takes lines of the text, and its keys stand in it. -/
structure RuleAt (ls : List Line) (bound : Nat) (r : RuleSpan) : Prop where
  pos : 1 ≤ r.lines.first
  proper : r.lines.first ≤ r.lines.last
  last_le : r.lines.last ≤ bound
  key : ∀ k ∈ r.keys, k.lines.BeginsIn r.lines r.lines.last ∧
    k.value.BeginsIn r.lines r.lines.last
  child : ∀ k ∈ r.keys, ∀ c ∈ children ls k, c.lines.BeginsIn r.lines bound ∧
    ((∀ l ∈ ls, PlainComment l.text) → c.lines.BeginsIn r.lines r.lines.last)

/-- A rule reaches from its dash to the end of its block. -/
theorem lines_of_ruleSpan? {r : RuleSpan} (h : ruleSpan? l dash rest = some r) :
    r.lines = ⟨l.number, lastLine dash l rest⟩ := by
  rw [ruleSpan?] at h
  split at h
  · exact (Option.some.inj h) ▸ rfl
  · exact absurd h (by simp)

/-- A key of a rule stands in the lines of the rule, or in a flow mapping. -/
theorem keyAt_of_mem_ruleSpan? {r : RuleSpan} (hls : Ascending (l :: rest))
    (h : ruleSpan? l dash rest = some r) (hk : k ∈ r.keys) :
    (k.isInline = true ∧ k.line = r.lines.first ∧ k.value = r.lines) ∨
      ∃ m below column, m :: below <:+ l :: rest ∧ m.number ≤ r.lines.last ∧ dash ≤ column ∧
        KeyAt m column below k := by
  rw [ruleSpan?] at h
  split at h
  · rename_i hnamed
    obtain rfl := Option.some.inj h
    simp only [List.any_eq_true, Bool.or_eq_true, decide_eq_true_eq] at hnamed
    exact keyAt_of_mem_itemKeys hls rfl hnamed hk
  · exact absurd h (by simp)

/-- What is found at a dash is a rule with its keys in it. -/
theorem ruleAt_of_ruleSpan? {r : RuleSpan} {bound : Nat} (hls : Ascending ls)
    (hnumber : ∀ l ∈ ls, 1 ≤ l.number ∧ l.number ≤ bound) (hl : l :: rest <:+ ls)
    (h : ruleSpan? l dash rest = some r) : RuleAt ls bound r := by
  have hlines := lines_of_ruleSpan? h
  have hlast : r.lines.last = lastLine dash l rest := by rw [hlines]
  have hle : l.number ≤ lastLine dash l rest := le_lastLine (hls.suffix hl)
  have hkey := fun k hk ↦ keyAt_of_mem_ruleSpan? (k := k) (hls.suffix hl) h hk
  have hfirst : r.lines.first = l.number := by rw [hlines]
  have hself : r.lines.BeginsIn r.lines r.lines.last :=
    ⟨Nat.le_refl _, by omega, by omega, Nat.le_refl _⟩
  have hvalue : ∀ {m below column} {k : KeySpan}, m :: below <:+ l :: rest →
      m.number ≤ r.lines.last → dash ≤ column → KeyAt m column below k →
        k.value.last ≤ r.lines.last := by
    intro m below column k hm hmle hcolumn hat
    rw [hlast] at hmle ⊢
    exact Nat.le_trans hat.last_le (lastLine_le hcolumn (hls.suffix hl) hm hmle)
  refine ⟨?_, by omega, ?_, fun k hk ↦ ?_, fun k hk c hc ↦ ?_⟩
  · rw [hfirst]
    exact (hnumber l (hl.subset List.mem_cons_self)).1
  · obtain ⟨m, hm, hmlast⟩ := exists_mem_lastLine dash l rest
    rw [hlast, ← hmlast]
    exact (hnumber m (hl.subset hm)).2
  · rcases hkey k hk with ⟨-, hline, hvalue⟩ | ⟨m, below, column, hm, hmle, hcolumn, hat⟩
    · rw [lines_eq (by rw [hline, hvalue]) (by rw [hvalue]; omega), hline, hvalue]
      exact ⟨hself, hself⟩
    · have hge : r.lines.first ≤ m.number := hfirst ▸ (hls.suffix hl).le_of_suffix hm
      have hvalueLast := hvalue hm hmle hcolumn hat
      rw [hat.lines_eq]
      exact ⟨⟨hge, hmle, hat.le_first.trans hat.proper, hvalueLast⟩,
        ⟨hge.trans hat.le_first, hat.proper.trans hvalueLast, hat.proper, hvalueLast⟩⟩
  · rcases hkey k hk with ⟨hinline, -, -⟩ | ⟨m, below, column, hm, hmle, hcolumn, hat⟩
    · rw [children, hinline, Bool.true_or, if_pos rfl] at hc
      exact absurd hc List.not_mem_nil
    · have hge : r.lines.first ≤ m.number := hfirst ▸ (hls.suffix hl).le_of_suffix hm
      have hvalueLast := hvalue hm hmle hcolumn hat
      have hin : k.value.BeginsIn r.lines r.lines.last :=
        ⟨hge.trans hat.le_first, hat.proper.trans hvalueLast, hat.proper, hvalueLast⟩
      obtain ⟨hbegins, hends⟩ := beginsIn_of_mem_children hls hnumber (hm.trans hl) hat hc
      refine ⟨hbegins.trans hin, fun hplain ↦ ?_⟩
      have hends := hends fun l hl _ ↦ hplain l hl
      exact { hends.trans hin with last_le := Nat.le_trans hends.last_le hin.last_le }

/-- Each rule is found at the indentation of a line. -/
theorem exists_of_mem_rules {r : RuleSpan} (h : r ∈ rules ls) :
    ∃ l rest, l :: rest <:+ ls ∧ ruleSpan? l (indentOf l.text) rest = some r := by
  fun_induction rules ls with
  | case1 => exact absurd h List.not_mem_nil
  | case2 l rest column content hitem found hfound ih =>
    rcases List.mem_cons.mp h with rfl | h
    · exact ⟨l, rest, List.suffix_refl _, hfound⟩
    · obtain ⟨m, below, hm, hrule⟩ := ih h
      exact ⟨m, below, hm.trans ((linesAfter_suffix _ rest).trans (List.suffix_cons l rest)), hrule⟩
  | case3 l rest column content hitem hnone ih =>
    obtain ⟨m, below, hm, hrule⟩ := ih h
    exact ⟨m, below, hm.trans (List.suffix_cons l rest), hrule⟩
  | case4 l rest column content hitem hscalar ih =>
    obtain ⟨m, below, hm, hrule⟩ := ih h
    exact ⟨m, below, hm.trans ((linesAfter_suffix _ rest).trans (List.suffix_cons l rest)), hrule⟩
  | case5 l rest column content hitem hscalar ih =>
    obtain ⟨m, below, hm, hrule⟩ := ih h
    exact ⟨m, below, hm.trans (List.suffix_cons l rest), hrule⟩

/-- Each rule of a text takes lines of it, and its keys stand in the rule. -/
theorem ruleAt_of_mem_rules {source : String} {r : RuleSpan} (hr : r ∈ rules (lines source)) :
    RuleAt (lines source) (lines source).length r := by
  obtain ⟨l, rest, hl, hrule⟩ := exists_of_mem_rules hr
  exact ruleAt_of_ruleSpan? (ascending_lines source) (fun _ ↦ number_of_mem_lines) hl hrule

/-- Each rule ends in front of the next one. -/
theorem pairwise_rules (hls : Ascending ls) :
    (rules ls).Pairwise fun a b ↦ a.lines.last < b.lines.first := by
  fun_induction rules ls with
  | case1 => exact .nil
  | case2 l rest column content hitem found hfound ih =>
    have hbehind := hls.rest.suffix (linesAfter_suffix found.lines.last rest)
    refine List.pairwise_cons.mpr ⟨fun r hr ↦ ?_, ih hbehind⟩
    obtain ⟨m, below, hm, hrule⟩ := exists_of_mem_rules hr
    rw [lines_of_ruleSpan? hrule]
    exact lt_number_of_mem_linesAfter hls.rest (hm.subset List.mem_cons_self)
  | case3 l rest column content hitem hnone ih => exact ih hls.rest
  | case4 l rest column content hitem hscalar ih =>
    exact ih (hls.rest.suffix (linesAfter_suffix _ rest))
  | case5 l rest column content hitem hscalar ih => exact ih hls.rest

end Locate

end AlertAudit
