import AlertAudit.Proofs.RuleFile.BlankLines
import AlertAudit.Proofs.RuleFile.RowLines

/-!
Comments in place of blank lines. The scan passes over a comment as over white space except in two
places: the first line below a key or a dash whose value is awaited counts as content of the value,
and a comment that is indented deeper than what follows it counts as the end of the block above. The
first matters only in a rule and behind a bare dash. Where a comment stands at neither place, the
rules and the keys in their sections are those of the text with a blank line in its place
(`rules_comment`, `children_comment`).
-/

set_option autoImplicit false

namespace AlertAudit.Locate

open AlertAudit.Text

/-- The text begins with a key whose value is on the lines below. -/
def valueBelow (cs : List Char) : Bool :=
  (splitKey? cs).any fun (_, after) ↦ startsNested after || startsBlockScalar after

def behindDash (cs : List Char) : List Char :=
  ((cs.drop (indentOf cs)).drop 1).dropWhile isSpace

/-- Nothing, or only a comment, stands behind the dash of an item. -/
def isBareItem (cs : List Char) : Bool :=
  startsItem (cs.drop (indentOf cs)) && (behindDash cs).head?.all (· = '#')

/-- The value of a key on the line, or what belongs to a dash on it, is on the lines below. -/
def awaitsValue (cs : List Char) : Bool :=
  valueBelow (cs.drop (indentOf cs)) ||
    (startsItem (cs.drop (indentOf cs)) && valueBelow (behindDash cs)) || isBareItem cs

/-- The last of some lines that is not blank awaits nothing, or only the value of a key that stands
in none of the rules. -/
def isSettled (spans : List RuleSpan) (front : List Line) : Bool :=
  ((front.filter (!isBlankText ·.text)).getLast?).all fun l ↦
    !awaitsValue l.text || (!isBareItem l.text && spans.all (!·.lines.contains l.number))

variable {b l next : Line} {front rest : List Line} {indent column : Nat} {text : List Char}

/-! ### Comments -/

section Indented

variable {c : Char}

/-- Indented content is not blank. -/
theorem isBlankText_indented (hc : isBlank c = false) (column : Nat) (cs : List Char) :
    isBlankText (indented column (c :: cs)) = false := by
  refine Bool.eq_false_iff.mpr fun h ↦ ?_
  exact Bool.false_ne_true (hc.symm.trans (isBlank_of_mem h (by simp [indented])))

/-- Indented content is a comment if it begins like one. -/
theorem isComment_indented (hc : isBlank c = false) (column : Nat) (cs : List Char) :
    isComment (indented column (c :: cs)) = decide (c = '#') := by
  have hspaces : ∀ d ∈ List.replicate column ' ', isBlank d = true := by
    intro d hd
    rw [List.eq_of_mem_replicate hd]
    decide
  rw [isComment, trimStart, indented, List.dropWhile_append_of_pos hspaces,
    List.dropWhile_cons_of_neg (by simp [hc])]
  simp

end Indented

/-- A comment is indented by its spaces. -/
theorem indentOf_commentText (indent : Nat) (text : List Char) :
    indentOf (commentText indent text) = indent := indentOf_replicate (by decide) indent text

/-- Behind its indentation a comment has its mark and its text. -/
theorem drop_commentText (indent : Nat) (text : List Char) :
    (commentText indent text).drop (indentOf (commentText indent text)) = '#' :: text := by
  rw [indentOf_commentText, commentText, indented]
  exact List.drop_left' List.length_replicate

/-- A comment is not blank. -/
theorem isBlankText_commentText (indent : Nat) (text : List Char) :
    isBlankText (commentText indent text) = false := isBlankText_indented (by decide) indent text

theorem isComment_commentText (indent : Nat) (text : List Char) :
    isComment (commentText indent text) = true := isComment_indented (by decide) indent text

/-- A comment in front changes no rules. -/
theorem rules_comment_cons (number : Nat) (ls : List Line) :
    rules (⟨number, commentText indent text⟩ :: ls) = rules ls := by
  rw [rules]
  simp [drop_commentText, startsItem, opensBlockScalar, splitKey?, startsNoKey]

/-! ### Awaited values -/

/-- A blank line awaits no value. -/
theorem awaitsValue_of_isBlankText {cs : List Char} (h : isBlankText cs) :
    awaitsValue cs = false := by
  have hcontent := isBlankText_drop h (indentOf cs)
  simp [awaitsValue, isBareItem, valueBelow, splitKey?_of_isBlankText hcontent,
    startsItem_of_isBlankText hcontent]

/-- A bare dash awaits the lines of its item. -/
theorem awaitsValue_of_isBareItem {cs : List Char} (h : isBareItem cs) : awaitsValue cs := by
  rw [awaitsValue, h, Bool.or_true]

/-- A key that stands at the indentation of its line, or behind its dash. -/
theorem awaitsValue_of_valueBelow (hcolumn : column = indentOf l.text ∨
      startsItem (l.text.drop (indentOf l.text)) = true ∧ l.text.drop column = behindDash l.text)
    (h : valueBelow (l.text.drop column)) : awaitsValue l.text := by
  rcases hcolumn with rfl | ⟨hitem, hdrop⟩
  · simp [awaitsValue, h]
  · rw [hdrop] at h
    simp [awaitsValue, hitem, h]

def HasContent (ls : List Line) : Prop := ∃ m ∈ ls, isBlankText m.text = false

/-- The lines up to `last` that await a value have content below. -/
def SettledUpTo (last : Nat) (front : List Line) : Prop :=
  ∀ l below, l :: below <:+ front → l.number ≤ last → awaitsValue l.text → HasContent below

/-- What holds for some lines holds for the last ones of them. -/
theorem SettledUpTo.suffix {last : Nat} {lines : List Line} (h : SettledUpTo last front)
    (hsuffix : lines <:+ front) : SettledUpTo last lines :=
  fun l below hl ↦ h l below (hl.trans hsuffix)

/-- Bare dashes, and the lines of rules that await a value, have content below. -/
structure Settled (spans : List RuleSpan) (front : List Line) : Prop where
  item : ∀ l below, l :: below <:+ front → isBareItem l.text → HasContent below
  rule : ∀ r ∈ spans, ∀ l below, l :: below <:+ front → r.lines.first ≤ l.number →
    l.number ≤ r.lines.last → awaitsValue l.text → HasContent below

/-- So it is with fewer rules. -/
theorem Settled.mono {spans spans' : List RuleSpan} {lines : List Line} (h : Settled spans front)
    (hspans : spans' ⊆ spans) (hsuffix : lines <:+ front) : Settled spans' lines where
  item l below hl := h.item l below (hl.trans hsuffix)
  rule r hr l below hl := h.rule r (hspans hr) l below (hl.trans hsuffix)

/-- The rule is settled from its item on. -/
theorem Settled.settledUpTo {spans : List RuleSpan} {r : RuleSpan} (h : Settled spans front)
    (hr : r ∈ spans) {lines : List Line} (hl : l :: lines <:+ front)
    (hls : Ascending (l :: lines)) (hfirst : r.lines.first ≤ l.number) {last : Nat}
    (hlast : last ≤ r.lines.last) : SettledUpTo last (l :: lines) :=
  fun m below hm hle hawaits ↦ h.rule r hr m below (hm.trans hl)
    (Nat.le_trans hfirst (hls.le_of_suffix hm)) (Nat.le_trans hle hlast) hawaits

/-- Below a line that awaits a value stands content, if the line is not the last one with content.
-/
theorem hasContent_or_getLast? {below : List Line} (hl : l :: below <:+ front)
    (hawaits : awaitsValue l.text) :
    HasContent below ∨ (front.filter (!isBlankText ·.text)).getLast? = some l := by
  obtain ⟨above, rfl⟩ := hl
  have hcontent : isBlankText l.text = false := by
    refine Bool.eq_false_iff.mpr fun hblank ↦ ?_
    exact Bool.false_ne_true ((awaitsValue_of_isBlankText hblank).symm.trans hawaits)
  refine or_iff_not_imp_left.mpr fun hnone ↦ ?_
  have hbelow : below.filter (!isBlankText ·.text) = [] :=
    List.filter_eq_nil_iff.mpr fun m hm hcontent ↦ hnone ⟨m, hm, by simpa using hcontent⟩
  rw [List.filter_append, List.filter_cons_of_pos (by simp [hcontent]), hbelow,
    List.getLast?_concat]

/-- What is decided about the lines holds for all of them. -/
theorem settled_of_isSettled {spans : List RuleSpan} (h : isSettled spans front) :
    Settled spans front where
  item l below hl hbare := by
    refine (hasContent_or_getLast? hl (awaitsValue_of_isBareItem hbare)).resolve_right fun hlast ↦
      ?_
    simp [isSettled, hlast, hbare, awaitsValue_of_isBareItem hbare] at h
  rule r hr l below hl hfirst hle hawaits := by
    refine (hasContent_or_getLast? hl hawaits).resolve_right fun hlast ↦ ?_
    have hcontains : r.lines.contains l.number = true := by simp [LineRange.contains, hfirst, hle]
    simp only [isSettled, hlast, Option.all_some, hawaits, Bool.not_true, Bool.false_or,
      Bool.and_eq_true, List.all_eq_true, Bool.not_eq_true'] at h
    exact Bool.false_ne_true ((h.2 r hr).symm.trans hcontains)

/-! ### The parts of the scan -/

/-- The first content of some lines that are not all blank does not depend on what follows. -/
theorem contentLine?_append (h : HasContent front) (last : Nat) :
    (∀ tail, contentLine? last (front ++ tail) = none) ∨
      ∃ first below, first :: below <:+ front ∧
        ∀ tail, contentLine? last (front ++ tail) = some (first, below ++ tail) := by
  induction front with
  | nil => exact absurd h (by simp [HasContent])
  | cons l front ih =>
    by_cases hlast : last < l.number
    · exact .inl fun tail ↦ by rw [List.cons_append, contentLine?, if_pos hlast]
    by_cases hblank : isBlankText l.text = true
    · have hfront : HasContent front := by simpa [HasContent, hblank] using h
      rcases ih hfront with hnone | ⟨first, below, hsuffix, hsome⟩
      · refine .inl fun tail ↦ ?_
        rw [List.cons_append, contentLine?, if_neg hlast, if_pos hblank, hnone]
      · refine .inr ⟨first, below, hsuffix.trans (List.suffix_cons _ _), fun tail ↦ ?_⟩
        rw [List.cons_append, contentLine?, if_neg hlast, if_pos hblank, hsome]
    · refine .inr ⟨l, front, List.suffix_refl _, fun tail ↦ ?_⟩
      rw [List.cons_append, contentLine?, if_neg hlast, if_neg hblank]

section Comment

variable (hb : isBlankText b.text) (hnext : contentColumn? next.text = some (indentOf next.text))
  (hindent : indent ≤ indentOf next.text)

include hb hnext hindent in
/-- A block ends with the same line. -/
theorem blockEnd?_comment (column : Nat) (front rest : List Line) :
    blockEnd? column (front ++ ⟨b.number, commentText indent text⟩ :: next :: rest) =
      blockEnd? column (front ++ b :: next :: rest) := by
  induction front with
  | cons l front ih => simp only [List.cons_append, blockEnd?, ih]
  | nil =>
    rw [List.nil_append, List.nil_append, blockEnd?.eq_2 _ b, if_pos hb, blockEnd?,
      isBlankText_commentText, indentOf_commentText, isComment_commentText]
    by_cases hcolumn : indent ≤ column
    · simp [hcolumn]
    -- A deeper comment belongs to the block, but so does the line below it.
    · obtain ⟨hblank, -, -⟩ := contentColumn?_eq_some hnext
      have hdeep : ¬indentOf next.text ≤ column := by omega
      simp [hcolumn, blockEnd?, hblank, hdeep]

include hb hnext hindent in
/-- A key is the same one, if its value begins in front of the comment. -/
theorem keySpan?_comment (hcontent : valueBelow (l.text.drop column) → HasContent front)
    (rest : List Line) :
    keySpan? l column (front ++ ⟨b.number, commentText indent text⟩ :: next :: rest) =
      keySpan? l column (front ++ b :: next :: rest) := by
  rw [keySpan?_eq_map, keySpan?_eq_map]
  cases hsplit : splitKey? (l.text.drop column) with
  | none => rfl
  | some split =>
    obtain ⟨name, after⟩ := split
    cases hbelow : startsNested after || startsBlockScalar after with
    | false => simp only [Option.map_some, hbelow, valueLines, Bool.not_false, if_true,
        blockEnd?_comment hb hnext hindent]
    | true =>
      have hfront := hcontent (by simp only [valueBelow, hsplit, Option.any_some, hbelow])
      simp only [Option.map_some, hbelow, valueLines, blockEnd?_comment hb hnext hindent]
      cases blockEnd? column (front ++ b :: next :: rest) with
      | none => rfl
      | some last =>
        rcases contentLine?_append hfront last with hnone | ⟨first, below, -, hsome⟩
        · simp [hnone]
        · simp [hsome]

include hb in
/-- Neither the comment nor the blank line holds a key. -/
theorem keysBelow_comment_cons (column last : Nat) (rest : List Line) :
    keysBelow column last (⟨b.number, commentText indent text⟩ :: rest) =
      keysBelow column last (b :: rest) := by
  have hblank : contentColumn? b.text ≠ some column := by
    simp [contentColumn?_of_isBlankText hb]
  have hcomment : contentColumn? (commentText indent text) ≠ some column := by
    simp [contentColumn?, isComment_commentText]
  rw [keysBelow, keysBelow.eq_2 _ _ b, if_neg hblank, if_neg hcomment]

include hb hnext hindent in
/-- The keys at a column are the same ones. -/
theorem keysBelow_comment {last : Nat} (h : SettledUpTo last front) (column : Nat)
    (rest : List Line) :
    keysBelow column last (front ++ ⟨b.number, commentText indent text⟩ :: next :: rest) =
      keysBelow column last (front ++ b :: next :: rest) := by
  induction front with
  | nil => exact keysBelow_comment_cons hb column last (next :: rest)
  | cons l front ih =>
    rw [List.cons_append, List.cons_append, keysBelow, keysBelow,
      ih (h.suffix (List.suffix_cons _ _))]
    by_cases hlast : last < l.number
    · simp only [if_pos hlast]
    by_cases hcolumn : contentColumn? l.text = some column
    · have hindentOf := (contentColumn?_eq_some hcolumn).2.2
      rw [keySpan?_comment hb hnext hindent fun hbelow ↦
        h l front (List.suffix_refl _) (Nat.le_of_not_lt hlast)
          (awaitsValue_of_valueBelow (.inl hindentOf.symm) hbelow)]
    · simp only [if_neg hcolumn]

include hb hnext hindent in
/-- So are those from a line on. -/
theorem keysFrom_comment {last : Nat} (h : SettledUpTo last (l :: front)) (hle : l.number ≤ last)
    (hawaits : valueBelow (l.text.drop column) → awaitsValue l.text) (rest : List Line) :
    keysFrom l column last (front ++ ⟨b.number, commentText indent text⟩ :: next :: rest) =
      keysFrom l column last (front ++ b :: next :: rest) := by
  rw [keysFrom, keysFrom, keysBelow_comment hb hnext hindent (h.suffix (List.suffix_cons _ _)),
    keySpan?_comment hb hnext hindent fun hbelow ↦
      h l front (List.suffix_refl _) hle (hawaits hbelow)]

/-- Behind a dash stands what follows the white space there. -/
theorem behindDash_eq_drop (cs : List Char) :
    behindDash cs = (cs.drop (indentOf cs + 1)).dropWhile isSpace := by
  rw [behindDash, List.drop_drop]

include hb hnext hindent in
/-- The keys of an item are the same ones. -/
theorem itemKeys_comment {lines : LineRange} (h : SettledUpTo lines.last (l :: front))
    (hle : l.number ≤ lines.last) (hitem : startsItem (l.text.drop (indentOf l.text)) = true)
    (rest : List Line) :
    itemKeys l (indentOf l.text) lines
        (front ++ ⟨b.number, commentText indent text⟩ :: next :: rest) =
      itemKeys l (indentOf l.text) lines (front ++ b :: next :: rest) := by
  rw [itemKeys, itemKeys]
  simp only [← behindDash_eq_drop]
  split
  next hbare =>
    have hawaits := awaitsValue_of_isBareItem (by rw [isBareItem, hitem, hbare, Bool.and_self])
    rcases contentLine?_append (h l front (List.suffix_refl _) hle hawaits) lines.last with
      hnone | ⟨first, below, hsuffix, hsome⟩
    · simp only [hnone]
    · have hfirst := (contentLine?_eq_some (hsome [])).2.1
      simp only [hsome]
      exact keysFrom_comment hb hnext hindent (h.suffix (hsuffix.trans (List.suffix_cons _ _)))
        hfirst (awaitsValue_of_valueBelow (.inl rfl)) _
  next =>
    split
    · rfl
    · refine keysFrom_comment hb hnext hindent h hle
        (awaitsValue_of_valueBelow (.inr ⟨hitem, ?_⟩)) _
      rw [behindDash_eq_drop, ← drop_indentOf, List.drop_drop]

include hb hnext hindent in
/-- So is the rule that an item is. -/
theorem ruleSpan?_comment
    (h : SettledUpTo (lastLine (indentOf l.text) l (front ++ b :: next :: rest)) (l :: front))
    (hls : Ascending (l :: (front ++ b :: next :: rest)))
    (hitem : startsItem (l.text.drop (indentOf l.text)) = true) :
    ruleSpan? l (indentOf l.text)
        (front ++ ⟨b.number, commentText indent text⟩ :: next :: rest) =
      ruleSpan? l (indentOf l.text) (front ++ b :: next :: rest) := by
  have hlines : SettledUpTo (LineRange.mk l.number
      ((blockEnd? (indentOf l.text) (front ++ b :: next :: rest)).getD l.number)).last
        (l :: front) := h
  simp only [ruleSpan?, blockEnd?_comment hb hnext hindent,
    itemKeys_comment hb hnext hindent hlines (le_lastLine hls) hitem]

/-! ### Names of keys -/

/-- The name of a key does not depend on the lines below it. -/
theorem names_keySpan? (l : Line) (column : Nat) (below below' : List Line) :
    (keySpan? l column below).toList.map (·.name) =
      (keySpan? l column below').toList.map (·.name) := by
  rw [keySpan?_eq_map, keySpan?_eq_map]
  cases splitKey? (l.text.drop column) <;> rfl

include hb in
/-- The keys at a column have the same names, whatever stands between them. -/
theorem names_keysBelow (column last : Nat) (front rest : List Line) :
    (keysBelow column last (front ++ ⟨b.number, commentText indent text⟩ :: rest)).map (·.name) =
      (keysBelow column last (front ++ b :: rest)).map (·.name) := by
  induction front with
  | nil => rw [List.nil_append, List.nil_append, keysBelow_comment_cons hb]
  | cons l front ih =>
    rw [List.cons_append, List.cons_append, keysBelow, keysBelow]
    split_ifs
    · rfl
    · rw [List.map_append, List.map_append, ih, names_keySpan?]
    · exact ih

include hb in
/-- So have those from a line on. -/
theorem names_keysFrom (l : Line) (column last : Nat) (front rest : List Line) :
    (keysFrom l column last (front ++ ⟨b.number, commentText indent text⟩ :: rest)).map (·.name) =
      (keysFrom l column last (front ++ b :: rest)).map (·.name) := by
  rw [keysFrom, keysFrom, List.map_append, List.map_append, names_keysBelow hb, names_keySpan?]

include hb in
/-- So have the keys of an item, if its first key stands in front of the comment. -/
theorem names_itemKeys (hcontent : isBareItem l.text → HasContent front)
    (hitem : startsItem (l.text.drop (indentOf l.text)) = true) (lines : LineRange)
    (rest : List Line) :
    (itemKeys l (indentOf l.text) lines
        (front ++ ⟨b.number, commentText indent text⟩ :: rest)).map (·.name) =
      (itemKeys l (indentOf l.text) lines (front ++ b :: rest)).map (·.name) := by
  rw [itemKeys, itemKeys]
  simp only [← behindDash_eq_drop]
  split
  next hbare =>
    have hfront := hcontent (by rw [isBareItem, hitem, hbare, Bool.and_self])
    rcases contentLine?_append hfront lines.last with hnone | ⟨first, below, -, hsome⟩
    · simp only [hnone]
    · simp only [hsome]
      exact names_keysFrom hb _ _ _ _ _
  next =>
    split
    · rfl
    · exact names_keysFrom hb _ _ _ _ _

/-- The names of its keys tell whether an item is a rule. -/
theorem isSome_ruleSpan? (l : Line) (dash : Nat) (below : List Line) :
    (ruleSpan? l dash below).isSome =
      ((itemKeys l dash ⟨l.number, (blockEnd? dash below).getD l.number⟩ below).map (·.name)).any
        fun name ↦ name = "alert" || name = "record" := by
  rw [ruleSpan?, List.any_map]
  split <;> simp_all [Function.comp_def]

include hb hnext hindent in
/-- With the comment the item is a rule if it is one without. -/
theorem isSome_ruleSpan?_comment (hcontent : isBareItem l.text → HasContent front)
    (hitem : startsItem (l.text.drop (indentOf l.text)) = true) (rest : List Line) :
    (ruleSpan? l (indentOf l.text)
        (front ++ ⟨b.number, commentText indent text⟩ :: next :: rest)).isSome =
      (ruleSpan? l (indentOf l.text) (front ++ b :: next :: rest)).isSome := by
  rw [isSome_ruleSpan?, isSome_ruleSpan?, blockEnd?_comment hb hnext hindent,
    names_itemKeys hb hcontent hitem]

/-! ### Rules -/

/-- A line of some number is among the lines behind another line, or what follows it is. -/
theorem linesAfter_append_cons (last number : Nat) (front rest : List Line) :
    (∃ front', front' <:+ front ∧ ∀ text : List Char,
        linesAfter last (front ++ ⟨number, text⟩ :: rest) = front' ++ ⟨number, text⟩ :: rest) ∨
      ∀ text : List Char, linesAfter last (front ++ ⟨number, text⟩ :: rest) =
        linesAfter last rest := by
  induction front with
  | nil =>
    by_cases hle : number ≤ last
    · exact .inr fun _ ↦ List.dropWhile_cons_of_pos (by simpa using hle)
    · exact .inl ⟨[], List.suffix_refl _, fun _ ↦ List.dropWhile_cons_of_neg (by simpa using hle)⟩
  | cons l front ih =>
    by_cases hle : l.number ≤ last
    · have hcons (tail : List Line) : linesAfter last (l :: tail) = linesAfter last tail :=
        List.dropWhile_cons_of_pos (by simpa using hle)
      simp only [List.cons_append, hcons]
      rcases ih with ⟨front', hsuffix, hafter⟩ | hafter
      · exact .inl ⟨front', hsuffix.trans (List.suffix_cons _ _), hafter⟩
      · exact .inr hafter
    · exact .inl ⟨l :: front, List.suffix_refl _,
        fun _ ↦ List.dropWhile_cons_of_neg (by simpa using hle)⟩

include hb hnext hindent in
/-- The rules of a text with a comment are those of the text with a blank line in its place. -/
theorem rules_comment (h : Settled (rules (front ++ b :: next :: rest)) front)
    (hls : Ascending (front ++ b :: next :: rest)) :
    rules (front ++ ⟨b.number, commentText indent text⟩ :: next :: rest) =
      rules (front ++ b :: next :: rest) := by
  induction hlength : front.length using Nat.strongRecOn generalizing front with
  | ind length ih =>
    have hafter {below : List Line} (hbelow : below.length < length)
        (hascending : Ascending (below ++ b :: next :: rest)) (last : Nat)
        (hsettled : Settled (rules (linesAfter last (below ++ b :: next :: rest))) below) :
        rules (linesAfter last (below ++ ⟨b.number, commentText indent text⟩ :: next :: rest)) =
          rules (linesAfter last (below ++ b :: next :: rest)) := by
      rcases linesAfter_append_cons last b.number below (next :: rest) with
        ⟨below', hsuffix, hlines⟩ | hlines
      · rw [hlines b.text] at hsettled
        have hwhole : below' ++ b :: next :: rest <:+ below ++ b :: next :: rest := by
          obtain ⟨above, rfl⟩ := hsuffix
          exact ⟨above, by simp⟩
        rw [hlines, hlines b.text]
        exact ih _ (Nat.lt_of_le_of_lt hsuffix.length_le hbelow)
          (hsettled.mono (List.Subset.refl _) hsuffix) (hascending.suffix hwhole) rfl
      · rw [hlines, hlines b.text]
    cases front with
    | nil => rw [List.nil_append, List.nil_append, rules_comment_cons, rules_blank_cons hb]
    | cons l front =>
      have hlt : front.length < length := hlength ▸ Nat.lt_succ_self _
      have hsuffix : front <:+ l :: front := List.suffix_cons l front
      have hself : l :: front <:+ l :: front := List.suffix_refl _
      rw [List.cons_append] at h hls
      rw [List.cons_append, List.cons_append, rules, rules]
      rw [rules] at h
      by_cases hitem : startsItem (l.text.drop (indentOf l.text)) = true
      · simp only [if_pos hitem] at h ⊢
        cases hrule : ruleSpan? l (indentOf l.text) (front ++ b :: next :: rest) with
        | some r =>
          rw [hrule] at h
          have hlines := lines_of_ruleSpan? hrule
          have hlast : r.lines.last =
              lastLine (indentOf l.text) l (front ++ b :: next :: rest) := by rw [hlines]
          have hsettled := h.settledUpTo List.mem_cons_self hself
            (hls.sublist (List.Sublist.cons_cons l (List.sublist_append_left front _)))
            (by rw [hlines]) (Nat.le_of_eq hlast.symm)
          rw [ruleSpan?_comment hb hnext hindent hsettled hls hitem, hrule]
          exact congrArg (r :: ·)
            (hafter hlt hls.rest r.lines.last (h.mono (List.subset_cons_self _ _) hsuffix))
        | none =>
          have hnone : ruleSpan? l (indentOf l.text)
              (front ++ ⟨b.number, commentText indent text⟩ :: next :: rest) = none := by
            rw [← Option.not_isSome_iff_eq_none, isSome_ruleSpan?_comment hb hnext hindent
              (h.item l front hself) hitem, hrule]
            simp
          rw [hrule] at h
          rw [hnone]
          exact ih _ hlt (h.mono (List.Subset.refl _) hsuffix) hls.rest rfl
      · simp only [if_neg hitem, blockEnd?_comment hb hnext hindent] at h ⊢
        by_cases hscalar : opensBlockScalar (l.text.drop (indentOf l.text)) = true
        · simp only [if_pos hscalar] at h ⊢
          exact hafter hlt hls.rest _ (h.mono (List.Subset.refl _) hsuffix)
        · simp only [if_neg hscalar] at h ⊢
          exact ih _ hlt (h.mono (List.Subset.refl _) hsuffix) hls.rest rfl

/-- Another line with the same number keeps the lines in order. -/
theorem ascending_replace {m : Line} (h : Ascending (front ++ b :: rest))
    (hnumber : m.number = b.number) : Ascending (front ++ m :: rest) := by
  have hnumbers : ((front ++ b :: rest).map (·.number)).Pairwise (· < ·) :=
    List.pairwise_map.mpr h
  rw [List.map_append, List.map_cons, ← hnumber, ← List.map_cons, ← List.map_append] at hnumbers
  exact List.pairwise_map.mp hnumbers

include hb hnext hindent in
/-- So are the keys in a value that begins on another line. -/
theorem children_comment {k : KeySpan}
    (h : ∀ below, l :: below <:+ front → SettledUpTo k.value.last (l :: below))
    (hls : Ascending (front ++ b :: next :: rest)) (hl : l ∈ front ++ b :: next :: rest)
    (hpos : 1 ≤ l.number) (hfirst : l.number = k.value.first)
    (hproper : k.value.first ≤ k.value.last) (hne : l.number ≠ b.number) :
    children (front ++ ⟨b.number, commentText indent text⟩ :: next :: rest) k =
      children (front ++ b :: next :: rest) k := by
  have hls' : Ascending (front ++ ⟨b.number, commentText indent text⟩ :: next :: rest) :=
    ascending_replace hls rfl
  rw [children, children, ← hfirst]
  split
  · rfl
  rcases List.mem_append.mp hl with hl | hl
  · obtain ⟨above, below, rfl⟩ := List.append_of_mem hl
    have hsuffix : l :: below <:+ above ++ l :: below := List.suffix_append _ _
    simp only [List.append_assoc, List.cons_append] at hls hls' ⊢
    rw [linesAfter_pred hls' (List.suffix_append _ _) hpos,
      linesAfter_pred hls (List.suffix_append _ _) hpos]
    exact keysFrom_comment hb hnext hindent (h below hsuffix) (hfirst ▸ hproper)
      (awaitsValue_of_valueBelow (.inl rfl)) _
  · rcases List.mem_cons.mp hl with rfl | hl
    · exact absurd rfl hne
    · obtain ⟨above, below, hbelow⟩ := List.append_of_mem hl
      rw [hbelow] at hls hls' ⊢
      have hsuffix (m : Line) : l :: below <:+ front ++ m :: (above ++ l :: below) :=
        ⟨front ++ m :: above, by simp⟩
      rw [linesAfter_pred hls' (hsuffix _) hpos, linesAfter_pred hls (hsuffix _) hpos]

end Comment

end AlertAudit.Locate
