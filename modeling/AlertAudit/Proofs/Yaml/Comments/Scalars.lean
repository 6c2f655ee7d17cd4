import AlertAudit.Proofs.Text.Lines
import AlertAudit.Proofs.Yaml.Locality.Scalars

/-!
Comments behind scalars. A scalar that ends on a line further up is read past the line breaks behind
it, as far as the next token. A comment on a line of its own in front of that token stops the
reading where the comment begins, and the scalar is the same (`Plain.read_comment`,
`Block.read_comment`).
-/

set_option autoImplicit false

namespace AlertAudit.Yaml

open AlertAudit.Text

variable {c d : Char} {cs ds above behind below used rest text : List Char} {column indent : Nat}

/-! ### Lines -/

/-- A text in two parts is cut within the first one where more is left than the second one. -/
theorem split_of_lt (h : above ++ below = used ++ rest) (hlt : below.length < rest.length) :
    ∃ behind, behind ≠ [] ∧ above = used ++ behind ∧ rest = behind ++ below := by
  rcases List.append_eq_append_iff.mp h with ⟨behind, habove, hbelow⟩ | ⟨behind, habove, hrest⟩
  · have hle := congrArg List.length hbelow
    rw [List.length_append] at hle
    omega
  · refine ⟨behind, ?_, habove, hrest⟩
    rintro rfl
    exact absurd hlt (by simp [hrest])

/-- It is cut within the second one where no more is left than that. -/
theorem split_of_le (h : above ++ below = used ++ rest) (hle : rest.length ≤ below.length) :
    ∃ front, used = above ++ front ∧ below = front ++ rest := by
  rcases List.append_eq_append_iff.mp h with ⟨front, hused, hbelow⟩ | ⟨behind, habove, hrest⟩
  · exact ⟨front, hused, hbelow⟩
  · obtain rfl : behind = [] := List.length_eq_zero_iff.mp (by
      have hlength := congrArg List.length hrest
      rw [List.length_append] at hlength
      omega)
    exact ⟨[], by simpa using habove.symm, hrest.symm⟩

/-- What has no line break is cut off within lines. -/
theorem split_of_inline (habove : IsWhole above) (hne : above ≠ [])
    (h : above ++ below = used ++ rest) (hused : ∀ d ∈ used, isBreak d = false) :
    ∃ behind, behind ≠ [] ∧ above = used ++ behind ∧ rest = behind ++ below := by
  have hbreak := habove.mem hne
  rcases List.append_eq_append_iff.mp h with ⟨front, rfl, -⟩ | ⟨behind, rfl, hrest⟩
  · exact absurd (hused '\n' (List.mem_append_left _ hbreak)) (by decide)
  · refine ⟨behind, ?_, rfl, hrest⟩
    rintro rfl
    rw [List.append_nil] at hbreak
    exact absurd (hused '\n' hbreak) (by decide)

/-! ### White space -/

namespace Gap

variable {margin line : Nat} {g g' : Gap} {next : Cursor}

/-- Indentation does not belong to a gap that has a line break. -/
theorem read_indented (hd : IsInk d) (hg : g.breaks ≠ []) (margin line column : Nat)
    (ds : List Char) :
    read margin (indented column (d :: ds)) g line 0 = some (g, ⟨d :: ds, line, column⟩) := by
  have hspaces (n start : Nat) : read margin (List.replicate n ' ' ++ d :: ds) g line start =
      some (g, ⟨d :: ds, line, start + n⟩) := by
    induction n generalizing start with
    | zero =>
      have hbreak := isBreak_eq_false_of_isInk hd
      have hgap : isGap d = false := (Bool.or_eq_false_iff.mp hd).1
      simp [read, hbreak, hgap]
    | succ n ih =>
      rw [List.replicate_succ, List.cons_append, read, if_neg (by decide), if_pos (by decide),
        if_neg (by simpa using hg), if_neg (by simp), ih, Nat.add_assoc, Nat.add_comm 1]
  rw [indented, hspaces, Nat.zero_add]

/-- A gap that reaches beyond some lines has a line break there. -/
theorem read_beyond {column : Nat} (habove : IsWhole above)
    (hnil : above = [] → column = 0 ∧ g.breaks ≠ [])
    (h : read margin (above ++ below) g line column = some (g', next))
    (hnext : next.rest.length ≤ below.length) :
    ∃ g'' line', g''.breaks ≠ [] ∧ line ≤ line' ∧ (above ≠ [] → line < line') ∧
      ∀ tail, read margin (above ++ tail) g line column = read margin tail g'' line' 0 := by
  induction above generalizing g line column with
  | nil =>
    obtain ⟨rfl, hg⟩ := hnil rfl
    exact ⟨g, line, hg, Nat.le_refl _, fun h ↦ absurd rfl h, fun _ ↦ rfl⟩
  | cons c above ih =>
    have hbehind : IsWhole above := habove.tail
    rw [List.cons_append, read] at h
    by_cases hbreak : isBreak c = true
    · rw [if_pos hbreak] at h
      obtain ⟨g'', line', hg, hle, -, hread⟩ := ih hbehind (fun _ ↦ ⟨rfl, by simp⟩) h
      refine ⟨g'', line', hg, by omega, fun _ ↦ by omega, fun tail ↦ ?_⟩
      rw [List.cons_append, read, if_pos hbreak, hread]
    rw [if_neg hbreak] at h
    have hmore : above ≠ [] := by
      rintro rfl
      obtain rfl := habove.eq_newline
      exact hbreak (by decide)
    by_cases hgap : isGap c = true
    · rw [if_pos hgap] at h
      by_cases hfirst : g.breaks.isEmpty = true
      · rw [if_pos hfirst] at h
        obtain ⟨g'', line', hg, hle, hlt, hread⟩ := ih hbehind (fun hnil ↦ absurd hnil hmore) h
        refine ⟨g'', line', hg, hle, fun _ ↦ hlt hmore, fun tail ↦ ?_⟩
        rw [List.cons_append, read, if_neg hbreak, if_pos hgap, if_pos hfirst, hread]
      rw [if_neg hfirst] at h
      by_cases htab : c = '\t' ∧ column < margin
      · rw [if_pos htab] at h
        exact absurd h (by simp)
      rw [if_neg htab] at h
      obtain ⟨g'', line', hg, hle, hlt, hread⟩ := ih hbehind (fun hnil ↦ absurd hnil hmore) h
      refine ⟨g'', line', hg, hle, fun _ ↦ hlt hmore, fun tail ↦ ?_⟩
      rw [List.cons_append, read, if_neg hbreak, if_pos hgap, if_neg hfirst, if_neg htab, hread]
    · rw [if_neg hgap] at h
      obtain ⟨-, rfl⟩ := Prod.mk.inj (Option.some.inj h)
      simp only [List.length_cons, List.length_append] at hnext
      omega

end Gap

/-! ### Plain scalars -/

namespace Plain

variable {flow broken : Bool} {margin : Nat} {out word : List Char} {here next : Cursor}

/-- A scalar in front of a comment and a token on lines of their own is the same as without the
comment. -/
theorem readMore_comment (hc : IsInk c) (habove : IsWhole above) (hne : above ≠ [])
    (hrest : here.rest = above ++ indented column (c :: cs))
    (h : readMore flow margin word here = some (out, broken, next))
    (hnext : next.rest.length ≤ (indented column (c :: cs)).length)
    (hbehind : (c :: cs).length ≤ next.rest.length) :
    broken = true ∧ next = ⟨c :: cs, next.line, column⟩ ∧ here.line < next.line ∧
      readMore flow margin word ⟨above ++ indented indent ('#' :: ds), here.line, here.column⟩ =
        some (out, true, ⟨'#' :: ds, next.line, indent⟩) := by
  induction hlength : here.rest.length using Nat.strongRecOn generalizing here above word with
  | ind length ih =>
    obtain ⟨g, stop, hgap⟩ := exists_gap_of_readMore h
    rw [readMore_of_gap hgap] at h
    by_cases hwithin : stop.rest.length ≤ (indented column (c :: cs)).length
    -- The gap is the last one: with the comment it ends there.
    · rw [hrest] at hgap
      obtain ⟨g', line, hbreaks, -, hline, hread⟩ :=
        Gap.read_beyond habove (fun hnil ↦ absurd hnil hne) hgap hwithin
      rw [hread, Gap.read_indented hc hbreaks] at hgap
      obtain ⟨rfl, rfl⟩ := Prod.mk.inj (Option.some.inj hgap)
      have hempty : g'.isEmpty = false := by simp [Gap.isEmpty, hbreaks]
      have hbreak : g'.hasBreak = true := by simp [Gap.hasBreak, hbreaks]
      have hcomment : readMore flow margin word
          ⟨above ++ indented indent ('#' :: ds), here.line, here.column⟩ =
            some (word, true, ⟨'#' :: ds, line, indent⟩) := by
        have hgap' := hread (indented indent ('#' :: ds))
        rw [Gap.read_indented (show IsInk '#' from rfl) hbreaks] at hgap'
        rw [readMore_of_gap hgap', hempty, hbreak]
        simp [stopsAt]
      have hsame : word = out ∧ g'.hasBreak = broken ∧ ⟨c :: cs, line, column⟩ = next := by
        simp only [hempty, Bool.false_eq_true, if_false] at h
        split at h
        · simpa using h
        · split at h
          · exact absurd h (by simp)
          · simpa using h
          next c' taken rest hrun =>
            obtain ⟨used, -, hused, -, -⟩ := taken_readMore h
            have hstop := congrArg List.length (append_of_run hrun)
            have hlonger := congrArg List.length hused
            simp only [List.length_append, List.length_cons] at hstop hlonger hbehind
            omega
      obtain ⟨rfl, rfl, rfl⟩ := hsame
      exact ⟨hbreak, rfl, hline hne, hcomment⟩
    · obtain ⟨between, lines, hsplit, hline, hlocal⟩ := (Gap.local_read margin {}).taken hgap
      obtain ⟨behind, hbehindNe, rfl, hstop⟩ :=
        split_of_lt (hrest.symm.trans hsplit) (Nat.lt_of_not_le hwithin)
      have hends : IsWhole behind := habove.of_append
      have hfurther : stop ≠ next := fun heq ↦ hwithin (heq ▸ hnext)
      have hsame : SameLine stop.rest (behind ++ indented indent ('#' :: ds)) :=
        hstop ▸ SameLine.append_right (hends.getLast?_eq hbehindNe) _ _
      have hgap' := hlocal _ here.line hsame
      split at h
      · exact absurd (by simpa using h) fun heq : _ ∧ _ ∧ stop = next ↦ hfurther heq.2.2
      next hempty =>
        split at h
        · exact absurd (by simpa using h) fun heq : _ ∧ _ ∧ stop = next ↦ hfurther heq.2.2
        next hstops =>
          split at h
          · exact absurd h (by simp)
          · exact absurd (by simpa using h) fun heq : _ ∧ _ ∧ stop = next ↦ hfurther heq.2.2
          next c' taken rest hrun =>
            obtain ⟨used, hused, hink, -⟩ := (local_run flow).taken hrun
            obtain rfl : c' :: taken = used :=
              List.append_cancel_right ((append_of_run hrun).trans hused)
            obtain ⟨behind', hne', rfl, rfl⟩ := split_of_inline hends hbehindNe
                (hstop.symm.trans hused)
              fun d hd ↦ isBreak_eq_false_of_isInk (hink d hd)
            have hends' : IsWhole behind' := hends.of_append
            have hshort : (behind' ++ indented column (c :: cs)).length < length := by
              rw [← hlength, hrest]
              simp only [List.length_append, List.length_cons]
              omega
            obtain ⟨hbroken, hplace, hlt, hmore⟩ := ih _ hshort hends' hne' rfl h rfl
            refine ⟨hbroken, hplace, by simp only at hlt; omega, ?_⟩
            rw [List.append_assoc, readMore_of_gap hgap', if_neg hempty, stopsAt_eq hsame,
              if_neg hstops, List.append_assoc,
              taken_run hrun (.append_right (hends'.getLast?_eq hne') _ _), ← hline]
            exact hmore

/-- A scalar in front of a comment and a token on lines of their own is the same as without the
comment. -/
theorem read_comment (hc : IsInk c) (habove : IsWhole above) (hne : above ≠ [])
    (hrest : here.rest = above ++ indented column (c :: cs))
    (h : read flow margin here = some (out, broken, next))
    (hnext : next.rest.length ≤ (indented column (c :: cs)).length)
    (hbehind : (c :: cs).length ≤ next.rest.length) (ds : List Char) :
    broken = true ∧ next = ⟨c :: cs, next.line, column⟩ ∧ here.line < next.line ∧
      read flow margin ⟨above ++ indented indent ('#' :: ds), here.line, here.column⟩ =
        some (out, true, ⟨'#' :: ds, next.line, indent⟩) := by
  simp only [read, Option.bind_eq_bind, Option.bind_eq_some_iff, Prod.exists] at h
  obtain ⟨taken, rest, hrun, hmore⟩ := h
  obtain ⟨used, hused, hink, -⟩ := (local_run flow).taken hrun
  obtain rfl : taken = used := List.append_cancel_right ((append_of_run hrun).trans hused)
  obtain ⟨behind, hne', rfl, rfl⟩ := split_of_inline habove hne (hrest.symm.trans hused)
    fun d hd ↦ isBreak_eq_false_of_isInk (hink d hd)
  have hends : IsWhole behind := habove.of_append
  obtain ⟨hbroken, hplace, hlt, hread⟩ := readMore_comment hc hends hne' rfl hmore hnext hbehind
  refine ⟨hbroken, hplace, hlt, ?_⟩
  rw [List.append_assoc, read, taken_run hrun (.append_right (hends.getLast?_eq hne') _ _)]
  exact hread

end Plain

/-! ### Block scalars -/

namespace Block

variable {limit : Option Nat} {deepest line : Nat} {breaks : List Char} {here next start : Cursor}

/-- The column at which indentation ends. -/
def indentTo (limit : Option Nat) (column : Nat) : Nat := limit.elim column (min column)

/-- Spaces up to the indentation of a block scalar are passed over in front of its content. -/
theorem readBlank_indented (hd : IsInk d) (limit : Option Nat) (breaks : List Char)
    (deepest line column : Nat) (ds : List Char) :
    readBlank limit (indented column (d :: ds)) breaks deepest line 0 =
      some (breaks, max deepest (indentTo limit column),
        ⟨indented (column - indentTo limit column) (d :: ds), line, indentTo limit column⟩) := by
  have hspaces (n start : Nat) (hlimit : limit.all (start ≤ ·)) (hcolumn : start + n = column) :
      readBlank limit (List.replicate n ' ' ++ d :: ds) breaks deepest line start =
        some (breaks, max deepest (indentTo limit column),
          ⟨indented (column - indentTo limit column) (d :: ds), line, indentTo limit column⟩) := by
    induction n generalizing start with
    | zero =>
      have hbreak := isBreak_eq_false_of_isInk hd
      have hspace : d ≠ ' ' := by rintro rfl; exact absurd hd (by decide)
      have htab : d ≠ '\t' := by rintro rfl; exact absurd hd (by decide)
      obtain rfl : start = column := hcolumn
      have hend : indentTo limit start = start := by
        cases limit with
        | none => rfl
        | some n => exact Nat.min_eq_left (by simpa using hlimit)
      simp [readBlank, hbreak, hspace, htab, hend, indented]
    | succ n ih =>
      rw [List.replicate_succ, List.cons_append, readBlank, if_neg (by decide)]
      by_cases hindent : limit.all (start < ·) = true
      · rw [if_pos ⟨rfl, hindent⟩]
        refine ih (start + 1) ?_ (by omega)
        simpa [Nat.succ_le_iff] using hindent
      · obtain ⟨m, rfl, hm⟩ : ∃ m, limit = some m ∧ ¬start < m := by
          cases limit with
          | none => exact absurd rfl hindent
          | some m => exact ⟨m, rfl, by simpa using hindent⟩
        have hstart : start ≤ m := by simpa using hlimit
        have hend : indentTo (some m) column = start := by
          simp only [indentTo, Option.elim_some]
          omega
        have hrest : column - start = n + 1 := by omega
        rw [if_neg (by simp [hm]), if_neg (by simp), hend, hrest, indented, List.replicate_succ,
          List.cons_append]
  exact hspaces column 0 (by simp) (Nat.zero_add column)

/-- What is read beyond some lines does not depend on what follows them. -/
theorem readBlank_beyond {column column' : Nat} {breaks' : List Char} (habove : IsWhole above)
    (hnil : above = [] → column = 0)
    (h : readBlank limit (above ++ below) breaks deepest line column =
      some (breaks', column', next))
    (hnext : next.rest.length ≤ below.length) :
    ∃ breaks'' deepest' line', line ≤ line' ∧
      ∀ tail, readBlank limit (above ++ tail) breaks deepest line column =
        readBlank limit tail breaks'' deepest' line' 0 := by
  induction above generalizing breaks deepest line column with
  | nil =>
    obtain rfl := hnil rfl
    exact ⟨_, _, _, Nat.le_refl _, fun _ ↦ rfl⟩
  | cons c above ih =>
    have hbehind : IsWhole above := habove.tail
    rw [List.cons_append, readBlank] at h
    by_cases hbreak : isBreak c = true
    · rw [if_pos hbreak] at h
      obtain ⟨breaks'', deepest', line', hle, hread⟩ := ih hbehind (fun _ ↦ rfl) h
      refine ⟨breaks'', deepest', line', by omega, fun tail ↦ ?_⟩
      rw [List.cons_append, readBlank, if_pos hbreak, hread]
    rw [if_neg hbreak] at h
    have hmore : above ≠ [] := by
      rintro rfl
      obtain rfl := habove.eq_newline
      exact hbreak (by decide)
    by_cases hspace : c = ' ' ∧ limit.all (column < ·) = true
    · rw [if_pos hspace] at h
      obtain ⟨breaks'', deepest', line', hle, hread⟩ :=
        ih hbehind (fun hnil ↦ absurd hnil hmore) h
      refine ⟨breaks'', deepest', line', hle, fun tail ↦ ?_⟩
      rw [List.cons_append, readBlank, if_neg hbreak, if_pos hspace, hread]
    rw [if_neg hspace] at h
    split at h
    · exact absurd h (by simp)
    · obtain ⟨-, -, rfl⟩ : breaks = breaks' ∧ max deepest column = column' ∧
          (⟨c :: (above ++ below), line, column⟩ : Cursor) = next := by simpa using h
      simp only [List.length_cons, List.length_append] at hnext
      omega

/-- Where the next line stands in front of which the lines of a text end depends only on its
indentation. -/
theorem nextContent_beyond {deepest : Nat} (habove : IsWhole above) (hne : above ≠ [])
    (hrest : here.rest = above ++ below)
    (h : nextContent limit here = some ((breaks, deepest), start))
    (hstart : start.rest.length ≤ below.length) :
    ∃ breaks' deepest' line', here.line < line' ∧ ∀ column d ds, IsInk d →
      nextContent limit ⟨above ++ indented column (d :: ds), here.line, here.column⟩ =
        some ((breaks', max deepest' (indentTo limit column)),
          ⟨indented (column - indentTo limit column) (d :: ds), line', indentTo limit column⟩) := by
  obtain ⟨c, above, rfl⟩ := List.exists_cons_of_ne_nil hne
  obtain ⟨⟨breaks', column', stop⟩, hread, heq⟩ := Option.map_eq_some_iff.mp h
  obtain ⟨-, rfl⟩ := Prod.mk.inj heq
  have hend (tail : List Char) : Cursor.endLine ⟨c :: (above ++ tail), here.line, here.column⟩ =
      ⟨above ++ tail, here.line + 1, 0⟩ := rfl
  have hhere : here.endLine = ⟨above ++ below, here.line + 1, 0⟩ := by
    rw [Cursor.endLine, Cursor.nextLine, hrest]
    rfl
  rw [hhere] at hread
  obtain ⟨breaks'', deepest', line', hle, hbeyond⟩ :=
    readBlank_beyond habove.tail (fun _ ↦ rfl) hread hstart
  refine ⟨breaks'', deepest', line', hle, fun column d ds hd ↦ ?_⟩
  rw [nextContent, List.cons_append, hend, hbeyond, readBlank_indented hd]
  rfl

section Lines

variable {folded spaced : Bool} {chomp : Chomp} {margin base : Nat}
  {lead blank out word : List Char}

/-- A line at the indentation of a scalar belongs to it. -/
theorem readLines_past (hc : IsInk c) (hcolumn : here.column = indent)
    (hrest : here.rest = indented column (c :: cs))
    (h : readLines folded chomp indent word lead blank spaced here = some (out, next)) :
    next.rest.length < (c :: cs).length := by
  have hbreak : isBreak c = false := isBreak_eq_false_of_isInk hc
  have hspace : ∀ d ∈ List.replicate column ' ', (!isBreak d) = true := by
    intro d hd
    rw [List.eq_of_mem_replicate hd]
    rfl
  have hline : lineOf here.rest = List.replicate column ' ' ++ c :: lineOf cs := by
    rw [lineOf, hrest, indented, List.takeWhile_append_of_pos hspace,
      List.takeWhile_cons_of_pos (by simp [hbreak])]
    rfl
  have hbehind : (here.skip (lineOf here.rest).length).rest = cs.dropWhile (!isBreak ·) := by
    rw [Cursor.skip, lineOf, Scan.drop_length_takeWhile, hrest, indented,
      List.dropWhile_append_of_pos hspace, List.dropWhile_cons_of_pos (by simp [hbreak])]
  rw [readLines_line (by simp [hcolumn, hline])] at h
  obtain ⟨⟨⟨breaks, deepest⟩, start⟩, hcontent, hmore⟩ := Option.bind_eq_some_iff.mp h
  simp only at hmore
  split at hmore
  next =>
    obtain ⟨between, _, hbetween, -, -⟩ := (local_nextContent _).taken hcontent
    obtain ⟨used, _, hused, -, -⟩ := local_readLines.taken hmore
    have hdrop := (List.dropWhile_sublist (fun d ↦ !isBreak d) (l := cs)).length_le
    have hlength := congrArg List.length hbehind
    rw [hbetween, hused] at hlength
    simp only [List.length_append, List.length_cons] at hlength ⊢
    omega
  next => exact absurd hmore (by simp)

/-- A line of a scalar, where the text goes on otherwise behind its line break. -/
theorem readLines_line_append {content : Nat} (hbehind : IsWhole behind) (hne : behind ≠ [])
    (hstop : ¬(here.column ≠ content ∨ (lineOf here.rest).isEmpty))
    (hrest : here.rest = lineOf here.rest ++ (behind ++ below)) (tail : List Char)
    (hcontent : nextContent (some content)
        ⟨behind ++ tail, here.line, here.column + (lineOf here.rest).length⟩ =
      some ((breaks, deepest), start))
    (hshort : start.rest.length < (lineOf here.rest ++ (behind ++ tail)).length) :
    readLines folded chomp content word lead blank spaced
        ⟨lineOf here.rest ++ (behind ++ tail), here.line, here.column⟩ =
      readLines folded chomp content
        (word ++ joint folded lead blank (lineOf here.rest) spaced ++ blank ++ lineOf here.rest)
        (behind.take 1) breaks ((lineOf here.rest).head?.any isGap) start := by
  have hsame : SameLine here.rest (lineOf here.rest ++ (behind ++ tail)) := by
    conv => arg 1; rw [hrest]
    exact (SameLine.append_right (hbehind.getLast?_eq hne) below tail).append_left _
  have hline : lineOf (lineOf here.rest ++ (behind ++ tail)) = lineOf here.rest :=
    hsame.takeWhile_eq fun c hc ↦ by simp [hc]
  have hskip : Cursor.skip (lineOf here.rest).length
      ⟨lineOf here.rest ++ (behind ++ tail), here.line, here.column⟩ =
        ⟨behind ++ tail, here.line, here.column + (lineOf here.rest).length⟩ := by
    rw [Cursor.skip, List.drop_left]
  have hfirst : (behind ++ tail).take 1 = behind.take 1 :=
    List.take_append_of_le_length (List.length_pos_of_ne_nil hne)
  rw [readLines_line (by simpa only [hline] using hstop)]
  simp only [hline, hskip, hcontent, Option.bind_some, if_pos hshort, hfirst]

/-- A block scalar in front of a comment and a token on lines of their own ends in front of both if
the comment is not indented deeper than the token. -/
theorem readLines_comment (hc : IsInk c) (hle : indent ≤ column) {content : Nat}
    (habove : IsWhole above) (hne : above ≠ [])
    (hrest : here.rest = above ++ indented column (c :: cs))
    (h : readLines folded chomp content word lead blank spaced here = some (out, next))
    (hnext : next.rest.length ≤ (indented column (c :: cs)).length)
    (hlength : (c :: cs).length ≤ next.rest.length) :
    next = ⟨c :: cs, next.line, column⟩ ∧ here.line < next.line ∧
      readLines folded chomp content word lead blank spaced
        ⟨above ++ indented indent ('#' :: ds), here.line, here.column⟩ =
          some (out, ⟨'#' :: ds, next.line, indent⟩) := by
  induction hsize : here.rest.length using Nat.strongRecOn
    generalizing here above word lead blank spaced with
  | ind size ih =>
    by_cases hstop : here.column ≠ content ∨ (lineOf here.rest).isEmpty
    · rw [readLines_stop hstop] at h
      obtain ⟨-, rfl⟩ := Prod.mk.inj (Option.some.inj h)
      have hpos := List.length_pos_of_ne_nil hne
      rw [hrest, List.length_append] at hnext
      omega
    rw [readLines_line hstop] at h
    obtain ⟨⟨⟨breaks, deepest⟩, start⟩, hcontent, hmore⟩ := Option.bind_eq_some_iff.mp h
    simp only at hmore
    split at hmore
    next hshort =>
      have hskip : (here.skip (lineOf here.rest).length).rest = here.rest.dropWhile (!isBreak ·) :=
        Scan.drop_length_takeWhile _ _
      have hsplit : above ++ indented column (c :: cs) =
          lineOf here.rest ++ (here.skip (lineOf here.rest).length).rest := by
        rw [hskip, lineOf, List.takeWhile_append_dropWhile, hrest]
      obtain ⟨behind, hne', habove', hbehind⟩ := split_of_inline habove hne hsplit
        fun d hd ↦ by simpa using List.mem_takeWhile_imp hd
      have hends : IsWhole behind := (habove' ▸ habove).of_append
      have hmid : here.skip (lineOf here.rest).length =
          ⟨behind ++ indented column (c :: cs), here.line,
            here.column + (lineOf here.rest).length⟩ := by
        rw [← hbehind]
        rfl
      have hrest' : here.rest = lineOf here.rest ++ (behind ++ indented column (c :: cs)) := by
        rw [← hbehind, ← hsplit, hrest]
      have hfirst : (behind ++ indented column (c :: cs)).take 1 = behind.take 1 :=
        List.take_append_of_le_length (List.length_pos_of_ne_nil hne')
      have hpos := List.length_pos_of_ne_nil hne'
      have hline : 0 < (lineOf here.rest).length := List.length_pos_of_ne_nil fun hnil ↦
        hstop (.inr (List.isEmpty_iff.mpr hnil))
      rw [hmid] at hcontent hmore
      rw [hfirst] at hmore
      by_cases hwithin : start.rest.length ≤ (indented column (c :: cs)).length
      -- The line was the last one of the scalar.
      · obtain ⟨breaks', deepest', line, hlt, hcolumns⟩ :=
          nextContent_beyond hends hne' rfl hcontent hwithin
        obtain ⟨hblank, rfl⟩ :=
          Prod.mk.inj (Option.some.inj (hcontent.symm.trans (hcolumns column c cs hc)))
        obtain ⟨rfl, -⟩ := Prod.mk.inj hblank
        have hleft : indentTo (some content) column ≠ content := fun heq ↦
          absurd (readLines_past hc heq rfl hmore) (Nat.not_lt_of_le hlength)
        simp only [indentTo, Option.elim_some] at hleft
        have hcolumn : indentTo (some content) column = column := by
          simp only [indentTo, Option.elim_some]
          omega
        have hindent : indentTo (some content) indent = indent := by
          simp only [indentTo, Option.elim_some]
          omega
        have hcomment := hcolumns indent '#' ds rfl
        rw [hcolumn, Nat.sub_self, readLines_stop (.inl (by simp only; omega))] at hmore
        rw [hindent, Nat.sub_self] at hcomment
        obtain ⟨rfl, rfl⟩ := Prod.mk.inj (Option.some.inj hmore)
        refine ⟨rfl, hlt, ?_⟩
        rw [habove', List.append_assoc,
          readLines_line_append hends hne' hstop hrest' _ hcomment (by simp [indented]; omega),
          readLines_stop (.inl (by simp only; omega))]
        rfl
      · obtain ⟨between, lines, hbetween, hlines, hlocal⟩ := (local_nextContent _).taken hcontent
        obtain ⟨behind', hne'', rfl, hstart⟩ := split_of_lt hbetween (Nat.lt_of_not_le hwithin)
        have hends' : IsWhole behind' := hends.of_append
        have hcomment := hlocal _ here.line
          (hstart ▸ SameLine.append_right (hends'.getLast?_eq hne'') _
            (indented indent ('#' :: ds)))
        obtain ⟨hplace, hlt, hread⟩ := ih _ (hsize ▸ hshort) hends' hne'' hstart hmore rfl
        refine ⟨hplace, by simp only at hlines; omega, ?_⟩
        rw [← List.append_assoc] at hcomment
        rw [habove', List.append_assoc,
          readLines_line_append hends hne' hstop hrest' _ hcomment (by simp; omega)]
        rw [← hread, hlines]
    next => exact absurd hmore (by simp)

/-- What is passed over at the end of a line is no line break. -/
theorem used_lineTail? {out : Unit} (h : lineTail? here = some (out, next)) :
    ∃ used, here.rest = used ++ next.rest ∧ ∀ d ∈ used, isBreak d = false := by
  have hgap : ∀ d ∈ here.rest.takeWhile isGap, isBreak d = false := fun d hd ↦
    Bool.eq_false_iff.mpr fun hbreak ↦
      Bool.false_ne_true ((isGap_of_isBreak hbreak).symm.trans (List.mem_takeWhile_imp hd))
  have hrest : here.rest = here.rest.takeWhile isGap ++ (here.skipWhile isGap).rest := by
    rw [Cursor.skipWhile, Cursor.skip, Scan.drop_length_takeWhile, List.takeWhile_append_dropWhile]
  simp only [lineTail?] at h
  generalize here.skipWhile isGap = middle at h hrest
  split_ifs at h
  · obtain ⟨-, rfl⟩ := Prod.mk.inj (Option.some.inj h)
    refine ⟨here.rest.takeWhile isGap ++ middle.rest.takeWhile (!isBreak ·), ?_,
      List.forall_mem_append.mpr ⟨hgap, fun d hd ↦ by simpa using List.mem_takeWhile_imp hd⟩⟩
    rw [Cursor.skipWhile, Cursor.skip, Scan.drop_length_takeWhile, List.append_assoc,
      List.takeWhile_append_dropWhile]
    exact hrest
  · obtain ⟨-, rfl⟩ := Prod.mk.inj (Option.some.inj h)
    exact ⟨_, hrest, hgap⟩

/-- What is passed over behind the mark of a block scalar is no line break. -/
theorem used_headerLine {header : Header} (h : headerLine here = some (header, next)) :
    ∃ used, here.rest = used ++ next.rest ∧ ∀ d ∈ used, isBreak d = false := by
  obtain ⟨⟨header', stop⟩, hheader, h⟩ := Option.bind_eq_some_iff.mp h
  obtain ⟨⟨_, next'⟩, htail, heq⟩ := Option.bind_eq_some_iff.mp h
  obtain ⟨-, rfl⟩ := Prod.mk.inj (Option.some.inj heq)
  obtain ⟨⟨header'', rest⟩, hread, heq⟩ := Option.map_eq_some_iff.mp hheader
  obtain ⟨-, rfl⟩ := Prod.mk.inj heq
  obtain ⟨first, hfirst, hink, -⟩ := local_header?.taken hread
  obtain ⟨second, hsecond, hbreak⟩ := used_lineTail? htail
  have hrest : (here.skip (here.rest.length - rest.length)).rest = rest := by
    simp [Cursor.skip, hfirst]
  rw [hrest] at hsecond
  exact ⟨first ++ second, by rw [hfirst, hsecond, List.append_assoc],
    List.forall_mem_append.mpr ⟨fun d hd ↦ isBreak_eq_false_of_isInk (hink d hd), hbreak⟩⟩

/-- The indentation of a scalar without lines is that of neither the line behind it nor a comment
that is not indented deeper. -/
theorem indentTo_of_ne {deepest : Nat} (hle : indent ≤ column)
    (h : indentTo limit column ≠
      limit.getD (max (max (max deepest (indentTo limit column)) margin) 1)) :
    indentTo limit column = column ∧ indentTo limit indent = indent ∧
      indent ≠ limit.getD (max (max (max deepest indent) margin) 1) := by
  cases limit with
  | none =>
    simp only [indentTo, Option.elim_none, Option.getD_none] at h ⊢
    have hlt : column < max (max deepest margin) 1 := by omega
    exact ⟨trivial, trivial, by omega⟩
  | some n =>
    simp only [indentTo, Option.elim_some, Option.getD_some] at h ⊢
    omega

/-- A block scalar in front of a comment and a token on lines of their own is the same as without
the comment if that is not indented deeper than the token. -/
theorem read_comment {mark : Char} (hc : IsInk c) (hle : indent ≤ column)
    (habove : IsWhole above) (hne : above ≠ [])
    (hrest : here.rest = mark :: (above ++ indented column (c :: cs)))
    (h : read folded base margin here = some (out, next))
    (hnext : next.rest.length ≤ (indented column (c :: cs)).length)
    (hlength : (c :: cs).length ≤ next.rest.length) (ds : List Char) :
    next = ⟨c :: cs, next.line, column⟩ ∧ here.line < next.line ∧
      read folded base margin
        ⟨mark :: (above ++ indented indent ('#' :: ds)), here.line, here.column⟩ =
          some (out, ⟨'#' :: ds, next.line, indent⟩) := by
  rw [read_eq folded base margin hrest] at h
  obtain ⟨⟨header, stop⟩, hheader, h⟩ := Option.bind_eq_some_iff.mp h
  obtain ⟨⟨⟨breaks, deepest⟩, start⟩, hcontent, hmore⟩ := Option.bind_eq_some_iff.mp h
  simp only at hcontent hmore
  have hskip (tail : List Char) : Cursor.skip 1 ⟨mark :: tail, here.line, here.column⟩ =
      ⟨tail, here.line, here.column + 1⟩ := rfl
  have hhere : here.skip 1 =
      ⟨above ++ indented column (c :: cs), here.line, here.column + 1⟩ := by
    rw [Cursor.skip, hrest]
    rfl
  rw [hhere] at hheader
  obtain ⟨used, hused, hbreak⟩ := used_headerLine hheader
  obtain ⟨behind, hne', rfl, hbehind⟩ := split_of_inline habove hne hused hbreak
  have hends : IsWhole behind := habove.of_append
  obtain ⟨used', lines, hused', hlines, hlocal⟩ := local_headerLine.taken hheader
  obtain rfl : used = used' := List.append_cancel_right (hused.symm.trans hused')
  have hheader' := hlocal _ here.line
    (hbehind ▸ SameLine.append_right (hends.getLast?_eq hne') _ (indented indent ('#' :: ds)))
  rw [List.append_assoc, read_eq folded base margin rfl, hskip, hheader', Option.bind_some]
  have hstop : stop = ⟨behind ++ indented column (c :: cs), here.line + lines, stop.column⟩ := by
    rw [← hbehind, ← hlines]
  by_cases hwithin : start.rest.length ≤ (indented column (c :: cs)).length
  -- The scalar has no line at all.
  · obtain ⟨breaks', deepest', line, hlt, hcolumns⟩ :=
      nextContent_beyond hends hne' hbehind hcontent hwithin
    have hcomment := hcolumns indent '#' ds rfl
    have hplace := hcolumns column c cs hc
    rw [← hbehind] at hplace
    obtain ⟨hblank, rfl⟩ := Prod.mk.inj (Option.some.inj (hcontent.symm.trans hplace))
    obtain ⟨rfl, rfl⟩ := Prod.mk.inj hblank
    generalize header.indent.map (base + ·) = limit at hmore hcomment hplace ⊢
    have hleft : indentTo limit column ≠
        limit.getD (max (max (max deepest' (indentTo limit column)) margin) 1) := fun heq ↦
      absurd (readLines_past hc heq rfl hmore) (Nat.not_lt_of_le hlength)
    obtain ⟨hcolumn, hindent, hleft'⟩ := indentTo_of_ne hle hleft
    rw [readLines_stop (.inl hleft)] at hmore
    obtain ⟨rfl, rfl⟩ := Prod.mk.inj (Option.some.inj hmore)
    rw [hlines, hindent, Nat.sub_self] at hcomment
    refine ⟨by rw [hcolumn, Nat.sub_self]; rfl, by simp only at hlines ⊢; omega, ?_⟩
    rw [hcomment, Option.bind_some, readLines_stop (.inl hleft')]
    rfl
  · obtain ⟨between, lines', hbetween, hlines', hlocal'⟩ := (local_nextContent _).taken hcontent
    obtain ⟨behind', hne'', rfl, hstart⟩ :=
      split_of_lt (hbehind.symm.trans hbetween) (Nat.lt_of_not_le hwithin)
    have hends' : IsWhole behind' := hends.of_append
    have hcontent' := hlocal' _ (here.line + lines)
      (hstart ▸ SameLine.append_right (hends'.getLast?_eq hne'') _ (indented indent ('#' :: ds)))
    obtain ⟨hplace, hlt, hread⟩ := readLines_comment hc hle hends' hne'' hstart hmore hnext hlength
    refine ⟨hplace, by simp only at hlines hlines'; omega, ?_⟩
    rw [List.append_assoc, hcontent', Option.bind_some, ← hread, hlines', hlines]

end Lines

end Block

end AlertAudit.Yaml
