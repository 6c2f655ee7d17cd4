import AlertAudit.Diagnostic.Extent
import AlertAudit.Proofs.Text.Lines
import AlertAudit.Proofs.Text.Span

/-!
Where a run of lines is marked in its text. Bytes are counted along whole lines
(`startOf_of_isFrontOf`), so the text can be cut in front of the first line of the run and of the
last one (`exists_cuts`); what is marked stands between the indentation of the one and the line
break of the other. It is never empty, and shows as many lines as the run has
(`extent_of_le_lines`).
-/

set_option autoImplicit false

namespace AlertAudit.LineRange

open AlertAudit.Text

/-! ### Bytes of lines -/

/-- A line begins behind the bytes in front of it. -/
theorem startOf_of_isFrontOf {line : Nat} {front : List Char} (h : IsFrontOf line front)
    (rest : List Char) : startOf line (front ++ rest) = utf8Length front := by
  obtain ⟨rfl, hwhole⟩ := h
  induction front with
  | nil =>
    cases rest with
    | nil => rfl
    | cons c rest => rfl
  | cons c front ih =>
    have hbreak : 0 < (c :: front).count '\n' :=
      List.count_pos_iff.mpr (List.mem_of_getLast? (hwhole.resolve_left (List.cons_ne_nil c front)))
    rw [List.cons_append, startOf, if_neg (by omega), utf8Length_cons, ← ih hwhole.tail]
    by_cases hc : c = '\n'
    · rw [if_pos hc, hc, List.count_cons_self, Nat.add_sub_cancel]
    · rw [if_neg hc, List.count_cons_of_ne hc]

/-- A line ends in front of its line break. -/
theorem stopOf_of_isFrontOf {line : Nat} {front : List Char} (h : IsFrontOf line front)
    (rest : List Char) :
    stopOf line (front ++ rest) = utf8Length (front ++ rest.takeWhile (· ≠ '\n')) := by
  have hline : line ≠ 0 := by
    rw [← h.count]
    exact Nat.succ_ne_zero _
  have hdrop := dropBytes_append_left front rest 0
  rw [Nat.zero_add, dropBytes] at hdrop
  rw [stopOf, if_neg hline, startOf_of_isFrontOf h, hdrop, utf8Length_append]

/-- An indentation takes a byte for each of its characters. -/
theorem utf8Length_takeWhile_isIndent (cs : List Char) :
    utf8Length (cs.takeWhile isIndent) = (cs.takeWhile isIndent).length := by
  induction cs with
  | nil => rfl
  | cons c cs ih =>
    by_cases hc : isIndent c
    · have hsize : c.utf8Size = 1 := by
        rcases Bool.or_eq_true_iff.mp hc with hc | hc <;> rw [of_decide_eq_true hc] <;> rfl
      rw [List.takeWhile_cons_of_pos hc, utf8Length_cons, hsize, ih, List.length_cons, Nat.add_comm]
    · rw [List.takeWhile_cons_of_neg hc]
      rfl

/-! ### The cuts -/

/-- A text is cut in front of the first line of a run, in front of the last one, and behind the text
of that one, where only a line break or the end of the text can follow. -/
structure Cuts (r : LineRange) (cs front between line back : List Char) : Prop where
  text_eq : cs = front ++ (between ++ (line ++ back))
  isFrontOf_first : IsFrontOf r.first front
  isFrontOf_last : IsFrontOf r.last (front ++ between)
  isWhole_between : IsWhole between
  line_noBreak : '\n' ∉ line
  head?_back : ∀ c ∈ back.head?, c = '\n'
  ne_nil : line ++ back ≠ []

/-- The text can be cut around every run of its lines. -/
theorem exists_cuts {source : String} {r : LineRange} (hfirst : 1 ≤ r.first)
    (hle : r.first ≤ r.last) (hlast : r.last ≤ (Text.lines source).length) :
    ∃ front between line back, Cuts r source.toList front between line back := by
  obtain ⟨front, behind, hfront, hwhole, hlines⟩ :=
    @exists_drop_linesFrom 1 (r.first - 1) source.toList (by
      rw [← Text.lines]
      omega)
  rw [← Text.lines] at hlines
  have hcount : (linesFrom (1 + (r.first - 1)) behind).length =
      (Text.lines source).length - (r.first - 1) := by rw [hlines, List.length_drop]
  obtain ⟨between, rest, rfl, hbetween, hrest⟩ :=
    exists_drop_linesFrom (k := r.last - r.first) (by rw [hcount]; omega)
  have hsplit := List.takeWhile_append_dropWhile (p := (· ≠ '\n')) (l := rest)
  refine ⟨front, between, rest.takeWhile (· ≠ '\n'), rest.dropWhile (· ≠ '\n'),
    by rw [hsplit]; exact hfront, ⟨by rw [hwhole.count]; omega, hwhole.whole⟩, ⟨?_, ?_⟩,
    hbetween.whole, fun hmem ↦ ?_, fun c hc ↦ ?_, ?_⟩
  · have hfirst' := hwhole.count
    have hlast' := hbetween.count
    rw [List.count_append]
    omega
  · exact hwhole.whole.append hbetween.whole
  · simpa using List.mem_takeWhile_imp hmem
  · have hhead := List.head?_dropWhile_not (· ≠ '\n') rest
    rw [Option.mem_def.mp hc] at hhead
    simpa using hhead
  · rw [hsplit]
    rintro rfl
    have hlength := congrArg List.length hrest
    rw [List.length_drop, hcount, linesFrom, List.length_nil] at hlength
    omega

namespace Cuts

variable {r : LineRange} {cs front between line back : List Char}
  (h : Cuts r cs front between line back)

include h

/-- A run begins at the first cut. -/
theorem startOf_first : startOf r.first cs = utf8Length front := by
  rw [h.text_eq, startOf_of_isFrontOf h.isFrontOf_first]

/-- A run ends at the last cut. -/
theorem stopOf_last : stopOf r.last cs = utf8Length (front ++ (between ++ line)) := by
  have htake : (line ++ back).takeWhile (· ≠ '\n') = line := by
    rw [List.takeWhile_append_of_pos fun c hc ↦
      decide_eq_true (ne_of_mem_of_not_mem hc h.line_noBreak)]
    cases hback : back with
    | nil => simp
    | cons c back =>
      have hc : c = '\n' := h.head?_back c (by rw [hback]; rfl)
      rw [List.takeWhile_cons_of_neg (by simp [hc]), List.append_nil]
  rw [h.text_eq, ← List.append_assoc front, stopOf_of_isFrontOf h.isFrontOf_last, htake,
    List.append_assoc]

/-- Between the two cuts stands what may be marked. -/
theorem slice_eq : Span.slice ⟨utf8Length front, utf8Length (front ++ (between ++ line))⟩ cs =
    between ++ line := by
  refine Span.Covers.slice_eq ⟨front, back, ?_, rfl⟩
  rw [h.text_eq]
  simp only [List.append_assoc]

/-- As many line breaks stand between the cuts as the run has lines behind its first one. -/
theorem count_between : between.count '\n' + r.first = r.last := by
  rw [← h.isFrontOf_first.count, ← h.isFrontOf_last.count, List.count_append]
  omega

/-- The line at which a run of one line stands is empty if nothing stands between the cuts. -/
theorem eq_of_nil (hnil : between ++ line = []) :
    r.first = r.last ∧ ∃ rest, back = '\n' :: rest := by
  obtain ⟨rfl, rfl⟩ := List.append_eq_nil_iff.mp hnil
  refine ⟨by simpa using h.count_between, ?_⟩
  obtain ⟨c, rest, hback⟩ := List.exists_cons_of_ne_nil h.ne_nil
  rw [List.nil_append] at hback
  rw [hback, h.head?_back c (by rw [hback]; rfl)]
  exact ⟨rest, rfl⟩

/-- Of what may be marked, the indentation is left out, unless there is nothing else; where there is
nothing at all, one byte is marked. -/
theorem extent_eq : r.extent cs =
    if between ++ line = [] then ⟨utf8Length front, utf8Length front + 1⟩
    else if (between ++ line).dropWhile isIndent = [] then
      ⟨utf8Length front, utf8Length (front ++ (between ++ line))⟩
    else ⟨utf8Length (front ++ (between ++ line).takeWhile isIndent),
      utf8Length (front ++ (between ++ line))⟩ := by
  have hstop : max (utf8Length (front ++ (between ++ line))) (utf8Length front) =
      utf8Length (front ++ (between ++ line)) := by
    rw [utf8Length_append]
    omega
  have hindent := utf8Length_takeWhile_isIndent (between ++ line)
  have hsplit := congrArg utf8Length
    (List.takeWhile_append_dropWhile (p := isIndent) (l := between ++ line))
  rw [utf8Length_append] at hsplit
  have hshown := @utf8Length_eq_zero_iff (between ++ line)
  have hbehind := @utf8Length_eq_zero_iff ((between ++ line).dropWhile isIndent)
  simp only [extent, h.startOf_first, h.stopOf_last, hstop, h.slice_eq, ← hindent]
  rw [utf8Length_append front (between ++ line), utf8Length_append front (List.takeWhile _ _)]
  by_cases hnil : between ++ line = []
  · have hback : utf8Length front + 1 ≤ utf8Length cs := by
      obtain ⟨-, rest, hrest⟩ := h.eq_of_nil hnil
      have hcs : cs = front ++ '\n' :: rest := by
        rw [h.text_eq, hrest, ← List.append_assoc between, hnil, List.nil_append]
      rw [hcs, utf8Length_append, utf8Length_cons]
      have hpos := Char.utf8Size_pos '\n'
      omega
    have hzero := hshown.mpr hnil
    rw [if_neg (by omega), if_neg (by omega), if_pos hnil, Nat.min_eq_left hback]
  · have hpos : utf8Length (between ++ line) ≠ 0 := mt hshown.mp hnil
    rw [if_neg hnil]
    by_cases hblank : (between ++ line).dropWhile isIndent = []
    · have hzero := hbehind.mpr hblank
      rw [if_neg (by omega), if_pos (by omega), if_pos hblank]
    · have hrest : utf8Length ((between ++ line).dropWhile isIndent) ≠ 0 := mt hbehind.mp hblank
      rw [if_pos (by omega), if_neg hblank]

/-- The extent covers what is shown behind an indentation. -/
theorem exists_shown : ∃ indent shown back', cs = front ++ indent ++ shown ++ back' ∧
    r.extent cs = ⟨utf8Length (front ++ indent), utf8Length (front ++ indent ++ shown)⟩ ∧
    (∀ c ∈ indent, isIndent c) ∧ shown ≠ [] ∧
    (between ++ line = [] → indent = [] ∧ shown = ['\n']) ∧
    (between ++ line ≠ [] → indent ++ shown = between ++ line) := by
  have htext : cs = front ++ (between ++ line) ++ back := by
    rw [h.text_eq]
    simp only [List.append_assoc]
  rw [h.extent_eq]
  by_cases hnil : between ++ line = []
  · obtain ⟨-, rest, hrest⟩ := h.eq_of_nil hnil
    rw [hnil, hrest, List.append_nil] at htext
    rw [if_pos hnil]
    refine ⟨[], ['\n'], rest, by simpa using htext, ?_, by simp, by simp, by simp,
      fun hne ↦ absurd hnil hne⟩
    rw [List.append_nil, utf8Length_append]
    rfl
  · rw [if_neg hnil]
    by_cases hblank : (between ++ line).dropWhile isIndent = []
    · rw [if_pos hblank]
      refine ⟨[], between ++ line, back, ?_, ?_, by simp, hnil, fun hnil' ↦ absurd hnil' hnil,
        fun _ ↦ rfl⟩
      · rwa [List.append_nil]
      · rw [List.append_nil]
    · rw [if_neg hblank]
      have hsplit := List.takeWhile_append_dropWhile (p := isIndent) (l := between ++ line)
      refine ⟨_, _, back, ?_, ?_, fun c hc ↦ List.mem_takeWhile_imp hc, hblank,
        fun hnil' ↦ absurd hnil' hnil, fun _ ↦ hsplit⟩
      · rwa [List.append_assoc front, hsplit]
      · rw [List.append_assoc front, hsplit]

end Cuts

/-! ### The extent -/

/-- Nothing stands on the line but its line break. -/
def IsEmptyLine (line : Nat) (cs : List Char) : Prop :=
  ∃ front back, IsFrontOf line front ∧ cs = front ++ '\n' :: back

/-- What stands in front of a line is told by its number. -/
theorem eq_of_isFrontOf {n : Nat} {front front' rest rest' : List Char} (h : IsFrontOf n front)
    (h' : IsFrontOf n front') (heq : front ++ rest = front' ++ rest') :
    front = front' ∧ rest = rest' := by
  refine eq_of_utf8Length_eq heq ?_
  rw [← startOf_of_isFrontOf h rest, heq, startOf_of_isFrontOf h']

/-- A run is one empty line if nothing stands between the cuts. -/
theorem Cuts.isEmptyLine_iff {r : LineRange} {cs front between line back : List Char}
    (h : Cuts r cs front between line back) :
    r.first = r.last ∧ IsEmptyLine r.first cs ↔ between ++ line = [] := by
  constructor
  · rintro ⟨hsingle, front', back', hfront', hcs⟩
    have hbetween : between = [] := by
      refine h.isWhole_between.eq_nil ?_
      have hcount := h.count_between
      omega
    obtain ⟨-, hrest⟩ := eq_of_isFrontOf h.isFrontOf_first hfront' (h.text_eq.symm.trans hcs)
    rw [hbetween, List.nil_append] at hrest ⊢
    cases line with
    | nil => rfl
    | cons c line =>
      obtain ⟨rfl, -⟩ := List.cons.inj hrest
      exact absurd List.mem_cons_self h.line_noBreak
  · intro hnil
    obtain ⟨hsingle, rest, hrest⟩ := h.eq_of_nil hnil
    refine ⟨hsingle, front, rest, h.isFrontOf_first, ?_⟩
    rw [h.text_eq, hrest, ← List.append_assoc between, hnil, List.nil_append]

/-- A run of lines of a text is marked from behind the indentation of its first line up to the line
break of its last one, in whole characters. What is marked is not empty: of a single line that holds
nothing it is the line break. (Lines end at `\n`, so a `\r` in front of it counts as text.) -/
theorem extent_of_le_lines {source : String} {r : LineRange} (hfirst : 1 ≤ r.first)
    (hle : r.first ≤ r.last) (hlast : r.last ≤ (Text.lines source).length) :
    (r.extent source.toList).start < (r.extent source.toList).stop ∧
    (r.extent source.toList).stop ≤ source.utf8ByteSize ∧
    lineAt source.toList (r.extent source.toList).start = r.first - 1 ∧
    (¬(r.first = r.last ∧ IsEmptyLine r.first source.toList) →
      lineAt source.toList (r.extent source.toList).stop = r.last - 1) ∧
    ∃ front indent shown back, source.toList = front ++ indent ++ shown ++ back ∧
      r.extent source.toList =
        ⟨utf8Length (front ++ indent), utf8Length (front ++ indent ++ shown)⟩ ∧
      IsFrontOf r.first front ∧ (∀ c ∈ indent, c = ' ' ∨ c = '\t') ∧
      (r.first = r.last ∧ IsEmptyLine r.first source.toList → indent = [] ∧ shown = ['\n']) := by
  obtain ⟨front, between, line, back, hcuts⟩ := exists_cuts hfirst hle hlast
  obtain ⟨indent, shown, back', htext, hextent, hindent, hshown, hempty, hfilled⟩ :=
    hcuts.exists_shown
  have hspaces : ∀ c ∈ indent, c = ' ' ∨ c = '\t' := fun c hc ↦ by
    simpa [isIndent] using hindent c hc
  have hlevel : indent.count '\n' = 0 := by
    refine List.count_eq_zero.mpr fun hmem ↦ ?_
    rcases hspaces _ hmem with h | h <;> exact absurd h (by decide)
  have hfront := hcuts.isFrontOf_first.count
  rw [hcuts.isEmptyLine_iff, hextent]
  refine ⟨?_, ?_, ?_, fun hne ↦ ?_, front, indent, shown, back', htext, rfl,
    hcuts.isFrontOf_first, hspaces, hempty⟩
  · have hpos := mt utf8Length_eq_zero_iff.mp hshown
    rw [utf8Length_append (front ++ indent)]
    exact Nat.lt_add_of_pos_right (Nat.pos_of_ne_zero hpos)
  · rw [← utf8Length_toList, htext, utf8Length_append (front ++ indent ++ shown)]
    exact Nat.le_add_right _ _
  · rw [htext, List.append_assoc (front ++ indent), lineAt_utf8Length, List.count_append, hlevel]
    omega
  · have hlast' := hcuts.isFrontOf_last.count
    have hline := List.count_eq_zero.mpr hcuts.line_noBreak
    rw [htext, lineAt_utf8Length, List.append_assoc, hfilled hne, ← List.append_assoc,
      List.count_append, hline]
    omega

/-- A blank line and an indented one behind a character of two bytes. -/
def blankBeforeItem : String := "ä\n  \n\t- b\n"

/-- The mark of the blank line and the one below begins at the line break of the blank one. -/
theorem extent_of_le_lines_blank : extent ⟨2, 3⟩ blankBeforeItem.toList = ⟨5, 10⟩ ∧
    lineAt blankBeforeItem.toList 5 = 1 ∧ lineAt blankBeforeItem.toList 10 = 2 := by
  have hextent : extent ⟨2, 3⟩ blankBeforeItem.toList = ⟨5, 10⟩ := by decide
  have hlast : 3 ≤ (Text.lines blankBeforeItem).length := by decide +kernel
  obtain ⟨-, -, hstart, hstop, -⟩ :=
    extent_of_le_lines (r := ⟨2, 3⟩) (by decide : 1 ≤ 2) (by decide : 2 ≤ 3) hlast
  rw [hextent] at hstart hstop
  exact ⟨hextent, hstart, hstop fun h ↦ absurd h.1 (by decide)⟩

end AlertAudit.LineRange
