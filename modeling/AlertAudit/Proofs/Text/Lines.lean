import AlertAudit.Text.Lines
import Mathlib.Data.List.TakeWhile

/-!
The lines of a text. They are numbered one by one; a text that ends with a line break can be cut
behind it without touching a line (`linesFrom_append`), and behind any number of its lines there is
such a cut (`exists_drop_linesFrom`). So `IsFrontOf` says what stands in front of a line: as many
whole lines as come before it.
-/

set_option autoImplicit false

namespace AlertAudit.Text

/-- The lines of a text are numbered from that of the first one. -/
theorem map_number_linesFrom (number : Nat) (cs : List Char) :
    (linesFrom number cs).map (·.number) = List.range' number (linesFrom number cs).length := by
  fun_induction linesFrom number cs with
  | case1 => rfl
  | case2 number c cs ih => rw [List.map_cons, List.length_cons, List.range'_succ, ih]

/-- Each line of a text has a number from one to the number of lines. -/
theorem number_of_mem_lines {text : String} {l : Line} (h : l ∈ lines text) :
    1 ≤ l.number ∧ l.number ≤ (lines text).length := by
  have hmem : l.number ∈ (lines text).map (·.number) := List.mem_map_of_mem h
  rw [lines, map_number_linesFrom, List.mem_range'_1] at hmem
  rw [lines]
  omega

/-- A line ends at its line break, and a carriage return in front of that is no part of it. -/
theorem firstLine_of_notMem {line : List Char} (hline : '\n' ∉ line) (rest : List Char) :
    firstLine (line ++ '\n' :: rest) =
      (if line.getLast? = some '\r' then line.dropLast else line, rest) := by
  have htake : (line ++ '\n' :: rest).takeWhile (· ≠ '\n') = line := by
    rw [List.takeWhile_append_of_pos fun c hc ↦ decide_eq_true (ne_of_mem_of_not_mem hc hline)]
    simp
  simp only [firstLine, htake, List.drop_left]

/-- The texts of the lines do not depend on their numbers. -/
theorem map_text_linesFrom (number other : Nat) (cs : List Char) :
    (linesFrom number cs).map (·.text) = (linesFrom other cs).map (·.text) := by
  fun_induction linesFrom number cs generalizing other with
  | case1 => rw [linesFrom]
  | case2 number c cs ih => rw [linesFrom, List.map_cons, List.map_cons, ih]

/-- A text without a line break is one line. -/
theorem firstLine_eq_self {cs : List Char} (hcs : '\n' ∉ cs) : firstLine cs = (cs, []) := by
  have htake : cs.takeWhile (· ≠ '\n') = cs :=
    List.takeWhile_eq_self_iff.mpr fun c hc ↦ decide_eq_true (ne_of_mem_of_not_mem hc hcs)
  simp only [firstLine, htake, List.drop_length]

/-- The lines of a text that ends with a line break, and of what follows it. -/
theorem linesFrom_append {a : List Char} (ha : a = [] ∨ a.getLast? = some '\n') (b : List Char)
    (number : Nat) : linesFrom number (a ++ b) =
      linesFrom number a ++ linesFrom (number + (linesFrom number a).length) b := by
  fun_induction linesFrom number a with
  | case1 => rfl
  | case2 number c cs ih =>
    have hlast : (c :: cs).getLast? = some '\n' := ha.resolve_left (List.cons_ne_nil c cs)
    obtain ⟨line, rest, hcons, hline⟩ :=
      List.eq_append_cons_of_mem (List.mem_of_getLast? hlast)
    have hrest : rest = [] ∨ rest.getLast? = some '\n' := by
      rcases List.eq_nil_or_concat rest with rfl | ⟨front, d, rfl⟩
      · exact .inl rfl
      · rw [hcons, List.getLast?_append, List.getLast?_cons, List.concat_eq_append,
          List.getLast?_concat] at hlast
        exact .inr (by rwa [List.concat_eq_append, List.getLast?_concat])
    have hfirst : firstLine (c :: (cs ++ b)) =
        ((firstLine (c :: cs)).1, (firstLine (c :: cs)).2 ++ b) := by
      rw [← List.cons_append, hcons, List.append_assoc, List.cons_append,
        firstLine_of_notMem hline, firstLine_of_notMem hline]
    have hbehind : (firstLine (c :: cs)).2 = rest := by rw [hcons, firstLine_of_notMem hline]
    rw [List.cons_append, linesFrom, hfirst, ih (hbehind ▸ hrest), List.length_cons,
      List.cons_append, Nat.add_right_comm number 1, Nat.add_assoc number]

/-! ### Indented lines -/

/-- A line whose content begins at a column, and what follows. -/
def indented (column : Nat) (content : List Char) : List Char :=
  List.replicate column ' ' ++ content

def commentText (indent : Nat) (text : List Char) : List Char := indented indent ('#' :: text)

/-! ### What stands in front of a line -/

/-- Whole lines, the last one with its line break. -/
def IsWhole (cs : List Char) : Prop := cs = [] ∨ cs.getLast? = some '\n'

theorem isWhole_line (line : List Char) {rest : List Char} (h : IsWhole rest) :
    IsWhole (line ++ '\n' :: rest) := by
  refine .inr ?_
  rcases h with rfl | h
  · exact List.getLast?_concat
  · rw [List.getLast?_append, List.getLast?_cons, h]
    rfl

/-- Whole lines one after the other are whole lines. -/
theorem IsWhole.append {cs ds : List Char} (hcs : IsWhole cs) (hds : IsWhole ds) :
    IsWhole (cs ++ ds) := by
  rcases hds with rfl | hds
  · rwa [List.append_nil]
  · rw [IsWhole, List.getLast?_append, hds]
    exact .inr rfl

/-- Without a line break there is no whole line. -/
theorem IsWhole.eq_nil {cs : List Char} (h : IsWhole cs) (hcount : cs.count '\n' = 0) : cs = [] :=
  h.resolve_right fun hlast ↦ List.count_eq_zero.mp hcount (List.mem_of_getLast? hlast)

/-- Behind a character of whole lines stand whole lines. -/
theorem IsWhole.tail {c : Char} {cs : List Char} (h : IsWhole (c :: cs)) : IsWhole cs := by
  cases cs with
  | nil => exact .inl rfl
  | cons d cs => exact .inr (h.resolve_left (List.cons_ne_nil _ _))

/-- What whole lines end with are whole lines. -/
theorem IsWhole.of_append {cs ds : List Char} (h : IsWhole (cs ++ ds)) : IsWhole ds := by
  induction cs with
  | nil => exact h
  | cons c cs ih => exact ih h.tail

/-- Whole lines end with a line break. -/
theorem IsWhole.getLast?_eq {cs : List Char} (h : IsWhole cs) (hcs : cs ≠ []) :
    cs.getLast? = some '\n' := h.resolve_left hcs

theorem IsWhole.mem {cs : List Char} (h : IsWhole cs) (hcs : cs ≠ []) : '\n' ∈ cs :=
  List.mem_of_getLast? (h.getLast?_eq hcs)

theorem IsWhole.eq_newline {c : Char} (h : IsWhole [c]) : c = '\n' :=
  Option.some.inj (h.getLast?_eq (List.cons_ne_nil c []))

/-- What stands in front of a line: as many whole lines as come before it. -/
structure IsFrontOf (line : Nat) (front : List Char) : Prop where
  count : front.count '\n' + 1 = line
  whole : IsWhole front

/-- In front of any of its lines a text can be cut. -/
theorem exists_drop_linesFrom {number k : Nat} {cs : List Char}
    (h : k < (linesFrom number cs).length) :
    ∃ front rest, cs = front ++ rest ∧ IsFrontOf (k + 1) front ∧
      linesFrom (number + k) rest = (linesFrom number cs).drop k := by
  fun_induction linesFrom number cs generalizing k with
  | case1 => exact absurd h (Nat.not_lt_zero k)
  | case2 number c cs ih =>
    cases k with
    | zero => exact ⟨[], c :: cs, rfl, ⟨rfl, .inl rfl⟩, by rw [Nat.add_zero, linesFrom]; rfl⟩
    | succ k =>
      have hbreak : '\n' ∈ c :: cs := by
        by_contra hnone
        have hbehind : (firstLine (c :: cs)).2 = [] := by rw [firstLine_eq_self hnone]
        rw [hbehind] at h
        simp [linesFrom] at h
      obtain ⟨line, rest, hcons, hline⟩ := List.eq_append_cons_of_mem hbreak
      have hbehind : (firstLine (c :: cs)).2 = rest := by rw [hcons, firstLine_of_notMem hline]
      rw [hbehind] at ih h ⊢
      obtain ⟨front, rest', rfl, hfront, hdrop⟩ := ih (Nat.lt_of_succ_lt_succ h)
      refine ⟨line ++ '\n' :: front, rest', by rw [hcons, List.append_assoc]; rfl, ⟨?_, ?_⟩, ?_⟩
      · rw [List.count_append, List.count_eq_zero.mpr hline, List.count_cons_self, Nat.zero_add,
          hfront.count]
      · exact isWhole_line line hfront.whole
      · rw [List.drop_succ_cons, ← hdrop, Nat.add_right_comm, Nat.add_assoc]

end AlertAudit.Text
