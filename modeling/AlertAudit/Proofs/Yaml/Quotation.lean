import AlertAudit.Yaml.Scalar.Quoted
import Mathlib.Data.List.TakeWhile

/-!
Texts in single quotes. Between them a quote is written twice and all else once, and a printable
text on one line is read back as it was (`read_quotation`). The reader takes a run without spaces
and the gap behind it in one step, so the induction follows the words of the text.
-/

set_option autoImplicit false

namespace AlertAudit.Yaml

/-- A printable character of ASCII: from the space to the tilde. -/
def isAscii (c : Char) : Bool := 0x20 ≤ c.toNat && c.toNat ≤ 0x7E

/-- A text of printable characters only. -/
def Printable (text : List Char) : Prop := ∀ c ∈ text, isAscii c

instance (text : List Char) : Decidable (Printable text) :=
  decidable_of_iff (text.all isAscii) List.all_eq_true

/-- The text with each single quote written twice. -/
def doubled (text : List Char) : List Char :=
  text.flatMap fun c ↦ if c = '\'' then ['\'', '\''] else [c]

def quotation (text : List Char) : List Char := '\'' :: (doubled text ++ ['\''])

section Doubled

@[simp] theorem doubled_nil : doubled [] = [] := rfl

theorem doubled_cons (c : Char) (text : List Char) :
    doubled (c :: text) = (if c = '\'' then ['\'', '\''] else [c]) ++ doubled text := rfl

/-- Quotes are doubled one by one. -/
theorem doubled_append (s t : List Char) : doubled (s ++ t) = doubled s ++ doubled t :=
  List.flatMap_append

/-- A text without quotes stays as it is. -/
theorem doubled_eq_self {text : List Char} (h : '\'' ∉ text) : doubled text = text := by
  induction text with
  | nil => rfl
  | cons c text ih =>
    obtain ⟨hc, htext⟩ := not_or.mp (List.mem_cons.not.mp h)
    rw [doubled_cons, if_neg (Ne.symm hc), ih htext]
    rfl

/-- Doubling makes a text at most twice as long. -/
theorem length_doubled_le (text : List Char) : (doubled text).length ≤ 2 * text.length := by
  induction text with
  | nil => simp
  | cons c text ih =>
    rw [doubled_cons]
    split <;> simp only [List.length_append, List.length_cons, List.length_nil] <;> omega

/-- What can be printed can be printed in quotes. -/
theorem printable_quotation {text : List Char} (h : Printable text) :
    Printable (quotation text) := by
  have hquote : isAscii '\'' := by decide
  intro c hc
  simp only [quotation, doubled, List.mem_cons, List.mem_append, List.mem_flatMap,
    List.not_mem_nil, or_false] at hc
  rcases hc with rfl | ⟨d, hd, hc⟩ | rfl
  · exact hquote
  · split at hc
    · obtain rfl : c = '\'' := by simpa using hc
      exact hquote
    · obtain rfl : c = d := by simpa using hc
      exact h c hd
  · exact hquote

end Doubled

/-- An ASCII character is none of the other ones. -/
theorem ne_of_isAscii {c d : Char} (hc : isAscii c) (hd : isAscii d = false) : c ≠ d :=
  fun h ↦ Bool.false_ne_true ((h ▸ hd).symm.trans hc)

theorem isBreak_of_isAscii {c : Char} (h : isAscii c) : isBreak c = false := by
  simp [isBreak, ne_of_isAscii h (d := '\n') (by decide),
    ne_of_isAscii h (d := '\u2028') (by decide), ne_of_isAscii h (d := '\u2029') (by decide)]

/-- The only white space that rows have within a line is the space. -/
theorem isGap_of_isAscii {c : Char} (h : isAscii c) : isGap c = decide (c = ' ') := by
  simp [isGap, ne_of_isAscii h (d := '\t') (by decide)]

/-- The only separator in a line is the space. -/
theorem isSeparator_of_isAscii {c : Char} (h : isAscii c) :
    isSeparator c = decide (c = ' ') := by
  rw [isSeparator, isBreak_of_isAscii h, isGap_of_isAscii h, Bool.or_false]

/-- A gap of spaces within a line. -/
theorem Gap.read_replicate (margin k line column : Nat) (blanks : List Char) {c : Char}
    (cs : List Char) (hc : isSeparator c = false) :
    Gap.read margin (List.replicate k ' ' ++ c :: cs) ⟨blanks, []⟩ line column =
      some (⟨blanks ++ List.replicate k ' ', []⟩, ⟨c :: cs, line, column + k⟩) := by
  obtain ⟨hgap, hbreak⟩ : isGap c = false ∧ isBreak c = false := by
    simpa [isSeparator] using hc
  induction k generalizing blanks column with
  | zero => simp [Gap.read, hgap, hbreak]
  | succ k ih =>
    rw [List.replicate_succ, List.cons_append, Gap.read, if_neg (by decide), if_pos (by decide)]
    simp only [List.isEmpty_nil, if_true, ih]
    simp [Nat.add_comm, Nat.add_left_comm]

namespace Quoted

/-- A run of characters ends where the next run, being empty, would end. -/
theorem singleRun_doubled {word : List Char} (hword : Printable word) (hspace : ' ' ∉ word)
    (tail : List Char) (htail : singleRun tail = ([], tail)) :
    singleRun (doubled word ++ tail) = (word, tail) := by
  induction word with
  | nil => exact htail
  | cons c word ih =>
    obtain ⟨hc, hrest⟩ := not_or.mp (List.mem_cons.not.mp hspace)
    have hrun := ih (fun d hd ↦ hword d (List.mem_cons_of_mem _ hd)) hrest
    rw [doubled_cons]
    by_cases hquote : c = '\''
    · rw [if_pos hquote, hquote]
      simp [singleRun, hrun]
    · have hsep : isSeparator c = false := by
        rw [isSeparator_of_isAscii (hword c List.mem_cons_self), decide_eq_false (Ne.symm hc)]
      rw [if_neg hquote]
      simp [singleRun, hquote, hsep, hrun]

/-- A space ends the run in single quotes. -/
theorem singleRun_space (cs : List Char) : singleRun (' ' :: cs) = ([], ' ' :: cs) := by
  simp [singleRun, show isSeparator ' ' from rfl]

/-- A quote that is not doubled ends it. -/
theorem singleRun_quote {d : Char} (hd : d ≠ '\'') (cs : List Char) :
    singleRun ('\'' :: d :: cs) = ([], '\'' :: d :: cs) := by
  simp [singleRun, hd]

/-- The words of a text: one in front, the spaces behind it, and the rest. -/
theorem exists_words (text : List Char) :
    ∃ word k rest, text = word ++ List.replicate k ' ' ++ rest ∧ ' ' ∉ word ∧
      rest.head? ≠ some ' ' ∧ (k = 0 → rest = []) := by
  induction text with
  | nil => exact ⟨[], 0, [], rfl, by simp, by simp, fun _ ↦ rfl⟩
  | cons c text ih =>
    obtain ⟨word, k, rest, rfl, hword, hrest, hnil⟩ := ih
    by_cases hc : c = ' '
    · cases word with
      | nil => exact ⟨[], k + 1, rest, by simp [hc, List.replicate_succ], by simp, hrest, by simp⟩
      | cons d word =>
        refine ⟨[], 1, d :: word ++ List.replicate k ' ' ++ rest, by simp [hc], by simp, ?_,
          by simp⟩
        simpa using fun h : d = ' ' ↦ hword (by simp [h])
    · refine ⟨c :: word, k, rest, rfl, ?_, hrest, hnil⟩
      exact List.mem_cons.not.mpr (not_or.mpr ⟨Ne.symm hc, hword⟩)

/-- Behind the spaces of a gap stands a character of the text or the closing quote. -/
theorem exists_cons_doubled {text : List Char} (htext : Printable text)
    (hhead : text.head? ≠ some ' ') (cs : List Char) :
    ∃ c rest, doubled text ++ '\'' :: cs = c :: rest ∧ isSeparator c = false := by
  cases text with
  | nil => exact ⟨'\'', cs, rfl, rfl⟩
  | cons c text =>
    rw [doubled_cons]
    by_cases hquote : c = '\''
    · exact ⟨'\'', _, by rw [if_pos hquote]; rfl, rfl⟩
    · refine ⟨c, _, by rw [if_neg hquote]; rfl, ?_⟩
      have hspace : c ≠ ' ' := fun h ↦ hhead (by simp [h])
      rw [isSeparator_of_isAscii (htext c List.mem_cons_self), decide_eq_false hspace]

/-- From inside of the quotes on, the rest of the text is read up to the closing quote. -/
theorem readMore_doubled {text : List Char} (htext : Printable text) (read : List Char) {d : Char}
    (hd : d ≠ '\'') (cs : List Char) (line column : Nat) (hcolumn : column ≠ 0) :
    readMore .single read ⟨doubled text ++ '\'' :: d :: cs, line, column⟩ =
      some (read ++ text, ⟨d :: cs, line, column + (doubled text).length + 1⟩) := by
  induction hlength : text.length using Nat.strong_induction_on generalizing text read column with
  | _ n ih =>
  obtain ⟨word, k, rest, rfl, hspace, hrest, hnil⟩ := exists_words text
  have hword : Printable word := fun c hc ↦ htext c (by simp [hc])
  have hprintable : Printable rest := fun c hc ↦ htext c (by simp [hc])
  have hmarker (cs : List Char) : Cursor.atDocumentMarker ⟨cs, line, column⟩ = false := by
    simp [Cursor.atDocumentMarker, Cursor.atMarker, hcolumn]
  rw [readMore, hmarker, if_neg Bool.false_ne_true]
  cases k with
  | zero =>
    obtain rfl := hnil rfl
    have hrun := singleRun_doubled hword hspace _ (singleRun_quote hd cs)
    simp [run, hrun, Quote.mark, Cursor.skip, Nat.add_assoc]
  | succ k =>
    have hspaces : doubled (List.replicate (k + 1) ' ') = List.replicate (k + 1) ' ' :=
      doubled_eq_self (by simp)
    have hrun := singleRun_doubled hword hspace (' ' :: (List.replicate k ' ' ++
      (doubled rest ++ '\'' :: d :: cs))) (singleRun_space _)
    obtain ⟨c, cs', hcons, hc⟩ := exists_cons_doubled hprintable hrest (d :: cs)
    have hgap := Gap.read_replicate 0 (k + 1) line (column + (doubled word).length) [] cs' hc
    have hmore := ih rest.length (by simp [← hlength]; omega) hprintable
      (read ++ word ++ List.replicate (k + 1) ' ')
      (column + (doubled word).length + (k + 1)) (by omega) rfl
    rw [doubled_append, doubled_append, hspaces]
    simp only [List.append_assoc, List.replicate_succ, List.cons_append] at hrun hgap hmore ⊢
    rw [← hcons] at hgap
    simp only [run, hrun, gap, Quote.mark, List.length_append, List.length_cons,
      List.length_replicate, List.head?_cons]
    rw [if_neg (by simp)]
    simp [hgap, Gap.text, hmore]
    omega

/-- A printable text in single quotes, behind the start of its line, is read as it is. -/
theorem read_quotation {text : List Char} (htext : Printable text) {d : Char} (hd : d ≠ '\'')
    (cs : List Char) (line column : Nat) :
    read .single ⟨quotation text ++ d :: cs, line, column⟩ =
      some (text, ⟨d :: cs, line, column + (quotation text).length⟩) := by
  have hmore := readMore_doubled htext [] hd cs line (column + 1) (by omega)
  simp only [read, quotation, Cursor.skip, List.cons_append, List.append_assoc, List.drop_one,
    List.tail_cons, List.nil_append, List.length_cons, List.length_append,
    List.length_nil] at hmore ⊢
  rw [hmore]
  simp only [Option.some.injEq, Prod.mk.injEq, Cursor.mk.injEq, true_and]
  omega

end Quoted

end AlertAudit.Yaml
