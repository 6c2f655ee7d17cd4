import AlertAudit.Proofs.Text.Lines
import AlertAudit.RuleFile.Locate

/-!
Blocks of a rule file. The block that a line opens has the lines below that are indented deeper
than a column; a block that opens further down in it, and further to the right, ends in it. So the
keys of a rule and their values stand on lines of the rule.
-/

set_option autoImplicit false

namespace AlertAudit.Locate

open AlertAudit.Text

/-- The lines stand in the order of their numbers. -/
def Ascending (ls : List Line) : Prop := ls.Pairwise fun a b ↦ a.number < b.number

/-- The lines of a text are in the order of their numbers. -/
theorem ascending_lines (text : String) : Ascending (lines text) := by
  have hrange : ((lines text).map (·.number)).Pairwise (· < ·) := by
    rw [lines, map_number_linesFrom]
    exact List.pairwise_lt_range'
  exact List.pairwise_map.mp hrange

/-- The last ones of ascending lines are ascending. -/
theorem Ascending.suffix {ls ms : List Line} (h : Ascending ls) (hms : ms <:+ ls) : Ascending ms :=
  List.Pairwise.sublist hms.sublist h

theorem Ascending.lt {l m : Line} {rest : List Line} (h : Ascending (l :: rest)) (hm : m ∈ rest) :
    l.number < m.number := (List.pairwise_cons.mp h).1 m hm

theorem Ascending.rest {l : Line} {rest : List Line} (h : Ascending (l :: rest)) :
    Ascending rest := (List.pairwise_cons.mp h).2

/-- No line below another one has a smaller number. -/
theorem Ascending.le_of_suffix {l m : Line} {rest below : List Line} (h : Ascending (l :: rest))
    (hm : m :: below <:+ l :: rest) : l.number ≤ m.number := by
  rcases List.suffix_cons_iff.mp hm with heq | hm
  · rw [(List.cons.inj heq).1]
  · exact Nat.le_of_lt (h.lt (hm.subset List.mem_cons_self))

/-! ### Ends of blocks -/

/-- A block ends with one of the lines. -/
theorem exists_mem_of_blockEnd? {column last : Nat} {ls : List Line}
    (h : blockEnd? column ls = some last) : ∃ l ∈ ls, l.number = last := by
  induction ls generalizing last with
  | nil => exact absurd h (by simp [blockEnd?])
  | cons l rest ih =>
    have hrest : blockEnd? column rest = some last → ∃ m ∈ l :: rest, m.number = last := by
      intro h
      obtain ⟨m, hm, hnumber⟩ := ih h
      exact ⟨m, List.mem_cons_of_mem _ hm, hnumber⟩
    rw [blockEnd?] at h
    split at h
    · exact hrest h
    · split at h
      · split at h
        · exact hrest h
        · exact absurd h (by simp)
      · cases hend : blockEnd? column rest with
        | none =>
          rw [hend] at h
          exact ⟨l, List.mem_cons_self, Option.some.inj h⟩
        | some last' =>
          rw [hend] at h
          exact hrest (hend.trans h)

/-- A line in front of the end of a block belongs to it. -/
theorem lt_indentOf_of_le_blockEnd? {column last : Nat} {ls : List Line} (hls : Ascending ls)
    (h : blockEnd? column ls = some last) {l : Line} (hl : l ∈ ls) (hle : l.number ≤ last)
    (hblank : isBlankText l.text = false) (hcomment : isComment l.text = false) :
    column < indentOf l.text := by
  induction ls generalizing last with
  | nil => exact absurd hl List.not_mem_nil
  | cons m rest ih =>
    rw [blockEnd?] at h
    rcases List.mem_cons.mp hl with rfl | hl
    · rw [if_neg (by simp [hblank])] at h
      by_cases hindent : indentOf l.text ≤ column
      · rw [if_pos hindent, if_neg (by simp [hcomment])] at h
        exact absurd h (by simp)
      · exact Nat.lt_of_not_le hindent
    · split at h
      · exact ih hls.rest h hl hle
      · split at h
        · split at h
          · exact ih hls.rest h hl hle
          · exact absurd h (by simp)
        · cases hend : blockEnd? column rest with
          | none =>
            rw [hend] at h
            have hlast : m.number = last := Option.some.inj h
            exact absurd (hls.lt hl) (by omega)
          | some last' =>
            rw [hend] at h
            obtain rfl : last' = last := Option.some.inj h
            exact ih hls.rest hend hl hle

/-- A block further to the right ends where the block further to the left goes on. -/
theorem exists_blockEnd?_of_le {column right last : Nat} (hcolumn : column ≤ right)
    {ls : List Line} (hls : Ascending ls) (h : blockEnd? right ls = some last) :
    ∃ last', blockEnd? column ls = some last' ∧ last ≤ last' := by
  induction ls generalizing last with
  | nil => exact absurd h (by simp [blockEnd?])
  | cons l rest ih =>
    rw [blockEnd?] at h ⊢
    by_cases hblank : isBlankText l.text
    · rw [if_pos hblank] at h ⊢
      exact ih hls.rest h
    rw [if_neg hblank] at h ⊢
    by_cases hleft : indentOf l.text ≤ column
    · rw [if_pos (Nat.le_trans hleft hcolumn)] at h
      rw [if_pos hleft]
      by_cases hcomment : isComment l.text
      · rw [if_pos hcomment] at h ⊢
        exact ih hls.rest h
      · rw [if_neg hcomment] at h
        exact absurd h (by simp)
    rw [if_neg hleft]
    refine ⟨_, rfl, ?_⟩
    have hrest : ∀ m, blockEnd? right rest = some m →
        m ≤ (blockEnd? column rest).getD l.number := by
      intro m hm
      obtain ⟨last', hlast', hle⟩ := ih hls.rest hm
      rw [hlast']
      exact hle
    by_cases hright : indentOf l.text ≤ right
    · rw [if_pos hright] at h
      by_cases hcomment : isComment l.text
      · rw [if_pos hcomment] at h
        exact hrest _ h
      · rw [if_neg hcomment] at h
        exact absurd h (by simp)
    · rw [if_neg hright] at h
      cases hend : blockEnd? right rest with
      | some m =>
        rw [hend] at h
        exact Option.some.inj h ▸ hrest m hend
      | none =>
        rw [hend] at h
        obtain rfl : l.number = last := Option.some.inj h
        cases hleft' : blockEnd? column rest with
        | none => exact Nat.le_refl _
        | some m =>
          obtain ⟨l', hl', rfl⟩ := exists_mem_of_blockEnd? hleft'
          exact Nat.le_of_lt (hls.lt hl')

/-- From each of its lines on, a block ends at the same line. -/
theorem blockEnd?_of_suffix {column last end_ : Nat} {ls rest : List Line} {l : Line}
    (hls : Ascending ls) (hsuffix : l :: rest <:+ ls) (h : blockEnd? column ls = some last)
    (hle : l.number ≤ last) (hrest : blockEnd? column rest = some end_) : end_ = last := by
  induction ls generalizing last with
  | nil => exact absurd (List.suffix_nil.mp hsuffix) (List.cons_ne_nil _ _)
  | cons m ms ih =>
    have htail : blockEnd? column ms = some last → end_ = last := by
      intro hms
      rcases List.suffix_cons_iff.mp hsuffix with heq | hsuffix
      · obtain ⟨-, rfl⟩ := List.cons.inj heq
        exact Option.some.inj (hrest.symm.trans hms)
      · exact ih hls.rest hsuffix hms hle
    rw [blockEnd?] at h
    split at h
    · exact htail h
    · split at h
      · split at h
        · exact htail h
        · exact absurd h (by simp)
      · cases hms : blockEnd? column ms with
        | some last' =>
          rw [hms] at h
          exact htail (hms.trans h)
        | none =>
          rw [hms] at h
          obtain rfl : m.number = last := Option.some.inj h
          rcases List.suffix_cons_iff.mp hsuffix with heq | hsuffix
          · obtain ⟨-, rfl⟩ := List.cons.inj heq
            exact absurd (hrest.symm.trans hms) (by simp)
          · exact absurd (hls.lt (hsuffix.subset List.mem_cons_self)) (by omega)

/-- The last line of the block that a line opens. -/
def lastLine (column : Nat) (l : Line) (rest : List Line) : Nat :=
  (blockEnd? column rest).getD l.number

/-- The block that a line opens does not end in front of the line. -/
theorem le_lastLine {column : Nat} {l : Line} {rest : List Line} (h : Ascending (l :: rest)) :
    l.number ≤ lastLine column l rest := by
  rw [lastLine]
  cases hend : blockEnd? column rest with
  | none => exact Nat.le_refl _
  | some last =>
    obtain ⟨m, hm, rfl⟩ := exists_mem_of_blockEnd? hend
    exact Nat.le_of_lt (h.lt hm)

/-- It ends with the line itself or with one of those below. -/
theorem exists_mem_lastLine (column : Nat) (l : Line) (rest : List Line) :
    ∃ m ∈ l :: rest, m.number = lastLine column l rest := by
  rw [lastLine]
  cases hend : blockEnd? column rest with
  | none => exact ⟨l, List.mem_cons_self, rfl⟩
  | some last =>
    obtain ⟨m, hm, hnumber⟩ := exists_mem_of_blockEnd? hend
    exact ⟨m, List.mem_cons_of_mem _ hm, hnumber⟩

/-- Below the line that opens a block, its last line is the end of a block. -/
theorem blockEnd?_eq_lastLine {column : Nat} {l m : Line} {rest : List Line}
    (h : Ascending (l :: rest)) (hm : m ∈ rest) (hle : m.number ≤ lastLine column l rest) :
    blockEnd? column rest = some (lastLine column l rest) := by
  rw [lastLine] at hle ⊢
  cases hend : blockEnd? column rest with
  | some last => rfl
  | none =>
    rw [hend] at hle
    exact absurd hle (Nat.not_le_of_lt (h.lt hm))

/-- A block that opens in a block, not to the left of it, ends in it. -/
theorem lastLine_le {column right : Nat} {l m : Line} {rest below : List Line}
    (hcolumn : column ≤ right) (h : Ascending (l :: rest)) (hm : m :: below <:+ l :: rest)
    (hle : m.number ≤ lastLine column l rest) :
    lastLine right m below ≤ lastLine column l rest := by
  have hbelow := (h.suffix hm).rest
  rw [lastLine]
  cases hright : blockEnd? right below with
  | none => exact hle
  | some last =>
    obtain ⟨end_, hend, hlast⟩ := exists_blockEnd?_of_le hcolumn hbelow hright
    refine Nat.le_trans hlast (Nat.le_of_eq ?_)
    rcases List.suffix_cons_iff.mp hm with heq | hm
    · obtain ⟨-, rfl⟩ := List.cons.inj heq
      rw [lastLine, hend]
      rfl
    · exact blockEnd?_of_suffix h.rest hm
        (blockEnd?_eq_lastLine h (hm.subset List.mem_cons_self) hle) hle hend

end AlertAudit.Locate
