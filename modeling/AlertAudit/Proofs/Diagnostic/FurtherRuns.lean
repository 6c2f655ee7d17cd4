import AlertAudit.Diagnostic.Render
import Mathlib.Data.List.Basic

/-!
The lines outside of an entry, in runs. A line in front of others either lengthens their first run
or stands alone, so each run is as long as it can be: between two of them a line is missing
(`Divides.cons`, `divides_runsOf`). Lines of the entry may cut in two what would be one run.
-/

set_option autoImplicit false

namespace AlertAudit.LineRange

variable {line : Nat} {rest lines : List Nat} {run : LineRange} {runs : List LineRange}

/-- A line belongs to a run from its first line to its last one. -/
theorem contains_iff {r : LineRange} : r.contains line ↔ r.first ≤ line ∧ line ≤ r.last := by
  rw [contains, Bool.and_eq_true, decide_eq_true_eq, decide_eq_true_eq]

/-- The runs follow one another, no two of them could be one, and together they have exactly the
lines. -/
structure Divides (runs : List LineRange) (lines : List Nat) : Prop where
  proper : ∀ run ∈ runs, run.first ≤ run.last
  apart : runs.Pairwise fun a b ↦ a.last + 1 < b.first
  contains_iff : ∀ line, (∃ run ∈ runs, run.contains line) ↔ line ∈ lines

/-- The first line of each run is one of the lines. -/
theorem Divides.first_mem (h : Divides runs lines) (hrun : run ∈ runs) : run.first ∈ lines :=
  (h.contains_iff run.first).mp
    ⟨run, hrun, LineRange.contains_iff.mpr ⟨Nat.le_refl _, h.proper run hrun⟩⟩

/-- The first run begins one line earlier. -/
theorem Divides.lengthened (h : Divides (run :: runs) rest) (hfirst : run.first = line + 1) :
    Divides (⟨line, run.last⟩ :: runs) (line :: rest) where
  proper := by
    have hproper := h.proper run List.mem_cons_self
    refine List.forall_mem_cons.mpr ⟨?_, fun r hr ↦ h.proper r (List.mem_cons_of_mem run hr)⟩
    change line ≤ run.last
    omega
  apart := by
    obtain ⟨hfront, hbehind⟩ := List.pairwise_cons.mp h.apart
    exact List.pairwise_cons.mpr ⟨hfront, hbehind⟩
  contains_iff k := by
    have hproper := h.proper run List.mem_cons_self
    have hlonger : LineRange.contains ⟨line, run.last⟩ k ↔ k = line ∨ run.contains k := by
      rw [LineRange.contains_iff, LineRange.contains_iff]
      dsimp only
      omega
    have hrest := h.contains_iff k
    rw [List.exists_mem_cons_iff] at hrest ⊢
    rw [hlonger, or_assoc, hrest, List.mem_cons]

/-- A run of one line comes in front. -/
theorem Divides.single_cons (h : Divides runs rest) (hline : ∀ run ∈ runs, line + 1 < run.first) :
    Divides (single line :: runs) (line :: rest) where
  proper := List.forall_mem_cons.mpr ⟨Nat.le_refl line, h.proper⟩
  apart := List.pairwise_cons.mpr ⟨hline, h.apart⟩
  contains_iff k := by
    have hsingle : (single line).contains k ↔ k = line := by
      rw [LineRange.contains_iff]
      exact ⟨fun h ↦ Nat.le_antisymm h.2 h.1, fun h ↦ h ▸ ⟨Nat.le_refl k, Nat.le_refl k⟩⟩
    rw [List.exists_mem_cons_iff, hsingle, h.contains_iff, List.mem_cons]

/-- A line in front of the others keeps their runs as long as they can be. -/
theorem Divides.cons (h : Divides (runsOf rest) rest) (hline : ∀ m ∈ rest, line < m) :
    Divides (runsOf (line :: rest)) (line :: rest) := by
  rw [runsOf]
  split
  next run runs hruns =>
    rw [hruns] at h
    split
    next hfirst => exact h.lengthened hfirst
    next hfirst =>
      have hafter : line + 1 < run.first := by
        have hlt := hline run.first (h.first_mem List.mem_cons_self)
        omega
      have hproper := h.proper run List.mem_cons_self
      refine h.single_cons (List.forall_mem_cons.mpr ⟨hafter, fun r hr ↦ ?_⟩)
      have hapart := (List.pairwise_cons.mp h.apart).1 r hr
      omega
  next hruns =>
    rw [hruns] at h
    exact h.single_cons (List.forall_mem_nil _)

/-- The runs of ascending lines are as long as they can be. -/
theorem divides_runsOf (h : lines.Pairwise (· < ·)) : Divides (runsOf lines) lines := by
  induction lines with
  | nil => exact ⟨List.forall_mem_nil _, .nil, fun k ↦ by simp [runsOf]⟩
  | cons line rest ih =>
    obtain ⟨hline, hrest⟩ := List.pairwise_cons.mp h
    exact (ih hrest).cons hline

end AlertAudit.LineRange

namespace AlertAudit.Diagnostic

/-- The further lines of a diagnostic come in ascending runs with a line missing between any two of
them, and a line is in one of the runs if and only if it is a line of the diagnostic and not of the
entry. -/
theorem furtherRuns_of_ascending (d : Diagnostic) (h : d.lines.Pairwise (· < ·)) :
    (∀ run ∈ d.furtherRuns, run.first ≤ run.last) ∧
      d.furtherRuns.Pairwise (fun a b ↦ a.last + 1 < b.first) ∧
      ∀ line, (∃ run ∈ d.furtherRuns, run.contains line) ↔
        line ∈ d.lines ∧ ¬d.anchor.contains line := by
  have hdivides := LineRange.divides_runsOf (h.filter fun line ↦ !d.anchor.contains line)
  refine ⟨hdivides.proper, hdivides.apart, fun line ↦ (hdivides.contains_iff line).trans ?_⟩
  rw [List.mem_filter, Bool.not_eq_true', Bool.not_eq_true]

/-- A problem in an entry on line 4, with the query around it. -/
def amidQuery : Diagnostic where
  kind := default
  reporter := ""
  message := ""
  lines := [2, 3, 4, 5, 7]
  anchor := ⟨4, 4⟩

/-- The entry cuts the lines 2 to 5 in two. -/
theorem furtherRuns_of_ascending_cut : amidQuery.lines.Pairwise (· < ·) ∧
    amidQuery.furtherRuns = [⟨2, 3⟩, ⟨5, 5⟩, ⟨7, 7⟩] ∧
    ∀ line, (∃ run ∈ amidQuery.furtherRuns, run.contains line) ↔
      line ∈ amidQuery.lines ∧ ¬amidQuery.anchor.contains line := by
  have hascending : amidQuery.lines.Pairwise (· < ·) := by decide
  exact ⟨hascending, by decide, (furtherRuns_of_ascending amidQuery hascending).2.2⟩

end AlertAudit.Diagnostic
