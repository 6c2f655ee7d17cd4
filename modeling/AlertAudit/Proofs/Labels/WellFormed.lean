import AlertAudit.Proofs.Labels.Removal

/-!
What is known about the labels of a query never contradicts itself: no label is both kept and
excluded, and a result that lists all labels says which operator took the others away. The two
lists are edited apart by every operator, so each of them is shown to keep the invariant
(`WellFormed.allow`, `WellFormed.exclude`, `WellFormed.combine` and those built from them), and the
results of all expressions follow by induction (`wellFormed_survival`).
-/

set_option autoImplicit false

namespace AlertAudit.Labels

open AlertAudit.Query

/-- The kept labels and the excluded ones are different, and a closed result has a boundary. -/
structure Survival.WellFormed (s : Survival) : Prop where
  disjoint : ∀ l ∈ s.kept, l ∉ s.excluded
  boundary : s.closed = true → ∃ b, s.boundary = some b

namespace Survival

/-- Together with a boundary on the left there is a boundary. -/
theorem exists_merge_left {a b : Option Boundary} (h : ∃ x, a = some x) :
    ∃ x, Boundary.merge a b = some x := by
  obtain ⟨x, rfl⟩ := h
  rcases x with _ | _ <;> rcases b with _ | _ | _ <;> simp [Boundary.merge]

/-- Together with a boundary on the right there is a boundary. -/
theorem exists_merge_right {a b : Option Boundary} (h : ∃ x, b = some x) :
    ∃ x, Boundary.merge a b = some x := by
  obtain ⟨x, rfl⟩ := h
  rcases x with _ | _ <;> rcases a with _ | _ | _ <;> simp [Boundary.merge]

theorem wellFormed_unknown : unknown.WellFormed :=
  ⟨fun _ h ↦ absurd h LabelSet.not_mem_empty, fun h ↦ absurd h (by simp [unknown])⟩

/-- A list of all labels excludes none and has a boundary. -/
theorem wellFormed_ofLabels (labels : List String) (b : Boundary) :
    (ofLabels labels b).WellFormed :=
  ⟨fun _ _ ↦ LabelSet.not_mem_empty, fun _ ↦ ⟨b, rfl⟩⟩

namespace WellFormed

variable {s a b : Survival}

/-- A label that may be present is no longer excluded. -/
theorem allow (h : s.WellFormed) (label : String) : (s.allow label).WellFormed where
  disjoint l hkept hexcluded := by
    obtain ⟨hexcluded, hne⟩ := LabelSet.mem_erase.mp hexcluded
    rcases LabelSet.mem_insert.mp hkept with heq | hkept
    · exact hne heq
    · exact h.disjoint l hkept hexcluded
  boundary := h.boundary

/-- A label that cannot be present is no longer kept. -/
theorem exclude (h : s.WellFormed) (label : String) : (s.exclude label).WellFormed where
  disjoint l hkept hexcluded := by
    obtain ⟨hkept, hne⟩ := LabelSet.mem_erase.mp hkept
    rcases LabelSet.mem_insert.mp hexcluded with heq | hexcluded
    · exact hne heq
    · exact h.disjoint l hkept hexcluded
  boundary := h.boundary

/-- So it is with several labels that may be present. -/
theorem foldl_allow (h : s.WellFormed) (labels : List String) :
    (labels.foldl Survival.allow s).WellFormed := by
  induction labels generalizing s with
  | nil => exact h
  | cons l labels ih => exact ih (h.allow l)

/-- So it is with several labels that cannot be present. -/
theorem foldl_exclude (h : s.WellFormed) (labels : List String) :
    (labels.foldl Survival.exclude s).WellFormed := by
  induction labels generalizing s with
  | nil => exact h
  | cons l labels ih => exact ih (h.exclude l)

/-- The excluded labels of two operands are only taken over where they are not kept. -/
theorem combine (ha : a.WellFormed) (hb : b.WellFormed) : (a.combine b).WellFormed where
  disjoint l hkept hexcluded := (LabelSet.mem_diff.mp hexcluded).2 hkept
  boundary hclosed := by
    rcases Bool.or_eq_true _ _ ▸ hclosed with hclosed | hclosed
    · exact exists_merge_left (ha.boundary hclosed)
    · exact exists_merge_right (hb.boundary hclosed)

/-- A grouping lists its labels with a boundary, or excludes some. -/
theorem grouped (h : s.WellFormed) (grouping : Option Grouping) :
    (Survival.grouped grouping s).WellFormed := by
  rcases grouping with _ | (labels | labels)
  · exact wellFormed_ofLabels _ _
  · exact wellFormed_ofLabels _ _
  · exact ⟨(h.foldl_exclude labels).disjoint, fun _ ↦ ⟨.aggregation, rfl⟩⟩

/-- An aggregation adds at most the label that it writes to its grouping. -/
theorem aggregated (h : s.WellFormed) (op : Aggregator) (param : Option Expr)
    (grouping : Option Grouping) : (Survival.aggregated op param grouping s).WellFormed := by
  unfold Survival.aggregated
  split
  · exact h
  · exact h
  · exact (h.grouped grouping).allow _
  · exact h.grouped grouping

/-- The many side of a match keeps what it takes over. -/
theorem manySide (h : s.WellFormed) (on taken : List String) :
    (Survival.manySide s on taken).WellFormed := by
  unfold Survival.manySide
  split
  · exact wellFormed_unknown
  · exact h.foldl_allow _

/-- A match puts both operands together, lists the labels of `on`, or follows the many side. -/
theorem matched (ha : a.WellFormed) (hb : b.WellFormed) (m : Modifier) :
    (Survival.matched m a b).WellFormed := by
  obtain ⟨returnBool, matching, group⟩ := m
  rcases group with _ | (taken | taken)
  · rcases matching with _ | (labels | labels)
    · exact ha.combine hb
    · exact wellFormed_ofLabels labels .aggregation
    · -- nothing is known to be kept, and the result is open
      exact ⟨fun _ h ↦ absurd h LabelSet.not_mem_empty, fun h ↦ absurd h Bool.false_ne_true⟩
  · exact ha.manySide _ taken
  · exact hb.manySide _ taken

/-- An operation follows an operand, or puts both together. -/
theorem operated (ha : a.WellFormed) (hb : b.WellFormed) (op : BinaryOp) (m : Modifier)
    (lhsType rhsType : ValueType) :
    (Survival.operated op m lhsType rhsType a b).WellFormed := by
  unfold Survival.operated
  split_ifs with hlhs hrhs hrhs
  · exact wellFormed_unknown
  · exact hb
  · exact ha
  · split
    · exact ha
    · exact ha.combine hb
    · exact ha.combine hb
    · exact ha.matched hb m

/-- A label that a function writes is no longer excluded; only a closed result gains it. -/
theorem called (h : s.WellFormed) (name : String) (args : List Expr) :
    (Survival.called name args s).WellFormed := by
  unfold Survival.called
  split
  · split
    · split
      · exact h.allow _
      · refine ⟨fun l hkept hexcluded ↦ ?_, h.boundary⟩
        exact h.disjoint l hkept (LabelSet.mem_erase.mp hexcluded).1
    · exact h
  · split
    · exact h.exclude "le"
    · exact h

end WellFormed

/-- The series for absence has the labels that its grouping lets through. -/
theorem wellFormed_absentGroups (grouping : Option Grouping) :
    (absentGroups grouping).WellFormed := by
  rcases grouping with _ | (labels | labels) <;> exact wellFormed_ofLabels _ _

end Survival

open Survival

/-- The result of a call for absence is that of the absence of its first argument. -/
theorem wellFormed_absenceOfFirst {args : List Expr} (h : ∀ a ∈ args, (absence a).WellFormed) :
    (absenceOfFirst args).WellFormed := by
  cases args with
  | nil => exact wellFormed_ofLabels [] .absent
  | cons a args =>
    rw [absenceOfFirst]
    exact h a List.mem_cons_self

/-- A binary operation means the same for the absence of its result as for the result, so both are
followed through an expression at once. -/
theorem wellFormed_survival_and_absence (e : Expr) :
    (survival e).WellFormed ∧ (absence e).WellFormed := by
  induction e using Expr.inductionOn with
  | number v => exact ⟨wellFormed_unknown, wellFormed_ofLabels [] .absent⟩
  | string text => exact ⟨wellFormed_unknown, wellFormed_ofLabels [] .absent⟩
  | selector s shift => exact ⟨wellFormed_unknown, wellFormed_ofLabels _ .absent⟩
  | range s shift => exact ⟨wellFormed_unknown, wellFormed_ofLabels _ .absent⟩
  | subquery e shift ih =>
    rw [survival]
    exact ⟨ih.1, wellFormed_ofLabels [] .absent⟩
  | paren e ih =>
    rw [survival, absence]
    exact ih
  | neg e ih =>
    rw [survival]
    exact ⟨ih.1, wellFormed_ofLabels [] .absent⟩
  | aggregate op param grouping e _ ih =>
    rw [survival, absence]
    exact ⟨ih.1.aggregated op param grouping, wellFormed_absentGroups grouping⟩
  | binary op m lhs rhs ihl ihr =>
    have hoperated := ihl.1.operated ihr.1 op m lhs.type rhs.type
    rw [survival, absence]
    exact ⟨hoperated, hoperated⟩
  | call f args ih =>
    refine ⟨?_, wellFormed_ofLabels [] .absent⟩
    rw [survival]
    split
    · exact wellFormed_absenceOfFirst fun a ha ↦ (ih a ha).2
    · rw [survivalOfSeries_eq]
      cases harg : seriesArg? args with
      | none => exact wellFormed_unknown
      | some a => exact (ih a (List.mem_of_find?_eq_some harg)).1.called f.name args

/-- The result for an expression never contradicts itself: no label is both kept and excluded, and
where all labels are listed, it is known which operator took the others away. -/
theorem wellFormed_survival (e : Expr) : (survival e).WellFormed :=
  (wellFormed_survival_and_absence e).1

end AlertAudit.Labels
