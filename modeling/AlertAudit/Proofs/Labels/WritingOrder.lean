import AlertAudit.Proofs.Labels.Combination
import AlertAudit.Proofs.Labels.Interchange
import AlertAudit.Proofs.Query.Reordering

/-!
What is known about the labels of a query does not depend on the order in which it is written. Lists
of labels and matchers only count for their members (`grouped_congr`, `matched_congr`,
`absentSelector_congr`), and a match of operands that change sides is the same match
(`matched_swap`). As these are all the places where the analysis looks at an order, the result is
the same for the whole query (`survival_reordered`).
-/

set_option autoImplicit false

namespace AlertAudit.Labels

open AlertAudit.Query

namespace Survival

variable {ls ms : List String} {s a b : Survival} {l : String}

/-! ### Lists of labels -/

/-- Lists of the same labels give the same set. -/
theorem ofList_congr (h : SameLabels ls ms) : LabelSet.ofList ls = LabelSet.ofList ms := by
  ext l
  rw [LabelSet.mem_ofList, LabelSet.mem_ofList, h l]

/-- Lists of the same labels give the same result. -/
theorem ofLabels_congr (h : SameLabels ls ms) (b : Boundary) : ofLabels ls b = ofLabels ms b := by
  rw [ofLabels, ofLabels, ofList_congr h]

/-- To allow some labels is to keep all of them at once. -/
theorem foldl_allow (ls : List String) (s : Survival) : ls.foldl allow s =
    { s with
      kept := (LabelSet.ofList ls).union s.kept
      excluded := s.excluded.diff (.ofList ls) } := by
  induction ls generalizing s with
  | nil => exact eq_of_fields (by ext l; simp) (by ext l; simp) rfl rfl
  | cons m ls ih =>
    rw [List.foldl_cons, ih]
    refine eq_of_fields ?_ ?_ rfl rfl
    · ext l
      simp [allow, or_left_comm, or_assoc]
    · ext l
      simp [allow, and_assoc]

/-- To exclude some labels is to exclude all of them at once. -/
theorem foldl_exclude (ls : List String) (s : Survival) : ls.foldl exclude s =
    { s with
      kept := s.kept.diff (.ofList ls)
      excluded := (LabelSet.ofList ls).union s.excluded } := by
  induction ls generalizing s with
  | nil => exact eq_of_fields (by ext l; simp) (by ext l; simp) rfl rfl
  | cons m ls ih =>
    rw [List.foldl_cons, ih]
    refine eq_of_fields ?_ ?_ rfl rfl
    · ext l
      simp [exclude, and_assoc]
    · ext l
      simp [exclude, or_left_comm, or_assoc]

/-- A grouping does not depend on the order of its labels. -/
theorem grouped_congr {grouping grouping' : Option Grouping}
    (h : Option.Rel Grouping.Reordered grouping grouping') (s : Survival) :
    grouped grouping s = grouped grouping' s := by
  cases h with
  | none => rfl
  | some h =>
    cases h with
    | byLabels h =>
      refine ofLabels_congr (fun l ↦ ?_) .aggregation
      rw [List.mem_filter, List.mem_filter, h l]
    | withoutLabels h => simp only [grouped, foldl_exclude, ofList_congr h]

/-- Neither does the grouping of a series for absence. -/
theorem absentGroups_congr {grouping grouping' : Option Grouping}
    (h : Option.Rel Grouping.Reordered grouping grouping') :
    absentGroups grouping = absentGroups grouping' := by
  cases h with
  | none => rfl
  | some h =>
    cases h with
    | byLabels h => exact ofLabels_congr h .aggregation
    | withoutLabels h => rfl

/-! ### Matchers -/

/-- The absence of a selector does not depend on the order of its matchers. -/
theorem absentSelector_congr {q q' : Selector} (h : q.Reordered q') :
    absentSelector q = absentSelector q' := by
  refine ofLabels_congr (fun l ↦ ?_) .absent
  simp only [List.mem_map, List.mem_filter, h.matchers.countP_eq, h.matchers.mem_iff]

/-! ### Matches -/

/-- The many side of a match does not depend on the order of the labels. -/
theorem manySide_congr {on on' taken taken' : List String} (hon : SameLabels on on')
    (htaken : SameLabels taken taken') : manySide s on taken = manySide s on' taken' := by
  have hempty : taken = [] ↔ taken' = [] := by
    simp only [List.eq_nil_iff_forall_not_mem, htaken _]
  have happend : SameLabels (on ++ taken) (on' ++ taken') := fun l ↦ by
    rw [List.mem_append, List.mem_append, hon l, htaken l]
  rw [manySide, manySide, foldl_allow, foldl_allow, ofList_congr happend]
  exact if_congr (and_congr_right fun _ ↦ hempty) rfl rfl

/-- The labels that a match is restricted to. -/
def onLabels : Option Matching → List String
  | some (.on labels) => labels
  | _ => []

/-- Neither does the match as a whole. -/
theorem matched_congr {m m' : Modifier} (h : m.Reordered m') (a b : Survival) :
    matched m a b = matched m' a b := by
  obtain ⟨returnBool, matching, group⟩ := m
  obtain ⟨returnBool', matching', group'⟩ := m'
  obtain ⟨-, hmatching, hgroup⟩ := h
  cases hgroup with
  | none =>
    cases hmatching with
    | none => rfl
    | some h =>
      cases h with
      | on h => exact ofLabels_congr h .aggregation
      | ignoring h => rfl
  | some hgroup =>
    have hon : SameLabels (onLabels matching) (onLabels matching') := by
      cases hmatching with
      | none => exact fun l ↦ Iff.rfl
      | some h =>
        cases h with
        | on h => exact h
        | ignoring h => exact fun l ↦ Iff.rfl
    cases hgroup with
    | left h => exact manySide_congr hon h
    | right h => exact manySide_congr hon h

/-- Operands that change sides take the many side with them. -/
theorem matched_swap (m : Modifier) (a b : Survival) : matched m.swap b a = matched m a b := by
  obtain ⟨returnBool, matching, group⟩ := m
  rcases group with _ | (taken | taken)
  · rcases matching with _ | (labels | labels)
    · exact combine_comm b a
    · rfl
    · have hexcluded : b.excluded.union a.excluded = a.excluded.union b.excluded := by
        ext l
        rw [LabelSet.mem_union, LabelSet.mem_union, or_comm]
      exact eq_of_fields rfl hexcluded rfl (Boundary.merge_comm _ _)
  · rfl
  · rfl

/-- Sides with numbers, too, only count for what they are. -/
theorem operated_swap {op : BinaryOp} (hand : op ≠ .and) (m : Modifier)
    (lhsType rhsType : ValueType) (a b : Survival) :
    operated op m.swap rhsType lhsType b a = operated op m lhsType rhsType a b := by
  unfold operated
  by_cases hl : lhsType = .scalar
  · by_cases hr : rhsType = .scalar
    · rw [if_pos hr, if_pos hl, if_pos hl, if_pos hr]
    · rw [if_neg hr, if_pos hl, if_pos hl, if_neg hr]
  · by_cases hr : rhsType = .scalar
    · rw [if_pos hr, if_neg hl, if_neg hl, if_pos hr]
    · rw [if_neg hr, if_neg hl, if_neg hl, if_neg hr]
      split
      · exact absurd rfl hand
      · exact combine_comm b a
      · exact combine_comm b a
      · exact matched_swap m a b

end Survival

/-! ### Whole expressions -/

/-- Operands that change sides leave an alike operation, unless it is `and`. -/
theorem alike_swap {op : BinaryOp} (hand : op ≠ .and) (m : Modifier) (lhs rhs : Expr) :
    Alike (.binary op m lhs rhs) (.binary op m.swap rhs lhs) := by
  have hoperated := Survival.operated_swap hand m lhs.type rhs.type (survival lhs) (survival rhs)
  refine ⟨?_, ?_, ?_⟩
  · rw [Expr.type, Expr.type]
    exact if_congr and_comm rfl rfl
  · rw [survival, survival, hoperated]
  · rw [absence, absence, hoperated]

/-- A string is written in one way only. -/
theorem plainText?_of_reordered {e e' : Expr} (h : e.Reordered e') :
    plainText? e = plainText? e' := by
  cases h <;> rfl

/-- Expressions written in another order are alike. -/
theorem alike_of_reordered (e : Expr) : ∀ {e' : Expr}, e.Reordered e' → Alike e e' := by
  induction e using Expr.inductionOn with
  | number v => rintro _ ⟨⟩; exact .refl _
  | string text => rintro _ ⟨⟩; exact .refl _
  | selector q shift =>
    intro _ h
    cases h with
    | selector h => exact ⟨rfl, rfl, Survival.absentSelector_congr h⟩
  | range q shift =>
    intro _ h
    cases h with
    | range h => exact ⟨rfl, rfl, Survival.absentSelector_congr h⟩
  | subquery e shift ih =>
    intro _ h
    cases h with
    | subquery h => exact (ih h).subquery shift
  | paren e ih =>
    intro _ h
    cases h with
    | paren h => exact (ih h).paren
  | neg e ih =>
    intro _ h
    cases h with
    | neg h => exact (ih h).neg
  | aggregate op param grouping e _ ih =>
    intro _ h
    cases h with
    | aggregate hparam hgrouping h =>
      refine (ih h).aggregate (fun _ ↦ ?_) (Survival.grouped_congr hgrouping)
        (Survival.absentGroups_congr hgrouping)
      cases hparam with
      | none => rfl
      | some hp => exact plainText?_of_reordered hp
  | binary op m lhs rhs ihl ihr =>
    intro _ h
    cases h with
    | binary hm hl hr => exact (ihl hl).binary (ihr hr) (Survival.matched_congr hm)
    | swap hand _ hm hl hr =>
      exact ((ihl hl).binary (ihr hr) (Survival.matched_congr hm)).trans (alike_swap hand _ _ _)
  | call f args ih =>
    intro _ h
    cases h with
    | call hargs =>
      have halike : List.Forall₂ Alike args _ := List.forall₂_iff_zip.mpr
        ⟨hargs.length_eq, fun hzip ↦ ih _ (List.of_mem_zip hzip).1 (List.forall₂_zip hargs hzip)⟩
      refine .call halike fun _ ↦ ?_
      rcases hargs with _ | ⟨-, _ | ⟨hname, -⟩⟩
      · rfl
      · rfl
      · exact plainText?_of_reordered hname

/-- Nothing about the labels of a query changes when it is written in another order. -/
theorem survival_reordered {e e' : Expr} (h : e.Reordered e') : survival e = survival e' :=
  (alike_of_reordered e h).survival

/-- Three operations change sides or lists, one inside of the other. -/
theorem survival_reordered_match :
    let a : Matcher := ⟨"a", .equal, "1"⟩
    let b : Matcher := ⟨"b", .equal, "2"⟩
    let foo := Expr.selector { metric := some "foo" } {}
    let baz := Expr.selector { metric := some "baz" } {}
    let gone (matchers : List Matcher) := Expr.call { name := "absent", params := [.vector] }
      [.selector { metric := some "bar", matchers } {}]
    let e := Expr.aggregate .sum none (some (.without ["team", "pod"]))
      (.binary .mul { matching := some (.on ["job"]), group := some (.right ["team"]) } foo
        (.paren (.binary .or {} baz (gone [a, b]))))
    let e' := Expr.aggregate .sum none (some (.without ["pod", "team", "pod"]))
      (.binary .mul { matching := some (.on ["job"]), group := some (.left ["team", "team"]) }
        (.paren (.binary .or {} (gone [b, a]) baz)) foo)
    e.Reordered e' ∧ survival e = survival e' ∧ (survival e').kept = .ofList ["a", "b", "job"] := by
  intro a b foo baz gone e e'
  have hsame : ∀ {m : String}, SameLabels [m] [m, m] := fun {m} l ↦ by simp
  have hpods : SameLabels ["team", "pod"] ["pod", "team", "pod"] := fun l ↦ by simp [or_comm]
  have hleaf : ∀ q : Selector, (Expr.selector q {}).Reordered (.selector q {}) :=
    fun q ↦ .selector ⟨rfl, .refl _, .refl _⟩
  have hgone : (gone [a, b]).Reordered (gone [b, a]) :=
    .call (.cons (.selector ⟨rfl, .swap _ _ _, .refl _⟩) .nil)
  have hor : (Expr.binary .or {} baz (gone [a, b])).Reordered (.binary .or {} (gone [b, a]) baz) :=
    .swap (by decide) (by decide) ⟨rfl, .none, .none⟩ (hleaf _) hgone
  have hm : Modifier.Reordered
      { matching := some (.on ["job"]), group := some (.right ["team"]) }
      { matching := some (.on ["job"]), group := some (.right ["team", "team"]) } :=
    ⟨rfl, .some (.on fun _ ↦ Iff.rfl), .some (.right hsame)⟩
  have hreordered : e.Reordered e' := .aggregate .none (.some (.withoutLabels hpods))
    (.swap (by decide) (by decide) hm (hleaf _) (.paren hor))
  exact ⟨hreordered, survival_reordered hreordered, by decide⟩

end AlertAudit.Labels
