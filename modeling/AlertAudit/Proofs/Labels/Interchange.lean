import AlertAudit.Proofs.Labels.SeriesLabels

/-!
Expressions that can stand for one another. What the analysis takes from a part of an expression is
its type, its result and the result for its absence; where a part names a label, it also takes
whether the part is a plain string. So expressions that are alike in these respects may be exchanged
as parts of any expression, one lemma for each operator.
-/

set_option autoImplicit false

namespace AlertAudit.Labels

open AlertAudit.Query Survival

/-- The text of an expression that is a plain string. -/
def plainText? : Expr → Option String
  | .string text => some text
  | _ => none

/-- What the operators take from an expression. -/
structure Alike (e e' : Expr) : Prop where
  type : e.type = e'.type
  survival : survival e = survival e'
  absence : absence e = absence e'

/-! ### Labels that are named -/

section Named

variable {name : String} {param param' : Option Expr} {args args' : List Expr} {s : Survival}

/-- A count of values takes no more from its parameter than the label that it names. -/
theorem aggregated_countValues (param : Option Expr) (grouping : Option Grouping) (s : Survival) :
    aggregated .countValues param grouping s =
      (param.bind plainText?).elim (grouped grouping s) (grouped grouping s).allow := by
  rcases param with _ | p
  · rfl
  · cases p <;> rfl

/-- The parameter only counts for the label that it names. -/
theorem aggregated_congr {op : Aggregator} (grouping : Option Grouping)
    (h : op = .countValues → param.bind plainText? = param'.bind plainText?) :
    aggregated op param grouping s = aggregated op param' grouping s := by
  by_cases hop : op = .countValues
  · subst hop
    rw [aggregated_countValues, aggregated_countValues, h rfl]
  · cases op <;> first | rfl | exact absurd rfl hop

/-- A function that writes a label takes no more from its arguments than the label that the second
one names. -/
theorem called_relabel (h : name ∈ relabelFunctions) (args : List Expr) (s : Survival) :
    called name args s = (args[1]?.bind plainText?).elim s fun label ↦
      if s.closed then s.allow label else { s with excluded := s.excluded.erase label } := by
  have hfun : name = "label_replace" ∨ name = "label_join" := by simpa [relabelFunctions] using h
  unfold called
  rw [if_pos hfun]
  rcases args with _ | ⟨a, _ | ⟨b, rest⟩⟩
  · rfl
  · rfl
  · cases b <;> rfl

/-- The arguments only count for the label that the second one names. -/
theorem called_congr
    (h : name ∈ relabelFunctions → args[1]?.bind plainText? = args'[1]?.bind plainText?) :
    called name args s = called name args' s := by
  by_cases hname : name ∈ relabelFunctions
  · rw [called_relabel hname, called_relabel hname, h hname]
  · have hfun : ¬(name = "label_replace" ∨ name = "label_join") := by
      simpa [relabelFunctions] using hname
    unfold called
    rw [if_neg hfun, if_neg hfun]

end Named

/-! ### Exchanging parts -/

namespace Alike

variable {e e' lhs lhs' rhs rhs' : Expr} {args args' : List Expr}

/-- Each expression is alike to itself. -/
theorem refl (e : Expr) : Alike e e := ⟨rfl, rfl, rfl⟩

theorem trans {e'' : Expr} (h : Alike e e') (h' : Alike e' e'') : Alike e e'' :=
  ⟨h.type.trans h'.type, h.survival.trans h'.survival, h.absence.trans h'.absence⟩

/-- Subqueries of alike expressions are alike. -/
theorem subquery (h : Alike e e') (shift : Shift) :
    Alike (.subquery e shift) (.subquery e' shift) :=
  ⟨rfl, by rw [Labels.survival, Labels.survival, h.survival], rfl⟩

/-- Alike expressions in parentheses are alike. -/
theorem paren (h : Alike e e') : Alike (.paren e) (.paren e') :=
  ⟨h.type, by rw [Labels.survival, Labels.survival, h.survival],
    by rw [Labels.absence, Labels.absence, h.absence]⟩

/-- Negations of alike expressions are alike. -/
theorem neg (h : Alike e e') : Alike (.neg e) (.neg e') :=
  ⟨h.type, by rw [Labels.survival, Labels.survival, h.survival], rfl⟩

/-- Aggregations of alike expressions are alike, if they group and name labels alike. -/
theorem aggregate {op : Aggregator} {param param' : Option Expr}
    {grouping grouping' : Option Grouping}
    (h : Alike e e') (hparam : op = .countValues → param.bind plainText? = param'.bind plainText?)
    (hgrouped : ∀ s, grouped grouping s = grouped grouping' s)
    (habsent : absentGroups grouping = absentGroups grouping') :
    Alike (.aggregate op param grouping e) (.aggregate op param' grouping' e') := by
  refine ⟨rfl, ?_, ?_⟩
  · rw [Labels.survival, Labels.survival, h.survival, aggregated_congr grouping hparam]
    unfold aggregated
    rw [hgrouped]
  · rw [Labels.absence, Labels.absence, habsent]

/-- Operations on alike operands are alike, if they match alike. -/
theorem binary {op : BinaryOp} {m m' : Modifier} (hl : Alike lhs lhs') (hr : Alike rhs rhs')
    (hmatched : ∀ a b, matched m a b = matched m' a b) :
    Alike (.binary op m lhs rhs) (.binary op m' lhs' rhs') := by
  have hoperated : operated op m lhs.type rhs.type (Labels.survival lhs) (Labels.survival rhs) =
      operated op m' lhs'.type rhs'.type (Labels.survival lhs') (Labels.survival rhs') := by
    rw [hl.type, hr.type, hl.survival, hr.survival]
    unfold operated
    rw [hmatched]
  refine ⟨?_, ?_, ?_⟩
  · rw [Expr.type, Expr.type, hl.type, hr.type]
  · rw [Labels.survival, Labels.survival, hoperated]
  · rw [Labels.absence, Labels.absence, hoperated]

/-- The first series among the arguments is found at the same position. -/
theorem survivalOfSeries_eq (h : List.Forall₂ Alike args args') :
    survivalOfSeries args = survivalOfSeries args' := by
  induction h with
  | nil => rfl
  | cons ha _ ih => rw [survivalOfSeries, survivalOfSeries, ha.type, ha.survival, ih]

/-- Alike arguments have the same result for the absence of the first one. -/
theorem absenceOfFirst_eq (h : List.Forall₂ Alike args args') :
    absenceOfFirst args = absenceOfFirst args' := by
  cases h with
  | nil => rfl
  | cons ha _ => rw [absenceOfFirst, absenceOfFirst, ha.absence]

/-- Calls with alike arguments are alike, if they name labels alike. -/
theorem call {f : Function} (h : List.Forall₂ Alike args args')
    (hname : f.name ∈ relabelFunctions → args[1]?.bind plainText? = args'[1]?.bind plainText?) :
    Alike (.call f args) (.call f args') := by
  refine ⟨rfl, ?_, rfl⟩
  rw [Labels.survival, Labels.survival, absenceOfFirst_eq h, survivalOfSeries_eq h]
  split
  · rfl
  · cases survivalOfSeries args' with
    | none => rfl
    | some inner => exact called_congr hname

end Alike

end AlertAudit.Labels
