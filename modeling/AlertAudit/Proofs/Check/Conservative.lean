import AlertAudit.Proofs.Check.Entries
import AlertAudit.Proofs.Labels.Removal

/-!
No false alarms about labels. The boundary of a query's result is set by an operator that takes
labels away and is otherwise handed on, merged or forgotten; so behind every boundary there is such
an operator within the query (`exists_of_boundary`), and a query without one has no label removed
and no rule with it a diagnostic about labels, whatever its templates read.
-/

set_option autoImplicit false

namespace AlertAudit.Labels

open AlertAudit.Query Survival

/-- The expression is a call of a function that yields a series where there is none. -/
def CallsAbsent : Expr → Prop
  | .call f _ => f.name ∈ absentFunctions
  | _ => False

/-- The outermost operator of the expression can take labels away. -/
def TakesLabels : Expr → Prop
  | .aggregate op _ _ _ => op ≠ .topk ∧ op ≠ .bottomk
  | .binary _ m lhs rhs =>
    lhs.type = .vector ∧ rhs.type = .vector ∧ ∃ labels, m.matching = some (.on labels)
  | .call f args => CallsAbsent (.call f args)
  | _ => False

/-- No operator within the expression can take labels away. -/
def TakesNothing (e : Expr) : Prop := ∀ x, Expr.Within x e → ¬TakesLabels x

/-- What stands behind a boundary. -/
def Behind : Boundary → Expr → Prop
  | .aggregation => TakesLabels
  | .absent => CallsAbsent

/-- An expression that tests for absence takes labels away. -/
theorem CallsAbsent.takesLabels {e : Expr} (h : CallsAbsent e) : TakesLabels e := by
  cases e with
  | call f args => exact h
  | _ => exact h.elim

/-- So does one behind a boundary. -/
theorem Behind.takesLabels {b : Boundary} {e : Expr} (h : Behind b e) : TakesLabels e := by
  cases b with
  | aggregation => exact h
  | absent => exact CallsAbsent.takesLabels h

/-- A test for absence is behind either boundary. -/
theorem CallsAbsent.behind {e : Expr} (h : CallsAbsent e) (b : Boundary) : Behind b e := by
  cases b with
  | aggregation => exact h.takesLabels
  | absent => exact h

/-! ### The boundary of a result, by those of its parts -/

section Boundaries

variable {b : Boundary}

/-- The boundary of two parts together is that of one of them. -/
theorem eq_or_eq_of_merge {x y : Option Boundary} (h : Boundary.merge x y = some b) :
    x = some b ∨ y = some b := by
  rcases x with _ | _ | _ <;> rcases y with _ | _ | _ <;> simp_all [Boundary.merge]

/-- To allow labels changes no boundary. -/
theorem boundary_foldl_allow (labels : List String) (s : Survival) :
    (labels.foldl allow s).boundary = s.boundary := by
  induction labels generalizing s with
  | nil => rfl
  | cons l labels ih => exact ih (s.allow l)

/-- A grouping is the boundary of an aggregation. -/
theorem boundary_grouped (grouping : Option Grouping) (inner : Survival) :
    (grouped grouping inner).boundary = some .aggregation := by
  rcases grouping with _ | (labels | labels) <;> rfl

/-- The boundary of an aggregation is that of what it aggregates, unless it is the aggregation
itself. -/
theorem boundary_aggregated {op : Aggregator} {param : Option Expr} {grouping : Option Grouping}
    {inner : Survival} (h : (aggregated op param grouping inner).boundary = some b) :
    inner.boundary = some b ∨ (op ≠ .topk ∧ op ≠ .bottomk ∧ b = .aggregation) := by
  by_cases hop : op = .topk ∨ op = .bottomk
  · rcases hop with rfl | rfl
    · exact .inl h
    · exact .inl h
  · obtain ⟨htop, hbottom⟩ := not_or.mp hop
    refine .inr ⟨htop, hbottom, ?_⟩
    unfold aggregated at h
    split at h
    · exact absurd rfl htop
    · exact absurd rfl hbottom
    · exact Option.some.inj (h.symm.trans (boundary_grouped grouping inner))
    · exact Option.some.inj (h.symm.trans (boundary_grouped grouping inner))

/-- Labels that the one side adds to the many change no boundary. -/
theorem boundary_manySide {many : Survival} {on taken : List String}
    (h : (manySide many on taken).boundary = some b) : many.boundary = some b := by
  unfold manySide at h
  split at h
  · exact absurd h (by simp [unknown])
  · rwa [boundary_foldl_allow] at h

/-- The boundary of matched operands is that of one of them, unless the matching on some labels is
one. -/
theorem boundary_matched {m : Modifier} {lhs rhs : Survival}
    (h : (matched m lhs rhs).boundary = some b) :
    lhs.boundary = some b ∨ rhs.boundary = some b ∨
      (b = .aggregation ∧ ∃ labels, m.matching = some (.on labels)) := by
  obtain ⟨returnBool, matching, group⟩ := m
  have hmerged (hmerge : Boundary.merge lhs.boundary rhs.boundary = some b) :
      lhs.boundary = some b ∨ rhs.boundary = some b ∨
        (b = .aggregation ∧ ∃ labels, matching = some (.on labels)) :=
    (eq_or_eq_of_merge hmerge).imp_right .inl
  rcases group with _ | (taken | taken)
  · rcases matching with _ | (labels | labels)
    · exact hmerged h
    · exact .inr (.inr ⟨(Option.some.inj h).symm, labels, rfl⟩)
    · exact hmerged h
  · exact .inl (boundary_manySide h)
  · exact .inr (.inl (boundary_manySide h))

/-- The boundary of an operation is that of one of its operands, unless the matching on some labels
is one. -/
theorem boundary_operated {op : BinaryOp} {m : Modifier} {lhsType rhsType : ValueType}
    {lhs rhs : Survival} (h : (operated op m lhsType rhsType lhs rhs).boundary = some b) :
    lhs.boundary = some b ∨ rhs.boundary = some b ∨ (b = .aggregation ∧ lhsType ≠ .scalar ∧
      rhsType ≠ .scalar ∧ ∃ labels, m.matching = some (.on labels)) := by
  unfold operated at h
  split_ifs at h with hlhs hrhs hrhs
  · exact absurd h (by simp [unknown])
  · exact .inr (.inl h)
  · exact .inl h
  · split at h
    · exact .inl h
    · exact (eq_or_eq_of_merge h).imp_right .inl
    · exact (eq_or_eq_of_merge h).imp_right .inl
    · refine (boundary_matched h).imp_right (.imp_right fun hon ↦ ?_)
      exact ⟨hon.1, hlhs, hrhs, hon.2⟩

/-- The boundary of a call is that of its argument. -/
theorem boundary_called (name : String) (args : List Expr) (inner : Survival) :
    (called name args inner).boundary = inner.boundary := by
  unfold called
  split
  · split
    · split <;> rfl
    · rfl
  · split <;> rfl

end Boundaries

/-! ### The operator behind a boundary -/

/-- Behind the boundary of an expression's result there is an operator within the expression. -/
theorem exists_of_boundary (e : Expr) : e.WellTyped →
    ∀ b, (survival e).boundary = some b → ∃ x, Expr.Within x e ∧ Behind b x := by
  have hpart {c e : Expr} (hchild : Expr.Child c e) {b : Boundary}
      (h : ∃ x, Expr.Within x c ∧ Behind b x) : ∃ x, Expr.Within x e ∧ Behind b x :=
    h.imp fun x hx ↦ ⟨hx.1.tail hchild, hx.2⟩
  induction e using Expr.inductionOn with
  | subquery e shift ih =>
    exact fun htyped b h ↦ hpart .subquery (ih (htyped.of_child .subquery) b h)
  | paren e ih => exact fun htyped b h ↦ hpart .paren (ih (htyped.of_child .paren) b h)
  | neg e ih => exact fun htyped b h ↦ hpart .neg (ih (htyped.of_child .neg) b h)
  | aggregate op param grouping e _ ih =>
    intro htyped b h
    rcases boundary_aggregated h with h | ⟨htop, hbottom, rfl⟩
    · exact hpart .body (ih (htyped.of_child .body) b h)
    · exact ⟨_, Relation.ReflTransGen.refl, htop, hbottom⟩
  | binary op m lhs rhs ihl ihr =>
    intro htyped b h
    rcases boundary_operated h with h | h | ⟨rfl, hlhs, hrhs, hon⟩
    · exact hpart .lhs (ihl (htyped.of_child .lhs) b h)
    · exact hpart .rhs (ihr (htyped.of_child .rhs) b h)
    · obtain ⟨hl, hr⟩ := Expr.vector_of_ne_scalar htyped.accepted hlhs hrhs
      exact ⟨_, Relation.ReflTransGen.refl, hl, hr, hon⟩
  | call f args ih =>
    intro htyped b h
    by_cases habsent : f.name ∈ absentFunctions
    · -- what the argument says of the absence is said by this call
      have hcalls : CallsAbsent (.call f args) := habsent
      exact ⟨_, Relation.ReflTransGen.refl, hcalls.behind b⟩
    · rw [survival, if_neg (by simpa using habsent), survivalOfSeries_eq] at h
      cases harg : seriesArg? args with
      | none => simp [harg, unknown] at h
      | some a =>
        have hmem := List.mem_of_find?_eq_some harg
        rw [harg, Option.map_some, boundary_called] at h
        exact hpart (.arg hmem) (ih a hmem (htyped.of_child (.arg hmem)) b h)
  | _ => exact fun _ b h ↦ absurd h (by simp [survival, unknown])

/-- What takes no labels away has no boundary. -/
theorem boundary_of_takesNothing {e : Expr} (htyped : e.WellTyped) (h : TakesNothing e) :
    (survival e).boundary = none := by
  refine Option.eq_none_iff_forall_not_mem.mpr fun b hb ↦ ?_
  obtain ⟨x, hwithin, hbehind⟩ := exists_of_boundary e htyped b hb
  exact h x hwithin hbehind.takesLabels

/-- Without a boundary no label is removed. -/
theorem Survival.removes_of_boundary {s : Survival} (h : s.boundary = none) (l : String) :
    s.removes l = none := by
  rw [removes, h, ite_self]

end AlertAudit.Labels

namespace AlertAudit.Check

open AlertAudit.Labels AlertAudit.Query

/-- Without a removed label there is no diagnostic about labels. -/
theorem not_isOfLabel_of_mem_template {s : Section} {q : Option QueryLabels} {e : Entry}
    {text : String} {d : Diagnostic} (hq : ∀ query ∈ q, ∀ l, query.survival.removes l = none)
    (h : d ∈ template s q e text) : ¬IsOfLabel d.kind := by
  rw [template] at h
  cases hreads : Template.Reads.ofText text with
  | error err =>
    rw [hreads] at h
    obtain rfl := List.mem_singleton.mp h
    simp [problem, Diagnostic.report, IsOfLabel]
  | ok reads =>
    rw [hreads] at h
    rcases List.mem_append.mp h with h | h
    · cases s with
      | labels =>
        obtain ⟨v, -, rfl⟩ := List.mem_map.mp h
        simp [problem, Diagnostic.report, IsOfLabel]
      | annotations => exact absurd h List.not_mem_nil
    · cases q with
      | none => exact absurd h List.not_mem_nil
      | some query =>
        obtain ⟨m, -, hm⟩ := List.mem_filterMap.mp h
        rw [hq query rfl m.name] at hm
        exact absurd hm (by simp)

/-- Where the query removes no label, no diagnostic of the rule says that it does. -/
theorem not_isOfLabel_of_mem_rule {r : Rule} {d : Diagnostic}
    (hq : ∀ query ∈ queryLabels? r.query, ∀ l, query.survival.removes l = none)
    (h : d ∈ rule r) : ¬IsOfLabel d.kind := by
  cases hkind : r.kind with
  | recording =>
    rw [rule, hkind] at h
    exact absurd h List.not_mem_nil
  | alerting =>
    rw [rule_of_alerting hkind, (Diagnostics.stableSort_sortByLine _).mem_iff,
      List.mem_append] at h
    rcases h with h | h
    · obtain ⟨e, -, h⟩ := List.mem_flatMap.mp h
      obtain ⟨text, -, h⟩ := List.mem_flatMap.mp h
      exact not_isOfLabel_of_mem_template hq h
    · obtain ⟨e, -, h⟩ := List.mem_flatMap.mp h
      obtain ⟨text, -, h⟩ := List.mem_flatMap.mp h
      exact not_isOfLabel_of_mem_template hq h

/-- Labels are reported as removed only on the strength of an operator within the query. -/
structure Conservative (e : Expr) : Prop where
  taken : ∀ b, (survival e).boundary = some b → ∃ x, Expr.Within x e ∧ TakesLabels x
  absent : (survival e).boundary = some .absent → ∃ x, Expr.Within x e ∧ CallsAbsent x
  keeps : TakesNothing e → ∀ l, (survival e).removes l = none
  /-- Whatever the templates of a rule are, its query gives no diagnostic about labels. -/
  silent : TakesNothing e → ∀ (r : Rule) (q : Located String), r.query = some q →
    Expr.ofText? q.value = some e → ∀ d ∈ rule r, ¬IsOfLabel d.kind

/-- The evaluation of labels is conservative for every expression that is well typed: its boundary
comes from an operator of the expression that takes labels away, and without such an operator no
label is removed and no diagnostic says so. -/
theorem conservative_of_wellTyped {e : Expr} (h : e.WellTyped) : Conservative e := by
  have hkeeps (hnothing : TakesNothing e) (l : String) : (survival e).removes l = none :=
    Survival.removes_of_boundary (boundary_of_takesNothing h hnothing) l
  refine ⟨fun b hb ↦ ?_, fun hb ↦ exists_of_boundary e h .absent hb, hkeeps,
    fun hnothing r q hq hparses d hd ↦ not_isOfLabel_of_mem_rule (fun query hquery l ↦ ?_) hd⟩
  · obtain ⟨x, hwithin, hbehind⟩ := exists_of_boundary e h b hb
    exact ⟨x, hwithin, hbehind.takesLabels⟩
  · have hlabels : query = ⟨survival e, q.lines⟩ := by
      simpa [queryLabels?, hq, survivalOfQuery?, hparses, eq_comm] using hquery
    rw [hlabels]
    exact hkeeps hnothing l

/-- Both branches of a boundary: the aggregation hides the absence test in it. -/
theorem conservative_sum_absent :
    let foo := Expr.selector { metric := some "foo" } {}
    let e := Expr.aggregate .sum none (some (.by ["job"]))
      (.call { name := "absent", params := [.vector] } [foo])
    e.WellTyped ∧ (survival e).boundary = some .aggregation ∧ Conservative e := by
  intro foo e
  have hfoo : foo.WellTyped := Expr.WellTyped.intro rfl fun _ hchild ↦ by
    dsimp only [foo] at hchild
    cases hchild
  have htyped : e.WellTyped := by
    refine Expr.WellTyped.intro rfl fun _ hchild ↦ ?_
    dsimp only [e] at hchild
    cases hchild
    refine Expr.WellTyped.intro rfl fun _ hchild ↦ ?_
    cases hchild with
    | arg hmem =>
      obtain rfl := List.mem_singleton.mp hmem
      exact hfoo
  exact ⟨htyped, rfl, conservative_of_wellTyped htyped⟩

end AlertAudit.Check
