import AlertAudit.Proofs.Labels.Combination

/-!
What is known of an aggregation, and of a match of two operands on all their labels, is exact for
each label: nothing is said to be lost besides what the operator takes away and what its operands
cannot carry. A grouping loses the labels that it does not let through and those that it never gets
(`removes_grouped`), and a match carries what both operands can (`mayCarry_matched_iff`). The latter
needs operands that keep no label that they exclude, which is so for the results of all queries.
-/

set_option autoImplicit false

namespace AlertAudit.Labels

open AlertAudit.Query

/-- It is decided by the list of the grouping. -/
instance decidablePasses : (grouping : Option Grouping) → (l : String) →
    Decidable (Passes grouping l)
  | some (.by labels), l => inferInstanceAs (Decidable (l ∈ labels))
  | some (.without labels), l => inferInstanceAs (Decidable (l ∉ labels))
  | none, _ => inferInstanceAs (Decidable False)

namespace Survival

variable {op : Aggregator} {param : Option Expr} {grouping : Option Grouping} {inner : Survival}
  {l : String}

/-- Aggregations that neither choose series nor count values only group. -/
theorem aggregated_eq_grouped (htop : op ≠ .topk) (hbottom : op ≠ .bottomk)
    (hcount : op ≠ .countValues) :
    aggregated op param grouping inner = grouped grouping inner := by
  unfold aggregated
  split
  · exact absurd rfl htop
  · exact absurd rfl hbottom
  · exact absurd rfl hcount
  · rfl

/-- A grouping always is a boundary. -/
theorem boundary_grouped : (grouped grouping inner).boundary = some .aggregation := by
  rcases grouping with _ | (labels | labels) <;> rfl

/-- A grouping loses the labels that it does not let through and those that it never gets. -/
theorem removes_grouped : (grouped grouping inner).removes l =
    if inner.mayCarry l ∧ Passes grouping l then none else some .aggregation := by
  rw [removes, boundary_grouped]
  exact if_congr mayCarry_grouped rfl rfl

/-- A match on all labels can carry what both operands can carry. -/
theorem mayCarry_matched_iff {m : Modifier} {a b : Survival} (hmatching : m.matching = none)
    (hgroup : m.group = none) (ha : a.Consistent) (hb : b.Consistent) :
    (matched m a b).mayCarry l ↔ a.mayCarry l ∧ b.mayCarry l := by
  have hmatched : matched m a b = a.combine b := by simp only [matched, hmatching, hgroup]
  rw [hmatched]
  exact ha.mayCarry_combine_iff hb

end Survival

/-- Vectors are matched by an operation that is none on sets. -/
theorem survival_binary_of_vectors {op : BinaryOp} {m : Modifier} {lhs rhs : Expr}
    (hset : op.isSet = false) (hlhs : lhs.type ≠ .scalar) (hrhs : rhs.type ≠ .scalar) :
    survival (.binary op m lhs rhs) = Survival.matched m (survival lhs) (survival rhs) := by
  have hop : ∀ op', op'.isSet = true → op ≠ op' := by
    rintro op' h rfl
    exact Bool.false_ne_true (hset.symm.trans h)
  rw [survival, Survival.operated, if_neg hlhs, if_neg hrhs]
  · exact hop .and rfl
  · exact hop .or rfl
  · exact hop .unless rfl

/-- `by` keeps the labels that it lists, `without` the others, and a match on all labels those of
both operands, each of them as far as the operands can carry the label. -/
theorem exact_aggregate_and_match (e : Expr) (l : String) :
    (∀ op : Aggregator, op ≠ .topk → op ≠ .bottomk → op ≠ .countValues →
      ∀ (param : Option Expr) (labels : List String),
        (survival (.aggregate op param (some (.by labels)) e)).removes l =
          (if l ∈ labels ∧ (survival e).mayCarry l then none else some .aggregation) ∧
        (survival (.aggregate op param (some (.without labels)) e)).removes l =
          (if l ∈ labels ∨ ¬(survival e).mayCarry l then some .aggregation else none)) ∧
    ∀ (op : BinaryOp) (m : Modifier) (f : Expr), op.isSet = false → m.matching = none →
      m.group = none → e.type ≠ .scalar → f.type ≠ .scalar →
        ((survival (.binary op m e f)).mayCarry l ↔
          (survival e).mayCarry l ∧ (survival f).mayCarry l) := by
  refine ⟨fun op htop hbottom hcount param labels ↦ ⟨?_, ?_⟩,
    fun op m f hset hmatching hgroup he hf ↦ ?_⟩
  · rw [survival, Survival.aggregated_eq_grouped htop hbottom hcount, Survival.removes_grouped]
    exact if_congr and_comm rfl rfl
  · have hlost : ¬((survival e).mayCarry l ∧ Passes (some (.without labels)) l) ↔
        l ∈ labels ∨ ¬(survival e).mayCarry l := by
      rw [not_and_or, or_comm]
      exact or_congr_left not_not
    rw [survival, Survival.aggregated_eq_grouped htop hbottom hcount, Survival.removes_grouped,
      ← ite_not]
    exact if_congr hlost rfl rfl
  · rw [survival_binary_of_vectors hset he hf]
    exact Survival.mayCarry_matched_iff hmatching hgroup (wellFormed_survival e).disjoint
      (wellFormed_survival f).disjoint

/-- The series for the absence of `foo` has the label `job`, and no series of the match has it. -/
theorem exact_aggregate_and_match_absent :
    let e := Expr.call { name := "absent", params := [.vector] }
      [.selector { metric := some "foo", matchers := [⟨"job", .equal, "a"⟩] } {}]
    let f := Expr.aggregate .sum none (some (.without ["job"]))
      (.selector { metric := some "bar" } {})
    (survival e).mayCarry "job" ∧ ¬(survival f).mayCarry "job" ∧
      (survival (.aggregate .avg none (some (.by ["env", "job"])) e)).removes "job" = none ∧
      (survival (.aggregate .avg none (some (.without ["env", "job"])) e)).removes "job" =
        some .aggregation ∧
      ¬(survival (.binary .div {} e f)).mayCarry "job" := by
  intro e f
  have he : (survival e).mayCarry "job" := by decide
  have hf : ¬(survival f).mayCarry "job" := by decide
  obtain ⟨haggregate, hmatch⟩ := exact_aggregate_and_match e "job"
  obtain ⟨hby, hwithout⟩ :=
    haggregate .avg (by decide) (by decide) (by decide) none ["env", "job"]
  have hdiv := hmatch .div {} f rfl rfl rfl (by decide) (by decide)
  exact ⟨he, hf, hby.trans (if_pos ⟨by decide, he⟩), hwithout.trans (if_pos (.inl (by decide))),
    fun h ↦ hf (hdiv.mp h).2⟩

end AlertAudit.Labels
