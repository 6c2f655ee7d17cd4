import AlertAudit.Proofs.Labels.WellFormed

/-!
Results of two operands put together. What a combination admits is what both operands admit
(`admits_combine`), and it excludes what either of them does (`Consistent.mem_excluded_combine`), so
it does not matter in which order results are put together. The second fact takes results that keep
no label that they exclude.

A query with `unless` is treated as such a combination (`survival_unless`), although its series are
those of the left side (`carries_unless_iff`). So it is said to lose every label that the right side
cannot carry, also where the series on the left have that label.
-/

set_option autoImplicit false

namespace AlertAudit.Labels

open AlertAudit.Query

/-- The order of two boundaries does not matter. -/
theorem Boundary.merge_comm (a b : Option Boundary) : merge a b = merge b a := by
  rcases a with _ | _ | _ <;> rcases b with _ | _ | _ <;> rfl

/-- Three boundaries may be put together in any order. -/
theorem Boundary.merge_assoc (a b c : Option Boundary) :
    merge (merge a b) c = merge a (merge b c) := by
  rcases a with _ | _ | _ <;> rcases b with _ | _ | _ <;> rcases c with _ | _ | _ <;> rfl

namespace Survival

/-- No label is both kept and excluded. -/
def Consistent (s : Survival) : Prop := ∀ l ∈ s.kept, l ∉ s.excluded

/-- A closed result admits what it keeps, an open one what it does not exclude. -/
def Admits (s : Survival) (l : String) : Prop :=
  if s.closed then l ∈ s.kept else l ∉ s.excluded

section Combine

variable {a b : Survival} {l : String}

/-- A closed combination keeps what both operands admit. -/
theorem mem_kept_combine :
    l ∈ (a.combine b).kept ↔ (a.combine b).closed ∧ a.Admits l ∧ b.Admits l := by
  cases ha : a.closed <;> cases hb : b.closed <;> simp [combine, Admits, ha, hb, and_comm]

/-- A combination excludes what an operand excludes, unless it is kept. -/
theorem mem_excluded_combine : l ∈ (a.combine b).excluded ↔
    (l ∈ a.excluded ∨ l ∈ b.excluded) ∧ l ∉ (a.combine b).kept := by
  rw [combine, LabelSet.mem_diff, LabelSet.mem_union]

/-- A label can come through a combination if it can come through both operands. -/
theorem admits_combine : (a.combine b).Admits l ↔ a.Admits l ∧ b.Admits l := by
  rw [Admits]
  split
  next hclosed => rw [mem_kept_combine, and_iff_right hclosed]
  next hopen =>
    have hkept : l ∉ (a.combine b).kept := fun h ↦ hopen (mem_kept_combine.mp h).1
    obtain ⟨ha, hb⟩ : a.closed = false ∧ b.closed = false := by simpa [combine] using hopen
    rw [mem_excluded_combine, and_iff_left hkept, not_or, Admits, Admits, ha, hb]
    rfl

/-- A combination keeps no label that it excludes, even where an operand does. -/
theorem consistent_combine (a b : Survival) : (a.combine b).Consistent :=
  fun _ hkept hexcluded ↦ (mem_excluded_combine.mp hexcluded).2 hkept

namespace Consistent

variable {s : Survival}

/-- What is admitted is not excluded. -/
theorem not_mem_excluded (h : s.Consistent) (hl : s.Admits l) : l ∉ s.excluded := by
  rw [Admits] at hl
  split at hl
  · exact h l hl
  · exact hl

/-- Where no label is both kept and excluded, a label can be present if it is admitted. -/
theorem mayCarry_iff (h : s.Consistent) : s.mayCarry l ↔ s.Admits l := by
  constructor
  · intro hcarry
    obtain ⟨hexcluded, hkept⟩ : l ∉ s.excluded ∧ (s.closed = false ∨ l ∈ s.kept) := by
      simpa [mayCarry] using hcarry
    rw [Admits]
    split
    next hclosed => exact hkept.resolve_left (by simp [hclosed])
    next => exact hexcluded
  · intro hl
    have hexcluded := h.not_mem_excluded hl
    cases hclosed : s.closed with
    | false => simp [mayCarry, hexcluded, hclosed]
    | true =>
      have hkept : l ∈ s.kept := by rwa [Admits, if_pos hclosed] at hl
      simp [mayCarry, hexcluded, hkept]

/-- What an operand excludes it does not admit, so it is not kept by the combination either. -/
theorem mem_excluded_combine (ha : a.Consistent) (hb : b.Consistent) :
    l ∈ (a.combine b).excluded ↔ l ∈ a.excluded ∨ l ∈ b.excluded := by
  refine Survival.mem_excluded_combine.trans (and_iff_left_of_imp fun h hkept ↦ ?_)
  obtain ⟨-, hla, hlb⟩ := mem_kept_combine.mp hkept
  exact h.elim (ha.not_mem_excluded hla) (hb.not_mem_excluded hlb)

/-- A combination can carry what both operands can carry. -/
theorem mayCarry_combine_iff (ha : a.Consistent) (hb : b.Consistent) :
    (a.combine b).mayCarry l ↔ a.mayCarry l ∧ b.mayCarry l := by
  rw [(consistent_combine a b).mayCarry_iff, admits_combine, ha.mayCarry_iff, hb.mayCarry_iff]

end Consistent

end Combine

/-! ### Order -/

/-- Results with the same parts are the same. -/
theorem eq_of_fields {s t : Survival} (hkept : s.kept = t.kept)
    (hexcluded : s.excluded = t.excluded)
    (hclosed : s.closed = t.closed) (hboundary : s.boundary = t.boundary) : s = t := by
  obtain ⟨kept, excluded, closed, boundary⟩ := s
  obtain rfl : kept = t.kept := hkept
  obtain rfl : excluded = t.excluded := hexcluded
  obtain rfl : closed = t.closed := hclosed
  obtain rfl : boundary = t.boundary := hboundary
  rfl

/-- The order of the operands does not matter. -/
theorem combine_comm (a b : Survival) : a.combine b = b.combine a := by
  have hclosed : (a.combine b).closed = (b.combine a).closed := Bool.or_comm _ _
  have hkept : (a.combine b).kept = (b.combine a).kept := by
    ext l
    rw [mem_kept_combine, mem_kept_combine, hclosed, and_comm (a := a.Admits l)]
  have hexcluded : (a.combine b).excluded = (b.combine a).excluded := by
    ext l
    rw [mem_excluded_combine, mem_excluded_combine, hkept, or_comm]
  exact eq_of_fields hkept hexcluded hclosed (Boundary.merge_comm _ _)

/-- Three operands may be put together in any order, if they keep nothing that they exclude. -/
theorem Consistent.combine_assoc {a b c : Survival} (ha : a.Consistent) (hb : b.Consistent)
    (hc : c.Consistent) : (a.combine b).combine c = a.combine (b.combine c) := by
  have hclosed : ((a.combine b).combine c).closed = (a.combine (b.combine c)).closed :=
    Bool.or_assoc _ _ _
  have hkept : ((a.combine b).combine c).kept = (a.combine (b.combine c)).kept := by
    ext l
    rw [mem_kept_combine, mem_kept_combine, hclosed, admits_combine, admits_combine, and_assoc]
  have hexcluded : ((a.combine b).combine c).excluded = (a.combine (b.combine c)).excluded := by
    ext l
    rw [(consistent_combine a b).mem_excluded_combine hc, ha.mem_excluded_combine hb,
      ha.mem_excluded_combine (consistent_combine b c), hb.mem_excluded_combine hc, or_assoc]
  exact eq_of_fields hkept hexcluded hclosed (Boundary.merge_assoc _ _ _)

/-- Results may be put together in any order, and a combination keeps no label that it excludes,
even where an operand does. -/
theorem combine_comm_and_assoc (a b c : Survival) : a.combine b = b.combine a ∧
    (a.combine b).Consistent ∧ (a.Consistent → b.Consistent → c.Consistent →
      (a.combine b).combine c = a.combine (b.combine c)) :=
  ⟨combine_comm a b, consistent_combine a b, fun ha hb hc ↦ ha.combine_assoc hb hc⟩

/-- A closed result and two open ones, which keep labels nevertheless. -/
theorem combine_comm_and_assoc_mixed :
    let byJob : Survival :=
      { kept := .ofList ["job", "env"], excluded := .ofList ["pod"], closed := true
        boundary := some .absent }
    let withoutEnv : Survival :=
      { kept := .ofList ["job", "pod"], excluded := .ofList ["env"], boundary := some .aggregation }
    let plain : Survival := { kept := .ofList ["zone"], excluded := .ofList ["env"] }
    let all : Survival :=
      { kept := .ofList ["job"], excluded := .ofList ["env", "pod"], closed := true
        boundary := some .aggregation }
    byJob.Consistent ∧ withoutEnv.Consistent ∧ plain.Consistent ∧
      byJob.combine withoutEnv = withoutEnv.combine byJob ∧
      (byJob.combine withoutEnv).Consistent ∧ (byJob.combine withoutEnv).combine plain = all ∧
      byJob.combine (withoutEnv.combine plain) = all := by
  intro byJob withoutEnv plain all
  have hfirst : byJob.Consistent := by simp [Consistent, byJob]
  have hsecond : withoutEnv.Consistent := by simp [Consistent, withoutEnv]
  have hthird : plain.Consistent := by simp [Consistent, plain]
  obtain ⟨hcomm, hconsistent, hassoc⟩ := combine_comm_and_assoc byJob withoutEnv plain
  have hall : (byJob.combine withoutEnv).combine plain = all := by decide
  exact ⟨hfirst, hsecond, hthird, hcomm, hconsistent, hall,
    (hassoc hfirst hsecond hthird).symm.trans hall⟩

/-- An operand that excludes what it keeps may lose its exclusion in one order and not in the
other. -/
example :
    let nothing : Survival := { closed := true }
    let torn : Survival :=
      { kept := .ofList ["job"], excluded := .ofList ["job"], closed := true }
    (nothing.combine torn).combine unknown ≠ nothing.combine (torn.combine unknown) := by
  decide

/-! ### Reports -/

/-- A label is said to be lost if it cannot be present and something took labels away. -/
theorem isSome_removes_iff {s : Survival} {l : String} :
    (s.removes l).isSome ↔ s.boundary.isSome ∧ ¬s.mayCarry l := by
  rw [removes]
  split <;> simp_all

/-- Two results together have a boundary if one of them has. -/
theorem isSome_merge_iff {a b : Option Boundary} :
    (Boundary.merge a b).isSome ↔ a.isSome ∨ b.isSome := by
  rcases a with _ | _ | _ <;> rcases b with _ | _ | _ <;> decide

/-- What a combination is said to lose: something that one of the operands cannot carry. -/
theorem isSome_removes_combine_iff {a b : Survival} {l : String} (ha : a.Consistent)
    (hb : b.Consistent) : ((a.combine b).removes l).isSome ↔
      (a.boundary.isSome ∨ b.boundary.isSome) ∧ (¬a.mayCarry l ∨ ¬b.mayCarry l) := by
  rw [isSome_removes_iff, ha.mayCarry_combine_iff hb, not_and_or]
  exact and_congr_left fun _ ↦ isSome_merge_iff

end Survival

/-! ### Series that are taken away -/

section Unless

variable {m : Modifier} {lhs rhs : Expr} {l : String}

/-- The result of `unless` is that of both sides together. -/
theorem survival_unless (hlhs : lhs.type ≠ .scalar) (hrhs : rhs.type ≠ .scalar) :
    survival (.binary .unless m lhs rhs) = (survival lhs).combine (survival rhs) := by
  rw [survival, Survival.operated, if_neg hlhs, if_neg hrhs]

/-- `unless` hands on series of the left side as they are. -/
theorem carries_unless_iff (hlhs : lhs.type ≠ .scalar) (hrhs : rhs.type ≠ .scalar) :
    Carries (.binary .unless m lhs rhs) l ↔ Carries lhs l := by
  constructor
  · rintro ⟨S, hyields, hmem⟩
    cases hyields with
    | unlessLeft _ _ h => exact ⟨S, h, hmem⟩
    | scalarLeft hscalar => exact absurd hscalar hlhs
    | scalarRight hscalar => exact absurd hscalar hrhs
    | matchedOn _ _ hset | matched _ _ hset | groupLeft _ _ hset | groupRight _ _ hset =>
      exact absurd hset (by decide)
  · rintro ⟨S, hyields, hmem⟩
    exact ⟨S, .unlessLeft hlhs hrhs hyields, hmem⟩

/-- The series of `unless` have the labels of the left side, but a label is also reported as removed
if it is the right side that cannot carry it. -/
theorem removes_unless_iff (hlhs : lhs.type ≠ .scalar) (hrhs : rhs.type ≠ .scalar) :
    (Carries (.binary .unless m lhs rhs) l ↔ Carries lhs l) ∧
      (((survival (.binary .unless m lhs rhs)).removes l).isSome ↔
        ((survival lhs).boundary.isSome ∨ (survival rhs).boundary.isSome) ∧
          (¬(survival lhs).mayCarry l ∨ ¬(survival rhs).mayCarry l)) := by
  refine ⟨carries_unless_iff hlhs hrhs, ?_⟩
  rw [survival_unless hlhs hrhs]
  exact Survival.isSome_removes_combine_iff (wellFormed_survival lhs).disjoint
    (wellFormed_survival rhs).disjoint

/-- The right side of `foo unless sum by (job) (bar)` cannot carry the label `env`. -/
theorem removes_unless_iff_byJob :
    let lhs := Expr.selector { metric := some "foo" } {}
    let rhs := Expr.aggregate .sum none (some (.by ["job"])) (.selector { metric := some "bar" } {})
    lhs.type ≠ .scalar ∧ rhs.type ≠ .scalar ∧ Carries (.binary .unless {} lhs rhs) "env" ∧
      ((survival (.binary .unless {} lhs rhs)).removes "env").isSome ∧
      ¬((survival (.binary .unless {} lhs rhs)).removes "job").isSome := by
  intro lhs rhs
  have hlhs : lhs.type ≠ .scalar := by decide
  have hrhs : rhs.type ≠ .scalar := by decide
  obtain ⟨hcarries, henv⟩ := removes_unless_iff (m := {}) (l := "env") hlhs hrhs
  obtain ⟨-, hjob⟩ := removes_unless_iff (m := {}) (l := "job") hlhs hrhs
  refine ⟨hlhs, hrhs, hcarries.mpr ⟨_, .selector, Set.mem_univ _⟩, henv.mpr (by decide), ?_⟩
  exact mt hjob.mp (by decide)

/-- The series of `foo unless sum(bar)` can have the label `job`, as those of `foo` can. -/
theorem not_forall_removes_of_unless :
    let foo := Expr.selector { metric := some "foo" } {}
    let sum := Expr.aggregate .sum none none (.selector { metric := some "bar" } {})
    let query := Expr.binary .unless {} foo sum
    Expr.ofText? "foo unless sum(bar)" = some query ∧ Carries query "job" ∧
      (survival query).removes "job" = some .aggregation ∧
      ¬∀ (m : Modifier) (lhs rhs : Expr) (l : String), lhs.type = .vector → rhs.type = .vector →
        ((survival (.binary .unless m lhs rhs)).removes l).isSome →
          ((survival lhs).removes l).isSome := by
  intro foo sum query
  have hremoves : (survival query).removes "job" = some .aggregation := by decide
  have hcarries : Carries query "job" :=
    (carries_unless_iff (by decide) (by decide)).mpr ⟨_, .selector, Set.mem_univ _⟩
  have htokens : Token.ofText? "foo unless sum(bar)" = some [.word "foo", .word "unless",
      .word "sum", .mark .parenOpen, .word "bar", .mark .parenClose] := by decide +kernel
  have hparse : Expr.ofText? "foo unless sum(bar)" = some query := by
    rw [Expr.ofText?, htokens]
    with_unfolding_all rfl
  refine ⟨hparse, hcarries, hremoves, fun h ↦ ?_⟩
  have hleft := h {} foo sum "job" rfl rfl (hremoves ▸ rfl)
  exact absurd hleft (by decide)

end Unless

end AlertAudit.Labels
