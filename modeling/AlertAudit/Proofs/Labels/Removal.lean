import AlertAudit.Proofs.Labels.SeriesLabels

/-!
What is reported as removed from a query cannot be there. For each label, every `or` of the query
can be replaced by one of its operands so that an output series carries the label only if the
analysis says that it may (`exists_resolves_mayCarry`). The choice matters where an `or` joins a
side that may carry the label with one that may not: the latter is chosen.
-/

set_option autoImplicit false

namespace AlertAudit.Labels

open AlertAudit.Query Survival

/-- Some output series carries the label. -/
def Carries (e : Expr) (l : String) : Prop := ∃ S, Yields e S ∧ l ∈ S

/-- No part of the expression takes series away by `unless`. -/
def WithoutUnless (e : Expr) : Prop :=
  ∀ x, Expr.Within x e → ∀ m lhs rhs, x ≠ .binary .unless m lhs rhs

/-- The label that an expression writes is given by a plain string. -/
def NamesPlainly : Expr → Prop
  | .aggregate .countValues param _ _ => ∃ label, param = some (.string label)
  | .call f args => f.name ∈ relabelFunctions → ∃ label, args[1]? = some (.string label)
  | _ => True

/-- Every label that a part of the expression writes is given by a plain string. -/
def WithPlainNames (e : Expr) : Prop := ∀ x, Expr.Within x e → NamesPlainly x

/-- A series that may have lost its name has no further labels. -/
theorem MaybeUnnamed.subset {S S' : Set String} (h : MaybeUnnamed S S') : S' ⊆ S := by
  rcases h with rfl | rfl
  · exact Set.Subset.rfl
  · exact fun _ hmem ↦ hmem.1

/-! ### Choosing a side of each `or` -/

/-- Each `or` has a side to be replaced by. -/
theorem exists_resolves (e : Expr) : ∃ e', Resolves e e' := by
  induction e using Expr.inductionOn with
  | number v => exact ⟨_, .number⟩
  | string s => exact ⟨_, .string⟩
  | selector s shift => exact ⟨_, .selector⟩
  | range s shift => exact ⟨_, .range⟩
  | subquery e shift ih =>
    obtain ⟨e', he⟩ := ih
    exact ⟨_, .subquery he⟩
  | paren e ih =>
    obtain ⟨e', he⟩ := ih
    exact ⟨_, .paren he⟩
  | neg e ih =>
    obtain ⟨e', he⟩ := ih
    exact ⟨_, .neg he⟩
  | aggregate op param grouping e ihparam ih =>
    obtain ⟨e', he⟩ := ih
    cases param with
    | none => exact ⟨_, .aggregate .none he⟩
    | some p =>
      obtain ⟨p', hp⟩ := ihparam p rfl
      exact ⟨_, .aggregate (.some hp) he⟩
  | binary op m lhs rhs ihl ihr =>
    obtain ⟨lhs', hl⟩ := ihl
    obtain ⟨rhs', hr⟩ := ihr
    by_cases hop : op = .or
    · subst hop
      exact ⟨_, .orLeft hl⟩
    · exact ⟨_, .binary hop hl hr⟩
  | call f args ih =>
    have hargs : ∃ args', List.Forall₂ Resolves args args' := by
      induction args with
      | nil => exact ⟨[], .nil⟩
      | cons a args iha =>
        obtain ⟨a', ha⟩ := ih a List.mem_cons_self
        obtain ⟨args', hargs⟩ := iha fun b hb ↦ ih b (List.mem_cons_of_mem a hb)
        exact ⟨a' :: args', .cons ha hargs⟩
    obtain ⟨args', hargs⟩ := hargs
    exact ⟨_, .call hargs⟩

/-- The operands of an `or` are vectors, so a choice does not change the type. -/
theorem type_of_resolves {e : Expr} :
    e.WellTyped → ∀ {e' : Expr}, Resolves e e' → e'.type = e.type := by
  induction e using Expr.inductionOn with
  | number v => rintro - _ ⟨⟩; rfl
  | string s => rintro - _ ⟨⟩; rfl
  | selector s shift => rintro - _ ⟨⟩; rfl
  | range s shift => rintro - _ ⟨⟩; rfl
  | subquery e shift _ => rintro - _ ⟨⟩; rfl
  | paren e ih =>
    intro htyped _ h
    cases h with
    | paren he =>
      have htype := ih (htyped.of_child .paren) he
      exact htype
  | neg e ih =>
    intro htyped _ h
    cases h with
    | neg he =>
      have htype := ih (htyped.of_child .neg) he
      exact htype
  | aggregate op param grouping e _ _ => rintro - _ ⟨⟩; rfl
  | call f args _ => rintro - _ ⟨⟩; rfl
  | binary op m lhs rhs ihl ihr =>
    intro htyped e' h
    have hl := @ihl (htyped.of_child .lhs)
    have hr := @ihr (htyped.of_child .rhs)
    cases h with
    | binary hop hlhs hrhs => simp only [Expr.type, hl hlhs, hr hrhs]
    | orLeft hlhs =>
      obtain ⟨hlt, hrt⟩ := Expr.vector_of_isSet htyped.accepted rfl
      simp [Expr.type, hl hlhs, hlt]
    | orRight hrhs =>
      obtain ⟨hlt, hrt⟩ := Expr.vector_of_isSet htyped.accepted rfl
      simp [Expr.type, hr hrhs, hlt, hrt]

/-! ### Where a label of an output series comes from -/

section Carried

variable {l : String}

/-- Parentheses give no labels to a series. -/
theorem carries_paren {e : Expr} (h : Carries (.paren e) l) : Carries e l := by
  obtain ⟨S, hyields, hmem⟩ := h
  cases hyields with
  | paren he => exact ⟨S, he, hmem⟩

/-- A subquery gives no labels to a series. -/
theorem carries_subquery {e : Expr} {shift : Shift} (h : Carries (.subquery e shift) l) :
    Carries e l := by
  obtain ⟨S, hyields, hmem⟩ := h
  cases hyields with
  | subquery he => exact ⟨S, he, hmem⟩

/-- A negation gives no labels to a series. -/
theorem carries_neg {e : Expr} (h : Carries (.neg e) l) : Carries e l := by
  obtain ⟨S, hyields, hmem⟩ := h
  cases hyields with
  | neg he hname => exact ⟨_, he, hname.subset hmem⟩

/-- A grouped series gets its labels from the group, and a count of values one more. -/
theorem carries_aggregate {op : Aggregator} {param : Option Expr} {grouping : Option Grouping}
    {e : Expr} (htop : op ≠ .topk) (hbottom : op ≠ .bottomk)
    (h : Carries (.aggregate op param grouping e) l) :
    (op = .countValues ∧ ∃ p, param = some p ∧ Names p l) ∨
      ∃ S, Yields e S ∧ l ∈ groupLabels grouping S := by
  obtain ⟨S, hyields, hmem⟩ := h
  cases hyields with
  | chosen hop _ => exact (hop.elim htop hbottom).elim
  | grouped _ _ _ he => exact Or.inr ⟨_, he, hmem⟩
  | counted hname he =>
    rcases hmem with rfl | hmem
    · exact Or.inl ⟨rfl, _, rfl, hname⟩
    · exact Or.inr ⟨_, he, hmem⟩

/-- The largest and the smallest series of an aggregation keep their labels. -/
theorem carries_chosen {op : Aggregator} {param : Option Expr} {grouping : Option Grouping}
    {e : Expr} (hop : op = .topk ∨ op = .bottomk)
    (h : Carries (.aggregate op param grouping e) l) : Carries e l := by
  obtain ⟨S, hyields, hmem⟩ := h
  cases hyields with
  | chosen _ he => exact ⟨S, he, hmem⟩
  | grouped htop hbottom _ _ => exact (hop.elim htop hbottom).elim
  | counted _ _ => simp at hop

/-- Numbers have no labels to give. -/
theorem carries_scalarLeft {op : BinaryOp} {m : Modifier} {lhs rhs : Expr}
    (hlhs : lhs.type = .scalar) (hrhs : rhs.type ≠ .scalar)
    (h : Carries (.binary op m lhs rhs) l) : Carries rhs l := by
  obtain ⟨S, hyields, hmem⟩ := h
  cases hyields with
  | scalarLeft _ hr hname => exact ⟨_, hr, hname.subset hmem⟩
  | scalarRight hr => exact absurd hr hrhs
  | _ => contradiction

/-- A number on the right gives no labels to a series. -/
theorem carries_scalarRight {op : BinaryOp} {m : Modifier} {lhs rhs : Expr}
    (hlhs : lhs.type ≠ .scalar) (hrhs : rhs.type = .scalar)
    (h : Carries (.binary op m lhs rhs) l) : Carries lhs l := by
  obtain ⟨S, hyields, hmem⟩ := h
  cases hyields with
  | scalarLeft hl => exact absurd hl hlhs
  | scalarRight _ hl hname => exact ⟨_, hl, hname.subset hmem⟩
  | _ => contradiction

/-- The series of `and` are those of the left side. -/
theorem carries_and {m : Modifier} {lhs rhs : Expr} (hlhs : lhs.type ≠ .scalar)
    (hrhs : rhs.type ≠ .scalar) (h : Carries (.binary .and m lhs rhs) l) : Carries lhs l := by
  obtain ⟨S, hyields, hmem⟩ := h
  cases hyields with
  | andLeft _ _ hl => exact ⟨S, hl, hmem⟩
  | scalarLeft hl => exact absurd hl hlhs
  | scalarRight hr => exact absurd hr hrhs
  | _ => contradiction

/-- The series of a match get their labels from the many side and what it takes over, from the
labels of `on`, or from both operands. -/
theorem carries_matched {op : BinaryOp} {m : Modifier} {lhs rhs : Expr}
    (hlhs : lhs.type ≠ .scalar) (hrhs : rhs.type ≠ .scalar) (hset : op.isSet = false)
    (hname : l ≠ metricLabel) (h : Carries (.binary op m lhs rhs) l) :
    match m.group, m.matching with
    | some (.left taken), _ => l ∈ taken ∨ Carries lhs l
    | some (.right taken), _ => l ∈ taken ∨ Carries rhs l
    | none, some (.on labels) => l ∈ labels
    | none, _ => Carries lhs l ∧ Carries rhs l := by
  obtain ⟨S', hyields, hmem⟩ := h
  cases hyields with
  | scalarLeft hl => exact absurd hl hlhs
  | scalarRight hr => exact absurd hr hrhs
  | andLeft => simp [BinaryOp.isSet] at hset
  | unlessLeft => simp [BinaryOp.isSet] at hset
  | orLeft => simp [BinaryOp.isSet] at hset
  | orRight => simp [BinaryOp.isSet] at hset
  | matchedOn _ _ _ hgroup hon hl hunnamed =>
    simp only [hgroup, hon]
    exact (hunnamed.subset hmem).2
  | matched _ _ _ hgroup hon hl hr hagree hunnamed =>
    obtain ⟨hS, hignored⟩ := hunnamed.subset hmem
    have hboth : Carries lhs l ∧ Carries rhs l :=
      ⟨⟨_, hl, hS⟩, ⟨_, hr, (hagree l hname hignored).mp hS⟩⟩
    cases hmatching : m.matching with
    | none => simpa only [hgroup, hmatching] using hboth
    | some matching =>
      cases matching with
      | on labels => exact absurd hmatching (hon labels)
      | ignoring labels => simpa only [hgroup, hmatching] using hboth
  | groupLeft _ _ _ hgroup hl _ hupper =>
    simp only [hgroup]
    rcases hupper hmem with hS | htaken
    · exact Or.inr ⟨_, hl, hS⟩
    · exact Or.inl htaken
  | groupRight _ _ _ hgroup hr _ hupper =>
    simp only [hgroup]
    rcases hupper hmem with hS | htaken
    · exact Or.inr ⟨_, hr, hS⟩
    · exact Or.inl htaken

/-- A function that writes a label does not test for absence. -/
theorem not_mem_absentFunctions {name : String} (h : name ∈ relabelFunctions) :
    name ∉ absentFunctions := by
  simp only [relabelFunctions, List.mem_cons, List.not_mem_nil, or_false] at h
  rcases h with rfl | rfl <;> simp [absentFunctions]

/-- A function works on one series, and may write a label or drop `le`. -/
theorem carries_call {f : Function} {args : List Expr}
    (hf : f.name ∉ absentFunctions) (h : Carries (.call f args) l) :
    ∃ e, seriesArg? args = some e ∧
      ((f.name ∈ relabelFunctions ∧ ∃ target, args[1]? = some target ∧ Names target l) ∨
        Carries e l ∧ (f.name = "histogram_quantile" → l ≠ "le")) := by
  obtain ⟨S', hyields, hmem⟩ := h
  cases hyields with
  | absent hname => exact absurd hname hf
  | relabelled hname harg htarget hnames he hS =>
    have hquantile : f.name = "histogram_quantile" → l ≠ "le" := by
      intro heq
      simp [heq, relabelFunctions] at hname
    refine ⟨_, harg, ?_⟩
    rcases hS with rfl | rfl
    · rcases hmem with rfl | hmem
      · exact Or.inl ⟨hname, _, htarget, hnames⟩
      · exact Or.inr ⟨⟨_, he, hmem⟩, hquantile⟩
    · exact Or.inr ⟨⟨_, he, hmem.1⟩, hquantile⟩
  | quantile hname harg he hunnamed =>
    obtain ⟨hS, hle⟩ := hunnamed.subset hmem
    exact ⟨_, harg, Or.inr ⟨⟨_, he, hS⟩, fun _ ↦ hle⟩⟩
  | called _ _ hquantile harg he hunnamed =>
    exact ⟨_, harg, Or.inr ⟨⟨_, he, hunnamed.subset hmem⟩, fun heq ↦ absurd heq hquantile⟩⟩
  | fromScalar => exact absurd hmem (Set.notMem_empty l)

end Carried

/-! ### What the analysis says of each operator -/

/-- A grouping lets a label of the members through. -/
def Passes : Option Grouping → String → Prop
  | some (.by labels), l => l ∈ labels
  | some (.without labels), l => l ∉ labels
  | none, _ => False

/-- A group has those labels of its members that the grouping lets through. -/
theorem mem_groupLabels {grouping : Option Grouping} {S : Set String} {l : String} :
    l ∈ groupLabels grouping S ↔ l ∈ S ∧ Passes grouping l := by
  rcases grouping with _ | (labels | labels) <;> simp [groupLabels, Passes]

/-- A grouping may carry what its members may carry and it lets through. -/
theorem mayCarry_grouped {grouping : Option Grouping} {inner : Survival} {l : String} :
    (grouped grouping inner).mayCarry l ↔ inner.mayCarry l ∧ Passes grouping l := by
  rcases grouping with _ | (labels | labels) <;> simp [grouped, Passes, and_comm]

/-- An aggregation may carry the label that it writes, and what its grouping lets through. -/
theorem mayCarry_aggregated {op : Aggregator} {param : Option Expr} {grouping : Option Grouping}
    {inner : Survival} {l : String} (htop : op ≠ .topk) (hbottom : op ≠ .bottomk)
    (h : (op = .countValues ∧ param = some (.string l)) ∨
      inner.mayCarry l ∧ Passes grouping l) :
    (aggregated op param grouping inner).mayCarry l := by
  rw [← mayCarry_grouped] at h
  unfold aggregated
  split
  · exact absurd rfl htop
  · exact absurd rfl hbottom
  · rw [mayCarry_allow]
    rcases h with ⟨_, heq⟩ | h
    · simp only [Option.some.injEq, Expr.string.injEq] at heq
      exact Or.inl heq.symm
    · exact Or.inr h
  · rename_i hcount
    rcases h with ⟨rfl, rfl⟩ | h
    · exact (hcount l rfl rfl).elim
    · exact h

/-- A match may carry the labels of the many side and those that it takes over. -/
theorem mayCarry_manySide {many : Survival} {on taken : List String} {l : String}
    (h : l ∈ taken ∨ many.mayCarry l) : (manySide many on taken).mayCarry l := by
  unfold manySide
  split
  · exact mayCarry_unknown l
  · rw [mayCarry_foldl_allow, List.mem_append]
    rcases h with h | h
    · exact Or.inl (Or.inr h)
    · exact Or.inr h

/-- A match may carry what its series can have labels from. -/
theorem mayCarry_matched {m : Modifier} {lhs rhs : Survival} {l : String}
    (h : match m.group, m.matching with
      | some (.left taken), _ => l ∈ taken ∨ lhs.mayCarry l
      | some (.right taken), _ => l ∈ taken ∨ rhs.mayCarry l
      | none, some (.on labels) => l ∈ labels
      | none, _ => lhs.mayCarry l ∧ rhs.mayCarry l) :
    (matched m lhs rhs).mayCarry l := by
  obtain ⟨returnBool, matching, group⟩ := m
  rcases group with _ | (taken | taken)
  · rcases matching with _ | (labels | labels)
    · exact mayCarry_combine h.1 h.2
    · exact (mayCarry_ofLabels _ _ _).mpr h
    · -- nothing is known to be kept, so only the excluded labels count
      simp only [mayCarry, Bool.and_eq_true, decide_eq_true_eq] at h
      simp [matched, mayCarry, h.1.1, h.2.1]
  · exact mayCarry_manySide h
  · exact mayCarry_manySide h

/-- A call may carry the label that it writes, and those of its argument but a dropped `le`. -/
theorem mayCarry_called {name : String} {args : List Expr} {inner : Survival} {l : String}
    (hplain : name ∈ relabelFunctions → ∃ label, args[1]? = some (.string label))
    (h : (name ∈ relabelFunctions ∧ args[1]? = some (.string l)) ∨
      inner.mayCarry l ∧ (name = "histogram_quantile" → l ≠ "le")) :
    (called name args inner).mayCarry l := by
  by_cases hname : name ∈ relabelFunctions
  · obtain ⟨label, hlabel⟩ := hplain hname
    obtain ⟨a, rest, rfl⟩ : ∃ a rest, args = a :: .string label :: rest := by
      match args, hlabel with
      | a :: _ :: rest, heq =>
        simp only [List.getElem?_cons_succ, List.getElem?_cons_zero, Option.some.injEq] at heq
        exact ⟨a, rest, by rw [heq]⟩
    have hcase : l = label ∨ inner.mayCarry l := by
      rcases h with ⟨_, heq⟩ | h
      · simp at heq
        exact Or.inl heq.symm
      · exact Or.inr h.1
    have hfun : name = "label_replace" ∨ name = "label_join" := by
      simpa [relabelFunctions] using hname
    unfold called
    rw [if_pos hfun]
    by_cases hclosed : inner.closed
    · simpa [hclosed] using hcase
    · rcases hcase with rfl | hcase
      · simp [hclosed, mayCarry]
      · simp only [mayCarry, Bool.and_eq_true, decide_eq_true_eq] at hcase
        simp [hclosed, mayCarry, hcase.1]
  · obtain ⟨hinner, hle⟩ := h.resolve_left fun hrelabel ↦ hname hrelabel.1
    have hfun : ¬ (name = "label_replace" ∨ name = "label_join") := by
      simpa [relabelFunctions] using hname
    unfold called
    rw [if_neg hfun]
    by_cases hquantile : name = "histogram_quantile"
    · rw [if_pos hquantile, mayCarry_exclude]
      exact ⟨hle hquantile, hinner⟩
    · rw [if_neg hquantile]
      exact hinner

/-- A label that a selector pins down is listed for its absence. -/
theorem mayCarry_absentSelector {s : Selector} {l : String} (h : l ∈ pinnedLabels s) :
    (absentSelector s).mayCarry l := by
  obtain ⟨hmetric, m, hfilter, hop, hvalue⟩ := h
  have hm : m ∈ s.matchers.filter (·.name = l) := by simp [hfilter]
  obtain ⟨hmem, hname⟩ := List.mem_filter.mp hm
  obtain rfl : m.name = l := by simpa using hname
  have hcount : s.matchers.countP (·.name = m.name) = 1 := by
    rw [List.countP_eq_length_filter, hfilter]
    rfl
  refine (mayCarry_ofLabels _ _ _).mpr (List.mem_map.mpr ⟨m, List.mem_filter.mpr ⟨hmem, ?_⟩, rfl⟩)
  simp [hmetric, hop, hvalue, hcount]

/-! ### The choice that the analysis follows -/

section Choice

variable {l : String}

/-- Each of some arguments has a side for every `or` in it. -/
theorem exists_forall₂_resolves (args : List Expr) :
    ∃ args', List.Forall₂ Resolves args args' := by
  induction args with
  | nil => exact ⟨[], .nil⟩
  | cons a args ih =>
    obtain ⟨a', ha⟩ := exists_resolves a
    obtain ⟨args', hargs⟩ := ih
    exact ⟨a' :: args', .cons ha hargs⟩

/-- A choice for the series that a function works on extends to all its arguments. -/
theorem exists_resolves_seriesArg {args : List Expr} {e e' : Expr}
    (htyped : ∀ a ∈ args, a.WellTyped) (harg : seriesArg? args = some e) (he : Resolves e e') :
    ∃ args', List.Forall₂ Resolves args args' ∧ seriesArg? args' = some e' := by
  induction args with
  | nil => simp [seriesArg?] at harg
  | cons a args ih =>
    by_cases hseries : a.type.isSeries
    · obtain rfl : a = e := by simpa [seriesArg?, hseries] using harg
      obtain ⟨args', hargs⟩ := exists_forall₂_resolves args
      refine ⟨e' :: args', .cons he hargs, ?_⟩
      have htype := type_of_resolves (htyped a List.mem_cons_self) he
      simp [seriesArg?, htype, hseries]
    · have hrest : seriesArg? args = some e := by simpa [seriesArg?, hseries] using harg
      obtain ⟨args', hargs, harg'⟩ := ih (fun b hb ↦ htyped b (List.mem_cons_of_mem a hb)) hrest
      obtain ⟨a', ha⟩ := exists_resolves a
      refine ⟨a' :: args', .cons ha hargs, ?_⟩
      have htype := type_of_resolves (htyped a List.mem_cons_self) ha
      simpa [seriesArg?, htype, hseries] using harg'

/-- The analysis follows the argument whose series the function works on. -/
theorem survivalOfSeries_eq (args : List Expr) :
    survivalOfSeries args = (seriesArg? args).map survival := by
  induction args with
  | nil => rfl
  | cons a args ih =>
    by_cases hseries : a.type.isSeries
    · simp [survivalOfSeries, seriesArg?, hseries]
    · simpa [survivalOfSeries, seriesArg?, hseries] using ih

/-- Strings stay as they are. -/
theorem eq_string_of_resolves {args args' : List Expr} {i : Nat} {label : String} {target : Expr}
    (hargs : List.Forall₂ Resolves args args') (hi : args[i]? = some (.string label))
    (hi' : args'[i]? = some target) : target = .string label := by
  induction hargs generalizing i with
  | nil => simp at hi
  | cons ha _ ih =>
    cases i with
    | zero =>
      simp only [List.getElem?_cons_zero, Option.some.injEq] at hi hi'
      subst hi hi'
      cases ha
      rfl
    | succ i => exact ih hi hi'

/-- Between two vectors the choice follows the side that cannot carry the label. -/
theorem exists_resolves_or {m : Modifier} {lhs rhs lhs' rhs' : Expr} {P : Expr → Prop}
    (hl : Resolves lhs lhs') (hr : Resolves rhs rhs')
    (hcl : P lhs' → (survival lhs).mayCarry l) (hcr : P rhs' → (survival rhs).mayCarry l) :
    ∃ e', Resolves (.binary .or m lhs rhs) e' ∧
      (P e' → ((survival lhs).combine (survival rhs)).mayCarry l) := by
  by_cases hlhs : (survival lhs).mayCarry l
  · exact ⟨rhs', .orRight hr, fun h ↦ mayCarry_combine hlhs (hcr h)⟩
  · exact ⟨lhs', .orLeft hl, fun h ↦ absurd (hcl h) hlhs⟩

/-- An expression that becomes a selector is one that carries any label. -/
theorem exists_resolves_selector (e : Expr) : e.WellTyped →
    ∃ e', Resolves e e' ∧ ((selectorOf? e').isSome → (survival e).mayCarry l) := by
  induction e using Expr.inductionOn with
  | selector s shift => exact fun _ ↦ ⟨_, .selector, fun _ ↦ mayCarry_unknown l⟩
  | range s shift => exact fun _ ↦ ⟨_, .range, fun _ ↦ mayCarry_unknown l⟩
  | paren e ih =>
    intro htyped
    obtain ⟨e', he, himp⟩ := ih (htyped.of_child .paren)
    exact ⟨_, .paren he, himp⟩
  | binary op m lhs rhs ihl ihr =>
    intro htyped
    obtain ⟨lhs', hl, hcl⟩ := ihl (htyped.of_child .lhs)
    obtain ⟨rhs', hr, hcr⟩ := ihr (htyped.of_child .rhs)
    by_cases hop : op = .or
    · subst hop
      obtain ⟨hlt, hrt⟩ := Expr.vector_of_isSet htyped.accepted rfl
      have h := exists_resolves_or (m := m) (P := fun e ↦ (selectorOf? e).isSome) hl hr hcl hcr
      simpa [survival, operated, hlt, hrt] using h
    · exact ⟨_, .binary hop hl hr, fun h ↦ by simp [selectorOf?] at h⟩
  | _ =>
    -- no other expression becomes a selector
    refine fun _ ↦ (exists_resolves _).imp fun e' he ↦ ⟨he, fun h ↦ ?_⟩
    cases he
    simp [selectorOf?] at h

/-- Only a selector has labels to give to the series for its absence. -/
theorem selectorOf?_isSome_of_mem {e : Expr} (h : l ∈ absenceLabels e) :
    (selectorOf? e).isSome := by
  unfold absenceLabels at h
  cases hs : selectorOf? e with
  | none => simp [hs] at h
  | some s => rfl

/-- So it is with the series for the absence of an expression: the right choice at each `or` gives
it no label that the analysis excludes. -/
theorem exists_resolves_absence (e : Expr) : e.WellTyped →
    ∃ e', Resolves e e' ∧ (l ∈ absenceLabels e' → (absence e).mayCarry l) := by
  induction e using Expr.inductionOn with
  | selector s shift => exact fun _ ↦ ⟨_, .selector, mayCarry_absentSelector⟩
  | range s shift => exact fun _ ↦ ⟨_, .range, mayCarry_absentSelector⟩
  | paren e ih =>
    intro htyped
    obtain ⟨e', he, himp⟩ := ih (htyped.of_child .paren)
    exact ⟨_, .paren he, himp⟩
  | binary op m lhs rhs _ _ =>
    intro htyped
    -- the absence of an operation is judged like the operation itself
    obtain ⟨e', he, himp⟩ := exists_resolves_selector (l := l) (.binary op m lhs rhs) htyped
    exact ⟨e', he, fun h ↦ himp (selectorOf?_isSome_of_mem h)⟩
  | _ =>
    refine fun _ ↦ (exists_resolves _).imp fun e' he ↦ ⟨he, fun h ↦ ?_⟩
    cases he
    simp [absenceLabels, selectorOf?] at h

/-- An operation on two operands, by the choices for its operands. -/
theorem exists_resolves_binary {op : BinaryOp} {m : Modifier} {lhs rhs lhs' rhs' : Expr}
    (hname : l ≠ metricLabel) (htyped : (Expr.binary op m lhs rhs).WellTyped)
    (hunless : op ≠ .unless) (hl : Resolves lhs lhs') (hr : Resolves rhs rhs')
    (hcl : Carries lhs' l → (survival lhs).mayCarry l)
    (hcr : Carries rhs' l → (survival rhs).mayCarry l) :
    ∃ e', Resolves (.binary op m lhs rhs) e' ∧
      (Carries e' l →
        (operated op m lhs.type rhs.type (survival lhs) (survival rhs)).mayCarry l) := by
  have htypel := type_of_resolves (htyped.of_child .lhs) hl
  have htyper := type_of_resolves (htyped.of_child .rhs) hr
  by_cases hset : op.isSet
  · obtain ⟨hlt, hrt⟩ := Expr.vector_of_isSet htyped.accepted hset
    by_cases hor : op = .or
    · subst hor
      have h := exists_resolves_or (m := m) (P := fun e ↦ Carries e l) hl hr hcl hcr
      simpa [operated, hlt, hrt] using h
    · obtain rfl : op = .and := by cases op <;> simp_all [BinaryOp.isSet]
      refine ⟨_, .binary hor hl hr, fun h ↦ ?_⟩
      have hlhs := carries_and (by simp [htypel, hlt]) (by simp [htyper, hrt]) h
      simpa [operated, hlt, hrt] using hcl hlhs
  · have hor : op ≠ .or := by
      rintro rfl
      exact hset rfl
    refine ⟨_, .binary hor hl hr, fun h ↦ ?_⟩
    by_cases hlt : lhs.type = .scalar
    · by_cases hrt : rhs.type = .scalar
      · simp [operated, hlt, hrt]
      · have hrhs := carries_scalarLeft (htypel.trans hlt) (by rwa [htyper]) h
        simpa [operated, hlt, hrt] using hcr hrhs
    · by_cases hrt : rhs.type = .scalar
      · have hlhs := carries_scalarRight (by rwa [htypel]) (htyper.trans hrt) h
        simpa [operated, hlt, hrt] using hcl hlhs
      · have hboth := carries_matched (by rwa [htypel]) (by rwa [htyper]) (by simpa using hset)
          hname h
        have hmatched : (matched m (survival lhs) (survival rhs)).mayCarry l := by
          refine mayCarry_matched ?_
          rcases hgroup : m.group with _ | (taken | taken)
          · rcases hmatching : m.matching with _ | (labels | labels) <;>
              simp only [hgroup, hmatching] at hboth ⊢
            · exact ⟨hcl hboth.1, hcr hboth.2⟩
            · exact hboth
            · exact ⟨hcl hboth.1, hcr hboth.2⟩
          · simp only [hgroup] at hboth ⊢
            exact hboth.imp_right hcl
          · simp only [hgroup] at hboth ⊢
            exact hboth.imp_right hcr
        cases op <;> simp_all [operated, BinaryOp.isSet]

/-- A call, by the choice for the series that the function works on. -/
theorem exists_resolves_call {f : Function} {args : List Expr}
    (htyped : (Expr.call f args).WellTyped) (hplain : NamesPlainly (.call f args))
    (ih : ∀ a ∈ args, ∃ a', Resolves a a' ∧ (Carries a' l → (survival a).mayCarry l)) :
    ∃ e', Resolves (.call f args) e' ∧ (Carries e' l → (survival (.call f args)).mayCarry l) := by
  have htypedArgs : ∀ a ∈ args, a.WellTyped := fun a ha ↦ htyped.of_child (.arg ha)
  by_cases habsent : f.name ∈ absentFunctions
  · cases args with
    | nil =>
      refine ⟨_, .call .nil, ?_⟩
      rintro ⟨S, hyields, hmem⟩
      cases hyields <;> simp_all [seriesArg?]
    | cons a rest =>
      obtain ⟨a', ha, himp⟩ := exists_resolves_absence (l := l) a (htypedArgs a List.mem_cons_self)
      obtain ⟨rest', hrest⟩ := exists_forall₂_resolves rest
      refine ⟨_, .call (.cons ha hrest), ?_⟩
      rintro ⟨S, hyields, hmem⟩
      have hlabels : l ∈ absenceLabels a' := by
        cases hyields with
        | absent => exact hmem
        | relabelled hname => exact absurd habsent (not_mem_absentFunctions hname)
        | quantile hname => simp [hname, absentFunctions] at habsent
        | called hname => contradiction
        | fromScalar hname => contradiction
      have hsurvival : survival (.call f (a :: rest)) = absence a := by
        simp [survival, habsent, absenceOfFirst]
      rw [hsurvival]
      exact himp hlabels
  · have hsurvival : survival (.call f args) =
        ((seriesArg? args).map survival).elim unknown (called f.name args) := by
      rw [← survivalOfSeries_eq]
      simp only [survival, List.contains_iff_mem, habsent, if_false]
      cases survivalOfSeries args <;> rfl
    rw [hsurvival]
    cases harg : seriesArg? args with
    | none =>
      obtain ⟨args', hargs⟩ := exists_forall₂_resolves args
      exact ⟨_, .call hargs, fun _ ↦ mayCarry_unknown l⟩
    | some e =>
      have hmem : e ∈ args := List.mem_of_find?_eq_some harg
      obtain ⟨e', he, himp⟩ := ih e hmem
      obtain ⟨args', hargs, harg'⟩ := exists_resolves_seriesArg htypedArgs harg he
      refine ⟨_, .call hargs, fun h ↦ mayCarry_called hplain ?_⟩
      obtain ⟨e'', harg'', hcase⟩ := carries_call habsent h
      obtain rfl : e' = e'' := by simpa [harg'] using harg''
      rcases hcase with ⟨hname, target, htarget, hnames⟩ | ⟨hcarries, hle⟩
      · obtain ⟨label, hlabel⟩ := hplain hname
        obtain rfl := eq_string_of_resolves hargs hlabel htarget
        cases hnames
        exact Or.inl ⟨hname, hlabel⟩
      · exact Or.inr ⟨himp hcarries, hle⟩

/-- With the right choice at each `or`, an output series carries a label only if the analysis says
that it may. -/
theorem exists_resolves_mayCarry (hname : l ≠ metricLabel) (e : Expr) : e.WellTyped →
    WithoutUnless e → WithPlainNames e →
      ∃ e', Resolves e e' ∧ (Carries e' l → (survival e).mayCarry l) := by
  induction e using Expr.inductionOn with
  | subquery e shift ih =>
    intro htyped hunless hplain
    obtain ⟨e', he, himp⟩ := ih (htyped.of_child .subquery)
      (Expr.within_of_child hunless .subquery) (Expr.within_of_child hplain .subquery)
    exact ⟨_, .subquery he, fun h ↦ himp (carries_subquery h)⟩
  | paren e ih =>
    intro htyped hunless hplain
    obtain ⟨e', he, himp⟩ := ih (htyped.of_child .paren)
      (Expr.within_of_child hunless .paren) (Expr.within_of_child hplain .paren)
    exact ⟨_, .paren he, fun h ↦ himp (carries_paren h)⟩
  | neg e ih =>
    intro htyped hunless hplain
    obtain ⟨e', he, himp⟩ := ih (htyped.of_child .neg)
      (Expr.within_of_child hunless .neg) (Expr.within_of_child hplain .neg)
    exact ⟨_, .neg he, fun h ↦ himp (carries_neg h)⟩
  | aggregate op param grouping e _ ih =>
    intro htyped hunless hplain
    obtain ⟨e', he, himp⟩ := ih (htyped.of_child .body)
      (Expr.within_of_child hunless .body) (Expr.within_of_child hplain .body)
    obtain ⟨x, hx⟩ := exists_resolves (.aggregate op param grouping e)
    cases hx with
    | @aggregate _ _ param' _ _ _ hparam _ =>
      refine ⟨_, .aggregate hparam he, fun h ↦ ?_⟩
      by_cases hchosen : op = .topk ∨ op = .bottomk
      · have hinner := himp (carries_chosen hchosen h)
        rcases hchosen with rfl | rfl <;> simpa [survival, aggregated] using hinner
      · obtain ⟨htop, hbottom⟩ := not_or.mp hchosen
        refine mayCarry_aggregated htop hbottom ?_
        rcases carries_aggregate htop hbottom h with ⟨rfl, p, rfl, hnames⟩ | ⟨S, hS, hmem⟩
        · obtain ⟨label, rfl⟩ := hplain _ Relation.ReflTransGen.refl
          cases hparam with
          | some hp =>
            cases hp
            cases hnames
            exact Or.inl ⟨rfl, rfl⟩
        · obtain ⟨hS', hpasses⟩ := mem_groupLabels.mp hmem
          exact Or.inr ⟨himp ⟨S, hS, hS'⟩, hpasses⟩
  | binary op m lhs rhs ihl ihr =>
    intro htyped hunless hplain
    obtain ⟨lhs', hl, hcl⟩ := ihl (htyped.of_child .lhs)
      (Expr.within_of_child hunless .lhs) (Expr.within_of_child hplain .lhs)
    obtain ⟨rhs', hr, hcr⟩ := ihr (htyped.of_child .rhs)
      (Expr.within_of_child hunless .rhs) (Expr.within_of_child hplain .rhs)
    have hop : op ≠ .unless := by
      rintro rfl
      exact hunless _ Relation.ReflTransGen.refl m lhs rhs rfl
    exact exists_resolves_binary hname htyped hop hl hr hcl hcr
  | call f args ih =>
    intro htyped hunless hplain
    refine exists_resolves_call htyped (hplain _ Relation.ReflTransGen.refl) fun a ha ↦ ?_
    exact ih a ha (htyped.of_child (.arg ha)) (Expr.within_of_child hunless (.arg ha))
      (Expr.within_of_child hplain (.arg ha))
  | _ => exact fun _ _ _ ↦ (exists_resolves _).imp fun _ he ↦ ⟨he, fun _ ↦ mayCarry_unknown l⟩

end Choice

/-- A label that a query is reported to remove can be kept out of its series: each `or` can be
replaced by one of its operands so that no output series carries it. -/
theorem exists_resolves_not_carries {e : Expr} {l : String} {b : Boundary} (htyped : e.WellTyped)
    (hunless : WithoutUnless e) (hplain : WithPlainNames e) (hname : l ≠ metricLabel)
    (hremoves : (survival e).removes l = some b) :
    ∃ e', Resolves e e' ∧ ∀ S, Yields e' S → l ∉ S := by
  obtain ⟨e', he, himp⟩ := exists_resolves_mayCarry hname e htyped hunless hplain
  refine ⟨e', he, fun S hyields hmem ↦ ?_⟩
  exact not_mayCarry_of_removes hremoves (himp ⟨S, hyields, hmem⟩)

/-- One side of the `or` keeps the label and the other drops it: the choice is the latter. -/
theorem exists_resolves_not_carries_or :
    let foo := Expr.selector { metric := some "foo" } {}
    let e := Expr.binary .or {}
      (.aggregate .countValues (some (.string "v")) (some (.by ["job"])) foo)
      (.aggregate .sum none (some (.without ["job"])) foo)
    e.WellTyped ∧ WithoutUnless e ∧ WithPlainNames e ∧ "job" ≠ metricLabel ∧
      (survival e).removes "job" = some .aggregation ∧
      ∃ e', Resolves e e' ∧ ∀ S, Yields e' S → "job" ∉ S := by
  intro foo e
  have hwithin {p : Expr → Prop} (hvisit : p e ∧
      p (.aggregate .countValues (some (.string "v")) (some (.by ["job"])) foo) ∧
      p (.string "v") ∧ p (.aggregate .sum none (some (.without ["job"])) foo) ∧ p foo) :
      ∀ x, Expr.Within x e → p x := by
    obtain ⟨he, hcount, hv, hsum, hfoo⟩ := hvisit
    have hleaf : ∀ x, Expr.Within x foo → p x :=
      Expr.within_of_children hfoo fun _ hchild ↦ by
        dsimp only [foo] at hchild
        cases hchild
    have hstring : ∀ x, Expr.Within x (.string "v") → p x :=
      Expr.within_of_children hv fun _ hchild ↦ by cases hchild
    refine Expr.within_of_children he fun c hchild ↦ ?_
    dsimp only [e] at hchild
    cases hchild with
    | lhs =>
      refine Expr.within_of_children hcount fun c hchild ↦ ?_
      cases hchild
      · exact hstring
      · exact hleaf
    | rhs =>
      refine Expr.within_of_children hsum fun c hchild ↦ ?_
      cases hchild
      exact hleaf
  have htyped : e.WellTyped := hwithin ⟨rfl, rfl, trivial, rfl, rfl⟩
  have hunless : WithoutUnless e := hwithin (by simp [e, foo])
  have hplain : WithPlainNames e := hwithin ⟨trivial, ⟨"v", rfl⟩, trivial, trivial, trivial⟩
  have hname : "job" ≠ metricLabel := by decide
  have hremoves : (survival e).removes "job" = some .aggregation := by decide
  exact ⟨htyped, hunless, hplain, hname, hremoves,
    exists_resolves_not_carries htyped hunless hplain hname hremoves⟩

end AlertAudit.Labels
