import AlertAudit.Proofs.Query.Subexpression
import AlertAudit.Query.Parser
import Mathlib.Data.Option.Basic

/-!
Well-typed expressions. Every node of one is accepted by the function that builds nodes of its
kind, and the parser builds nothing else (`wellTyped_of_ofText?`), so what is proved of
well-typed expressions holds of every query that is not rejected.
-/

set_option autoImplicit false

namespace AlertAudit.Query.Expr

/-- The function that builds nodes of this kind accepts the parts of this one. -/
def Accepted : Expr → Prop
  | number _ | string _ | paren _ => True
  | selector s _ | range s _ => (selector? s).isSome
  | subquery e _ => (subquery? e).isSome
  | neg e => (neg? e).isSome
  | aggregate op param grouping e => (aggregate? op grouping (param.toList ++ [e])).isSome
  | binary op m lhs rhs => (binary? op m lhs rhs).isSome
  | call f args => (call? f.name args).isSome

/-- Every node is accepted. -/
def WellTyped (e : Expr) : Prop := ∀ x, Within x e → x.Accepted

/-- The outermost node of a well-typed expression is accepted. -/
theorem WellTyped.accepted {e : Expr} (h : e.WellTyped) : e.Accepted :=
  h e Relation.ReflTransGen.refl

/-- The parts of a well-typed expression are well-typed. -/
theorem WellTyped.of_child {c e : Expr} (h : e.WellTyped) (hchild : Child c e) : c.WellTyped :=
  within_of_child h hchild

/-- What is accepted as an operation has operands that the operator allows. -/
theorem binaryAllowed_of_accepted {op : BinaryOp} {m : Modifier} {lhs rhs : Expr}
    (h : (binary op m lhs rhs).Accepted) : binaryAllowed op m lhs.type rhs.type := by
  by_cases hallowed : binaryAllowed op m lhs.type rhs.type
  · exact hallowed
  · simp [Accepted, binary?, hallowed] at h

/-- Operations on sets of series have vectors on both sides. -/
theorem vector_of_isSet {op : BinaryOp} {m : Modifier} {lhs rhs : Expr}
    (h : (binary op m lhs rhs).Accepted) (hset : op.isSet) :
    lhs.type = .vector ∧ rhs.type = .vector := by
  have hallowed := binaryAllowed_of_accepted h
  simp only [binaryAllowed, hset, Bool.and_eq_true, Bool.or_eq_true, decide_eq_true_eq,
    Bool.not_true, Bool.false_eq_true, false_or] at hallowed
  exact hallowed.1.2.1

/-- An operand that is no scalar is a vector. -/
theorem vector_of_ne_scalar {op : BinaryOp} {m : Modifier} {lhs rhs : Expr}
    (h : (binary op m lhs rhs).Accepted) (hlhs : lhs.type ≠ .scalar) (hrhs : rhs.type ≠ .scalar) :
    lhs.type = .vector ∧ rhs.type = .vector := by
  have hallowed := binaryAllowed_of_accepted h
  simp only [binaryAllowed, Bool.and_eq_true, Bool.or_eq_true, decide_eq_true_eq] at hallowed
  exact ⟨hallowed.1.1.1.1.1.1.resolve_left hlhs, hallowed.1.1.1.1.1.2.resolve_left hrhs⟩

/-! ### Building well-typed expressions -/

/-- An accepted node with well-typed parts is well-typed. -/
theorem WellTyped.intro {e : Expr} (haccepted : e.Accepted)
    (hparts : ∀ c, Child c e → c.WellTyped) : e.WellTyped :=
  within_of_children haccepted hparts

theorem wellTyped_number (v : Decimal.Binary64) : (number v).WellTyped :=
  WellTyped.intro trivial fun _ hchild ↦ by cases hchild

theorem wellTyped_string (s : String) : (string s).WellTyped :=
  WellTyped.intro trivial fun _ hchild ↦ by cases hchild

/-- Parentheses change no type. -/
theorem WellTyped.paren {e : Expr} (h : e.WellTyped) : (Expr.paren e).WellTyped :=
  WellTyped.intro trivial fun _ hchild ↦ by
    cases hchild
    exact h

/-- A selector that is accepted is well-typed. -/
theorem wellTyped_of_selector? {s : Selector} {e : Expr} (h : selector? s = some e) :
    e.WellTyped := by
  have haccepted : (selector? s).isSome := by simp [h]
  simp only [selector?, Option.ite_none_right_eq_some, Option.some.injEq] at h
  obtain ⟨_, rfl⟩ := h
  exact WellTyped.intro haccepted fun _ hchild ↦ by cases hchild

/-- A range of a well-typed selector is well-typed if it is accepted. -/
theorem wellTyped_of_range? {e r : Expr} (he : e.WellTyped) (h : range? e = some r) :
    r.WellTyped := by
  cases e with
  | selector s shift =>
    simp only [range?, Option.ite_none_right_eq_some, Option.some.injEq] at h
    obtain ⟨_, rfl⟩ := h
    exact WellTyped.intro he.accepted fun _ hchild ↦ by cases hchild
  | _ => simp [range?] at h

/-- A subquery of a well-typed expression is well-typed if it is accepted. -/
theorem wellTyped_of_subquery? {e r : Expr} (he : e.WellTyped) (h : subquery? e = some r) :
    r.WellTyped := by
  have haccepted : (subquery? e).isSome := by simp [h]
  simp only [subquery?, Option.ite_none_right_eq_some, Option.some.injEq] at h
  obtain ⟨_, rfl⟩ := h
  exact WellTyped.intro haccepted fun _ hchild ↦ by
    cases hchild
    exact he

/-- Shifting the time changes no type. -/
theorem wellTyped_of_shift? {f : Shift → Option Shift} {e r : Expr} (he : e.WellTyped)
    (h : shift? f e = some r) : r.WellTyped := by
  cases e with
  | selector s shift =>
    simp only [shift?, Option.map_eq_some_iff] at h
    obtain ⟨_, _, rfl⟩ := h
    exact WellTyped.intro he.accepted fun _ hchild ↦ by cases hchild
  | range s shift =>
    simp only [shift?, Option.map_eq_some_iff] at h
    obtain ⟨_, _, rfl⟩ := h
    exact WellTyped.intro he.accepted fun _ hchild ↦ by cases hchild
  | subquery e shift =>
    simp only [shift?, Option.map_eq_some_iff] at h
    obtain ⟨_, _, rfl⟩ := h
    exact WellTyped.intro he.accepted fun _ hchild ↦ by
      cases hchild
      exact he.of_child .subquery
  | _ => simp [shift?] at h

/-- A negation of a well-typed expression is well-typed if it is accepted. -/
theorem wellTyped_of_neg? {e r : Expr} (he : e.WellTyped) (h : neg? e = some r) :
    r.WellTyped := by
  have haccepted : (neg? e).isSome := by simp [h]
  unfold neg? at h
  split at h
  · obtain rfl := Option.some.inj h
    exact wellTyped_number _
  · simp only [Option.ite_none_right_eq_some, Option.some.injEq] at h
    obtain ⟨_, rfl⟩ := h
    exact WellTyped.intro haccepted fun _ hchild ↦ by
      cases hchild
      exact he

/-- An aggregation of well-typed arguments is well-typed if it is accepted. -/
theorem wellTyped_of_aggregate? {op : Aggregator} {grouping : Option Grouping} {args : List Expr}
    {r : Expr} (hargs : ∀ a ∈ args, a.WellTyped) (h : aggregate? op grouping args = some r) :
    r.WellTyped := by
  have haccepted : (aggregate? op grouping args).isSome := by simp [h]
  unfold aggregate? at h
  split at h
  · simp only [Option.ite_none_right_eq_some, Option.some.injEq] at h
    obtain ⟨_, rfl⟩ := h
    exact WellTyped.intro haccepted fun _ hchild ↦ by
      cases hchild
      exact hargs _ (by simp)
  · simp only [Option.ite_none_right_eq_some, Option.some.injEq] at h
    obtain ⟨_, rfl⟩ := h
    exact WellTyped.intro haccepted fun _ hchild ↦ by
      cases hchild <;> exact hargs _ (by simp)
  · simp at h

/-- An operation on well-typed operands is well-typed if it is accepted. -/
theorem wellTyped_of_binary? {op : BinaryOp} {m : Modifier} {lhs rhs r : Expr}
    (hlhs : lhs.WellTyped) (hrhs : rhs.WellTyped) (h : binary? op m lhs rhs = some r) :
    r.WellTyped := by
  have haccepted : (binary? op m lhs rhs).isSome := by simp [h]
  simp only [binary?, Option.ite_none_right_eq_some, Option.some.injEq] at h
  obtain ⟨_, rfl⟩ := h
  exact WellTyped.intro haccepted fun _ hchild ↦ by
    cases hchild
    · exact hlhs
    · exact hrhs

/-- A call with well-typed arguments is well-typed if it is accepted. -/
theorem wellTyped_of_call? {name : String} {args : List Expr} {r : Expr}
    (hargs : ∀ a ∈ args, a.WellTyped) (h : call? name args = some r) : r.WellTyped := by
  have hsome : (call? name args).isSome := by simp [h]
  simp only [call?, Option.bind_eq_bind, Option.bind_eq_some_iff] at h
  obtain ⟨f, hf, _, _, _, _, h⟩ := h
  obtain rfl := Option.some.inj h
  obtain rfl : f.name = name := by simpa using List.find?_some hf
  exact WellTyped.intro hsome fun _ hchild ↦ by
    cases hchild with
    | arg ha => exact hargs _ ha

end AlertAudit.Query.Expr

namespace AlertAudit.Query.Parser

/-! ### What the parser builds -/

/-- Every result of `p` has the property. -/
def Gives {α : Type} (p : Parser α) (P : α → Prop) : Prop :=
  ∀ ts a ts', p ts = some (a, ts') → P a

section Gives

variable {α β : Type}

/-- A parser that takes nothing gives what it is told to give. -/
theorem gives_pure {P : α → Prop} {a : α} (h : P a) : Gives (pure a) P := by
  intro ts b ts' heq
  obtain ⟨rfl, rfl⟩ := Prod.mk.inj (Option.some.inj heq)
  exact h

/-- A parser that fails gives nothing, so all that it gives has any property. -/
theorem gives_failure {P : α → Prop} : Gives (failure : Parser α) P := by
  intro ts a ts' heq
  simp [failure, Alternative.failure, StateT.failure] at heq

/-- What comes second may rely on the result of what comes first. -/
theorem gives_bind {p : Parser α} {f : α → Parser β} {P : α → Prop} {Q : β → Prop}
    (hp : Gives p P) (hf : ∀ a, P a → Gives (f a) Q) : Gives (p >>= f) Q := by
  intro ts b ts' heq
  obtain ⟨⟨a, us⟩, hpa, hfb⟩ := Option.bind_eq_some_iff.mp heq
  exact hf a (hp ts a us hpa) us b ts' hfb

/-- What comes first may give anything. -/
theorem gives_then {p : Parser α} {f : α → Parser β} {Q : β → Prop}
    (hf : ∀ a, Gives (f a) Q) : Gives (p >>= f) Q :=
  gives_bind (P := fun _ ↦ True) (fun _ _ _ _ ↦ trivial) fun a _ ↦ hf a

/-- A parser that takes nothing gives the value that there is, or fails. -/
theorem gives_liftM {o : Option α} {P : α → Prop} (h : ∀ a, o = some a → P a) :
    Gives (liftM o : Parser α) P := by
  intro ts a ts' heq
  obtain ⟨b, hb, hpure⟩ := Option.bind_eq_some_iff.mp heq
  obtain ⟨rfl, rfl⟩ := Prod.mk.inj (Option.some.inj hpure)
  exact h b hb

end Gives

/-- A selector that is parsed is well-typed. -/
theorem wellTyped_selector (metric : Option String) : Gives (selector metric) Expr.WellTyped := by
  unfold selector
  refine gives_then fun opened ↦ ?_
  split
  · refine gives_then fun closed ↦ ?_
    split
    · exact gives_liftM fun _ h ↦ Expr.wellTyped_of_selector? h
    · refine gives_then fun _ ↦ gives_then fun _ ↦ gives_then fun _ ↦ ?_
      exact gives_liftM fun _ h ↦ Expr.wellTyped_of_selector? h
  · exact gives_liftM fun _ h ↦ Expr.wellTyped_of_selector? h

/-- So is an expression with a range or a subquery in brackets behind it. -/
theorem wellTyped_bracketed {e : Expr} (he : e.WellTyped) : Gives (bracketed e) Expr.WellTyped := by
  unfold bracketed
  refine gives_then fun _ ↦ gives_then fun closed ↦ ?_
  split
  · exact gives_liftM fun _ h ↦ Expr.wellTyped_of_range? he h
  · refine gives_then fun _ ↦ gives_then fun closed ↦ ?_
    split
    · exact gives_liftM fun _ h ↦ Expr.wellTyped_of_subquery? he h
    · refine gives_then fun _ ↦ gives_then fun _ ↦ ?_
      exact gives_liftM fun _ h ↦ Expr.wellTyped_of_subquery? he h

/-- So is an expression with all that may follow it. -/
theorem wellTyped_suffixes (fuel : Nat) {e : Expr} (he : e.WellTyped) :
    Gives (suffixes fuel e) Expr.WellTyped := by
  induction fuel generalizing e with
  | zero => exact gives_failure
  | succ fuel ih =>
    unfold suffixes
    refine gives_then fun opened ↦ ?_
    split
    · exact gives_bind (wellTyped_bracketed he) fun _ h ↦ ih h
    · refine gives_then fun offset ↦ ?_
      split
      · refine gives_then fun signed ↦ ?_
        have hshifted : Gives (do suffixes fuel (← e.offset?)) Expr.WellTyped :=
          gives_bind (gives_liftM fun _ h ↦ Expr.wellTyped_of_shift? he h) fun _ h ↦ ih h
        split
        · exact gives_then fun _ ↦ hshifted
        · exact gives_then fun _ ↦ gives_then fun _ ↦ hshifted
      · refine gives_then fun fixed ↦ ?_
        split
        · refine gives_then fun _ ↦ ?_
          exact gives_bind (gives_liftM fun _ h ↦ Expr.wellTyped_of_shift? he h) fun _ h ↦ ih h
        · exact gives_pure he

/-- The parsers for expressions and their parts, all with the same fuel, build well-typed
expressions. -/
structure BuildsTyped (fuel : Nat) : Prop where
  expr : ∀ least, Gives (expr fuel least) Expr.WellTyped
  operations : ∀ least lhs, lhs.WellTyped → Gives (operations fuel least lhs) Expr.WellTyped
  unary : Gives (unary fuel) Expr.WellTyped
  operand : Gives (operand fuel) Expr.WellTyped
  arguments : Gives (arguments fuel) fun args ↦ ∀ a ∈ args, a.WellTyped
  argumentsBefore : Gives (argumentsBefore fuel) fun args ↦ ∀ a ∈ args, a.WellTyped

namespace BuildsTyped

variable {fuel : Nat}

/-- Operations are well-typed if their operands are, which are parsed with less fuel. -/
theorem operations_succ (h : BuildsTyped fuel) (least : Nat) (lhs : Expr) (hlhs : lhs.WellTyped) :
    Gives (Parser.operations (fuel + 1) least lhs) Expr.WellTyped := by
  unfold Parser.operations
  refine gives_then fun next ↦ ?_
  split
  · exact gives_pure hlhs
  · split
    · exact gives_pure hlhs
    · refine gives_then fun _ ↦ gives_then fun m ↦ ?_
      refine gives_bind (h.expr _) fun rhs hrhs ↦ ?_
      refine gives_bind (gives_liftM fun _ hr ↦ ?_) fun _ hr ↦ h.operations _ _ hr
      exact Expr.wellTyped_of_binary? hlhs hrhs hr

/-- So are expressions behind a sign. -/
theorem unary_succ (h : BuildsTyped fuel) : Gives (Parser.unary (fuel + 1)) Expr.WellTyped := by
  unfold Parser.unary
  refine gives_then fun plus ↦ ?_
  split
  · exact h.expr _
  · refine gives_then fun minus ↦ ?_
    split
    · refine gives_bind (h.expr _) fun e he ↦ ?_
      exact gives_liftM fun _ hr ↦ Expr.wellTyped_of_neg? he hr
    · exact gives_bind h.operand fun e he ↦ gives_then fun _ ↦ wellTyped_suffixes _ he

/-- So are operands. -/
theorem operand_succ (h : BuildsTyped fuel) :
    Gives (Parser.operand (fuel + 1)) Expr.WellTyped := by
  unfold Parser.operand
  refine gives_then fun next ↦ ?_
  split
  · exact gives_then fun _ ↦ gives_pure (Expr.wellTyped_number _)
  · exact gives_then fun _ ↦ gives_pure (Expr.wellTyped_number _)
  · exact gives_then fun _ ↦ gives_pure (Expr.wellTyped_string _)
  · refine gives_then fun _ ↦ gives_bind (h.expr _) fun e he ↦ gives_then fun _ ↦ ?_
    exact gives_pure he.paren
  · exact wellTyped_selector none
  · refine gives_then fun _ ↦ gives_then fun next ↦ gives_then fun follow ↦ ?_
    split
    · rename_i op _
      split
      · refine gives_then fun before ↦ gives_bind h.arguments fun args hargs ↦ ?_
        have hbuilt (after : Option Grouping) :
            Gives (do Expr.aggregate? op (before <|> after) args) Expr.WellTyped :=
          gives_liftM fun _ hr ↦ Expr.wellTyped_of_aggregate? hargs hr
        dsimp only
        split
        · exact gives_then fun after ↦ hbuilt after
        · exact gives_then fun after ↦ hbuilt after
      · exact wellTyped_selector _
    · split
      · exact gives_failure
      · split
        · refine gives_bind h.arguments fun args hargs ↦ ?_
          exact gives_liftM fun _ hr ↦ Expr.wellTyped_of_call? hargs hr
        · exact wellTyped_selector _
  · exact gives_failure

/-- So are all arguments of a call. -/
theorem arguments_succ (h : BuildsTyped fuel) :
    Gives (Parser.arguments (fuel + 1)) fun args ↦ ∀ a ∈ args, a.WellTyped := by
  unfold Parser.arguments
  refine gives_then fun _ ↦ gives_then fun closed ↦ ?_
  split
  · exact gives_pure (by simp)
  · exact h.argumentsBefore

/-- So are the arguments in front of a closing parenthesis. -/
theorem argumentsBefore_succ (h : BuildsTyped fuel) :
    Gives (Parser.argumentsBefore (fuel + 1)) fun args ↦ ∀ a ∈ args, a.WellTyped := by
  unfold Parser.argumentsBefore
  refine gives_bind (h.expr _) fun e he ↦ gives_then fun closed ↦ ?_
  split
  · exact gives_pure (by simpa using he)
  · refine gives_then fun _ ↦ gives_bind h.argumentsBefore fun es hes ↦ gives_pure ?_
    exact List.forall_mem_cons.mpr ⟨he, hes⟩

end BuildsTyped

/-- The parsers build well-typed expressions with any fuel. -/
theorem buildsTyped (fuel : Nat) : BuildsTyped fuel := by
  induction fuel with
  | zero =>
    exact ⟨fun _ ↦ gives_failure, fun _ _ _ ↦ gives_failure, gives_failure, gives_failure,
      gives_failure, gives_failure⟩
  | succ fuel ih =>
    refine ⟨fun least ↦ ?_, ih.operations_succ, ih.unary_succ, ih.operand_succ,
      ih.arguments_succ, ih.argumentsBefore_succ⟩
    unfold Parser.expr
    exact gives_bind ih.unary fun _ he ↦ ih.operations _ _ he

end AlertAudit.Query.Parser

namespace AlertAudit.Query.Expr

/-- The expression of a query that is not rejected is well-typed. -/
theorem wellTyped_of_ofText? {text : String} {e : Expr} (h : ofText? text = some e) :
    e.WellTyped := by
  simp only [ofText?, Option.bind_eq_bind, Option.bind_eq_some_iff] at h
  obtain ⟨tokens, _, ⟨r, rest⟩, hrun, h⟩ := h
  cases rest with
  | nil =>
    obtain rfl := Option.some.inj h
    exact (Parser.buildsTyped _).expr 0 tokens r [] hrun
  | cons t ts => simp at h

end AlertAudit.Query.Expr
