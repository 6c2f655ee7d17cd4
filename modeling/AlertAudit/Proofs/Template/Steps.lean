import AlertAudit.Template.Parser
import Mathlib.Data.List.DropRight

/-!
What the primitives of the parser return and leave behind, as equations. The productions are taken
apart with these and with `bind_apply`; the definitions of the primitives are not opened elsewhere.
-/

set_option autoImplicit false

namespace AlertAudit.Template.Parser

variable {α β : Type}

theorem bind_apply (p : Parser α) (f : α → Parser β) (s : State) :
    (p >>= f) s = f (p s).1 (p s).2 := rfl

theorem pure_apply (a : α) (s : State) : (pure a : Parser α) s = (a, s) := rfl

theorem get_apply (s : State) : (get : Parser State) s = (s, s) := rfl

/-! ### White space -/

theorem all_head?_look (s : State) : s.look.rest.head?.all (!·.isTrivia) := by
  have hhead := List.head?_dropWhile_not (·.isTrivia) s.rest
  cases hrest : s.look.rest with
  | nil => rfl
  | cons token tokens =>
    change s.rest.dropWhile (·.isTrivia) = token :: tokens at hrest
    rw [hrest] at hhead
    simpa using hhead

/-- Looking past white space leaves no more of it. -/
@[simp]
theorem look_look (s : State) : s.look.look = s.look := by
  have htaken : s.look.rest.takeWhile (·.isTrivia) = [] := by
    have hhead := all_head?_look s
    cases hrest : s.look.rest with
    | nil => rfl
    | cons token rest =>
      rw [hrest, List.head?_cons, Option.all_some, Bool.not_eq_true'] at hhead
      rw [List.takeWhile_cons_of_neg]
      rw [hhead]
      exact Bool.false_ne_true
  have hdropped : s.look.rest.dropWhile (·.isTrivia) = s.look.rest :=
    List.dropWhile_idempotent _ _
  rw [State.look, htaken, hdropped, List.append_nil]

/-! ### Runs -/

theorem next_apply (s : State) : next s = (s.look.rest.head?, s.look) := rfl

theorem current_apply (s : State) : current s = (s.look.rest.head?.map (·.kind), s.look) := rfl

theorem currentText_apply (s : State) :
    currentText s = ((s.look.rest.head?.map (·.text)).getD "", s.look) := rfl

/-- The second token is the one behind the next one, with white space left out. -/
theorem second_apply (s : State) :
    second s = ((s.look.rest.tail.find? (!·.isTrivia)).map (·.kind), s.look) := rfl

theorem failed_apply (s : State) : failed s = (s.error.isSome, s) := rfl

theorem stopped_apply (s : State) : stopped s = (s.error.isSome || s.rest.isEmpty, s) := rfl

/-- Only the first error is recorded. -/
theorem fail_apply_of_isSome {s : State} (h : s.error.isSome) (cause : Cause) :
    fail cause s = ((), s) := by
  simp only [fail, bind_apply, failed_apply, h, if_true, pure_apply]

/-- An error is recorded with the next token, or with the end of the input. -/
theorem fail_apply_of_none {s : State} (h : s.error = none) (cause : Cause) :
    fail cause s = ((), { s.look with
      error := some ⟨cause, (s.look.rest.head?.map (·.span)).getD ⟨s.stop, s.stop⟩⟩ }) := by
  simp only [fail, bind_apply, failed_apply, h, Option.isSome_none, Bool.false_eq_true, if_false,
    next_apply]
  rfl

/-- An unexpected token is an error with a cause that depends on the place. -/
theorem unexpected_apply (context : Context) (s : State) :
    ∃ cause : Cause, unexpected context s = fail cause s.look := by
  simp only [unexpected, bind_apply, next_apply, get_apply]
  generalize s.look.rest.head? = token
  generalize s.look.scanError = scanError
  split
  · exact ⟨_, rfl⟩
  · exact ⟨_, rfl⟩

/-- At the end of the input nothing is taken. -/
theorem bump_apply_of_nil {s : State} (h : s.look.rest = []) : bump s = ((), s.look) := by
  simp only [bump, bind_apply, next_apply, h, List.head?_nil, pure_apply]

/-- The next token is taken with the white space in front of it. -/
theorem bump_apply_of_cons {s : State} {token : Token} {rest : List Token}
    (h : s.look.rest = token :: rest) :
    bump s = ((), { s.look.settle with
      rest := rest, built := [token].reverse.map .leaf ++ s.look.settle.built }) := by
  have htail : s.look.settle.rest.tail = rest := by rw [State.settle, h, List.tail_cons]
  simp only [bump, bind_apply, next_apply, h, List.head?_cons]
  rw [← htail]
  rfl

/-- In front of what stands inside of a node. -/
def State.inside (s : State) : State := { s.settle with built := [] }

/-- A node has what is built inside of it for its children. -/
theorem node_apply (kind : NodeKind) (p : Parser α) (s : State) :
    node kind p s = ((p { s.settle with built := [] }).1,
      { (p { s.settle with built := [] }).2 with
        built := .node kind (p { s.settle with built := [] }).2.built.reverse ::
          s.settle.built }) :=
  rfl

/-- Where variables only come into scope, dropping down to the mark gives back the old ones. -/
theorem keepingVars_apply {p : Parser α} {s : State} (h : s.vars <:+ (p s).2.vars) :
    keepingVars p s = ((p s).1, { (p s).2 with vars := s.vars }) := by
  have hdrop : (p s).2.vars.drop ((p s).2.vars.length - s.vars.length) = s.vars :=
    (List.suffix_iff_eq_drop.mp h).symm
  change ((p s).1, { (p s).2 with
    vars := (p s).2.vars.drop ((p s).2.vars.length - s.vars.length) }) = _
  rw [hdrop]

/-- In a loop, a run is as it is with one more loop around it. -/
theorem inLoop_apply {p : Parser α} {s : State}
    (h : (p { s with loops := s.loops + 1 }).2.loops = s.loops + 1) :
    inLoop p s = ((p { s with loops := s.loops + 1 }).1,
      { (p { s with loops := s.loops + 1 }).2 with loops := s.loops }) := by
  change ((p { s with loops := s.loops + 1 }).1, { (p { s with loops := s.loops + 1 }).2 with
    loops := (p { s with loops := s.loops + 1 }).2.loops - 1 }) = _
  rw [h, Nat.add_sub_cancel]

/-- In parentheses, a run is as it is with one more parenthesis around it. -/
theorem inParens_apply {p : Parser α} {s : State}
    (h : (p { s with depth := s.depth + 1 }).2.depth = s.depth + 1) :
    inParens p s = ((p { s with depth := s.depth + 1 }).1,
      { (p { s with depth := s.depth + 1 }).2 with depth := s.depth }) := by
  change ((p { s with depth := s.depth + 1 }).1, { (p { s with depth := s.depth + 1 }).2 with
    depth := (p { s with depth := s.depth + 1 }).2.depth - 1 }) = _
  rw [h, Nat.add_sub_cancel]

/-- What is isolated sees no variables and no loops from outside, and leaves them as they were. -/
theorem isolated_apply (p : Parser α) (s : State) :
    isolated p s = ((p { s with vars := ["$"], loops := 0 }).1,
      { (p { s with vars := ["$"], loops := 0 }).2 with vars := s.vars, loops := s.loops }) := rfl

/-- A loop goes on as long as its step says so and takes a token. -/
theorem iterate_apply (step : β → Parser (Bool × β)) (b : β) (s : State) :
    iterate step b s =
      if (step b s).1.1 ∧ (step b s).2.rest.length < s.rest.length then
        iterate step (step b s).1.2 (step b s).2
      else ((step b s).1.2, (step b s).2) := by
  rw [iterate]
  rcases step b s with ⟨⟨goOn, c⟩, t⟩
  cases goOn with
  | true => simp
  | false => simp

end AlertAudit.Template.Parser
