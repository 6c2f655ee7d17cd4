import AlertAudit.Proofs.Template.Bare
import AlertAudit.Proofs.Template.Meaning.Declaration
import AlertAudit.Proofs.Template.Meaning.Operand

/-!
Runs of the parser on an input that it is meant for. `Runs p v a parts w` says what `p` does
wherever it sees `v`: without an error it comes to the view `w`, returns `a`, and adds to the tree
what shows as `parts`. Runs follow one another like the pieces that they take, so along a phrase
that spells an outline they can be put together to the run that builds it.
-/

set_option autoImplicit false

namespace AlertAudit.Template.Parser

open Outline

variable {α β : Type}

/-- What the tree under construction shows. -/
def State.shown (s : State) : List Part := Outline.shown s.built.reverse

/-- What running `p` from `s` comes to. -/
structure Ran (p : Parser α) (s : State) (a : α) (parts : List Part) (w : View) : Prop where
  result : (p s).1 = a
  error : (p s).2.error = none
  view : (p s).2.view = w
  shown : (p s).2.shown = s.shown ++ parts
  grows : s.GrowsTo (p s).2

/-- What running `p` comes to wherever `v` is seen. -/
def Runs (p : Parser α) (v : View) (a : α) (parts : List Part) (w : View) : Prop :=
  ∀ s : State, s.error = none → s.pending.all (·.isTrivia) → s.view = v → Ran p s a parts w

section Rules

variable {p : Parser α} {v w : View} {a : α} {parts : List Part}

/-- What does the same runs the same. -/
theorem Ran.congr {q : Parser α} {s : State} (hsame : p s = q s) (h : Ran q s a parts w) :
    Ran p s a parts w := by
  obtain ⟨hresult, herror, hw, hshown, hgrows⟩ := h
  rw [← hsame] at hresult herror hw hshown hgrows
  exact ⟨hresult, herror, hw, hshown, hgrows⟩

/-- What takes nothing stays where it is. -/
theorem runs_pure (a : α) (v : View) : Runs (pure a : Parser α) v a [] v := fun s hs _ hv ↦
  ⟨rfl, hs, hv, (List.append_nil _).symm, .refl s⟩

/-- Runs follow one another. -/
theorem Runs.bind {f : α → Parser β} {u : View} {b : β} {parts' : List Part}
    (hp : Runs p v a parts u) (hf : Runs (f a) u b parts' w) :
    Runs (p >>= f) v b (parts ++ parts') w := by
  intro s hs hspaces hv
  obtain ⟨rfl, herror, hu, hshown, hgrows⟩ := hp s hs hspaces hv
  obtain ⟨hb, herror', hw, hshown', hgrows'⟩ := hf _ herror (hgrows.pending hspaces) hu
  refine ⟨hb, herror', hw, ?_, hgrows.trans hgrows'⟩
  rw [bind_apply, hshown', hshown, List.append_assoc]

/-- What comes after a look for errors is not kept from running. -/
theorem Runs.unless_failed {q : Parser α} (h : Runs p v a parts w) :
    Runs (do if ← failed then q else p) v a parts w := by
  intro s hs hspaces hv
  refine Ran.congr ?_ (h s hs hspaces hv)
  rw [bind_apply, failed_apply, hs]
  rfl

/-- A choice runs as the side that is chosen. -/
theorem Runs.ite_left {c : Prop} [Decidable c] {q : Parser α} (hc : c)
    (h : Runs p v a parts w) : Runs (if c then p else q) v a parts w := by
  rwa [if_pos hc]

/-- So it does on the other side. -/
theorem Runs.ite_right {c : Prop} [Decidable c] {q : Parser α} (hc : ¬c)
    (h : Runs p v a parts w) : Runs (if c then q else p) v a parts w := by
  rwa [if_neg hc]

/-- What only looks ahead adds nothing. -/
theorem runs_of_look {p : Parser α} {f : Place → α}
    (h : ∀ s, p s = (f s.place, s.look)) (v : Place) (gap : Bool) :
    Runs p ⟨v, gap⟩ (f v) [] ⟨v, false⟩ := by
  rintro s hs _ hv
  have hplace : s.place = v := congrArg View.place hv
  refine ⟨by rw [h, hplace], by rw [h]; exact hs, by rw [h, view_look, hplace], ?_, ?_⟩
  · rw [h, List.append_nil]
    rfl
  · rw [h]
    exact growsTo_look s

/-- White space in the tree does not show. -/
theorem shown_settle {s : State} (h : s.pending.all (·.isTrivia)) :
    s.settle.shown = s.shown := by
  have hfilter : s.pending.filter (!·.isTrivia) = [] := by
    refine List.filter_eq_nil_iff.mpr fun t ht ↦ ?_
    simpa using List.all_eq_true.mp h t ht
  have hbuilt : s.settle.built.reverse = s.built.reverse ++ s.pending.map .leaf := by
    simp [State.settle]
  rw [State.shown, hbuilt, shown_append, shown_map_leaf, hfilter, List.map_nil, List.append_nil]
  rfl

/-- A node that runs from a state shows what its kind makes of what is shown inside of it. -/
theorem Ran.node {kind : NodeKind} {part : Part} {s : State} (hspaces : s.pending.all (·.isTrivia))
    (hframe : kind.isFrame = false)
    (hoperand : kind.isOperand → Tree.leavesOf (p s.inside).2.built.reverse ≠ [])
    (hpart : Outline.shown [.node kind (p s.inside).2.built.reverse] = [part])
    (h : Ran p s.inside a parts w) : Ran (Parser.node kind p) s a [part] w := by
  obtain ⟨hresult, herror, hw, -, hgrows⟩ := h
  refine ⟨hresult, herror, hw, ?_, growsTo_node hframe hgrows hoperand⟩
  have hbuilt : (Parser.node kind p s).2.built.reverse =
      s.settle.built.reverse ++ [.node kind (p s.inside).2.built.reverse] := List.reverse_cons
  rw [State.shown, hbuilt, shown_append, hpart, ← shown_settle hspaces]
  rfl

/-- A node shows what its kind makes of what is shown inside of it. -/
theorem Runs.node (kind : NodeKind) (hframe : kind.isFrame = false)
    (hoperand : kind.isOperand = false) (h : Runs p v a parts w) :
    Runs (Parser.node kind p) v a [nodePart kind parts] w := by
  intro s hs hspaces hv
  have hinside := h s.inside hs rfl hv
  refine hinside.node hspaces hframe (fun hkind ↦ ?_) ?_
  · rw [hoperand] at hkind
    exact absurd hkind Bool.false_ne_true
  · rw [shown_node hoperand]
    exact congrArg (fun parts ↦ [nodePart kind parts]) hinside.shown

/-- What keeps variables forgets those that came into scope. -/
theorem Runs.keepingVars {ahead ahead' : List Piece} {vars vars' : List String}
    {loops loops' : Nat} {gap gap' : Bool}
    (h : Runs p ⟨⟨ahead, vars, loops⟩, gap⟩ a parts ⟨⟨ahead', vars', loops'⟩, gap'⟩) :
    Runs (keepingVars p) ⟨⟨ahead, vars, loops⟩, gap⟩ a parts ⟨⟨ahead', vars, loops'⟩, gap'⟩ := by
  intro s hs hspaces hv
  obtain ⟨hresult, herror, hw, hshown, hgrows⟩ := h s hs hspaces hv
  refine Ran.congr (q := fun s ↦ ((p s).1, { (p s).2 with vars := s.vars }))
    (keepingVars_apply hgrows.vars) ⟨hresult, herror, ?_, hshown,
      hgrows.reframe rfl rfl (List.suffix_refl _) hgrows.loops hgrows.depth⟩
  have hview : State.view { (p s).2 with vars := s.vars } =
      ⟨{ (p s).2.view.place with vars := s.vars }, (p s).2.view.gap⟩ := rfl
  have hvars : s.vars = vars := congrArg (·.place.vars) hv
  rw [hview, hw, hvars]

/-- A run in one more loop. -/
theorem Runs.inLoop {ahead ahead' : List Piece} {vars vars' : List String}
    {loops loops' : Nat} {gap gap' : Bool}
    (h : Runs p ⟨⟨ahead, vars, loops + 1⟩, gap⟩ a parts ⟨⟨ahead', vars', loops'⟩, gap'⟩) :
    Runs (inLoop p) ⟨⟨ahead, vars, loops⟩, gap⟩ a parts ⟨⟨ahead', vars', loops⟩, gap'⟩ := by
  intro s hs hspaces hv
  have hloops : s.loops = loops := congrArg (·.place.loops) hv
  have hview : State.view { s with loops := s.loops + 1 } = ⟨⟨ahead, vars, loops + 1⟩, gap⟩ := by
    rw [hloops]
    exact congrArg (fun v : View ↦ (⟨⟨v.place.ahead, v.place.vars, loops + 1⟩, v.gap⟩ : View)) hv
  obtain ⟨hresult, herror, hw, hshown, hgrows⟩ := h { s with loops := s.loops + 1 } hs hspaces hview
  refine Ran.congr (q := fun s ↦ ((p { s with loops := s.loops + 1 }).1,
      { (p { s with loops := s.loops + 1 }).2 with loops := s.loops }))
    (inLoop_apply hgrows.loops) ⟨hresult, herror, ?_, hshown,
      hgrows.reframe rfl rfl hgrows.vars rfl hgrows.depth⟩
  have hview : State.view { (p { s with loops := s.loops + 1 }).2 with loops := s.loops } =
      ⟨{ (p { s with loops := s.loops + 1 }).2.view.place with loops := s.loops },
        (p { s with loops := s.loops + 1 }).2.view.gap⟩ := rfl
  rw [hview, hw, hloops]

/-- A run in one more parenthesis. -/
theorem Runs.inParens (h : Runs p v a parts w) : Runs (inParens p) v a parts w := by
  intro s hs hspaces hv
  obtain ⟨hresult, herror, hw, hshown, hgrows⟩ := h { s with depth := s.depth + 1 } hs hspaces hv
  exact Ran.congr (q := fun s ↦ ((p { s with depth := s.depth + 1 }).1,
      { (p { s with depth := s.depth + 1 }).2 with depth := s.depth }))
    (inParens_apply hgrows.depth) ⟨hresult, herror, hw, hshown,
      hgrows.reframe rfl rfl hgrows.vars hgrows.loops rfl⟩

/-- A run without variables and loops from outside. -/
theorem Runs.isolated {ahead ahead' : List Piece} {vars vars' : List String}
    {loops loops' : Nat} {gap gap' : Bool}
    (h : Runs p ⟨⟨ahead, ["$"], 0⟩, gap⟩ a parts ⟨⟨ahead', vars', loops'⟩, gap'⟩) :
    Runs (isolated p) ⟨⟨ahead, vars, loops⟩, gap⟩ a parts ⟨⟨ahead', vars, loops⟩, gap'⟩ := by
  intro s hs hspaces hv
  have hview : State.view { s with vars := ["$"], loops := 0 } = ⟨⟨ahead, ["$"], 0⟩, gap⟩ :=
    congrArg (fun v : View ↦ (⟨⟨v.place.ahead, ["$"], 0⟩, v.gap⟩ : View)) hv
  obtain ⟨hresult, herror, hw, hshown, hgrows⟩ :=
    h { s with vars := ["$"], loops := 0 } hs hspaces hview
  refine ⟨hresult, herror, ?_, hshown,
    hgrows.reframe rfl rfl (List.suffix_refl _) rfl hgrows.depth⟩
  have hview : (Parser.isolated p s).2.view =
      ⟨⟨(p { s with vars := ["$"], loops := 0 }).2.view.place.ahead, s.vars, s.loops⟩,
        (p { s with vars := ["$"], loops := 0 }).2.view.gap⟩ := rfl
  have hvars : s.vars = vars := congrArg (·.place.vars) hv
  have hloops : s.loops = loops := congrArg (·.place.loops) hv
  rw [hview, hw, hvars, hloops]

end Rules

/-! ### Repetition -/

section Rounds

variable {step : β → Parser (Bool × β)} {b c d : β} {u v w : View} {parts parts' : List Part}

/-- From a state, the round that does not go on is the last one. -/
theorem Ran.iterate_last {s : State} (h : Ran (step b) s (false, c) parts w) :
    Ran (iterate step b) s c parts w := by
  obtain ⟨hresult, herror, hw, hshown, hgrows⟩ := h
  have hsame : iterate step b s = (c, (step b s).2) := by
    rw [iterate_apply, hresult, if_neg (by simp)]
  exact Ran.congr (q := fun s ↦ (c, (step b s).2)) hsame ⟨rfl, herror, hw, hshown, hgrows⟩

/-- The round that does not go on is the last one. -/
theorem Runs.iterate_last (h : Runs (step b) v (false, c) parts w) :
    Runs (iterate step b) v c parts w := fun s hs hspaces hv ↦ (h s hs hspaces hv).iterate_last

/-- From a state, a round that takes a piece is followed by the others. -/
theorem Ran.iterate_more {s : State} (h : Ran (step b) s (true, c) parts u)
    (hfewer : u.place.ahead.length < s.place.ahead.length)
    (hrest : Ran (iterate step c) (step b s).2 d parts' w) :
    Ran (iterate step b) s d (parts ++ parts') w := by
  obtain ⟨hresult, -, hu, hshown, hgrows⟩ := h
  have htakes : (step b s).2.rest.length < s.rest.length := by
    refine takes_of_ahead hgrows ?_
    rw [show (step b s).2.place = u.place from congrArg View.place hu]
    exact hfewer
  have hsame : iterate step b s = iterate step c (step b s).2 := by
    rw [iterate_apply, hresult, if_pos ⟨rfl, htakes⟩]
  obtain ⟨hresult', herror', hw, hshown', hgrows'⟩ := hrest
  refine Ran.congr (q := fun s ↦ iterate step c (step b s).2) hsame
    ⟨hresult', herror', hw, ?_, hgrows.trans hgrows'⟩
  rw [hshown', hshown, List.append_assoc]

/-- A round that takes a piece is followed by the others. -/
theorem Runs.iterate_more (h : Runs (step b) v (true, c) parts u)
    (hfewer : u.place.ahead.length < v.place.ahead.length)
    (hrest : Runs (iterate step c) u d parts' w) :
    Runs (iterate step b) v d (parts ++ parts') w := by
  intro s hs hspaces hv
  have hfirst := h s hs hspaces hv
  refine hfirst.iterate_more ?_ (hrest _ hfirst.error (hfirst.grows.pending hspaces) hfirst.view)
  rw [show s.place = v.place from congrArg View.place hv]
  exact hfewer

end Rounds

/-! ### Primitives -/

/-- The next piece is seen behind white space. -/
theorem runs_current {v : Place} {k : Option TokenKind} (h : v.kind? = k) (gap : Bool) :
    Runs current ⟨v, gap⟩ k [] ⟨v, false⟩ :=
  h ▸ runs_of_look (f := Place.kind?)
    (fun s ↦ by rw [current_apply, kind?_place]) v gap

theorem runs_currentText (v : Place) (gap : Bool) :
    Runs currentText ⟨v, gap⟩ v.text [] ⟨v, false⟩ :=
  runs_of_look (fun s ↦ by rw [currentText_apply, text_place]) v gap

/-- So is the second one. -/
theorem runs_second {v : Place} {k : Option TokenKind} (h : v.tail.kind? = k) (gap : Bool) :
    Runs second ⟨v, gap⟩ k [] ⟨v, false⟩ :=
  h ▸ runs_of_look (f := fun v ↦ v.tail.kind?)
    (fun s ↦ by rw [second_apply, kind?_tail_place]) v gap

/-- What is adjacent is seen only if no white space stands in front of it. -/
theorem runs_adjacent {v : View} {k : Option TokenKind} (h : v.adjacent = k) :
    Runs adjacent v k [] v := by
  intro s hs _ hv
  refine ⟨?_, hs, hv, (List.append_nil _).symm, .refl s⟩
  rw [← h, ← hv]
  exact adjacent_view s

/-- The token in front of what is seen, behind white space. -/
theorem exists_look_rest {s : State} {p : Piece} {r : List Piece}
    (h : s.place.ahead = p :: r) :
    ∃ rest, s.look.rest = p.token :: rest ∧ p = ⟨p.token, rest.head?.any (·.isTrivia)⟩ ∧
      r = pieces rest := by
  cases hrest : s.look.rest with
  | nil =>
    rw [ahead_of_look_nil hrest] at h
    exact absurd h (by simp)
  | cons token rest =>
    rw [ahead_of_look_cons hrest] at h
    obtain ⟨rfl, rfl⟩ := List.cons.inj h
    exact ⟨rest, rfl, rfl, rfl⟩

/-- Behind white space no more of it is next. -/
theorem isTrivia_eq_false_of_look {s : State} {token : Token} {rest : List Token}
    (h : s.look.rest = token :: rest) : token.isTrivia = false := by
  have hhead := all_head?_look s
  rw [h, List.head?_cons, Option.all_some, Bool.not_eq_true'] at hhead
  exact hhead

/-- The next piece is taken with the white space in front of it. -/
theorem runs_bump (p : Piece) (r : List Piece) (vars : List String) (loops : Nat) (gap : Bool) :
    Runs bump ⟨⟨p :: r, vars, loops⟩, gap⟩ () [.token p.token] ⟨⟨r, vars, loops⟩, p.spaced⟩ := by
  intro s hs hspaces hv
  have hahead : s.place.ahead = p :: r := congrArg (·.place.ahead) hv
  have hview : (bump s).2.view = s.place.bumped :=
    ((means_bump_view (C := Anywhere)).sound hs trivial (by
      obtain ⟨rest, hrest, -, -⟩ := exists_look_rest hahead
      rw [bump_apply_of_cons hrest]
      exact hs))
  obtain ⟨rest, hrest, -, -⟩ := exists_look_rest hahead
  have htrivia := isTrivia_eq_false_of_look hrest
  refine ⟨rfl, ?_, ?_, ?_, grows_bump s⟩
  · rw [bump_apply_of_cons hrest]
    exact hs
  · rw [hview, Place.bumped, Place.tail, show s.place = ⟨p :: r, vars, loops⟩ from
      congrArg View.place hv]
    rfl
  · rw [bump_apply_of_cons hrest]
    have hlook : s.look.settle.shown = s.shown :=
      shown_settle ((growsTo_look s).pending hspaces)
    have hbuilt : Outline.shown ([p.token].reverse.map Tree.leaf ++ s.look.settle.built).reverse =
        s.look.settle.shown ++ [.token p.token] := by
      rw [List.reverse_append, shown_append, ← List.map_reverse, List.reverse_reverse,
        shown_map_leaf, List.filter_cons_of_pos (by simpa using htrivia)]
      rfl
    rw [State.shown, hbuilt, hlook]

/-- A piece of the kind that may come is taken. -/
theorem runs_eat {kind : TokenKind} {p : Piece} (h : p.kind = kind) (r : List Piece)
    (vars : List String) (loops : Nat) (gap : Bool) :
    Runs (eat kind) ⟨⟨p :: r, vars, loops⟩, gap⟩ true [.token p.token]
      ⟨⟨r, vars, loops⟩, p.spaced⟩ := by
  have hkind : Place.kind? ⟨p :: r, vars, loops⟩ = some kind := congrArg some h
  exact (runs_current hkind gap).bind
    (.ite_left rfl ((runs_bump p r vars loops false).bind (runs_pure true _)))

/-- Any other piece is left. -/
theorem runs_eat_of_ne {kind : TokenKind} {v : Place} (h : v.kind? ≠ some kind) (gap : Bool) :
    Runs (eat kind) ⟨v, gap⟩ false [] ⟨v, false⟩ :=
  (runs_current rfl gap).bind (.ite_right h (runs_pure false _))

/-- A piece of the kind that has to come is taken. -/
theorem runs_expect {kind : TokenKind} (context : Context) {p : Piece} (h : p.kind = kind)
    (r : List Piece) (vars : List String) (loops : Nat) (gap : Bool) :
    Runs (expect kind context) ⟨⟨p :: r, vars, loops⟩, gap⟩ true [.token p.token]
      ⟨⟨r, vars, loops⟩, p.spaced⟩ :=
  (runs_eat h r vars loops gap).bind (.ite_left rfl (runs_pure true _))

/-- A variable that is declared comes into scope. -/
theorem runs_push (name : String) (ahead : List Piece) (vars : List String) (loops : Nat)
    (gap : Bool) :
    Runs (modify fun s ↦ { s with vars := name :: s.vars }) ⟨⟨ahead, vars, loops⟩, gap⟩ () []
      ⟨⟨ahead, name :: vars, loops⟩, gap⟩ := by
  intro s hs _ hv
  refine ⟨rfl, hs, ?_, (List.append_nil _).symm, growsTo_push s name⟩
  exact congrArg (fun v : View ↦
    (⟨⟨v.place.ahead, name :: v.place.vars, v.place.loops⟩, v.gap⟩ : View)) hv

end AlertAudit.Template.Parser
