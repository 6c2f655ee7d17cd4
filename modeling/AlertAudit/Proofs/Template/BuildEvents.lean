import AlertAudit.Proofs.Template.Lossless

/-!
What the parser tells the builder of the tree: that a node starts, that a token comes next, and that
the innermost node is finished. The builder keeps a stack of the nodes that are not finished, and it
fails if there is none to finish. A state of the parser holds the children of the innermost node
only; each step of the parser is a bracketed run of the builder, whatever the nodes around it are
(`State.GrowsTo.exists_emits`), and `Parser.node` puts a start and a finish around what stands
inside of it (`emits_node`). The builder forgets nothing (`events_of_run`), so there is one run that
leads to the tree of a template, and in it every node that is started is finished exactly once
(`run_eq_some_iff`, `bracketed_of_run`).
-/

set_option autoImplicit false

namespace AlertAudit.Template

/-- What the builder of a tree is told. -/
inductive Event where
  | start (kind : NodeKind)
  | token (token : Token)
  | finish

/-- The token that comes next, if one does. -/
def Event.token? : Event → Option Token
  | token t => some t
  | _ => none

/-- Every node that is started is finished exactly once, behind all nodes inside of it. -/
inductive Bracketed : List Event → Prop
  | nil : Bracketed []
  | token {t : Token} {es : List Event} : Bracketed es → Bracketed (.token t :: es)
  | node {kind : NodeKind} {inner es : List Event} : Bracketed inner → Bracketed es →
    Bracketed (.start kind :: (inner ++ .finish :: es))

/-- Bracketed events one after the other are bracketed. -/
theorem Bracketed.append {es fs : List Event} (hes : Bracketed es) (hfs : Bracketed fs) :
    Bracketed (es ++ fs) := by
  induction hes with
  | nil => exact hfs
  | token _ ih => exact .token ih
  | node hinner _ _ ih =>
    rw [List.cons_append, List.append_assoc, List.cons_append]
    exact .node hinner ih

/-- Tokens alone start nothing and finish nothing. -/
theorem bracketed_tokens (tokens : List Token) : Bracketed (tokens.map .token) := by
  induction tokens with
  | nil => exact .nil
  | cons t tokens ih => exact .token ih

/-! ### The builder -/

/-- A tree under construction. -/
structure Builder where
  /-- The children of the innermost node, the last one first. -/
  children : List Tree := []
  /-- The kinds of the nodes that are not finished, the innermost first, each with the trees in
  front of the node. -/
  unfinished : List (NodeKind × List Tree) := []

namespace Builder

/-- One event. There must be a node to finish. -/
def apply (b : Builder) : Event → Option Builder
  | .start kind => some ⟨[], (kind, b.children) :: b.unfinished⟩
  | .token t => some { b with children := .leaf t :: b.children }
  | .finish =>
    match b.unfinished with
    | (kind, children) :: unfinished => some ⟨.node kind b.children.reverse :: children, unfinished⟩
    | [] => none

/-- Several events, one after the other. -/
def run (b : Builder) : List Event → Option Builder
  | [] => some b
  | e :: es => (b.apply e).bind fun next ↦ next.run es

end Builder

mutual

/-- The events that build a tree. -/
def Tree.events : Tree → List Event
  | leaf t => [.token t]
  | node kind children => .start kind :: (Tree.eventsOf children ++ [.finish])

/-- The events that build several trees. -/
def Tree.eventsOf : List Tree → List Event
  | [] => []
  | t :: ts => t.events ++ Tree.eventsOf ts

end

namespace Tree

theorem eventsOf_append (ts us : List Tree) : eventsOf (ts ++ us) = eventsOf ts ++ eventsOf us := by
  induction ts with
  | nil => rfl
  | cons t ts ih => rw [List.cons_append, eventsOf, eventsOf, ih, List.append_assoc]

mutual

/-- The events of a tree are bracketed. -/
theorem bracketed_events : ∀ t : Tree, Bracketed t.events
  | leaf _ => .token .nil
  | node _ children => .node (bracketed_eventsOf children) .nil

theorem bracketed_eventsOf : ∀ ts : List Tree, Bracketed (eventsOf ts)
  | [] => .nil
  | t :: ts => (bracketed_events t).append (bracketed_eventsOf ts)

end

mutual

/-- The tokens among the events of a tree are its leaves. -/
theorem filterMap_events : ∀ t : Tree, t.events.filterMap Event.token? = t.leaves
  | leaf _ => rfl
  | node kind children => by
    rw [events, leaves, List.filterMap_cons_none rfl, List.filterMap_append,
      filterMap_eventsOf children]
    exact List.append_nil _

theorem filterMap_eventsOf : ∀ ts : List Tree,
    (eventsOf ts).filterMap Event.token? = leavesOf ts
  | [] => rfl
  | t :: ts => by
    rw [eventsOf, leavesOf, List.filterMap_append, filterMap_events t, filterMap_eventsOf ts]

end

end Tree

namespace Builder

open AlertAudit.Template.Tree

theorem run_append (b : Builder) (es fs : List Event) :
    b.run (es ++ fs) = (b.run es).bind fun next ↦ next.run fs := by
  induction es generalizing b with
  | nil => rfl
  | cons e es ih =>
    rw [List.cons_append, run, run]
    cases b.apply e with
    | none => rfl
    | some next => exact ih next

theorem run_tokens (b : Builder) (tokens : List Token) : b.run (tokens.map .token) =
    some { b with children := tokens.reverse.map .leaf ++ b.children } := by
  induction tokens generalizing b with
  | nil => rfl
  | cons t tokens ih =>
    rw [List.map_cons, run, apply, Option.bind_some, ih]
    simp

mutual

/-- The events of a tree build it. -/
theorem run_events : ∀ (t : Tree) (b : Builder),
    b.run t.events = some { b with children := t :: b.children }
  | .leaf t, b => rfl
  | .node kind children, b => by
    have hinner := run_eventsOf children ⟨[], (kind, b.children) :: b.unfinished⟩
    rw [events, run, apply, Option.bind_some, run_append, hinner, Option.bind_some, run, apply]
    simp [run]

theorem run_eventsOf : ∀ (ts : List Tree) (b : Builder),
    b.run (eventsOf ts) = some { b with children := ts.reverse ++ b.children }
  | [], b => rfl
  | t :: ts, b => by
    rw [eventsOf, run_append, run_events t b, Option.bind_some, run_eventsOf ts]
    simp

end

/-- The events behind the nodes that are not finished. -/
def unfinishedEvents : List (NodeKind × List Tree) → List Event
  | [] => []
  | (kind, children) :: unfinished =>
    unfinishedEvents unfinished ++ (eventsOf children.reverse ++ [.start kind])

/-- The events that have led to the builder. -/
def events (b : Builder) : List Event :=
  unfinishedEvents b.unfinished ++ eventsOf b.children.reverse

theorem events_of_apply {b next : Builder} {e : Event} (h : b.apply e = some next) :
    next.events = b.events ++ [e] := by
  cases e with
  | start kind =>
    obtain rfl := Option.some.inj h
    simp [events, unfinishedEvents, eventsOf]
  | token t =>
    obtain rfl := Option.some.inj h
    simp [events, eventsOf_append, eventsOf, Tree.events]
  | finish =>
    obtain ⟨children, _ | ⟨⟨kind, outer⟩, unfinished⟩⟩ := b
    · exact absurd h (by simp [apply])
    · obtain rfl := Option.some.inj h
      simp [events, unfinishedEvents, eventsOf_append, eventsOf, Tree.events]

/-- The builder forgets nothing of what it is told. -/
theorem events_of_run {b next : Builder} {es : List Event} (h : b.run es = some next) :
    next.events = b.events ++ es := by
  induction es generalizing b with
  | nil =>
    obtain rfl := Option.some.inj h
    exact (List.append_nil _).symm
  | cons e es ih =>
    obtain ⟨middle, happly, hrun⟩ := Option.bind_eq_some_iff.mp h
    rw [ih hrun, events_of_apply happly, List.append_assoc, List.singleton_append]

end Builder

/-! ### The parser -/

namespace Parser

variable {α : Type} {s t u : State} {es fs : List Event}

/-- Bracketed events lead from what is built in one state to what is built in another one, whatever
the nodes around it are. -/
structure State.Emits (s : State) (es : List Event) (t : State) : Prop where
  bracketed : Bracketed es
  run : ∀ unfinished, Builder.run ⟨s.built, unfinished⟩ es = some ⟨t.built, unfinished⟩

theorem State.Emits.trans (hst : s.Emits es t) (htu : t.Emits fs u) : s.Emits (es ++ fs) u where
  bracketed := hst.bracketed.append htu.bracketed
  run unfinished := by rw [Builder.run_append, hst.run, Option.bind_some, htu.run]

/-- White space that has been looked past goes into the tree token by token. -/
theorem emits_settle (s : State) : s.Emits (s.pending.map .token) s.settle where
  bracketed := bracketed_tokens s.pending
  run _ := Builder.run_tokens _ _

/-- A node is started behind the white space that has been looked past, and it is finished behind
what `p` takes. -/
theorem emits_node {kind : NodeKind} {p : Parser α}
    (hp : { s.settle with built := [] : State }.Emits es (p { s.settle with built := [] }).2) :
    s.Emits (s.pending.map .token ++ .start kind :: (es ++ [.finish])) (node kind p s).2 := by
  refine (emits_settle s).trans ⟨.node hp.bracketed .nil, fun unfinished ↦ ?_⟩
  rw [Builder.run, Builder.apply, Option.bind_some, Builder.run_append, hp.run, node_apply]
  rfl

/-- Each part of the parser gives bracketed events. -/
theorem State.GrowsTo.exists_emits (h : s.GrowsTo t) : ∃ es, s.Emits es t := by
  obtain ⟨added, hbuilt, -⟩ := h.trees
  refine ⟨Tree.eventsOf added, Tree.bracketed_eventsOf added, fun unfinished ↦ ?_⟩
  rw [Builder.run_eventsOf, hbuilt]

end Parser

/-- The events that build what the parser has built of a template are those of its tree, and no
other ones. -/
theorem run_eq_some_iff (text : String) (es : List Event) :
    Builder.run {} es = some { children := (Parser.State.final text).built } ↔
      es = (Parse.ofText text).tree.events := by
  obtain ⟨parsed, tail, hbuilt, -⟩ := Parser.final_spec text
  have htree : (Parser.State.final text).built = [(Parse.ofText text).tree] := by
    rw [Parse.ofText_eq, hbuilt, List.headD_cons]
  rw [htree]
  constructor
  · intro h
    have hevents := Builder.events_of_run h
    simpa [Builder.events, Builder.unfinishedEvents, Tree.eventsOf] using hevents.symm
  · rintro rfl
    exact Builder.run_events _ {}

/-- Whatever the builder is told for a template, every node that is started is finished exactly
once, and the tokens are those of the template. -/
theorem bracketed_of_run {text : String} {es : List Event}
    (h : Builder.run {} es = some { children := (Parser.State.final text).built }) :
    Bracketed es ∧ es.filterMap Event.token? = (Tokens.ofText text).tokens := by
  obtain rfl := (run_eq_some_iff text es).mp h
  obtain ⟨parsed, tail, hbuilt, -, -, hleaves, -⟩ := Parser.final_spec text
  refine ⟨Tree.bracketed_events _, ?_⟩
  rw [Tree.filterMap_events, Parse.ofText_eq, hbuilt, List.headD_cons, Tree.leaves_node, hleaves]

end AlertAudit.Template
