import AlertAudit.Proofs.Template.Meaning.Items
import AlertAudit.Proofs.Template.Runs.Pipeline

/-!
Runs over items and blocks, along what spells them. Between the tokens outside of pipelines white
space does not matter, so these runs are about places (`Passes`). Which parser of a body is used
depends on how deep blocks nest around it; any one does whose depth is no less than the number of
pieces in front of it.
-/

set_option autoImplicit false

namespace AlertAudit.Template.Parser

open Grammar Outline

variable {α β : Type}

/-- What running `p` comes to wherever `v` is seen, with white space in front or without. -/
def Passes (p : Parser α) (v : Place) (a : α) (parts : List Part) (w : Place) : Prop :=
  ∀ gap, ∃ gap', Runs p ⟨v, gap⟩ a parts ⟨w, gap'⟩

section Rules

variable {p : Parser α} {v w : Place} {a : α} {parts : List Part}

/-- What takes nothing stays at its place. -/
theorem passes_pure (a : α) (v : Place) : Passes (pure a : Parser α) v a [] v := fun gap ↦
  ⟨gap, runs_pure a _⟩

/-- Runs follow one another. -/
theorem Passes.bind {f : α → Parser β} {u : Place} {b : β} {parts' : List Part}
    (hp : Passes p v a parts u) (hf : Passes (f a) u b parts' w) :
    Passes (p >>= f) v b (parts ++ parts') w := by
  intro gap
  obtain ⟨gap₁, h₁⟩ := hp gap
  obtain ⟨gap₂, h₂⟩ := hf gap₁
  exact ⟨gap₂, h₁.bind h₂⟩

/-- What follows a step that only looks ahead. -/
theorem Passes.before {f : α → Parser β} {u : Place} {b : β} {parts' : List Part}
    (hp : Passes p v a [] u) (hf : Passes (f a) u b parts' w) : Passes (p >>= f) v b parts' w :=
  hp.bind hf

/-- What comes after a look for errors is not kept from running. -/
theorem Passes.unless_failed {q : Parser α} (h : Passes p v a parts w) :
    Passes (do if ← failed then q else p) v a parts w := fun gap ↦
  (h gap).imp fun _ ↦ .unless_failed

/-- A choice runs as the side that is chosen. -/
theorem Passes.ite_left {c : Prop} [Decidable c] {q : Parser α} (hc : c)
    (h : Passes p v a parts w) : Passes (if c then p else q) v a parts w := by
  rwa [if_pos hc]

/-- So it does on the other side. -/
theorem Passes.ite_right {c : Prop} [Decidable c] {q : Parser α} (hc : ¬c)
    (h : Passes p v a parts w) : Passes (if c then q else p) v a parts w := by
  rwa [if_neg hc]

/-- A node shows what its kind makes of what is shown inside of it. -/
theorem Passes.node (kind : NodeKind) (hframe : kind.isFrame = false)
    (hoperand : kind.isOperand = false) (h : Passes p v a parts w) :
    Passes (Parser.node kind p) v a [nodePart kind parts] w := fun gap ↦
  (h gap).imp fun _ ↦ .node kind hframe hoperand

/-- What takes tokens does not run at the end of the input. -/
theorem Passes.unless_stopped {q : Parser α} (hv : v.ahead ≠ []) (h : Passes p v a parts w) :
    Passes (do if ← stopped then q else p) v a parts w := by
  intro gap
  obtain ⟨gap', hruns⟩ := h gap
  refine ⟨gap', fun s hs hspaces hview ↦ (hruns s hs hspaces hview).congr ?_⟩
  have hrest : s.rest ≠ [] := by
    intro hnil
    refine hv ?_
    have hahead : s.place.ahead = v.ahead := congrArg (·.place.ahead) hview
    rw [← hahead, State.place, hnil]
    rfl
  rw [bind_apply, stopped_apply, hs, if_neg (by simpa using hrest)]

/-- What keeps variables forgets those that came into scope. -/
theorem Passes.keepingVars {ahead ahead' : List Piece} {vars vars' : List String}
    {loops loops' : Nat} (h : Passes p ⟨ahead, vars, loops⟩ a parts ⟨ahead', vars', loops'⟩) :
    Passes (keepingVars p) ⟨ahead, vars, loops⟩ a parts ⟨ahead', vars, loops'⟩ := fun gap ↦
  (h gap).imp fun _ ↦ .keepingVars

/-- A run in one more loop. -/
theorem Passes.inLoop {ahead ahead' : List Piece} {vars vars' : List String}
    {loops loops' : Nat} (h : Passes p ⟨ahead, vars, loops + 1⟩ a parts ⟨ahead', vars', loops'⟩) :
    Passes (inLoop p) ⟨ahead, vars, loops⟩ a parts ⟨ahead', vars', loops⟩ := fun gap ↦
  (h gap).imp fun _ ↦ .inLoop

/-- A run without variables and loops from outside. -/
theorem Passes.isolated {ahead ahead' : List Piece} {vars vars' : List String}
    {loops loops' : Nat} (h : Passes p ⟨ahead, ["$"], 0⟩ a parts ⟨ahead', vars', loops'⟩) :
    Passes (isolated p) ⟨ahead, vars, loops⟩ a parts ⟨ahead', vars, loops⟩ := fun gap ↦
  (h gap).imp fun _ ↦ .isolated

/-- The last round of a loop. -/
theorem Passes.iterate_last {step : β → Parser (Bool × β)} {b c : β}
    (h : Passes (step b) v (false, c) parts w) : Passes (iterate step b) v c parts w := fun gap ↦
  (h gap).imp fun _ ↦ .iterate_last

/-- A round of a loop in front of the others. -/
theorem Passes.iterate_more {step : β → Parser (Bool × β)} {b c d : β} {u : Place}
    {parts' : List Part} (h : Passes (step b) v (true, c) parts u)
    (hfewer : u.ahead.length < v.ahead.length) (hrest : Passes (iterate step c) u d parts' w) :
    Passes (iterate step b) v d (parts ++ parts') w := by
  intro gap
  obtain ⟨gap₁, h₁⟩ := h gap
  obtain ⟨gap₂, h₂⟩ := hrest gap₁
  exact ⟨gap₂, h₁.iterate_more hfewer h₂⟩

/-- A look at the next piece. -/
theorem passes_current {k : Option TokenKind} (h : v.kind? = k) : Passes current v k [] v :=
  fun gap ↦ ⟨false, runs_current h gap⟩

/-- A look at the second piece. -/
theorem passes_second {k : Option TokenKind} (h : v.tail.kind? = k) : Passes second v k [] v :=
  fun gap ↦ ⟨false, runs_second h gap⟩

/-- A look at the text of the next piece. -/
theorem passes_currentText (v : Place) : Passes currentText v v.text [] v := fun gap ↦
  ⟨false, runs_currentText v gap⟩

/-- The next piece is taken. -/
theorem passes_bump (p : Piece) (r : List Piece) (vars : List String) (loops : Nat) :
    Passes bump ⟨p :: r, vars, loops⟩ () [.token p.token] ⟨r, vars, loops⟩ := fun gap ↦
  ⟨_, runs_bump p r vars loops gap⟩

/-- A piece of the kind that may come is taken. -/
theorem passes_eat {kind : TokenKind} {p : Piece} (h : p.kind = kind) (r : List Piece)
    (vars : List String) (loops : Nat) :
    Passes (eat kind) ⟨p :: r, vars, loops⟩ true [.token p.token] ⟨r, vars, loops⟩ := fun gap ↦
  ⟨_, runs_eat h r vars loops gap⟩

/-- Any other piece is left. -/
theorem passes_eat_of_ne {kind : TokenKind} {v : Place} (h : v.kind? ≠ some kind) :
    Passes (eat kind) v false [] v := fun gap ↦ ⟨_, runs_eat_of_ne h gap⟩

/-- A piece of the kind that has to come is taken. -/
theorem passes_expect {kind : TokenKind} (context : Context) {p : Piece} (h : p.kind = kind)
    (r : List Piece) (vars : List String) (loops : Nat) :
    Passes (expect kind context) ⟨p :: r, vars, loops⟩ true [.token p.token] ⟨r, vars, loops⟩ :=
  fun gap ↦ ⟨_, runs_expect context h r vars loops gap⟩

/-- A look for the word of an action. -/
theorem passes_actionWord (v : Place) : Passes actionWord v v.word? [] v := by
  refine (passes_current rfl).before ?_
  rw [Place.word?]
  split
  · exact passes_second rfl
  · exact passes_pure none v

end Rules

/-! ### Actions of one word -/

section Words

variable {r : List Piece} {vars : List String} {loops : Nat}

/-- The end of a block. -/
theorem passes_endAction {close : List Piece} (h : Marks .endWord close) :
    Passes endAction ⟨close ++ r, vars, loops⟩ () [.nothing] ⟨r, vars, loops⟩ := by
  obtain ⟨left, w, right, rfl, -, -, hright⟩ := h
  exact .node .endAction rfl rfl ((passes_bump left _ vars loops).bind
    ((passes_bump w _ vars loops).bind ((passes_expect .endAction hright r vars loops).bind
      (passes_pure () _))))

/-- An action that leaves or repeats a loop, inside of one. -/
theorem passes_loopAction (kind : NodeKind) (hframe : kind.isFrame = false)
    (hoperand : kind.isOperand = false) (context : Context) (left w : Piece) {right : Piece}
    (hright : right.kind = .rightDelim) (r : List Piece) (vars : List String) (hloops : 0 < loops) :
    ∃ parts, Passes (loopAction kind context) ⟨[left, w, right] ++ r, vars, loops⟩ ()
      [nodePart kind parts] ⟨r, vars, loops⟩ := by
  have hinside : Passes (do if (← get).loops = 0 then fail (.outsideLoop context))
      ⟨r, vars, loops⟩ () [] ⟨r, vars, loops⟩ := by
    refine fun gap ↦ ⟨gap, fun s hs hspaces hv ↦ (runs_pure () _ s hs hspaces hv).congr ?_⟩
    have hloops' : s.loops ≠ 0 := by
      rw [show s.loops = loops from congrArg (·.place.loops) hv]
      exact Nat.ne_of_gt hloops
    rw [bind_apply, get_apply, if_neg hloops']
  exact ⟨_, .node kind hframe hoperand ((passes_bump left _ vars loops).bind
    ((passes_bump w _ vars loops).bind ((passes_expect context hright r vars loops).bind
      (.ite_left rfl hinside))))⟩

/-- The name of a template. -/
theorem passes_templateName (context : Context) {name : Piece} (h : name.Names) :
    Passes (templateName context) ⟨name :: r, vars, loops⟩ () [.token name.token]
      ⟨r, vars, loops⟩ := by
  obtain ⟨hnames, hquoted⟩ := h
  exact .unless_failed ((passes_current rfl).bind (.ite_left hnames
    ((passes_currentText _).bind (.ite_left hquoted (passes_bump name r vars loops)))))

/-- The pipeline of an action. -/
theorem passes_actionPipeline {ps : List Piece} {right : Piece} {pl : Template.Pipeline}
    {inRange : Bool} (context : Context)
    (hcontext : inRange = decide (context = .header .rangeBlock))
    (h : Spelling.Header inRange ps pl) (hscoped : WellScoped (pl.visits vars))
    (hright : right.kind = .rightDelim) :
    Passes (actionPipeline context) ⟨ps ++ right :: r, vars, loops⟩ () [.pipeline pl]
      ⟨right :: r, pl.varsAfter vars, loops⟩ := fun gap ↦
  ⟨false, runs_pipeline _ loops gap context hcontext h hscoped (.inl rfl) (congrArg some hright)⟩

/-- The pipeline of an action and the right delimiter behind it. -/
theorem passes_header {ps : List Piece} {right : Piece} {pl : Template.Pipeline} {inRange : Bool}
    (context : Context) (hcontext : inRange = decide (context = .header .rangeBlock))
    (h : Spelling.Header inRange ps pl) (hscoped : WellScoped (pl.visits vars))
    (hright : right.kind = .rightDelim) {f : Bool → Parser α} {a : α} {parts : List Part}
    {w : Place} (hf : Passes (f true) ⟨r, pl.varsAfter vars, loops⟩ a parts w) :
    Passes (do actionPipeline context; f (← eat .rightDelim)) ⟨ps ++ right :: r, vars, loops⟩ a
      ([.pipeline pl] ++ ([.token right.token] ++ parts)) w :=
  (passes_actionPipeline context hcontext h hscoped hright).bind
    ((passes_eat hright r _ loops).bind hf)

end Words

/-! ### Lists -/

/-- How a list ends, by what comes behind it. -/
def EndsList (e : ListEnd) (v : Place) : Prop :=
  e = .atEnd ∧ v.word? = some (.keyword .endWord) ∨
    e = .atElse ∧ v.word? = some (.keyword .elseWord)

/-- The end of a block ends its list. -/
theorem endsList_of_marks {close : List Piece} (h : Marks .endWord close) (r : List Piece)
    (vars : List String) (loops : Nat) : EndsList .atEnd ⟨close ++ r, vars, loops⟩ := by
  obtain ⟨left, w, right, rfl, hleft, hw, -⟩ := h
  exact .inl ⟨rfl, word?_of_kind? (congrArg some hleft) (congrArg some hw)⟩

/-- A list does not end with the input. -/
theorem EndsList.ahead_ne_nil {e : ListEnd} {v : Place} (h : EndsList e v) : v.ahead ≠ [] := by
  intro hnil
  have hnone : v.word? = none := by rw [Place.word?, Place.kind?, hnil]; rfl
  rcases h with ⟨-, hword⟩ | ⟨-, hword⟩
  · exact absurd (hnone.symm.trans hword) (by simp)
  · exact absurd (hnone.symm.trans hword) (by simp)

section Lists

variable {bodies : Bodies} {v w : Place} {parts : List Part}

/-- The round in which a list ends. -/
theorem passes_listStep_end {e : ListEnd} (h : EndsList e v) :
    Passes (listStep bodies) v (false, e) [] v := by
  refine .unless_stopped h.ahead_ne_nil ((passes_actionWord v).before ?_)
  rcases h with ⟨rfl, hword⟩ | ⟨rfl, hword⟩
  · rw [hword]
    exact passes_pure _ _
  · rw [hword]
    exact passes_pure _ _

/-- A round that takes an item. -/
theorem passes_listStep_item (hitem : ItemMeaning v w) (h : Passes (item bodies) v () parts w) :
    Passes (listStep bodies) v (true, .stopped) parts w := by
  have hv : v.ahead ≠ [] := List.ne_nil_of_length_pos (Nat.zero_lt_of_lt hitem.length_lt)
  obtain ⟨hend, helse, -⟩ := hitem.word?_ne
  have hround : listItem bodies v.word? = (do item bodies; return (true, .stopped)) := by
    unfold listItem
    split
    next hword => exact absurd hword hend
    next hword => exact absurd hword helse
    next => rfl
  refine .unless_stopped hv ((passes_actionWord v).before ?_)
  rw [hround]
  have hruns := h.bind (f := fun _ ↦ pure (true, ListEnd.stopped)) (passes_pure _ w)
  rwa [List.append_nil] at hruns

/-- A list shows its items. -/
theorem nodePart_list (parts : List Part) :
    nodePart .list parts = .list (parts.filterMap Part.item?) := rfl

/-- A list passes if the loop over its items does. -/
theorem passes_list {depth : Nat} {e : ListEnd} {is : List Template.Item}
    (h : Passes (iterate (fun _ ↦ listStep (bodiesTo depth)) .stopped) v e parts w)
    (hparts : parts.filterMap Part.item? = is) :
    Passes (bodiesTo (depth + 1)).list v e [.list is] w := by
  have hnode := h.node .list rfl rfl
  rwa [nodePart_list, hparts] at hnode

end Lists

/-! ### Parts of items -/

section Parts

variable {start : List Piece} {word : Keyword}

/-- The tokens with which an action starts, as parts of a node. -/
def tokenParts (ps : List Piece) : List Part := ps.map fun p ↦ .token p.token

/-- No token is what is looked for among the parts. -/
theorem findSome?_tokenParts {γ : Type} {f : Part → Option γ} (htoken : ∀ t, f (.token t) = none)
    (ps : List Piece) (parts : List Part) :
    (tokenParts ps ++ parts).findSome? f = parts.findSome? f := by
  rw [List.findSome?_append, tokenParts, List.findSome?_map,
    List.findSome?_eq_none_iff.mpr fun p _ ↦ htoken p.token, Option.none_or]

/-- The name of a template is found behind the word. -/
theorem templateName?_of_opens (hopens : Opens word start) {name : Piece} (hname : name.Names)
    (parts : List Part) :
    templateName? (tokenParts start ++ .token name.token :: parts) = Literal.unquote name.text := by
  obtain ⟨left, w, rfl, hleft, hw⟩ := hopens
  obtain ⟨hname, -⟩ := hname
  unfold Piece.kind at hleft hw hname
  have htokens : (tokenParts [left, w] ++ .token name.token :: parts).filterMap Part.token? =
      left.token :: w.token :: name.token :: parts.filterMap Part.token? := rfl
  rw [templateName?, htokens, List.find?_cons_of_neg (by rw [hleft]; decide),
    List.find?_cons_of_neg (by rw [hw]; exact Bool.false_ne_true),
    List.find?_cons_of_pos (by exact hname)]
  rfl

/-- An action shows its pipeline. -/
theorem nodePart_action (left right : Piece) (pl : Template.Pipeline) :
    nodePart .action ([.token left.token] ++ ([.pipeline pl] ++ ([.token right.token] ++ []))) =
      .item (.action nowhere (some pl)) := by
  rw [nodePart, assemble, span_childless]
  rfl

/-- A block shows its pipeline, its list and what follows it. -/
theorem nodePart_control (kind : Control) (ps : List Piece) (right : Piece)
    (pl : Template.Pipeline) (is : List Template.Item) (parts : List Part) :
    nodePart (.control kind) (tokenParts ps ++ ([.pipeline pl] ++ ([.token right.token] ++
      (.list is :: parts)))) = .item (.control kind nowhere (some pl) (.items is)
        ((parts.findSome? Part.otherwise?).getD .none)) := by
  rw [nodePart, assemble, span_childless, Outline.body, findSome?_tokenParts fun _ ↦ rfl,
    findSome?_tokenParts fun _ ↦ rfl, findSome?_tokenParts fun _ ↦ rfl]
  rfl

/-- A block with a name shows its name, its pipeline and its list. -/
theorem nodePart_block (hopens : Opens word start) {name : Piece} (hname : name.Names)
    (right : Piece) (pl : Template.Pipeline) (is : List Template.Item) :
    nodePart .block (tokenParts start ++ .token name.token :: ([.pipeline pl] ++
      ([.token right.token] ++ [.list is, .nothing]))) =
        .item (.block nowhere (Literal.unquote name.text) (some pl) (.items is)) := by
  rw [nodePart, assemble, span_childless, Outline.body, templateName?_of_opens hopens hname,
    findSome?_tokenParts fun _ ↦ rfl, findSome?_tokenParts fun _ ↦ rfl]
  rfl

/-- A definition shows its name and its list. -/
theorem nodePart_define (hopens : Opens word start) {name : Piece} (hname : name.Names)
    (right : Piece) (is : List Template.Item) :
    nodePart .define (tokenParts start ++ .token name.token ::
      ([.token right.token] ++ [.list is, .nothing])) =
        .item (.define nowhere (Literal.unquote name.text) (.items is)) := by
  rw [nodePart, assemble, span_childless, Outline.body, templateName?_of_opens hopens hname,
    findSome?_tokenParts fun _ ↦ rfl]
  rfl

/-- A call shows its name and its pipeline. -/
theorem nodePart_call (hopens : Opens word start) {name : Piece} (hname : name.Names)
    (parts : List Part) : nodePart .call (tokenParts start ++ .token name.token :: parts) =
      .item (.call nowhere (Literal.unquote name.text) (parts.findSome? Part.pipeline?)) := by
  rw [nodePart, assemble, span_childless, templateName?_of_opens hopens hname,
    findSome?_tokenParts fun _ ↦ rfl]
  rfl

end Parts

/-! ### Along what spells items -/

/-- An action that starts with an operand is none with a word. -/
theorem wordAction_of_startsOperand (bodies : Bodies) {kind : TokenKind}
    (h : kind.startsOperand) : wordAction bodies (some kind) = plainAction := by
  cases kind with
  | keyword word => cases word <;> first | rfl | exact absurd h Bool.false_ne_true
  | _ => rfl

/-- The word of a block decides on the parser. -/
theorem wordAction_word (bodies : Bodies) (kind : Control) :
    wordAction bodies (some (.keyword kind.word)) = bodies.control kind := by
  cases kind <;> rfl

section Actions

variable {bodies : Bodies} {v w : Place} {parts : List Part}

/-- An item that begins with a left delimiter is an action. -/
theorem Passes.item_of_action (hleft : v.kind? = some .leftDelim)
    (h : Passes (wordAction bodies v.tail.kind?) v () parts w) :
    Passes (item bodies) v () parts w :=
  (passes_current hleft).bind ((passes_second rfl).bind h)

variable {r : List Piece} {vars vars' : List String} {loops : Nat}

/-- A word behind the left delimiter decides on the action. -/
theorem Passes.item_of_word {word : Keyword} {start : List Piece} (hopens : Opens word start)
    (h : Passes (wordAction bodies (some (.keyword word))) ⟨start ++ r, vars, loops⟩ () parts w) :
    Passes (item bodies) ⟨start ++ r, vars, loops⟩ () parts w := by
  obtain ⟨left, x, rfl, hleft, hx⟩ := hopens
  refine .item_of_action (congrArg some hleft) ?_
  rw [← hx] at h
  exact h

/-- The word and the name with which a template is called or defined. -/
theorem passes_named {word : Keyword} {start : List Piece} (hopens : Opens word start)
    (context : Context) {name : Piece} (hnames : name.Names) {p : Parser Unit}
    (h : Passes p ⟨r, vars, loops⟩ () parts w) :
    Passes (do bump; bump; templateName context; p) ⟨start ++ name :: r, vars, loops⟩ ()
      (tokenParts start ++ .token name.token :: parts) w := by
  obtain ⟨left, x, rfl, -, -⟩ := hopens
  exact (passes_bump left _ vars loops).bind ((passes_bump x _ vars loops).bind
    ((passes_templateName context hnames).bind h))

/-- What follows the name of a template that is called. -/
def callEnd : Parser Unit := do
  unless ← failed do
    unless (← current) = some .rightDelim do actionPipeline .templateClause
  let _ ← eat .rightDelim

/-- The call of a template, by what follows the name. -/
theorem passes_call (bodies : Bodies) {start : List Piece} (hopens : Opens .templateWord start)
    {name : Piece} (hnames : name.Names) (h : Passes callEnd ⟨r, vars, loops⟩ () parts w) :
    Passes (item bodies) ⟨start ++ name :: r, vars, loops⟩ ()
      [.item (.call nowhere (Literal.unquote name.text) (parts.findSome? Part.pipeline?))] w := by
  have hcall : Passes (wordAction bodies (some (.keyword .templateWord))) _ () _ _ :=
    (passes_named hopens .templateClause hnames h).node .call rfl rfl
  rw [nodePart_call hopens hnames] at hcall
  exact .item_of_word hopens hcall

/-- The body of a template of its own, with its end. -/
theorem passes_templateBody (context : Context) (vars : List String) (loops : Nat)
    {ps close : List Piece} {is : List Template.Item}
    (hlist : Passes bodies.list ⟨ps ++ (close ++ r), ["$"], 0⟩ .atEnd [.list is]
      ⟨close ++ r, vars', 0⟩) (hclose : Marks .endWord close) :
    Passes (templateBody bodies context) ⟨ps ++ (close ++ r), vars, loops⟩ ()
      [.list is, .nothing] ⟨r, vars, loops⟩ := by
  rw [templateBody_eq]
  exact .unless_failed (.isolated (hlist.bind (f := templateEnd context) (passes_endAction hclose)))

/-- A block whose left delimiter is in front. -/
theorem passes_control {kind : Control} {start ps : List Piece} {i : Template.Item}
    (hopens : Opens kind.word start)
    (h : Passes (controlRest bodies kind) ⟨ps ++ r, vars, loops⟩ () parts ⟨r, vars', loops⟩)
    (hpart : nodePart (.control kind) (tokenParts start ++ parts) = .item i) :
    Passes (control bodies kind) ⟨start ++ ps ++ r, vars, loops⟩ () [.item i]
      ⟨r, vars, loops⟩ := by
  obtain ⟨left, w, rfl, hleft, -⟩ := hopens
  have hruns : Passes (eat .leftDelim >>= fun _ ↦ bump >>= fun _ ↦ controlRest bodies kind)
      ⟨[left, w] ++ ps ++ r, vars, loops⟩ () _ _ :=
    (passes_eat hleft (w :: (ps ++ r)) vars loops).bind
      ((passes_bump w (ps ++ r) vars loops).bind h)
  have hnode := (hruns.node (.control kind) rfl rfl).keepingVars
  rw [control_eq, ← hpart]
  exact hnode

/-- A block behind the word of an else action. -/
theorem passes_chained {kind : Control} {w : Piece} {ps : List Piece} {i : Template.Item}
    (hw : w.kind = .keyword kind.word)
    (h : Passes (controlRest bodies kind) ⟨ps ++ r, vars, loops⟩ () parts ⟨r, vars', loops⟩)
    (hpart : nodePart (.control kind) (tokenParts [w] ++ parts) = .item i) :
    Passes (control bodies kind) ⟨w :: ps ++ r, vars, loops⟩ () [.item i] ⟨r, vars, loops⟩ := by
  have hnot : Place.kind? ⟨w :: (ps ++ r), vars, loops⟩ ≠ some .leftDelim := by
    rw [Place.kind?, List.head?_cons, Option.map_some, hw]
    simp
  have hruns : Passes (eat .leftDelim >>= fun _ ↦ bump >>= fun _ ↦ controlRest bodies kind)
      ⟨w :: ps ++ r, vars, loops⟩ () _ _ :=
    (passes_eat_of_ne hnot).bind ((passes_bump w (ps ++ r) vars loops).bind h)
  have hnode := (hruns.node (.control kind) rfl rfl).keepingVars
  rw [control_eq, ← hpart]
  exact hnode

/-- An else action by what stands behind its word, and the end of the block. -/
theorem passes_elseBranch {kind : Control} (left x : Piece) {ahead : List Piece} {e : ListEnd}
    {u : Place} {parts' : List Part}
    (hchoice : Passes (elseChoice bodies kind) ⟨ahead, vars, loops⟩ e parts u)
    (hend : Passes (elseEnd e) u () parts' w) :
    Passes (elseBranch bodies kind) ⟨left :: x :: ahead, vars, loops⟩ ()
      ([nodePart .elseBranch (tokenParts [left, x] ++ parts)] ++ parts') w := by
  have hbranch : Passes (bump >>= fun _ ↦ bump >>= fun _ ↦ elseChoice bodies kind)
      ⟨left :: x :: ahead, vars, loops⟩ e (tokenParts [left, x] ++ parts) u :=
    (passes_bump left _ vars loops).bind ((passes_bump x _ vars loops).bind hchoice)
  rw [elseBranch_eq]
  exact (hbranch.node .elseBranch rfl rfl).bind hend

/-- An else action with its list, and the end behind it. -/
theorem passes_elseList (kind : Control) (left x : Piece) {right : Piece} {ps close : List Piece}
    {is : List Template.Item} (hright : right.kind = .rightDelim)
    (hlist : Passes bodies.list ⟨ps ++ (close ++ r), vars, loops⟩ .atEnd [.list is]
      ⟨close ++ r, vars', loops⟩) (hclose : Marks .endWord close) :
    Passes (elseBranch bodies kind) ⟨[left, x, right] ++ (ps ++ (close ++ r)), vars, loops⟩ ()
      [.otherwise (.body (.items is)), .nothing] ⟨r, vars', loops⟩ := by
  have hplace : Place.kind? ⟨right :: (ps ++ (close ++ r)), vars, loops⟩ = some .rightDelim :=
    congrArg some hright
  have hnone : chained? kind (some .rightDelim) = none := by cases kind <;> rfl
  have hchoice : Passes (elseChoice bodies kind) ⟨right :: (ps ++ (close ++ r)), vars, loops⟩ .atEnd
      [.token right.token, .list is] ⟨close ++ r, vars', loops⟩ := by
    refine (passes_current hplace).before ?_
    rw [hnone]
    exact (passes_current hplace).bind (.ite_right Bool.false_ne_true
      ((passes_expect .elseAction hright _ vars loops).bind (.unless_failed hlist)))
  exact passes_elseBranch left x hchoice (passes_endAction hclose)

/-- An else action with a block of its own, which ends the block around it. -/
theorem passes_elseChained (bodies : Bodies) {kind : Control} (hkind : kind ≠ .rangeBlock)
    (left x : Piece) {y : Piece} {ps : List Piece} {i : Template.Item}
    (hy : y.kind = .keyword kind.word)
    (hcontrol : Passes (bodies.control kind) ⟨y :: ps ++ r, vars, loops⟩ () [.item i]
      ⟨r, vars, loops⟩) (hnested : Part.nested? (.item i) = some i) :
    Passes (elseBranch bodies kind) ⟨[left, x] ++ (y :: ps ++ r), vars, loops⟩ ()
      [.otherwise (.nested i)] ⟨r, vars, loops⟩ := by
  have hplace : Place.kind? ⟨y :: ps ++ r, vars, loops⟩ = some (.keyword kind.word) :=
    congrArg some hy
  have hchoice : Passes (elseChoice bodies kind) ⟨y :: ps ++ r, vars, loops⟩ .stopped [.item i]
      ⟨r, vars, loops⟩ := by
    refine (passes_current hplace).before ?_
    rw [chained?_eq_some_iff.mpr ⟨rfl, hkind, rfl⟩]
    exact hcontrol.bind (passes_pure _ _)
  have hpart : nodePart .elseBranch (tokenParts [left, x] ++ [.item i]) =
      .otherwise (.nested i) := by
    rw [nodePart, assemble, findSome?_tokenParts fun _ ↦ rfl, List.findSome?_cons, hnested]
  have hbranch := passes_elseBranch left x hchoice (passes_pure () _)
  rwa [hpart] at hbranch

/-- The list of a block, which stands in one more loop if the block is a loop. -/
theorem passes_controlList {kind : Control} {inLoop : Bool} {ahead : List Piece} {e : ListEnd}
    (hloops : inLoop = decide (0 < loops))
    (h : ∀ loops' : Nat, (inLoop || decide (kind = .rangeBlock)) = decide (0 < loops') →
      Passes bodies.list ⟨ahead, vars, loops'⟩ e parts ⟨r, vars', loops'⟩) :
    Passes (controlList bodies kind) ⟨ahead, vars, loops⟩ e parts ⟨r, vars', loops⟩ := by
  by_cases hkind : kind = .rangeBlock
  · exact .ite_left hkind (.inLoop (h (loops + 1) (by simp [hkind])))
  · exact .ite_right hkind (h loops (by simp [hkind, hloops]))

end Actions

/-- Of the headers only that of a loop may name two variables. -/
theorem isRange_iff (kind : Control) :
    decide (kind = .rangeBlock) = decide (Context.header kind = .header .rangeBlock) :=
  decide_eq_decide.mpr ⟨congrArg _, Context.header.inj⟩

/-- A block behind an else is found in the parts. -/
theorem nested?_of_guarded {inLoop : Bool} {kind : Control} {ps : List Piece} {i : Template.Item}
    (hkind : kind ≠ .rangeBlock) (h : Spelling.Guarded inLoop kind ps i) :
    Part.nested? (.item i) = some i := by
  cases h with
  | mk _ _ _ _ => rw [Part.nested?, if_neg hkind]

/-- An action starts with two pieces. -/
theorem length_of_opens {word : Keyword} {start : List Piece} (h : Opens word start) :
    start.length = 2 := by
  obtain ⟨left, w, rfl, -, -⟩ := h
  rfl

mutual

/-- A run over an item, along what spells it. -/
theorem passes_item {inLoop : Bool} {ps r : List Piece} {is : List Template.Item}
    {vars : List String} (loops depth : Nat) (hloops : inLoop = decide (0 < loops)) :
    Spelling.Item inLoop ps is → ps.length ≤ depth → WellScoped (itemsVisits is vars) →
      ∃ parts, Passes (item (bodiesTo depth)) ⟨ps ++ r, vars, loops⟩ () parts
        ⟨r, itemsVarsAfter is vars, loops⟩ ∧ parts.filterMap Part.item? = is
  | .text (p := p) hkind, _, _ => by
    have hplace : Place.kind? ⟨p :: r, vars, loops⟩ = some .text := congrArg some hkind
    exact ⟨_, (passes_current hplace).bind (passes_bump p r vars loops), rfl⟩
  | .comment (p := p) hkind, _, _ => by
    have hplace : Place.kind? ⟨p :: r, vars, loops⟩ = some .comment := congrArg some hkind
    exact ⟨_, (passes_current hplace).bind ((passes_bump p r vars loops).node .comment rfl rfl),
      rfl⟩
  | @Spelling.Item.action _ left right ps pl hleft hheader hright, _, hscoped => by
    rw [itemsVisits, itemsVisits, List.append_nil] at hscoped
    have hclose := passes_header .command rfl hheader hscoped hright (f := fun _ ↦ pure ())
      (passes_pure () ⟨r, pl.varsAfter vars, loops⟩)
    have hplain : Passes plainAction ⟨left :: (ps ++ right :: r), vars, loops⟩ () _ _ :=
      ((passes_bump left _ vars loops).bind hclose).node .action rfl rfl
    rw [nodePart_action] at hplain
    obtain ⟨p, ps', rfl, hstart⟩ := startsOperand_of_pipeline (hheader.grammar hscoped)
    rw [← wordAction_of_startsOperand (bodiesTo depth) hstart] at hplain
    refine ⟨[.item (.action nowhere (some pl))], ?_, rfl⟩
    rw [List.append_assoc]
    exact .item_of_action (congrArg some hleft) hplain
  | @Spelling.Item.guarded _ kind start ps i hopens hguarded, hdepth, hscoped => by
    rw [itemsVisits, itemsVisits, List.append_nil] at hscoped
    have hlength := length_of_opens hopens
    rw [List.length_append] at hdepth
    obtain ⟨depth, rfl⟩ : ∃ d, depth = d + 1 := ⟨depth - 1, by omega⟩
    obtain ⟨parts, vars', hrest, hpart⟩ := passes_guarded (r := r) depth hloops hguarded
      (by omega) hscoped
    have hcontrol := passes_control hopens hrest (hpart start)
    rw [itemsVarsAfter, itemsVarsAfter, hguarded.varsAfter]
    refine ⟨[.item i], ?_, rfl⟩
    rw [List.append_assoc] at hcontrol ⊢
    refine .item_of_word hopens ?_
    rw [wordAction_word]
    exact hcontrol
  | @Spelling.Item.block _ start ps qs close name right pl is hopens hnames hheader hright hitems
    hmarks, hdepth, hscoped => by
    rw [itemsVisits, itemsVisits, List.append_nil, Item.visits, Body.visits,
      wellScoped_append] at hscoped
    simp only [List.length_append, List.length_cons] at hdepth
    obtain ⟨depth, rfl⟩ : ∃ d, depth = d + 1 := ⟨depth - 1, by omega⟩
    obtain ⟨parts, hloop, hparts⟩ := passes_items 0 depth rfl hitems (by omega) hscoped.2
      (endsList_of_marks hmarks r _ 0)
    have hbody := passes_templateBody .blockClause (pl.varsAfter vars) loops
      (passes_list hloop hparts) hmarks
    have hheader' := passes_header .blockClause rfl hheader hscoped.1 hright (f := fun _ ↦
      templateBody (bodiesTo (depth + 1)) .blockClause) hbody
    have hblock :
        Passes (wordAction (bodiesTo (depth + 1)) (some (.keyword .blockWord))) _ () _ _ :=
      (passes_named hopens .blockClause hnames hheader').node .block rfl rfl
    rw [nodePart_block hopens hnames] at hblock
    have hitem := Passes.item_of_word hopens hblock
    simp only [List.append_assoc, List.cons_append]
    exact ⟨_, hitem, rfl⟩
  | @Spelling.Item.call _ start name right hopens hnames hright, _, _ => by
    have hplace : Place.kind? ⟨right :: r, vars, loops⟩ = some .rightDelim := congrArg some hright
    have hclose : Passes callEnd ⟨right :: r, vars, loops⟩ () ([] ++ ([.token right.token] ++ []))
        ⟨r, vars, loops⟩ :=
      .unless_failed ((passes_current hplace).bind (.ite_left rfl
        ((passes_eat hright r vars loops).bind (passes_pure () _))))
    have hitem := passes_call (bodiesTo depth) hopens hnames hclose
    rw [List.append_assoc]
    exact ⟨_, hitem, rfl⟩
  | @Spelling.Item.callWith _ start ps name right pl hopens hnames hheader hright, _, hscoped => by
    rw [itemsVisits, itemsVisits, List.append_nil] at hscoped
    have hargument := passes_header .templateClause rfl hheader hscoped hright
        (f := fun _ ↦ pure ())
      (passes_pure () ⟨r, pl.varsAfter vars, loops⟩)
    have hplace : ∃ k, Place.kind? ⟨ps ++ right :: r, vars, loops⟩ = some k ∧ k ≠ .rightDelim := by
      obtain ⟨p, ps', rfl, hstart⟩ := startsOperand_of_pipeline (hheader.grammar hscoped)
      refine ⟨p.kind, rfl, fun h ↦ ?_⟩
      rw [h] at hstart
      exact Bool.false_ne_true hstart
    obtain ⟨k, hplace, hk⟩ := hplace
    have hclose : Passes callEnd ⟨ps ++ right :: r, vars, loops⟩ ()
        ([] ++ ([.pipeline pl] ++ ([.token right.token] ++ []))) ⟨r, pl.varsAfter vars, loops⟩ :=
      .unless_failed ((passes_current hplace).bind (.ite_right (by simpa using hk) hargument))
    have hitem := passes_call (bodiesTo depth) hopens hnames hclose
    simp only [List.append_assoc, List.cons_append]
    exact ⟨_, hitem, rfl⟩
  | @Spelling.Item.breaks ps hmarks, _, _ => by
    obtain ⟨left, w, right, rfl, hleft, hw, hright⟩ := hmarks
    obtain ⟨parts, hloop⟩ := passes_loopAction .breakLoop rfl rfl .breakAction left w hright r vars
      (of_decide_eq_true hloops.symm)
    have hopens : Opens .breakWord [left, w] := ⟨left, w, rfl, hleft, hw⟩
    have hitem : Passes (item (bodiesTo depth)) ⟨[left, w] ++ right :: r, vars, loops⟩ () _ _ :=
      .item_of_word hopens hloop
    exact ⟨_, hitem, rfl⟩
  | @Spelling.Item.continues ps hmarks, _, _ => by
    obtain ⟨left, w, right, rfl, hleft, hw, hright⟩ := hmarks
    obtain ⟨parts, hloop⟩ := passes_loopAction .continueLoop rfl rfl .continueAction left w hright r
      vars (of_decide_eq_true hloops.symm)
    have hopens : Opens .continueWord [left, w] := ⟨left, w, rfl, hleft, hw⟩
    have hitem : Passes (item (bodiesTo depth)) ⟨[left, w] ++ right :: r, vars, loops⟩ () _ _ :=
      .item_of_word hopens hloop
    exact ⟨_, hitem, rfl⟩

/-- A run over a block behind its word, along what spells it. -/
theorem passes_guarded {inLoop : Bool} {kind : Control} {ps r : List Piece} {i : Template.Item}
    {vars : List String} {loops : Nat} (depth : Nat) (hloops : inLoop = decide (0 < loops)) :
    Spelling.Guarded inLoop kind ps i → ps.length ≤ depth → WellScoped (i.visits vars) →
      ∃ parts vars', Passes (controlRest (bodiesTo depth) kind) ⟨ps ++ r, vars, loops⟩ () parts
        ⟨r, vars', loops⟩ ∧
        ∀ start, nodePart (.control kind) (tokenParts start ++ parts) = .item i
  | @Spelling.Guarded.mk _ _ right ps qs rs pl is o hheader hright hitems htail, hdepth, hscoped =>
    by
    rw [Item.visits, Body.visits, Body.varsAfter, wellScoped_append, wellScoped_append] at hscoped
    simp only [List.length_append, List.length_cons] at hdepth
    obtain ⟨depth, rfl⟩ : ∃ d, depth = d + 1 := ⟨depth - 1, by omega⟩
    obtain ⟨e, parts, vars', hend, htail', hotherwise⟩ := passes_tail (r := r) loops
      (depth + 1) hloops htail (by omega) hscoped.2
    have hlist : ∀ loops' : Nat, (inLoop || decide (kind = .rangeBlock)) = decide (0 < loops') →
        Passes (bodiesTo (depth + 1)).list ⟨qs ++ (rs ++ r), pl.varsAfter vars, loops'⟩ e [.list is]
          ⟨rs ++ r, itemsVarsAfter is (pl.varsAfter vars), loops'⟩ := by
      intro loops' hloops'
      obtain ⟨parts, hloop, hparts⟩ := passes_items loops' depth hloops' hitems (by omega)
        hscoped.1.2 hend
      exact passes_list hloop hparts
    have hbody := passes_controlList hloops hlist
    have hrest := passes_header (.header kind) (isRange_iff kind) hheader hscoped.1.1 hright
      (f := fun _ ↦
        controlList (bodiesTo (depth + 1)) kind >>= controlEnd (bodiesTo (depth + 1)) kind)
      (hbody.bind htail')
    simp only [List.append_assoc, List.cons_append]
    refine ⟨_, vars', hrest, fun start ↦ ?_⟩
    exact (nodePart_control kind start right pl is parts).trans (by rw [hotherwise])

/-- A run over what follows the list of a block, along what spells it. -/
theorem passes_tail {inLoop : Bool} {kind : Control} {ps r : List Piece} {o : Template.Otherwise}
    {vars : List String} (loops depth : Nat) (hloops : inLoop = decide (0 < loops)) :
    Spelling.Tail inLoop kind ps o → ps.length ≤ depth → WellScoped (o.visits vars) →
      ∃ e parts vars', EndsList e ⟨ps ++ r, vars, loops⟩ ∧
        Passes (controlEnd (bodiesTo depth) kind e) ⟨ps ++ r, vars, loops⟩ () parts
          ⟨r, vars', loops⟩ ∧ (parts.findSome? Part.otherwise?).getD .none = o
  | .close hmarks, _, _ =>
    ⟨.atEnd, _, _, endsList_of_marks hmarks r vars loops, passes_endAction hmarks, rfl⟩
  | @Spelling.Tail.otherwise _ _ start ps close _ hmarks hitems hclose, hdepth, hscoped => by
    rw [Otherwise.visits, Body.visits] at hscoped
    obtain ⟨left, w, right, rfl, hleft, hw, hright⟩ := hmarks
    simp only [List.length_append, List.length_cons] at hdepth
    obtain ⟨depth, rfl⟩ : ∃ d, depth = d + 1 := ⟨depth - 1, by omega⟩
    obtain ⟨parts, hloop, hparts⟩ := passes_items loops depth hloops hitems (by omega) hscoped
      (endsList_of_marks hclose r _ loops)
    have helse := passes_elseList kind left w hright (passes_list hloop hparts) hclose
    simp only [List.append_assoc]
    exact ⟨.atElse, _, _, .inr ⟨rfl, word?_of_kind? (congrArg some hleft) (congrArg some hw)⟩,
      helse,
      rfl⟩
  | @Spelling.Tail.chained _ _ start ps w i hkind hopens hw hguarded, hdepth, hscoped => by
    rw [Otherwise.visits] at hscoped
    obtain ⟨left, x, rfl, hleft, hx⟩ := hopens
    simp only [List.length_append, List.length_cons] at hdepth
    obtain ⟨depth, rfl⟩ : ∃ d, depth = d + 1 := ⟨depth - 1, by omega⟩
    obtain ⟨parts, vars', hrest, hpart⟩ := passes_guarded (r := r) depth hloops hguarded
      (by omega) hscoped
    have hcontrol := passes_chained hw hrest (hpart [w])
    have helse := passes_elseChained (bodiesTo (depth + 1)) hkind left x hw hcontrol
      (nested?_of_guarded hkind hguarded)
    rw [List.append_assoc]
    exact ⟨.atElse, _, _, .inr ⟨rfl, word?_of_kind? (congrArg some hleft) (congrArg some hx)⟩,
      helse,
      rfl⟩

/-- A run over some items, along what spells them. -/
theorem passes_items {inLoop : Bool} {ps r : List Piece} {is : List Template.Item}
    {vars : List String} (loops depth : Nat) {e : ListEnd} (hloops : inLoop = decide (0 < loops)) :
    Spelling.Items inLoop ps is → ps.length ≤ depth → WellScoped (itemsVisits is vars) →
      EndsList e ⟨r, itemsVarsAfter is vars, loops⟩ →
      ∃ parts, Passes (iterate (fun _ ↦ listStep (bodiesTo depth)) .stopped)
        ⟨ps ++ r, vars, loops⟩ e parts ⟨r, itemsVarsAfter is vars, loops⟩ ∧
        parts.filterMap Part.item? = is
  | .nil, _, _, hend => ⟨[], .iterate_last (passes_listStep_end hend), rfl⟩
  | @Spelling.Items.cons _ ps qs is js hitem hitems, hdepth, hscoped, hend => by
    rw [itemsVisits_append, wellScoped_append] at hscoped
    rw [List.length_append] at hdepth
    rw [itemsVarsAfter_append] at hend ⊢
    obtain ⟨parts, hfirst, hparts⟩ := passes_item (r := qs ++ r) loops depth hloops hitem
      (by omega) hscoped.1
    obtain ⟨parts', hrest, hparts'⟩ := passes_items loops depth hloops hitems (by omega)
      hscoped.2 hend
    have hmeaning : ItemMeaning ⟨ps ++ (qs ++ r), vars, loops⟩
        ⟨qs ++ r, itemsVarsAfter is vars, loops⟩ :=
      ⟨ps, hloops ▸ hitem.grammar hscoped.1, rfl, rfl⟩
    refine ⟨parts ++ parts', ?_, by rw [List.filterMap_append, hparts, hparts']⟩
    rw [List.append_assoc]
    exact .iterate_more (passes_listStep_item hmeaning hfirst) hmeaning.length_lt hrest

end

/-- The list of a block whose items are spelled. -/
theorem passes_listTo {inLoop : Bool} {ps r : List Piece} {is : List Template.Item}
    {vars : List String} (loops depth : Nat) {e : ListEnd} (hloops : inLoop = decide (0 < loops))
    (hitems : Spelling.Items inLoop ps is) (hdepth : ps.length ≤ depth)
    (hscoped : WellScoped (itemsVisits is vars))
    (hend : EndsList e ⟨r, itemsVarsAfter is vars, loops⟩) :
    Passes (bodiesTo (depth + 1)).list ⟨ps ++ r, vars, loops⟩ e [.list is]
      ⟨r, itemsVarsAfter is vars, loops⟩ := by
  obtain ⟨parts, hloop, hparts⟩ := passes_items loops depth hloops hitems hdepth hscoped hend
  exact passes_list hloop hparts

end AlertAudit.Template.Parser
