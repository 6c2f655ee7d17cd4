import AlertAudit.Proofs.Template.Lossless
import AlertAudit.Proofs.Template.Runs.Items

/-!
The variables that the parser visits. A `Log` runs along a parser, from state to state, and notes
each variable operand with the variables in scope of the parser at that moment; there is one for
each production, and `Parser.visits` is that of a whole template. Along what spells a pipeline its
log has the visits of the outline (`logs_pipeline`): the parser keeps the variables in scope that
the outline has. The logs are those of parsers that meet no error.
-/

set_option autoImplicit false

namespace AlertAudit.Template.Parser

variable {α β : Type}

/-! ### Logs -/

/-- The variable operands that are parsed from a state on, with the variables in scope at each. -/
abbrev Log := State → List Visit

namespace Log

/-- There are no variable operands. -/
def silent : Log := fun _ ↦ []

/-- The log of `p` and, by its result, the log of what comes behind it. -/
def bind (l : Log) (p : Parser α) (f : α → Log) : Log := fun s ↦ l s ++ f (p s).1 (p s).2

/-- The log of what comes behind `p`, in which there are no operands. -/
def after (p : Parser α) (f : α → Log) : Log := fun s ↦ f (p s).1 (p s).2

/-- The log of what stands inside of a node. -/
def node (l : Log) : Log := fun s ↦ l s.inside

/-- The log of a loop, by that of a round. -/
def iterate (step : β → Parser (Bool × β)) (l : Log) (b : β) : Log := fun s ↦
  match step b s with
  | ((true, c), t) => if t.rest.length < s.rest.length then l s ++ iterate step l c t else l s
  | ((false, _), _) => l s
termination_by s => s.rest.length

end Log

/-! ### Logs of pipelines -/

/-- An operand: the variable that it is, or what stands in its parentheses. -/
def operandLog (inner : Log) : Log := fun s ↦
  match s.look.rest.head? with
  | none => []
  | some token =>
    if token.kind = .variable then [⟨token, s.vars⟩]
    else if token.kind = .parenOpen then inner (bump s.look.inside).2
    else []

def commandLog (inner : Parser Unit) (l : Log) : Log :=
  .node (.iterate (commandStep inner) (operandLog l) none)

/-- The command in a round of a pipeline, if there is one. -/
def pipelineStepLog (inner : Parser Unit) (l : Log) : Log :=
  .after current fun next ↦ if next.any (·.startsOperand) then commandLog inner l else .silent

def pipelineLog (inner : Parser Unit) (l : Log) (context : Context) (close : TokenKind) : Log :=
  .node (.after (declaration context) fun _ ↦
    .iterate (pipelineStep inner context close) (pipelineStepLog inner l) [])

def parenthesizedLog : Nat → Log
  | 0 => .silent
  | depth + 1 => fun s ↦ pipelineLog (parenthesized depth) (parenthesizedLog depth) .parenthesized
    .parenClose { s with depth := s.depth + 1 }

def actionPipelineLog (context : Context) : Log :=
  pipelineLog (parenthesized maxDepth) (parenthesizedLog maxDepth) context .rightDelim

/-! ### Logs of items -/

/-- The logs of what stands inside of a block. -/
structure BodyLogs where
  list : Log
  control : Control → Log

def controlListLog (logs : BodyLogs) (kind : Control) : Log :=
  if kind = .rangeBlock then fun s ↦ logs.list { s with loops := s.loops + 1 } else logs.list

/-- What follows the word `else`: a block of its own, or the delimiter and a list. -/
def elseChoiceLog (logs : BodyLogs) (kind : Control) : Log :=
  .after current fun word ↦ match chained? kind word with
    | some nested => logs.control nested
    | none => .after current fun word ↦
      if startsNested word then logs.list
      else .after (expect .rightDelim .elseAction) fun _ ↦ logs.list

def controlEndLog (logs : BodyLogs) (kind : Control) : ListEnd → Log
  | .atElse => .node (.after bump fun _ ↦ .after bump fun _ ↦ elseChoiceLog logs kind)
  | _ => .silent

def controlRestLog (bodies : Bodies) (logs : BodyLogs) (kind : Control) : Log :=
  .bind (actionPipelineLog (.header kind)) (actionPipeline (.header kind)) fun _ ↦
    .after (eat .rightDelim) fun _ ↦
      .bind (controlListLog logs kind) (controlList bodies kind) (controlEndLog logs kind)

def controlLog (bodies : Bodies) (logs : BodyLogs) (kind : Control) : Log :=
  .node (.after (eat .leftDelim) fun _ ↦ .after bump fun _ ↦ controlRestLog bodies logs kind)

/-- A body with a scope of its own. -/
def templateBodyLog (logs : BodyLogs) : Log :=
  fun s ↦ logs.list { s with vars := ["$"], loops := 0 }

/-- What follows the name of a template. -/
def namedLog (context : Context) (l : Log) : Log :=
  .node (.after bump fun _ ↦ .after bump fun _ ↦ .after (templateName context) fun _ ↦ l)

def defineLog (logs : BodyLogs) : Log :=
  namedLog .defineClause
    (.after (expect .rightDelim .defineClause) fun _ ↦ templateBodyLog logs)

def blockLog (logs : BodyLogs) : Log :=
  namedLog .blockClause (.bind (actionPipelineLog .blockClause) (actionPipeline .blockClause)
    fun _ ↦ .after (eat .rightDelim) fun _ ↦ templateBodyLog logs)

/-- What a called template is given, if anything. -/
def argumentLog : Log :=
  .after current fun next ↦
    if next = some .rightDelim then .silent else actionPipelineLog .templateClause

def callLog : Log := namedLog .templateClause argumentLog

def plainActionLog : Log := .node (.after bump fun _ ↦ actionPipelineLog .command)

def wordActionLog (logs : BodyLogs) : Option TokenKind → Log
  | some (.keyword .ifWord) => logs.control .ifBlock
  | some (.keyword .withWord) => logs.control .withBlock
  | some (.keyword .rangeWord) => logs.control .rangeBlock
  | some (.keyword .blockWord) => blockLog logs
  | some (.keyword .templateWord) => callLog
  | some (.keyword .breakWord) | some (.keyword .continueWord) => .silent
  | _ => plainActionLog

def itemLog (logs : BodyLogs) : Log :=
  .after current fun next ↦
    if next = some .leftDelim then .after second (wordActionLog logs) else .silent

/-- The item in a round of a list, if there is one. -/
def listStepLog (logs : BodyLogs) : Log :=
  .after actionWord fun
    | some (.keyword .endWord) | some (.keyword .elseWord) => .silent
    | _ => itemLog logs

def listLog (bodies : Bodies) (logs : BodyLogs) : Log :=
  .node (.iterate (fun _ ↦ listStep bodies) (listStepLog logs) .stopped)

/-- The logs of `bodiesTo`. -/
def logsTo : Nat → BodyLogs
  | 0 => ⟨.silent, fun _ ↦ .silent⟩
  | depth + 1 => ⟨listLog (bodiesTo depth) (logsTo depth),
      controlLog (bodiesTo depth) (logsTo depth)⟩

/-- The definition or the item in a round at the top, if there is one. -/
def rootStepLog (logs : BodyLogs) : Log :=
  .after actionWord fun
    | some (.keyword .defineWord) => defineLog logs
    | some (.keyword .endWord) | some (.keyword .elseWord) => .silent
    | _ => itemLog logs

def rootLog (bodies : Bodies) (logs : BodyLogs) : Log :=
  .node (.iterate (fun _ ↦ rootStep bodies) (rootStepLog logs) ())

/-- The variable operands of a template, with the variables in scope where they are parsed. -/
def visits (text : String) : List Visit :=
  let depth := (Tokens.ofText text).tokens.length + 1
  rootLog (bodiesTo depth) (logsTo depth) (.start text)

/-! ### What logs note -/

/-- What a log notes wherever `v` is seen. -/
def Logs (l : Log) (v : View) (vs : List Visit) : Prop :=
  ∀ s : State, s.error = none → s.pending.all (·.isTrivia) → s.view = v → l s = vs

section Rules

variable {l : Log} {p : Parser α} {f : α → Log} {u v : View} {a : α} {parts : List Part}
  {vs vs' : List Visit}

theorem logs_silent (v : View) : Logs .silent v [] := fun _ _ _ _ ↦ rfl

/-- What is noted first comes in front of what is noted next. -/
theorem Logs.bind (hl : Logs l v vs) (hp : Runs p v a parts u) (hf : Logs (f a) u vs') :
    Logs (.bind l p f) v (vs ++ vs') := by
  intro s hs hspaces hv
  obtain ⟨rfl, herror, hu, -, hgrows⟩ := hp s hs hspaces hv
  exact congrArg₂ (· ++ ·) (hl s hs hspaces hv) (hf _ herror (hgrows.pending hspaces) hu)

/-- Nothing is noted in front of what follows. -/
theorem Logs.after (hp : Runs p v a parts u) (hf : Logs (f a) u vs) : Logs (.after p f) v vs := by
  intro s hs hspaces hv
  obtain ⟨rfl, herror, hu, -, hgrows⟩ := hp s hs hspaces hv
  exact hf _ herror (hgrows.pending hspaces) hu

/-- A node notes what is noted inside of it. -/
theorem Logs.node (h : Logs l v vs) : Logs (.node l) v vs := fun s hs _ hv ↦ h s.inside hs rfl hv

/-- A choice notes what the side notes that is chosen. -/
theorem Logs.ite_left {c : Prop} [Decidable c] {l' : Log} (hc : c) (h : Logs l v vs) :
    Logs (if c then l else l') v vs := by
  rwa [if_pos hc]

/-- So it does on the other side. -/
theorem Logs.ite_right {c : Prop} [Decidable c] {l' : Log} (hc : ¬c) (h : Logs l v vs) :
    Logs (if c then l' else l) v vs := by
  rwa [if_neg hc]

variable {step : β → Parser (Bool × β)} {b c : β}

/-- From a state, the last round of a loop notes its own. -/
theorem iterate_log_last {s : State} (h : (step b s).1.1 = false) :
    Log.iterate step l b s = l s := by
  rw [Log.iterate]
  rcases hstep : step b s with ⟨⟨_ | _, c⟩, t⟩
  · rfl
  · rw [hstep] at h
    exact absurd h.symm Bool.false_ne_true

/-- From a state, a round notes its own in front of the rounds behind it. -/
theorem iterate_log_more {s : State} {t : State} (h : step b s = ((true, c), t))
    (htakes : t.rest.length < s.rest.length) :
    Log.iterate step l b s = l s ++ Log.iterate step l c t := by
  rw [Log.iterate, h]
  exact if_pos htakes

/-- The last round of a loop notes its own. -/
theorem Logs.iterate_last (hl : Logs l v vs) (h : Runs (step b) v (false, c) parts u) :
    Logs (.iterate step l b) v vs := by
  intro s hs hspaces hv
  rw [iterate_log_last (congrArg Prod.fst (h s hs hspaces hv).result)]
  exact hl s hs hspaces hv

/-- A round notes its own in front of the rounds behind it. -/
theorem Logs.iterate_more (hl : Logs l v vs) (h : Runs (step b) v (true, c) parts u)
    (hfewer : u.place.ahead.length < v.place.ahead.length)
    (hrest : Logs (.iterate step l c) u vs') : Logs (.iterate step l b) v (vs ++ vs') := by
  intro s hs hspaces hv
  obtain ⟨hresult, herror, hu, -, hgrows⟩ := h s hs hspaces hv
  have htakes : (step b s).2.rest.length < s.rest.length := by
    refine takes_of_ahead hgrows ?_
    rw [show (step b s).2.place = u.place from congrArg View.place hu,
      show s.place = v.place from congrArg View.place hv]
    exact hfewer
  rw [iterate_log_more (Prod.ext hresult rfl) htakes]
  exact congrArg₂ (· ++ ·) (hl s hs hspaces hv) (hrest _ herror (hgrows.pending hspaces) hu)

end Rules

/-! ### Along what spells a pipeline -/

section Steps

variable {inner : Parser Unit} {l : Log} {r : List Piece} {vars : List String} {loops : Nat}

/-- In front of the end of a command there is no operand. -/
theorem logs_operand_none (hends : endsCommand (r.head?.map Piece.kind)) (gap : Bool) :
    Logs (operandLog l) ⟨⟨r, vars, loops⟩, gap⟩ [] := by
  intro s _ _ hv
  have hkind : s.look.rest.head?.map (·.kind) = r.head?.map Piece.kind := by
    rw [kind?_place]
    exact congrArg (·.place.kind?) hv
  rw [operandLog]
  cases hhead : s.look.rest.head? with
  | none => rfl
  | some token =>
    rw [← hkind, hhead, Option.map_some] at hends
    have hvariable : token.kind ≠ .variable := by
      intro h
      rw [h] at hends
      exact Bool.false_ne_true hends
    have hparen : token.kind ≠ .parenOpen := by
      intro h
      rw [h] at hends
      exact Bool.false_ne_true hends
    exact (if_neg hvariable).trans (if_neg hparen)

/-- In front of the end of a pipeline there is no command. -/
theorem logs_pipelineStep_end {close : TokenKind} (hends : ClosesPipeline close)
    (hclose : r.head?.map Piece.kind = some close) (gap : Bool) :
    Logs (pipelineStepLog inner l) ⟨⟨r, vars, loops⟩, gap⟩ [] := by
  have hstarts : ¬(some close).any (·.startsOperand) := by
    rcases hends with rfl | rfl
    · exact Bool.false_ne_true
    · exact Bool.false_ne_true
  exact .after (runs_current (v := ⟨r, vars, loops⟩) hclose gap)
    (.ite_right hstarts (logs_silent _))

/-- A round of a pipeline notes what its command notes. -/
theorem logs_pipelineStep {p : Piece} {ahead : List Piece} {vs : List Visit}
    (hstart : p.kind.startsOperand)
    (h : Logs (commandLog inner l) ⟨⟨p :: ahead, vars, loops⟩, false⟩ vs) (gap : Bool) :
    Logs (pipelineStepLog inner l) ⟨⟨p :: ahead, vars, loops⟩, gap⟩ vs :=
  .after (runs_current (k := some p.kind) rfl gap) (.ite_left hstart h)

end Steps

/-- An operand of one token is no parenthesis. -/
theorem kind_ne_parenOpen_of_atom {vars : List String} {p : Piece} {c : OperandClass}
    (h : Grammar.Atom vars p c) : p.kind ≠ .parenOpen := by
  intro hkind
  cases h with
  | function h _ | inScope h _ | field h | dot h | nil h | bool h | char h _ | number h =>
    exact absurd (hkind.symm.trans h) (by simp)
  | string h _ =>
    rcases h with h | h
    · exact absurd (hkind.symm.trans h) (by simp)
    · exact absurd (hkind.symm.trans h) (by simp)

/-- A command that is spelled and well-scoped runs. -/
theorem commandRuns_of_spells {depth : Nat} {ps : List Piece} {c : OperandClass}
    {os : List Template.Operand} {vars : List String} (h : Spelling.Command depth ps c os)
    (hscoped : WellScoped (operandsVisits os vars)) :
    CommandRuns depth vars ps c os (operandsVarsAfter os vars) := by
  refine ⟨exists_start_command h, fun r loops hends ↦ ?_⟩
  have hnode := (runs_command r loops false none h hscoped hends).node .command rfl rfl
  rwa [nodePart_command] at hnode

/-- What is noted of a command in front of whatever may follow it. -/
def CommandLogs (depth : Nat) (vars : List String) (ps : List Piece) (vs : List Visit) : Prop :=
  ∀ (r : List Piece) (loops : Nat), endsCommand (r.head?.map Piece.kind) →
    Logs (commandLog (parenthesized depth) (parenthesizedLog depth))
      ⟨⟨ps ++ r, vars, loops⟩, false⟩ vs

mutual

/-- What is noted in an operand are its visits. -/
theorem logs_operand {depth : Nat} {ps r : List Piece} {c : OperandClass} {spaced : Bool}
    {o : Template.Operand} {vars : List String} {loops : Nat} (gap : Bool) :
    Spelling.Operand depth ps c spaced o → WellScoped (o.visits vars) →
      Logs (operandLog (parenthesizedLog depth)) ⟨⟨ps ++ r, vars, loops⟩, gap⟩ (o.visits vars)
  | @Spelling.Operand.atom _ p _ _ _ hatom _ _, _ => by
    intro s _ _ hv
    obtain ⟨rest, hrest, -, -⟩ := exists_look_rest (congrArg (·.place.ahead) hv)
    have hvars : s.vars = vars := congrArg (·.place.vars) hv
    have hparen : p.token.kind ≠ .parenOpen := kind_ne_parenOpen_of_atom hatom
    rw [Spelling.visits_atom, operandLog, hrest, List.head?_cons, hvars]
    exact congrArg (ite _ _) (if_neg hparen)
  | @Spelling.Operand.paren _ left right ps fs _ _ hleft hpipeline hright hfields, hscoped => by
    intro s hs hspaces hv
    have hahead : s.place.ahead = left :: (ps ++ right :: (fs ++ r)) := by
      rw [show s.place = _ from congrArg View.place hv]
      simp
    obtain ⟨rest, hrest, -, -⟩ := exists_look_rest hahead
    have hkind : left.token.kind = .parenOpen := hleft
    have hview :
        s.look.inside.view = ⟨⟨left :: (ps ++ right :: (fs ++ r)), vars, loops⟩, false⟩ := by
      have hplace : s.place = ⟨_, vars, loops⟩ := congrArg View.place hv
      rw [show s.look.inside.view = s.look.view from rfl, view_look, ← hahead, hplace]
    obtain ⟨-, herror, hinside, -, hgrows⟩ :=
      runs_bump left (ps ++ right :: (fs ++ r)) vars loops false s.look.inside hs rfl hview
    rw [Operand.visits] at hscoped ⊢
    rw [operandLog, hrest, List.head?_cons]
    refine (if_neg (by simp [hkind])).trans ((if_pos hkind).trans ?_)
    exact logs_pipeline (r := right :: (fs ++ r)) left.spaced .parenthesized rfl hpipeline hscoped
      (.inr rfl) (congrArg some hright) { (bump s.look.inside).2 with
        depth := (bump s.look.inside).2.depth + 1 } herror (hgrows.pending rfl) hinside

/-- What is noted in a command are the visits of its operands. -/
theorem logs_command {depth : Nat} {ps : List Piece} {c : OperandClass}
    {os : List Template.Operand} {vars : List String} (r : List Piece) (loops : Nat) (gap : Bool)
    (first : Option OperandClass) :
    Spelling.Command depth ps c os → WellScoped (operandsVisits os vars) →
      endsCommand (r.head?.map Piece.kind) →
      Logs (.iterate (commandStep (parenthesized depth)) (operandLog (parenthesizedLog depth))
        first)
        ⟨⟨ps ++ r, vars, loops⟩, gap⟩ (operandsVisits os vars)
  | @Spelling.Command.last _ _ _ true _ hoperand, hscoped, hends => by
    rw [operandsVisits, operandsVisits] at hscoped ⊢
    rw [List.append_nil] at hscoped
    have hruns := runs_operand r loops gap hoperand hscoped
      (by simp [View.adjacent])
    obtain ⟨p, ps', rfl, -⟩ := exists_start_operand hoperand
    exact .iterate_more (logs_operand gap hoperand hscoped) (runs_commandStep_more first hruns)
      (length_lt_append (List.cons_ne_nil p ps') r)
      (.iterate_last (logs_operand_none hends true) (runs_commandStep_end _ true hends))
  | @Spelling.Command.last _ _ _ false _ hoperand, hscoped, hends => by
    rw [operandsVisits, operandsVisits, List.append_nil] at hscoped ⊢
    have hnext : r.head?.map Piece.kind ≠ some .field := by
      intro h
      rw [h] at hends
      exact Bool.false_ne_true hends
    have hruns := runs_operand r loops gap hoperand hscoped hnext
    exact .iterate_last (logs_operand gap hoperand hscoped)
      (runs_commandStep_last first hruns hends)
  | @Spelling.Command.more _ ps qs c _ _ _ hoperand hcommand, hscoped, hends => by
    rw [operandsVisits] at hscoped ⊢
    rw [wellScoped_append] at hscoped
    have hruns := runs_operand (qs ++ r) loops gap hoperand hscoped.1
      (by simp [View.adjacent])
    have hrest := logs_command r loops true (first <|> some c) hcommand hscoped.2 hends
    obtain ⟨p, ps', rfl, -⟩ := exists_start_operand hoperand
    rw [List.append_assoc]
    exact .iterate_more (logs_operand gap hoperand hscoped.1) (runs_commandStep_more first hruns)
      (length_lt_append (List.cons_ne_nil p ps') (qs ++ r)) hrest

/-- What is noted in the commands of a pipeline are the visits in them. -/
theorem logs_stages {depth : Nat} {ps qs r : List Piece} {c : OperandClass}
    {os : List Template.Operand} {cs : List (List Template.Operand)} {vars vars' : List String}
    {context : Context} {close : TokenKind} {vs : List Visit} (classes : List OperandClass)
    (loops : Nat) (gap : Bool) (hcommand : CommandRuns depth vars ps c os vars')
    (hlogs : CommandLogs depth vars ps vs)
    (hfault : pipelineFault? context (classes ++ [c]) = none) (hends : ClosesPipeline close)
    (hclose : r.head?.map Piece.kind = some close) :
    Spelling.Stages depth qs cs → WellScoped (commandsVisits cs vars') →
      Logs (.iterate (pipelineStep (parenthesized depth) context close)
        (pipelineStepLog (parenthesized depth) (parenthesizedLog depth)) classes)
        ⟨⟨ps ++ (qs ++ r), vars, loops⟩, gap⟩ (vs ++ commandsVisits cs vars')
  | .nil, _ => by
    obtain ⟨⟨p, ps', rfl, hstart⟩, hruns⟩ := hcommand
    have hbehind := endsCommand_of_closes hends hclose
    have hstep := runs_pipelineStep_last context classes hstart hends
      (hruns r loops hbehind) hclose gap
    have hend := runs_pipelineStep_end (parenthesized depth) vars' loops hclose hfault false
    exact .iterate_more (logs_pipelineStep hstart (hlogs r loops hbehind) gap) hstep
      (length_lt_append (List.cons_ne_nil p ps') r)
      (.iterate_last (logs_pipelineStep_end hends hclose false) hend)
  | @Spelling.Stages.bar _ bar hbar, _ => by
    obtain ⟨⟨p, ps', rfl, hstart⟩, hruns⟩ := hcommand
    have hbehind : endsCommand ((bar :: r).head?.map Piece.kind) := by
      rw [List.head?_cons, Option.map_some, hbar]
      rfl
    have hstep := runs_pipelineStep_bar context classes hstart hends
      (hruns (bar :: r) loops hbehind) hbar gap
    have hend := runs_pipelineStep_end (parenthesized depth) vars' loops hclose hfault bar.spaced
    exact .iterate_more (logs_pipelineStep hstart (hlogs (bar :: r) loops hbehind) gap) hstep
      (by simp; omega) (.iterate_last (logs_pipelineStep_end hends hclose bar.spaced) hend)
  | @Spelling.Stages.cons _ bar qs₁ qs₂ os₁ _ hbar hspells hstages, hscoped => by
    rw [commandsVisits] at hscoped ⊢
    rw [wellScoped_append] at hscoped
    obtain ⟨⟨p, ps', rfl, hstart⟩, hruns⟩ := hcommand
    have hbehind : endsCommand ((bar :: (qs₁ ++ (qs₂ ++ r))).head?.map Piece.kind) := by
      rw [List.head?_cons, Option.map_some, hbar]
      rfl
    have hnext : CommandLogs depth vars' qs₁ (operandsVisits os₁ vars') := fun r loops hends ↦
      .node (logs_command r loops false none hspells hscoped.1 hends)
    have hrest := logs_stages (classes ++ [c]) loops bar.spaced
      (commandRuns_of_spells hspells hscoped.1) hnext (pipelineFault?_concat hfault) hends hclose
      hstages hscoped.2
    have hstep := runs_pipelineStep_bar context classes hstart hends
      (hruns (bar :: (qs₁ ++ (qs₂ ++ r))) loops hbehind) hbar gap
    rw [List.append_assoc]
    exact .iterate_more (logs_pipelineStep hstart (hlogs _ loops hbehind) gap) hstep
      (by simp; omega) hrest

/-- The variable operands of a pipeline are visited with the names in scope in the outline. -/
theorem logs_pipeline {depth : Nat} {inRange : Bool} {ps r : List Piece} {pl : Template.Pipeline}
    {vars : List String} {loops : Nat} (gap : Bool) (context : Context) {close : TokenKind}
    (hcontext : inRange = decide (context = .header .rangeBlock)) :
    Spelling.Pipeline depth inRange ps pl → WellScoped (pl.visits vars) → ClosesPipeline close →
      r.head?.map Piece.kind = some close →
      Logs (pipelineLog (parenthesized depth) (parenthesizedLog depth) context close)
        ⟨⟨ps ++ r, vars, loops⟩, gap⟩ (pl.visits vars)
  | @Spelling.Pipeline.mk _ _ ds ps₁ qs₁ c decl os cs hdeclares hcommand hnil hstages, hscoped,
    hends, hclose => by
    rw [Pipeline.visits, commandsVisits] at hscoped ⊢
    rw [wellScoped_append] at hscoped
    have hlogs : CommandLogs depth (Decl.enter decl vars) ps₁
        (operandsVisits os (Decl.enter decl vars)) := fun r loops hends ↦
      .node (logs_command r loops false none hcommand hscoped.1 hends)
    have hbehind := endsCommand_of_stages hends (hstages.grammar hscoped.2) hclose
    have hnone : NoDecl (ps₁ ++ (qs₁ ++ r)) := fun p rest happend hp ↦
      not_continuesDecl_of_command (hcommand.grammar hscoped.1)
        (not_continuesDecl_of_endsCommand hbehind) happend hp
    have hnext : ps₁.head?.map Piece.kind = (ps₁ ++ (qs₁ ++ r)).head?.map Piece.kind := by
      obtain ⟨p, ps', rfl, -⟩ := exists_start_command hcommand
      rfl
    obtain ⟨gap', hdeclaration⟩ := runs_declaration hcontext hdeclares hnext hnone vars loops gap
    have hloop := logs_stages [] loops gap' (commandRuns_of_spells hcommand hscoped.1) hlogs
      ((pipelineFault?_cons context c []).mpr ⟨hnil, by simp⟩) hends hclose hstages hscoped.2
    rw [List.append_assoc, List.append_assoc]
    exact .node (.after hdeclaration hloop)

end

end AlertAudit.Template.Parser
