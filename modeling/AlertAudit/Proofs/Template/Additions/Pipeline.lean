import AlertAudit.Proofs.Template.Additions
import AlertAudit.Proofs.Template.Acceptance

/-!
What is added where a pipeline is read. Every operand starts with the token that tells its kind,
every command with an operand, and every pipeline has a command (`adds_actionPipeline`).
-/

set_option autoImplicit false

namespace AlertAudit.Template

open AlertAudit.Template.Tree Outline

namespace Parser

/-- What is added stands behind the children that a node has already. -/
theorem State.GrowsTo.exists_children {s t : State} (h : s.GrowsTo t) :
    ∃ added, t.built.reverse = s.built.reverse ++ added := by
  obtain ⟨added, hadded, -⟩ := h.trees
  exact ⟨added, by rw [hadded, List.reverse_append, List.reverse_reverse]⟩

/-- A token that is taken is taken behind white space anyway. -/
theorem bump_look (s : State) : bump s.look = bump s := by
  cases hrest : s.look.rest with
  | nil => rw [bump_apply_of_nil hrest, bump_apply_of_nil (by rw [look_look, hrest]), look_look]
  | cons token rest =>
    rw [bump_apply_of_cons hrest, bump_apply_of_cons (by rw [look_look, hrest]), look_look]

/-- A token that is taken first in a node is its first child. -/
theorem exists_children_of_bump {s t : State} {token : Token} {rest : List Token}
    (hrest : s.look.rest = token :: rest) (h : (bump s.look.inside).2.GrowsTo t) :
    ∃ more, t.built.reverse = .leaf token :: more := by
  have hsolid : token.isTrivia = false := by
    have hhead := all_head?_look s
    rwa [hrest, List.head?_cons, Option.all_some, Bool.not_eq_true'] at hhead
  have hspaces : s.look.rest.takeWhile Token.isTrivia = [] := by
    rw [hrest, List.takeWhile_cons_of_neg (by rw [hsolid]; exact Bool.false_ne_true)]
  have hinside : s.look.inside.look.rest = token :: rest :=
    (congrArg State.rest (look_look s)).trans hrest
  have hbuilt : (bump s.look.inside).2.built = [.leaf token] := by
    rw [bump_apply_of_cons hinside]
    change Tree.leaf token ::
      (([] ++ s.look.rest.takeWhile Token.isTrivia).reverse.map .leaf ++ []) = _
    rw [hspaces]
    rfl
  obtain ⟨more, hmore⟩ := h.exists_children
  rw [hbuilt] at hmore
  exact ⟨more, hmore⟩

/-! ### Operands -/

/-- The first token of an operand is a token alone. -/
theorem quiet_operandHead (kind : TokenKind) (text : String) : Quiet (operandHead kind text) := by
  refine quiet_get.bind fun s ↦ ?_
  cases operandFault? s.vars kind text with
  | none => exact quiet_bump
  | some cause => exact (quiet_fail cause).bind fun _ ↦ quiet_bump

/-- So are its fields. -/
theorem quiet_operandFields (operandClass : OperandClass) (text : String) :
    Quiet (operandFields operandClass text) := by
  refine quiet_failed.bind fun _ ↦ quiet_ite (quiet_pure _) ?_
  refine quiet_adjacent.bind fun _ ↦ quiet_ite ?_ (quiet_pure _)
  exact quiet_ite (quiet_takeAll _) (quiet_fail _)

/-- What a parser for what stands in parentheses adds. -/
abbrev AddsPipeline (p : Parser Unit) : Prop := ∀ s, Adds (fun _ gs ↦ ∃ q, gs = [.pipeline q]) p s

/-- An operand that is a parenthesis has a pipeline. -/
theorem adds_operandStages {inner : Parser Unit} (hinner : AddsPipeline inner) (kind : TokenKind)
    (operandClass : OperandClass) (text : String) (s : State) :
    Adds (fun _ gs ↦ kind = .parenOpen → Gives Part.pipeline? gs)
      (operandStages inner kind operandClass text) s := by
  refine (quiet_operandHead kind text).before fun _ t ↦ ?_
  refine Adds.then_quiet ?_ fun _ ↦ quiet_operandFields operandClass text
  refine adds_ite (fun _ ↦ ?_) fun hkind ↦ adds_pure fun h ↦ absurd h hkind
  refine Adds.then_quiet ?_ fun _ ↦ quiet_failed.bind fun _ ↦ quiet_ite (quiet_pure _)
    ((quiet_eat _).bind fun _ ↦ quiet_pure _)
  refine (hinner t).mono ?_
  rintro _ ⟨q, rfl⟩ -
  exact gives_singleton_iff.mpr rfl

/-- A first token that is at fault is an error. -/
theorem error_operandHead_of_fault {kind : TokenKind} {text : String} {s : State} {cause : Cause}
    (h : operandFault? s.vars kind text = some cause) :
      (operandHead kind text s).2.error.isSome := by
  have happly : operandHead kind text s = bump (fail cause s).2 := by
    simp only [operandHead, bind_apply, get_apply, h]
  have hfail := isSome_error_fail cause s
  rw [happly, (grows_bump _).error hfail]
  exact hfail

/-- The first token of an operand is its first child, and there is no fault in it. -/
theorem children_operandStages {inner : Parser Unit} (hinner : AddsPipeline inner) {s : State}
    {token : Token} {rest : List Token} (hrest : s.look.rest = token :: rest)
    (operandClass : OperandClass)
    (herror : (operandStages inner token.kind operandClass token.text s.look.inside).2.error =
      none) :
    operandFault? s.vars token.kind token.text = none ∧ ∃ more,
      (operandStages inner token.kind operandClass token.text s.look.inside).2.built.reverse =
        .leaf token :: more := by
  have hbehind : Grows (operandBody inner token.kind >>= fun _ ↦
      operandFields operandClass token.text) :=
    grows_bind (grows_operandBody (fun t ↦ (hinner t).grows) _) fun _ ↦ grows_operandFields _ _
  have hgrows := hbehind (operandHead token.kind token.text s.look.inside).2
  have hnone := hgrows.error_eq_none herror
  cases hfault : operandFault? s.vars token.kind token.text with
  | some cause =>
    have hsome := error_operandHead_of_fault (s := s.look.inside) hfault
    rw [hnone] at hsome
    exact absurd hsome Bool.false_ne_true
  | none =>
    have hhead : operandHead token.kind token.text s.look.inside = bump s.look.inside := by
      have hfault : operandFault? s.look.inside.vars token.kind token.text = none := hfault
      simp only [operandHead, bind_apply, get_apply, hfault]
    rw [hhead] at hgrows
    obtain ⟨more, hmore⟩ := exists_children_of_bump hrest hgrows
    rw [← hhead] at hmore
    exact ⟨rfl, more, hmore⟩

/-- The first token of a node is the first one among its parts. -/
theorem filterMap_token?_cons (token : Token) (more : List Tree) :
    (ofTrees (.leaf token :: more)).filterMap Part.token? =
      token :: (ofTrees more).filterMap Part.token? := by
  rw [ofTrees, ofTree]
  rfl

/-- A token of the kind is found among the parts. -/
theorem tokensOf_ne_nil {token : Token} {kind : TokenKind} (more : List Tree)
    (h : token.kind = kind) : Outline.tokensOf kind (ofTrees (.leaf token :: more)) ≠ [] := by
  rw [Outline.tokensOf, filterMap_token?_cons, List.filter_cons_of_pos (by simpa using h)]
  exact List.cons_ne_nil _ _

/-- What is asked of a literal, whose token comes first. -/
theorem answers_literal (token : Token) (more : List Tree) (hsolid : token.kind.isTrivia = false)
    (hstring : token.kind.namesTemplate → (Literal.unquote token.text).isSome) :
    Answers .literal (ofTrees (.leaf token :: more)) := by
  refine ⟨token, ?_, ?_⟩
  · rw [filterMap_token?_cons]
    exact List.find?_cons_of_pos (by rw [Token.isTrivia, hsolid]; rfl)
  · rw [Token.stringValue?]
    cases hkind : token.kind <;> simp_all [TokenKind.namesTemplate]

/-- What the node of an operand is asked for. -/
theorem answers_operand {vars : List String} {token : Token} {nodeKind : NodeKind}
    {operandClass : OperandClass} {more : List Tree}
    (hoperand : operandOf? token.kind = some (nodeKind, operandClass))
    (hfault : operandFault? vars token.kind token.text = none)
    (hparen : token.kind = .parenOpen → Gives Part.pipeline? (groups (.leaf token :: more))) :
    Answers nodeKind (ofTrees (.leaf token :: more)) := by
  have hliteral := answers_literal token more
  have hplain (hsolid : token.kind.isTrivia = false) (hname : token.kind.namesTemplate = false) :
      Answers .literal (ofTrees (.leaf token :: more)) :=
    hliteral hsolid fun h ↦ absurd h (by rw [hname]; exact Bool.false_ne_true)
  rw [gives_groups_iff fun _ ↦ rfl] at hparen
  cases hkind : token.kind <;> rw [hkind] at hoperand hfault hliteral hplain
  case identifier => cases hoperand; exact tokensOf_ne_nil more hkind
  case «variable» => cases hoperand; exact tokensOf_ne_nil more hkind
  case dot => cases hoperand; trivial
  case field => cases hoperand; trivial
  case keyword word => cases word <;> cases hoperand; exact hplain rfl rfl
  case bool => cases hoperand; exact hplain rfl rfl
  case charLit => cases hoperand; exact hplain rfl rfl
  case number => cases hoperand; exact hplain rfl rfl
  case str =>
    cases hoperand
    exact hliteral rfl fun _ ↦ by simpa [operandFault?, Option.isSome_iff_ne_none] using hfault
  case rawStr =>
    cases hoperand
    exact hliteral rfl fun _ ↦ by simpa [operandFault?, Option.isSome_iff_ne_none] using hfault
  case parenOpen => cases hoperand; exact isSome_findSome?_iff.mpr (hparen hkind)
  all_goals cases hoperand

/-- The node of an operand contributes an operand. -/
theorem isSome_operand?_assemble {kind : NodeKind} (h : kind.isOperand) (tree : Tree)
    (parts : List Part) : (assemble kind tree parts).operand?.isSome := by
  cases kind <;> first | rfl | cases h

/-- An operand adds itself, if one starts here. -/
theorem adds_operand {inner : Parser Unit} (hinner : AddsPipeline inner) (s : State) :
    Adds (fun c gs ↦ c.isSome → Gives Part.operand? gs) (operand inner) s := by
  cases hfound : s.look.rest.head?.bind (operandOf? ·.kind) with
  | none =>
    exact Adds.congr (operand_apply_of_none inner hfound)
      (Adds.of_look (p := pure none) (adds_pure nofun))
  | some found =>
    obtain ⟨nodeKind, operandClass⟩ := found
    obtain ⟨token, hhead, hoperand⟩ := Option.bind_eq_some_iff.mp hfound
    obtain ⟨rest, hrest⟩ := List.head?_eq_some_iff.mp hhead
    have hnode : Adds (fun _ gs ↦ ∃ tree parts, gs = [assemble nodeKind tree parts])
        (node nodeKind (operandStages inner token.kind operandClass token.text)) s.look := by
      refine adds_node nodeKind (growsTo_operandNode (fun t ↦ (hinner t).grows) hhead hoperand)
        (adds_operandStages hinner _ _ _ _) fun children herror hchildren hparen ↦ ?_
      obtain ⟨hfault, more, hmore⟩ := children_operandStages hinner hrest operandClass herror
      rw [← hchildren, hmore] at hparen ⊢
      exact answers_operand hoperand hfault hparen
    have hsome : Adds (fun c gs ↦ c.isSome → Gives Part.operand? gs)
        (node nodeKind (operandStages inner token.kind operandClass token.text) >>=
          fun _ ↦ pure (some operandClass)) s.look := by
      refine hnode.bind (H := fun _ _ gs ↦ gs = []) (adds_pure rfl) ?_
      rintro _ _ _ _ ⟨tree, parts, rfl⟩ rfl -
      exact gives_singleton_iff.mpr (isSome_operand?_assemble
        (isOperand_of_operandOf? hoperand) _ _)
    exact Adds.congr (operand_apply_of_some inner hhead hoperand) hsome.of_look

/-! ### Commands and pipelines -/

/-- The end of a command adds tokens alone. -/
theorem quiet_commandEnd (next first : Option OperandClass) (separator : Option TokenKind) :
    Quiet (do
      if next.isSome && separator = some .whitespace then return (true, first)
      unless endsCommand separator do unexpected .operand
      return (false, first)) :=
  quiet_ite (quiet_pure _) (quiet_ite (quiet_pure _)
    ((quiet_unexpected _).bind fun _ ↦ quiet_pure _))

/-- A round of a command adds its operand. -/
theorem adds_commandStep {inner : Parser Unit} {s : State} {P : List Part → Prop}
    (h : Adds (fun _ ↦ P) (operand inner) s) (first : Option OperandClass) :
    Adds (fun _ ↦ P) (commandStep inner first) s :=
  h.then_quiet fun next ↦ quiet_failed.bind fun _ ↦ quiet_ite (quiet_pure _)
    (quiet_ite (quiet_adjacent.bind fun _ ↦ quiet_commandEnd next _ _)
      (quiet_current.bind fun _ ↦ quiet_commandEnd next _ _))

/-- A command that starts where an operand does has an operand. -/
theorem adds_command {inner : Parser Unit} (hinner : AddsPipeline inner) {s : State}
    (hstarts : s.place.kind?.any (·.startsOperand)) :
    Adds (fun _ gs ↦ ∃ os, gs = [.command os]) (command inner) s := by
  have hany (first : Option OperandClass) (t : State) :
      Adds (fun _ _ ↦ True) (commandStep inner first) t :=
    adds_commandStep ((adds_operand hinner t).mono fun _ _ ↦ trivial) first
  have hsome : (operand inner s.inside).1.isSome := by
    rw [← kind?_place] at hstarts
    cases hhead : s.look.rest.head? with
    | none => rw [hhead] at hstarts; exact absurd hstarts Bool.false_ne_true
    | some token =>
      rw [hhead] at hstarts
      obtain ⟨⟨_, _⟩, hoperand⟩ :=
        Option.isSome_iff_exists.mp ((startsOperand_iff token.kind).mp hstarts)
      rw [operand_apply_of_some (s := s.inside) inner hhead hoperand]
      rfl
  have hfirst : Adds (fun _ ↦ Gives Part.operand?) (commandStep inner none) s.inside :=
    adds_commandStep ((adds_operand hinner s.inside).mono fun _ h ↦ h hsome) none
  refine ((Adds.iterate hany hfirst fun _ _ h ↦ h.append_right).node .command rfl rfl ?_).mono ?_
  · intro _ children h
    exact filterMap_ne_nil_iff.mpr ((gives_groups_iff (fun _ ↦ rfl) children).mp h)
  · rintro _ ⟨tree, parts, rfl⟩
    exact ⟨_, rfl⟩

/-- A variable that is declared adds tokens alone. -/
theorem quiet_declared : Quiet declared := by
  refine quiet_currentText.bind fun name ↦ quiet_bump.bind fun _ ↦ quiet_current.bind fun mark ↦ ?_
  refine Quiet.bind (quiet_of_grows (fun s ↦ growsTo_push s name) fun _ ↦ ⟨[], rfl⟩) fun _ ↦ ?_
  exact quiet_bump.bind fun _ ↦ quiet_pure _

/-- So does what follows the first variable of a declaration. -/
theorem quiet_declarationRest (context : Context) (closed : Bool) : Quiet (do
    if closed then return
    if context = .header .rangeBlock then secondVariable context (← current)
    else fail (.tooManyDeclarations context)) := by
  refine quiet_ite (quiet_pure _) (quiet_ite ?_ (quiet_fail _))
  refine quiet_current.bind fun kind ↦ ?_
  unfold secondVariable
  split
  · refine quiet_second.bind fun _ ↦ quiet_ite ?_ (quiet_pure _)
    exact quiet_declared.bind fun _ ↦ quiet_ite (quiet_pure _) (quiet_fail _)
  · exact quiet_pure _
  · exact quiet_pure _
  · exact quiet_fail _

/-- So does a declaration. -/
theorem quiet_declarationBody (context : Context) : Quiet (declarationBody context) :=
  quiet_declared.bind (quiet_declarationRest context)

/-- The token of a name is the first child of its declaration. -/
theorem children_declarationBody (context : Context) {s : State} {token : Token}
    {rest : List Token} (hrest : s.look.rest = token :: rest) :
    ∃ more, (declarationBody context s.look.inside).2.built.reverse = .leaf token :: more := by
  have hmark (name : String) : Grows (do
      let mark ← current
      modify fun s ↦ { s with vars := name :: s.vars }
      bump
      return mark = some .declare || mark = some .assign) :=
    grows_bind grows_current fun _ ↦ grows_bind (fun s ↦ growsTo_push s name) fun _ ↦
      grows_bind grows_bump fun _ ↦ grows_pure _
  refine exists_children_of_bump hrest ?_
  rw [← bump_look]
  exact grows_bind (hmark _) (fun closed s ↦ (quiet_declarationRest context closed s).grows) _

/-- A declaration starts with its variable. -/
theorem adds_declaration (context : Context) (s : State) :
    Adds (fun _ _ ↦ True) (declaration context) s := by
  have happly : declaration context s =
      if s.place.kind? = some .variable && continuesDecl s.place.tail.kind? then
        node .decl (declarationBody context) s.look
      else ((), s.look) := by
    rw [← kind?_place, ← kind?_tail_place, declaration_eq, bind_apply, current_apply, bind_apply,
      second_apply, look_look]
    split <;> rfl
  by_cases hdeclares : s.place.kind? = some .variable && continuesDecl s.place.tail.kind?
  · rw [if_pos hdeclares] at happly
    simp only [Bool.and_eq_true, decide_eq_true_eq, ← kind?_place] at hdeclares
    obtain ⟨token, hhead, hkind⟩ := Option.map_eq_some_iff.mp hdeclares.1
    obtain ⟨rest, hrest⟩ := List.head?_eq_some_iff.mp hhead
    have hbody := quiet_declarationBody context s.look.inside
    have hnode := adds_node .decl
      (growsTo_node rfl hbody.grows fun h ↦ absurd h Bool.false_ne_true) hbody
      fun children _ hchildren _ ↦ (by
        obtain ⟨more, hmore⟩ := children_declarationBody context hrest
        rw [← hchildren, hmore]
        exact tokensOf_ne_nil more hkind : Answers .decl (ofTrees children))
    exact Adds.congr happly (hnode.mono fun _ _ ↦ trivial).of_look
  · rw [if_neg hdeclares] at happly
    exact Adds.congr happly (Adds.of_look (p := pure ()) (adds_pure trivial))

/-- The first round of a pipeline takes a command. -/
theorem adds_pipelineStep {inner : Parser Unit} (hinner : AddsPipeline inner) (context : Context)
    (close : TokenKind) (classes : List OperandClass) (s : State) :
    Adds (fun _ gs ↦ classes = [] → Gives Part.command? gs)
      (pipelineStep inner context close classes) s := by
  have hkind : (current s).1 = (current s).2.place.kind? := by
    rw [current_apply, kind?_place, place_look]
  refine Adds.unless_failed (grows_pure _) ((quiet_current s).bind
    (H := fun _ _ gs ↦ classes = [] → Gives Part.command? gs) ?_ fun _ _ _ _ hnil h ↦ by rwa [hnil])
  refine adds_ite (fun _ ↦ ?_) fun _ ↦ adds_ite (fun hstarts ↦ ?_) fun _ ↦ ?_
  · cases hfault : pipelineFault? context classes with
    | some cause =>
      exact adds_of_error (grows_bind (grows_fail cause) (fun _ ↦ grows_pure _) _)
        (isSome_error_fail cause _)
    | none =>
      refine adds_pure fun hnil ↦ ?_
      rw [hnil] at hfault
      exact absurd hfault (by simp [pipelineFault?])
  · rw [hkind] at hstarts
    refine Adds.then_quiet ((adds_command hinner hstarts).mono ?_) fun first ↦
      quiet_adjacent.bind fun _ ↦ quiet_ite (quiet_bump.bind fun _ ↦ quiet_pure _) (quiet_pure _)
    rintro _ ⟨os, rfl⟩ -
    exact gives_singleton_iff.mpr rfl
  · exact adds_of_error (grows_bind (grows_unexpected context) (fun _ ↦ grows_pure _) _)
      (isSome_error_unexpected context _)

/-- A pipeline adds itself, with its commands. -/
theorem adds_pipeline {inner : Parser Unit} (hinner : AddsPipeline inner) (context : Context)
    (close : TokenKind) : AddsPipeline (pipeline inner context close) := by
  intro s
  have hany (classes : List OperandClass) (t : State) : Adds (fun _ _ ↦ True)
      (pipelineStep inner context close classes) t :=
    (adds_pipelineStep hinner context close classes t).mono fun _ _ ↦ trivial
  have hcommands (t : State) : Adds (fun _ ↦ Gives Part.command?)
      (iterate (pipelineStep inner context close) []) t :=
    Adds.iterate hany ((adds_pipelineStep hinner context close [] t).mono fun _ h ↦ h rfl)
      fun _ _ h ↦ h.append_right
  have hinside : Adds (fun _ ↦ Gives Part.command?) (do
      declaration context
      let _ ← iterate (pipelineStep inner context close) []) s.inside :=
    (adds_declaration context s.inside).bind (H := fun _ _ ↦ Gives Part.command?)
      ((hcommands _).then_quiet fun _ ↦ quiet_pure ()) fun _ _ _ _ _ h ↦ h.append_left
  rw [pipeline_eq]
  refine Adds.unless_failed (grows_pure ()) ((hinside.node .pipeline rfl rfl
    fun _ children h ↦ ?_).mono ?_)
  · exact filterMap_ne_nil_iff.mpr ((gives_groups_iff (fun _ ↦ rfl) children).mp h)
  · rintro _ ⟨tree, parts, rfl⟩
    exact ⟨_, rfl⟩

/-- So does a pipeline in parentheses, however deep they nest. -/
theorem adds_parenthesized : ∀ depth : Nat, AddsPipeline (parenthesized depth)
  | 0 => fun _ ↦ adds_fail _ _
  | depth + 1 => fun _ ↦ Adds.inParens (adds_pipeline (adds_parenthesized depth) _ _)

theorem adds_actionPipeline (context : Context) : AddsPipeline (actionPipeline context) :=
  adds_pipeline (adds_parenthesized maxDepth) _ _

end Parser

end AlertAudit.Template
