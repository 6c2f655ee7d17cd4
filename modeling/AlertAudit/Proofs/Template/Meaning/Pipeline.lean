import AlertAudit.Proofs.Template.Meaning.Command
import AlertAudit.Proofs.Template.Meaning.Declaration

/-!
The meaning of pipelines is the rule for them, however deep parentheses nest. The loop over the
commands checks their classes only at its end; a round that goes on stands for a command with the
bar behind it, if there is one.
-/

set_option autoImplicit false

namespace AlertAudit.Template.Parser

open Grammar

variable {inner : Parser Unit} {depth : Nat}
  (hinner : Means State.place State.place Anywhere inner fun v _ w ↦ InnerMeaning depth v w)

def ClosesPipeline (close : TokenKind) : Prop := close = .rightDelim ∨ close = .parenClose

/-- Behind a command, a bar is taken. -/
def Place.pastBar (v : Place) : Place := if v.kind? = some .pipe then v.tail else v

/-- A bar stands in the same loops. -/
theorem loops_pastBar (v : Place) : v.pastBar.loops = v.loops := by
  rw [Place.pastBar]
  split
  · rfl
  · rfl

/-- A command with the bar behind it, or the end of a pipeline. -/
def PipelineStep (depth : Nat) (context : Context) (close : TokenKind)
    (classes : List OperandClass) (v : Place) (r : Bool × List OperandClass) (w : Place) : Prop :=
  if r.1 then
    ∃ (c : OperandClass) (ps : List Piece) (u : Place), Command depth v.vars ps c u.vars ∧
      v.ahead = ps ++ u.ahead ∧ u.loops = v.loops ∧ endsCommand u.kind? ∧
      r.2 = classes ++ [c] ∧ w = u.pastBar
  else v.kind? = some close ∧ pipelineFault? context classes = none ∧ r.2 = classes ∧ w = v

/-- No white space is left behind a command. -/
theorem gap_of_commandMeaning {first c : Option OperandClass} {v : Place} {w : View}
    (h : CommandMeaning depth first v c w) : w.gap = false := by
  rcases h with ⟨-, -, rfl⟩ | ⟨_, _, _, _, _, _, hgap, _⟩
  · rfl
  · exact hgap

include hinner in
/-- A command and the bar behind it, if there is one. -/
theorem means_commandBar (classes : List OperandClass) :
    Means State.place State.place Anywhere (do
      let first ← command inner
      if (← adjacent) = some .pipe then bump
      return (true, classes ++ first.toList)) fun v r w ↦
        ∃ c u, CommandMeaning depth none v c u ∧ r = (true, classes ++ c.toList) ∧
          w = u.place.pastBar := by
  have hbar : ∀ c : Option OperandClass, Means State.view State.place Anywhere (do
      if (← adjacent) = some .pipe then bump
      return (true, classes ++ c.toList)) _ := fun c ↦
    means_adjacent.bind_eq fun next ↦ means_ite (means_bump.pre_view.then_eq (means_pure _))
      (means_pure_place _)
  refine ((means_command hinner).bind hbar).congr fun v r w ↦ ?_
  refine exists_congr fun c ↦ exists_congr fun u ↦ and_congr_right fun hcommand ↦ ?_
  have hadjacent : u.adjacent = u.place.kind? := by
    rw [View.adjacent, gap_of_commandMeaning hcommand]
    rfl
  rw [hadjacent, Place.pastBar]
  split
  · exact Iff.rfl
  · exact Iff.rfl

include hinner in
/-- A round takes a command and the bar behind it, or ends the pipeline. -/
theorem means_pipelineStep (context : Context) {close : TokenKind} (hclose : ClosesPipeline close)
    (classes : List OperandClass) :
    Means State.place State.place Anywhere (pipelineStep inner context close classes)
      (PipelineStep depth context close classes) := by
  refine (Means.unless_failed (grows_pure _) (means_current.bind_eq fun next ↦ means_ite
    (?fault : Means _ _ _ _ fun v r w ↦
      pipelineFault? context classes = none ∧ r = (false, classes) ∧ w = v)
    (means_ite (means_commandBar hinner classes)
      ((means_unexpected context).bind_false fun _ ↦ grows_pure _)))).congr fun v r w ↦ ?_
  case fault =>
    cases pipelineFault? context classes with
    | none => exact (means_pure _).congr fun v r w ↦ by simp
    | some cause =>
      exact ((means_fail cause).bind_false fun _ ↦ grows_pure _).congr fun v r w ↦ by simp
  obtain ⟨goOn, c⟩ := r
  have hnotStart : v.kind? = some close → v.kind?.any (·.startsOperand) = false := by
    rcases hclose with rfl | rfl
    · intro h
      rw [h]
      rfl
    · intro h
      rw [h]
      rfl
  constructor
  · intro h
    split at h
    next hkind =>
      obtain ⟨hnone, hr, rfl⟩ := h
      obtain ⟨rfl, rfl⟩ := Prod.mk.inj hr
      exact ⟨hkind, hnone, rfl, rfl⟩
    next hkind =>
      split at h
      next hstarts =>
        obtain ⟨c', u, hcommand, hr, rfl⟩ := h
        obtain ⟨rfl, rfl⟩ := Prod.mk.inj hr
        rcases hcommand with ⟨-, hends, -⟩ | ⟨k, ps, hcommand, hahead, hloops, rfl, -, hends⟩
        · rw [not_startsOperand_of_endsCommand hends] at hstarts
          exact absurd hstarts Bool.false_ne_true
        · exact ⟨k, ps, u.place, hcommand, hahead, hloops, hends, rfl, rfl⟩
      next => exact absurd h id
  · intro h
    cases goOn with
    | true =>
      obtain ⟨k, ps, u, hcommand, hahead, hloops, hends, hr, rfl⟩ := h
      obtain rfl : c = classes ++ [k] := hr
      have hstarts : v.kind?.any (·.startsOperand) = true := by
        obtain ⟨p, r, rfl, hstart⟩ := startsOperand_of_command hcommand
        rw [Place.kind?, hahead]
        exact hstart
      rw [if_neg fun hkind ↦ by simp [hnotStart hkind] at hstarts, if_pos hstarts]
      exact ⟨some k, ⟨u, false⟩, .inr ⟨k, ps, hcommand, hahead, hloops, rfl, rfl, hends⟩, rfl, rfl⟩
    | false =>
      obtain ⟨hkind, hnone, rfl, rfl⟩ := h
      rw [if_pos hkind]
      exact ⟨hnone, rfl, rfl⟩

/-- A pipeline is at fault if its first command has no value or a later one cannot be run. -/
theorem pipelineFault?_cons (context : Context) (c : OperandClass) (cs : List OperandClass) :
    pipelineFault? context (c :: cs) = none ↔ c ≠ .nil ∧ ∀ d ∈ cs, d = .executable := by
  rw [pipelineFault?]
  by_cases hnil : c = .nil
  · simp [hnil]
  · simp [hnil, List.findIdx?_eq_none_iff]

/-- What stands in front of a place in a pipeline whose first command has been taken, with the bar
behind it: the end of the pipeline, or one more command with what follows. -/
def StagesMeaning (depth : Nat) (v w : Place) : Prop :=
  v = w ∨ ∃ (ps qs : List Piece) (u : Place), Command depth v.vars ps .executable u.vars ∧
    Stages depth u.vars qs w.vars ∧ v.ahead = ps ++ (qs ++ w.ahead)

/-- Behind a command stands a bar or the end of the pipeline. -/
theorem stages_of_pastBar {u w : Place} (hends : endsCommand u.kind?)
    (hrest : StagesMeaning depth u.pastBar w) :
    ∃ qs, Stages depth u.vars qs w.vars ∧ u.ahead = qs ++ w.ahead := by
  by_cases hbar : u.kind? = some .pipe
  · obtain ⟨bar, r, hahead, hkind⟩ := exists_cons_of_kind? hbar
    have hpast : u.pastBar = ⟨r, u.vars, u.loops⟩ := by
      rw [Place.pastBar, if_pos hbar, Place.tail, hahead, List.tail_cons]
    rw [hpast] at hrest
    rcases hrest with rfl | ⟨ps, qs, u', hcommand, hstages, hr⟩
    · exact ⟨[bar], .bar hkind, hahead⟩
    · obtain rfl : r = ps ++ (qs ++ w.ahead) := hr
      exact ⟨bar :: ps ++ qs, .cons hkind hcommand hstages, by simp [hahead]⟩
  · rw [Place.pastBar, if_neg hbar] at hrest
    rcases hrest with rfl | ⟨ps, qs, u', hcommand, hstages, hr⟩
    · exact ⟨[], .nil, rfl⟩
    · obtain ⟨p, r, rfl, hstart⟩ := startsOperand_of_command hcommand
      have hnot := not_startsOperand_of_endsCommand hends
      rw [Place.kind?, hr] at hnot
      exact absurd hstart (by simpa using hnot)

/-- The rounds behind the first command. -/
theorem stagesMeaning_of_rounds {context : Context} {close : TokenKind} {c : OperandClass}
    {cs classes : List OperandClass} {v w : Place}
    (h : Rounds (PipelineStep depth context close) (c :: cs) v classes w) :
    c ≠ .nil ∧ (∀ d ∈ cs, d = .executable) ∧ w.kind? = some close ∧ w.loops = v.loops ∧
      StagesMeaning depth v w := by
  generalize hclasses : c :: cs = start at h
  induction h generalizing cs with
  | last hstep =>
    subst hclasses
    obtain ⟨hkind, hfault, -, rfl⟩ := hstep
    obtain ⟨hnil, hall⟩ := (pipelineFault?_cons context c cs).mp hfault
    exact ⟨hnil, hall, hkind, rfl, .inl rfl⟩
  | more hstep hrounds ih =>
    subst hclasses
    obtain ⟨k, ps, u, hcommand, hahead, hloops, hends, rfl, rfl⟩ := hstep
    obtain ⟨hnil, hall, hkind, hloops', hrest⟩ := ih rfl
    obtain rfl : k = .executable := hall k (by simp)
    obtain ⟨qs, hstages, hqs⟩ := stages_of_pastBar hends hrest
    refine ⟨hnil, fun d hd ↦ hall d (by simp [hd]), hkind, ?_,
      .inr ⟨ps, qs, u, hcommand, hstages, ?_⟩⟩
    · rw [hloops', loops_pastBar, hloops]
    · rw [hahead, hqs]

/-- In front of the next stages a command ends. -/
theorem endsCommand_of_stages {close : TokenKind} (hclose : ClosesPipeline close)
    {vars vars' : List String} {qs r : List Piece} (hstages : Stages depth vars qs vars')
    (hr : r.head?.map Piece.kind = some close) : endsCommand ((qs ++ r).head?.map Piece.kind) := by
  cases hstages with
  | nil =>
    rw [List.nil_append, hr]
    rcases hclose with rfl | rfl
    · rfl
    · rfl
  | bar hbar =>
    change endsCommand (some _)
    rw [hbar]
    rfl
  | cons hbar _ _ =>
    change endsCommand (some _)
    rw [hbar]
    rfl

/-- The commands behind the first one are taken in rounds, up to the end of the pipeline. -/
theorem rounds_of_stages {context : Context} {close : TokenKind} (hclose : ClosesPipeline close)
    {c : OperandClass} {cs : List OperandClass} {vars vars' : List String} {r qs : List Piece}
    {loops : Nat} (hnil : c ≠ .nil) (hall : ∀ d ∈ cs, d = .executable)
    (hstages : Stages depth vars qs vars') (hr : r.head?.map Piece.kind = some close) :
    ∃ classes, Rounds (PipelineStep depth context close) (c :: cs)
      (Place.pastBar ⟨qs ++ r, vars, loops⟩) classes ⟨r, vars', loops⟩ := by
  induction hlength : qs.length using Nat.strongRecOn generalizing vars qs cs with
  | ind length ih =>
    have hend : Rounds (PipelineStep depth context close) (c :: cs) ⟨r, vars', loops⟩ (c :: cs)
        ⟨r, vars', loops⟩ :=
      .last ⟨hr, (pipelineFault?_cons context c cs).mpr ⟨hnil, hall⟩, rfl, rfl⟩
    cases hstages with
    | nil =>
      have hnotBar : Place.kind? ⟨r, vars', loops⟩ ≠ some .pipe := by
        rw [Place.kind?, hr]
        rcases hclose with rfl | rfl
        · decide
        · decide
      rw [List.nil_append, Place.pastBar, if_neg hnotBar]
      exact ⟨_, hend⟩
    | @bar _ _ bar hbar =>
      have hbar' : Place.kind? ⟨[bar] ++ r, vars', loops⟩ = some .pipe := congrArg some hbar
      rw [Place.pastBar, if_pos hbar']
      exact ⟨_, hend⟩
    | @cons _ _ vars'' _ bar ps qs hbar hcommand hstages =>
      have hfewer : qs.length < length := by
        rw [← hlength, List.length_append, List.length_cons]
        omega
      have hall' : ∀ d ∈ cs ++ [.executable], d = .executable := by
        intro d hd
        rcases List.mem_append.mp hd with hd | hd
        · exact hall d hd
        · exact List.mem_singleton.mp hd
      have hbar' : Place.kind? ⟨bar :: ps ++ qs ++ r, vars, loops⟩ = some .pipe :=
        congrArg some hbar
      obtain ⟨classes, hrounds⟩ := ih _ hfewer hall' hstages rfl
      rw [Place.pastBar, if_pos hbar']
      refine ⟨classes, .more ⟨.executable, ps, ⟨qs ++ r, vars'', loops⟩, hcommand, ?_, rfl,
        endsCommand_of_stages hclose hstages hr, rfl, rfl⟩ hrounds⟩
      change ps ++ qs ++ r = ps ++ (qs ++ r)
      rw [List.append_assoc]

/-- A pipeline in front of the token that ends it. -/
def PipelineMeaning (depth : Nat) (inRange : Bool) (close : TokenKind) (v w : Place) : Prop :=
  ∃ ps, Pipeline depth inRange v.vars ps w.vars ∧ v.ahead = ps ++ w.ahead ∧
    w.kind? = some close ∧ w.loops = v.loops

/-- Behind a declaration, a first command and what follows it. -/
def CommandsMeaning (depth : Nat) (close : TokenKind) (v w : Place) : Prop :=
  ∃ (c : OperandClass) (ps qs : List Piece) (vars : List String),
    Command depth v.vars ps c vars ∧ c ≠ .nil ∧ Stages depth vars qs w.vars ∧
      v.ahead = ps ++ (qs ++ w.ahead) ∧ w.kind? = some close ∧ w.loops = v.loops

/-- The rounds of a pipeline are the rule for its commands. -/
theorem commandsMeaning_iff {context : Context} {close : TokenKind} (hclose : ClosesPipeline close)
    {v w : Place} :
    (∃ classes, Rounds (PipelineStep depth context close) [] v classes w) ↔
      CommandsMeaning depth close v w := by
  constructor
  · rintro ⟨classes, hrounds⟩
    cases hrounds with
    | last hstep =>
      obtain ⟨-, hfault, -, -⟩ := hstep
      exact absurd hfault (by simp [pipelineFault?])
    | more hstep hrounds =>
      obtain ⟨c, ps, u, hcommand, hahead, hloops, hends, rfl, rfl⟩ := hstep
      obtain ⟨hnil, -, hkind, hloops', hrest⟩ := stagesMeaning_of_rounds hrounds
      obtain ⟨qs, hstages, hqs⟩ := stages_of_pastBar hends hrest
      refine ⟨c, ps, qs, u.vars, hcommand, hnil, hstages, ?_, hkind, ?_⟩
      · rw [hahead, hqs]
      · rw [hloops', loops_pastBar, hloops]
  · rintro ⟨c, ps, qs, vars, hcommand, hnil, hstages, hahead, hkind, hloops⟩
    obtain ⟨ahead, vars', loops⟩ := w
    obtain rfl : loops = v.loops := hloops
    obtain ⟨classes, hrounds⟩ := rounds_of_stages hclose hnil (List.forall_mem_nil _) hstages hkind
    exact ⟨classes, .more ⟨c, ps, ⟨qs ++ ahead, vars, v.loops⟩, hcommand, hahead, rfl,
      endsCommand_of_stages hclose hstages hkind, rfl, rfl⟩ hrounds⟩

/-- No operand goes on with a declaration. -/
theorem not_continuesDecl_of_startsOperand {kind : TokenKind} (h : kind.startsOperand) :
    continuesDecl (some kind) = false := by
  by_cases hcontinues : continuesDecl (some kind)
  · rcases (continuesDecl_iff _).mp hcontinues with hcloses | hcomma
    · rw [closesDecl, Bool.or_eq_true, decide_eq_true_eq, decide_eq_true_eq] at hcloses
      rcases hcloses with hdeclare | hassign
      · rw [Option.some.inj hdeclare] at h
        exact absurd h (by decide)
      · rw [Option.some.inj hassign] at h
        exact absurd h (by decide)
    · rw [Option.some.inj hcomma] at h
      exact absurd h (by decide)
  · exact Bool.not_eq_true _ ▸ hcontinues

/-- Nothing that ends a command goes on with a declaration. -/
theorem not_continuesDecl_of_endsCommand {kind : Option TokenKind} (h : endsCommand kind) :
    continuesDecl kind = false := by
  unfold endsCommand at h
  split at h
  · rfl
  · rfl
  · rfl
  · exact absurd h Bool.false_ne_true

/-- No mark comes right behind the first token of an operand. -/
theorem not_continuesDecl_of_operand {vars vars' : List String} {ps r rest : List Piece}
    {c : OperandClass} {spaced : Bool} (hoperand : Operand depth vars ps c spaced vars')
    (hr : continuesDecl (r.head?.map Piece.kind) = false) {p : Piece}
    (happend : ps ++ r = p :: rest) (hp : p.kind = .variable) :
    continuesDecl (rest.head?.map Piece.kind) = false := by
  cases hoperand with
  | @atom _ _ q fs _ _ hatom hfields hclass =>
    obtain ⟨rfl, rfl⟩ := List.cons.inj happend
    generalize q.spaced = gap at hfields
    cases hfields with
    | nil => exact hr
    | cons hfield _ => exact not_continuesDecl_of_startsOperand (by rw [hfield]; rfl)
  | paren hleft _ _ _ =>
    obtain ⟨rfl, -⟩ := List.cons.inj happend
    rw [hleft] at hp
    exact absurd hp (by decide)

/-- A command does not start with a declaration. -/
theorem not_continuesDecl_of_command {vars vars' : List String} {ps r rest : List Piece}
    {c : OperandClass} (hcommand : Command depth vars ps c vars')
    (hr : continuesDecl (r.head?.map Piece.kind) = false) {p : Piece}
    (happend : ps ++ r = p :: rest) (hp : p.kind = .variable) :
    continuesDecl (rest.head?.map Piece.kind) = false := by
  cases hcommand with
  | last hoperand => exact not_continuesDecl_of_operand hoperand hr happend hp
  | more hoperand hcommand =>
    rw [List.append_assoc] at happend
    refine not_continuesDecl_of_operand hoperand ?_ happend hp
    obtain ⟨q, qs, rfl, hstart⟩ := startsOperand_of_command hcommand
    exact not_continuesDecl_of_startsOperand hstart

/-- A declaration with commands behind it is the rule for pipelines. -/
theorem pipelineMeaning_iff {inRange : Bool} {close : TokenKind} (hclose : ClosesPipeline close)
    {v w : Place} :
    (∃ u, DeclarationMeaning inRange v u ∧ CommandsMeaning depth close u w) ↔
      PipelineMeaning depth inRange close v w := by
  constructor
  · rintro ⟨u, hdeclaration, c, ps, qs, vars, hcommand, hnil, hstages, hahead, hkind, hloops⟩
    obtain ⟨p, r, rfl, hstart⟩ := startsOperand_of_command hcommand
    have hnext : u.kind? = some p.kind := by
      rw [Place.kind?, hahead]
      rfl
    have hdeclares : ∃ ds, Declares inRange v.vars (some p.kind) ds u.vars ∧
        v.ahead = ds ++ u.ahead ∧ u.loops = v.loops := by
      cases hdeclaration with
      | none _ => exact ⟨[], .none, rfl, rfl⟩
      | one hx hmark => exact ⟨_, .one hx (by simpa [closesDecl] using hmark), rfl, rfl⟩
      | two hrange hx hcomma hy hmark =>
        exact ⟨_, .two hrange hx hcomma hy (by simpa [closesDecl] using hmark), rfl, rfl⟩
      | index hrange hx hcomma hu hindex =>
        rw [hnext] at hindex
        have hkind : some p.kind = some .variable := by
          rcases hindex with ⟨hkind, -⟩ | hdelim | hparen
          · exact hkind
          · rw [Option.some.inj hdelim] at hstart
            exact absurd hstart (by decide)
          · rw [Option.some.inj hparen] at hstart
            exact absurd hstart (by decide)
        subst hu
        exact ⟨[_, _], .index hrange hx hcomma hkind, rfl, rfl⟩
    obtain ⟨ds, hdeclares, hds, hloops'⟩ := hdeclares
    refine ⟨ds ++ (p :: r) ++ qs, .mk hdeclares hcommand hnil hstages, ?_, hkind,
      hloops.trans hloops'⟩
    rw [hds, hahead]
    simp
  · rintro ⟨_, hrule, hahead, hkind, hloops⟩
    cases hrule with
    | @mk _ _ _ vars₁ vars₂ _ ds ps qs c hdeclares hcommand hnil hstages =>
      have hends := endsCommand_of_stages hclose hstages hkind
      have hafter : ∀ p rest, ps ++ (qs ++ w.ahead) = p :: rest → p.kind = .variable →
          continuesDecl (rest.head?.map Piece.kind) = false := fun p rest happend hp ↦
        not_continuesDecl_of_command hcommand (not_continuesDecl_of_endsCommand hends) happend hp
      refine ⟨⟨ps ++ (qs ++ w.ahead), vars₁, v.loops⟩, ?_, c, ps, qs, vars₂, hcommand, hnil,
        hstages,
        rfl, hkind, hloops⟩
      obtain ⟨ahead, vars, loops⟩ := v
      obtain rfl : ahead = ds ++ (ps ++ (qs ++ w.ahead)) := by
        rw [← List.append_assoc, ← List.append_assoc]
        exact hahead
      cases hdeclares with
      | none =>
        refine .none fun h ↦ ?_
        obtain ⟨hkind, hcontinues⟩ := h
        obtain ⟨p, rest, happend, hp⟩ := exists_cons_of_kind? hkind
        rw [Place.tail, happend] at hcontinues
        rw [Place.kind?, List.tail_cons, hafter p rest happend hp] at hcontinues
        exact Bool.noConfusion hcontinues
      | one hx hmark => exact .one hx (by simpa [closesDecl] using hmark)
      | two hrange hx hcomma hy hmark =>
        exact .two hrange hx hcomma hy (by simpa [closesDecl] using hmark)
      | index hrange hx hcomma hnext =>
        obtain ⟨p, r, rfl, -⟩ := startsOperand_of_command hcommand
        refine .index hrange hx hcomma rfl (.inl ⟨hnext, ?_⟩)
        exact hafter p (r ++ (qs ++ w.ahead)) rfl (Option.some.inj hnext)

/-- Where a pipeline goes on, it has taken a command. -/
theorem length_lt_of_pipelineStep {context : Context} {close : TokenKind}
    {classes cs : List OperandClass} {v w : Place}
    (h : PipelineStep depth context close classes v (true, cs) w) :
    w.ahead.length < v.ahead.length := by
  obtain ⟨c, ps, u, hcommand, hahead, -, -, -, rfl⟩ := h
  obtain ⟨p, r, rfl, -⟩ := startsOperand_of_command hcommand
  have hpast : u.pastBar.ahead.length ≤ u.ahead.length := by
    rw [Place.pastBar]
    split
    · rw [Place.tail, List.length_tail]
      exact Nat.sub_le _ _
    · exact Nat.le_refl _
  rw [hahead, List.length_append, List.length_cons]
  omega

include hinner in
/-- A pipeline is parsed as the rule says. -/
theorem means_pipeline (context : Context) {close : TokenKind} (hclose : ClosesPipeline close) :
    Means State.place State.place Anywhere (pipeline inner context close) fun v _ w ↦
      PipelineMeaning depth (context = .header .rangeBlock) close v w := by
  have hstep := fun classes ↦ means_pipelineStep hinner context hclose classes
  have hloop := Means.iterate hstep (fun _ _ _ _ ↦ trivial) (fun classes s cs _ h ↦
    takes_of_ahead ((hstep classes).grows s) (length_lt_of_pipelineStep h)) []
  rw [pipeline_eq]
  refine Means.unless_failed (grows_pure ()) (Means.node blind_place blind_place blind_anywhere
    rfl rfl (((means_declaration context).bind fun _ ↦ hloop.bind fun _ ↦ means_pure ()).congr
      fun v _ w ↦ ?_))
  rw [← pipelineMeaning_iff hclose]
  constructor
  · rintro ⟨_, u, hdeclaration, classes, _, hrounds, -, rfl⟩
    exact ⟨u, hdeclaration, (commandsMeaning_iff hclose).mp ⟨classes, hrounds⟩⟩
  · rintro ⟨u, hdeclaration, hcommands⟩
    obtain ⟨classes, hrounds⟩ := (commandsMeaning_iff hclose).mpr hcommands
    exact ⟨(), u, hdeclaration, classes, w, hrounds, rfl, rfl⟩

/-! ### Parentheses -/

/-- A pipeline in parentheses is parsed as the rule says, however deep they nest. -/
theorem means_parenthesized : ∀ depth : Nat,
    Means State.place State.place Anywhere (parenthesized depth) fun v _ w ↦
      InnerMeaning depth v w
  | 0 => (means_fail .tooDeep).congr fun v _ w ↦ by
    constructor
    · exact False.elim
    · rintro ⟨_, _, hdepth, -⟩
      exact absurd hdepth (by simp)
  | depth + 1 => ((means_pipeline (means_parenthesized depth) .parenthesized (.inr rfl)).inParens
    fun _ _ ↦ trivial).congr fun v _ w ↦ by
      constructor
      · rintro ⟨ps, hrule, hahead, hkind, hloops⟩
        exact ⟨depth, ps, rfl, hrule, hahead, hkind, hloops⟩
      · rintro ⟨_, ps, hdepth, hrule, hahead, hkind, hloops⟩
        obtain rfl := Nat.succ.inj hdepth
        exact ⟨ps, hrule, hahead, hkind, hloops⟩

/-- The pipeline of an action. -/
theorem means_actionPipeline (context : Context) :
    Means State.place State.place Anywhere (actionPipeline context) fun v _ w ↦
      PipelineMeaning maxDepth (context = .header .rangeBlock) .rightDelim v w :=
  means_pipeline (means_parenthesized maxDepth) context (.inl rfl)

end AlertAudit.Template.Parser
