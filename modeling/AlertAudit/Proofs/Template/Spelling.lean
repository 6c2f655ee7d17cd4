import AlertAudit.Proofs.Template.Grammar
import AlertAudit.Proofs.Template.Scoping

/-!
The grammar of templates once more, with the outline that each phrase has and without scopes: a
relation between pieces and outlines that follows the rules of the grammar one by one. What the
grammar asks of scopes is that the outline is well-scoped, so a template of the grammar is one that
spells a well-scoped outline (`template_iff_spells`). The items of a spelled outline are bare: they
have no spans of their own, while operands have the span from their first to their last piece.
-/

set_option autoImplicit false

namespace AlertAudit.Template

open AlertAudit.Text

/-- The place of a bare item. -/
def nowhere : Span := ⟨0, 0⟩

/-- From the first to the last of some pieces. -/
def extentOf (ps : List Piece) : Span :=
  ⟨(ps.head?.map (·.token.start)).getD 0, (ps.getLast?.map (·.token.stop)).getD 0⟩

/-- The tokens of some pieces. -/
def tokensOf (ps : List Piece) : List Token := ps.map (·.token)

/-- The fields among some pieces. -/
def fieldsOf (ps : List Piece) : List Token := (tokensOf ps).filter (·.kind = .field)

/-- What an operand of one token starts with. -/
def termOf (t : Token) : Term :=
  match t.kind with
  | .identifier => .function (some t)
  | .variable => .variable (some t)
  | .field => .field
  | .dot => .dot
  | _ => .literal (some t)

namespace Spelling

open AlertAudit.Template.Parser (OperandClass)
open Grammar (Atom Fields Opens Marks)

/-! ### Pipelines -/

/-- A declaration in front of a pipeline that starts with a token of the kind `next`. -/
inductive Declares (inRange : Bool) (next : Option TokenKind) :
    List Piece → Option Decl → Prop
  | none : Declares inRange next [] none
  | one {v mark : Piece} : v.kind = .variable → mark.kind = .declare ∨ mark.kind = .assign →
    Declares inRange next [v, mark] (some ⟨[v.token], mark.kind = .assign⟩)
  | two {v comma w mark : Piece} : inRange → v.kind = .variable → comma.kind = .comma →
    w.kind = .variable → mark.kind = .declare ∨ mark.kind = .assign →
    Declares inRange next [v, comma, w, mark] (some ⟨[v.token, w.token], mark.kind = .assign⟩)
  | index {v comma : Piece} : inRange → v.kind = .variable → comma.kind = .comma →
    next = some .variable → Declares inRange next [v, comma] (some ⟨[v.token], false⟩)

mutual

/-- An operand with its fields. Whether a variable is in scope is not asked here: an atom only has
to be one where its own name is. -/
inductive Operand : Nat → List Piece → OperandClass → Bool → Template.Operand → Prop
  | atom {depth : Nat} {p : Piece} {fs : List Piece} {c : OperandClass} {spaced : Bool} :
    Atom [p.text] p c → Fields p.spaced fs spaced → (fs ≠ [] → c = .executable) →
    Operand depth (p :: fs) c spaced
      (.mk (termOf p.token) (extentOf (p :: fs)) (fieldsOf (p :: fs)))
  | paren {depth : Nat} {left right : Piece} {ps fs : List Piece} {spaced : Bool}
    {pl : Template.Pipeline} : left.kind = .parenOpen → Pipeline depth false ps pl →
    right.kind = .parenClose → Fields right.spaced fs spaced →
    Operand (depth + 1) (left :: ps ++ right :: fs) .executable spaced
      (.mk (.paren (some pl)) (extentOf (left :: ps ++ right :: fs)) (fieldsOf fs))

/-- Operands separated by white space. -/
inductive Command : Nat → List Piece → OperandClass → List Template.Operand → Prop
  | last {depth : Nat} {ps : List Piece} {c : OperandClass} {spaced : Bool}
    {o : Template.Operand} : Operand depth ps c spaced o → Command depth ps c [o]
  | more {depth : Nat} {ps qs : List Piece} {c d : OperandClass} {o : Template.Operand}
    {os : List Template.Operand} : Operand depth ps c true o → Command depth qs d os →
    Command depth (ps ++ qs) c (o :: os)

/-- The commands behind the first one, and a last bar that may stand behind them. -/
inductive Stages : Nat → List Piece → List (List Template.Operand) → Prop
  | nil {depth : Nat} : Stages depth [] []
  | bar {depth : Nat} {bar : Piece} : bar.kind = .pipe → Stages depth [bar] []
  | cons {depth : Nat} {bar : Piece} {ps qs : List Piece} {os : List Template.Operand}
    {cs : List (List Template.Operand)} : bar.kind = .pipe → Command depth ps .executable os →
    Stages depth qs cs → Stages depth (bar :: ps ++ qs) (os :: cs)

/-- A pipeline, which may be the header of a loop. -/
inductive Pipeline : Nat → Bool → List Piece → Template.Pipeline → Prop
  | mk {depth : Nat} {inRange : Bool} {ds ps qs : List Piece} {c : OperandClass}
    {decl : Option Decl} {os : List Template.Operand} {cs : List (List Template.Operand)} :
    Declares inRange (ps.head?.map Piece.kind) ds decl → Command depth ps c os → c ≠ .nil →
    Stages depth qs cs → Pipeline depth inRange (ds ++ ps ++ qs) (.mk decl (os :: cs))

end

/-- The pipeline of an action. -/
abbrev Header (inRange : Bool) (ps : List Piece) (pl : Template.Pipeline) : Prop :=
  Pipeline Parser.maxDepth inRange ps pl

/-! ### Items -/

mutual

/-- An item and what it leaves in the outline: text, comments and the actions that leave or repeat
a loop leave nothing. -/
inductive Item : Bool → List Piece → List Template.Item → Prop
  | text {inLoop : Bool} {p : Piece} : p.kind = .text → Item inLoop [p] []
  | comment {inLoop : Bool} {p : Piece} : p.kind = .comment → Item inLoop [p] []
  | action {inLoop : Bool} {left right : Piece} {ps : List Piece} {pl : Template.Pipeline} :
    left.kind = .leftDelim → Header false ps pl → right.kind = .rightDelim →
    Item inLoop (left :: ps ++ [right]) [.action nowhere (some pl)]
  | guarded {inLoop : Bool} {kind : Control} {start ps : List Piece} {i : Template.Item} :
    Opens kind.word start → Guarded inLoop kind ps i → Item inLoop (start ++ ps) [i]
  | block {inLoop : Bool} {start ps qs close : List Piece} {name right : Piece}
    {pl : Template.Pipeline} {is : List Template.Item} : Opens .blockWord start → name.Names →
    Header false ps pl → right.kind = .rightDelim → Items false qs is → Marks .endWord close →
    Item inLoop (start ++ name :: ps ++ right :: qs ++ close)
      [.block nowhere (Literal.unquote name.text) (some pl) (.items is)]
  | call {inLoop : Bool} {start : List Piece} {name right : Piece} : Opens .templateWord start →
    name.Names → right.kind = .rightDelim →
    Item inLoop (start ++ [name, right]) [.call nowhere (Literal.unquote name.text) none]
  | callWith {inLoop : Bool} {start ps : List Piece} {name right : Piece}
    {pl : Template.Pipeline} : Opens .templateWord start → name.Names → Header false ps pl →
    right.kind = .rightDelim → Item inLoop (start ++ name :: ps ++ [right])
      [.call nowhere (Literal.unquote name.text) (some pl)]
  | breaks {ps : List Piece} : Marks .breakWord ps → Item true ps []
  | continues {ps : List Piece} : Marks .continueWord ps → Item true ps []

/-- What follows the word of a condition, of a binding or of a loop. -/
inductive Guarded : Bool → Control → List Piece → Template.Item → Prop
  | mk {inLoop : Bool} {kind : Control} {right : Piece} {ps qs rs : List Piece}
    {pl : Template.Pipeline} {is : List Template.Item} {o : Template.Otherwise} :
    Header (kind = .rangeBlock) ps pl → right.kind = .rightDelim →
    Items (inLoop || kind = .rangeBlock) qs is → Tail inLoop kind rs o →
    Guarded inLoop kind (ps ++ right :: qs ++ rs)
      (.control kind nowhere (some pl) (.items is) o)

/-- The end of a block, with the else branch in front of it. -/
inductive Tail : Bool → Control → List Piece → Template.Otherwise → Prop
  | close {inLoop : Bool} {kind : Control} {close : List Piece} : Marks .endWord close →
    Tail inLoop kind close .none
  | otherwise {inLoop : Bool} {kind : Control} {start ps close : List Piece}
    {is : List Template.Item} : Marks .elseWord start → Items inLoop ps is →
    Marks .endWord close → Tail inLoop kind (start ++ ps ++ close) (.body (.items is))
  | chained {inLoop : Bool} {kind : Control} {start ps : List Piece} {w : Piece}
    {i : Template.Item} : kind ≠ .rangeBlock → Opens .elseWord start →
    w.kind = .keyword kind.word → Guarded inLoop kind ps i →
    Tail inLoop kind (start ++ w :: ps) (.nested i)

/-- Items one after the other. -/
inductive Items : Bool → List Piece → List Template.Item → Prop
  | nil {inLoop : Bool} : Items inLoop [] []
  | cons {inLoop : Bool} {ps qs : List Piece} {is js : List Template.Item} :
    Item inLoop ps is → Items inLoop qs js → Items inLoop (ps ++ qs) (is ++ js)

end

/-- The definition of a template. -/
inductive Definition : List Piece → Template.Item → Prop
  | mk {start ps close : List Piece} {name right : Piece} {is : List Template.Item} :
    Opens .defineWord start → name.Names → right.kind = .rightDelim → Items false ps is →
    Marks .endWord close → Definition (start ++ name :: right :: ps ++ close)
      (.define nowhere (Literal.unquote name.text) (.items is))

/-- Definitions and items. -/
inductive Root : List Piece → List Template.Item → Prop
  | nil : Root [] []
  | definition {ps qs : List Piece} {i : Template.Item} {is : List Template.Item} :
    Definition ps i → Root qs is → Root (ps ++ qs) (i :: is)
  | item {ps qs : List Piece} {is js : List Template.Item} : Item false ps is →
    Root qs js → Root (ps ++ qs) (is ++ js)

/-- What holds of no items and of one more item in front holds of items one after the other. The
rules of an item are part of the same definition, so the induction is this one. -/
theorem Items.list_induction {inLoop : Bool}
    {P : ∀ ps is, Items inLoop ps is → Prop} (nil : P [] [] .nil)
    (cons : ∀ {ps qs is js} (hitem : Item inLoop ps is) (hitems : Items inLoop qs js),
      P qs js hitems → P (ps ++ qs) (is ++ js) (.cons hitem hitems)) {ps : List Piece}
    {is : List Template.Item} : ∀ h : Items inLoop ps is, P ps is h
  | .nil => nil
  | .cons hitem hitems => cons hitem hitems (hitems.list_induction nil cons)

/-! ### Scopes -/

/-- An operand of one token declares nothing. -/
theorem varsAfter_atom (t : Token) (span : Span) (fields : List Token) (vars : List String) :
    (Template.Operand.mk (termOf t) span fields).varsAfter vars = vars := by
  unfold termOf
  split <;> simp only [Operand.varsAfter]

/-- It is visited if it is a variable. -/
theorem visits_atom (t : Token) (span : Span) (fields : List Token) (vars : List String) :
    (Template.Operand.mk (termOf t) span fields).visits vars =
      if t.kind = .variable then [⟨t, vars⟩] else [] := by
  unfold termOf
  split
  all_goals simp_all [Operand.visits]

/-- An atom of a scope is one where its own name is in scope, and a variable is in scope. -/
theorem atom_iff {vars : List String} {p : Piece} {c : OperandClass} :
    Atom vars p c ↔ Atom [p.text] p c ∧
      WellScoped (if p.kind = .variable then [⟨p.token, vars⟩] else []) := by
  have hother (h : p.kind ≠ .variable) :
      WellScoped (if p.kind = .variable then [⟨p.token, vars⟩] else []) := by
    rw [if_neg h]
    exact wellScoped_nil
  constructor
  · intro h
    cases h with
    | inScope hkind hmem =>
      refine ⟨.inScope hkind List.mem_cons_self, ?_⟩
      rw [if_pos hkind]
      exact wellScoped_singleton.mpr hmem
    | function hkind hdefined =>
      exact ⟨.function hkind hdefined, hother (by simp [hkind])⟩
    | field hkind => exact ⟨.field hkind, hother (by simp [hkind])⟩
    | dot hkind => exact ⟨.dot hkind, hother (by simp [hkind])⟩
    | nil hkind => exact ⟨.nil hkind, hother (by simp [hkind])⟩
    | bool hkind => exact ⟨.bool hkind, hother (by simp [hkind])⟩
    | char hkind hconstant => exact ⟨.char hkind hconstant, hother (by simp [hkind])⟩
    | number hkind => exact ⟨.number hkind, hother (by simp [hkind])⟩
    | string hkind hquoted =>
      exact ⟨.string hkind hquoted, hother (by rcases hkind with h | h <;> simp [h])⟩
  · rintro ⟨h, hscoped⟩
    cases h with
    | inScope hkind _ =>
      rw [if_pos hkind] at hscoped
      exact .inScope hkind (wellScoped_singleton.mp hscoped)
    | function hkind hdefined => exact .function hkind hdefined
    | field hkind => exact .field hkind
    | dot hkind => exact .dot hkind
    | nil hkind => exact .nil hkind
    | bool hkind => exact .bool hkind
    | char hkind hconstant => exact .char hkind hconstant
    | number hkind => exact .number hkind
    | string hkind hquoted => exact .string hkind hquoted

/-- A declaration of the grammar is one that is spelled, and it brings its own variables into scope.
-/
theorem declares_iff {inRange : Bool} {vars vars' : List String} {next : Option TokenKind}
    {ps : List Piece} : Grammar.Declares inRange vars next ps vars' ↔
      ∃ decl, Declares inRange next ps decl ∧ vars' = Decl.enter decl vars := by
  constructor
  · intro h
    cases h with
    | none => exact ⟨_, .none, rfl⟩
    | one hv hmark => exact ⟨_, .one hv hmark, rfl⟩
    | two hrange hv hcomma hw hmark => exact ⟨_, .two hrange hv hcomma hw hmark, rfl⟩
    | index hrange hv hcomma hnext => exact ⟨_, .index hrange hv hcomma hnext, rfl⟩
  · rintro ⟨decl, h, rfl⟩
    cases h with
    | none => exact .none
    | one hv hmark => exact .one hv hmark
    | two hrange hv hcomma hw hmark => exact .two hrange hv hcomma hw hmark
    | index hrange hv hcomma hnext => exact .index hrange hv hcomma hnext

/-! ### What the grammar accepts is spelled -/

mutual

/-- An operand of the grammar spells one that is well-scoped. -/
theorem exists_operand {depth : Nat} {vars vars' : List String} {ps : List Piece}
    {c : OperandClass} {spaced : Bool} : Grammar.Operand depth vars ps c spaced vars' →
      ∃ o, Operand depth ps c spaced o ∧ o.varsAfter vars = vars' ∧ WellScoped (o.visits vars)
  | .atom hatom hfields hclass => by
    obtain ⟨hatom, hscoped⟩ := atom_iff.mp hatom
    refine ⟨_, .atom hatom hfields hclass, varsAfter_atom _ _ _ _, ?_⟩
    rw [visits_atom]
    exact hscoped
  | .paren hleft hpipeline hright hfields => by
    obtain ⟨pl, hspells, hvars, hscoped⟩ := exists_pipeline hpipeline
    refine ⟨_, .paren hleft hspells hright hfields, ?_, ?_⟩
    · rw [Operand.varsAfter, hvars]
    · rw [Operand.visits]
      exact hscoped

/-- So does a command. -/
theorem exists_command {depth : Nat} {vars vars' : List String} {ps : List Piece}
    {c : OperandClass} : Grammar.Command depth vars ps c vars' →
      ∃ os, Command depth ps c os ∧ operandsVarsAfter os vars = vars' ∧
        WellScoped (operandsVisits os vars)
  | .last hoperand => by
    obtain ⟨o, hspells, hvars, hscoped⟩ := exists_operand hoperand
    refine ⟨_, .last hspells, ?_, ?_⟩
    · rw [operandsVarsAfter, hvars, operandsVarsAfter]
    · rw [operandsVisits, operandsVisits, List.append_nil]
      exact hscoped
  | .more hoperand hcommand => by
    obtain ⟨o, hspells, hmid, hscoped⟩ := exists_operand hoperand
    obtain ⟨os, hspells', hvars, hscoped'⟩ := exists_command hcommand
    subst hmid
    refine ⟨_, .more hspells hspells', ?_, ?_⟩
    · rw [operandsVarsAfter, hvars]
    · rw [operandsVisits]
      exact wellScoped_append.mpr ⟨hscoped, hscoped'⟩

/-- So do the commands behind the first one. -/
theorem exists_stages {depth : Nat} {vars vars' : List String} {ps : List Piece} :
    Grammar.Stages depth vars ps vars' →
      ∃ cs, Stages depth ps cs ∧ commandsVarsAfter cs vars = vars' ∧
        WellScoped (commandsVisits cs vars)
  | .nil => ⟨[], .nil, by rw [commandsVarsAfter], by rw [commandsVisits]; exact wellScoped_nil⟩
  | .bar hbar =>
    ⟨[], .bar hbar, by rw [commandsVarsAfter], by rw [commandsVisits]; exact wellScoped_nil⟩
  | .cons hbar hcommand hstages => by
    obtain ⟨os, hspells, hmid, hscoped⟩ := exists_command hcommand
    obtain ⟨cs, hspells', hvars, hscoped'⟩ := exists_stages hstages
    subst hmid
    refine ⟨_, .cons hbar hspells hspells', ?_, ?_⟩
    · rw [commandsVarsAfter, hvars]
    · rw [commandsVisits]
      exact wellScoped_append.mpr ⟨hscoped, hscoped'⟩

/-- So does a pipeline. -/
theorem exists_pipeline {depth : Nat} {inRange : Bool} {vars vars' : List String}
    {ps : List Piece} : Grammar.Pipeline depth inRange vars ps vars' →
      ∃ pl, Pipeline depth inRange ps pl ∧ pl.varsAfter vars = vars' ∧
        WellScoped (pl.visits vars)
  | .mk hdeclares hcommand hnil hstages => by
    obtain ⟨os, hspells, hmid, hscoped⟩ := exists_command hcommand
    obtain ⟨cs, hspells', hvars, hscoped'⟩ := exists_stages hstages
    obtain ⟨decl, hdecl, hentered⟩ := declares_iff.mp hdeclares
    subst hmid hentered
    refine ⟨_, .mk hdecl hspells hnil hspells', ?_, ?_⟩
    · rw [Pipeline.varsAfter, commandsVarsAfter, hvars]
    · rw [Pipeline.visits, commandsVisits]
      exact wellScoped_append.mpr ⟨hscoped, hscoped'⟩

end

mutual

/-- An item of the grammar spells well-scoped ones. -/
theorem exists_item {inLoop : Bool} {vars vars' : List String} {ps : List Piece} :
    Grammar.Item inLoop vars ps vars' →
      ∃ is, Item inLoop ps is ∧ itemsVarsAfter is vars = vars' ∧ WellScoped (itemsVisits is vars)
  | .text hkind => ⟨[], .text hkind, rfl, wellScoped_nil⟩
  | .comment hkind => ⟨[], .comment hkind, rfl, wellScoped_nil⟩
  | .action hleft hheader hright => by
    obtain ⟨pl, hspells, hvars, hscoped⟩ := exists_pipeline hheader
    refine ⟨_, .action hleft hspells hright, hvars, ?_⟩
    rw [itemsVisits, itemsVisits, List.append_nil]
    exact hscoped
  | .guarded hopens hguarded => by
    obtain ⟨i, hspells, hvars, hscoped⟩ := exists_guarded hguarded
    refine ⟨_, .guarded hopens hspells, hvars, ?_⟩
    rw [itemsVisits, itemsVisits, List.append_nil]
    exact hscoped
  | .block hopens hnames hheader hright hitems hmarks => by
    obtain ⟨pl, hspells, hvars, hscoped⟩ := exists_pipeline hheader
    obtain ⟨is, hspells', -, hscoped'⟩ := exists_items hitems
    refine ⟨_, .block hopens hnames hspells hright hspells' hmarks, hvars, ?_⟩
    rw [itemsVisits, itemsVisits, List.append_nil, Item.visits, Body.visits]
    exact wellScoped_append.mpr ⟨hscoped, hscoped'⟩
  | .call hopens hnames hright => ⟨_, .call hopens hnames hright, rfl, by
    rw [itemsVisits, itemsVisits, List.append_nil]
    exact wellScoped_nil⟩
  | .callWith hopens hnames hheader hright => by
    obtain ⟨pl, hspells, hvars, hscoped⟩ := exists_pipeline hheader
    refine ⟨_, .callWith hopens hnames hspells hright, hvars, ?_⟩
    rw [itemsVisits, itemsVisits, List.append_nil]
    exact hscoped
  | .breaks hmarks => ⟨[], .breaks hmarks, rfl, wellScoped_nil⟩
  | .continues hmarks => ⟨[], .continues hmarks, rfl, wellScoped_nil⟩

/-- What follows the word of a block spells a well-scoped block, which leaves the scope as it was.
-/
theorem exists_guarded {inLoop : Bool} {kind : Control} {vars : List String}
    {ps : List Piece} : Grammar.Guarded inLoop kind vars ps →
      ∃ i, Guarded inLoop kind ps i ∧ i.varsAfter vars = vars ∧ WellScoped (i.visits vars)
  | .mk hheader hright hitems htail => by
    obtain ⟨pl, hspells, hentered, hscoped⟩ := exists_pipeline hheader
    obtain ⟨is, hspells', hmid, hscoped'⟩ := exists_items hitems
    obtain ⟨o, hspells'', hscoped''⟩ := exists_tail htail
    subst hmid hentered
    refine ⟨_, .mk hspells hright hspells' hspells'', rfl, ?_⟩
    rw [Item.visits, Body.visits, Body.varsAfter]
    exact wellScoped_append.mpr ⟨wellScoped_append.mpr ⟨hscoped, hscoped'⟩, hscoped''⟩

/-- What follows the list of a block spells a well-scoped end of it. -/
theorem exists_tail {inLoop : Bool} {kind : Control} {vars : List String} {ps : List Piece} :
    Grammar.Tail inLoop kind vars ps →
      ∃ o, Tail inLoop kind ps o ∧ WellScoped (o.visits vars)
  | .close hmarks => ⟨_, .close hmarks, by rw [Otherwise.visits]; exact wellScoped_nil⟩
  | .otherwise hmarks hitems hclose => by
    obtain ⟨is, hspells, -, hscoped⟩ := exists_items hitems
    refine ⟨_, .otherwise hmarks hspells hclose, ?_⟩
    rw [Otherwise.visits, Body.visits]
    exact hscoped
  | .chained hkind hopens hw hguarded => by
    obtain ⟨i, hspells, -, hscoped⟩ := exists_guarded hguarded
    refine ⟨_, .chained hkind hopens hw hspells, ?_⟩
    rw [Otherwise.visits]
    exact hscoped

/-- Items of the grammar spell well-scoped ones. -/
theorem exists_items {inLoop : Bool} {vars vars' : List String} {ps : List Piece} :
    Grammar.Items inLoop vars ps vars' →
      ∃ is, Items inLoop ps is ∧ itemsVarsAfter is vars = vars' ∧
        WellScoped (itemsVisits is vars)
  | .nil => ⟨[], .nil, rfl, wellScoped_nil⟩
  | .cons hitem hitems => by
    obtain ⟨is, hspells, hmid, hscoped⟩ := exists_item hitem
    obtain ⟨js, hspells', hvars, hscoped'⟩ := exists_items hitems
    subst hmid hvars
    refine ⟨_, .cons hspells hspells', itemsVarsAfter_append _ _ _, ?_⟩
    rw [itemsVisits_append]
    exact wellScoped_append.mpr ⟨hscoped, hscoped'⟩

end

/-- A definition spells one that is well-scoped, whatever is in scope around it. -/
theorem exists_definition {ps : List Piece} (h : Grammar.Definition ps) :
    ∃ i, Definition ps i ∧ ∀ vars, WellScoped (i.visits vars) := by
  cases h with
  | mk hopens hnames hright hitems hclose =>
    obtain ⟨is, hspells, -, hscoped⟩ := exists_items hitems
    refine ⟨_, .mk hopens hnames hright hspells hclose, fun vars ↦ ?_⟩
    rw [Item.visits, Body.visits]
    exact hscoped

/-! ### What is spelled and well-scoped follows the grammar -/

mutual

/-- An operand that is spelled and well-scoped is one of the grammar. -/
theorem Operand.grammar {depth : Nat} {vars : List String} {ps : List Piece}
    {c : OperandClass} {spaced : Bool} {o : Template.Operand} :
    Operand depth ps c spaced o → WellScoped (o.visits vars) →
      Grammar.Operand depth vars ps c spaced (o.varsAfter vars)
  | .atom hatom hfields hclass, hscoped => by
    rw [visits_atom] at hscoped
    rw [varsAfter_atom]
    exact .atom (atom_iff.mpr ⟨hatom, hscoped⟩) hfields hclass
  | .paren hleft hpipeline hright hfields, hscoped => by
    rw [Operand.visits] at hscoped
    rw [Operand.varsAfter]
    exact .paren hleft (hpipeline.grammar hscoped) hright hfields

/-- So is a command. -/
theorem Command.grammar {depth : Nat} {vars : List String} {ps : List Piece}
    {c : OperandClass} {os : List Template.Operand} :
    Command depth ps c os → WellScoped (operandsVisits os vars) →
      Grammar.Command depth vars ps c (operandsVarsAfter os vars)
  | .last hoperand, hscoped => by
    rw [operandsVisits, operandsVisits, List.append_nil] at hscoped
    rw [operandsVarsAfter, operandsVarsAfter]
    exact .last (hoperand.grammar hscoped)
  | .more hoperand hcommand, hscoped => by
    rw [operandsVisits, wellScoped_append] at hscoped
    rw [operandsVarsAfter]
    exact .more (hoperand.grammar hscoped.1) (hcommand.grammar hscoped.2)

/-- So are the commands behind the first one. -/
theorem Stages.grammar {depth : Nat} {vars : List String} {ps : List Piece}
    {cs : List (List Template.Operand)} :
    Stages depth ps cs → WellScoped (commandsVisits cs vars) →
      Grammar.Stages depth vars ps (commandsVarsAfter cs vars)
  | .nil, _ => by
    rw [commandsVarsAfter]
    exact .nil
  | .bar hbar, _ => by
    rw [commandsVarsAfter]
    exact .bar hbar
  | .cons hbar hcommand hstages, hscoped => by
    rw [commandsVisits, wellScoped_append] at hscoped
    rw [commandsVarsAfter]
    exact .cons hbar (hcommand.grammar hscoped.1) (hstages.grammar hscoped.2)

/-- So is a pipeline. -/
theorem Pipeline.grammar {depth : Nat} {inRange : Bool} {vars : List String} {ps : List Piece}
    {pl : Template.Pipeline} : Pipeline depth inRange ps pl → WellScoped (pl.visits vars) →
      Grammar.Pipeline depth inRange vars ps (pl.varsAfter vars)
  | .mk hdeclares hcommand hnil hstages, hscoped => by
    rw [Pipeline.visits, commandsVisits, wellScoped_append] at hscoped
    rw [Pipeline.varsAfter, commandsVarsAfter]
    exact .mk (declares_iff.mpr ⟨_, hdeclares, rfl⟩) (hcommand.grammar hscoped.1) hnil
      (hstages.grammar hscoped.2)

end

mutual

/-- So is an item. -/
theorem Item.grammar {inLoop : Bool} {vars : List String} {ps : List Piece}
    {is : List Template.Item} : Item inLoop ps is → WellScoped (itemsVisits is vars) →
      Grammar.Item inLoop vars ps (itemsVarsAfter is vars)
  | .text hkind, _ => .text hkind
  | .comment hkind, _ => .comment hkind
  | .action hleft hheader hright, hscoped => by
    rw [itemsVisits, itemsVisits, List.append_nil] at hscoped
    exact .action hleft (hheader.grammar hscoped) hright
  | .guarded hopens hguarded, hscoped => by
    rw [itemsVisits, itemsVisits, List.append_nil] at hscoped
    have hsame := hguarded.varsAfter vars
    rw [itemsVarsAfter, itemsVarsAfter, hsame]
    exact .guarded hopens (hguarded.grammar hscoped)
  | .block hopens hnames hheader hright hitems hmarks, hscoped => by
    rw [itemsVisits, itemsVisits, List.append_nil, Item.visits, Body.visits,
      wellScoped_append] at hscoped
    exact .block hopens hnames (hheader.grammar hscoped.1) hright (hitems.grammar hscoped.2) hmarks
  | .call hopens hnames hright, _ => .call hopens hnames hright
  | .callWith hopens hnames hheader hright, hscoped => by
    rw [itemsVisits, itemsVisits, List.append_nil] at hscoped
    exact .callWith hopens hnames (hheader.grammar hscoped) hright
  | .breaks hmarks, _ => .breaks hmarks
  | .continues hmarks, _ => .continues hmarks

/-- A block leaves the scope as it was. -/
theorem Guarded.varsAfter {inLoop : Bool} {kind : Control} (vars : List String)
    {ps : List Piece} {i : Template.Item} : Guarded inLoop kind ps i → i.varsAfter vars = vars
  | .mk _ _ _ _ => rfl

/-- What follows the word of a block is of the grammar if the block is well-scoped. -/
theorem Guarded.grammar {inLoop : Bool} {kind : Control} {vars : List String} {ps : List Piece}
    {i : Template.Item} : Guarded inLoop kind ps i → WellScoped (i.visits vars) →
      Grammar.Guarded inLoop kind vars ps
  | .mk hheader hright hitems htail, hscoped => by
    rw [Item.visits, Body.visits, Body.varsAfter, wellScoped_append, wellScoped_append] at hscoped
    exact .mk (hheader.grammar hscoped.1.1) hright (hitems.grammar hscoped.1.2)
      (htail.grammar hscoped.2)

/-- So is what follows its list. -/
theorem Tail.grammar {inLoop : Bool} {kind : Control} {vars : List String} {ps : List Piece}
    {o : Template.Otherwise} : Tail inLoop kind ps o → WellScoped (o.visits vars) →
      Grammar.Tail inLoop kind vars ps
  | .close hmarks, _ => .close hmarks
  | .otherwise hmarks hitems hclose, hscoped => by
    rw [Otherwise.visits, Body.visits] at hscoped
    exact .otherwise hmarks (hitems.grammar hscoped) hclose
  | .chained hkind hopens hw hguarded, hscoped => by
    rw [Otherwise.visits] at hscoped
    exact .chained hkind hopens hw (hguarded.grammar hscoped)

/-- Items that are spelled and well-scoped are those of the grammar. -/
theorem Items.grammar {inLoop : Bool} {vars : List String} {ps : List Piece}
    {is : List Template.Item} : Items inLoop ps is → WellScoped (itemsVisits is vars) →
      Grammar.Items inLoop vars ps (itemsVarsAfter is vars)
  | .nil, _ => .nil
  | .cons hitem hitems, hscoped => by
    rw [itemsVisits_append, wellScoped_append] at hscoped
    rw [itemsVarsAfter_append]
    exact .cons (hitem.grammar hscoped.1) (hitems.grammar hscoped.2)

end

/-- So is the definition of a template. -/
theorem Definition.grammar {ps : List Piece} {i : Template.Item} {vars : List String}
    (h : Definition ps i) (hscoped : WellScoped (i.visits vars)) : Grammar.Definition ps := by
  cases h with
  | mk hopens hnames hright hitems hclose =>
    rw [Item.visits, Body.visits] at hscoped
    exact .mk hopens hnames hright (hitems.grammar hscoped) hclose

/-- A definition leaves the scope as it was. -/
theorem Definition.varsAfter {ps : List Piece} {i : Template.Item} (h : Definition ps i)
    (vars : List String) : i.varsAfter vars = vars := by
  cases h with
  | mk _ _ _ _ _ => rfl

/-- The templates of the grammar are those that spell a well-scoped outline. -/
theorem template_iff_spells {vars : List String} {ps : List Piece} :
    Grammar.Root vars ps ↔ ∃ is, Root ps is ∧ WellScoped (itemsVisits is vars) := by
  constructor
  · intro h
    induction h with
    | nil => exact ⟨[], .nil, wellScoped_nil⟩
    | definition hdefinition _ ih =>
      obtain ⟨i, hspells, hscoped⟩ := exists_definition hdefinition
      obtain ⟨is, hspells', hscoped'⟩ := ih
      refine ⟨_, .definition hspells hspells', ?_⟩
      rw [itemsVisits, hspells.varsAfter]
      exact wellScoped_append.mpr ⟨hscoped _, hscoped'⟩
    | item hitem _ ih =>
      obtain ⟨is, hspells, rfl, hscoped⟩ := exists_item hitem
      obtain ⟨js, hspells', hscoped'⟩ := ih
      refine ⟨_, .item hspells hspells', ?_⟩
      rw [itemsVisits_append]
      exact wellScoped_append.mpr ⟨hscoped, hscoped'⟩
  · rintro ⟨is, h, hscoped⟩
    induction h generalizing vars with
    | nil => exact .nil
    | definition hdefinition _ ih =>
      rw [itemsVisits, hdefinition.varsAfter, wellScoped_append] at hscoped
      exact .definition (hdefinition.grammar hscoped.1) (ih hscoped.2)
    | item hitem _ ih =>
      rw [itemsVisits_append, wellScoped_append] at hscoped
      exact .item (hitem.grammar hscoped.1) (ih hscoped.2)

end Spelling

end AlertAudit.Template
