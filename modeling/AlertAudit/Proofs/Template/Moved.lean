import AlertAudit.Proofs.Template.Spelling
import AlertAudit.Proofs.Text.Span

/-!
Templates further on in a text. If text is put in front of a template, its tokens move by the bytes
of that text, and so does everything in its outline that has a place. Moved pieces spell the moved
outline (`Spelling.template_moved`), in which the same variables are in scope (`itemsVisits_moved`).
-/

set_option autoImplicit false

namespace AlertAudit.Template

open AlertAudit.Text

/-! ### Tokens -/

/-- The token with `n` bytes put in front of the text. -/
def Token.moved (n : Nat) (t : Token) : Token := { t with start := t.start + n }

/-- A token that is moved stops further on. -/
theorem Token.stop_moved (n : Nat) (t : Token) : (t.moved n).stop = t.stop + n :=
  Nat.add_right_comm _ _ _

theorem Token.span_moved (n : Nat) (t : Token) : (t.moved n).span = t.span.moved n := by
  rw [span, stop_moved]
  rfl

/-- The piece with `n` bytes put in front of the text. -/
def Piece.moved (n : Nat) (p : Piece) : Piece := ⟨p.token.moved n, p.spaced⟩

/-- Tokens that start further on are moved. -/
theorem place_moved (n start : Nat) (lexemes : List Lexeme) :
    Token.place (start + n) lexemes = (Token.place start lexemes).map (·.moved n) := by
  induction lexemes generalizing start with
  | nil => rfl
  | cons l ls ih =>
    rw [Token.place, Token.place, List.map_cons, ← ih, ← Token.stop_moved]
    rfl

/-- The pieces of moved tokens are moved. -/
theorem pieces_moved (n : Nat) (ts : List Token) :
    pieces (ts.map (·.moved n)) = (pieces ts).map (·.moved n) := by
  induction ts with
  | nil => rfl
  | cons t ts ih =>
    have hspaced : (ts.map (·.moved n)).head?.any (·.isTrivia) = ts.head?.any (·.isTrivia) := by
      cases ts <;> rfl
    have htrivia : (t.moved n).isTrivia = t.isTrivia := rfl
    rw [List.map_cons, pieces, pieces, htrivia, hspaced, ih]
    split <;> rfl

/-! ### Outlines -/

/-- The declaration with `n` bytes put in front of the text. -/
def Decl.moved (n : Nat) (d : Decl) : Decl := ⟨d.names.map (·.moved n), d.isAssign⟩

mutual

/-- The term with `n` bytes put in front of the text. -/
def Term.moved (n : Nat) : Term → Term
  | .dot => .dot
  | .field => .field
  | .variable name => .variable (name.map (·.moved n))
  | .function name => .function (name.map (·.moved n))
  | .literal token => .literal (token.map (·.moved n))
  | .paren none => .paren none
  | .paren (some p) => .paren (some (p.moved n))

/-- The operand with `n` bytes put in front of the text. -/
def Operand.moved (n : Nat) : Operand → Operand
  | .mk term span fields => .mk (term.moved n) (span.moved n) (fields.map (·.moved n))

def operandsMoved (n : Nat) : List Operand → List Operand
  | [] => []
  | o :: os => o.moved n :: operandsMoved n os

def commandsMoved (n : Nat) : List (List Operand) → List (List Operand)
  | [] => []
  | c :: cs => operandsMoved n c :: commandsMoved n cs

/-- The pipeline with `n` bytes put in front of the text. -/
def Pipeline.moved (n : Nat) : Pipeline → Pipeline
  | .mk decl cs => .mk (decl.map (·.moved n)) (commandsMoved n cs)

end

mutual

/-- The item with its pipelines moved. Nothing depends on the span of an item, so it stays. -/
def Item.moved (n : Nat) : Item → Item
  | .action span p => .action span (p.map (·.moved n))
  | .control kind span p b o => .control kind span (p.map (·.moved n)) (b.moved n) (o.moved n)
  | .define span name b => .define span name (b.moved n)
  | .block span name p b => .block span name (p.map (·.moved n)) (b.moved n)
  | .call span name p => .call span name (p.map (·.moved n))

def Body.moved (n : Nat) : Body → Body
  | .missing => .missing
  | .items is => .items (itemsMoved n is)

def itemsMoved (n : Nat) : List Item → List Item
  | [] => []
  | i :: is => i.moved n :: itemsMoved n is

def Otherwise.moved (n : Nat) : Otherwise → Otherwise
  | .none => .none
  | .nested i => .nested (i.moved n)
  | .body b => .body (b.moved n)

end

/-- Items are moved one by one. -/
theorem itemsMoved_append (n : Nat) (is js : List Item) :
    itemsMoved n (is ++ js) = itemsMoved n is ++ itemsMoved n js := by
  induction is with
  | nil => rfl
  | cons i is ih => rw [List.cons_append, itemsMoved, itemsMoved, ih, List.cons_append]

mutual

theorem Term.moved_zero : ∀ t : Term, t.moved 0 = t
  | .dot | .field => by rw [Term.moved]
  | .variable name | .function name | .literal name => by
    rw [Term.moved]
    exact congrArg _ (congrFun Option.map_id name)
  | .paren none => by rw [Term.moved]
  | .paren (some p) => by rw [Term.moved, p.moved_zero]

theorem Operand.moved_zero : ∀ o : Operand, o.moved 0 = o
  | .mk term span fields => by
    rw [Operand.moved, term.moved_zero]
    exact congrArg (Operand.mk term span) (List.map_id fields)

theorem operandsMoved_zero : ∀ os : List Operand, operandsMoved 0 os = os
  | [] => by rw [operandsMoved]
  | o :: os => by rw [operandsMoved, o.moved_zero, operandsMoved_zero os]

theorem commandsMoved_zero : ∀ cs : List (List Operand), commandsMoved 0 cs = cs
  | [] => by rw [commandsMoved]
  | c :: cs => by rw [commandsMoved, operandsMoved_zero c, commandsMoved_zero cs]

theorem Pipeline.moved_zero : ∀ p : Pipeline, p.moved 0 = p
  | .mk decl cs => by
    have hdecl : decl.map (·.moved 0) = decl := by
      cases decl with
      | none => rfl
      | some d => exact congrArg (fun names ↦ some (Decl.mk names d.isAssign)) (List.map_id d.names)
    rw [Pipeline.moved, hdecl, commandsMoved_zero cs]

end

theorem map_moved_zero (p : Option Pipeline) : p.map (·.moved 0) = p := by
  cases p with
  | none => rfl
  | some p => exact congrArg some p.moved_zero

mutual

theorem Item.moved_zero : ∀ i : Item, i.moved 0 = i
  | .action _ p | .call _ _ p => by rw [Item.moved, map_moved_zero]
  | .control _ _ p b o => by rw [Item.moved, map_moved_zero, b.moved_zero, o.moved_zero]
  | .define _ _ b => by rw [Item.moved, b.moved_zero]
  | .block _ _ p b => by rw [Item.moved, map_moved_zero, b.moved_zero]

theorem Body.moved_zero : ∀ b : Body, b.moved 0 = b
  | .missing => by rw [Body.moved]
  | .items is => by rw [Body.moved, itemsMoved_zero is]

/-- Items stay the same if nothing is put in front of the text. -/
theorem itemsMoved_zero : ∀ is : List Item, itemsMoved 0 is = is
  | [] => by rw [itemsMoved]
  | i :: is => by rw [itemsMoved, i.moved_zero, itemsMoved_zero is]

theorem Otherwise.moved_zero : ∀ o : Otherwise, o.moved 0 = o
  | .none => by rw [Otherwise.moved]
  | .nested i => by rw [Otherwise.moved, i.moved_zero]
  | .body b => by rw [Otherwise.moved, b.moved_zero]

end

/-! ### Scopes -/

/-- The visit with `n` bytes put in front of the text. -/
def Visit.moved (n : Nat) (v : Visit) : Visit := ⟨v.name.moved n, v.vars⟩

/-- Moved visits have the same variables in scope. -/
theorem wellScoped_map_moved {n : Nat} {vs : List Visit} :
    WellScoped (vs.map (·.moved n)) ↔ WellScoped vs := List.forall_mem_map

/-- A declaration brings the same names into scope wherever it stands. -/
theorem Decl.enter_moved (n : Nat) (decl : Option Decl) (vars : List String) :
    Decl.enter (decl.map (·.moved n)) vars = Decl.enter decl vars := by
  cases decl with
  | none => rfl
  | some d =>
    rw [Option.map_some, enter, enter, Option.elim_some, Option.elim_some, moved, List.map_map]
    rfl

mutual

/-- So does an operand. -/
theorem Operand.varsAfter_moved (n : Nat) (vars : List String) :
    ∀ o : Operand, (o.moved n).varsAfter vars = o.varsAfter vars
  | .mk (.paren (some p)) _ _ => by
    rw [Operand.moved, Term.moved, Operand.varsAfter, Operand.varsAfter, p.varsAfter_moved]
  | .mk (.paren none) _ _ | .mk .dot _ _ | .mk .field _ _ | .mk (.variable _) _ _
  | .mk (.function _) _ _ | .mk (.literal _) _ _ => by
    simp only [Operand.moved, Term.moved, Operand.varsAfter]

theorem operandsVarsAfter_moved (n : Nat) (vars : List String) :
    ∀ os : List Operand, operandsVarsAfter (operandsMoved n os) vars = operandsVarsAfter os vars
  | [] => by rw [operandsMoved]
  | o :: os => by
    rw [operandsMoved, operandsVarsAfter, operandsVarsAfter, o.varsAfter_moved,
      operandsVarsAfter_moved n _ os]

theorem commandsVarsAfter_moved (n : Nat) (vars : List String) : ∀ cs : List (List Operand),
    commandsVarsAfter (commandsMoved n cs) vars = commandsVarsAfter cs vars
  | [] => by rw [commandsMoved]
  | c :: cs => by
    rw [commandsMoved, commandsVarsAfter, commandsVarsAfter, operandsVarsAfter_moved n _ c,
      commandsVarsAfter_moved n _ cs]

/-- So does a pipeline. -/
theorem Pipeline.varsAfter_moved (n : Nat) (vars : List String) :
    ∀ p : Pipeline, (p.moved n).varsAfter vars = p.varsAfter vars
  | .mk decl cs => by
    rw [Pipeline.moved, Pipeline.varsAfter, Pipeline.varsAfter, Decl.enter_moved,
      commandsVarsAfter_moved n _ cs]

end

mutual

/-- The visits of a moved operand are moved. -/
theorem Operand.visits_moved (n : Nat) (vars : List String) :
    ∀ o : Operand, (o.moved n).visits vars = (o.visits vars).map (·.moved n)
  | .mk (.paren (some p)) _ _ => by
    rw [Operand.moved, Term.moved, Operand.visits, Operand.visits, p.visits_moved]
  | .mk (.variable (some name)) _ _ => by
    simp only [Operand.moved, Term.moved, Operand.visits, Option.map_some, List.map_cons,
      List.map_nil, Visit.moved]
  | .mk (.paren none) _ _ | .mk .dot _ _ | .mk .field _ _ | .mk (.variable none) _ _
  | .mk (.function _) _ _ | .mk (.literal _) _ _ => by
    simp only [Operand.moved, Term.moved, Operand.visits, Option.map_none, List.map_nil]

theorem operandsVisits_moved (n : Nat) (vars : List String) : ∀ os : List Operand,
    operandsVisits (operandsMoved n os) vars = (operandsVisits os vars).map (·.moved n)
  | [] => by rw [operandsMoved, operandsVisits, List.map_nil]
  | o :: os => by
    rw [operandsMoved, operandsVisits, operandsVisits, List.map_append, o.visits_moved,
      o.varsAfter_moved, operandsVisits_moved n _ os]

theorem commandsVisits_moved (n : Nat) (vars : List String) : ∀ cs : List (List Operand),
    commandsVisits (commandsMoved n cs) vars = (commandsVisits cs vars).map (·.moved n)
  | [] => by rw [commandsMoved, commandsVisits, List.map_nil]
  | c :: cs => by
    rw [commandsMoved, commandsVisits, commandsVisits, List.map_append, operandsVisits_moved n _ c,
      operandsVarsAfter_moved, commandsVisits_moved n _ cs]

/-- So are those of a pipeline. -/
theorem Pipeline.visits_moved (n : Nat) (vars : List String) :
    ∀ p : Pipeline, (p.moved n).visits vars = (p.visits vars).map (·.moved n)
  | .mk decl cs => by
    rw [Pipeline.moved, Pipeline.visits, Pipeline.visits, Decl.enter_moved,
      commandsVisits_moved n _ cs]

end

section Items

variable (n : Nat)

theorem pipelineVarsAfter_moved (p : Option Pipeline) (vars : List String) :
    pipelineVarsAfter (p.map (·.moved n)) vars = pipelineVarsAfter p vars := by
  cases p with
  | none => rfl
  | some p => exact p.varsAfter_moved n vars

theorem pipelineVisits_moved (p : Option Pipeline) (vars : List String) :
    pipelineVisits (p.map (·.moved n)) vars = (pipelineVisits p vars).map (·.moved n) := by
  cases p with
  | none => rfl
  | some p => exact p.visits_moved n vars

/-- An item brings the same names into scope wherever it stands. -/
theorem Item.varsAfter_moved (i : Item) (vars : List String) :
    (i.moved n).varsAfter vars = i.varsAfter vars := by
  cases i with
  | action _ p | block _ _ p _ | call _ _ p =>
    rw [Item.moved, Item.varsAfter, Item.varsAfter, pipelineVarsAfter_moved]
  | control | define => rw [Item.moved, Item.varsAfter, Item.varsAfter]

theorem itemsVarsAfter_moved (is : List Item) (vars : List String) :
    itemsVarsAfter (itemsMoved n is) vars = itemsVarsAfter is vars := by
  induction is generalizing vars with
  | nil => rw [itemsMoved]
  | cons i is ih => rw [itemsMoved, itemsVarsAfter, itemsVarsAfter, Item.varsAfter_moved, ih]

theorem Body.varsAfter_moved (b : Body) (vars : List String) :
    (b.moved n).varsAfter vars = b.varsAfter vars := by
  cases b with
  | missing => rw [Body.moved]
  | items is => rw [Body.moved, Body.varsAfter, Body.varsAfter, itemsVarsAfter_moved]

end Items

mutual

/-- The visits of a moved item are moved. -/
theorem Item.visits_moved (n : Nat) (vars : List String) :
    ∀ i : Item, (i.moved n).visits vars = (i.visits vars).map (·.moved n)
  | .action _ p | .call _ _ p => by
    rw [Item.moved, Item.visits, Item.visits, pipelineVisits_moved]
  | .control _ _ p b o => by
    rw [Item.moved, Item.visits, Item.visits, List.map_append, List.map_append,
      pipelineVisits_moved, pipelineVarsAfter_moved, b.varsAfter_moved, b.visits_moved,
      o.visits_moved]
  | .define _ _ b => by rw [Item.moved, Item.visits, Item.visits, b.visits_moved]
  | .block _ _ p b => by
    rw [Item.moved, Item.visits, Item.visits, List.map_append, pipelineVisits_moved,
      b.visits_moved]

theorem Body.visits_moved (n : Nat) (vars : List String) :
    ∀ b : Body, (b.moved n).visits vars = (b.visits vars).map (·.moved n)
  | .missing => by rw [Body.moved, Body.visits, List.map_nil]
  | .items is => by rw [Body.moved, Body.visits, Body.visits, itemsVisits_moved n vars is]

/-- The variables in scope do not depend on where a template stands. -/
theorem itemsVisits_moved (n : Nat) (vars : List String) : ∀ is : List Item,
    itemsVisits (itemsMoved n is) vars = (itemsVisits is vars).map (·.moved n)
  | [] => by rw [itemsMoved, itemsVisits, List.map_nil]
  | i :: is => by
    rw [itemsMoved, itemsVisits, itemsVisits, List.map_append, i.visits_moved, i.varsAfter_moved,
      itemsVisits_moved n _ is]

/-- So are those of what follows a list. -/
theorem Otherwise.visits_moved (n : Nat) (vars : List String) :
    ∀ o : Otherwise, (o.moved n).visits vars = (o.visits vars).map (·.moved n)
  | .none => by rw [Otherwise.moved, Otherwise.visits, List.map_nil]
  | .nested i => by rw [Otherwise.moved, Otherwise.visits, Otherwise.visits, i.visits_moved]
  | .body b => by rw [Otherwise.moved, Otherwise.visits, Otherwise.visits, b.visits_moved]

end

/-! ### Pieces that spell an outline -/

theorem tokensOf_moved (n : Nat) (ps : List Piece) :
    tokensOf (ps.map (·.moved n)) = (tokensOf ps).map (·.moved n) := by
  rw [tokensOf, tokensOf, List.map_map, List.map_map]
  rfl

theorem fieldsOf_moved (n : Nat) (ps : List Piece) :
    fieldsOf (ps.map (·.moved n)) = (fieldsOf ps).map (·.moved n) := by
  rw [fieldsOf, fieldsOf, tokensOf_moved, List.filter_map]
  rfl

theorem termOf_moved (n : Nat) (t : Token) : termOf (t.moved n) = (termOf t).moved n := by
  have hkind : (t.moved n).kind = t.kind := rfl
  unfold termOf
  rw [hkind]
  split <;> simp only [Term.moved, Option.map_some]

/-- The pieces of a phrase reach as far, further on. -/
theorem extentOf_moved (n : Nat) {ps : List Piece} (h : ps ≠ []) :
    extentOf (ps.map (·.moved n)) = (extentOf ps).moved n := by
  obtain ⟨first, hfirst⟩ := Option.ne_none_iff_exists'.mp (mt List.head?_eq_none_iff.mp h)
  obtain ⟨last, hlast⟩ := Option.ne_none_iff_exists'.mp (mt List.getLast?_eq_none_iff.mp h)
  rw [extentOf, extentOf, List.head?_map, List.getLast?_map, hfirst, hlast]
  exact congrArg (Span.mk _) (last.token.stop_moved n)

namespace Spelling

open AlertAudit.Template.Parser (OperandClass)
open Grammar (Atom Fields Opens Marks)

variable {n : Nat}

/-- An operand of one token is one wherever it stands. -/
theorem atom_moved {vars : List String} {p : Piece} {c : OperandClass} (h : Atom vars p c) :
    Atom vars (p.moved n) c := by
  cases h with
  | function hkind hdefined => exact .function hkind hdefined
  | inScope hkind hmem => exact .inScope hkind hmem
  | field hkind => exact .field hkind
  | dot hkind => exact .dot hkind
  | nil hkind => exact .nil hkind
  | bool hkind => exact .bool hkind
  | char hkind hconstant => exact .char hkind hconstant
  | number hkind => exact .number hkind
  | string hkind hquoted => exact .string hkind hquoted

/-- Fields are attached wherever they stand. -/
theorem fields_moved {before after : Bool} {ps : List Piece} (h : Fields before ps after) :
    Fields before (ps.map (·.moved n)) after := by
  induction h with
  | nil => exact .nil
  | cons hkind _ ih => exact .cons hkind ih

theorem opens_moved {word : Keyword} {ps : List Piece} (h : Opens word ps) :
    Opens word (ps.map (·.moved n)) := by
  obtain ⟨left, w, rfl, hleft, hw⟩ := h
  exact ⟨left.moved n, w.moved n, rfl, hleft, hw⟩

theorem marks_moved {word : Keyword} {ps : List Piece} (h : Marks word ps) :
    Marks word (ps.map (·.moved n)) := by
  obtain ⟨left, w, right, rfl, hleft, hw, hright⟩ := h
  exact ⟨left.moved n, w.moved n, right.moved n, rfl, hleft, hw, hright⟩

/-- Moved pieces spell the moved declaration. -/
theorem Declares.moved {inRange : Bool} {next : Option TokenKind} {ps : List Piece}
    {decl : Option Decl} (h : Declares inRange next ps decl) :
    Declares inRange next (ps.map (·.moved n)) (decl.map (·.moved n)) := by
  cases h with
  | none => exact .none
  | one hv hmark => exact .one hv hmark
  | two hrange hv hcomma hw hmark => exact .two hrange hv hcomma hw hmark
  | index hrange hv hcomma hnext => exact .index hrange hv hcomma hnext

mutual

/-- Moved pieces spell the moved operand. -/
theorem Operand.moved {n depth : Nat} {ps : List Piece} {c : OperandClass} {spaced : Bool}
    {o : Template.Operand} : Operand depth ps c spaced o →
      Operand depth (ps.map (·.moved n)) c spaced (o.moved n)
  | @Operand.atom _ p fs _ _ hatom hfields hclass => by
    rw [Template.Operand.moved, ← termOf_moved, ← extentOf_moved n (List.cons_ne_nil p fs),
      ← fieldsOf_moved]
    exact .atom (atom_moved hatom) (fields_moved hfields) fun hne ↦ hclass (mt (by simp_all) hne)
  | @Operand.paren _ left right ps fs _ _ hleft hpipeline hright hfields => by
    rw [Template.Operand.moved, Term.moved, ← fieldsOf_moved, List.cons_append,
      ← extentOf_moved n (List.cons_ne_nil left (ps ++ right :: fs)), List.map_cons,
      List.map_append, List.map_cons]
    exact .paren hleft hpipeline.moved hright (fields_moved hfields)

/-- So they do with a command. -/
theorem Command.moved {n depth : Nat} {ps : List Piece} {c : OperandClass}
    {os : List Template.Operand} : Command depth ps c os →
      Command depth (ps.map (·.moved n)) c (operandsMoved n os)
  | .last hoperand => by
    rw [operandsMoved, operandsMoved]
    exact .last hoperand.moved
  | .more hoperand hcommand => by
    rw [List.map_append, operandsMoved]
    exact .more hoperand.moved hcommand.moved

theorem Stages.moved {n depth : Nat} {ps : List Piece} {cs : List (List Template.Operand)} :
    Stages depth ps cs → Stages depth (ps.map (·.moved n)) (commandsMoved n cs)
  | .nil => by
    rw [commandsMoved]
    exact .nil
  | .bar hbar => by
    rw [commandsMoved]
    exact .bar hbar
  | .cons hbar hcommand hstages => by
    rw [commandsMoved, List.map_append, List.map_cons]
    exact .cons hbar hcommand.moved hstages.moved

/-- So they do with a pipeline. -/
theorem Pipeline.moved {n depth : Nat} {inRange : Bool} {ps : List Piece}
    {pl : Template.Pipeline} : Pipeline depth inRange ps pl →
      Pipeline depth inRange (ps.map (·.moved n)) (pl.moved n)
  | @Pipeline.mk _ _ _ ps _ _ _ _ _ hdeclares hcommand hnil hstages => by
    have hnext : (ps.map (·.moved n)).head?.map Piece.kind = ps.head?.map Piece.kind := by
      cases ps <;> rfl
    rw [Template.Pipeline.moved, commandsMoved, List.map_append, List.map_append]
    exact .mk (hnext ▸ hdeclares.moved) hcommand.moved hnil hstages.moved

end

mutual

/-- Moved pieces spell the moved item. -/
theorem Item.moved {n : Nat} {inLoop : Bool} {ps : List Piece} {is : List Template.Item} :
    Item inLoop ps is → Item inLoop (ps.map (·.moved n)) (itemsMoved n is)
  | .text hkind => by
    rw [itemsMoved]
    exact .text hkind
  | .comment hkind => by
    rw [itemsMoved]
    exact .comment hkind
  | .action hleft hheader hright => by
    rw [itemsMoved, itemsMoved, Template.Item.moved, List.map_append, List.map_cons]
    exact .action hleft hheader.moved hright
  | .guarded hopens hguarded => by
    rw [itemsMoved, itemsMoved, List.map_append]
    exact .guarded (opens_moved hopens) hguarded.moved
  | .block hopens hnames hheader hright hitems hmarks => by
    simp only [itemsMoved, Template.Item.moved, Body.moved, List.map_append, List.map_cons]
    exact .block (opens_moved hopens) hnames hheader.moved hright hitems.moved (marks_moved hmarks)
  | .call hopens hnames hright => by
    rw [itemsMoved, itemsMoved, Template.Item.moved, List.map_append]
    exact .call (opens_moved hopens) hnames hright
  | .callWith hopens hnames hheader hright => by
    simp only [itemsMoved, Template.Item.moved, List.map_append, List.map_cons]
    exact .callWith (opens_moved hopens) hnames hheader.moved hright
  | .breaks hmarks => by
    rw [itemsMoved]
    exact .breaks (marks_moved hmarks)
  | .continues hmarks => by
    rw [itemsMoved]
    exact .continues (marks_moved hmarks)

/-- So they do with what follows the word of a block. -/
theorem Guarded.moved {n : Nat} {inLoop : Bool} {kind : Control} {ps : List Piece}
    {i : Template.Item} : Guarded inLoop kind ps i →
      Guarded inLoop kind (ps.map (·.moved n)) (i.moved n)
  | .mk hheader hright hitems htail => by
    simp only [Template.Item.moved, Body.moved, List.map_append, List.map_cons]
    exact .mk hheader.moved hright hitems.moved htail.moved

/-- So they do with what follows its list. -/
theorem Tail.moved {n : Nat} {inLoop : Bool} {kind : Control} {ps : List Piece}
    {o : Template.Otherwise} : Tail inLoop kind ps o →
      Tail inLoop kind (ps.map (·.moved n)) (o.moved n)
  | .close hmarks => by
    rw [Otherwise.moved]
    exact .close (marks_moved hmarks)
  | .otherwise hmarks hitems hclose => by
    simp only [Otherwise.moved, Body.moved, List.map_append]
    exact .otherwise (marks_moved hmarks) hitems.moved (marks_moved hclose)
  | .chained hkind hopens hw hguarded => by
    rw [Otherwise.moved, List.map_append, List.map_cons]
    exact .chained hkind (opens_moved hopens) hw hguarded.moved

theorem Items.moved {n : Nat} {inLoop : Bool} {ps : List Piece} {is : List Template.Item} :
    Items inLoop ps is → Items inLoop (ps.map (·.moved n)) (itemsMoved n is)
  | .nil => by
    rw [itemsMoved]
    exact .nil
  | .cons hitem hitems => by
    rw [List.map_append, itemsMoved_append]
    exact .cons hitem.moved hitems.moved

end

/-- So they do with the definition of a template. -/
theorem Definition.moved {ps : List Piece} {i : Template.Item} (h : Definition ps i) :
    Definition (ps.map (·.moved n)) (i.moved n) := by
  cases h with
  | mk hopens hnames hright hitems hclose =>
    simp only [Template.Item.moved, Body.moved, List.map_append, List.map_cons]
    exact .mk (opens_moved hopens) hnames hright hitems.moved (marks_moved hclose)

/-- What spells an outline spells the moved one further on in a text. -/
theorem template_moved {ps : List Piece} {is : List Template.Item} (h : Root ps is) :
    Root (ps.map (·.moved n)) (itemsMoved n is) := by
  induction h with
  | nil =>
    rw [itemsMoved]
    exact .nil
  | definition hdefinition _ ih =>
    rw [List.map_append, itemsMoved]
    exact .definition hdefinition.moved ih
  | item hitem _ ih =>
    rw [List.map_append, itemsMoved_append]
    exact .item hitem.moved ih

end Spelling

end AlertAudit.Template
