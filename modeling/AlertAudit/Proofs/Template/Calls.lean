import AlertAudit.Proofs.Template.Outlines
import AlertAudit.Proofs.Template.Readings

/-!
The function calls of a template. An outline has the calls of its operands in the order in which
they are written (`Operand.calls`, `Item.calls`). Reading records just these
(`Reading.records_items`), and in what spells an outline they are just the words that are no
reserved ones (`Spelling.callsOf_template`), so a template that is accepted calls each of its
identifiers once and nothing else (`calls_eq_identifiers`).
-/

set_option autoImplicit false

namespace AlertAudit.Template

open AlertAudit.Text

/-! ### Calls in an outline -/

mutual

/-- The names of the functions that an operand calls. -/
def Operand.calls : Operand → List Token
  | .mk (.function (some name)) _ _ => [name]
  | .mk (.paren (some p)) _ _ => p.calls
  | _ => []

def operandsCalls : List Operand → List Token
  | [] => []
  | o :: os => o.calls ++ operandsCalls os

def commandsCalls : List (List Operand) → List Token
  | [] => []
  | c :: cs => operandsCalls c ++ commandsCalls cs

/-- The names of the functions that a pipeline calls. -/
def Pipeline.calls : Pipeline → List Token
  | .mk _ cs => commandsCalls cs

end

def pipelineCalls (p : Option Pipeline) : List Token := p.elim [] Pipeline.calls

mutual

/-- The names of the functions that an item calls: the header first, then the bodies. -/
def Item.calls : Item → List Token
  | .action _ p | .call _ _ p => pipelineCalls p
  | .control _ _ p b o => pipelineCalls p ++ b.calls ++ o.calls
  | .define _ _ b => b.calls
  | .block _ _ p b => pipelineCalls p ++ b.calls

def Body.calls : Body → List Token
  | .missing => []
  | .items is => itemsCalls is

def itemsCalls : List Item → List Token
  | [] => []
  | i :: is => i.calls ++ itemsCalls is

def Otherwise.calls : Otherwise → List Token
  | .none => []
  | .nested i => i.calls
  | .body b => b.calls

end

/-- The calls of some items and some more are those of both, in their order. -/
theorem itemsCalls_append (is js : List Item) :
    itemsCalls (is ++ js) = itemsCalls is ++ itemsCalls js := by
  induction is with
  | nil => rfl
  | cons i is ih => rw [List.cons_append, itemsCalls, itemsCalls, ih, List.append_assoc]

def Token.mentionIn (text : List Char) (t : Token) : Mention :=
  ⟨t.text, t.span, lineAt text t.start⟩

/-! ### Calls that are recorded -/

namespace Reading

variable {α β : Type}

/-- The calls that a step records are those of `names`, and the text stays the same. -/
def Records (step : Reading α) (names : List Token) : Prop := ∀ s : State,
  (step s).2.text = s.text ∧ (step s).2.reads.calls = s.reads.calls ++
    names.map (·.mentionIn s.text)

/-- A step that records no calls and keeps the text. -/
theorem records_nil {step : Reading α} (htext : ∀ s, (step s).2.text = s.text)
    (hcalls : ∀ s, (step s).2.reads.calls = s.reads.calls) : Records step [] := fun s ↦
  ⟨htext s, (hcalls s).trans (List.append_nil _).symm⟩

theorem records_pure (a : α) : Records (pure a : Reading α) [] :=
  records_nil (fun _ ↦ rfl) fun _ ↦ rfl

theorem records_get : Records (get : Reading State) [] :=
  records_nil (fun _ ↦ rfl) fun _ ↦ rfl

/-- The calls of a step come in front of those of what follows it. -/
theorem Records.bind {step : Reading α} {f : α → Reading β} {names names' : List Token}
    (hstep : Records step names) (hf : ∀ a, Records (f a) names') :
    Records (step >>= f) (names ++ names') := by
  intro s
  obtain ⟨htext, hcalls⟩ := hstep s
  obtain ⟨htext', hcalls'⟩ := hf (step s).1 (step s).2
  refine ⟨htext'.trans htext, ?_⟩
  rw [bind_apply, hcalls', hcalls, htext, List.map_append, List.append_assoc]

/-- A step with an end that records nothing. -/
theorem Records.then_pure {step : Reading α} {f : α → Reading β} {names : List Token}
    (hstep : Records step names) (hf : ∀ a, Records (f a) []) : Records (step >>= f) names := by
  have h := hstep.bind hf
  rwa [List.append_nil] at h

/-- A choice records the calls if both of its sides do. -/
theorem Records.ite {c : Prop} [Decidable c] {step next : Reading α} {names : List Token}
    (hstep : Records step names) (hnext : Records next names) :
    Records (if c then step else next) names := by
  split
  · exact hstep
  · exact hnext

/-- To read a label is no call. -/
theorem records_readLabel (name : String) (span : Span) : Records (readLabel name span) [] :=
  records_nil (fun _ ↦ rfl) fun _ ↦ rfl

/-- To read the sample value is no call. -/
theorem records_readValue (chain : List String) (span : Span) :
    Records (readValue chain span) [] :=
  records_nil (fun _ ↦ rfl) fun _ ↦ rfl

/-- To call a function records its name. -/
theorem records_callFunction (name : Token) : Records (callFunction name) [name] := fun _ ↦
  ⟨rfl, rfl⟩

theorem records_applyField (span : Span) (base : Denotation) (field : Token) :
    Records (applyField span base field) [] := by
  cases base with
  | alert => exact .ite (records_pure _) (.ite (records_get.bind fun _ ↦ records_pure _)
      (records_pure _))
  | labels => exact (records_readLabel _ _).bind fun _ ↦ records_pure _
  | value chain => exact records_pure _
  | unknown => exact records_pure _

/-- The fields of an operand call nothing. -/
theorem records_applyFields (span : Span) (base : Denotation) (fields : List Token) :
    Records (applyFields span base fields) [] := by
  induction fields generalizing base with
  | nil => exact records_pure _
  | cons f fs ih => exact (records_applyField span base f).bind ih

theorem records_finishOperand (term : Term) (span : Span) (fields : List Token)
    (base : Denotation) : Records (finishOperand term span fields base) [] := by
  refine (records_applyFields span base fields).bind fun d ↦ ?_
  cases d with
  | value chain =>
    exact .ite ((records_readValue chain span).bind fun _ ↦ records_pure _) (records_pure _)
  | alert => exact records_pure _
  | labels => exact records_pure _
  | unknown => exact records_pure _

/-- Without a pipeline in parentheses, only a function name is recorded. -/
theorem records_simpleOperand {term : Term} (hterm : ∀ body, term ≠ .paren body) (span : Span)
    (fields : List Token) :
    Records (simpleOperand term span fields) (Operand.mk term span fields).calls := by
  have hfinish {rest : Option Denotation → Reading Denotation} (hnone : rest none = pure .unknown)
      (hsome : ∀ base, rest (some base) = finishOperand term span fields base)
      (base : Option Denotation) : Records (rest base) [] := by
    cases base with
    | none =>
      rw [hnone]
      exact records_pure _
    | some base =>
      rw [hsome]
      exact records_finishOperand term span fields base
  cases term with
  | dot => exact (records_get.bind fun _ ↦ records_pure _).bind (hfinish rfl fun _ ↦ rfl)
  | field => exact (records_get.bind fun _ ↦ records_pure _).bind (hfinish rfl fun _ ↦ rfl)
  | «variable» name =>
    cases name with
    | none => exact (records_pure _).bind (hfinish rfl fun _ ↦ rfl)
    | some name =>
      have hlookup : Records (lookup name.text) [] := records_get.bind fun _ ↦ records_pure _
      have hterm : Records (termResult (.variable (some name))) [] := by
        refine hlookup.bind fun d ↦ ?_
        cases d <;> exact records_pure _
      exact hterm.bind (hfinish rfl fun _ ↦ rfl)
  | function name =>
    cases name with
    | none => exact (records_pure _).bind (hfinish rfl fun _ ↦ rfl)
    | some name =>
      exact ((records_callFunction name).bind fun _ ↦ records_pure _).then_pure
        (hfinish rfl fun _ ↦ rfl)
  | literal token => exact (records_pure _).bind (hfinish rfl fun _ ↦ rfl)
  | paren body => exact absurd rfl (hterm body)

/-- The result of a command calls nothing. -/
theorem records_commandResult (operands : List Operand) (values : List Denotation) :
    Records (commandResult operands values) [] := by
  unfold commandResult
  split
  · exact (records_readLabel _ _).bind fun _ ↦ records_pure _
  · exact records_pure _
  · exact records_pure _

/-- A declaration takes back reads of the value, but no calls. -/
theorem records_bind (decl : Decl) (inRange : Bool) (valuesBefore : Nat) (result : Denotation) :
    Records (Reading.bind decl inRange valuesBefore result) [] := by
  obtain ⟨names, isAssign⟩ := decl
  rcases inRange with _ | _
  · rcases names with _ | ⟨name, _ | ⟨second, rest⟩⟩
    · exact records_nil (fun _ ↦ rfl) fun _ ↦ rfl
    · cases result <;> exact records_nil (fun _ ↦ rfl) fun _ ↦ rfl
    · exact records_nil (fun _ ↦ rfl) fun _ ↦ rfl
  · exact records_nil (fun _ ↦ rfl) fun _ ↦ rfl

mutual

/-- Reading an operand records its calls. -/
theorem records_operand : ∀ o : Operand, Records (operand o) o.calls
  | .mk (.paren none) span fields => by
    rw [operand]
    exact records_finishOperand _ _ _ _
  | .mk (.paren (some p)) span fields => by
    rw [operand, Operand.calls]
    exact (records_pipeline p false).then_pure fun _ ↦ records_finishOperand _ _ _ _
  | .mk .dot span fields | .mk .field span fields | .mk (.variable _) span fields
  | .mk (.function _) span fields | .mk (.literal _) span fields => by
    rw [operand_eq (by simp)]
    exact records_simpleOperand (by simp) span fields

theorem records_operands : ∀ os : List Operand, Records (operands os) (operandsCalls os)
  | [] => records_pure _
  | o :: os => (records_operand o).bind fun _ ↦ (records_operands os).then_pure fun _ ↦
    records_pure _

theorem records_commands : ∀ cs : List (List Operand), Records (commands cs) (commandsCalls cs)
  | [] => records_pure _
  | c :: cs => (records_operands c).bind fun values ↦ (records_commandResult c values).bind
    fun _ ↦ (records_commands cs).then_pure fun _ ↦ records_pure _

/-- Reading a pipeline records its calls. -/
theorem records_pipeline : ∀ (p : Pipeline) (inRange : Bool),
    Records (pipeline p inRange) p.calls
  | .mk decl cs, inRange => by
    rw [pipeline, Pipeline.calls]
    refine records_get.bind fun s ↦ (records_commands cs).then_pure fun ds ↦ ?_
    cases decl with
    | none => exact records_pure _
    | some decl => exact (records_bind decl inRange _ _).bind fun _ ↦ records_pure _

end

theorem records_pipelineOf (p : Option Pipeline) (inRange : Bool) :
    Records (pipelineOf p inRange) (pipelineCalls p) := by
  cases p with
  | none => exact records_pure _
  | some p => exact records_pipeline p inRange

/-- To restore the scope takes back no calls. -/
theorem Records.keepingScope {step : Reading Unit} {names : List Token} (h : Records step names) :
    Records (keepingScope step) names := h

/-- To set the dot for a while takes back no calls. -/
theorem Records.withDot (dot : Denotation) {step : Reading Unit} {names : List Token}
    (h : Records step names) : Records (withDot dot step) names := fun s ↦ h { s with dot }

/-- To read a template of its own takes back no calls. -/
theorem Records.isolated {step : Reading Unit} {names : List Token} (h : Records step names) :
    Records (isolated step) names := fun s ↦
  h { s with scope := [("$", .unknown)], dot := .unknown }

mutual

/-- Reading an item records its calls, those of the header first. -/
theorem records_item : ∀ i : Item, Records (item i) i.calls
  | .action _ p => by
    rw [item, Item.calls]
    exact (records_pipelineOf p false).then_pure fun _ ↦ records_pure _
  | .control kind _ p b o => by
    rw [item, Item.calls, List.append_assoc]
    refine ((records_pipelineOf p _).bind fun d ↦ ?_).keepingScope
    cases kind with
    | ifBlock => exact (records_body b).bind fun _ ↦ records_otherwise o
    | withBlock => exact ((records_body b).withDot d).bind fun _ ↦ records_otherwise o
    | rangeBlock => exact ((records_body b).withDot .unknown).bind fun _ ↦ records_otherwise o
  | .define _ _ b => by
    rw [item, Item.calls]
    exact (records_body b).isolated
  | .block _ _ p b => by
    rw [item, Item.calls]
    exact (records_pipelineOf p false).bind fun _ ↦ (records_body b).isolated
  | .call _ _ p => by
    rw [item, Item.calls]
    exact (records_pipelineOf p false).then_pure fun _ ↦ records_pure _

/-- Reading the list of a block records its calls. -/
theorem records_body : ∀ b : Body, Records (body b) b.calls
  | .missing => records_pure _
  | .items is => records_items is

theorem records_items : ∀ is : List Item, Records (items is) (itemsCalls is)
  | [] => records_pure _
  | i :: is => (records_item i).bind fun _ ↦ records_items is

/-- Reading what follows the list records its calls. -/
theorem records_otherwise : ∀ o : Otherwise, Records (otherwise o) o.calls
  | .none => records_pure _
  | .nested i => records_item i
  | .body b => records_body b

end

end Reading

/-! ### Calls that are spelled -/

namespace Spelling

open AlertAudit.Template.Parser (OperandClass)
open Grammar (Atom Fields Opens Marks)

/-- What some pieces spell calls `names`: each identifier once, and each of them is defined. -/
structure CallsOf (ps : List Piece) (names : List Token) : Prop where
  eq : (tokensOf ps).filter (·.kind = .identifier) = names
  defined : ∀ t ∈ names, Builtin.isDefined t.text

theorem callsOf_nil : CallsOf [] [] := ⟨rfl, fun _ h ↦ absurd h List.not_mem_nil⟩

/-- The calls of pieces come in front of those of the pieces behind them. -/
theorem CallsOf.append {ps qs : List Piece} {names names' : List Token} (h : CallsOf ps names)
    (h' : CallsOf qs names') : CallsOf (ps ++ qs) (names ++ names') := by
  refine ⟨?_, List.forall_mem_append.mpr ⟨h.defined, h'.defined⟩⟩
  rw [tokensOf, List.map_append, List.filter_append]
  exact congrArg₂ (· ++ ·) h.eq h'.eq

/-- A piece that is no identifier calls nothing. -/
theorem CallsOf.cons {p : Piece} {kind : TokenKind} {ps : List Piece} {names : List Token}
    (h : CallsOf ps names) (hp : p.kind = kind) (hkind : kind ≠ .identifier) :
    CallsOf (p :: ps) names := by
  have hne : p.token.kind ≠ .identifier := by
    rintro heq
    exact hkind (hp.symm.trans heq)
  refine ⟨?_, h.defined⟩
  rw [tokensOf, List.map_cons, List.filter_cons_of_neg (by simpa using hne)]
  exact h.eq

/-- Fields call nothing. -/
theorem callsOf_fields {spaced spaced' : Bool} {fs : List Piece} (h : Fields spaced fs spaced') :
    CallsOf fs [] := by
  induction h with
  | nil => exact callsOf_nil
  | cons hkind _ ih => exact ih.cons hkind nofun

/-- A declaration calls nothing. -/
theorem callsOf_declares {inRange : Bool} {next : Option TokenKind} {ps : List Piece}
    {decl : Option Decl} (h : Declares inRange next ps decl) : CallsOf ps [] := by
  have hlast {mark : Piece} (h : mark.kind = .declare ∨ mark.kind = .assign) :
      CallsOf [mark] [] := by
    rcases h with h | h
    · exact callsOf_nil.cons h nofun
    · exact callsOf_nil.cons h nofun
  cases h with
  | none => exact callsOf_nil
  | one hv hmark => exact (hlast hmark).cons hv nofun
  | two _ hv hcomma hw hmark =>
    exact (((hlast hmark).cons hw nofun).cons hcomma nofun).cons hv nofun
  | index _ hv hcomma _ => exact (callsOf_nil.cons hcomma nofun).cons hv nofun

/-- The word of an action is no identifier. -/
theorem callsOf_opens {word : Keyword} {ps : List Piece} (h : Opens word ps) : CallsOf ps [] := by
  obtain ⟨left, w, rfl, hleft, hw⟩ := h
  exact (callsOf_nil.cons hw nofun).cons hleft nofun

/-- Neither is the word of an end or else action. -/
theorem callsOf_marks {word : Keyword} {ps : List Piece} (h : Marks word ps) : CallsOf ps [] := by
  obtain ⟨left, w, right, rfl, hleft, hw, hright⟩ := h
  exact ((callsOf_nil.cons hright nofun).cons hw nofun).cons hleft nofun

/-- The name of a template is no identifier. -/
theorem kind_ne_of_names {name : Piece} (h : name.Names) : name.kind ≠ .identifier := by
  intro hkind
  have hnames := h.1
  rw [hkind] at hnames
  exact Bool.false_ne_true hnames

theorem calls_atom (t : Token) (span : Span) (fields : List Token) :
    (Template.Operand.mk (termOf t) span fields).calls =
      if t.kind = .identifier then [t] else [] := by
  unfold termOf
  split
  all_goals simp_all [Operand.calls]

/-- An operand of one token calls that token if it is an identifier. -/
theorem callsOf_atom {p : Piece} {c : OperandClass} (h : Atom [p.text] p c) (span : Span)
    (fields : List Token) :
    CallsOf [p] (Template.Operand.mk (termOf p.token) span fields).calls := by
  rw [calls_atom]
  by_cases hkind : p.token.kind = .identifier
  · rw [if_pos hkind]
    refine ⟨List.filter_cons_of_pos (decide_eq_true hkind), List.forall_mem_singleton.mpr ?_⟩
    cases h with
    | function _ hdefined => exact hdefined
    | inScope h _ | field h | dot h | nil h | bool h | char h _ | number h =>
      exact absurd (hkind.symm.trans h) nofun
    | string h _ =>
      rcases h with h | h
      · exact absurd (hkind.symm.trans h) nofun
      · exact absurd (hkind.symm.trans h) nofun
  · rw [if_neg hkind]
    exact callsOf_nil.cons rfl hkind

mutual

/-- What spells an operand has its calls for identifiers. -/
theorem Operand.calls {depth : Nat} {ps : List Piece} {c : OperandClass} {spaced : Bool}
    {o : Template.Operand} : Operand depth ps c spaced o → CallsOf ps o.calls
  | @Operand.atom _ p fs _ _ hatom hfields _ => by
    have h := (callsOf_atom hatom (extentOf (p :: fs)) (fieldsOf (p :: fs))).append
      (callsOf_fields hfields)
    rwa [List.append_nil] at h
  | .paren hleft hpipeline hright hfields => by
    have h := (hpipeline.calls.cons hleft nofun).append ((callsOf_fields hfields).cons hright nofun)
    rwa [List.append_nil] at h

/-- So has what spells a command. -/
theorem Command.calls {depth : Nat} {ps : List Piece} {c : OperandClass}
    {os : List Template.Operand} : Command depth ps c os → CallsOf ps (operandsCalls os)
  | .last hoperand => by
    have h := hoperand.calls
    rwa [operandsCalls, operandsCalls, List.append_nil]
  | .more hoperand hcommand => hoperand.calls.append hcommand.calls

theorem Stages.calls {depth : Nat} {ps : List Piece} {cs : List (List Template.Operand)} :
    Stages depth ps cs → CallsOf ps (commandsCalls cs)
  | .nil => callsOf_nil
  | .bar hbar => callsOf_nil.cons hbar nofun
  | .cons hbar hcommand hstages => (hcommand.calls.cons hbar nofun).append hstages.calls

/-- So has what spells a pipeline. -/
theorem Pipeline.calls {depth : Nat} {inRange : Bool} {ps : List Piece}
    {pl : Template.Pipeline} : Pipeline depth inRange ps pl → CallsOf ps pl.calls
  | .mk hdeclares hcommand _ hstages =>
    ((callsOf_declares hdeclares).append hcommand.calls).append hstages.calls

end

mutual

/-- So has what spells an item. -/
theorem Item.calls {inLoop : Bool} {ps : List Piece} {is : List Template.Item} :
    Item inLoop ps is → CallsOf ps (itemsCalls is)
  | .text hkind => callsOf_nil.cons hkind nofun
  | .comment hkind => callsOf_nil.cons hkind nofun
  | .action hleft hheader hright =>
    (hheader.calls.cons hleft nofun).append (callsOf_nil.cons hright nofun)
  | .guarded hopens hguarded => by
    have h := (callsOf_opens hopens).append hguarded.calls
    rwa [itemsCalls, itemsCalls, List.append_nil]
  | .block hopens hnames hheader hright hitems hmarks =>
    (((callsOf_opens hopens).append (hheader.calls.cons rfl (kind_ne_of_names hnames))).append
      (hitems.calls.cons hright nofun)).append (callsOf_marks hmarks)
  | .call hopens hnames hright => (callsOf_opens hopens).append
    ((callsOf_nil.cons hright nofun).cons rfl (kind_ne_of_names hnames))
  | .callWith hopens hnames hheader hright =>
    ((callsOf_opens hopens).append (hheader.calls.cons rfl (kind_ne_of_names hnames))).append
      (callsOf_nil.cons hright nofun)
  | .breaks hmarks => callsOf_marks hmarks
  | .continues hmarks => callsOf_marks hmarks

/-- So has what follows the word of a block. -/
theorem Guarded.calls {inLoop : Bool} {kind : Control} {ps : List Piece} {i : Template.Item} :
    Guarded inLoop kind ps i → CallsOf ps i.calls
  | .mk hheader hright hitems htail =>
    (hheader.calls.append (hitems.calls.cons hright nofun)).append htail.calls

/-- So has what follows its list. -/
theorem Tail.calls {inLoop : Bool} {kind : Control} {ps : List Piece}
    {o : Template.Otherwise} : Tail inLoop kind ps o → CallsOf ps o.calls
  | .close hmarks => callsOf_marks hmarks
  | .otherwise hmarks hitems hclose => by
    have h := ((callsOf_marks hmarks).append hitems.calls).append (callsOf_marks hclose)
    rwa [List.append_nil] at h
  | .chained _ hopens hw hguarded =>
    (callsOf_opens hopens).append (hguarded.calls.cons hw nofun)

theorem Items.calls {inLoop : Bool} {ps : List Piece} {is : List Template.Item} :
    Items inLoop ps is → CallsOf ps (itemsCalls is)
  | .nil => callsOf_nil
  | .cons hitem hitems => by
    rw [itemsCalls_append]
    exact hitem.calls.append hitems.calls

end

/-- So has the definition of a template. -/
theorem Definition.calls {ps : List Piece} {i : Template.Item} (h : Definition ps i) :
    CallsOf ps i.calls := by
  cases h with
  | mk hopens hnames hright hitems hclose =>
    have h := ((callsOf_opens hopens).append ((hitems.calls.cons hright nofun).cons rfl
      (kind_ne_of_names hnames))).append (callsOf_marks hclose)
    rwa [List.append_nil] at h

/-- The calls of a template are its identifiers, and they are defined. -/
theorem callsOf_template {ps : List Piece} {is : List Template.Item} (h : Root ps is) :
    CallsOf ps (itemsCalls is) := by
  induction h with
  | nil => exact callsOf_nil
  | definition hdefinition _ ih => exact hdefinition.calls.append ih
  | item hitem _ ih =>
    rw [itemsCalls_append]
    exact hitem.calls.append ih

end Spelling

/-! ### Calls of a template -/

/-- The pieces of a template have all of its tokens but the white space. -/
theorem filter_tokensOf_pieces {kind : TokenKind} (hkind : kind.isTrivia = false)
    (ts : List Token) :
    (tokensOf (pieces ts)).filter (·.kind = kind) = ts.filter (·.kind = kind) := by
  induction ts with
  | nil => rfl
  | cons t ts ih =>
    rw [pieces]
    split
    next htrivia =>
      have hne : t.kind ≠ kind := by
        rintro rfl
        exact Bool.false_ne_true (hkind.symm.trans htrivia)
      rw [ih, List.filter_cons_of_neg (by simpa using hne)]
    next =>
      rw [tokensOf, List.map_cons, List.filter_cons, List.filter_cons]
      exact congrArg (fun ts ↦ if (decide (t.kind = kind)) = true then t :: ts else ts) ih

/-- What an accepted template calls are its identifiers, each once and in their order, with their
text and place; every one of them is the name of a function. -/
theorem calls_eq_identifiers {text : String} (h : (Parse.ofText text).error = none) :
    ∃ reads, Reads.ofText text = .ok reads ∧
      reads.calls = ((Tokens.ofText text).tokens.filter (·.kind = .identifier)).map
        (·.mentionIn text.toList) ∧
      ∀ m ∈ reads.calls, Builtin.isDefined m.name := by
  obtain ⟨hspells, -⟩ := spells_of_accepted h
  obtain ⟨heq, hdefined⟩ := Spelling.callsOf_template hspells
  have hcalls := (Reading.records_items (bareItems (Parse.ofText text).tree.items)
    (.start text)).2
  rw [Reading.items_bareItems, ← heq, filter_tokensOf_pieces rfl] at hcalls
  refine ⟨_, by rw [Reads.ofText, h], hcalls, fun m hm ↦ ?_⟩
  obtain ⟨t, ht, rfl⟩ := List.mem_map.mp (hcalls ▸ hm)
  refine hdefined t ?_
  rwa [← heq, filter_tokensOf_pieces rfl]

/-- The template `{{ block "t" (len .) }}{{ $l := query "up" }}{{ end }}` and, on the next line,
`{{ if not . }}{{ else }}{{ (print $value) }}{{ end }}`. -/
def callsInBlocks : String :=
  "\x7b\x7b block \"t\" (len .) \x7d\x7d\x7b\x7b $l := query \"up\" \x7d\x7d\x7b\x7b end \x7d\x7d\n" ++
    "\x7b\x7b if not . \x7d\x7d\x7b\x7b else \x7d\x7d\x7b\x7b (print $value) \x7d\x7d\x7b\x7b end \x7d\x7d"

set_option maxRecDepth 100000 in
/-- The calls in the headers and in the bodies of blocks come in the order of the text. -/
theorem calls_eq_identifiers_blocks : (Parse.ofText callsInBlocks).error = none ∧
    ∃ reads, Reads.ofText callsInBlocks = .ok reads ∧ reads.calls =
      [⟨"len", ⟨14, 17⟩, 0⟩, ⟨"query", ⟨32, 37⟩, 0⟩, ⟨"not", ⟨61, 64⟩, 1⟩,
        ⟨"print", ⟨83, 88⟩, 1⟩] := by
  have herror : (Parse.ofText callsInBlocks).error = none := by decide +kernel
  have hidentifiers : ((Tokens.ofText callsInBlocks).tokens.filter (·.kind = .identifier)).map
      (·.mentionIn callsInBlocks.toList) = [⟨"len", ⟨14, 17⟩, 0⟩, ⟨"query", ⟨32, 37⟩, 0⟩,
        ⟨"not", ⟨61, 64⟩, 1⟩, ⟨"print", ⟨83, 88⟩, 1⟩] := by decide +kernel
  obtain ⟨reads, hreads, hcalls, -⟩ := calls_eq_identifiers herror
  exact ⟨herror, reads, hreads, hcalls.trans hidentifiers⟩

end AlertAudit.Template
