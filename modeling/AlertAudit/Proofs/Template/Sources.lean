import AlertAudit.Proofs.Template.Carried

/-!
Where that which a reading records comes from. Whatever the variables stand for, a call is that of
an operand, a label is named by a field of an operand or by a string literal, and the sample value
is read at an operand that is the dot or a name; the record is on the line on which this begins
(`Reading.gathers_items`).
-/

set_option autoImplicit false

namespace AlertAudit.Template

open AlertAudit.Text

/-! ### Operands of an outline -/

mutual

/-- The operand, and the operands in its parentheses. -/
def Operand.operands : Operand → List Operand
  | .mk (.paren (some p)) span fields => .mk (.paren (some p)) span fields :: p.operands
  | .mk term span fields => [.mk term span fields]

def operandsOperands : List Operand → List Operand
  | [] => []
  | o :: os => o.operands ++ operandsOperands os

def commandsOperands : List (List Operand) → List Operand
  | [] => []
  | c :: cs => operandsOperands c ++ commandsOperands cs

/-- The operands in a pipeline, at any depth. -/
def Pipeline.operands : Pipeline → List Operand
  | .mk _ cs => commandsOperands cs

end

def pipelineOperands (p : Option Pipeline) : List Operand := p.elim [] Pipeline.operands

mutual

/-- The operands in an item, at any depth. -/
def Item.operands : Item → List Operand
  | .action _ p | .call _ _ p => pipelineOperands p
  | .control _ _ p b o => pipelineOperands p ++ b.operands ++ o.operands
  | .define _ _ b => b.operands
  | .block _ _ p b => pipelineOperands p ++ b.operands

def Body.operands : Body → List Operand
  | .missing => []
  | .items is => itemsOperands is

def itemsOperands : List Item → List Operand
  | [] => []
  | i :: is => i.operands ++ itemsOperands is

def Otherwise.operands : Otherwise → List Operand
  | .none => []
  | .nested i => i.operands
  | .body b => b.operands

end

/-- An operand is among its own operands. -/
theorem mem_operands (o : Operand) : o ∈ o.operands := by
  obtain ⟨term, span, fields⟩ := o
  rcases term with _ | _ | _ | _ | _ | ⟨_ | p⟩ <;> simp [Operand.operands]

/-- Operands are among the operands at any depth of them. -/
theorem subset_operandsOperands (os : List Operand) : os ⊆ operandsOperands os := by
  induction os with
  | nil => exact List.Subset.refl _
  | cons o os ih =>
    rw [operandsOperands, List.cons_subset]
    exact ⟨List.mem_append_left _ (mem_operands o), List.subset_append_of_subset_right _ ih⟩

theorem itemsOperands_append (is js : List Item) :
    itemsOperands (is ++ js) = itemsOperands is ++ itemsOperands js := by
  induction is with
  | nil => rfl
  | cons i is ih => rw [List.cons_append, itemsOperands, itemsOperands, ih, List.append_assoc]

mutual

/-- The operands of an item do not depend on its spans. -/
theorem Item.operands_bare : ∀ i : Item, i.bare.operands = i.operands
  | .action _ _ | .call _ _ _ => by rw [Item.bare, Item.operands, Item.operands]
  | .control _ _ _ b o => by
    rw [Item.bare, Item.operands, Item.operands, b.operands_bare, o.operands_bare]
  | .define _ _ b => by rw [Item.bare, Item.operands, Item.operands, b.operands_bare]
  | .block _ _ _ b => by rw [Item.bare, Item.operands, Item.operands, b.operands_bare]

theorem Body.operands_bare : ∀ b : Body, b.bare.operands = b.operands
  | .missing => by rw [Body.bare]
  | .items is => by rw [Body.bare, Body.operands, Body.operands, itemsOperands_bareItems is]

/-- The bare items have the same operands. -/
theorem itemsOperands_bareItems : ∀ is : List Item, itemsOperands (bareItems is) = itemsOperands is
  | [] => by rw [bareItems]
  | i :: is => by
    rw [bareItems, itemsOperands, itemsOperands, i.operands_bare, itemsOperands_bareItems is]

theorem Otherwise.operands_bare : ∀ o : Otherwise, o.bare.operands = o.operands
  | .none => by rw [Otherwise.bare]
  | .nested i => by rw [Otherwise.bare, Otherwise.operands, Otherwise.operands, i.operands_bare]
  | .body b => by rw [Otherwise.bare, Otherwise.operands, Otherwise.operands, b.operands_bare]

end

/-! ### Records -/

/-- The mention is on the line on which its place begins. -/
def Mention.OnLine (text : List Char) (m : Mention) : Prop := m.line = lineAt text m.span.start

/-- A field of an operand names the label. -/
def FieldNames (os : List Operand) (m : Mention) : Prop :=
  ∃ term span fields, Operand.mk term span fields ∈ os ∧
    ∃ f ∈ fields, m.name = Reading.fieldName f ∧ m.span = f.span

/-- A string literal names the label. -/
def LiteralNames (os : List Operand) (m : Mention) : Prop :=
  ∃ key fields, Operand.mk (.literal (some key)) m.span fields ∈ os ∧
    key.stringValue? = some m.name

theorem Reads.append_assoc (r s t : Reads) : r ++ s ++ t = r ++ (s ++ t) := by
  simp only [Reads.append_eq, List.append_assoc]

/-- What is recorded in a text comes from some operands. -/
structure Reads.From (text : List Char) (os : List Operand) (r : Reads) : Prop where
  calls : ∀ m ∈ r.calls, ∃ name span fields, Operand.mk (.function (some name)) span fields ∈ os ∧
    m = name.mentionIn text
  labels : ∀ m ∈ r.labels, m.OnLine text ∧ (FieldNames os m ∨ LiteralNames os m)
  values : ∀ v ∈ r.values, v.OnLine text ∧ ∃ term fields, Reading.isDirect term ∧
    Operand.mk term v.span fields ∈ os

namespace Reads.From

variable {text : List Char} {os os' : List Operand} {r s : Reads}

theorem empty : ({} : Reads).From text os where
  calls _ h := absurd h List.not_mem_nil
  labels _ h := absurd h List.not_mem_nil
  values _ h := absurd h List.not_mem_nil

/-- More operands leave what is read in place. -/
theorem mono (h : r.From text os) (hsub : os ⊆ os') : r.From text os' where
  calls m hm := by
    obtain ⟨name, span, fields, hmem, heq⟩ := h.calls m hm
    exact ⟨name, span, fields, hsub hmem, heq⟩
  labels m hm := by
    obtain ⟨hline, ⟨term, span, fields, hmem, hfield⟩ | ⟨key, fields, hmem, hkey⟩⟩ := h.labels m hm
    · exact ⟨hline, .inl ⟨term, span, fields, hsub hmem, hfield⟩⟩
    · exact ⟨hline, .inr ⟨key, fields, hsub hmem, hkey⟩⟩
  values v hv := by
    obtain ⟨hline, term, fields, hdirect, hmem⟩ := h.values v hv
    exact ⟨hline, term, fields, hdirect, hsub hmem⟩

/-- Two records of what some operands name are one such record. -/
theorem append (hr : r.From text os) (hs : s.From text os) : (r ++ s).From text os where
  calls := List.forall_mem_append.mpr ⟨hr.calls, hs.calls⟩
  labels := List.forall_mem_append.mpr ⟨hr.labels, hs.labels⟩
  values := List.forall_mem_append.mpr ⟨hr.values, hs.values⟩

/-- Without its reads of the value. -/
theorem takeNone (h : r.From text os) : ({ r with values := [] } : Reads).From text os :=
  ⟨h.calls, h.labels, fun _ hv ↦ absurd hv List.not_mem_nil⟩

end Reads.From

namespace Reading

variable {α β : Type} {os os' : List Operand}

/-- The step leaves the text alone, and what it records comes from some operands. -/
def Gathers (os : List Operand) (step : Reading α) : Prop := ∀ s : State,
  (step s).2.text = s.text ∧ ∃ r : Reads, (step s).2.reads = s.reads ++ r ∧ r.From s.text os

/-- A step that gathers from some operands gathers from more. -/
theorem Gathers.mono {step : Reading α} (h : Gathers os step) (hsub : os ⊆ os') :
    Gathers os' step := by
  intro s
  obtain ⟨htext, r, hreads, hr⟩ := h s
  exact ⟨htext, r, hreads, hr.mono hsub⟩

/-- A step that reads nothing gathers from any operands. -/
theorem gathers_of_same {step : Reading α} (htext : ∀ s, (step s).2.text = s.text)
    (hreads : ∀ s, (step s).2.reads = s.reads) : Gathers os step :=
  fun s ↦ ⟨htext s, {}, (hreads s).trans s.reads.append_nil.symm, .empty⟩

theorem gathers_pure (a : α) : Gathers os (pure a : Reading α) :=
  gathers_of_same (fun _ ↦ rfl) fun _ ↦ rfl

theorem gathers_get : Gathers os (get : Reading State) :=
  gathers_of_same (fun _ ↦ rfl) fun _ ↦ rfl

theorem Gathers.bind {step : Reading α} {f : α → Reading β} (hstep : Gathers os step)
    (hf : ∀ a, Gathers os (f a)) : Gathers os (step >>= f) := by
  intro s
  obtain ⟨htext, r, hreads, hr⟩ := hstep s
  obtain ⟨htext', r', hreads', hr'⟩ := hf (step s).1 (step s).2
  refine ⟨htext'.trans htext, r ++ r', ?_, hr.append (htext ▸ hr')⟩
  rw [bind_apply, hreads', hreads, Reads.append_assoc]

theorem Gathers.ite {c : Prop} [Decidable c] {step next : Reading α} (hstep : Gathers os step)
    (hnext : Gathers os next) : Gathers os (if c then step else next) := by
  split
  · exact hstep
  · exact hnext

/-! ### Operands -/

/-- Reading a label gathers it if a field or a literal names it. -/
theorem gathers_readLabel {name : String} {span : Span}
    (h : ∀ line, FieldNames os ⟨name, span, line⟩ ∨ LiteralNames os ⟨name, span, line⟩) :
    Gathers os (readLabel name span) := fun s ↦
  ⟨rfl, { labels := [⟨name, span, lineAt s.text span.start⟩] }, by
    change Reads.mk (s.reads.labels ++ [_]) _ _ = _
    simp [Reads.append_eq],
    { Reads.From.empty with
      labels := List.forall_mem_singleton.mpr ⟨rfl, h _⟩ }⟩

/-- Reading the value gathers it at an operand that starts with the dot or a name. -/
theorem gathers_readValue (chain : List String) {term : Term} {span : Span} {fields : List Token}
    (hdirect : isDirect term) (h : Operand.mk term span fields ∈ os) :
    Gathers os (readValue chain span) := fun s ↦
  ⟨rfl, { values := [⟨⟨chain.headD "", span, lineAt s.text span.start⟩, chain⟩] }, by
    change Reads.mk _ (s.reads.values ++ [_]) _ = _
    simp [Reads.append_eq],
    { Reads.From.empty with
      values := List.forall_mem_singleton.mpr ⟨rfl, term, fields, hdirect, h⟩ }⟩

/-- Calling a function gathers the call at the operand that names it. -/
theorem gathers_callFunction {name : Token} {span : Span} {fields : List Token}
    (h : Operand.mk (.function (some name)) span fields ∈ os) :
    Gathers os (callFunction name) := fun s ↦
  ⟨rfl, { calls := [name.mentionIn s.text] }, by
    change Reads.mk _ _ (s.reads.calls ++ [_]) = _
    simp [Reads.append_eq, Token.mentionIn, Token.span],
    { Reads.From.empty with
      calls := List.forall_mem_singleton.mpr ⟨name, span, fields, h, rfl⟩ }⟩

section Operand

variable {term : Term} {span : Span} {fields : List Token}

/-- Following a field gathers what the operand with the field names. -/
theorem gathers_applyField (h : Operand.mk term span fields ∈ os) (base : Denotation)
    {field : Token} (hfield : field ∈ fields) (place : Span) :
    Gathers os (applyField place base field) := by
  cases base with
  | alert => exact .ite (gathers_pure _) (.ite (gathers_get.bind fun _ ↦ gathers_pure _)
      (gathers_pure _))
  | labels => exact (gathers_readLabel fun _ ↦
      .inl ⟨term, span, fields, h, field, hfield, rfl, rfl⟩).bind fun _ ↦ gathers_pure _
  | value chain => exact gathers_pure _
  | unknown => exact gathers_pure _

/-- Following fields gathers what the operand with all of them names. -/
theorem gathers_applyFields (h : Operand.mk term span fields ∈ os) (place : Span)
    (base : Denotation) {fs : List Token} (hfs : fs ⊆ fields) :
    Gathers os (applyFields place base fs) := by
  induction fs generalizing base with
  | nil => exact gathers_pure _
  | cons f fs ih =>
    obtain ⟨hf, hfs⟩ := List.cons_subset.mp hfs
    exact (gathers_applyField h base hf place).bind fun d ↦ ih d hfs

/-- Only the fields of an operand, and for a dot or a name its place, are recorded. -/
theorem gathers_finishOperand (h : Operand.mk term span fields ∈ os) {term' : Term}
    (hterm : isDirect term' → isDirect term) (base : Denotation) :
    Gathers os (finishOperand term' span fields base) := by
  refine (gathers_applyFields h span base (List.Subset.refl fields)).bind fun d ↦ ?_
  cases d with
  | value chain =>
    change Gathers os (if isDirect term' then _ else _)
    split
    next hdirect =>
      exact (gathers_readValue chain (hterm hdirect) h).bind fun _ ↦ gathers_pure _
    next => exact gathers_pure _
  | alert | labels | unknown => exact gathers_pure _

theorem gathers_termResult (h : Operand.mk term span fields ∈ os) :
    Gathers os (termResult term) := by
  cases term with
  | dot => exact gathers_get.bind fun _ ↦ gathers_pure _
  | field => exact gathers_get.bind fun _ ↦ gathers_pure _
  | «variable» name =>
    cases name with
    | none => exact gathers_pure _
    | some name =>
      refine (gathers_get.bind fun _ ↦ gathers_pure _).bind fun d ↦ ?_
      cases d <;> exact gathers_pure _
  | function name =>
    cases name with
    | none => exact gathers_pure _
    | some name => exact (gathers_callFunction h).bind fun _ ↦ gathers_pure _
  | literal token => exact gathers_pure _
  | paren body => exact gathers_pure _

theorem gathers_simpleOperand (h : Operand.mk term span fields ∈ os) :
    Gathers os (simpleOperand term span fields) := by
  refine (gathers_termResult h).bind fun base ↦ ?_
  cases base with
  | none => exact gathers_pure _
  | some base => exact gathers_finishOperand h id base

end Operand

/-! ### Pipelines -/

/-- A label that is looked up by name is named by a literal of the command. -/
theorem literalNames_of_indexedLabel? {cs : List Operand} {ds : List Denotation} {name : String}
    {span : Span} (h : indexedLabel? cs ds = some (name, span)) (line : Nat) :
    LiteralNames cs ⟨name, span, line⟩ := by
  unfold indexedLabel? at h
  split at h
  · split at h
    · obtain ⟨key, hkey, heq⟩ := Option.map_eq_some_iff.mp h
      obtain ⟨rfl, rfl⟩ := Prod.mk.inj heq
      exact ⟨_, _, List.mem_cons_of_mem _ (List.mem_cons_of_mem _ List.mem_cons_self), hkey⟩
    · exact absurd h nofun
  · exact absurd h nofun

/-- The result of a command gathers from the operands of the command. -/
theorem gathers_commandResult {c : List Operand} (h : c ⊆ os) (ds : List Denotation) :
    Gathers os (commandResult c ds) := by
  unfold commandResult
  split
  next name span hlabel =>
    refine (gathers_readLabel fun line ↦ .inr ?_).bind fun _ ↦ gathers_pure _
    obtain ⟨key, fields, hmem, hkey⟩ := literalNames_of_indexedLabel? hlabel line
    exact ⟨key, fields, h hmem, hkey⟩
  next => exact gathers_pure _
  next => exact gathers_pure _

/-- A declaration keeps what has been recorded, or takes back the reads of the value. -/
theorem reads_bind {s t : State} {r : Reads} (h : t.reads = s.reads ++ r) (decl : Decl)
    (inRange : Bool) (result : Denotation) :
    (bind decl inRange s.reads.values.length result t).2.reads = s.reads ++ r ∨
      (bind decl inRange s.reads.values.length result t).2.reads =
        s.reads ++ { r with values := [] } := by
  obtain ⟨names, isAssign⟩ := decl
  rcases inRange with _ | _
  · rcases names with _ | ⟨name, _ | ⟨second, rest⟩⟩
    · exact .inl h
    · cases result with
      | value chain =>
        refine .inr ?_
        change Reads.mk t.reads.labels (t.reads.values.take s.reads.values.length) t.reads.calls = _
        simp [h, Reads.append_eq]
      | alert | labels | unknown => exact .inl h
    · exact .inl h
  · exact .inl h

/-- Binding variables leaves the text as it is. -/
theorem text_bind (decl : Decl) (inRange : Bool) (valuesBefore : Nat) (result : Denotation)
    (s : State) : (bind decl inRange valuesBefore result s).2.text = s.text := by
  obtain ⟨names, isAssign⟩ := decl
  rcases inRange with _ | _
  · rcases names with _ | ⟨name, _ | ⟨second, rest⟩⟩ <;> rfl
  · rfl

mutual

/-- Reading an operand gathers from the operands in it. -/
theorem gathers_operand : ∀ o : Operand, Gathers o.operands (operand o)
  | .mk (.paren none) span fields => by
    rw [operand]
    exact gathers_finishOperand (mem_operands _) id _
  | .mk (.paren (some p)) span fields => by
    rw [operand, Operand.operands]
    exact ((gathers_pipeline p false).mono (List.subset_cons_self _ _)).bind
      (gathers_finishOperand List.mem_cons_self id)
  | .mk .dot span fields | .mk .field span fields | .mk (.variable _) span fields
  | .mk (.function _) span fields | .mk (.literal _) span fields => by
    rw [operand_eq (by simp)]
    exact gathers_simpleOperand (mem_operands _)

theorem gathers_operands : ∀ os : List Operand, Gathers (operandsOperands os) (operands os)
  | [] => gathers_pure _
  | o :: os => by
    rw [operandsOperands]
    exact ((gathers_operand o).mono (List.subset_append_left _ _)).bind fun _ ↦
      ((gathers_operands os).mono (List.subset_append_right _ _)).bind fun _ ↦ gathers_pure _

theorem gathers_commands : ∀ cs : List (List Operand), Gathers (commandsOperands cs) (commands cs)
  | [] => gathers_pure _
  | c :: cs => by
    have hown : operandsOperands c ⊆ operandsOperands c ++ commandsOperands cs :=
      List.subset_append_left _ _
    rw [commandsOperands]
    exact ((gathers_operands c).mono hown).bind fun values ↦
      (gathers_commandResult (List.Subset.trans (subset_operandsOperands c) hown)
        values).bind fun _ ↦
        ((gathers_commands cs).mono (List.subset_append_right _ _)).bind fun _ ↦ gathers_pure _

/-- Reading a pipeline gathers from its operands. -/
theorem gathers_pipeline : ∀ (p : Pipeline) (inRange : Bool),
    Gathers p.operands (pipeline p inRange)
  | .mk none cs, inRange => by
    rw [pipeline]
    exact gathers_get.bind fun _ ↦ (gathers_commands cs).bind fun _ ↦ gathers_pure _
  | .mk (some decl) cs, inRange => by
    intro s
    obtain ⟨htext, r, hreads, hr⟩ := gathers_commands cs s
    rw [pipeline]
    refine ⟨(text_bind _ _ _ _ _).trans htext, ?_⟩
    rcases reads_bind hreads decl inRange (pipelineResult (commands cs s).1) with hkept | htaken
    · exact ⟨r, hkept, hr⟩
    · exact ⟨_, htaken, hr.takeNone⟩

end

theorem gathers_pipelineOf (p : Option Pipeline) (inRange : Bool) :
    Gathers (pipelineOperands p) (pipelineOf p inRange) := by
  cases p with
  | none => exact gathers_pure _
  | some p => exact gathers_pipeline p inRange

/-! ### Items -/

section Scopes

variable {step : Reading Unit}

theorem Gathers.keepingScope (h : Gathers os step) : Gathers os (keepingScope step) := fun s ↦ h s

theorem Gathers.withDot (h : Gathers os step) (dot : Denotation) : Gathers os (withDot dot step) :=
  fun s ↦ h { s with dot }

theorem Gathers.isolated (h : Gathers os step) : Gathers os (isolated step) := fun s ↦ h s.fresh

end Scopes

mutual

/-- Reading an item gathers from its operands at any depth. -/
theorem gathers_item : ∀ i : Item, Gathers i.operands (item i)
  | .action _ p | .call _ _ p => by
    rw [item, Item.operands]
    exact (gathers_pipelineOf p false).bind fun _ ↦ gathers_pure _
  | .control kind _ p b o => by
    have hheader := (gathers_pipelineOf p (kind = .rangeBlock)).mono
      (List.subset_append_left _ b.operands)
    have hbody := (gathers_body b).mono (List.subset_append_right (pipelineOperands p) _)
    rw [item_control, Item.operands]
    refine (Gathers.bind (Gathers.mono (hheader.bind fun d ↦ ?_) (List.subset_append_left _ _))
      fun _ ↦ (gathers_otherwise o).mono (List.subset_append_right _ _)).keepingScope
    cases kind with
    | ifBlock => exact hbody
    | withBlock => exact hbody.withDot d
    | rangeBlock => exact hbody.withDot .unknown
  | .define _ _ b => by
    rw [item, Item.operands]
    exact (gathers_body b).isolated
  | .block _ _ p b => by
    rw [item, Item.operands]
    exact ((gathers_pipelineOf p false).mono (List.subset_append_left _ _)).bind fun _ ↦
      ((gathers_body b).mono (List.subset_append_right _ _)).isolated

theorem gathers_body : ∀ b : Body, Gathers b.operands (body b)
  | .missing => gathers_pure _
  | .items is => gathers_items is

/-- What is recorded of some items comes from the operands in them. -/
theorem gathers_items : ∀ is : List Item, Gathers (itemsOperands is) (items is)
  | [] => gathers_pure _
  | i :: is => by
    rw [itemsOperands]
    exact ((gathers_item i).mono (List.subset_append_left _ _)).bind fun _ ↦
      (gathers_items is).mono (List.subset_append_right _ _)

theorem gathers_otherwise : ∀ o : Otherwise, Gathers o.operands (otherwise o)
  | .none => gathers_pure _
  | .nested i => gathers_item i
  | .body b => gathers_body b

end

end Reading

end AlertAudit.Template
