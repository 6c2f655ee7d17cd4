import AlertAudit.Proofs.Template.Positions
import Mathlib.Data.List.Infix

/-!
The chains of names under which the sample value is read. What stands for the value has a chain of
variables that ends in `$value` or in an operand that reads the field `Value`; a variable that is
looked up comes in front of the chain. The invariant of a reading (`State.Traced`) is that every
binding in scope, the dot and every read have such a chain, but for the binding of `$value` that a
template starts with: its chain is empty until it is looked up.
-/

set_option autoImplicit false

namespace AlertAudit.Text

/-- From the start of a stretch to the stop of one that does not start before it. -/
theorem Span.Covers.hull {text chars chars' : List Char} {s s' : Span} (h : s.Covers text chars)
    (h' : s'.Covers text chars') (hle : s.start ≤ s'.start) :
    ∃ front, Span.Covers text ⟨s.start, s'.stop⟩ (front ++ chars') := by
  obtain ⟨before, after, htext, rfl⟩ := h
  obtain ⟨before', after', htext', rfl⟩ := h'
  have hown : before ++ (chars ++ after) = text := by rw [htext, List.append_assoc]
  have hother : before' ++ (chars' ++ after') = text := by rw [htext', List.append_assoc]
  have hprefix : before <+: before' := by
    rcases List.prefix_or_prefix_of_prefix ⟨_, hown⟩ ⟨_, hother⟩ with hprefix | hprefix
    · exact hprefix
    · obtain ⟨rest, rfl⟩ := hprefix
      have hlength := utf8Length_append before' rest
      have hsame : utf8Length (before' ++ rest) = utf8Length before' :=
        Nat.le_antisymm hle (by omega)
      rw [(eq_of_utf8Length_eq (hown.trans hother.symm) hsame).1]
  obtain ⟨front, rfl⟩ := hprefix
  refine ⟨front, before, after', ?_, ?_⟩
  · rw [htext', List.append_assoc before]
  · rw [List.append_assoc]

end AlertAudit.Text

namespace AlertAudit.Template

open AlertAudit.Text

/-- The name of a variable: a dollar sign and a word. -/
def NamesVariable (name : String) : Prop :=
  ∃ word, name.toList = '$' :: word ∧ ∀ c ∈ word, Scan.isWordChar c

/-- The source of one of the operands, which ends in a read of the field `Value`. -/
def ReadsField (text : List Char) (os : List Operand) (source : String) : Prop :=
  ∃ term span fields, Operand.mk term span fields ∈ os ∧ span.Covers text source.toList ∧
    ".Value".toList <:+ source.toList

/-- Variables that stand for each other, down to the variable `$value` or to an operand that reads
the field `Value`. -/
def Traces (text : List Char) (os : List Operand) (chain : List String) : Prop :=
  ∃ names source, chain = names ++ [source] ∧ (∀ name ∈ names, NamesVariable name) ∧
    (source = "$value" ∨ ReadsField text os source)

section Traces

variable {text : List Char} {os os' : List Operand} {chain : List String}

/-- A chain that goes back to the value is not empty. -/
theorem Traces.ne_nil (h : Traces text os chain) : chain ≠ [] := by
  obtain ⟨names, source, rfl, -⟩ := h
  simp

/-- One more name in front of a chain. -/
theorem Traces.cons (h : Traces text os chain) {name : String} (hname : NamesVariable name) :
    Traces text os (name :: chain) := by
  obtain ⟨names, source, rfl, hnames, hsource⟩ := h
  exact ⟨name :: names, source, rfl, List.forall_mem_cons.mpr ⟨hname, hnames⟩, hsource⟩

/-- The chain of what holds the value itself. -/
theorem traces_singleton {source : String} (h : source = "$value" ∨ ReadsField text os source) :
    Traces text os [source] :=
  ⟨[], source, rfl, fun _ hname ↦ absurd hname List.not_mem_nil, h⟩

end Traces

/-- If this is the sample value, its chain is one of variables. -/
def Denotation.Traced (text : List Char) (os : List Operand) : Denotation → Prop
  | .value chain => Traces text os chain
  | _ => True

/-- What the chains of a reading rest on: variables have the names of variables, and an operand that
ends in the field `Value` is a stretch of the text that does so. -/
structure Rooted (text : List Char) (os : List Operand) : Prop where
  names : ∀ {name span fields}, Operand.mk (.variable (some name)) span fields ∈ os →
    NamesVariable name.text
  source : ∀ {term span fields front last}, Operand.mk term span fields ∈ os →
    fields = front ++ [last] → Reading.fieldName last = "Value" →
      ReadsField text os (String.ofList (span.slice text))

namespace Reading

/-- The binding of `$value` that a template starts with, or one with a chain. -/
def Anchored (text : List Char) (os : List Operand) (binding : String × Denotation) : Prop :=
  binding = ("$value", .value []) ∨ binding.2.Traced text os

/-- The invariant of a reading. -/
structure State.Traced (text : List Char) (os : List Operand) (s : State) : Prop where
  source : s.text = text
  scope : ∀ binding ∈ s.scope, Anchored text os binding
  dot : s.dot.Traced text os
  values : ∀ v ∈ s.reads.values, v.chain.head? = some v.name ∧ Traces text os v.chain

variable {α β : Type} {text : List Char} {os : List Operand}

/-- The step keeps the invariant, and what it gives has the property. -/
def Upholds (text : List Char) (os : List Operand) (step : Reading α) (P : α → Prop) : Prop :=
  ∀ s : State, s.Traced text os → (step s).2.Traced text os ∧ P (step s).1

section Upholds

variable {P : α → Prop} {Q : β → Prop}

theorem upholds_pure {a : α} (h : P a) : Upholds text os (pure a) P := fun _ hs ↦ ⟨hs, h⟩

/-- Steps that uphold the invariant do so one after the other. -/
theorem Upholds.bind {step : Reading α} {f : α → Reading β} (hstep : Upholds text os step P)
    (hf : ∀ a, P a → Upholds text os (f a) Q) : Upholds text os (step >>= f) Q := by
  intro s hs
  obtain ⟨ht, ha⟩ := hstep s hs
  exact hf _ ha _ ht

theorem upholds_ite {c : Prop} [Decidable c] {step next : Reading α}
    (hstep : c → Upholds text os step P) (hnext : ¬c → Upholds text os next P) :
    Upholds text os (if c then step else next) P := by
  split
  next h => exact hstep h
  next h => exact hnext h

end Upholds

/-! ### Operands -/

/-- The read of a label upholds the invariant. -/
theorem upholds_readLabel (name : String) (span : Span) :
    Upholds text os (readLabel name span) fun _ ↦ True :=
  fun _ hs ↦ ⟨⟨hs.source, hs.scope, hs.dot, hs.values⟩, trivial⟩

theorem upholds_callFunction (name : Token) :
    Upholds text os (callFunction name) fun _ ↦ True :=
  fun _ hs ↦ ⟨⟨hs.source, hs.scope, hs.dot, hs.values⟩, trivial⟩

/-- A read is recorded under the first name of its chain. -/
theorem upholds_readValue {chain : List String} (h : Traces text os chain) (span : Span) :
    Upholds text os (readValue chain span) fun _ ↦ True := by
  intro s hs
  have hhead : chain.head? = some (chain.headD "") := by
    obtain ⟨first, rest, rfl⟩ := List.exists_cons_of_ne_nil h.ne_nil
    rfl
  exact ⟨⟨hs.source, hs.scope, hs.dot, List.forall_mem_append.mpr
    ⟨hs.values, List.forall_mem_singleton.mpr ⟨hhead, h⟩⟩⟩, trivial⟩

/-- Only `$value` itself may be found without a chain. -/
theorem anchored_lookup {scope : List (String × Denotation)}
    (h : ∀ binding ∈ scope, Anchored text os binding) (name : String) :
    (scope.lookup name).getD .unknown = .value [] ∧ name = "$value" ∨
      ((scope.lookup name).getD .unknown).Traced text os := by
  cases hlookup : scope.lookup name with
  | none => exact .inr trivial
  | some d =>
    obtain ⟨front, back, rfl, -⟩ := List.lookup_eq_some_iff.mp hlookup
    rcases h (name, d) (List.mem_append_right _ List.mem_cons_self) with heq | hd
    · obtain ⟨rfl, rfl⟩ := Prod.mk.inj heq
      exact .inl ⟨rfl, rfl⟩
    · exact .inr hd

/-- A variable comes in front of the chain that it stands for. -/
theorem upholds_termResult {term : Term}
    (h : ∀ name, term = .variable (some name) → NamesVariable name.text) :
    Upholds text os (termResult term) fun base ↦ ∀ d, base = some d → d.Traced text os := by
  have hdot : Upholds text os (do return some (← get).dot)
      fun base ↦ ∀ d, base = some d → d.Traced text os := by
    rintro s hs
    exact ⟨hs, fun d hd ↦ Option.some.inj hd ▸ hs.dot⟩
  cases term with
  | dot => exact hdot
  | field => exact hdot
  | «variable» name =>
    cases name with
    | none => exact upholds_pure nofun
    | some name =>
      have hlookup : Upholds text os (lookup name.text) fun d ↦
          d = .value [] ∧ name.text = "$value" ∨ d.Traced text os := fun s hs ↦
        ⟨hs, anchored_lookup hs.scope name.text⟩
      refine hlookup.bind fun d hd ↦ ?_
      cases d with
      | value chain =>
        have hchain : Traces text os (name.text :: chain) := by
          rcases hd with ⟨hempty, hname⟩ | hchain
          · obtain rfl := Denotation.value.inj hempty
            exact traces_singleton (.inl hname)
          · exact Traces.cons hchain (h name rfl)
        exact upholds_pure fun d hd ↦ Option.some.inj hd ▸ hchain
      | alert | labels | unknown => exact upholds_pure fun d hd ↦ Option.some.inj hd ▸ trivial
  | function name =>
    cases name with
    | none => exact upholds_pure nofun
    | some name => exact (upholds_callFunction name).bind fun _ _ ↦ upholds_pure nofun
  | literal token => exact upholds_pure nofun
  | paren body => exact upholds_pure nofun

/-- Only the field `Value` gives the sample value. -/
theorem upholds_applyField (span : Span) (base : Denotation) (field : Token) :
    Upholds text os (applyField span base field) fun d ↦
      (fieldName field = "Value" → Traces text os [String.ofList (span.slice text)]) →
        d.Traced text os := by
  cases base with
  | alert =>
    refine upholds_ite (fun _ ↦ upholds_pure fun _ ↦ trivial) fun _ ↦
      upholds_ite (fun hvalue s hs ↦ ⟨hs, fun h ↦ ?_⟩) fun _ ↦ upholds_pure fun _ ↦ trivial
    change Traces text os [String.ofList (span.slice s.text)]
    rw [hs.source]
    exact h hvalue
  | labels => exact (upholds_readLabel _ _).bind fun _ _ ↦ upholds_pure fun _ ↦ trivial
  | value chain => exact upholds_pure fun _ ↦ trivial
  | unknown => exact upholds_pure fun _ ↦ trivial

/-- What the last field gives, or without fields what they are attached to. -/
theorem upholds_applyFields {span : Span} {fields : List Token} {base : Denotation}
    (hbase : fields = [] → base.Traced text os)
    (h : ∀ front last, fields = front ++ [last] → fieldName last = "Value" →
      Traces text os [String.ofList (span.slice text)]) :
    Upholds text os (applyFields span base fields) fun d ↦ d.Traced text os := by
  induction fields generalizing base with
  | nil => exact upholds_pure (hbase rfl)
  | cons f fs ih =>
    refine (upholds_applyField span base f).bind fun d hd ↦ ih ?_ ?_
    · rintro rfl
      exact hd (h [] f rfl)
    · intro front last hfs
      exact h (f :: front) last (congrArg (f :: ·) hfs)

section Operand

variable (hos : Rooted text os) {term : Term} {span : Span} {fields : List Token}
  (h : Operand.mk term span fields ∈ os)

include hos h

/-- What the fields of an operand lead to is traced. -/
theorem upholds_finishOperand (term' : Term) {base : Denotation} (hbase : base.Traced text os) :
    Upholds text os (finishOperand term' span fields base) fun d ↦ d.Traced text os := by
  have hsource (front : List Token) (last : Token) (hfields : fields = front ++ [last])
      (hvalue : fieldName last = "Value") : Traces text os [String.ofList (span.slice text)] :=
    traces_singleton (.inr (hos.source h hfields hvalue))
  refine (upholds_applyFields (fun _ ↦ hbase) hsource).bind fun d hd ↦ ?_
  cases d with
  | value chain =>
    exact upholds_ite (fun _ ↦ (upholds_readValue hd span).bind fun _ _ ↦ upholds_pure hd)
      fun _ ↦ upholds_pure hd
  | alert | labels | unknown => exact upholds_pure hd

/-- What an operand without parentheses stands for is traced. -/
theorem upholds_simpleOperand :
    Upholds text os (simpleOperand term span fields) fun d ↦ d.Traced text os := by
  have hterm : ∀ name, term = .variable (some name) → NamesVariable name.text := by
    rintro name rfl
    exact hos.names h
  refine (upholds_termResult hterm).bind fun base hbase ↦ ?_
  cases base with
  | none => exact upholds_pure trivial
  | some base => exact upholds_finishOperand hos h term (hbase base rfl)

end Operand

/-! ### Pipelines -/

/-- What a command stands for is traced. -/
theorem upholds_commandResult (c : List Operand) {ds : List Denotation}
    (h : ∀ d ∈ ds, d.Traced text os) :
    Upholds text os (commandResult c ds) fun d ↦ d.Traced text os := by
  unfold commandResult
  split
  next name span _ => exact (upholds_readLabel name span).bind fun _ _ ↦ upholds_pure trivial
  next single _ => exact upholds_pure (h single List.mem_cons_self)
  next => exact upholds_pure trivial

/-- What a pipeline stands for is traced, if each of its commands is. -/
theorem traced_pipelineResult {ds : List Denotation} (h : ∀ d ∈ ds, d.Traced text os) :
    (pipelineResult ds).Traced text os := by
  match ds, h with
  | [], _ => exact trivial
  | [single], h => exact h single List.mem_cons_self
  | first :: _ :: _, h =>
    rw [pipelineResult]
    · split
      · exact h first List.mem_cons_self
      · exact trivial
    · simp

/-- Rebinding a variable to what is traced keeps the scope anchored. -/
theorem anchored_rebind? {name : String} {d : Denotation}
    {scope scope' : List (String × Denotation)} (h : rebind? name d scope = some scope')
    (hscope : ∀ e ∈ scope, Anchored text os e)
    (hd : d.Traced text os) : ∀ e ∈ scope', Anchored text os e := by
  induction scope generalizing scope' with
  | nil => exact absurd h nofun
  | cons e scope ih =>
    obtain ⟨n, old⟩ := e
    obtain ⟨he, hscope⟩ := List.forall_mem_cons.mp hscope
    rw [rebind?] at h
    split at h
    · obtain rfl := Option.some.inj h
      exact List.forall_mem_cons.mpr ⟨.inr hd, hscope⟩
    · obtain ⟨inner, hinner, rfl⟩ := Option.map_eq_some_iff.mp h
      exact List.forall_mem_cons.mpr ⟨he, ih hinner hscope⟩

/-- What is bound has a chain, so a declaration and an assignment keep the invariant. -/
theorem upholds_declare (decl : Decl) (inRange : Bool) (valuesBefore : Nat) {result : Denotation}
    (h : result.Traced text os) :
    Upholds text os (Reading.bind decl inRange valuesBefore result) fun _ ↦ True := by
  intro s hs
  obtain ⟨names, isAssign⟩ := decl
  have hunknown : ∀ scope,
      scope = (names.map fun v ↦ (v.text, Denotation.unknown)).reverse ++ s.scope →
        ∀ binding ∈ scope, Anchored text os binding := by
    rintro _ rfl
    refine List.forall_mem_append.mpr ⟨fun binding hbinding ↦ ?_, hs.scope⟩
    obtain ⟨v, -, rfl⟩ := List.mem_map.mp (List.mem_reverse.mp hbinding)
    exact .inr trivial
  rcases inRange with _ | _
  · rcases names with _ | ⟨name, _ | ⟨second, rest⟩⟩
    · exact ⟨⟨hs.source, hunknown _ rfl, hs.dot, hs.values⟩, trivial⟩
    · have hpushed : ∀ binding ∈ (name.text, result) :: s.scope, Anchored text os binding :=
        List.forall_mem_cons.mpr ⟨.inr h, hs.scope⟩
      refine ⟨⟨hs.source, ?_, hs.dot, ?_⟩, trivial⟩
      · change ∀ binding ∈ if isAssign then (rebind? name.text result s.scope).getD _ else _,
          Anchored text os binding
        split
        · cases hrebind : rebind? name.text result s.scope with
          | none => exact hpushed
          | some scope => exact anchored_rebind? hrebind hs.scope h
        · exact hpushed
      · change ∀ v ∈ (if result.isValue then _ else s.reads).values, _
        split
        · exact fun v hv ↦ hs.values v (List.mem_of_mem_take hv)
        · exact hs.values
    · exact ⟨⟨hs.source, hunknown _ rfl, hs.dot, hs.values⟩, trivial⟩
  · exact ⟨⟨hs.source, hunknown _ rfl, hs.dot, hs.values⟩, trivial⟩

mutual

/-- What an operand stands for is traced, at any depth of parentheses. -/
theorem upholds_operand (hos : Rooted text os) : ∀ o : Operand, o.operands ⊆ os →
    Upholds text os (operand o) fun d ↦ d.Traced text os
  | .mk (.paren none) span fields, h => by
    rw [operand]
    exact upholds_finishOperand hos (h (mem_operands _)) _ trivial
  | .mk (.paren (some p)) span fields, h => by
    rw [operand]
    rw [Operand.operands, List.cons_subset] at h
    exact (upholds_pipeline hos p false h.2).bind fun d hd ↦ upholds_finishOperand hos h.1 _ hd
  | .mk .dot span fields, h | .mk .field span fields, h | .mk (.variable _) span fields, h
  | .mk (.function _) span fields, h | .mk (.literal _) span fields, h => by
    rw [operand_eq (by simp)]
    exact upholds_simpleOperand hos (h (mem_operands _))

theorem upholds_operands (hos : Rooted text os) : ∀ c : List Operand, operandsOperands c ⊆ os →
    Upholds text os (operands c) fun ds ↦ ∀ d ∈ ds, d.Traced text os
  | [], _ => upholds_pure fun _ hd ↦ absurd hd List.not_mem_nil
  | o :: c, h => by
    rw [operandsOperands, List.append_subset] at h
    exact (upholds_operand hos o h.1).bind fun d hd ↦ (upholds_operands hos c h.2).bind
      fun ds hds ↦ upholds_pure (List.forall_mem_cons.mpr ⟨hd, hds⟩)

theorem upholds_commands (hos : Rooted text os) : ∀ cs : List (List Operand),
    commandsOperands cs ⊆ os → Upholds text os (commands cs) fun ds ↦ ∀ d ∈ ds, d.Traced text os
  | [], _ => upholds_pure fun _ hd ↦ absurd hd List.not_mem_nil
  | c :: cs, h => by
    rw [commandsOperands, List.append_subset] at h
    exact (upholds_operands hos c h.1).bind fun values hvalues ↦
      (upholds_commandResult c hvalues).bind fun d hd ↦ (upholds_commands hos cs h.2).bind
        fun ds hds ↦ upholds_pure (List.forall_mem_cons.mpr ⟨hd, hds⟩)

/-- What a pipeline stands for has a chain, also behind filters and through a declaration. -/
theorem upholds_pipeline (hos : Rooted text os) : ∀ (p : Pipeline) (inRange : Bool),
    p.operands ⊆ os → Upholds text os (pipeline p inRange) fun d ↦ d.Traced text os
  | .mk none cs, inRange, h => by
    rw [pipeline]
    exact (upholds_commands hos cs h).bind fun ds hds ↦ upholds_pure (traced_pipelineResult hds)
  | .mk (some decl) cs, inRange, h => by
    intro s hs
    rw [pipeline]
    obtain ⟨ht, hds⟩ := upholds_commands hos cs h s hs
    have hresult := traced_pipelineResult hds
    exact ⟨(upholds_declare decl inRange s.reads.values.length hresult _ ht).1, hresult⟩

end

theorem upholds_pipelineOf (hos : Rooted text os) (p : Option Pipeline) (inRange : Bool)
    (h : pipelineOperands p ⊆ os) :
    Upholds text os (pipelineOf p inRange) fun d ↦ d.Traced text os := by
  cases p with
  | none => exact upholds_pure trivial
  | some p => exact upholds_pipeline hos p inRange h

/-! ### Items -/

section Scopes

variable {step : Reading Unit}

/-- A scope of its own upholds the invariant. -/
theorem Upholds.keepingScope (h : Upholds text os step fun _ ↦ True) :
    Upholds text os (keepingScope step) fun _ ↦ True := by
  intro s hs
  have ht := (h s hs).1
  exact ⟨⟨ht.source, fun e he ↦ ht.scope e (List.mem_of_mem_drop he), ht.dot, ht.values⟩, trivial⟩

/-- Another dot that is traced upholds the invariant. -/
theorem Upholds.withDot (h : Upholds text os step fun _ ↦ True) {dot : Denotation}
    (hdot : dot.Traced text os) : Upholds text os (withDot dot step) fun _ ↦ True := by
  intro s hs
  have ht := (h { s with dot } ⟨hs.source, hs.scope, hdot, hs.values⟩).1
  exact ⟨⟨ht.source, ht.scope, hs.dot, ht.values⟩, trivial⟩

theorem Upholds.isolated (h : Upholds text os step fun _ ↦ True) :
    Upholds text os (isolated step) fun _ ↦ True := by
  intro s hs
  have hfresh : ∀ binding ∈ s.fresh.scope, Anchored text os binding :=
    List.forall_mem_singleton.mpr (.inr trivial)
  have ht := (h s.fresh ⟨hs.source, hfresh, trivial, hs.values⟩).1
  exact ⟨⟨ht.source, hs.scope, hs.dot, ht.values⟩, trivial⟩

end Scopes

mutual

/-- Reading an item upholds the invariant, at any depth. -/
theorem upholds_item (hos : Rooted text os) : ∀ i : Item, i.operands ⊆ os →
    Upholds text os (item i) fun _ ↦ True
  | .action _ p, h | .call _ _ p, h => by
    rw [item]
    exact (upholds_pipelineOf hos p false h).bind fun _ _ ↦ upholds_pure trivial
  | .control kind _ p b o, h => by
    rw [Item.operands, List.append_subset, List.append_subset] at h
    have hbody := upholds_body hos b h.1.2
    rw [item_control]
    refine (Upholds.bind (P := fun _ ↦ True) ((upholds_pipelineOf hos p _ h.1.1).bind fun d hd ↦ ?_)
      fun _ _ ↦ upholds_otherwise hos o h.2).keepingScope
    cases kind with
    | ifBlock => exact hbody
    | withBlock => exact hbody.withDot hd
    | rangeBlock => exact hbody.withDot trivial
  | .define _ _ b, h => by
    rw [item]
    exact (upholds_body hos b h).isolated
  | .block _ _ p b, h => by
    rw [Item.operands, List.append_subset] at h
    rw [item]
    exact (upholds_pipelineOf hos p false h.1).bind fun _ _ ↦ (upholds_body hos b h.2).isolated

theorem upholds_body (hos : Rooted text os) : ∀ b : Body, b.operands ⊆ os →
    Upholds text os (body b) fun _ ↦ True
  | .missing, _ => upholds_pure trivial
  | .items is, h => upholds_items hos is h

/-- The invariant holds along the reading of some items. -/
theorem upholds_items (hos : Rooted text os) : ∀ is : List Item, itemsOperands is ⊆ os →
    Upholds text os (items is) fun _ ↦ True
  | [], _ => upholds_pure trivial
  | i :: is, h => by
    rw [itemsOperands, List.append_subset] at h
    exact (upholds_item hos i h.1).bind fun _ _ ↦ upholds_items hos is h.2

theorem upholds_otherwise (hos : Rooted text os) : ∀ o : Otherwise, o.operands ⊆ os →
    Upholds text os (otherwise o) fun _ ↦ True
  | .none, _ => upholds_pure trivial
  | .nested i, h => upholds_item hos i h
  | .body b, h => upholds_body hos b h

end

/-- At the start only the prelude is in scope, and it is traced. -/
theorem traced_start (text : String) (os : List Operand) :
    (State.start text).Traced text.toList os where
  source := rfl
  scope := by simp [State.start, Anchored, Denotation.Traced]
  dot := trivial
  values _ hv := absurd hv List.not_mem_nil

end Reading

/-! ### Fields in a text -/

/-- The tokens of pieces stand in the order of the text. -/
theorem sublist_tokensOf_pieces (ts : List Token) : (tokensOf (pieces ts)).Sublist ts := by
  induction ts with
  | nil => exact .slnil
  | cons t ts ih =>
    rw [pieces]
    split
    · exact ih.cons t
    · exact ih.cons_cons t

/-- Pieces behind each other in a template start in this order. -/
theorem start_le_of_part {text : String} {p q : Piece} {ps : List Piece}
    (h : p :: ps <:+: pieces (Tokens.ofText text).tokens) (hq : q ∈ p :: ps) :
    p.token.start ≤ q.token.start := by
  have hordered : Ordered (Tokens.ofText text).tokens := ordered_place 0 _
  have hsub : (tokensOf (p :: ps)).Sublist (Tokens.ofText text).tokens :=
    (h.map Piece.token).sublist.trans (sublist_tokensOf_pieces _)
  have hbehind : Ordered (tokensOf (p :: ps)) := hordered.sublist hsub
  exact hbehind.start_le rfl (List.mem_map.mpr ⟨q, hq, rfl⟩)

open Grammar (Fields)

/-- The last field of some pieces is the last of them. -/
theorem getLast?_fieldsOf {ps : List Piece} {q : Piece} (hq : q.kind = .field) :
    (fieldsOf (ps ++ [q])).getLast? = some q.token := by
  have hkept : [q.token].filter (·.kind = .field) = [q.token] :=
    List.filter_cons_of_pos (decide_eq_true hq)
  rw [fieldsOf, tokensOf, List.map_append, List.filter_append, List.map_singleton, hkept,
    List.getLast?_concat]

/-- The last field of an operand is its last piece. -/
theorem exists_last_of_fields {depth : Nat} {ps : List Piece} {c : Parser.OperandClass}
    {spaced : Bool} {term : Term} {span : Span} {fields front : List Token} {last : Token}
    (h : Spelling.Operand depth ps c spaced (.mk term span fields))
    (hlast : fields = front ++ [last]) :
    ∃ first rest q, ps = first :: rest ∧ q ∈ ps ∧ q.token = last ∧
      span = ⟨first.token.start, last.stop⟩ := by
  have hconcat {qs : List Piece} {q : Piece} (hq : q.kind = .field)
      (h : fieldsOf (qs ++ [q]) = front ++ [last]) : q.token = last := by
    have hgetLast : (fieldsOf (qs ++ [q])).getLast? = some q.token := getLast?_fieldsOf hq
    rw [h, List.getLast?_concat] at hgetLast
    exact (Option.some.inj hgetLast).symm
  cases h with
  | @atom _ p fs _ _ _ hfields _ =>
    rcases List.eq_nil_or_concat' fs with rfl | ⟨fs, q, rfl⟩
    · have hmem : last ∈ fieldsOf [p] := hlast ▸ List.mem_append_right _ List.mem_cons_self
      obtain rfl : last = p.token := List.mem_singleton.mp (List.mem_filter.mp hmem).1
      exact ⟨p, [], p, rfl, List.mem_cons_self, rfl, rfl⟩
    · have hq := kind_of_mem_fields hfields (List.mem_append_right fs List.mem_cons_self)
      obtain rfl := @hconcat (p :: fs) q hq hlast
      refine ⟨p, _, q, rfl, by simp, rfl, ?_⟩
      rw [extentOf, ← List.cons_append, List.getLast?_concat]
      rfl
  | @paren _ left right ps fs _ _ _ _ _ hfields =>
    rcases List.eq_nil_or_concat' fs with rfl | ⟨fs, q, rfl⟩
    · exact absurd hlast.symm (List.append_ne_nil_of_right_ne_nil _ (List.cons_ne_nil _ _))
    · have hq := kind_of_mem_fields hfields (List.mem_append_right fs List.mem_cons_self)
      obtain rfl := hconcat hq hlast
      refine ⟨left, _, q, rfl, by simp, rfl, ?_⟩
      rw [extentOf, ← List.cons_append, ← List.append_assoc, List.getLast?_concat]
      rfl

section Template

variable {text : String}

/-- A variable token names a variable. -/
theorem namesVariable_of_mem {t : Token} (ht : t ∈ (Tokens.ofText text).tokens)
    (hkind : t.kind = .variable) : NamesVariable t.text := by
  obtain ⟨word, hword, hchars⟩ := exists_word ht (by rw [hkind]; rfl)
  exact ⟨word, hword, hchars⟩

theorem eq_of_termOf_variable {t name : Token} (h : termOf t = .variable (some name)) :
    name = t ∧ t.kind = .variable := by
  unfold termOf at h
  split at h
  next => cases h
  next hkind =>
    cases h
    exact ⟨rfl, hkind⟩
  all_goals cases h

/-- The field that reads the value is spelled in full. -/
theorem toList_of_field {f : Token} (hf : f ∈ (Tokens.ofText text).tokens) (hkind : f.kind = .field)
    (hvalue : Reading.fieldName f = "Value") : f.text.toList = ".Value".toList := by
  obtain ⟨word, hword, hchars⟩ := exists_word hf (by rw [hkind]; rfl)
  rw [fieldName_eq hword hchars] at hvalue
  rw [hword, ← String.toList_ofList (l := word), hvalue]
  rfl

/-- What the operands of a template are in its text. -/
theorem rooted_of_within {os : List Operand}
    (h : AllWithin (pieces (Tokens.ofText text).tokens) os) : Rooted text.toList os where
  names {name span fields} hmem := by
    obtain ⟨p, fs, spaced, c, hpart, -, -, -, hterm, -⟩ := (h _ hmem).exists_pieces fun _ ↦ nofun
    obtain ⟨rfl, hkind⟩ := eq_of_termOf_variable hterm.symm
    exact namesVariable_of_mem (mem_of_mem_pieces (hpart.mem List.mem_cons_self)) hkind
  source {term span fields front last} hmem hfields hvalue := by
    have hkind := ((h _ hmem).mem_fieldsOf (f := last) (by simp [hfields])).2
    obtain ⟨depth, ps, c, spaced, hpart, hspells⟩ := h _ hmem
    obtain ⟨first, rest, q, rfl, hq, rfl, rfl⟩ := exists_last_of_fields hspells hfields
    have hfield := mem_of_mem_pieces (hpart.mem hq)
    have hfirst := covers_token (mem_of_mem_pieces (hpart.mem List.mem_cons_self))
    obtain ⟨before, hcovers⟩ := hfirst.hull (covers_token hfield) (start_le_of_part hpart hq)
    rw [toList_of_field hfield hkind hvalue] at hcovers
    have hslice : Span.slice ⟨first.token.start, q.token.stop⟩ text.toList =
        before ++ ".Value".toList := hcovers.slice_eq
    have hsource : (String.ofList (before ++ ".Value".toList)).toList = before ++ ".Value".toList :=
      String.toList_ofList
    rw [hslice]
    refine ⟨term, _, fields, hmem, ?_, ?_⟩
    · rw [hsource]
      exact hcovers
    · rw [hsource]
      exact List.suffix_append _ _

/-- The chain of a read of the sample value starts with the name that is read. All of its elements
but the last one are names of variables, and the last one is `$value` or an operand of the template
that ends in a read of the field `Value`. -/
theorem traces_reads {reads : Reads} (h : Reads.ofText text = .ok reads) :
    ∀ v ∈ reads.values, v.chain.head? = some v.name ∧
      ∃ names source, v.chain = names ++ [source] ∧ (∀ name ∈ names, NamesVariable name) ∧
        (source = "$value" ∨
          ReadsField text.toList (itemsOperands (Parse.ofText text).tree.items) source) := by
  have herror : (Parse.ofText text).error = none := by
    cases herror : (Parse.ofText text).error with
    | none => rfl
    | some e =>
      rw [Reads.ofText, herror] at h
      cases h
  have hwithin := Spelling.within_template (spells_of_accepted herror).1
  rw [itemsOperands_bareItems] at hwithin
  have hitems := Reading.upholds_items (rooted_of_within hwithin) (Parse.ofText text).tree.items
    (List.Subset.refl _)
  rw [Reads.ofText, herror] at h
  obtain rfl := Except.ok.inj h
  exact (hitems _ (Reading.traced_start text _)).1.values

end Template

/-- `{{$v := .Value}}{{with $v}}{{.}}{{end}}` -/
def valueThroughDot : String :=
  "\x7b\x7b$v := .Value\x7d\x7d\x7b\x7bwith $v\x7d\x7d\x7b\x7b.\x7d\x7d\x7b\x7bend\x7d\x7d"

/-- Its reads: in the header, and through the dot. -/
def readsThroughDot : List ValueRead :=
  [⟨⟨"$v", ⟨23, 25⟩, 0⟩, ["$v", ".Value"]⟩, ⟨⟨"$v", ⟨29, 30⟩, 0⟩, ["$v", ".Value"]⟩]

set_option maxRecDepth 100000 in
/-- A read through the dot goes back to the field that the variable was bound to. -/
theorem traces_reads_throughDot : Reads.ofText valueThroughDot = .ok { values := readsThroughDot } ∧
    ∀ v ∈ readsThroughDot, v.chain.head? = some v.name ∧
      ∃ names source, v.chain = names ++ [source] ∧ (∀ name ∈ names, NamesVariable name) ∧
        (source = "$value" ∨ ReadsField valueThroughDot.toList
          (itemsOperands (Parse.ofText valueThroughDot).tree.items) source) := by
  have hreads : Reads.ofText valueThroughDot = .ok { values := readsThroughDot } := by
    decide +kernel
  exact ⟨hreads, traces_reads hreads⟩

end AlertAudit.Template
