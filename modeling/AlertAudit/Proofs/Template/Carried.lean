import AlertAudit.Proofs.Template.Calls
import AlertAudit.Proofs.Template.Moved
import AlertAudit.Proofs.Template.Readings
import AlertAudit.Proofs.Template.Stretches

/-!
Readings in a longer text. Put text in front of a template and behind it, and let something have
been read before: as long as the two readings have the same scope and the same dot, the moved
outline is read there as the outline is here. The values are the same, and each mention is moved by
the bytes and the line breaks in front (`carries_items`).
-/

set_option autoImplicit false

namespace AlertAudit.Template

open AlertAudit.Text

/-- The mention with `n` bytes and some line breaks put in front of the text. -/
def Mention.moved (n lines : Nat) (m : Mention) : Mention :=
  ⟨m.name, m.span.moved n, m.line + lines⟩

/-- The read with `n` bytes and some line breaks put in front of the text. -/
def ValueRead.moved (n lines : Nat) (v : ValueRead) : ValueRead :=
  ⟨v.toMention.moved n lines, v.chain⟩

/-- The reads with `n` bytes and some line breaks put in front of the text. -/
def Reads.moved (n lines : Nat) (r : Reads) : Reads :=
  ⟨r.labels.map (·.moved n lines), r.values.map (·.moved n lines), r.calls.map (·.moved n lines)⟩

/-- What is read one after the other, sort by sort. -/
instance : Append Reads :=
  ⟨fun r s ↦ ⟨r.labels ++ s.labels, r.values ++ s.values, r.calls ++ s.calls⟩⟩

/-- Two moves are one by the sum of both. -/
theorem Mention.moved_moved (v : Mention) (m n lines lines' : Nat) :
    (v.moved m lines).moved n lines' = v.moved (m + n) (lines + lines') := by
  simp only [Mention.moved, Span.moved, Nat.add_assoc]

theorem Reads.moved_moved (r : Reads) (m n lines lines' : Nat) :
    (r.moved m lines).moved n lines' = r.moved (m + n) (lines + lines') := by
  simp only [Reads.moved, List.map_map, Function.comp_def, ValueRead.moved, Mention.moved_moved]

namespace Reads

variable (r s : Reads) (n lines : Nat)

theorem append_eq : r ++ s = ⟨r.labels ++ s.labels, r.values ++ s.values, r.calls ++ s.calls⟩ := rfl

/-- A move by nothing. -/
theorem moved_zero : r.moved 0 0 = r := by
  rw [moved, show (Mention.moved 0 0) = id from rfl, show (ValueRead.moved 0 0) = id from rfl,
    List.map_id, List.map_id, List.map_id]

theorem append_nil : r ++ ({} : Reads) = r := by
  rw [append_eq, List.append_nil, List.append_nil, List.append_nil]

/-- A label that is read behind moved reads. -/
theorem append_label (m : Mention) : (⟨(r ++ s.moved n lines).labels ++ [m.moved n lines],
    (r ++ s.moved n lines).values, (r ++ s.moved n lines).calls⟩ : Reads) =
      r ++ Reads.moved n lines ⟨s.labels ++ [m], s.values, s.calls⟩ := by
  simp only [append_eq, moved, List.map_append, List.map_cons, List.map_nil, List.append_assoc]

/-- A read of the value behind moved reads. -/
theorem append_value (v : ValueRead) : (⟨(r ++ s.moved n lines).labels,
    (r ++ s.moved n lines).values ++ [v.moved n lines], (r ++ s.moved n lines).calls⟩ : Reads) =
      r ++ Reads.moved n lines ⟨s.labels, s.values ++ [v], s.calls⟩ := by
  simp only [append_eq, moved, List.map_append, List.map_cons, List.map_nil, List.append_assoc]

/-- A call behind moved reads. -/
theorem append_call (m : Mention) : (⟨(r ++ s.moved n lines).labels, (r ++ s.moved n lines).values,
    (r ++ s.moved n lines).calls ++ [m.moved n lines]⟩ : Reads) =
      r ++ Reads.moved n lines ⟨s.labels, s.values, s.calls ++ [m]⟩ := by
  simp only [append_eq, moved, List.map_append, List.map_cons, List.map_nil, List.append_assoc]

/-- The reads of a value that come first among what was read behind `r`. -/
theorem append_take (k : Nat) : (⟨(r ++ s.moved n lines).labels,
    (r ++ s.moved n lines).values.take (r.values.length + k),
      (r ++ s.moved n lines).calls⟩ : Reads) =
      r ++ Reads.moved n lines ⟨s.labels, s.values.take k, s.calls⟩ := by
  simp only [append_eq, moved, List.take_length_add_append, List.map_take]

end Reads

namespace Reading

/-- A text with more text around it, and what has been read in front of it. -/
structure Frame where
  front : List Char
  text : List Char
  back : List Char
  before : Reads

namespace Frame

def bytes (f : Frame) : Nat := utf8Length f.front

def lines (f : Frame) : Nat := f.front.count '\n'

end Frame

/-- The state `t` in a frame is the state `s` in the text alone. -/
structure Carried (f : Frame) (s t : State) : Prop where
  source : s.text = f.text
  target : t.text = f.front ++ f.text ++ f.back
  scope : t.scope = s.scope
  dot : t.dot = s.dot
  reads : t.reads = f.before ++ s.reads.moved f.bytes f.lines

/-- What the step does in the text alone, `step'` does in the frame. -/
def Carries {α : Type} (f : Frame) (step step' : Reading α) : Prop :=
  ∀ ⦃s t : State⦄, Carried f s t → (step' t).1 = (step s).1 ∧ Carried f (step s).2 (step' t).2

variable {f : Frame}

section Steps

variable {α β : Type}

theorem carries_pure (a : α) : Carries f (pure a : Reading α) (pure a) := fun _ _ h ↦ ⟨rfl, h⟩

/-- Steps that are carried one after the other are carried together. -/
theorem Carries.bind {step step' : Reading α} {g g' : α → Reading β} (hstep : Carries f step step')
    (hg : ∀ a, Carries f (g a) (g' a)) : Carries f (step >>= g) (step' >>= g') := by
  intro s t h
  obtain ⟨hvalue, h⟩ := hstep h
  rw [bind_apply, bind_apply, hvalue]
  exact hg _ h

theorem Carries.ite {c : Prop} [Decidable c] {step step' next next' : Reading α}
    (hstep : Carries f step step') (hnext : Carries f next next') :
    Carries f (if c then step else next) (if c then step' else next') := by
  split
  · exact hstep
  · exact hnext

end Steps

/-! ### Operands -/

variable {span : Span} {fields : List Token}

/-- The line of a place is moved by the lines in front of it. -/
theorem Carried.lineAt {s t : State} (h : Carried f s t) (hspan : span.Fits f.text) :
    lineAt t.text (span.moved f.bytes).start = lineAt s.text span.start + f.lines := by
  rw [h.target, h.source]
  exact lineAt_moved hspan.start_le f.front f.back

/-- The read of a label is carried to its new place. -/
theorem carries_readLabel (name : String) (hspan : span.Fits f.text) :
    Carries f (readLabel name span) (readLabel name (span.moved f.bytes)) := by
  intro s t h
  refine ⟨rfl, h.source, h.target, h.scope, h.dot, ?_⟩
  change Reads.mk (t.reads.labels ++ [⟨name, span.moved f.bytes, _⟩]) _ _ = _
  rw [h.lineAt hspan, h.reads]
  exact Reads.append_label f.before s.reads _ _ ⟨name, span, Text.lineAt s.text span.start⟩

/-- The read of the value is carried to its new place. -/
theorem carries_readValue (chain : List String) (hspan : span.Fits f.text) :
    Carries f (readValue chain span) (readValue chain (span.moved f.bytes)) := by
  intro s t h
  refine ⟨rfl, h.source, h.target, h.scope, h.dot, ?_⟩
  change Reads.mk _ (t.reads.values ++ [⟨⟨chain.headD "", span.moved f.bytes, _⟩, chain⟩]) _ = _
  rw [h.lineAt hspan, h.reads]
  exact Reads.append_value f.before s.reads _ _
    ⟨⟨chain.headD "", span, Text.lineAt s.text span.start⟩, chain⟩

/-- The call of a function is carried to its new place. -/
theorem carries_callFunction {name : Token} (hname : name.span.Fits f.text) :
    Carries f (callFunction name) (callFunction (name.moved f.bytes)) := by
  intro s t h
  refine ⟨rfl, h.source, h.target, h.scope, h.dot, ?_⟩
  change Reads.mk _ _ (t.reads.calls ++ [⟨name.text, (name.moved f.bytes).span, _⟩]) = _
  rw [Token.span_moved, h.lineAt hname, h.reads]
  exact Reads.append_call f.before s.reads _ _ (name.mentionIn s.text)

/-- What a variable stands for is carried. -/
theorem carries_lookup (name : String) : Carries f (lookup name) (lookup name) := by
  intro s t h
  refine ⟨?_, h⟩
  change (t.scope.lookup name).getD .unknown = (s.scope.lookup name).getD .unknown
  rw [h.scope]

theorem carries_dot : Carries f (do return some (← get).dot) (do return some (← get).dot) :=
  fun _ _ h ↦ ⟨congrArg some h.dot, h⟩

/-- A field is followed the same at its new place. -/
theorem carries_applyField (hspan : span.Fits f.text) (base : Denotation) {field : Token}
    (hfield : field.span.Fits f.text) :
    Carries f (applyField span base field)
      (applyField (span.moved f.bytes) base (field.moved f.bytes)) := by
  cases base with
  | alert =>
    refine .ite (carries_pure _) (.ite (fun s t h ↦ ⟨?_, h⟩) (carries_pure _))
    change Denotation.value [String.ofList ((span.moved f.bytes).slice t.text)] =
      .value [String.ofList (span.slice s.text)]
    rw [h.target, h.source]
    exact congrArg (fun cs ↦ Denotation.value [String.ofList cs])
      (Span.slice_moved hspan f.front f.back)
  | labels =>
    have hread := carries_readLabel (fieldName field) hfield
    rw [← Token.span_moved] at hread
    exact hread.bind fun _ ↦ carries_pure _
  | value chain => exact carries_pure _
  | unknown => exact carries_pure _

theorem carries_applyFields (hspan : span.Fits f.text)
    (hfields : ∀ s ∈ fields.map (·.span), s.Fits f.text) (base : Denotation) :
    Carries f (applyFields span base fields)
      (applyFields (span.moved f.bytes) base (fields.map (·.moved f.bytes))) := by
  induction fields generalizing base with
  | nil => exact carries_pure _
  | cons field fields ih =>
    obtain ⟨hfield, hfields⟩ := List.forall_mem_cons.mp hfields
    exact (carries_applyField hspan base hfield).bind (ih hfields)

/-- What is done behind the fields of an operand is carried. -/
theorem carries_finishOperand {term term' : Term} (hterm : isDirect term' = isDirect term)
    (hspan : span.Fits f.text) (hfields : ∀ s ∈ fields.map (·.span), s.Fits f.text)
    (base : Denotation) : Carries f (finishOperand term span fields base)
      (finishOperand term' (span.moved f.bytes) (fields.map (·.moved f.bytes)) base) := by
  refine (carries_applyFields hspan hfields base).bind fun d ↦ ?_
  rw [hterm]
  cases d with
  | value chain =>
    exact .ite ((carries_readValue chain hspan).bind fun _ ↦ carries_pure _) (carries_pure _)
  | alert | labels | unknown => exact carries_pure _

/-- An operand that is no pipeline in parentheses. -/
theorem carries_simpleOperand {term : Term} (hterm : ∀ body, term ≠ .paren body)
    (hfits : ∀ s ∈ (Operand.mk term span fields).stretches, s.Fits f.text) :
    Carries f (simpleOperand term span fields)
      (simpleOperand (term.moved f.bytes) (span.moved f.bytes) (fields.map (·.moved f.bytes))) := by
  obtain ⟨hspan, hfields⟩ := List.forall_mem_cons.mp fun s hs ↦
    hfits s (subset_stretches term span fields hs)
  have hfinish {term' : Term} {rest rest' : Option Denotation → Reading Denotation}
      (h : isDirect term' = isDirect term) (hnone : rest none = pure .unknown)
      (hnone' : rest' none = pure .unknown)
      (hsome : ∀ base, rest (some base) = finishOperand term span fields base)
      (hsome' : ∀ base, rest' (some base) =
        finishOperand term' (span.moved f.bytes) (fields.map (·.moved f.bytes)) base)
      (base : Option Denotation) : Carries f (rest base) (rest' base) := by
    cases base with
    | none =>
      rw [hnone, hnone']
      exact carries_pure _
    | some base =>
      rw [hsome, hsome']
      exact carries_finishOperand h hspan hfields base
  cases term with
  | dot =>
    rw [Term.moved]
    exact carries_dot.bind (hfinish rfl rfl rfl (fun _ ↦ rfl) fun _ ↦ rfl)
  | field =>
    rw [Term.moved]
    exact carries_dot.bind (hfinish rfl rfl rfl (fun _ ↦ rfl) fun _ ↦ rfl)
  | «variable» name =>
    rw [Term.moved]
    cases name with
    | none => exact (carries_pure _).bind (hfinish rfl rfl rfl (fun _ ↦ rfl) fun _ ↦ rfl)
    | some name =>
      have hterm : Carries f (termResult (.variable (some name)))
          (termResult (.variable (some (name.moved f.bytes)))) := by
        refine (carries_lookup name.text).bind fun d ↦ ?_
        cases d <;> exact carries_pure _
      exact hterm.bind (hfinish rfl rfl rfl (fun _ ↦ rfl) fun _ ↦ rfl)
  | function name =>
    rw [Term.moved]
    cases name with
    | none => exact (carries_pure _).bind (hfinish rfl rfl rfl (fun _ ↦ rfl) fun _ ↦ rfl)
    | some name =>
      have hname : name.span.Fits f.text := hfits name.span (by simp [Operand.stretches])
      have hcall := (carries_callFunction hname).bind fun _ ↦
          carries_pure (none : Option Denotation)
      exact hcall.bind (hfinish rfl rfl rfl (fun _ ↦ rfl) fun _ ↦ rfl)
  | literal token =>
    rw [Term.moved]
    exact (carries_pure _).bind (hfinish rfl rfl rfl (fun _ ↦ rfl) fun _ ↦ rfl)
  | paren body => exact absurd rfl (hterm body)

/-! ### Commands -/

/-- A command that reads a label does so at any place of the text. -/
theorem indexedLabel?_moved (n : Nat) (os : List Operand) (ds : List Denotation) :
    indexedLabel? (operandsMoved n os) ds = (indexedLabel? os ds).map fun r ↦
      (r.1, r.2.moved n) := by
  -- a function, anything and a literal, where the second operand stands for the labels
  rcases os with _ | ⟨⟨term, _, _⟩, _ | ⟨_, _ | ⟨⟨key, span, _⟩, os⟩⟩⟩
  · rfl
  · rcases term with _ | _ | _ | ⟨_ | _⟩ | _ | ⟨_ | _⟩ <;> rfl
  · rcases term with _ | _ | _ | ⟨_ | _⟩ | _ | ⟨_ | _⟩ <;> rfl
  · rcases term with _ | _ | _ | ⟨_ | word⟩ | _ | ⟨_ | _⟩ <;> try rfl
    rcases key with _ | _ | _ | _ | ⟨_ | key⟩ | ⟨_ | _⟩ <;> try rfl
    rcases ds with _ | ⟨_, _ | ⟨d, ds⟩⟩ <;> try rfl
    cases d <;> try rfl
    change (if word.text = "index" then key.stringValue?.map (·, span.moved n) else none) =
      (if word.text = "index" then key.stringValue?.map (·, span) else none).map _
    split
    · rw [Option.map_map]
      rfl
    · rfl

/-- The place of a label that is looked up by name lies in the text. -/
theorem fits_of_indexedLabel? {os : List Operand} {ds : List Denotation} {name : String}
    {text : List Char} (hfits : ∀ s ∈ operandsStretches os, s.Fits text)
    (h : indexedLabel? os ds = some (name, span)) : span.Fits text := by
  unfold indexedLabel? at h
  split at h
  · split at h
    · obtain ⟨key, -, hkey⟩ := Option.map_eq_some_iff.mp h
      obtain ⟨-, rfl⟩ := Prod.mk.inj hkey
      exact hfits _ (by simp [operandsStretches, Operand.stretches])
    · exact absurd h nofun
  · exact absurd h nofun

/-- The result of a command is carried. -/
theorem carries_commandResult {os : List Operand}
    (hfits : ∀ s ∈ operandsStretches os, s.Fits f.text) (ds : List Denotation) :
    Carries f (commandResult os ds) (commandResult (operandsMoved f.bytes os) ds) := by
  unfold commandResult
  rw [indexedLabel?_moved]
  cases hlabel : indexedLabel? os ds with
  | some r =>
    exact (carries_readLabel r.1 (fits_of_indexedLabel? hfits hlabel)).bind fun _ ↦ carries_pure _
  | none =>
    rcases ds with _ | ⟨d, _ | ⟨_, _⟩⟩ <;> exact carries_pure _

/-- What a declaration binds, and the reads of the value that it takes back. -/
theorem Carried.bind {s t : State} (h : Carried f s t) (decl : Decl) (inRange : Bool)
    (valuesBefore : Nat) (result : Denotation) :
    Carried f (Reading.bind decl inRange valuesBefore result s).2
      (Reading.bind (decl.moved f.bytes) inRange (f.before.values.length + valuesBefore)
        result t).2 := by
  obtain ⟨names, isAssign⟩ := decl
  have hseveral : Carried f
      { s with scope := (names.map fun v ↦ (v.text, Denotation.unknown)).reverse ++ s.scope }
      { t with scope := ((names.map (·.moved f.bytes)).map fun v ↦
        (v.text, Denotation.unknown)).reverse ++ t.scope } := by
    refine ⟨h.source, h.target, ?_, h.dot, h.reads⟩
    rw [h.scope, List.map_map]
    rfl
  rcases inRange with _ | _
  · rcases names with _ | ⟨name, _ | ⟨second, rest⟩⟩
    · exact hseveral
    · refine ⟨h.source, h.target, ?_, h.dot, ?_⟩
      · cases isAssign with
        | false => exact congrArg ((name.text, result) :: ·) h.scope
        | true =>
          change (rebind? name.text result t.scope).getD ((name.text, result) :: t.scope) =
            (rebind? name.text result s.scope).getD ((name.text, result) :: s.scope)
          rw [h.scope]
      · cases result with
        | value chain =>
          change Reads.mk t.reads.labels (t.reads.values.take _) t.reads.calls = _
          rw [h.reads]
          exact Reads.append_take f.before s.reads _ _ valuesBefore
        | alert | labels | unknown => exact h.reads
    · exact hseveral
  · exact hseveral

mutual

/-- Reading an operand is carried to its new place. -/
theorem carries_operand {f : Frame} : ∀ o : Operand, (∀ s ∈ o.stretches, s.Fits f.text) →
    Carries f (operand o) (operand (o.moved f.bytes))
  | .mk (.paren none) span fields, hfits => by
    obtain ⟨hspan, hfields⟩ := List.forall_mem_cons.mp fun s hs ↦
      hfits s (subset_stretches (.paren none) span fields hs)
    rw [Operand.moved, Term.moved, operand, operand]
    exact carries_finishOperand rfl hspan hfields _
  | .mk (.paren (some p)) span fields, hfits => by
    obtain ⟨hspan, hfields⟩ := List.forall_mem_cons.mp fun s hs ↦
      hfits s (subset_stretches (.paren (some p)) span fields hs)
    rw [Operand.stretches, List.forall_mem_append, List.forall_mem_cons] at hfits
    rw [Operand.moved, Term.moved, operand, operand]
    exact (carries_pipeline p false hfits.1.2).bind (carries_finishOperand rfl hspan hfields)
  | .mk .dot span fields, hfits | .mk .field span fields, hfits
  | .mk (.variable _) span fields, hfits | .mk (.function _) span fields, hfits
  | .mk (.literal _) span fields, hfits => by
    have hsimple := carries_simpleOperand (by simp) hfits
    rw [Operand.moved, operand_eq (by simp), operand_eq (by simp [Term.moved])]
    exact hsimple

theorem carries_operands {f : Frame} : ∀ os : List Operand,
    (∀ s ∈ operandsStretches os, s.Fits f.text) →
      Carries f (operands os) (operands (operandsMoved f.bytes os))
  | [], _ => carries_pure _
  | o :: os, hfits => by
    rw [operandsStretches, List.forall_mem_append] at hfits
    exact (carries_operand o hfits.1).bind fun _ ↦ (carries_operands os hfits.2).bind fun _ ↦
      carries_pure _

theorem carries_commands {f : Frame} : ∀ cs : List (List Operand),
    (∀ s ∈ commandsStretches cs, s.Fits f.text) →
      Carries f (commands cs) (commands (commandsMoved f.bytes cs))
  | [], _ => carries_pure _
  | c :: cs, hfits => by
    rw [commandsStretches, List.forall_mem_append] at hfits
    exact (carries_operands c hfits.1).bind fun ds ↦ (carries_commandResult hfits.1 ds).bind fun _ ↦
      (carries_commands cs hfits.2).bind fun _ ↦ carries_pure _

/-- Reading a pipeline is carried to its new place. -/
theorem carries_pipeline {f : Frame} : ∀ (p : Pipeline) (inRange : Bool),
    (∀ s ∈ p.stretches, s.Fits f.text) →
      Carries f (pipeline p inRange) (pipeline (p.moved f.bytes) inRange)
  | .mk none cs, inRange, hfits => by
    intro s t h
    obtain ⟨hvalues, hcommands⟩ := carries_commands cs hfits h
    rw [Pipeline.moved, Option.map_none, pipeline, pipeline]
    exact ⟨congrArg pipelineResult hvalues, hcommands⟩
  | .mk (some decl) cs, inRange, hfits => by
    intro s t h
    obtain ⟨hvalues, hcommands⟩ := carries_commands cs hfits h
    have hresult := congrArg pipelineResult hvalues
    have hlength : t.reads.values.length = f.before.values.length + s.reads.values.length := by
      rw [h.reads, Reads.append_eq, List.length_append, Reads.moved, List.length_map]
    rw [Pipeline.moved, Option.map_some, pipeline, pipeline]
    refine ⟨hresult, ?_⟩
    change Carried f (Reading.bind decl _ _ (pipelineResult (commands cs s).1) _).2
      (Reading.bind _ _ _ (pipelineResult (commands (commandsMoved f.bytes cs) t).1) _).2
    rw [hresult, hlength]
    exact hcommands.bind decl inRange _ _

end

theorem carries_pipelineOf (p : Option Pipeline) (inRange : Bool)
    (hfits : ∀ s ∈ pipelineStretches p, s.Fits f.text) :
    Carries f (pipelineOf p inRange) (pipelineOf (p.map (·.moved f.bytes)) inRange) := by
  cases p with
  | none => exact carries_pure _
  | some p => exact carries_pipeline p inRange hfits

/-! ### Items -/

section Scopes

variable {step step' : Reading Unit}

/-- A step in a scope of its own is carried. -/
theorem Carries.keepingScope (hstep : Carries f step step') :
    Carries f (keepingScope step) (keepingScope step') := by
  intro s t h
  obtain ⟨-, hafter⟩ := hstep h
  refine ⟨rfl, hafter.source, hafter.target, ?_, hafter.dot, hafter.reads⟩
  change (step' t).2.scope.drop ((step' t).2.scope.length - t.scope.length) =
    (step s).2.scope.drop ((step s).2.scope.length - s.scope.length)
  rw [hafter.scope, h.scope]

theorem Carries.withDot (hstep : Carries f step step') (dot : Denotation) :
    Carries f (withDot dot step) (withDot dot step') := by
  intro s t h
  have hdot : Carried f { s with dot } { t with dot } := ⟨h.source, h.target, h.scope, rfl, h.reads⟩
  obtain ⟨-, hafter⟩ := hstep hdot
  exact ⟨rfl, hafter.source, hafter.target, hafter.scope, h.dot, hafter.reads⟩

theorem Carries.isolated (hstep : Carries f step step') :
    Carries f (isolated step) (isolated step') := by
  intro s t h
  have hfresh : Carried f s.fresh t.fresh := ⟨h.source, h.target, rfl, rfl, h.reads⟩
  obtain ⟨-, hafter⟩ := hstep hfresh
  exact ⟨rfl, hafter.source, hafter.target, h.scope, h.dot, hafter.reads⟩

end Scopes

mutual

/-- Reading an item is carried to its new place. -/
theorem carries_item {f : Frame} : ∀ i : Item, (∀ s ∈ i.stretches, s.Fits f.text) →
    Carries f (item i) (item (i.moved f.bytes))
  | .action _ p, hfits => by
    rw [Item.moved, item, item]
    exact (carries_pipelineOf p false hfits).bind fun _ ↦ carries_pure _
  | .control kind _ p b o, hfits => by
    rw [Item.stretches, List.forall_mem_append, List.forall_mem_append] at hfits
    have hbody := carries_body b hfits.1.2
    rw [Item.moved, item_control, item_control]
    refine ((carries_pipelineOf p _ hfits.1.1).bind fun d ↦ ?_).bind
      (fun _ ↦ carries_otherwise o hfits.2) |>.keepingScope
    cases kind with
    | ifBlock => exact hbody
    | withBlock => exact hbody.withDot d
    | rangeBlock => exact hbody.withDot .unknown
  | .define _ _ b, hfits => by
    rw [Item.moved, item, item]
    exact (carries_body b hfits).isolated
  | .block _ _ p b, hfits => by
    rw [Item.stretches, List.forall_mem_append] at hfits
    rw [Item.moved, item, item]
    exact (carries_pipelineOf p false hfits.1).bind fun _ ↦ (carries_body b hfits.2).isolated
  | .call _ _ p, hfits => by
    rw [Item.moved, item, item]
    exact (carries_pipelineOf p false hfits).bind fun _ ↦ carries_pure _

theorem carries_body {f : Frame} : ∀ b : Body, (∀ s ∈ b.stretches, s.Fits f.text) →
    Carries f (body b) (body (b.moved f.bytes))
  | .missing, _ => carries_pure _
  | .items is, hfits => carries_items is hfits

/-- The items of a template are read in a longer text as in the template alone. -/
theorem carries_items {f : Frame} : ∀ is : List Item, (∀ s ∈ itemsStretches is, s.Fits f.text) →
    Carries f (items is) (items (itemsMoved f.bytes is))
  | [], _ => carries_pure _
  | i :: is, hfits => by
    rw [itemsStretches, List.forall_mem_append] at hfits
    exact (carries_item i hfits.1).bind fun _ ↦ carries_items is hfits.2

theorem carries_otherwise {f : Frame} : ∀ o : Otherwise, (∀ s ∈ o.stretches, s.Fits f.text) →
    Carries f (otherwise o) (otherwise (o.moved f.bytes))
  | .none, _ => carries_pure _
  | .nested i, hfits => carries_item i hfits
  | .body b, hfits => carries_body b hfits

end

end Reading

end AlertAudit.Template
