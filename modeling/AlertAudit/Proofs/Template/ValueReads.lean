import AlertAudit.Proofs.Template.Extents
import AlertAudit.Proofs.Template.Readings

/-!
Reads of the sample value. What an action shows is what its first command stands for, and that is
the value only if the command is a single operand; so the value comes from the dot or a name,
through parentheses that stand around it. It is recorded where it is read, unless one of the
parentheses takes the record back with a declaration.
-/

set_option autoImplicit false

namespace AlertAudit.Template

open AlertAudit.Text

/-! ### Where a value comes from -/

mutual

/-- If the operand is a pipeline in parentheses, these have no fields and the pipeline keeps the
reads of the value that it stands for. -/
def Operand.keepsReads : Operand → Bool
  | .mk (.paren (some p)) _ fields => fields.isEmpty && p.keepsReads
  | _ => true

/-- What a command stands for if it is a single operand keeps its reads. -/
def commandKeepsReads : List Operand → Bool
  | [o] => o.keepsReads
  | _ => true

/-- The first of some commands, on which their result depends, keeps its reads. -/
def commandsKeepReads : List (List Operand) → Bool
  | c :: _ => commandKeepsReads c
  | [] => true

/-- The pipeline keeps the reads of the value that it stands for: it declares no variable, and
neither do the parentheses that the value passes through. -/
def Pipeline.keepsReads : Pipeline → Bool
  | .mk decl cs => decl.isNone && commandsKeepReads cs

end

namespace Reading

/-- A read of the value in a span has been recorded. -/
def Reported (outer : Span) (values : List ValueRead) : Prop := ∃ v ∈ values, v.span.Within outer

/-- What has been reported stays reported. -/
theorem Reported.keptIn {outer : Span} {s t : State} (h : Reported outer s.reads.values)
    (hst : s.KeptIn t) : Reported outer t.reads.values := by
  obtain ⟨v, hv, hwithin⟩ := h
  exact ⟨v, hst.values.subset hv, hwithin⟩

/-- Fields of something unknown read nothing. -/
theorem applyFields_unknown (span : Span) (fields : List Token) (s : State) :
    applyFields span .unknown fields s = (.unknown, s) := by
  induction fields generalizing s with
  | nil => rfl
  | cons f fs ih => exact ih s

/-- The result of an operand is that of its fields. -/
theorem finishOperand_apply (term : Term) (span : Span) (fields : List Token) (base : Denotation)
    (s : State) :
    (finishOperand term span fields base s).1 = (applyFields span base fields s).1 := by
  rw [finishOperand, bind_apply]
  cases (applyFields span base fields s).1 with
  | value chain =>
    dsimp only
    split
    · rfl
    · rfl
  | alert => rfl
  | labels => rfl
  | unknown => rfl

/-- A value that the dot or a name stands for is recorded at its operand. -/
theorem reported_finishOperand {term : Term} {span outer : Span} {fields : List Token}
    {base : Denotation} {s : State} (hdirect : isDirect term) (hwithin : span.Within outer)
    (hvalue : (finishOperand term span fields base s).1.isValue) :
    Reported outer (finishOperand term span fields base s).2.reads.values := by
  rw [finishOperand_apply] at hvalue
  rw [finishOperand, bind_apply]
  cases hfields : (applyFields span base fields s).1 with
  | value chain =>
    dsimp only
    rw [if_pos hdirect]
    exact ⟨_, List.mem_append_right _ (List.mem_singleton_self _), hwithin⟩
  | alert | labels | unknown =>
    rw [hfields] at hvalue
    exact absurd hvalue Bool.false_ne_true

/-- Parentheses without fields add nothing to the pipeline in them. -/
theorem finishOperand_paren (span : Span) (base : Denotation) (s : State) :
    finishOperand (.paren none) span [] base s = (base, s) := by
  cases base with
  | value chain => rfl
  | alert => rfl
  | labels => rfl
  | unknown => rfl

/-- Only the dot and names stand for something. -/
theorem isDirect_of_termResult {term : Term} {s : State} {base : Denotation}
    (h : (termResult term s).1 = some base) : isDirect term := by
  cases term with
  | dot => rfl
  | field => rfl
  | «variable» name => rfl
  | function name =>
    have hnone : (termResult (.function name) s).1 = none := by cases name <;> rfl
    exact absurd (hnone.symm.trans h) (by simp)
  | literal token => exact absurd h (Option.some_ne_none base).symm
  | paren body => exact absurd h (Option.some_ne_none base).symm

/-- An operand of one token that stands for the sample value is reported in its span. -/
theorem reported_simpleOperand {term : Term} {span outer : Span} {fields : List Token}
    {s : State} (hwithin : span.Within outer)
    (hvalue : (simpleOperand term span fields s).1.isValue) :
    Reported outer (simpleOperand term span fields s).2.reads.values := by
  rw [simpleOperand, bind_apply] at hvalue ⊢
  cases hbase : (termResult term s).1 with
  | none =>
    rw [hbase] at hvalue
    exact absurd hvalue Bool.false_ne_true
  | some base =>
    rw [hbase] at hvalue
    exact reported_finishOperand (isDirect_of_termResult hbase) hwithin hvalue

/-- A command that stands for a value is a single operand that does. -/
theorem isValue_commandResult {os : List Operand} {values : List Denotation} {s : State}
    (h : (commandResult os values s).1.isValue) : ∃ d, values = [d] ∧ d.isValue := by
  unfold commandResult at h
  cases hindex : indexedLabel? os values with
  | some found =>
    rw [hindex] at h
    exact absurd h Bool.false_ne_true
  | none =>
    rw [hindex] at h
    match values, h with
    | [d], h => exact ⟨d, rfl, h⟩
    | [], h => exact absurd h Bool.false_ne_true
    | _ :: _ :: _, h => exact absurd h Bool.false_ne_true

/-- A pipeline that stands for a value starts with a command that does. -/
theorem isValue_pipelineResult {ds : List Denotation} (h : (pipelineResult ds).isValue) :
    ∃ first rest, ds = first :: rest ∧ first.isValue := by
  cases ds with
  | nil => exact absurd h Bool.false_ne_true
  | cons first rest =>
    refine ⟨first, rest, rfl, ?_⟩
    cases rest with
    | nil => exact h
    | cons second rest =>
      have hresult : pipelineResult (first :: second :: rest) =
        if first.isValue then first else .unknown := rfl
      by_cases hfirst : first.isValue
      · exact hfirst
      · rw [hresult, if_neg hfirst] at h
        exact absurd h Bool.false_ne_true

/-- Operands that stand for one thing are one operand. -/
theorem eq_singleton_of_operands {os : List Operand} {d : Denotation} {s : State}
    (h : (operands os s).1 = [d]) : ∃ o, os = [o] ∧ (operand o s).1 = d := by
  cases os with
  | nil => exact absurd h (List.cons_ne_nil _ _).symm
  | cons o os =>
    obtain ⟨hd, hrest⟩ := List.cons.inj h
    cases os with
    | nil => exact ⟨o, rfl, hd⟩
    | cons o' os => exact absurd hrest (List.cons_ne_nil _ _)

/-- Without a declaration a pipeline is its commands. -/
theorem pipeline_none_apply (cs : List (List Operand)) (inRange : Bool) (s : State) :
    pipeline (.mk none cs) inRange s = (pipelineResult (commands cs s).1, (commands cs s).2) := by
  rw [pipeline]
  rfl

mutual

/-- An operand that stands for the sample value is reported, where no declaration takes reads back.
-/
theorem reported_operand (outer : Span) : ∀ (o : Operand) (s : State), o.keepsReads →
    o.Inside outer → (operand o s).1.isValue → Reported outer (operand o s).2.reads.values
  | .mk (.paren none) span fields, s, _, _, hvalue => by
    rw [operand, finishOperand_apply, applyFields_unknown] at hvalue
    exact absurd hvalue Bool.false_ne_true
  | .mk (.paren (some p)) span fields, s, hkeeps, hinside, hvalue => by
    rw [Operand.keepsReads, Bool.and_eq_true, List.isEmpty_iff] at hkeeps
    obtain ⟨rfl, hkeeps⟩ := hkeeps
    cases hinside with
    | mk _ hbody =>
      rw [operand, bind_apply, finishOperand_paren] at hvalue ⊢
      exact reported_pipeline outer p s hkeeps (hbody p rfl) hvalue
  | .mk .dot span fields, s, _, hinside, hvalue
  | .mk .field span fields, s, _, hinside, hvalue
  | .mk (.variable _) span fields, s, _, hinside, hvalue
  | .mk (.function _) span fields, s, _, hinside, hvalue
  | .mk (.literal _) span fields, s, _, hinside, hvalue => by
    rw [operand_eq (by simp)] at hvalue ⊢
    cases hinside with
    | mk hwithin _ => exact reported_simpleOperand hwithin hvalue

/-- So is a pipeline. -/
theorem reported_pipeline (outer : Span) : ∀ (p : Pipeline) (s : State), p.keepsReads →
    p.Inside outer → (pipeline p false s).1.isValue →
      Reported outer (pipeline p false s).2.reads.values
  | .mk (some decl) cs, s, hkeeps, _, _ => by
    rw [Pipeline.keepsReads] at hkeeps
    exact absurd hkeeps Bool.false_ne_true
  | .mk none [], s, _, _, hvalue => by
    rw [pipeline_none_apply] at hvalue
    exact absurd hvalue Bool.false_ne_true
  | .mk none (c :: cs), s, hkeeps, .mk hinside, hvalue => by
    rw [pipeline_none_apply] at hvalue ⊢
    obtain ⟨first, rest, hfirst, hvalue⟩ := isValue_pipelineResult hvalue
    obtain ⟨rfl, -⟩ := List.cons.inj hfirst
    obtain ⟨d, hd, hvalue⟩ := isValue_commandResult hvalue
    obtain ⟨o, rfl, rfl⟩ := eq_singleton_of_operands hd
    have hkeeps : o.keepsReads := by
      rw [Pipeline.keepsReads, commandsKeepReads, commandKeepsReads] at hkeeps
      exact hkeeps
    have hreported := reported_operand outer o s hkeeps
      (hinside _ List.mem_cons_self o (List.mem_singleton_self o)) hvalue
    exact (hreported.keptIn (keeps_commandResult _ _ _)).keptIn (keeps_commands cs _)

end

/-! ### Actions at any depth -/

/-- The items that an item encloses have their pipelines in their own spans. -/
theorem Encloses.spanned {i : Item} {is : List Item} {s t : State} (h : Encloses i s is t)
    (hi : i.Spanned) : ∀ j ∈ is, j.Spanned := by
  cases h with
  | list =>
    cases hi with
    | control _ hbody _ => cases hbody with
      | items his => exact his
  | otherwise =>
    cases hi with
    | control _ _ hbranch => cases hbranch with
      | body hbody => cases hbody with
        | items his => exact his
  | nested =>
    cases hi with
    | control _ _ hbranch => cases hbranch with
      | nested hitem => exact fun j hj ↦ List.mem_singleton.mp hj ▸ hitem
  | define =>
    cases hi with
    | define hbody => cases hbody with
      | items his => exact his
  | block =>
    cases hi with
    | block _ hbody => cases hbody with
      | items his => exact his

/-- So have the items that are reached from some. -/
theorem Reaches.spanned {is : List Item} {s t : State} {j : Item} (h : Reaches is s j t)
    (his : ∀ i ∈ is, i.Spanned) : j.Spanned := by
  induction h with
  | here => exact his _ List.mem_cons_self
  | later _ ih => exact ih fun i hi ↦ his i (List.mem_cons_of_mem _ hi)
  | inside hencloses _ ih => exact ih (hencloses.spanned (his _ List.mem_cons_self))

end Reading

open Reading

/-- What is read of an accepted template is read from its outline. -/
theorem ofText_eq_ok {text : String} {reads : Reads} (h : Reads.ofText text = .ok reads) :
    (Parse.ofText text).error = none ∧
      (items (Parse.ofText text).tree.items (.start text)).2.reads = reads := by
  rw [Reads.ofText] at h
  cases herror : (Parse.ofText text).error with
  | some e => exact absurd h (by simp [herror])
  | none =>
    simp only [herror, Except.ok.injEq] at h
    exact ⟨rfl, h⟩

/-- In an accepted template, a value that an action shows is a value that has been read in the
action, if the pipeline of the action keeps its reads. -/
theorem exists_read_of_isValue {text : String} {reads : Reads} {span : Span} {p : Pipeline}
    {s : Reading.State} (hreads : Reads.ofText text = .ok reads)
    (haction : Reaches (Parse.ofText text).tree.items (.start text) (.action span (some p)) s)
    (hkeeps : p.keepsReads) (hvalue : (pipeline p false s).1.isValue) :
    ∃ v ∈ reads.values, v.span.Within span := by
  obtain ⟨herror, hreads⟩ := ofText_eq_ok hreads
  have hinside : p.Inside span := by
    cases haction.spanned (spanned_items herror) with
    | action hpipeline => exact hpipeline p rfl
  have hreported : Reported span (item (.action span (some p)) s).2.reads.values := by
    rw [item]
    exact reported_pipeline span p s hkeeps hinside hvalue
  rw [← hreads]
  exact hreported.keptIn haction.keptIn

/-- Tokens of these kinds and texts, one behind the other. -/
def tokensOfWords (words : List (TokenKind × String)) : List Token :=
  Token.place 0 (words.map fun w ↦ ⟨w.1, w.2.toList⟩)

def blank : TokenKind × String := (.whitespace, " ")

/-- The action of these words, with a blank behind its start and one in front of its end. -/
def actionWords (words : List (TokenKind × String)) : List (TokenKind × String) :=
  (.leftDelim, "\x7b\x7b") :: blank :: words ++ [blank, (.rightDelim, "\x7d\x7d")]

/-- The template `{{ if $value }}{{ ($value) | humanize }}{{ end }}`. -/
def shownInBlock : String :=
  "\x7b\x7b if $value \x7d\x7d\x7b\x7b ($value) | humanize \x7d\x7d\x7b\x7b end \x7d\x7d"

set_option maxRecDepth 100000 in
/-- The sample value that is shown inside of a block is read there. -/
theorem exists_read_of_isValue_nested : ∃ reads, Reads.ofText shownInBlock = .ok reads ∧
    ∃ v ∈ reads.values, v.span.Within ⟨15, 40⟩ := by
  have htokens : (Tokens.ofText shownInBlock).tokens = tokensOfWords (
      actionWords [(.keyword .ifWord, "if"), blank, (.variable, "$value")] ++
      actionWords [(.parenOpen, "("), (.variable, "$value"), (.parenClose, ")"), blank,
        (.pipe, "|"),
        blank, (.identifier, "humanize")] ++
      actionWords [(.keyword .endWord, "end")]) := by decide +kernel
  have hscan : (Tokens.ofText shownInBlock).error = none := by decide +kernel
  have hitems : (Parse.ofText shownInBlock).tree.items = [.control .ifBlock ⟨0, 49⟩
      (some (.mk none [[.mk (.variable (some ⟨.variable, 6, "$value"⟩)) ⟨6, 12⟩ []]]))
      (.items [.action ⟨15, 40⟩ (some (.mk none [
        [.mk (.paren (some (.mk none
          [[.mk (.variable (some ⟨.variable, 19, "$value"⟩)) ⟨19, 25⟩ []]]))) ⟨18, 26⟩ []],
        [.mk (.function (some ⟨.identifier, 29, "humanize"⟩)) ⟨29, 37⟩ []]]))])
      .none] := by
    simp only [Parse.ofText, htokens, hscan]
    with_unfolding_all rfl
  have hreads : Reads.ofText shownInBlock = .ok
      { values := [⟨⟨"$value", ⟨6, 12⟩, 0⟩, ["$value"]⟩, ⟨⟨"$value", ⟨19, 25⟩, 0⟩, ["$value"]⟩]
        calls := [⟨"humanize", ⟨29, 37⟩, 0⟩] } := by decide +kernel
  refine ⟨_, hreads, ?_⟩
  apply exists_read_of_isValue hreads
  · rw [hitems]
    exact .inside .list .here
  · rfl
  · rfl

/-- The template `{{ ($x := $value) }}`. -/
def declaredInParentheses : String := "\x7b\x7b ($x := $value) \x7d\x7d"

set_option maxRecDepth 100000 in
/-- Where a declaration in parentheses takes back the read of the value that they stand for, the
value is shown without a read. -/
theorem not_forall_exists_read : ¬∀ (text : String) (reads : Reads) (span : Span)
    (commands : List (List Operand)) (s : Reading.State), Reads.ofText text = .ok reads →
      Reaches (Parse.ofText text).tree.items (.start text)
        (.action span (some (.mk none commands))) s →
      (pipeline (.mk none commands) false s).1.isValue → ∃ v ∈ reads.values,
        v.span.Within span := by
  have htokens : (Tokens.ofText declaredInParentheses).tokens = tokensOfWords (actionWords
      [(.parenOpen, "("), (.variable, "$x"), blank, (.declare, ":="), blank, (.variable, "$value"),
        (.parenClose, ")")]) := by decide +kernel
  have hscan : (Tokens.ofText declaredInParentheses).error = none := by decide +kernel
  have hitems : (Parse.ofText declaredInParentheses).tree.items = [.action ⟨0, 20⟩
      (some (.mk none [[.mk (.paren (some (.mk (some ⟨[⟨.variable, 4, "$x"⟩], false⟩)
        [[.mk (.variable (some ⟨.variable, 10, "$value"⟩)) ⟨10, 16⟩ []]]))) ⟨3, 17⟩ []]]))] := by
    simp only [Parse.ofText, htokens, hscan]
    with_unfolding_all rfl
  have hreads : Reads.ofText declaredInParentheses = .ok {} := by decide +kernel
  intro h
  obtain ⟨v, hv, -⟩ := h _ _ _ _ _ hreads (by rw [hitems]; exact .here) rfl
  exact absurd hv List.not_mem_nil

end AlertAudit.Template
