import AlertAudit.Template.Reads

/-!
What reading a template keeps. A reading only adds to what has been read: a declaration takes back
the reads of the value in its own pipeline, and those come after all reads in front of it.
`Encloses` and `Reaches` say which items of a template are read, and from which states, so that a
fact about one item can be carried to the end of the template.
-/

set_option autoImplicit false

namespace AlertAudit.Template.Reading

open AlertAudit.Text

variable {α β : Type}

/-- All that has been read in `s` has been read in `t`. -/
structure State.KeptIn (s t : State) : Prop where
  text : t.text = s.text
  labels : s.reads.labels <+: t.reads.labels
  values : s.reads.values <+: t.reads.values
  calls : s.reads.calls <+: t.reads.calls

namespace State.KeptIn

/-- A state with the same reads keeps them. -/
theorem of_reads {s t : State} (htext : t.text = s.text) (hreads : t.reads = s.reads) :
    s.KeptIn t := by
  refine ⟨htext, ?_, ?_, ?_⟩
  · simp [hreads]
  · simp [hreads]
  · simp [hreads]

theorem refl (s : State) : s.KeptIn s := of_reads rfl rfl

theorem trans {s t u : State} (hst : s.KeptIn t) (htu : t.KeptIn u) : s.KeptIn u where
  text := htu.text.trans hst.text
  labels := hst.labels.trans htu.labels
  values := hst.values.trans htu.values
  calls := hst.calls.trans htu.calls

end State.KeptIn

/-- A step takes back nothing that has been read. -/
def Keeps (step : Reading α) : Prop := ∀ s : State, s.KeptIn (step s).2

theorem bind_apply (step : Reading α) (f : α → Reading β) (s : State) :
    (step >>= f) s = f (step s).1 (step s).2 := rfl

theorem pure_apply (a : α) (s : State) : (pure a : Reading α) s = (a, s) := rfl

theorem keeps_pure (a : α) : Keeps (pure a : Reading α) := fun s ↦ .refl s

theorem keeps_get : Keeps (get : Reading State) := fun s ↦ .refl s

/-- Two steps that keep the reads do so one after the other. -/
theorem keeps_bind {step : Reading α} {f : α → Reading β} (hstep : Keeps step)
    (hf : ∀ a, Keeps (f a)) : Keeps (step >>= f) :=
  fun s ↦ (hstep s).trans (hf _ _)

/-- A choice keeps the reads if both of its sides do. -/
theorem keeps_ite {c : Prop} [Decidable c] {step next : Reading α} (hstep : Keeps step)
    (hnext : Keeps next) : Keeps (if c then step else next) := by
  split
  · exact hstep
  · exact hnext

/-! ### Operands -/

/-- To read a label adds a read. -/
theorem keeps_readLabel (name : String) (span : Span) : Keeps (readLabel name span) := fun _ ↦
  ⟨rfl, List.prefix_append _ _, List.prefix_rfl, List.prefix_rfl⟩

/-- To read the sample value adds a read. -/
theorem keeps_readValue (chain : List String) (span : Span) : Keeps (readValue chain span) :=
  fun _ ↦ ⟨rfl, List.prefix_rfl, List.prefix_append _ _, List.prefix_rfl⟩

/-- To call a function adds a call. -/
theorem keeps_callFunction (name : Token) : Keeps (callFunction name) := fun _ ↦
  ⟨rfl, List.prefix_rfl, List.prefix_rfl, List.prefix_append _ _⟩

theorem keeps_applyField (span : Span) (base : Denotation) (field : Token) :
    Keeps (applyField span base field) := by
  cases base with
  | alert => exact keeps_ite (keeps_pure _) (keeps_ite (keeps_bind keeps_get fun _ ↦ keeps_pure _)
      (keeps_pure _))
  | labels => exact keeps_bind (keeps_readLabel _ _) fun _ ↦ keeps_pure _
  | value chain => exact keeps_pure _
  | unknown => exact keeps_pure _

/-- The fields of an operand add reads. -/
theorem keeps_applyFields (span : Span) (base : Denotation) (fields : List Token) :
    Keeps (applyFields span base fields) := by
  induction fields generalizing base with
  | nil => exact keeps_pure _
  | cons f fs ih => exact keeps_bind (keeps_applyField span base f) ih

/-- The end of an operand adds the read that its fields make. -/
theorem keeps_finishOperand (term : Term) (span : Span) (fields : List Token)
    (base : Denotation) : Keeps (finishOperand term span fields base) := by
  refine keeps_bind (keeps_applyFields span base fields) fun d ↦ ?_
  cases d with
  | value chain =>
    exact keeps_ite (keeps_bind (keeps_readValue chain span) fun _ ↦ keeps_pure _) (keeps_pure _)
  | alert => exact keeps_pure _
  | labels => exact keeps_pure _
  | unknown => exact keeps_pure _

theorem keeps_termResult (term : Term) : Keeps (termResult term) := by
  cases term with
  | dot => exact keeps_bind keeps_get fun _ ↦ keeps_pure _
  | field => exact keeps_bind keeps_get fun _ ↦ keeps_pure _
  | «variable» name =>
    cases name with
    | none => exact keeps_pure _
    | some name =>
      refine keeps_bind (keeps_bind keeps_get fun _ ↦ keeps_pure _) fun d ↦ ?_
      cases d <;> exact keeps_pure _
  | function name =>
    cases name with
    | none => exact keeps_pure _
    | some name => exact keeps_bind (keeps_callFunction name) fun _ ↦ keeps_pure _
  | literal token => exact keeps_pure _
  | paren body => exact keeps_pure _

/-- What reading an operand does if no pipeline is read for it. -/
def simpleOperand (term : Term) (span : Span) (fields : List Token) : Reading Denotation := do
  match ← termResult term with
  | some base => finishOperand term span fields base
  | none => return .unknown

/-- An operand of one token only adds reads. -/
theorem keeps_simpleOperand (term : Term) (span : Span) (fields : List Token) :
    Keeps (simpleOperand term span fields) := by
  refine keeps_bind (keeps_termResult term) fun base ↦ ?_
  cases base with
  | none => exact keeps_pure _
  | some base => exact keeps_finishOperand term span fields base

/-- An operand that is no pipeline in parentheses. -/
theorem operand_eq {term : Term} (h : ∀ body, term ≠ .paren body) (span : Span)
    (fields : List Token) : operand (.mk term span fields) = simpleOperand term span fields := by
  rw [operand]
  · rfl
  · exact h none
  · exact fun p ↦ h (some p)

/-! ### Pipelines -/

/-- The result of a command only adds reads. -/
theorem keeps_commandResult (operands : List Operand) (values : List Denotation) :
    Keeps (commandResult operands values) := by
  unfold commandResult
  split
  · exact keeps_bind (keeps_readLabel _ _) fun _ ↦ keeps_pure _
  · exact keeps_pure _
  · exact keeps_pure _

/-- The reads that a declaration takes back come after those in front of its pipeline. -/
theorem keptIn_bind {s t : State} (h : s.KeptIn t) (decl : Decl) (inRange : Bool)
    (result : Denotation) :
    s.KeptIn (bind decl inRange s.reads.values.length result t).2 := by
  have htake : t.reads.values.take s.reads.values.length = s.reads.values :=
    (List.prefix_iff_eq_take.mp h.values).symm
  cases inRange with
  | true => exact ⟨h.text, h.labels, h.values, h.calls⟩
  | false =>
    obtain ⟨names, isAssign⟩ := decl
    rcases names with _ | ⟨name, _ | ⟨second, rest⟩⟩
    · exact ⟨h.text, h.labels, h.values, h.calls⟩
    · cases result with
      | value chain =>
        refine ⟨h.text, h.labels, ?_, h.calls⟩
        change s.reads.values <+: t.reads.values.take s.reads.values.length
        simp [htake]
      | alert | labels | unknown => exact ⟨h.text, h.labels, h.values, h.calls⟩
    · exact ⟨h.text, h.labels, h.values, h.calls⟩

mutual

/-- An operand keeps what has been read in front of it. -/
theorem keeps_operand : ∀ o : Operand, Keeps (operand o)
  | .mk (.paren none) span fields => by
    rw [operand]
    exact keeps_finishOperand _ _ _ _
  | .mk (.paren (some p)) span fields => by
    rw [operand]
    exact keeps_bind (keeps_pipeline p false) fun _ ↦ keeps_finishOperand _ _ _ _
  | .mk .dot span fields | .mk .field span fields | .mk (.variable _) span fields
  | .mk (.function _) span fields | .mk (.literal _) span fields => by
    rw [operand_eq (by simp)]
    exact keeps_simpleOperand _ _ _

theorem keeps_operands : ∀ os : List Operand, Keeps (operands os)
  | [] => keeps_pure _
  | o :: os => keeps_bind (keeps_operand o) fun _ ↦ keeps_bind (keeps_operands os) fun _ ↦
    keeps_pure _

theorem keeps_commands : ∀ cs : List (List Operand), Keeps (commands cs)
  | [] => keeps_pure _
  | c :: cs => keeps_bind (keeps_operands c) fun values ↦ keeps_bind (keeps_commandResult c values)
    fun _ ↦ keeps_bind (keeps_commands cs) fun _ ↦ keeps_pure _

/-- So does a pipeline. -/
theorem keeps_pipeline : ∀ (p : Pipeline) (inRange : Bool), Keeps (pipeline p inRange)
  | .mk decl cs, inRange => by
    intro s
    have hcommands := keeps_commands cs s
    rw [pipeline]
    cases decl with
    | none => exact hcommands
    | some decl => exact keptIn_bind hcommands decl inRange _

end

theorem keeps_pipelineOf (p : Option Pipeline) (inRange : Bool) : Keeps (pipelineOf p inRange) := by
  cases p with
  | none => exact keeps_pure _
  | some p => exact keeps_pipeline p inRange

/-! ### Items -/

/-- To restore the scope takes back no reads. -/
theorem keeps_keepingScope {step : Reading Unit} (h : Keeps step) : Keeps (keepingScope step) :=
  fun s ↦ (h s).trans (.of_reads rfl rfl)

/-- To set the dot for a while takes back no reads. -/
theorem keeps_withDot (dot : Denotation) {step : Reading Unit} (h : Keeps step) :
    Keeps (withDot dot step) := by
  intro s
  have hdot : s.KeptIn { s with dot } := .of_reads rfl rfl
  exact hdot.trans ((h _).trans (.of_reads rfl rfl))

/-- To read a template of its own takes back no reads. -/
theorem keeps_isolated {step : Reading Unit} (h : Keeps step) : Keeps (isolated step) := by
  intro s
  have hfresh : s.KeptIn { s with scope := [("$", .unknown)], dot := .unknown } :=
    .of_reads rfl rfl
  exact hfresh.trans ((h _).trans (.of_reads rfl rfl))

mutual

/-- An item keeps what has been read in front of it. -/
theorem keeps_item : ∀ i : Item, Keeps (item i)
  | .action _ p => by
    rw [item]
    exact keeps_bind (keeps_pipelineOf p false) fun _ ↦ keeps_pure _
  | .control kind _ p b o => by
    rw [item]
    refine keeps_keepingScope (keeps_bind (keeps_pipelineOf p _) fun d ↦ ?_)
    cases kind with
    | ifBlock => exact keeps_bind (keeps_body b) fun _ ↦ keeps_otherwise o
    | withBlock => exact keeps_bind (keeps_withDot d (keeps_body b)) fun _ ↦ keeps_otherwise o
    | rangeBlock =>
      exact keeps_bind (keeps_withDot .unknown (keeps_body b)) fun _ ↦ keeps_otherwise o
  | .define _ _ b => by
    rw [item]
    exact keeps_isolated (keeps_body b)
  | .block _ _ p b => by
    rw [item]
    exact keeps_bind (keeps_pipelineOf p false) fun _ ↦ keeps_isolated (keeps_body b)
  | .call _ _ p => by
    rw [item]
    exact keeps_bind (keeps_pipelineOf p false) fun _ ↦ keeps_pure _

/-- So does the list of a block. -/
theorem keeps_body : ∀ b : Body, Keeps (body b)
  | .missing => keeps_pure _
  | .items is => keeps_items is

theorem keeps_items : ∀ is : List Item, Keeps (items is)
  | [] => keeps_pure _
  | i :: is => keeps_bind (keeps_item i) fun _ ↦ keeps_items is

/-- So does what follows it. -/
theorem keeps_otherwise : ∀ o : Otherwise, Keeps (otherwise o)
  | .none => keeps_pure _
  | .nested i => keeps_item i
  | .body b => keeps_body b

end

/-! ### Visits -/

/-- The state from which the list of a block is read, behind a header that stands for `d`. -/
def State.inside (kind : Control) (d : Denotation) (s : State) : State :=
  match kind with
  | .ifBlock => s
  | .withBlock => { s with dot := d }
  | .rangeBlock => { s with dot := .unknown }

/-- The state from which the body of a template is read. -/
def State.fresh (s : State) : State := { s with scope := [("$", .unknown)], dot := .unknown }

/-- Reads the header and the list of a block. -/
def header (kind : Control) (p : Option Pipeline) (b : Body) : Reading Unit := do
  let d ← pipelineOf p (kind = .rangeBlock)
  match kind with
  | .ifBlock => body b
  | .withBlock => withDot d (body b)
  | .rangeBlock => withDot .unknown (body b)

/-- A block is its header and what follows its list, with the scope restored. -/
theorem item_control (kind : Control) (span : Span) (p : Option Pipeline) (b : Body)
    (o : Otherwise) : item (.control kind span p b o) =
      keepingScope (header kind p b >>= fun _ ↦ otherwise o) := by
  rw [item]
  cases kind <;> rfl

/-- `Encloses i s is t`: to read the item `i` from `s` is also to read the items `is` from `t`. -/
inductive Encloses : Item → State → List Item → State → Prop
  | list {kind : Control} {span : Span} {p : Option Pipeline} {is : List Item} {o : Otherwise}
    {s : State} : Encloses (.control kind span p (.items is) o) s is
      ((pipelineOf p (kind = .rangeBlock) s).2.inside kind (pipelineOf p (kind = .rangeBlock) s).1)
  | otherwise {kind : Control} {span : Span} {p : Option Pipeline} {b : Body} {is : List Item}
    {s : State} : Encloses (.control kind span p b (.body (.items is))) s is (header kind p b s).2
  | nested {kind : Control} {span : Span} {p : Option Pipeline} {b : Body} {i : Item}
    {s : State} : Encloses (.control kind span p b (.nested i)) s [i] (header kind p b s).2
  | define {span : Span} {name : Option String} {is : List Item} {s : State} :
    Encloses (.define span name (.items is)) s is s.fresh
  | block {span : Span} {name : Option String} {p : Option Pipeline} {is : List Item}
    {s : State} : Encloses (.block span name p (.items is)) s is (pipelineOf p false s).2.fresh

/-- `Reaches is s j t`: to read the items `is` from `s` is also to read the item `j`, which is one
of them or stands in one of them, from `t`. -/
inductive Reaches : List Item → State → Item → State → Prop
  | here {i : Item} {is : List Item} {s : State} : Reaches (i :: is) s i s
  | later {i j : Item} {is : List Item} {s t : State} : Reaches is (item i s).2 j t →
    Reaches (i :: is) s j t
  | inside {i j : Item} {is inner : List Item} {s t u : State} : Encloses i s inner u →
    Reaches inner u j t → Reaches (i :: is) s j t

/-- What is read in the list of a block is kept to its end. -/
theorem keptIn_header_list (kind : Control) (p : Option Pipeline) (is : List Item) (s : State) :
    (items is ((pipelineOf p (kind = .rangeBlock) s).2.inside kind
      (pipelineOf p (kind = .rangeBlock) s).1)).2.KeptIn (header kind p (.items is) s).2 := by
  rw [header, bind_apply]
  cases kind with
  | ifBlock => exact .refl _
  | withBlock => exact .of_reads rfl rfl
  | rangeBlock => exact .of_reads rfl rfl

/-- What is read in the items that an item encloses is kept until the end of it. -/
theorem Encloses.keptIn {i : Item} {s t : State} {is : List Item} (h : Encloses i s is t) :
    (items is t).2.KeptIn (item i s).2 := by
  cases h with
  | @list kind _ p is o s =>
    rw [item_control]
    exact (keptIn_header_list kind p is s).trans
      ((keeps_otherwise o _).trans (.of_reads rfl rfl))
  | otherwise =>
    rw [item_control]
    exact .of_reads rfl rfl
  | @nested kind _ p b i s =>
    rw [item_control]
    exact .of_reads rfl rfl
  | define => exact .of_reads rfl rfl
  | block => exact .of_reads rfl rfl

/-- What is read in an item is kept until the end of the list from which the item is reached. -/
theorem Reaches.keptIn {is : List Item} {s t : State} {j : Item} (h : Reaches is s j t) :
    (item j t).2.KeptIn (items is s).2 := by
  induction h with
  | here => exact keeps_items _ _
  | later _ ih => exact ih
  | inside hencloses _ ih => exact ih.trans (hencloses.keptIn.trans (keeps_items _ _))

end AlertAudit.Template.Reading
