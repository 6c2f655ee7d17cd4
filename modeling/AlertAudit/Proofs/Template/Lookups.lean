import AlertAudit.Proofs.Template.PathReads
import AlertAudit.Proofs.Template.Scoping

/-!
The variables that a reading looks up. `Reading.itemsLookups` runs along a reading and notes each
variable operand with the scope of the reading at that moment, and with the names that the pipelines
around it declare, which a reading brings into scope behind them. The names in scope and these names
are together those that the outline has in scope at the operand (`follows_items`): pushing and
rebinding give the same names, and what an item pushes is dropped again where the outline forgets
it.
-/

set_option autoImplicit false

namespace AlertAudit.Template

def declaredNames (decl : Option Decl) : List String := decl.elim [] fun d ↦ d.names.map (·.text)

namespace Reading

/-- A variable operand when it is looked up. -/
structure Lookup where
  name : Token
  /-- What the variables in scope stand for. -/
  scope : List (String × Denotation)
  /-- What the pipelines around the operand declare. -/
  declaring : List String
  deriving DecidableEq

/-! ### Lookups along a reading -/

mutual

/-- The lookups of an operand that is read from a state, inside of pipelines that declare names. -/
def operandLookups : Operand → List String → State → List Lookup
  | .mk (.variable (some name)) _ _, declaring, s => [⟨name, s.scope, declaring⟩]
  | .mk (.paren (some p)) _ _, declaring, s => pipelineLookups p declaring s
  | _, _, _ => []

def operandsLookups : List Operand → List String → State → List Lookup
  | [], _, _ => []
  | o :: os, declaring, s =>
    operandLookups o declaring s ++ operandsLookups os declaring (operand o s).2

def commandsLookups : List (List Operand) → List String → State → List Lookup
  | [], _, _ => []
  | c :: cs, declaring, s => operandsLookups c declaring s ++
    commandsLookups cs declaring (commandResult c (operands c s).1 (operands c s).2).2

/-- The lookups of a pipeline: it declares its names behind its commands. -/
def pipelineLookups : Pipeline → List String → State → List Lookup
  | .mk decl cs, declaring, s => commandsLookups cs (declaredNames decl ++ declaring) s

end

def pipelineOfLookups (p : Option Pipeline) (s : State) : List Lookup :=
  p.elim [] (pipelineLookups · [] s)

mutual

/-- The lookups of an item that is read from a state. -/
def itemLookups : Item → State → List Lookup
  | .action _ p, s | .call _ _ p, s => pipelineOfLookups p s
  | .control kind _ p b o, s => pipelineOfLookups p s ++
    bodyLookups b ((pipelineOf p (kind = .rangeBlock) s).2.inside kind
      (pipelineOf p (kind = .rangeBlock) s).1) ++ otherwiseLookups o (header kind p b s).2
  | .define _ _ b, s => bodyLookups b s.fresh
  | .block _ _ p b, s => pipelineOfLookups p s ++ bodyLookups b (pipelineOf p false s).2.fresh

def bodyLookups : Body → State → List Lookup
  | .missing, _ => []
  | .items is, s => itemsLookups is s

/-- The lookups of items that are read one after the other. -/
def itemsLookups : List Item → State → List Lookup
  | [], _ => []
  | i :: is, s => itemLookups i s ++ itemsLookups is (item i s).2

def otherwiseLookups : Otherwise → State → List Lookup
  | .none, _ => []
  | .nested i, s => itemLookups i s
  | .body b, s => bodyLookups b s

end

/-- The variables that the reading of a template looks up. -/
def lookups (text : String) : List Lookup :=
  itemsLookups (Parse.ofText text).tree.items (.start text)

/-! ### Names in scope -/

/-- The names in scope of a reading and those still to be declared are together `vars`. -/
def Covers (vars declaring : List String) (scope : List (String × Denotation)) : Prop :=
  ∀ n, n ∈ vars ↔ n ∈ scope.map Prod.fst ∨ n ∈ declaring

/-- The outline and a reading come to the same variable operand with the same names. -/
def Agrees (u : Visit) (l : Lookup) : Prop :=
  u.name = l.name ∧ Covers u.vars l.declaring l.scope

/-- Between two states the lookups agree with visits of the outline, behind which `vars` are in
scope; the scope has grown at its inner end. -/
structure Follows (declaring : List String) (s : State) (visits : List Visit)
    (lookups : List Lookup) (vars : List String) (t : State) : Prop where
  agree : List.Forall₂ Agrees visits lookups
  covers : Covers vars declaring t.scope
  deeper : s.scope.map Prod.fst <:+ t.scope.map Prod.fst

section Follows

variable {declaring vars vars' : List String} {s t u : State} {visits visits' : List Visit}
  {lookups lookups' : List Lookup}

/-- Where nothing is visited, nothing is looked up. -/
theorem Follows.refl (h : Covers vars declaring s.scope) : Follows declaring s [] [] vars s :=
  ⟨.nil, h, List.suffix_rfl⟩

/-- What is looked up in one part comes in front of what is looked up in the next. -/
theorem Follows.trans (h : Follows declaring s visits lookups vars t)
    (h' : Follows declaring t visits' lookups' vars' u) :
    Follows declaring s (visits ++ visits') (lookups ++ lookups') vars' u :=
  ⟨List.rel_append h.agree h'.agree, h'.covers, h.deeper.trans h'.deeper⟩

/-- A step that leaves the scope alone. -/
theorem Follows.of_stays {α : Type} {step : Reading α} (h : Path.Stays step)
    (hcovers : Covers vars declaring s.scope) : Follows declaring s [] [] vars (step s).2 := by
  have hscope : (step s).2.scope = s.scope := (h s).1
  exact ⟨.nil, hscope.symm ▸ hcovers, hscope.symm ▸ List.suffix_rfl⟩

/-- What is read from a state and to a state with the same scopes is looked up alike. -/
theorem Follows.congr {s' t' : State} (h : Follows declaring s visits lookups vars t)
    (hs : s'.scope = s.scope) (ht : t'.scope = t.scope) :
    Follows declaring s' visits lookups vars t' :=
  ⟨h.agree, ht.symm ▸ h.covers, hs.symm ▸ ht.symm ▸ h.deeper⟩

end Follows

/-! ### Declarations -/

/-- A declaration covers its own names. -/
theorem covers_enter {vars declaring : List String} {scope : List (String × Denotation)}
    (h : Covers vars declaring scope) (decl : Option Decl) :
    Covers (Decl.enter decl vars) (declaredNames decl ++ declaring) scope := by
  intro n
  have henter : Decl.enter decl vars = (declaredNames decl).reverse ++ vars := rfl
  rw [henter, List.mem_append, List.mem_append, List.mem_reverse, h n]
  exact or_left_comm

/-- Rebinding a name keeps the names, and finds one that is there. -/
theorem names_rebind? {name : String} {d : Denotation} {scope scope' : List (String × Denotation)}
    (h : rebind? name d scope = some scope') :
    scope'.map Prod.fst = scope.map Prod.fst ∧ name ∈ scope.map Prod.fst := by
  induction scope generalizing scope' with
  | nil => exact absurd h nofun
  | cons e scope ih =>
    obtain ⟨n, old⟩ := e
    rw [rebind?] at h
    split at h
    next hn =>
      obtain rfl := Option.some.inj h
      exact ⟨rfl, hn ▸ List.mem_cons_self⟩
    next =>
      obtain ⟨inner, hinner, rfl⟩ := Option.map_eq_some_iff.mp h
      obtain ⟨hnames, hmem⟩ := ih hinner
      exact ⟨congrArg (n :: ·) hnames, List.mem_cons_of_mem n hmem⟩

/-- A declaration adds its names to the scope, and takes none away. -/
theorem names_bind (decl : Decl) (inRange : Bool) (valuesBefore : Nat) (result : Denotation)
    (s : State) :
    (∀ n, n ∈ (Reading.bind decl inRange valuesBefore result s).2.scope.map Prod.fst ↔
      n ∈ s.scope.map Prod.fst ∨ n ∈ declaredNames (some decl)) ∧
    s.scope.map Prod.fst <:+
      (Reading.bind decl inRange valuesBefore result s).2.scope.map Prod.fst := by
  obtain ⟨names, isAssign⟩ := decl
  have hseveral : ∀ scope : List (String × Denotation),
      scope = (names.map fun v ↦ (v.text, Denotation.unknown)).reverse ++ s.scope →
      (∀ n, n ∈ scope.map Prod.fst ↔
        n ∈ s.scope.map Prod.fst ∨ n ∈ declaredNames (some ⟨names, isAssign⟩)) ∧
      s.scope.map Prod.fst <:+ scope.map Prod.fst := by
    rintro _ rfl
    have hnames : ((names.map fun v ↦ (v.text, Denotation.unknown)).reverse ++ s.scope).map
        Prod.fst = (names.map (·.text)).reverse ++ s.scope.map Prod.fst := by
      rw [List.map_append, List.map_reverse, List.map_map]
      rfl
    rw [hnames]
    refine ⟨fun n ↦ ?_, List.suffix_append _ _⟩
    rw [List.mem_append, List.mem_reverse]
    exact or_comm
  rcases inRange with _ | _
  · rcases names with _ | ⟨name, _ | ⟨second, rest⟩⟩
    · exact hseveral _ rfl
    · have hpushed : (∀ n, n ∈ name.text :: s.scope.map Prod.fst ↔
          n ∈ s.scope.map Prod.fst ∨ n ∈ [name.text]) ∧
          s.scope.map Prod.fst <:+ name.text :: s.scope.map Prod.fst := by
        refine ⟨fun n ↦ ?_, List.suffix_cons _ _⟩
        rw [List.mem_cons, List.mem_singleton]
        exact or_comm
      cases isAssign with
      | false => exact hpushed
      | true =>
        cases hrebind : rebind? name.text result s.scope with
        | none =>
          have hscope : (Reading.bind ⟨[name], true⟩ false valuesBefore result s).2.scope =
              (name.text, result) :: s.scope := by
            change (rebind? name.text result s.scope).getD _ = _
            rw [hrebind]
            rfl
          rw [hscope]
          exact hpushed
        | some scope =>
          obtain ⟨hnames, hmem⟩ := names_rebind? hrebind
          have hscope : (Reading.bind ⟨[name], true⟩ false valuesBefore result s).2.scope =
              scope := by
            change (rebind? name.text result s.scope).getD _ = _
            rw [hrebind]
            rfl
          rw [hscope, hnames]
          refine ⟨fun n ↦ ⟨.inl, ?_⟩, List.suffix_rfl⟩
          rintro (hn | hn)
          · exact hn
          · exact List.mem_singleton.mp hn ▸ hmem
    · exact hseveral _ rfl
  · exact hseveral _ rfl

/-! ### Pipelines -/

mutual

/-- The lookups of an operand follow its visits. -/
theorem follows_operand {declaring vars : List String} {s : State} :
    ∀ o : Operand, Covers vars declaring s.scope →
    Follows declaring s (o.visits vars) (operandLookups o declaring s) (o.varsAfter vars)
      (operand o s).2
  | .mk (.paren none) span fields, h => by
    rw [operand, operandLookups, Operand.visits, Operand.varsAfter]
    · exact .of_stays (Path.stays_finishOperand _ _ _ _) h
    all_goals simp
  | .mk (.paren (some p)) span fields, h => by
    rw [operand, operandLookups, Operand.visits, Operand.varsAfter]
    have hpipeline := follows_pipeline p false h
    have hfinish := Follows.of_stays (Path.stays_finishOperand (.paren none) span fields
      (pipeline p false s).1) hpipeline.covers
    have hboth := hpipeline.trans hfinish
    rwa [List.append_nil, List.append_nil] at hboth
  | .mk (.variable (some name)) span fields, h => by
    rw [operand_eq (by simp), operandLookups, Operand.visits, Operand.varsAfter]
    · have hstays := Path.stays_simpleOperand (.variable (some name)) span fields
      have hfollows := Follows.of_stays hstays h
      exact ⟨.cons ⟨rfl, h⟩ .nil, hfollows.covers, hfollows.deeper⟩
    all_goals simp
  | .mk .dot span fields, h | .mk .field span fields, h | .mk (.variable none) span fields, h
  | .mk (.function _) span fields, h | .mk (.literal _) span fields, h => by
    rw [operand_eq (by simp), operandLookups, Operand.visits, Operand.varsAfter]
    · exact .of_stays (Path.stays_simpleOperand _ _ _) h
    all_goals simp

theorem follows_operands {declaring vars : List String} {s : State} :
    ∀ os : List Operand, Covers vars declaring s.scope →
    Follows declaring s (operandsVisits os vars) (operandsLookups os declaring s)
      (operandsVarsAfter os vars) (operands os s).2
  | [], h => .refl h
  | o :: os, h => by
    have hoperand := follows_operand o h
    exact hoperand.trans (follows_operands os hoperand.covers)

/-- So do those of commands. -/
theorem follows_commands {declaring vars : List String} {s : State} :
    ∀ cs : List (List Operand), Covers vars declaring s.scope →
    Follows declaring s (commandsVisits cs vars) (commandsLookups cs declaring s)
      (commandsVarsAfter cs vars) (commands cs s).2
  | [], h => .refl h
  | c :: cs, h => by
    have hoperands := follows_operands c h
    have hresult := Follows.of_stays (Path.stays_commandResult c (operands c s).1) hoperands.covers
    exact hoperands.trans (hresult.trans (follows_commands cs hresult.covers))

/-- So do those of a pipeline, which declares its variables at its end. -/
theorem follows_pipeline {declaring vars : List String} {s : State} :
    ∀ (p : Pipeline) (inRange : Bool), Covers vars declaring s.scope →
    Follows declaring s (p.visits vars) (pipelineLookups p declaring s) (p.varsAfter vars)
      (pipeline p inRange s).2
  | .mk none cs, inRange, h => by
    rw [pipeline, Pipeline.visits, pipelineLookups, Pipeline.varsAfter]
    exact follows_commands cs (covers_enter h none)
  | .mk (some decl) cs, inRange, h => by
    have hcommands := follows_commands cs (covers_enter h (some decl))
    obtain ⟨hnames, hdeeper⟩ := names_bind decl inRange s.reads.values.length
      (pipelineResult (commands cs s).1) (commands cs s).2
    have hbound : ∀ n, n ∈ commandsVarsAfter cs (Decl.enter (some decl) vars) ↔
        n ∈ (Reading.bind decl inRange s.reads.values.length (pipelineResult (commands cs s).1)
          (commands cs s).2).2.scope.map Prod.fst ∨ n ∈ declaring := by
      intro n
      rw [hcommands.covers n, hnames n, List.mem_append, or_assoc]
    rw [pipeline, Pipeline.visits, pipelineLookups, Pipeline.varsAfter]
    exact ⟨hcommands.agree, hbound, hcommands.deeper.trans hdeeper⟩

end

variable {vars : List String} {s : State}

/-- So do those of the pipeline of an action, if it has one. -/
theorem follows_pipelineOf (p : Option Pipeline) (inRange : Bool)
    (h : Covers vars [] s.scope) :
    Follows [] s (pipelineVisits p vars) (pipelineOfLookups p s) (pipelineVarsAfter p vars)
      (pipelineOf p inRange s).2 := by
  cases p with
  | none => exact .refl h
  | some p => exact follows_pipeline p inRange h

/-! ### Items -/

/-- Behind a step that keeps its scope the names are those in front of it. -/
theorem names_keepingScope (step : Reading Unit)
    (h : s.scope.map Prod.fst <:+ (step s).2.scope.map Prod.fst) :
    (keepingScope step s).2.scope.map Prod.fst = s.scope.map Prod.fst := by
  have hscope : (keepingScope step s).2.scope =
      (step s).2.scope.drop ((step s).2.scope.length - s.scope.length) := rfl
  have hdrop := List.suffix_iff_eq_drop.mp h
  rw [List.length_map, List.length_map] at hdrop
  rw [hscope, List.map_drop]
  exact hdrop.symm

/-- A template of its own starts with one name in scope. -/
theorem covers_fresh (s : State) : Covers ["$"] [] s.fresh.scope := by
  intro n
  simp [State.fresh]

mutual

/-- The lookups of an item follow its visits, and its end restores the scope. -/
theorem follows_item {vars : List String} {s : State} : ∀ i : Item, Covers vars [] s.scope →
    Follows [] s (i.visits vars) (itemLookups i s) (i.varsAfter vars) (item i s).2
  | .action _ p, h => by
    rw [item, Item.visits, itemLookups]
    exact follows_pipelineOf p false h
  | .control kind _ p b o, h => by
    rw [item_control, Item.visits, itemLookups]
    have hheader := follows_pipelineOf p (kind = .rangeBlock) h
    have hinside : ((pipelineOf p (kind = .rangeBlock) s).2.inside kind
        (pipelineOf p (kind = .rangeBlock) s).1).scope =
        (pipelineOf p (kind = .rangeBlock) s).2.scope := by cases kind <;> rfl
    have hbody := follows_body b (hinside.symm ▸ hheader.covers)
    have hscope : (header kind p b s).2.scope =
        (body b ((pipelineOf p (kind = .rangeBlock) s).2.inside
        kind (pipelineOf p (kind = .rangeBlock) s).1)).2.scope := by
      rw [header, bind_apply]
      cases kind <;> rfl
    have hlist := hheader.trans (hbody.congr hinside.symm hscope)
    obtain ⟨vars', hotherwise⟩ := follows_otherwise o hlist.covers
    have hall := hlist.trans hotherwise
    have hnames := names_keepingScope (header kind p b >>= fun _ ↦ otherwise o) hall.deeper
    refine ⟨hall.agree, fun n ↦ ?_, hnames.symm ▸ List.suffix_rfl⟩
    rw [hnames]
    exact h n
  | .define _ _ b, h => by
    rw [item, Item.visits, itemLookups]
    exact ⟨(follows_body b (covers_fresh s)).agree, h, List.suffix_rfl⟩
  | .block _ _ p b, h => by
    rw [item, Item.visits, itemLookups]
    have hheader := follows_pipelineOf p false h
    have hbody := follows_body b (covers_fresh (pipelineOf p false s).2)
    exact ⟨List.rel_append hheader.agree hbody.agree, hheader.covers, hheader.deeper⟩
  | .call _ _ p, h => by
    rw [item, Item.visits, itemLookups]
    exact follows_pipelineOf p false h

/-- So do those of the list of a block. -/
theorem follows_body {vars : List String} {s : State} : ∀ b : Body, Covers vars [] s.scope →
    Follows [] s (b.visits vars) (bodyLookups b s) (b.varsAfter vars) (body b s).2
  | .missing, h => .refl h
  | .items is, h => follows_items is h

/-- A reading of items and their outline come to the same variables with the same names. -/
theorem follows_items {vars : List String} {s : State} : ∀ is : List Item,
    Covers vars [] s.scope → Follows [] s (itemsVisits is vars) (itemsLookups is s)
      (itemsVarsAfter is vars) (items is s).2
  | [], h => .refl h
  | i :: is, h => by
    have hitem := follows_item i h
    exact hitem.trans (follows_items is hitem.covers)

/-- So do those of what follows the list. -/
theorem follows_otherwise {vars : List String} {s : State} : ∀ o : Otherwise,
    Covers vars [] s.scope → ∃ vars', Follows [] s (o.visits vars) (otherwiseLookups o s) vars'
      (otherwise o s).2
  | .none, h => ⟨_, .refl h⟩
  | .nested i, h => ⟨_, follows_item i h⟩
  | .body b, h => ⟨_, follows_body b h⟩

end

/-- Where the outline finds every variable in scope, a lookup finds a binding unless a pipeline
around it declares the name. -/
theorem isSome_lookup_of_agree {visits : List Visit} {lookups : List Lookup}
    (hagree : List.Forall₂ Agrees visits lookups) (hscoped : WellScoped visits) :
    ∀ l ∈ lookups, l.name.text ∉ l.declaring → (l.scope.lookup l.name.text).isSome := by
  induction hagree with
  | nil => exact fun l hl ↦ absurd hl List.not_mem_nil
  | @cons u l visits lookups h _ ih =>
    obtain ⟨hhere, hrest⟩ := List.forall_mem_cons.mp hscoped
    refine List.forall_mem_cons.mpr ⟨fun hdeclaring ↦ ?_, ih hrest⟩
    have hmem : l.name.text ∈ l.scope.map Prod.fst :=
      (((h.2 _).mp (h.1 ▸ hhere)).resolve_right hdeclaring)
    obtain ⟨binding, hbinding, hname⟩ := List.mem_map.mp hmem
    exact List.lookup_isSome_iff.mpr ⟨binding, hbinding, beq_iff_eq.mpr hname.symm⟩

/-- In front of a template its own variables are in scope. -/
theorem covers_start (text : String) : Covers prelude [] (State.start text).scope := by
  intro n
  simp [prelude, State.start]
  tauto

end Reading

end AlertAudit.Template
