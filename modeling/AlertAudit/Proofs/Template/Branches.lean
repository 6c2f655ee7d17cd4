import AlertAudit.Proofs.Template.Declarations
import AlertAudit.Proofs.Template.Origins
import AlertAudit.Proofs.Template.PathReads

/-!
The else branch of a block, read behind the list of the block and read without it. A list changes
the scope as its origins say (`advances_items`). From two states that differ only in what the list
has bound, an else branch that avoids these variables reads the same (`parallel_otherwise`).
-/

set_option autoImplicit false

namespace AlertAudit.Template.Reading

open AlertAudit.Text
open AlertAudit.Template.Path (Stays)

/-- What the variables in scope stand for, the innermost first. -/
abbrev Scope := List (String × Denotation)

/-- The second scope is the first one without what a list has bound. -/
inductive Without : Origins → Scope → Scope → Prop
  | nil : Without [] [] []
  | outside {n : String} {d : Denotation} {σ : Origins} {vs ws : Scope} : Without σ vs ws →
    Without ((n, .outside) :: σ) ((n, d) :: vs) ((n, d) :: ws)
  | assigned {n : String} {d e : Denotation} {σ : Origins} {vs ws : Scope} : Without σ vs ws →
    Without ((n, .assigned) :: σ) ((n, d) :: vs) ((n, e) :: ws)
  | declared {n : String} {d : Denotation} {σ : Origins} {vs ws : Scope} : Without σ vs ws →
    Without ((n, .declared) :: σ) ((n, d) :: vs) ws

/-- The origins in front of a list. -/
def outsideOrigins (vs : Scope) : Origins := vs.map fun v ↦ (v.1, .outside)

section Without

variable {σ τ : Origins} {vs ws : Scope}

/-- In front of a list nothing has been bound in it. -/
theorem without_outsideOrigins (vs : Scope) : Without (outsideOrigins vs) vs vs := by
  induction vs with
  | nil => exact .nil
  | cons v vs ih => exact .outside ih

/-- The variables with their origins are those behind the list. -/
theorem Without.names (h : Without σ vs ws) : σ.map Prod.fst = vs.map Prod.fst := by
  induction h with
  | nil => rfl
  | outside _ ih | assigned _ ih | declared _ ih => exact congrArg _ ih

/-- There are as many of them. -/
theorem Without.length_eq (h : Without σ vs ws) : vs.length = σ.length := by
  rw [← List.length_map Prod.fst, ← h.names, List.length_map]

/-- Without the list there are as many variables as the list did not declare. -/
theorem Without.length_right (h : Without σ vs ws) :
    ws.length = (marks σ).countP fun v ↦ !v.2 := by
  induction h with
  | nil => rfl
  | outside _ ih | assigned _ ih | declared _ ih => simp [marks, ih]

/-- A variable that may be read stands for the same in both scopes. -/
theorem Without.lookup (h : Without σ vs ws) {name : String} (hread : σ.allowsRead name) :
    ws.lookup name = vs.lookup name := by
  induction h with
  | nil => rfl
  | @outside n d σ vs ws _ ih =>
    by_cases hn : name = n
    · rw [hn, List.lookup_cons_self, List.lookup_cons_self]
    · rw [allowsRead_cons_of_ne hn] at hread
      rw [List.lookup_cons, List.lookup_cons, ih hread]
  | @assigned n d e σ vs ws _ ih =>
    have hn : name ≠ n := by
      rintro rfl
      exact absurd (eq_outside_of_allowsRead hread) nofun
    rw [allowsRead_cons_of_ne hn] at hread
    rw [List.lookup_cons, List.lookup_cons, beq_eq_false_iff_ne.mpr hn]
    exact ih hread
  | @declared n d σ vs ws _ ih =>
    have hn : name ≠ n := by
      rintro rfl
      exact absurd (eq_outside_of_allowsRead hread) nofun
    rw [allowsRead_cons_of_ne hn] at hread
    rw [List.lookup_cons, beq_eq_false_iff_ne.mpr hn]
    exact ih hread

/-- What the list declared last is not there without it. -/
theorem Without.drop_declared {pushed rest : List (String × Bool)} (h : Without σ vs ws)
    (hmarks : marks σ = pushed ++ rest) (hpushed : ∀ v ∈ pushed, v.2 = true) :
    Without (σ.drop pushed.length) (vs.drop pushed.length) ws := by
  induction pushed generalizing σ vs with
  | nil => exact h
  | cons v pushed ih =>
    obtain ⟨hv, hpushed⟩ := List.forall_mem_cons.mp hpushed
    cases h with
    | nil => exact absurd hmarks nofun
    | declared h => exact ih h (List.cons.inj hmarks).2 hpushed
    | outside | assigned =>
      obtain ⟨rfl, -⟩ := List.cons.inj hmarks
      exact absurd hv Bool.false_ne_true

/-- What is declared last outside of the list is there in both scopes. -/
theorem Without.drop_outside {pushed rest : List (String × Bool)} (h : Without σ vs ws)
    (hmarks : marks σ = pushed ++ rest) (hpushed : ∀ v ∈ pushed, v.2 = false) :
    Without (σ.drop pushed.length) (vs.drop pushed.length) (ws.drop pushed.length) := by
  induction pushed generalizing σ vs ws with
  | nil => exact h
  | cons v pushed ih =>
    obtain ⟨hv, hpushed⟩ := List.forall_mem_cons.mp hpushed
    cases h with
    | nil => exact absurd hmarks nofun
    | outside h | assigned h => exact ih h (List.cons.inj hmarks).2 hpushed
    | declared =>
      obtain ⟨rfl, -⟩ := List.cons.inj hmarks
      exact absurd hv.symm Bool.false_ne_true

end Without

/-! ### Behind a list -/

section Advances

variable {α β : Type} {σ τ ρ : Origins}

/-- A step of a list takes the origins `σ` to `τ`, and leaves the dot as it is. -/
def Advances (σ τ : Origins) (step : Reading α) : Prop :=
  ∀ ⦃s : State⦄ ⦃ws : Scope⦄, Without σ s.scope ws →
    Without τ (step s).2.scope ws ∧ (step s).2.dot = s.dot

/-- A step that binds nothing changes no origins. -/
theorem advances_of_stays {step : Reading α} (h : Stays step) : Advances σ σ step := by
  intro s ws hs
  rw [(h s).1]
  exact ⟨hs, (h s).2⟩

/-- The origins behind a step are those in front of the next. -/
theorem Advances.bind {step : Reading α} {f : α → Reading β} (hstep : Advances σ τ step)
    (hf : ∀ a, Advances τ ρ (f a)) : Advances σ ρ (step >>= f) := by
  intro s ws hs
  obtain ⟨hmiddle, hdot⟩ := hstep hs
  obtain ⟨hbehind, hdot'⟩ := hf _ hmiddle
  exact ⟨hbehind, hdot'.trans hdot⟩

/-- What a list declares is not there without it. -/
theorem Without.declare {vs ws : Scope} (h : Without σ vs ws) (names : List Token)
    (d : Token → Denotation) : Without (declaredOrigins .list names ++ σ)
      ((names.map fun v ↦ (v.text, d v)).reverse ++ vs) ws := by
  induction names generalizing σ vs with
  | nil => exact h
  | cons name names ih =>
    have hfirst := ih (Without.declared (n := name.text) (d := d name) h)
    simpa [declaredOrigins, Branch.declares] using hfirst

theorem rel_map {γ δ : Type} {r : α → β → Prop} {r' : γ → δ → Prop} {x : Option α} {y : Option β}
    {f : α → γ} {g : β → δ} (h : Option.Rel r x y) (hmap : ∀ a b, r a b → r' (f a) (g b)) :
    Option.Rel r' (x.map f) (y.map g) := by
  cases h with
  | none => exact .none
  | some hab => exact .some (hmap _ _ hab)

theorem rel_getD {r : α → β → Prop} {x : Option α} {y : Option β} (h : Option.Rel r x y) {a : α}
    {b : β} (hab : r a b) : r (x.getD a) (y.getD b) := by
  cases h with
  | none => exact hab
  | some hab => exact hab

/-- To assign to a variable changes it, and the same one is assigned to by the origins. -/
theorem Without.rebind? {vs ws : Scope} (h : Without σ vs ws) (name : String) (d : Denotation) :
    Option.Rel (Without · · ws) (assign? .list name σ) (Reading.rebind? name d vs) := by
  induction h with
  | nil => exact .none
  | outside hrest ih =>
    rw [assign?, Reading.rebind?]
    split
    · exact .some (.assigned hrest)
    · exact rel_map ih fun _ _ ↦ .outside
  | assigned hrest ih =>
    rw [assign?, Reading.rebind?]
    split
    · exact .some (.assigned hrest)
    · exact rel_map ih fun _ _ ↦ .assigned
  | declared hrest ih =>
    rw [assign?, Reading.rebind?]
    split
    · exact .some (.declared hrest)
    · exact rel_map ih fun _ _ ↦ .declared

/-- A declaration in a list binds its variables as their origins say. -/
theorem advances_bind (decl : Decl) (inRange : Bool) (valuesBefore : Nat) (result : Denotation) :
    Advances σ (bindOrigins .list decl inRange σ)
      (Reading.bind decl inRange valuesBefore result) := by
  intro s ws hs
  obtain ⟨names, isAssign⟩ := decl
  have hseveral := hs.declare names fun _ ↦ .unknown
  rcases inRange with _ | _
  · rcases names with _ | ⟨name, _ | ⟨second, rest⟩⟩
    · exact ⟨hseveral, rfl⟩
    · refine ⟨?_, rfl⟩
      cases isAssign with
      | false => exact hs.declare [name] fun _ ↦ result
      | true =>
        exact rel_getD (hs.rebind? name.text result) (hs.declare [name] fun _ ↦ result)
    · exact ⟨hseveral, rfl⟩
  · exact ⟨hseveral, rfl⟩

/-- At the end of a block the variables from in front of it are left. -/
theorem Advances.keepingScope {step : Reading Unit} (h : Advances σ τ step)
    (hgrown : Grown .list σ τ) : Advances σ (leaveBlock σ τ) (keepingScope step) := by
  intro s ws hs
  obtain ⟨hbehind, hdot⟩ := h hs
  refine ⟨?_, hdot⟩
  obtain ⟨pushed, hmarks, hpushed⟩ := hgrown
  change Without (τ.drop (τ.length - σ.length))
    ((step s).2.scope.drop ((step s).2.scope.length - s.scope.length)) ws
  rw [hbehind.length_eq, hs.length_eq, length_sub_of_marks hmarks]
  exact hbehind.drop_declared hmarks hpushed

end Advances

mutual

/-- An operand of a list changes the scope as its origins say. -/
theorem advances_operand {σ : Origins} : ∀ o : Operand,
    Advances σ (o.origins .list σ) (operand o)
  | .mk (.paren none) span fields => by
    rw [operand, Operand.origins]
    · exact advances_of_stays (Path.stays_finishOperand _ _ _ _)
    all_goals simp
  | .mk (.paren (some p)) span fields => by
    rw [operand, Operand.origins]
    exact (advances_pipeline p false).bind fun _ ↦
      advances_of_stays (Path.stays_finishOperand _ _ _ _)
  | .mk .dot span fields | .mk .field span fields | .mk (.variable _) span fields
  | .mk (.function _) span fields | .mk (.literal _) span fields => by
    rw [operand_eq (by simp), Operand.origins]
    · exact advances_of_stays (Path.stays_simpleOperand _ _ _)
    all_goals simp

theorem advances_operands {σ : Origins} : ∀ os : List Operand,
    Advances σ (operandsOrigins .list os σ) (operands os)
  | [] => advances_of_stays (Path.stays_pure _)
  | o :: os => (advances_operand o).bind fun _ ↦ (advances_operands os).bind fun _ ↦
    advances_of_stays (Path.stays_pure _)

theorem advances_commands {σ : Origins} : ∀ cs : List (List Operand),
    Advances σ (commandsOrigins .list cs σ) (commands cs)
  | [] => advances_of_stays (Path.stays_pure _)
  | c :: cs => (advances_operands c).bind fun ds ↦
    (advances_of_stays (Path.stays_commandResult c ds)).bind fun _ ↦
      (advances_commands cs).bind fun _ ↦ advances_of_stays (Path.stays_pure _)

/-- So does a pipeline. -/
theorem advances_pipeline {σ : Origins} : ∀ (p : Pipeline) (inRange : Bool),
    Advances σ (p.origins .list inRange σ) (pipeline p inRange)
  | .mk none cs, inRange => by
    rw [pipeline, Pipeline.origins]
    exact fun s _ hs ↦ advances_commands cs hs
  | .mk (some decl) cs, inRange => by
    rw [pipeline, Pipeline.origins]
    intro s ws hs
    obtain ⟨hcommands, hdot⟩ := advances_commands cs hs
    obtain ⟨hbehind, hdot'⟩ := advances_bind decl inRange s.reads.values.length
      (pipelineResult (commands cs s).1) hcommands
    exact ⟨hbehind, hdot'.trans hdot⟩

end

theorem advances_pipelineOf {σ : Origins} (p : Option Pipeline) (inRange : Bool) :
    Advances σ (pipelineOrigins .list p inRange σ) (pipelineOf p inRange) := by
  cases p with
  | none => exact advances_of_stays (Path.stays_pure _)
  | some p => exact advances_pipeline p inRange

/-- The list of a block whose header stands for `d`. -/
def listOf (kind : Control) (d : Denotation) (b : Body) : Reading Unit :=
  match kind with
  | .ifBlock => body b
  | .withBlock => withDot d (body b)
  | .rangeBlock => withDot .unknown (body b)

/-- A header with its list is the pipeline, and the list with the dot that it gives. -/
theorem header_eq (kind : Control) (p : Option Pipeline) (b : Body) :
    header kind p b = pipelineOf p (kind = .rangeBlock) >>= fun d ↦ listOf kind d b := rfl

/-- Whatever the dot is in the list of a block, the scope behind the list is the same. -/
theorem Advances.listOf {σ τ : Origins} {b : Body} (h : Advances σ τ (body b)) (kind : Control)
    (d : Denotation) : Advances σ τ (listOf kind d b) := by
  cases kind with
  | ifBlock => exact h
  | withBlock => exact fun s _ hs ↦ ⟨(h (s := { s with dot := d }) hs).1, rfl⟩
  | rangeBlock => exact fun s _ hs ↦ ⟨(h (s := { s with dot := .unknown }) hs).1, rfl⟩

mutual

/-- An item of a list changes the scope as its origins say. -/
theorem advances_item {σ : Origins} : ∀ i : Item, Advances σ (i.origins .list σ) (item i)
  | .action _ p | .call _ _ p => by
    rw [item, Item.origins]
    exact (advances_pipelineOf p false).bind fun _ ↦ advances_of_stays (Path.stays_pure _)
  | .control kind _ p b o => by
    rw [item_control, Item.origins]
    have hheader := (advances_pipelineOf (σ := σ) p (kind = .rangeBlock)).bind
      fun d ↦ (advances_body b).listOf kind d
    refine Advances.keepingScope (hheader.bind fun _ ↦ advances_otherwise o) ?_
    exact ((grown_pipelineOf .list σ p _).trans (grown_body .list _ b)).trans
      (grown_otherwise .list _ o)
  | .define _ _ b => by
    rw [item, Item.origins]
    exact advances_of_stays (stays_isolated _)
  | .block _ _ p b => by
    rw [item, Item.origins]
    exact (advances_pipelineOf p false).bind fun _ ↦ advances_of_stays (stays_isolated _)

/-- So does the list of a block in it. -/
theorem advances_body {σ : Origins} : ∀ b : Body, Advances σ (b.origins .list σ) (body b)
  | .missing => advances_of_stays (Path.stays_pure _)
  | .items is => advances_items is

/-- Behind the items of a list the scope differs from the one in front of them by what the origins
say. -/
theorem advances_items {σ : Origins} : ∀ is : List Item,
    Advances σ (itemsOrigins .list is σ) (items is)
  | [] => advances_of_stays (Path.stays_pure _)
  | i :: is => (advances_item i).bind fun _ ↦ advances_items is

/-- So does what follows such a list. -/
theorem advances_otherwise {σ : Origins} : ∀ o : Otherwise,
    Advances σ (o.origins .list σ) (otherwise o)
  | .none => advances_of_stays (Path.stays_pure _)
  | .nested i => advances_item i
  | .body b => advances_body b

end

/-! ### Behind the list and without it -/

section Parallel

variable {α β : Type} {σ τ ρ : Origins}

/-- The first state is behind a list and the second one is without it: they differ only in what the
list has bound. -/
structure Beside (σ : Origins) (s t : State) : Prop where
  text : t.text = s.text
  reads : t.reads = s.reads
  dot : t.dot = s.dot
  scope : Without σ s.scope t.scope

/-- The step has the same result behind a list and without it, and takes the origins `σ` to `τ`. -/
def Parallel (σ τ : Origins) (step : Reading α) : Prop :=
  ∀ ⦃s t : State⦄, Beside σ s t → (step t).1 = (step s).1 ∧ Beside τ (step s).2 (step t).2

/-- The step does not depend on the scope and leaves it alone. -/
def Blind (step : Reading α) : Prop := ∀ (s : State) (vs : Scope),
  step { s with scope := vs } = ((step s).1, { (step s).2 with scope := vs })

theorem blind_pure (a : α) : Blind (pure a : Reading α) := fun _ _ ↦ rfl

/-- Two steps that do not depend on the scope do not depend on it one after the other. -/
theorem Blind.bind {step : Reading α} {f : α → Reading β} (hstep : Blind step)
    (hf : ∀ a, Blind (f a)) : Blind (step >>= f) := by
  intro s vs
  rw [bind_apply, bind_apply, hstep s vs, hf]

/-- A choice does not depend on the scope if neither of its sides does. -/
theorem Blind.ite {c : Prop} [Decidable c] {step next : Reading α} (hstep : Blind step)
    (hnext : Blind next) : Blind (if c then step else next) := by
  split
  · exact hstep
  · exact hnext

/-- What does not depend on the scope is the same in both. -/
theorem Blind.parallel {step : Reading α} (h : Blind step) : Parallel σ σ step := by
  intro s t hst
  have ht : t = { s with scope := t.scope } := by
    obtain ⟨text, reads, scope, dot⟩ := t
    obtain ⟨rfl, rfl, rfl, -⟩ := hst
    rfl
  have hstays : (step s).2.scope = s.scope := congrArg (·.2.scope) (h s s.scope)
  rw [ht, h s t.scope]
  exact ⟨rfl, rfl, rfl, rfl, hstays ▸ hst.scope⟩

/-- Steps that are the same in both scopes are so one after the other. -/
theorem Parallel.bind {step : Reading α} {f : α → Reading β} (hstep : Parallel σ τ step)
    (hf : ∀ a, Parallel τ ρ (f a)) : Parallel σ ρ (step >>= f) := by
  intro s t h
  obtain ⟨hvalue, h⟩ := hstep h
  rw [bind_apply, bind_apply, hvalue]
  exact hf _ h

theorem parallel_pure (a : α) : Parallel σ σ (pure a : Reading α) := (blind_pure a).parallel

end Parallel

/-! ### Operands -/

/-- A field does not depend on the scope. -/
theorem blind_applyField (span : Span) (base : Denotation) (field : Token) :
    Blind (applyField span base field) := by
  cases base with
  | alert => exact (blind_pure _).ite (Blind.ite (fun _ _ ↦ rfl) (blind_pure _))
  | labels => exact fun _ _ ↦ rfl
  | value chain => exact blind_pure _
  | unknown => exact blind_pure _

theorem blind_applyFields (span : Span) (base : Denotation) (fields : List Token) :
    Blind (applyFields span base fields) := by
  induction fields generalizing base with
  | nil => exact blind_pure _
  | cons f fs ih => exact (blind_applyField span base f).bind ih

/-- Neither does the end of an operand. -/
theorem blind_finishOperand (term : Term) (span : Span) (fields : List Token)
    (base : Denotation) : Blind (finishOperand term span fields base) := by
  refine (blind_applyFields span base fields).bind fun d ↦ ?_
  cases d with
  | value chain => exact Blind.ite (fun _ _ ↦ rfl) (blind_pure _)
  | alert | labels | unknown => exact blind_pure _

/-- Neither does the result of a command. -/
theorem blind_commandResult (os : List Operand) (ds : List Denotation) :
    Blind (commandResult os ds) := by
  unfold commandResult
  split
  · exact fun _ _ ↦ rfl
  · exact blind_pure _
  · exact blind_pure _

section Operand

variable {σ : Origins} {span : Span} {fields : List Token}

/-- A variable that may be read stands for the same without the list. -/
theorem parallel_variable {name : Token} (hread : σ.allowsRead name.text) :
    Parallel σ σ (termResult (.variable (some name))) := by
  have hlookup : Parallel σ σ (lookup name.text) := by
    intro s t h
    refine ⟨?_, h⟩
    change (t.scope.lookup name.text).getD .unknown = (s.scope.lookup name.text).getD .unknown
    rw [h.scope.lookup hread]
  refine hlookup.bind fun d ↦ ?_
  cases d <;> exact parallel_pure _

/-- An operand of one token is the same in both scopes if what it starts with is. -/
theorem parallel_simpleOperand {term : Term} (h : Parallel σ σ (termResult term)) :
    Parallel σ σ (simpleOperand term span fields) := by
  refine h.bind fun base ↦ ?_
  cases base with
  | none => exact parallel_pure _
  | some base => exact (blind_finishOperand term span fields base).parallel

end Operand

/-! ### Pipelines -/

section Bind

variable {σ : Origins} {vs ws : Scope}

/-- What is declared behind the list is there in both scopes. -/
theorem Without.declareBoth (h : Without σ vs ws) (names : List Token) (d : Token → Denotation) :
    Without (declaredOrigins .otherwise names ++ σ)
      ((names.map fun v ↦ (v.text, d v)).reverse ++ vs)
      ((names.map fun v ↦ (v.text, d v)).reverse ++ ws) := by
  induction names generalizing σ vs ws with
  | nil => exact h
  | cons name names ih =>
    have hfirst := ih (Without.outside (n := name.text) (d := d name) h)
    simpa [declaredOrigins, Branch.declares] using hfirst

/-- A variable has been assigned to behind a list and without it, or is there in neither scope. -/
inductive Rebound : Option Origins → Option Scope → Option Scope → Prop
  | missing : Rebound none none none
  | found {τ : Origins} {us us' : Scope} : Without τ us us' → Rebound (some τ) (some us) (some us')

section Rebound

variable {assigned : Option Origins} {behind without : Option Scope}

/-- What is rebound in both scopes is so with more variables around it. -/
theorem Rebound.map (h : Rebound assigned behind without) {f : Origins → Origins}
    {g k : Scope → Scope} (hmap : ∀ τ us us', Without τ us us' → Without (f τ) (g us) (k us')) :
    Rebound (assigned.map f) (behind.map g) (without.map k) := by
  cases h with
  | missing => exact .missing
  | found hrest => exact .found (hmap _ _ _ hrest)

/-- An assignment to no variable in scope is a declaration in both. -/
theorem Rebound.getD (h : Rebound assigned behind without) (hdeclared : Without σ vs ws) :
    Without (assigned.getD σ) (behind.getD vs) (without.getD ws) := by
  cases h with
  | missing => exact hdeclared
  | found hrest => exact hrest

end Rebound

/-- To assign to a variable that the list did not declare is to assign to the same one without the
list. -/
theorem Without.rebound (h : Without σ vs ws) {name : String}
    (hname : σ.lookup name ≠ some .declared) (d : Denotation) : Rebound
      (assign? .otherwise name σ) (Reading.rebind? name d vs) (Reading.rebind? name d ws) := by
  induction h with
  | nil => exact .missing
  | outside hrest ih =>
    rw [assign?, Reading.rebind?, Reading.rebind?]
    split
    · exact .found (.outside hrest)
    next hne =>
      rw [List.lookup_cons, beq_eq_false_iff_ne.mpr (Ne.symm hne)] at hname
      exact (ih hname).map fun _ _ _ ↦ .outside
  | assigned hrest ih =>
    rw [assign?, Reading.rebind?, Reading.rebind?]
    split
    · exact .found (.outside hrest)
    next hne =>
      rw [List.lookup_cons, beq_eq_false_iff_ne.mpr (Ne.symm hne)] at hname
      exact (ih hname).map fun _ _ _ ↦ .assigned
  | @declared n e σ vs ws hrest ih =>
    by_cases hn : n = name
    · subst hn
      rw [List.lookup_cons_self] at hname
      exact absurd rfl hname
    · rw [List.lookup_cons, beq_eq_false_iff_ne.mpr (Ne.symm hn)] at hname
      rw [assign?, Reading.rebind?, if_neg hn, if_neg hn]
      have hsame := (ih hname).map (k := id) fun _ _ _ ↦ Without.declared (n := n) (d := e)
      rwa [Option.map_id] at hsame

/-- A declaration that assigns to no variable of the list does the same in both scopes. -/
theorem parallel_bind {decl : Decl} {inRange : Bool} (hallows : σ.allowsBind decl inRange)
    (valuesBefore : Nat) (result : Denotation) : Parallel σ (bindOrigins .otherwise decl inRange σ)
      (Reading.bind decl inRange valuesBefore result) := by
  intro s t h
  obtain ⟨names, isAssign⟩ := decl
  have hseveral := h.scope.declareBoth names fun _ ↦ .unknown
  have hreads (take : Bool) : (if take then
      ({ t.reads with values := t.reads.values.take valuesBefore } : Reads) else t.reads) =
        if take then { s.reads with values := s.reads.values.take valuesBefore } else s.reads := by
    rw [h.reads]
  rcases inRange with _ | _
  · rcases names with _ | ⟨name, _ | ⟨second, rest⟩⟩
    · exact ⟨rfl, h.text, h.reads, h.dot, hseveral⟩
    · refine ⟨rfl, h.text, hreads result.isValue, h.dot, ?_⟩
      cases isAssign with
      | false => exact h.scope.declareBoth [name] fun _ ↦ result
      | true =>
        have hname : σ.lookup name.text ≠ some .declared := by
          simpa [Origins.allowsBind] using hallows
        exact (h.scope.rebound hname result).getD (h.scope.declareBoth [name] fun _ ↦ result)
    · exact ⟨rfl, h.text, h.reads, h.dot, hseveral⟩
  · exact ⟨rfl, h.text, h.reads, h.dot, hseveral⟩

end Bind

mutual

/-- An operand that avoids what the list bound is the same in both scopes. -/
theorem parallel_operand {σ : Origins} : ∀ o : Operand, o.avoids σ →
    Parallel σ (o.origins .otherwise σ) (operand o)
  | .mk (.paren none) span fields, _ => by
    rw [operand, Operand.origins]
    · exact (blind_finishOperand _ _ _ _).parallel
    all_goals simp
  | .mk (.paren (some p)) span fields, h => by
    rw [Operand.avoids] at h
    rw [operand, Operand.origins]
    exact (parallel_pipeline p false h).bind fun _ ↦ (blind_finishOperand _ _ _ _).parallel
  | .mk (.variable (some name)) span fields, h => by
    rw [Operand.avoids] at h
    rw [operand_eq (by simp), Operand.origins]
    · exact parallel_simpleOperand (parallel_variable h)
    all_goals simp
  | .mk .dot span fields, _ | .mk .field span fields, _ | .mk (.variable none) span fields, _
  | .mk (.literal _) span fields, _ | .mk (.function none) span fields, _
  | .mk (.function (some _)) span fields, _ => by
    rw [operand_eq (by simp), Operand.origins]
    · exact parallel_simpleOperand (Blind.parallel fun _ _ ↦ rfl)
    all_goals simp

/-- So are several operands. -/
theorem parallel_operands {σ : Origins} : ∀ os : List Operand, operandsAvoid os σ →
    Parallel σ (operandsOrigins .otherwise os σ) (operands os)
  | [], _ => parallel_pure _
  | o :: os, h => by
    rw [operandsAvoid, Bool.and_eq_true] at h
    exact (parallel_operand o h.1).bind fun _ ↦ (parallel_operands os h.2).bind fun _ ↦
      parallel_pure _

/-- So are commands. -/
theorem parallel_commands {σ : Origins} : ∀ cs : List (List Operand), commandsAvoid cs σ →
    Parallel σ (commandsOrigins .otherwise cs σ) (commands cs)
  | [], _ => parallel_pure _
  | c :: cs, h => by
    rw [commandsAvoid, Bool.and_eq_true] at h
    exact (parallel_operands c h.1).bind fun ds ↦ (blind_commandResult c ds).parallel.bind fun _ ↦
      (parallel_commands cs h.2).bind fun _ ↦ parallel_pure _

/-- So is a pipeline. -/
theorem parallel_pipeline {σ : Origins} : ∀ (p : Pipeline) (inRange : Bool), p.avoids inRange σ →
    Parallel σ (p.origins .otherwise inRange σ) (pipeline p inRange)
  | .mk none cs, inRange, h => by
    rw [Pipeline.avoids] at h
    rw [pipeline, Pipeline.origins]
    intro s t hst
    obtain ⟨hvalues, hbehind⟩ := parallel_commands cs h hst
    exact ⟨congrArg pipelineResult hvalues, hbehind⟩
  | .mk (some decl) cs, inRange, h => by
    rw [Pipeline.avoids, Bool.and_eq_true] at h
    rw [pipeline, Pipeline.origins]
    intro s t hst
    obtain ⟨hvalues, hbehind⟩ := parallel_commands cs h.1 hst
    have hresult := congrArg pipelineResult hvalues
    refine ⟨hresult, ?_⟩
    change Beside _ (Reading.bind decl _ s.reads.values.length
      (pipelineResult (commands cs s).1) _).2
      (Reading.bind decl _ t.reads.values.length (pipelineResult (commands cs t).1) _).2
    rw [hresult, hst.reads]
    exact (parallel_bind h.2 _ _ hbehind).2

end

/-- So is the pipeline of an action, if it has one. -/
theorem parallel_pipelineOf {σ : Origins} (p : Option Pipeline) (inRange : Bool)
    (h : pipelineAvoids p inRange σ) :
    Parallel σ (pipelineOrigins .otherwise p inRange σ) (pipelineOf p inRange) := by
  cases p with
  | none => exact parallel_pure _
  | some p => exact parallel_pipeline p inRange h

/-! ### Items -/

section Scopes

variable {σ τ ρ : Origins} {step : Reading Unit}

/-- At the end of a block both scopes have what they had in front of it. -/
theorem Parallel.keepingScope (h : Parallel σ τ step) (hgrown : Grown .otherwise σ τ) :
    Parallel σ (leaveBlock σ τ) (keepingScope step) := by
  intro s t hst
  obtain ⟨-, hbehind⟩ := h hst
  obtain ⟨pushed, hmarks, hpushed⟩ := hgrown
  refine ⟨rfl, hbehind.text, hbehind.reads, hbehind.dot, ?_⟩
  have hpushed : ∀ v ∈ pushed, v.2 = false := hpushed
  have hcount : pushed.countP (fun v ↦ !v.2) = pushed.length :=
    List.countP_eq_length.mpr fun v hv ↦ by rw [hpushed v hv, Bool.not_false]
  have hlength' : (step t).2.scope.length - t.scope.length = pushed.length := by
    rw [hbehind.scope.length_right, hst.scope.length_right, hmarks, List.countP_append, hcount,
      Nat.add_sub_cancel_right]
  change Without (τ.drop (τ.length - σ.length))
    ((step s).2.scope.drop ((step s).2.scope.length - s.scope.length))
    ((step t).2.scope.drop ((step t).2.scope.length - t.scope.length))
  rw [hlength', hbehind.scope.length_eq, hst.scope.length_eq, length_sub_of_marks hmarks]
  exact hbehind.scope.drop_outside hmarks hpushed

/-- The dot is the same in both. -/
theorem Parallel.withDot (h : Parallel σ τ step) (dot : Denotation) :
    Parallel σ τ (withDot dot step) := by
  intro s t hst
  have hdot : Beside σ { s with dot } { t with dot } := ⟨hst.text, hst.reads, rfl, hst.scope⟩
  obtain ⟨-, hbehind⟩ := h hdot
  exact ⟨rfl, hbehind.text, hbehind.reads, hst.dot, hbehind.scope⟩

/-- A template of its own does not see the scope around it. -/
theorem parallel_isolated (step : Reading Unit) : Parallel σ σ (isolated step) := by
  intro s t hst
  have hfresh : t.fresh = s.fresh := by
    rw [State.fresh, State.fresh, hst.text, hst.reads]
  have hbehind : (step t.fresh).2 = (step s.fresh).2 := by rw [hfresh]
  exact ⟨rfl, congrArg (·.text) hbehind, congrArg (·.reads) hbehind, hst.dot, hst.scope⟩

/-- The list of a block is the same in both, whatever the dot is in it. -/
theorem Parallel.listOf {b : Body} (h : Parallel σ τ (body b)) (kind : Control) (d : Denotation) :
    Parallel σ τ (listOf kind d b) := by
  cases kind with
  | ifBlock => exact h
  | withBlock => exact h.withDot d
  | rangeBlock => exact h.withDot .unknown

end Scopes

mutual

/-- An item that avoids what the list bound is the same in both scopes. -/
theorem parallel_item {σ : Origins} : ∀ i : Item, i.avoids σ →
    Parallel σ (i.origins .otherwise σ) (item i)
  | .action _ p, h | .call _ _ p, h => by
    rw [Item.avoids] at h
    rw [item, Item.origins]
    exact (parallel_pipelineOf p false h).bind fun _ ↦ parallel_pure _
  | .control kind _ p b o, h => by
    rw [Item.avoids, Bool.and_eq_true, Bool.and_eq_true] at h
    rw [item_control, Item.origins]
    have hheader := (parallel_pipelineOf p (kind = .rangeBlock) h.1.1).bind
      fun d ↦ (parallel_body b h.1.2).listOf kind d
    refine Parallel.keepingScope (hheader.bind fun _ ↦ parallel_otherwise o h.2) ?_
    exact ((grown_pipelineOf .otherwise σ p _).trans (grown_body .otherwise _ b)).trans
      (grown_otherwise .otherwise _ o)
  | .define _ _ b, _ => by
    rw [item, Item.origins]
    exact parallel_isolated _
  | .block _ _ p b, h => by
    rw [Item.avoids] at h
    rw [item, Item.origins]
    exact (parallel_pipelineOf p false h).bind fun _ ↦ parallel_isolated _

/-- So is the list of a block. -/
theorem parallel_body {σ : Origins} : ∀ b : Body, b.avoids σ →
    Parallel σ (b.origins .otherwise σ) (body b)
  | .missing, _ => parallel_pure _
  | .items is, h => parallel_items is h

/-- So are several items. -/
theorem parallel_items {σ : Origins} : ∀ is : List Item, itemsAvoid is σ →
    Parallel σ (itemsOrigins .otherwise is σ) (items is)
  | [], _ => parallel_pure _
  | i :: is, h => by
    rw [itemsAvoid, Bool.and_eq_true] at h
    exact (parallel_item i h.1).bind fun _ ↦ parallel_items is h.2

/-- An else branch that avoids what the list bound reads the same behind the list and without it. -/
theorem parallel_otherwise {σ : Origins} : ∀ o : Otherwise, o.avoids σ →
    Parallel σ (o.origins .otherwise σ) (otherwise o)
  | .none, _ => parallel_pure _
  | .nested i, h => parallel_item i h
  | .body b, h => parallel_body b h

end

end AlertAudit.Template.Reading
