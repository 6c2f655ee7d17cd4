import AlertAudit.Proofs.Template.Scoping
import AlertAudit.Template.Reads

/-!
Which variables the list of a block has bound. `origins` follows the scope through the list of a
block and through its else branch and keeps for each variable whether the list declared it or
assigned to it. Behind either branch the variables from in front of it are still there
(`grown_items`). An else branch that avoids what the list bound is also well-scoped without the list
(`spared_otherwise`).
-/

set_option autoImplicit false

namespace AlertAudit.Template

open AlertAudit.Text

/-- Where a variable in scope was last bound, as seen from the else branch of a block. -/
inductive Origin where
  /-- In front of the list of the block, or in the else branch. -/
  | outside
  /-- In the list, which assigns to a variable from in front of it. -/
  | assigned
  /-- In the list, which declares the variable. -/
  | declared
  deriving DecidableEq, Repr

/-- The variables in scope and their origins, the innermost first. -/
abbrev Origins := List (String × Origin)

/-- One of the two branches of a block. -/
inductive Branch where
  | list
  | otherwise

namespace Branch

/-- The origin of a variable that is declared in the branch. -/
def declares : Branch → Origin
  | .list => .declared
  | .otherwise => .outside

/-- The origin of a variable to which the branch assigns. -/
def assigns : Branch → Origin → Origin
  | _, .declared => .declared
  | .list, _ => .assigned
  | .otherwise, _ => .outside

end Branch

/-- Assigns to the innermost variable of a name; `none` if there is no such name. -/
def assign? (b : Branch) (name : String) : Origins → Option Origins
  | [] => none
  | (n, g) :: σ =>
    if n = name then some ((n, b.assigns g) :: σ) else (assign? b name σ).map ((n, g) :: ·)

/-- The origins behind a declaration. -/
def bindOrigins (b : Branch) (decl : Decl) (inRange : Bool) (σ : Origins) : Origins :=
  let declared := (decl.names.map fun v ↦ (v.text, b.declares)).reverse ++ σ
  match inRange, decl.names with
  | false, [name] => if decl.isAssign then (assign? b name.text σ).getD declared else declared
  | _, _ => declared

/-- The variables that are left of some at the end of a block, with those from in front of it. -/
def leaveBlock (outer inner : Origins) : Origins := inner.drop (inner.length - outer.length)

mutual

/-- The origins behind an operand. -/
def Operand.origins (b : Branch) : Operand → Origins → Origins
  | .mk (.paren (some p)) _ _, σ => p.origins b false σ
  | _, σ => σ

def operandsOrigins (b : Branch) : List Operand → Origins → Origins
  | [], σ => σ
  | o :: os, σ => operandsOrigins b os (o.origins b σ)

def commandsOrigins (b : Branch) : List (List Operand) → Origins → Origins
  | [], σ => σ
  | c :: cs, σ => commandsOrigins b cs (operandsOrigins b c σ)

/-- The origins behind a pipeline, which binds its variables at its end. -/
def Pipeline.origins (b : Branch) : Pipeline → Bool → Origins → Origins
  | .mk none cs, _, σ => commandsOrigins b cs σ
  | .mk (some decl) cs, inRange, σ => bindOrigins b decl inRange (commandsOrigins b cs σ)

end

def pipelineOrigins (b : Branch) (p : Option Pipeline) (inRange : Bool) (σ : Origins) : Origins :=
  p.elim σ (·.origins b inRange σ)

mutual

/-- The origins behind an item. -/
def Item.origins (b : Branch) : Item → Origins → Origins
  | .action _ p, σ | .call _ _ p, σ | .block _ _ p _, σ => pipelineOrigins b p false σ
  | .control kind _ p list o, σ =>
    leaveBlock σ (o.origins b (list.origins b (pipelineOrigins b p (kind = .rangeBlock) σ)))
  | .define _ _ _, σ => σ

def Body.origins (b : Branch) : Body → Origins → Origins
  | .missing, σ => σ
  | .items is, σ => itemsOrigins b is σ

def itemsOrigins (b : Branch) : List Item → Origins → Origins
  | [], σ => σ
  | i :: is, σ => itemsOrigins b is (i.origins b σ)

def Otherwise.origins (b : Branch) : Otherwise → Origins → Origins
  | .none, σ => σ
  | .nested i, σ => i.origins b σ
  | .body list, σ => list.origins b σ

end

/-! ### Else branches that avoid what the list bound -/

/-- The innermost variable of the name is not one that the list declared or assigned to. -/
def Origins.allowsRead (σ : Origins) (name : String) : Bool :=
  (σ.lookup name).getD .outside = .outside

/-- The declaration assigns to no variable that the list declared. -/
def Origins.allowsBind (σ : Origins) (decl : Decl) (inRange : Bool) : Bool :=
  match inRange, decl.names with
  | false, [name] => !decl.isAssign || σ.lookup name.text ≠ some .declared
  | _, _ => true

mutual

/-- An operand of an else branch reads no variable that the list declared, and none that was last
bound by an assignment in the list. -/
def Operand.avoids : Operand → Origins → Bool
  | .mk (.variable (some name)) _ _, σ => σ.allowsRead name.text
  | .mk (.paren (some p)) _ _, σ => p.avoids false σ
  | _, _ => true

def operandsAvoid : List Operand → Origins → Bool
  | [], _ => true
  | o :: os, σ => o.avoids σ && operandsAvoid os (o.origins .otherwise σ)

def commandsAvoid : List (List Operand) → Origins → Bool
  | [], _ => true
  | c :: cs, σ => operandsAvoid c σ && commandsAvoid cs (operandsOrigins .otherwise c σ)

/-- The same of a pipeline, which also assigns to no variable that the list declared. -/
def Pipeline.avoids : Pipeline → Bool → Origins → Bool
  | .mk none cs, _, σ => commandsAvoid cs σ
  | .mk (some decl) cs, inRange, σ =>
    commandsAvoid cs σ && (commandsOrigins .otherwise cs σ).allowsBind decl inRange

end

def pipelineAvoids (p : Option Pipeline) (inRange : Bool) (σ : Origins) : Bool :=
  p.elim true (·.avoids inRange σ)

mutual

/-- The same of an item. Bodies that are templates of their own have a scope of their own. -/
def Item.avoids : Item → Origins → Bool
  | .action _ p, σ | .call _ _ p, σ | .block _ _ p _, σ => pipelineAvoids p false σ
  | .control kind _ p list o, σ =>
    let header := pipelineOrigins .otherwise p (kind = .rangeBlock) σ
    pipelineAvoids p (kind = .rangeBlock) σ && list.avoids header &&
      o.avoids (list.origins .otherwise header)
  | .define _ _ _, _ => true

def Body.avoids : Body → Origins → Bool
  | .missing, _ => true
  | .items is, σ => itemsAvoid is σ

def itemsAvoid : List Item → Origins → Bool
  | [], _ => true
  | i :: is, σ => i.avoids σ && itemsAvoid is (i.origins .otherwise σ)

def Otherwise.avoids : Otherwise → Origins → Bool
  | .none, _ => true
  | .nested i, σ => i.avoids σ
  | .body list, σ => list.avoids σ

end

/-! ### Variables from in front of a branch -/

/-- The variables in scope, each with whether the list declared it. No assignment changes this. -/
def marks (σ : Origins) : List (String × Bool) := σ.map fun v ↦ (v.1, v.2 = .declared)

/-- Behind a phrase, what it declares is in scope, and what was in scope in front of it. -/
def Grown (b : Branch) (σ τ : Origins) : Prop :=
  ∃ pushed, marks τ = pushed ++ marks σ ∧ ∀ v ∈ pushed, v.2 = decide (b.declares = .declared)

section Grown

variable {b : Branch} {σ τ ρ : Origins}

theorem map_fst_marks (σ : Origins) : (marks σ).map Prod.fst = σ.map Prod.fst := by
  rw [marks, List.map_map]
  rfl

/-- There are as many marks as variables. -/
theorem length_marks (σ : Origins) : (marks σ).length = σ.length := List.length_map _

/-- To assign to a variable does not declare it. -/
theorem Branch.assigns_eq_declared (b : Branch) (g : Origin) :
    b.assigns g = .declared ↔ g = .declared := by
  cases b <;> cases g <;> decide

/-- Nothing has to be declared in a phrase. -/
theorem grown_refl (σ : Origins) : Grown b σ σ :=
  ⟨[], rfl, fun _ h ↦ absurd h List.not_mem_nil⟩

/-- An assignment declares nothing. -/
theorem grown_of_marks (h : marks τ = marks σ) : Grown b σ τ :=
  ⟨[], h, fun _ h ↦ absurd h List.not_mem_nil⟩

/-- What is declared in one phrase is in scope behind the next one. -/
theorem Grown.trans (h : Grown b σ τ) (h' : Grown b τ ρ) : Grown b σ ρ := by
  obtain ⟨pushed, hτ, hpushed⟩ := h
  obtain ⟨pushed', hρ, hpushed'⟩ := h'
  exact ⟨pushed' ++ pushed, by rw [hρ, hτ, List.append_assoc],
    List.forall_mem_append.mpr ⟨hpushed', hpushed⟩⟩

/-- The variables that have been pushed are as many as there are more. -/
theorem length_sub_of_marks {pushed : List (String × Bool)} (h : marks τ = pushed ++ marks σ) :
    τ.length - σ.length = pushed.length := by
  rw [← length_marks τ, h, List.length_append, length_marks, Nat.add_sub_cancel_right]

/-- At the end of a block the variables from in front of it are left. -/
theorem Grown.marks_leaveBlock (h : Grown b σ τ) : marks (leaveBlock σ τ) = marks σ := by
  obtain ⟨pushed, hτ, -⟩ := h
  rw [leaveBlock, length_sub_of_marks hτ, marks, List.map_drop]
  change (marks τ).drop pushed.length = marks σ
  rw [hτ, List.drop_left]

/-- An assignment changes no marks. -/
theorem marks_assign? {name : String} (h : assign? b name σ = some τ) : marks τ = marks σ := by
  induction σ generalizing τ with
  | nil => exact absurd h nofun
  | cons v σ ih =>
    obtain ⟨n, g⟩ := v
    rw [assign?] at h
    split at h
    · obtain rfl := Option.some.inj h
      simp only [marks, List.map_cons, b.assigns_eq_declared]
    · obtain ⟨ρ, hρ, rfl⟩ := Option.map_eq_some_iff.mp h
      exact congrArg (_ :: ·) (ih hρ)

/-- The variables that a declaration puts into the scope. -/
def declaredOrigins (b : Branch) (names : List Token) : Origins :=
  (names.map fun v ↦ (v.text, b.declares)).reverse

/-- A declaration puts its variables into the scope, or assigns to one that is there. -/
theorem bindOrigins_cases (b : Branch) (decl : Decl) (inRange : Bool) (σ : Origins) :
    bindOrigins b decl inRange σ = declaredOrigins b decl.names ++ σ ∨
      ∃ name, decl.names = [name] ∧
        assign? b name.text σ = some (bindOrigins b decl inRange σ) := by
  obtain ⟨names, isAssign⟩ := decl
  rcases inRange with _ | _
  · rcases names with _ | ⟨name, _ | ⟨second, rest⟩⟩
    · exact .inl rfl
    · cases isAssign with
      | false => exact .inl rfl
      | true =>
        cases hassign : assign? b name.text σ with
        | none =>
          refine .inl ?_
          change (assign? b name.text σ).getD _ = _
          rw [hassign]
          rfl
        | some τ =>
          refine .inr ⟨name, rfl, ?_⟩
          change _ = some ((assign? b name.text σ).getD _)
          rw [hassign, Option.getD_some]
    · exact .inl rfl
  · exact .inl rfl

/-- A declaration puts its variables in front of those in scope. -/
theorem grown_declared (b : Branch) (names : List Token) (σ : Origins) :
    Grown b σ (declaredOrigins b names ++ σ) := by
  refine ⟨marks (declaredOrigins b names), List.map_append, fun v hv ↦ ?_⟩
  obtain ⟨w, hw, rfl⟩ := List.mem_map.mp hv
  obtain ⟨name, -, rfl⟩ := List.mem_map.mp (List.mem_reverse.mp hw)
  rfl

/-- A declaration binds variables that are in scope behind it. -/
theorem grown_bind (decl : Decl) (inRange : Bool) (σ : Origins) :
    Grown b σ (bindOrigins b decl inRange σ) := by
  rcases bindOrigins_cases b decl inRange σ with hbind | ⟨name, -, hassign⟩
  · rw [hbind]
    exact grown_declared b decl.names σ
  · exact grown_of_marks (marks_assign? hassign)

end Grown

mutual

/-- What an operand declares is in scope behind it. -/
theorem grown_operand (b : Branch) (σ : Origins) : ∀ o : Operand, Grown b σ (o.origins b σ)
  | .mk (.paren (some p)) _ _ => by
    rw [Operand.origins]
    exact grown_pipeline b σ p false
  | .mk (.paren none) _ _ | .mk .dot _ _ | .mk .field _ _ | .mk (.variable _) _ _
  | .mk (.function _) _ _ | .mk (.literal _) _ _ => by
    simp only [Operand.origins]
    exact grown_refl σ

theorem grown_operands (b : Branch) (σ : Origins) :
    ∀ os : List Operand, Grown b σ (operandsOrigins b os σ)
  | [] => grown_refl σ
  | o :: os => (grown_operand b σ o).trans (grown_operands b _ os)

theorem grown_commands (b : Branch) (σ : Origins) :
    ∀ cs : List (List Operand), Grown b σ (commandsOrigins b cs σ)
  | [] => grown_refl σ
  | c :: cs => (grown_operands b σ c).trans (grown_commands b _ cs)

/-- So is what a pipeline declares. -/
theorem grown_pipeline (b : Branch) (σ : Origins) :
    ∀ (p : Pipeline) (inRange : Bool), Grown b σ (p.origins b inRange σ)
  | .mk none cs, _ => by
    rw [Pipeline.origins]
    exact grown_commands b σ cs
  | .mk (some decl) cs, inRange => by
    rw [Pipeline.origins]
    exact (grown_commands b σ cs).trans (grown_bind decl inRange _)

end

theorem grown_pipelineOf (b : Branch) (σ : Origins) (p : Option Pipeline) (inRange : Bool) :
    Grown b σ (pipelineOrigins b p inRange σ) := by
  cases p with
  | none => exact grown_refl σ
  | some p => exact grown_pipeline b σ p inRange

mutual

/-- What an item declares is in scope behind it, up to the end of its block. -/
theorem grown_item (b : Branch) (σ : Origins) : ∀ i : Item, Grown b σ (i.origins b σ)
  | .action _ p | .call _ _ p | .block _ _ p _ => grown_pipelineOf b σ p false
  | .control _ _ p list o =>
    have hblock := ((grown_pipelineOf b σ p _).trans (grown_body b _ list)).trans
      (grown_otherwise b _ o)
    grown_of_marks hblock.marks_leaveBlock
  | .define _ _ _ => grown_refl σ

/-- So is what the list of a block declares. -/
theorem grown_body (b : Branch) (σ : Origins) : ∀ list : Body, Grown b σ (list.origins b σ)
  | .missing => grown_refl σ
  | .items is => grown_items b σ is

/-- Items leave what was in scope in front of them. -/
theorem grown_items (b : Branch) (σ : Origins) : ∀ is : List Item, Grown b σ (itemsOrigins b is σ)
  | [] => grown_refl σ
  | i :: is => (grown_item b σ i).trans (grown_items b _ is)

/-- So is what an else branch declares. -/
theorem grown_otherwise (b : Branch) (σ : Origins) : ∀ o : Otherwise, Grown b σ (o.origins b σ)
  | .none => grown_refl σ
  | .nested i => grown_item b σ i
  | .body list => grown_body b σ list

end

/-- Behind a block the same variables are in scope as in front of it. -/
theorem marks_control (b : Branch) (σ : Origins) (kind : Control) (span : Span)
    (p : Option Pipeline) (list : Body) (o : Otherwise) :
    marks ((Item.control kind span p list o).origins b σ) = marks σ :=
  (((grown_pipelineOf b σ p _).trans (grown_body b _ list)).trans
    (grown_otherwise b _ o)).marks_leaveBlock

/-! ### Without the list -/

section Names

variable {b : Branch} {σ τ : Origins}

/-- The names of a declaration are in scope, the last one innermost. -/
theorem map_fst_declaredOrigins (b : Branch) (names : List Token) :
    (declaredOrigins b names).map Prod.fst = (names.map (·.text)).reverse := by
  rw [declaredOrigins, List.map_reverse, List.map_map]
  rfl

/-- Variables with the same marks have the same names. -/
theorem map_fst_of_marks (h : marks τ = marks σ) : τ.map Prod.fst = σ.map Prod.fst := by
  rw [← map_fst_marks, h, map_fst_marks]

/-- Only a variable in scope is assigned to. -/
theorem mem_map_fst_of_assign? {name : String} (h : assign? b name σ = some τ) :
    name ∈ σ.map Prod.fst := by
  induction σ generalizing τ with
  | nil => exact absurd h nofun
  | cons v σ ih =>
    obtain ⟨n, g⟩ := v
    rw [assign?] at h
    split at h
    next heq => exact heq ▸ List.mem_cons_self
    next =>
      obtain ⟨ρ, hρ, rfl⟩ := Option.map_eq_some_iff.mp h
      exact List.mem_cons_of_mem n (ih hρ)

/-- A declaration adds its names to those in scope. -/
theorem mem_map_fst_bindOrigins (decl : Decl) (inRange : Bool) (σ : Origins) (n : String) :
    n ∈ (bindOrigins b decl inRange σ).map Prod.fst ↔
      n ∈ decl.names.map (·.text) ∨ n ∈ σ.map Prod.fst := by
  rcases bindOrigins_cases b decl inRange σ with hbind | ⟨name, hname, hassign⟩
  · rw [hbind, List.map_append, List.mem_append, map_fst_declaredOrigins, List.mem_reverse]
  · rw [map_fst_of_marks (marks_assign? hassign), hname, List.map_singleton, List.mem_singleton,
      or_iff_right_of_imp]
    rintro rfl
    exact mem_map_fst_of_assign? hassign

/-- Behind a declaration its own names are in scope, and those from in front of it. -/
theorem mem_enter (decl : Decl) (vars : List String) (n : String) :
    n ∈ Decl.enter (some decl) vars ↔ n ∈ decl.names.map (·.text) ∨ n ∈ vars := by
  rw [Decl.enter, List.mem_append, List.mem_reverse]
  rfl

/-- A variable that may be read was bound outside of the list. -/
theorem eq_outside_of_allowsRead {name : String} {g : Origin}
    (h : Origins.allowsRead ((name, g) :: σ) name) : g = .outside := by
  rw [Origins.allowsRead, List.lookup_cons, beq_self_eq_true] at h
  exact of_decide_eq_true h

/-- Another variable in front does not matter. -/
theorem allowsRead_cons_of_ne {name n : String} (hn : name ≠ n) (g : Origin) :
    Origins.allowsRead ((n, g) :: σ) name = σ.allowsRead name := by
  rw [Origins.allowsRead, List.lookup_cons, beq_eq_false_iff_ne.mpr hn, Origins.allowsRead]

/-- A variable that may be read is there without the list. -/
theorem mem_marks_of_allowsRead {name : String} (hread : σ.allowsRead name)
    (hmem : name ∈ σ.map Prod.fst) : (name, false) ∈ marks σ := by
  induction σ with
  | nil => exact absurd hmem List.not_mem_nil
  | cons v σ ih =>
    obtain ⟨n, g⟩ := v
    by_cases hn : name = n
    · subst hn
      obtain rfl := eq_outside_of_allowsRead hread
      exact List.mem_cons_self
    · rw [allowsRead_cons_of_ne hn] at hread
      exact List.mem_cons_of_mem _ (ih hread ((List.mem_cons.mp hmem).resolve_left hn))

end Names

/-- The names in scope for the parser with the list and without it, where it declares in front of a
pipeline and the pending names belong to the pipelines around. What the list did not declare is in
scope without it. -/
structure Spared (pending vars : List String) (σ : Origins) (vars' : List String) : Prop where
  known : ∀ n ∈ vars, n ∈ pending ∨ n ∈ σ.map Prod.fst
  pending : ∀ n ∈ pending, n ∈ vars'
  outer : ∀ n, (n, false) ∈ marks σ → n ∈ vars'

section Spared

variable {pending vars vars' : List String} {σ τ : Origins}

/-- It only matters which variables the list declared. -/
theorem Spared.of_marks (h : Spared pending vars σ vars') (hmarks : marks τ = marks σ) :
    Spared pending vars τ vars' where
  known n hn := by
    rw [map_fst_of_marks hmarks]
    exact h.known n hn
  pending := h.pending
  outer n hn := h.outer n (hmarks ▸ hn)

/-- Names that are declared are in scope with the list and without it. -/
theorem Spared.enter (h : Spared pending vars σ vars') (decl : Decl) :
    Spared (decl.names.map (·.text) ++ pending) (Decl.enter (some decl) vars) σ
      (Decl.enter (some decl) vars') where
  known n hn := by
    rw [List.mem_append, or_assoc]
    exact ((mem_enter decl vars n).mp hn).imp_right (h.known n)
  pending n hn := (mem_enter decl vars' n).mpr ((List.mem_append.mp hn).imp_right (h.pending n))
  outer n hn := (mem_enter decl vars' n).mpr (.inr (h.outer n hn))

/-- At the end of a pipeline its own variables come into scope. -/
theorem Spared.bind {decl : Decl} (h : Spared (decl.names.map (·.text) ++ pending) vars σ vars')
    (inRange : Bool) : Spared pending vars (bindOrigins .otherwise decl inRange σ) vars' where
  known n hn := by
    have hknown := h.known n hn
    rw [List.mem_append, or_assoc, or_left_comm] at hknown
    rwa [mem_map_fst_bindOrigins]
  pending n hn := h.pending n (List.mem_append_right _ hn)
  outer n hn := by
    rcases bindOrigins_cases .otherwise decl inRange σ with hbind | ⟨name, hname, hassign⟩
    · rw [hbind, marks, List.map_append, List.mem_append] at hn
      rcases hn with hn | hn
      · have hname : n ∈ (marks (declaredOrigins .otherwise decl.names)).map Prod.fst :=
          List.mem_map_of_mem hn
        rw [map_fst_marks, map_fst_declaredOrigins, List.mem_reverse] at hname
        exact h.pending n (List.mem_append_left _ hname)
      · exact h.outer n hn
    · exact h.outer n (marks_assign? hassign ▸ hn)

/-- A variable that may be read is in scope without the list. -/
theorem Spared.mem_of_allowsRead (h : Spared pending vars σ vars') {name : String}
    (hread : σ.allowsRead name) (hmem : name ∈ vars) : name ∈ vars' := by
  rcases h.known name hmem with hpending | hname
  · exact h.pending name hpending
  · exact h.outer name (mem_marks_of_allowsRead hread hname)

end Spared

mutual

/-- An operand that avoids what the list bound is well-scoped without the list. -/
theorem spared_operand {pending vars vars' : List String} {σ : Origins} : ∀ o : Operand,
    Spared pending vars σ vars' → o.avoids σ → WellScoped (o.visits vars) →
      WellScoped (o.visits vars') ∧
        Spared pending (o.varsAfter vars) (o.origins .otherwise σ) (o.varsAfter vars')
  | .mk (.variable (some name)) _ _, h, havoids, hscoped => by
    rw [Operand.avoids] at havoids
    rw [Operand.visits, wellScoped_singleton] at hscoped ⊢
    simp only [Operand.varsAfter, Operand.origins]
    exact ⟨h.mem_of_allowsRead havoids hscoped, h⟩
  | .mk (.paren (some p)) _ _, h, havoids, hscoped => by
    rw [Operand.avoids] at havoids
    rw [Operand.visits] at hscoped ⊢
    rw [Operand.varsAfter, Operand.origins, Operand.varsAfter]
    exact spared_pipeline p false h havoids hscoped
  | .mk (.paren none) _ _, h, _, _ | .mk .dot _ _, h, _, _ | .mk .field _ _, h, _, _
  | .mk (.variable none) _ _, h, _, _ | .mk (.function _) _ _, h, _, _
  | .mk (.literal _) _ _, h, _, _ => by
    simp only [Operand.varsAfter, Operand.origins, Operand.visits]
    exact ⟨wellScoped_nil, h⟩

/-- So are several operands. -/
theorem spared_operands {pending vars vars' : List String} {σ : Origins} : ∀ os : List Operand,
    Spared pending vars σ vars' → operandsAvoid os σ → WellScoped (operandsVisits os vars) →
      WellScoped (operandsVisits os vars') ∧ Spared pending (operandsVarsAfter os vars)
        (operandsOrigins .otherwise os σ) (operandsVarsAfter os vars')
  | [], h, _, hscoped => ⟨hscoped, h⟩
  | o :: os, h, havoids, hscoped => by
    rw [operandsAvoid, Bool.and_eq_true] at havoids
    rw [operandsVisits, wellScoped_append] at hscoped ⊢
    obtain ⟨hfirst, h⟩ := spared_operand o h havoids.1 hscoped.1
    obtain ⟨hrest, h⟩ := spared_operands os h havoids.2 hscoped.2
    exact ⟨⟨hfirst, hrest⟩, h⟩

/-- So are commands. -/
theorem spared_commands {pending vars vars' : List String} {σ : Origins} :
    ∀ cs : List (List Operand), Spared pending vars σ vars' → commandsAvoid cs σ →
      WellScoped (commandsVisits cs vars) → WellScoped (commandsVisits cs vars') ∧
        Spared pending (commandsVarsAfter cs vars) (commandsOrigins .otherwise cs σ)
          (commandsVarsAfter cs vars')
  | [], h, _, hscoped => ⟨hscoped, h⟩
  | c :: cs, h, havoids, hscoped => by
    rw [commandsAvoid, Bool.and_eq_true] at havoids
    rw [commandsVisits, wellScoped_append] at hscoped ⊢
    obtain ⟨hfirst, h⟩ := spared_operands c h havoids.1 hscoped.1
    obtain ⟨hrest, h⟩ := spared_commands cs h havoids.2 hscoped.2
    exact ⟨⟨hfirst, hrest⟩, h⟩

/-- So is a pipeline. -/
theorem spared_pipeline {pending vars vars' : List String} {σ : Origins} :
    ∀ (p : Pipeline) (inRange : Bool), Spared pending vars σ vars' → p.avoids inRange σ →
      WellScoped (p.visits vars) → WellScoped (p.visits vars') ∧
        Spared pending (p.varsAfter vars) (p.origins .otherwise inRange σ) (p.varsAfter vars')
  | .mk none cs, _, h, havoids, hscoped => by
    rw [Pipeline.avoids] at havoids
    rw [Pipeline.visits] at hscoped ⊢
    rw [Pipeline.varsAfter, Pipeline.origins, Pipeline.varsAfter]
    exact spared_commands cs h havoids hscoped
  | .mk (some decl) cs, inRange, h, havoids, hscoped => by
    rw [Pipeline.avoids, Bool.and_eq_true] at havoids
    rw [Pipeline.visits] at hscoped ⊢
    rw [Pipeline.varsAfter, Pipeline.origins, Pipeline.varsAfter]
    obtain ⟨hcommands, h⟩ := spared_commands cs (h.enter decl) havoids.1 hscoped
    exact ⟨hcommands, h.bind inRange⟩

end

/-- So is the pipeline of an action, if it has one. -/
theorem spared_pipelineOf {pending vars vars' : List String} {σ : Origins} (p : Option Pipeline)
    (inRange : Bool) (h : Spared pending vars σ vars') (havoids : pipelineAvoids p inRange σ)
    (hscoped : WellScoped (pipelineVisits p vars)) : WellScoped (pipelineVisits p vars') ∧
      Spared pending (pipelineVarsAfter p vars) (pipelineOrigins .otherwise p inRange σ)
        (pipelineVarsAfter p vars') := by
  cases p with
  | none => exact ⟨hscoped, h⟩
  | some p => exact spared_pipeline p inRange h havoids hscoped

mutual

/-- So is an item. -/
theorem spared_item {pending vars vars' : List String} {σ : Origins} : ∀ i : Item,
    Spared pending vars σ vars' → i.avoids σ → WellScoped (i.visits vars) →
      WellScoped (i.visits vars') ∧
        Spared pending (i.varsAfter vars) (i.origins .otherwise σ) (i.varsAfter vars')
  | .action _ p, h, havoids, hscoped | .call _ _ p, h, havoids, hscoped =>
    spared_pipelineOf p false h havoids hscoped
  | .control kind span p list o, h, havoids, hscoped => by
    rw [Item.avoids, Bool.and_eq_true, Bool.and_eq_true] at havoids
    rw [Item.visits, wellScoped_append, wellScoped_append] at hscoped ⊢
    obtain ⟨hheader, hinside⟩ := spared_pipelineOf p _ h havoids.1.1 hscoped.1.1
    obtain ⟨hlist, hbehind⟩ := spared_body list hinside havoids.1.2 hscoped.1.2
    exact ⟨⟨⟨hheader, hlist⟩, spared_otherwise o hbehind havoids.2 hscoped.2⟩,
      h.of_marks (marks_control .otherwise σ kind span p list o)⟩
  | .define _ _ list, h, _, hscoped => ⟨hscoped, h⟩
  | .block _ _ p list, h, havoids, hscoped => by
    rw [Item.visits, wellScoped_append] at hscoped ⊢
    obtain ⟨hheader, h⟩ := spared_pipelineOf p false h havoids hscoped.1
    exact ⟨⟨hheader, hscoped.2⟩, h⟩

/-- So is the list of a block. -/
theorem spared_body {pending vars vars' : List String} {σ : Origins} : ∀ list : Body,
    Spared pending vars σ vars' → list.avoids σ → WellScoped (list.visits vars) →
      WellScoped (list.visits vars') ∧
        Spared pending (list.varsAfter vars) (list.origins .otherwise σ) (list.varsAfter vars')
  | .missing, h, _, hscoped => ⟨hscoped, h⟩
  | .items is, h, havoids, hscoped => spared_items is h havoids hscoped

/-- So are several items. -/
theorem spared_items {pending vars vars' : List String} {σ : Origins} : ∀ is : List Item,
    Spared pending vars σ vars' → itemsAvoid is σ → WellScoped (itemsVisits is vars) →
      WellScoped (itemsVisits is vars') ∧
        Spared pending (itemsVarsAfter is vars) (itemsOrigins .otherwise is σ)
          (itemsVarsAfter is vars')
  | [], h, _, hscoped => ⟨hscoped, h⟩
  | i :: is, h, havoids, hscoped => by
    rw [itemsAvoid, Bool.and_eq_true] at havoids
    rw [itemsVisits, wellScoped_append] at hscoped ⊢
    obtain ⟨hfirst, h⟩ := spared_item i h havoids.1 hscoped.1
    obtain ⟨hrest, h⟩ := spared_items is h havoids.2 hscoped.2
    exact ⟨⟨hfirst, hrest⟩, h⟩

/-- An else branch that avoids what the list bound is well-scoped without the list. -/
theorem spared_otherwise {pending vars vars' : List String} {σ : Origins} : ∀ o : Otherwise,
    Spared pending vars σ vars' → o.avoids σ → WellScoped (o.visits vars) →
      WellScoped (o.visits vars')
  | .none, _, _, hscoped => hscoped
  | .nested i, h, havoids, hscoped => (spared_item i h havoids hscoped).1
  | .body list, h, havoids, hscoped => (spared_body list h havoids hscoped).1

end

end AlertAudit.Template
