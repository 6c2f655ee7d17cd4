import AlertAudit.Proofs.Template.Branches
import AlertAudit.Proofs.Template.Lookups
import AlertAudit.Proofs.Template.MovedBack
import AlertAudit.Proofs.Template.Positions

/-!
What a template does around one of its blocks. Of the list and the else branch, only whether they
are well-scoped matters to the scopes of the whole (`ListContext.exists_wellScoped_fill`). A reading
comes to the block in a state that depends on what is in front of the block alone
(`ListContext.reach`), and what it records behind the block comes from there
(`Reading.later_listFill`).
-/

set_option autoImplicit false

namespace AlertAudit.Template

open AlertAudit.Text

/-! ### Scopes -/

mutual

/-- The names in scope where the list of the block starts. -/
def ItemContext.varsAt : ItemContext → List String → List String
  | .here _ p, vars => pipelineVarsAfter p vars
  | .list _ p inner _, vars => inner.varsAt (pipelineVarsAfter p vars)
  | .nested _ p b inner, vars => inner.varsAt (b.varsAfter (pipelineVarsAfter p vars))
  | .otherwise _ p b inner, vars => inner.varsAt (b.varsAfter (pipelineVarsAfter p vars))
  | .define _ inner, _ | .block _ _ inner, _ => inner.varsAt ["$"]

def ListContext.varsAt : ListContext → List String → List String
  | .mk before inner _, vars => inner.varsAt (itemsVarsAfter before vars)

end

/-- Behind the item the scope is the same whatever the block holds and wherever it stands. -/
theorem ItemContext.varsAfter_fill (c : ItemContext) (n : Nat) (b : Body) (o : Otherwise)
    (vars : List String) :
    ((c.moved n).fill b o).varsAfter vars = (c.fill .missing .none).varsAfter vars := by
  cases c <;> simp only [ItemContext.moved, ItemContext.fill, Item.varsAfter]

/-- Behind the items around a block the scope is the same whatever the block holds. -/
theorem ListContext.varsAfter_fill (c : ListContext) (n : Nat) (b : Body) (o : Otherwise)
    (vars : List String) : itemsVarsAfter ((c.moved n).fill b o) vars =
      itemsVarsAfter (c.fill .missing .none) vars := by
  obtain ⟨before, inner, after⟩ := c
  rw [ListContext.moved, ListContext.fill, ListContext.fill, itemsVarsAfter_append,
    itemsVarsAfter_append, itemsVarsAfter, itemsVarsAfter, itemsVarsAfter_moved,
    inner.varsAfter_fill]

mutual

/-- Whether a filled context is well scoped depends on the list and its end alone. -/
theorem ItemContext.exists_wellScoped_fill : ∀ (c : ItemContext) (vars : List String),
    ∃ R : Prop, ∀ (n : Nat) (b : Body) (o : Otherwise),
      WellScoped (((c.moved n).fill b o).visits vars) ↔
        R ∧ WellScoped (b.visits (c.varsAt vars)) ∧
          WellScoped (o.visits (b.varsAfter (c.varsAt vars)))
  | .here _ p, vars => by
    refine ⟨WellScoped (pipelineVisits p vars), fun n b o ↦ ?_⟩
    rw [ItemContext.moved, ItemContext.fill, Item.visits, wellScoped_append, wellScoped_append,
      ItemContext.varsAt, and_assoc]
  | .list _ p inner o', vars => by
    obtain ⟨R, hR⟩ := inner.exists_wellScoped_fill (pipelineVarsAfter p vars)
    refine ⟨(WellScoped (pipelineVisits p vars) ∧ R) ∧ WellScoped (o'.visits
      (itemsVarsAfter (inner.fill .missing .none) (pipelineVarsAfter p vars))), fun n b o ↦ ?_⟩
    rw [ItemContext.moved, ItemContext.fill, Item.visits, wellScoped_append, wellScoped_append,
      Body.visits, hR n b o, Body.varsAfter, inner.varsAfter_fill, Otherwise.visits_moved,
      wellScoped_map_moved, ItemContext.varsAt]
    tauto
  | .nested _ p b' inner, vars => by
    obtain ⟨R, hR⟩ := inner.exists_wellScoped_fill (b'.varsAfter (pipelineVarsAfter p vars))
    refine ⟨(WellScoped (pipelineVisits p vars) ∧
      WellScoped (b'.visits (pipelineVarsAfter p vars))) ∧ R, fun n b o ↦ ?_⟩
    rw [ItemContext.moved, ItemContext.fill, Item.visits, wellScoped_append, wellScoped_append,
      Otherwise.visits, hR n b o, ItemContext.varsAt]
    tauto
  | .otherwise _ p b' inner, vars => by
    obtain ⟨R, hR⟩ := inner.exists_wellScoped_fill (b'.varsAfter (pipelineVarsAfter p vars))
    refine ⟨(WellScoped (pipelineVisits p vars) ∧
      WellScoped (b'.visits (pipelineVarsAfter p vars))) ∧ R, fun n b o ↦ ?_⟩
    rw [ItemContext.moved, ItemContext.fill, Item.visits, wellScoped_append, wellScoped_append,
      Otherwise.visits, Body.visits, hR n b o, ItemContext.varsAt]
    tauto
  | .define _ inner, vars => by
    obtain ⟨R, hR⟩ := inner.exists_wellScoped_fill ["$"]
    refine ⟨R, fun n b o ↦ ?_⟩
    rw [ItemContext.moved, ItemContext.fill, Item.visits, Body.visits, hR n b o,
      ItemContext.varsAt]
  | .block _ p inner, vars => by
    obtain ⟨R, hR⟩ := inner.exists_wellScoped_fill ["$"]
    refine ⟨WellScoped (pipelineVisits p vars) ∧ R, fun n b o ↦ ?_⟩
    rw [ItemContext.moved, ItemContext.fill, Item.visits, wellScoped_append, Body.visits, hR n b o,
      ItemContext.varsAt, and_assoc]

/-- The filled context is well-scoped if the context is and what fills it is. -/
theorem ListContext.exists_wellScoped_fill : ∀ (c : ListContext) (vars : List String),
    ∃ R : Prop, ∀ (n : Nat) (b : Body) (o : Otherwise),
      WellScoped (itemsVisits ((c.moved n).fill b o) vars) ↔
        R ∧ WellScoped (b.visits (c.varsAt vars)) ∧
          WellScoped (o.visits (b.varsAfter (c.varsAt vars)))
  | .mk before inner after, vars => by
    obtain ⟨R, hR⟩ := inner.exists_wellScoped_fill (itemsVarsAfter before vars)
    refine ⟨(WellScoped (itemsVisits before vars) ∧ R) ∧ WellScoped (itemsVisits after
      ((inner.fill .missing .none).varsAfter (itemsVarsAfter before vars))), fun n b o ↦ ?_⟩
    rw [ListContext.moved, ListContext.fill, itemsVisits_append, wellScoped_append, itemsVisits,
      wellScoped_append, hR n b o, inner.varsAfter_fill, itemsVisits_moved, wellScoped_map_moved,
      ListContext.varsAt]
    tauto

end

/-! ### Readings -/

mutual

/-- Reads what is in front of the list of the block. The result is what its header stands for. -/
def ItemContext.reach : ItemContext → Reading Denotation
  | .here kind p => Reading.pipelineOf p (kind = .rangeBlock)
  | .list kind p inner _ => do
    let d ← Reading.pipelineOf p (kind = .rangeBlock)
    modify (Reading.State.inside kind d)
    inner.reach
  | .nested kind p b inner => do
    Reading.header kind p b
    inner.reach
  | .otherwise kind p b inner => do
    Reading.header kind p b
    inner.reach
  | .define _ inner => do
    modify Reading.State.fresh
    inner.reach
  | .block _ p inner => do
    let _ ← Reading.pipelineOf p false
    modify Reading.State.fresh
    inner.reach

def ListContext.reach : ListContext → Reading Denotation
  | .mk before inner _ => do
    Reading.items before
    inner.reach

end

mutual

/-- The operands in front of the list of the block. -/
def ItemContext.operandsBefore : ItemContext → List Operand
  | .here _ p => pipelineOperands p
  | .list _ p inner _ => pipelineOperands p ++ inner.operandsBefore
  | .nested _ p b inner => pipelineOperands p ++ b.operands ++ inner.operandsBefore
  | .otherwise _ p b inner => pipelineOperands p ++ b.operands ++ inner.operandsBefore
  | .define _ inner => inner.operandsBefore
  | .block _ p inner => pipelineOperands p ++ inner.operandsBefore

def ListContext.operandsBefore : ListContext → List Operand
  | .mk before inner _ => itemsOperands before ++ inner.operandsBefore

end

mutual

/-- The operands behind the block. -/
def ItemContext.operandsAfter : ItemContext → List Operand
  | .here _ _ => []
  | .list _ _ inner o => inner.operandsAfter ++ o.operands
  | .nested _ _ _ inner => inner.operandsAfter
  | .otherwise _ _ _ inner | .define _ inner | .block _ _ inner => inner.operandsAfter

def ListContext.operandsAfter : ListContext → List Operand
  | .mk _ inner after => inner.operandsAfter ++ itemsOperands after

end

mutual

/-- The way to a block does not depend on where the block stands. -/
theorem ItemContext.reach_moved (n : Nat) : ∀ c : ItemContext, (c.moved n).reach = c.reach
  | .here _ _ => by rw [ItemContext.moved]
  | .list _ _ inner _ | .otherwise _ _ _ inner | .define _ inner | .block _ _ inner => by
    rw [ItemContext.moved, ItemContext.reach, ItemContext.reach, inner.reach_moved]
  | .nested _ _ _ inner => by
    rw [ItemContext.moved, ItemContext.reach, ItemContext.reach, inner.reach_moved]

/-- What is in front of a block does not depend on where the text behind it stands. -/
theorem ListContext.reach_moved (n : Nat) : ∀ c : ListContext, (c.moved n).reach = c.reach
  | .mk _ inner _ => by
    rw [ListContext.moved, ListContext.reach, ListContext.reach, inner.reach_moved]

end

namespace Reading

/-- The list and the else branch of a block whose header stands for `d`. -/
def branches (kind : Control) (d : Denotation) (b : Body) (o : Otherwise) : Reading Unit := do
  listOf kind d b
  otherwise o

section Gathers

variable {os : List Operand}

theorem Gathers.listOf {b : Body} (h : Gathers os (body b)) (kind : Control) (d : Denotation) :
    Gathers os (listOf kind d b) := by
  cases kind with
  | ifBlock => exact h
  | withBlock => exact h.withDot d
  | rangeBlock => exact h.withDot .unknown

/-- A header gathers from its pipeline and its body. -/
theorem gathers_header (kind : Control) (p : Option Pipeline) (b : Body) :
    Gathers (pipelineOperands p ++ b.operands) (header kind p b) :=
  ((gathers_pipelineOf p (kind = .rangeBlock)).mono (List.subset_append_left _ _)).bind fun d ↦
    ((gathers_body b).mono (List.subset_append_right _ _)).listOf kind d

theorem gathers_inside (kind : Control) (d : Denotation) :
    Gathers os (modify (State.inside kind d) : Reading PUnit) := by
  cases kind <;> exact gathers_of_same (fun _ ↦ rfl) fun _ ↦ rfl

theorem gathers_fresh : Gathers os (modify State.fresh : Reading PUnit) :=
  gathers_of_same (fun _ ↦ rfl) fun _ ↦ rfl

mutual

/-- The way to a block gathers from the operands in front of it. -/
theorem gathers_itemReach : ∀ c : ItemContext, Gathers c.operandsBefore c.reach
  | .here kind p => gathers_pipelineOf p _
  | .list kind p inner _ => by
    rw [ItemContext.reach, ItemContext.operandsBefore]
    exact ((gathers_pipelineOf p _).mono (List.subset_append_left _ _)).bind fun d ↦
      (gathers_inside kind d).bind fun _ ↦
        (gathers_listReach inner).mono (List.subset_append_right _ _)
  | .nested kind p b inner => by
    rw [ItemContext.reach, ItemContext.operandsBefore]
    exact ((gathers_header kind p b).mono (List.subset_append_left _ _)).bind fun _ ↦
      (gathers_itemReach inner).mono (List.subset_append_right _ _)
  | .otherwise kind p b inner => by
    rw [ItemContext.reach, ItemContext.operandsBefore]
    exact ((gathers_header kind p b).mono (List.subset_append_left _ _)).bind fun _ ↦
      (gathers_listReach inner).mono (List.subset_append_right _ _)
  | .define _ inner => by
    rw [ItemContext.reach, ItemContext.operandsBefore]
    exact gathers_fresh.bind fun _ ↦ gathers_listReach inner
  | .block _ p inner => by
    rw [ItemContext.reach, ItemContext.operandsBefore]
    exact ((gathers_pipelineOf p false).mono (List.subset_append_left _ _)).bind fun _ ↦
      gathers_fresh.bind fun _ ↦ (gathers_listReach inner).mono (List.subset_append_right _ _)

/-- What is recorded in front of the list of a block comes from there. -/
theorem gathers_listReach : ∀ c : ListContext, Gathers c.operandsBefore c.reach
  | .mk before inner _ => by
    rw [ListContext.reach, ListContext.operandsBefore]
    exact ((gathers_items before).mono (List.subset_append_left _ _)).bind fun _ ↦
      (gathers_itemReach inner).mono (List.subset_append_right _ _)

end

/-- From a state to a later one, what is recorded comes from some operands. -/
def Later (os : List Operand) (t u : State) : Prop :=
  u.text = t.text ∧ ∃ r : Reads, u.reads = t.reads ++ r ∧ r.From t.text os

theorem later_refl (t : State) : Later os t t := ⟨rfl, {}, t.reads.append_nil.symm, .empty⟩

theorem Later.mono {os' : List Operand} {t u : State} (h : Later os t u) (hsub : os ⊆ os') :
    Later os' t u := by
  obtain ⟨htext, r, hreads, hr⟩ := h
  exact ⟨htext, r, hreads, hr.mono hsub⟩

/-- A step goes on from a later state. -/
theorem Later.step {t u : State} (h : Later os t u) {α : Type} {step : Reading α}
    (hstep : Gathers os step) : Later os t (step u).2 := by
  obtain ⟨htext, r, hreads, hr⟩ := h
  obtain ⟨htext', r', hreads', hr'⟩ := hstep u
  refine ⟨htext'.trans htext, r ++ r', ?_, hr.append (htext ▸ hr')⟩
  rw [hreads', hreads, Reads.append_assoc]

/-- Two states with one text and the same records are as late. -/
theorem Later.congr {t u u' : State} (h : Later os t u) (htext : u'.text = u.text)
    (hreads : u'.reads = u.reads) : Later os t u' := by
  obtain ⟨hu, r, hr, hfrom⟩ := h
  exact ⟨htext.trans hu, r, hreads.trans hr, hfrom⟩

theorem Later.listOf {t s : State} {kind : Control} {d : Denotation} {is : List Item}
    (h : Later os t (items is (s.inside kind d)).2) :
    Later os t (Reading.listOf kind d (.items is) s).2 := by
  cases kind <;> exact h.congr rfl rfl

mutual

/-- Behind the branches of a block come the operands behind it. -/
theorem later_itemFill (b : Body) (o : Otherwise) : ∀ (c : ItemContext) (s : State),
    Later c.operandsAfter (branches c.kind (c.reach s).1 b o (c.reach s).2).2
      (item (c.fill b o) s).2
  | .here kind p, s => by
    rw [ItemContext.fill, item_control]
    exact later_refl _
  | .list kind p inner o', s => by
    have hinner := later_listFill b o inner
      ((pipelineOf p (kind = .rangeBlock) s).2.inside kind (pipelineOf p (kind = .rangeBlock) s).1)
    rw [ItemContext.fill, item_control, ItemContext.operandsAfter]
    have hlist := (hinner.mono (List.subset_append_left _ o'.operands)).listOf
    exact (hlist.step ((gathers_otherwise o').mono (List.subset_append_right _ _))).congr rfl rfl
  | .nested kind p b' inner, s => by
    have hinner := later_itemFill b o inner (header kind p b' s).2
    rw [ItemContext.fill, item_control]
    exact hinner.congr rfl rfl
  | .otherwise kind p b' inner, s => by
    have hinner := later_listFill b o inner (header kind p b' s).2
    rw [ItemContext.fill, item_control]
    exact hinner.congr rfl rfl
  | .define _ inner, s => by
    have hinner := later_listFill b o inner s.fresh
    rw [ItemContext.fill, item]
    exact hinner.congr rfl rfl
  | .block _ p inner, s => by
    have hinner := later_listFill b o inner (pipelineOf p false s).2.fresh
    rw [ItemContext.fill, item]
    exact hinner.congr rfl rfl

/-- Behind the two branches of the block, what is recorded comes from what follows the block. -/
theorem later_listFill (b : Body) (o : Otherwise) : ∀ (c : ListContext) (s : State),
    Later c.operandsAfter (branches c.kind (c.reach s).1 b o (c.reach s).2).2
      (items (c.fill b o) s).2
  | .mk before inner after, s => by
    have hinner := later_itemFill b o inner (items before s).2
    rw [ListContext.fill, items_append, items, bind_apply, ListContext.operandsAfter]
    exact (hinner.mono (List.subset_append_left _ _)).step
      ((gathers_items after).mono (List.subset_append_right _ _))

end

end Gathers

/-! ### The state in front of a block -/

theorem scope_inside (kind : Control) (d : Denotation) (s : State) :
    (s.inside kind d).scope = s.scope := by cases kind <;> rfl

theorem scope_listOf (kind : Control) (d : Denotation) (b : Body) (s : State) :
    (listOf kind d b s).2.scope = (body b (s.inside kind d)).2.scope := by cases kind <;> rfl

theorem covers_header {vars : List String} {s : State} (h : Covers vars [] s.scope)
    (kind : Control) (p : Option Pipeline) (b : Body) :
    Covers (b.varsAfter (pipelineVarsAfter p vars)) [] (header kind p b s).2.scope := by
  have hheader := (follows_pipelineOf p (kind = .rangeBlock) h).covers
  rw [header_eq, bind_apply, scope_listOf]
  exact (follows_body b ((scope_inside _ _ _).symm ▸ hheader)).covers

mutual

/-- The scope at a block has the names that the outline has there. -/
theorem covers_itemReach {vars : List String} : ∀ (c : ItemContext) {s : State},
    Covers vars [] s.scope → Covers (c.varsAt vars) [] (c.reach s).2.scope
  | .here kind p, s, h => by
    rw [ItemContext.varsAt, ItemContext.reach]
    exact (follows_pipelineOf p _ h).covers
  | .list kind p inner _, s, h => by
    rw [ItemContext.varsAt, ItemContext.reach]
    have hheader := (follows_pipelineOf p (kind = .rangeBlock) h).covers
    exact covers_listReach inner ((scope_inside _ _ _).symm ▸ hheader)
  | .nested kind p b inner, s, h => by
    rw [ItemContext.varsAt, ItemContext.reach]
    exact covers_itemReach inner (covers_header h kind p b)
  | .otherwise kind p b inner, s, h => by
    rw [ItemContext.varsAt, ItemContext.reach]
    exact covers_listReach inner (covers_header h kind p b)
  | .define _ inner, s, _ => by
    rw [ItemContext.varsAt, ItemContext.reach]
    exact covers_listReach inner (covers_fresh s)
  | .block _ p inner, s, _ => by
    rw [ItemContext.varsAt, ItemContext.reach]
    exact covers_listReach inner (covers_fresh (pipelineOf p false s).2)

/-- A reading comes to the list of a block with the variables that are in scope there. -/
theorem covers_listReach {vars : List String} : ∀ (c : ListContext) {s : State},
    Covers vars [] s.scope → Covers (c.varsAt vars) [] (c.reach s).2.scope
  | .mk before inner _, s, h => by
    rw [ListContext.varsAt, ListContext.reach]
    exact covers_itemReach inner (follows_items before h).covers

end

section Carries

variable {f : Frame}

theorem Carries.listOf {b b' : Body} (h : Carries f (body b) (body b')) (kind : Control)
    (d : Denotation) : Carries f (listOf kind d b) (listOf kind d b') := by
  cases kind with
  | ifBlock => exact h
  | withBlock => exact h.withDot d
  | rangeBlock => exact h.withDot .unknown

theorem carries_inside (kind : Control) (d : Denotation) :
    Carries f (modify (State.inside kind d) : Reading PUnit) (modify (State.inside kind d)) := by
  intro s t h
  cases kind with
  | ifBlock => exact ⟨rfl, h⟩
  | withBlock | rangeBlock => exact ⟨rfl, h.source, h.target, h.scope, rfl, h.reads⟩

theorem carries_fresh :
    Carries f (modify State.fresh : Reading PUnit) (modify State.fresh) :=
  fun _ _ h ↦ ⟨rfl, h.source, h.target, rfl, rfl, h.reads⟩

/-- With nothing in front of the text, nothing is moved. -/
theorem carries_pipelineOf_self (hfront : f.front = []) {p : Option Pipeline} (inRange : Bool)
    (hfits : ∀ s ∈ pipelineStretches p, s.Fits f.text) :
    Carries f (pipelineOf p inRange) (pipelineOf p inRange) := by
  have h := carries_pipelineOf p inRange hfits
  rwa [Frame.bytes, hfront, utf8Length_nil, map_moved_zero] at h

/-- Items in front of the place are carried to themselves. -/
theorem carries_items_self (hfront : f.front = []) {is : List Item}
    (hfits : ∀ s ∈ itemsStretches is, s.Fits f.text) : Carries f (items is) (items is) := by
  have h := carries_items is hfits
  rwa [Frame.bytes, hfront, utf8Length_nil, itemsMoved_zero] at h

end Carries

end Reading

namespace Spelling

open AlertAudit.Template.Reading
open Grammar (Opens Marks)

section Carries

variable {f : Frame} (hfront : f.front = [])

include hfront

theorem carries_header_self {kind : Control} {ps qs : List Piece} {pl : Template.Pipeline}
    {is : List Template.Item} {inLoop : Bool} (hheader : Header (kind = .rangeBlock) ps pl)
    (hitems : Items inLoop qs is) (hps : Between (Span.Fits f.text) ps)
    (hqs : Between (Span.Fits f.text) qs) : Carries f (header kind (some pl) (.items is))
      (header kind (some pl) (.items is)) := by
  have hpipeline := carries_pipelineOf_self hfront (p := some pl) (kind = .rangeBlock)
    (stretches_pipeline hheader hps)
  have hlist : Carries f (body (.items is)) (body (.items is)) :=
    carries_items_self hfront (stretches_items hitems hqs)
  exact hpipeline.bind fun d ↦ hlist.listOf kind d

mutual

theorem carries_reach_guarded {l inLoop : Bool} {k kind : Control} {front back : List Piece}
    {c : ItemContext} : InGuarded l k inLoop kind front back c →
      Between (Span.Fits f.text) front → Carries f c.reach c.reach
  | .here hheader _, h => by
    rw [ItemContext.reach]
    exact carries_pipelineOf_self hfront _ (stretches_pipeline hheader h.left)
  | .list hheader _ hinner _, h => by
    rw [ItemContext.reach]
    have hpipeline := carries_pipelineOf_self hfront (p := some _) (kind = .rangeBlock)
      (stretches_pipeline hheader h.left)
    exact hpipeline.bind fun d ↦ (carries_inside _ d).bind fun _ ↦
      carries_reach_items hinner h.right.tail
  | .nested hheader _ hfirst _ _ _ hinner, h => by
    rw [ItemContext.reach]
    exact (carries_header_self hfront hheader hfirst h.left.left h.left.right.tail).bind fun _ ↦
      carries_reach_guarded hinner h.right.right.tail
  | .otherwise hheader _ hfirst _ hinner _, h => by
    rw [ItemContext.reach]
    exact (carries_header_self hfront hheader hfirst h.left.left h.left.right.tail).bind fun _ ↦
      carries_reach_items hinner h.right.right

/-- The way to a block is carried to itself. -/
theorem carries_reach_item {l inLoop : Bool} {k : Control} {front back : List Piece}
    {c : ItemContext} : InItem l k inLoop front back c →
      Between (Span.Fits f.text) front → Carries f c.reach c.reach
  | .guarded _ hinner, h => carries_reach_guarded hinner h.right
  | .block _ _ hheader _ hinner _, h => by
    rw [ItemContext.reach]
    have hpipeline := carries_pipelineOf_self hfront (p := some _) false
      (stretches_pipeline hheader h.left.right.tail)
    exact hpipeline.bind fun _ ↦ carries_fresh.bind fun _ ↦
      carries_reach_items hinner h.right.tail

theorem carries_reach_items {l inLoop : Bool} {k : Control} {front back : List Piece}
    {c : ListContext} : InItems l k inLoop front back c →
      Between (Span.Fits f.text) front → Carries f c.reach c.reach
  | .mk hbefore hinner _, h => by
    rw [ListContext.reach]
    exact (carries_items_self hfront (stretches_items hbefore h.left)).bind fun _ ↦
      carries_reach_item hinner h.right

end

/-- What is in front of a block is read the same whatever follows it. -/
theorem carries_reach {l : Bool} {k : Control} {front back : List Piece} {c : ListContext}
    (hcontext : InTemplate l k front back c) (h : Between (Span.Fits f.text) front) :
    Carries f c.reach c.reach := by
  cases hcontext with
  | item hbefore hinner _ =>
    rw [ListContext.reach]
    exact (carries_items_self hfront (stretches_template hbefore h.left)).bind fun _ ↦
      carries_reach_item hfront hinner h.right
  | define hbefore _ _ _ hinner _ _ =>
    rw [ListContext.reach, ItemContext.reach]
    exact (carries_items_self hfront (stretches_template hbefore h.left)).bind fun _ ↦
      carries_fresh.bind fun _ ↦ carries_reach_items hfront hinner h.right.right.tail.tail

end Carries

/-! ### Places -/

mutual

theorem within_inGuarded {l inLoop : Bool} {k kind : Control} {front back : List Piece}
    {c : ItemContext} : InGuarded l k inLoop kind front back c →
      AllWithin front c.operandsBefore ∧ AllWithin back c.operandsAfter
  | .here hheader _ => by
    rw [ItemContext.operandsBefore, ItemContext.operandsAfter]
    exact ⟨(within_pipeline hheader).before _, allWithin_nil⟩
  | @InGuarded.list _ _ _ _ right _ _ _ _ _ _ _ hheader _ hinner hrest => by
    obtain ⟨hfront, hback⟩ := within_inItems hinner
    rw [ItemContext.operandsBefore, ItemContext.operandsAfter]
    exact ⟨(within_pipeline hheader).append (hfront.behind [right]),
      hback.append (within_tail hrest)⟩
  | @InGuarded.nested _ _ _ _ right w _ _ start _ _ _ _ _ hheader _ hfirst _ _ _ hinner => by
    obtain ⟨hfront, hback⟩ := within_inGuarded hinner
    rw [ItemContext.operandsBefore, ItemContext.operandsAfter]
    have hlist := (within_pipeline hheader).append ((within_items hfirst).behind [right])
    exact ⟨hlist.append ((hfront.behind [w]).behind start), hback⟩
  | @InGuarded.otherwise _ _ _ _ right _ _ start _ _ _ _ _ _ hheader _ hfirst _ hinner _ => by
    obtain ⟨hfront, hback⟩ := within_inItems hinner
    rw [ItemContext.operandsBefore, ItemContext.operandsAfter]
    have hlist := (within_pipeline hheader).append ((within_items hfirst).behind [right])
    exact ⟨hlist.append (hfront.behind start), hback.before _⟩

/-- The pieces around a block spell the operands in front of it and behind it. -/
theorem within_inItem {l inLoop : Bool} {k : Control} {front back : List Piece}
    {c : ItemContext} : InItem l k inLoop front back c →
      AllWithin front c.operandsBefore ∧ AllWithin back c.operandsAfter
  | .guarded _ hinner =>
    ⟨(within_inGuarded hinner).1.behind _, (within_inGuarded hinner).2⟩
  | @InItem.block _ _ _ start _ _ _ _ name right _ _ _ _ hheader _ hinner _ => by
    obtain ⟨hfront, hback⟩ := within_inItems hinner
    rw [ItemContext.operandsBefore, ItemContext.operandsAfter]
    have hnamed := ((within_pipeline hheader).behind [name]).behind start
    exact ⟨hnamed.append (hfront.behind [right]), hback.before _⟩

theorem within_inItems {l inLoop : Bool} {k : Control} {front back : List Piece}
    {c : ListContext} : InItems l k inLoop front back c →
      AllWithin front c.operandsBefore ∧ AllWithin back c.operandsAfter
  | .mk hbefore hinner hafter => by
    obtain ⟨hfront, hback⟩ := within_inItem hinner
    rw [ListContext.operandsBefore, ListContext.operandsAfter]
    exact ⟨(within_items hbefore).append hfront, hback.append (within_items hafter)⟩

end

/-- Each operand around a block is spelled by some of the pieces around it. -/
theorem within_inTemplate {l : Bool} {k : Control} {front back : List Piece} {c : ListContext}
    (h : InTemplate l k front back c) :
    AllWithin front c.operandsBefore ∧ AllWithin back c.operandsAfter := by
  cases h with
  | item hbefore hinner hafter =>
    obtain ⟨hfront, hback⟩ := within_inItem hinner
    rw [ListContext.operandsBefore, ListContext.operandsAfter]
    exact ⟨(within_template hbefore).append hfront, hback.append (within_template hafter)⟩
  | @define _ start _ _ _ _ name right _ _ _ hbefore _ _ _ hinner _ hafter =>
    obtain ⟨hfront, hback⟩ := within_inItems hinner
    rw [ListContext.operandsBefore, ListContext.operandsAfter, ItemContext.operandsBefore,
      ItemContext.operandsAfter]
    exact ⟨(within_template hbefore).append ((hfront.behind [name, right]).behind start),
      (hback.before _).append (within_template hafter)⟩

end Spelling

end AlertAudit.Template
