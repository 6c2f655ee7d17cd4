import AlertAudit.Proofs.Template.Gains
import AlertAudit.Proofs.Template.Regions
import AlertAudit.Proofs.Template.Surroundings

/-!
Readings of a template with one more command. The two outlines have the same variables in scope
(`ItemsGain.wellScoped`). In front of the action with the command the two readings are in the same
state; behind it one of them has recorded one more call, and all that it records further on is moved
by the characters of the command (`crosses_items`).
-/

set_option autoImplicit false

namespace AlertAudit.Template

open AlertAudit.Text

/-! ### Scopes -/

section Scopes

variable {P Q : Span → Prop} {m n : Nat} {name : Token}

/-- A call without arguments leaves the scope alone. -/
theorem commandsVarsAfter_callOf (name : Token) (cs : List (List Operand)) (vars : List String) :
    commandsVarsAfter (cs ++ [callOf name]) vars = commandsVarsAfter cs vars := by
  induction cs generalizing vars with
  | nil => rfl
  | cons c cs ih => rw [List.cons_append, commandsVarsAfter, commandsVarsAfter, ih]

/-- A call behind the commands of a pipeline visits no variable. -/
theorem commandsVisits_callOf (name : Token) (cs : List (List Operand)) (vars : List String) :
    commandsVisits (cs ++ [callOf name]) vars = commandsVisits cs vars := by
  induction cs generalizing vars with
  | nil => rfl
  | cons c cs ih => rw [List.cons_append, commandsVisits, commandsVisits, ih]

/-- Behind the item the scope is the same. -/
theorem ItemGains.varsAfter {i j : Item} (h : ItemGains P Q m n name i j) (vars : List String) :
    j.varsAfter vars = i.varsAfter vars := by
  cases h with
  | action _ => exact commandsVarsAfter_callOf name _ _
  | list _ _ _ | nested _ _ _ | otherwise _ _ _ | define _ | block _ _ =>
    rw [Item.varsAfter, Item.varsAfter]

/-- One more command binds no name. -/
theorem ItemsGain.varsAfter {is js : List Item} : ItemsGain P Q m n name is js →
    ∀ vars : List String, itemsVarsAfter js vars = itemsVarsAfter is vars
  | .here h _, vars => by
    rw [itemsVarsAfter, itemsVarsAfter, h.varsAfter, itemsVarsAfter_moved, itemsVarsAfter_moved]
  | .there _ h, vars => by rw [itemsVarsAfter, itemsVarsAfter, h.varsAfter]

mutual

/-- One more command leaves an item well scoped. -/
theorem ItemGains.wellScoped {P Q : Span → Prop} {m n : Nat} {name : Token} {i j : Item} :
    ItemGains P Q m n name i j → ∀ vars : List String,
      WellScoped (i.visits vars) → WellScoped (j.visits vars)
  | .action _, vars, hi => by
    rw [Item.visits, pipelineVisits, Option.elim_some, Pipeline.visits] at hi ⊢
    rwa [commandsVisits_callOf]
  | .list _ h _, vars, hi => by
    rw [Item.visits, wellScoped_append, wellScoped_append, Body.visits, Body.varsAfter,
      Otherwise.visits_moved, wellScoped_map_moved] at hi ⊢
    rw [h.varsAfter]
    exact ⟨⟨hi.1.1, h.wellScoped _ hi.1.2⟩, hi.2⟩
  | .nested _ _ h, vars, hi => by
    rw [Item.visits, wellScoped_append, Otherwise.visits] at hi ⊢
    exact ⟨hi.1, h.wellScoped _ hi.2⟩
  | .otherwise _ _ h, vars, hi => by
    rw [Item.visits, wellScoped_append, Otherwise.visits, Body.visits] at hi ⊢
    exact ⟨hi.1, h.wellScoped _ hi.2⟩
  | .define h, vars, hi => by
    rw [Item.visits, Body.visits] at hi ⊢
    exact h.wellScoped _ hi
  | .block _ h, vars, hi => by
    rw [Item.visits, wellScoped_append, Body.visits] at hi ⊢
    exact ⟨hi.1, h.wellScoped _ hi.2⟩

/-- With one more command that calls a function without arguments, an outline is as well-scoped. -/
theorem ItemsGain.wellScoped {P Q : Span → Prop} {m n : Nat} {name : Token} {is js : List Item} :
    ItemsGain P Q m n name is js → ∀ vars : List String,
      WellScoped (itemsVisits is vars) → WellScoped (itemsVisits js vars)
  | .here h _, vars, his => by
    rw [itemsVisits, wellScoped_append, itemsVisits_moved, wellScoped_map_moved] at his ⊢
    rw [h.varsAfter]
    exact ⟨h.wellScoped vars his.1, his.2⟩
  | .there _ h, vars, his => by
    rw [itemsVisits, wellScoped_append] at his ⊢
    exact ⟨his.1, h.wellScoped _ his.2⟩

end

end Scopes

/-! ### Operands and stretches -/

section Stretches

variable {P : Span → Prop}

mutual

/-- What holds of all stretches of an operand holds of those of the operands in it. -/
theorem Operand.forall_operands {P : Span → Prop} : ∀ o : Operand, (∀ s ∈ o.stretches, P s) →
    ∀ o' ∈ o.operands, ∀ s ∈ o'.stretches, P s
  | .mk (.paren (some p)) span fields, h => by
    rw [Operand.operands, List.forall_mem_cons]
    refine ⟨h, p.forall_operands ?_⟩
    rw [Operand.stretches, List.forall_mem_append, List.forall_mem_cons] at h
    exact h.1.2
  | .mk (.paren none) span fields, h | .mk .dot span fields, h | .mk .field span fields, h
  | .mk (.variable _) span fields, h | .mk (.function _) span fields, h
  | .mk (.literal _) span fields, h => by
    rw [Operand.operands]
    · exact List.forall_mem_singleton.mpr h
    · exact nofun

theorem forall_operandsOperands {P : Span → Prop} : ∀ os : List Operand,
    (∀ s ∈ operandsStretches os, P s) → ∀ o ∈ operandsOperands os, ∀ s ∈ o.stretches, P s
  | [], _ => List.forall_mem_nil _
  | o :: os, h => by
    rw [operandsStretches, List.forall_mem_append] at h
    rw [operandsOperands, List.forall_mem_append]
    exact ⟨o.forall_operands h.1, forall_operandsOperands os h.2⟩

theorem forall_commandsOperands {P : Span → Prop} : ∀ cs : List (List Operand),
    (∀ s ∈ commandsStretches cs, P s) → ∀ o ∈ commandsOperands cs, ∀ s ∈ o.stretches, P s
  | [], _ => List.forall_mem_nil _
  | c :: cs, h => by
    rw [commandsStretches, List.forall_mem_append] at h
    rw [commandsOperands, List.forall_mem_append]
    exact ⟨forall_operandsOperands c h.1, forall_commandsOperands cs h.2⟩

/-- What holds of all stretches of a pipeline holds of those of its operands. -/
theorem Pipeline.forall_operands {P : Span → Prop} : ∀ p : Pipeline, (∀ s ∈ p.stretches, P s) →
    ∀ o ∈ p.operands, ∀ s ∈ o.stretches, P s
  | .mk _ cs, h => by
    rw [Pipeline.stretches] at h
    rw [Pipeline.operands]
    exact forall_commandsOperands cs h

end

theorem forall_pipelineOperands : ∀ p : Option Pipeline, (∀ s ∈ pipelineStretches p, P s) →
    ∀ o ∈ pipelineOperands p, ∀ s ∈ o.stretches, P s
  | none, _ => List.forall_mem_nil _
  | some p, h => p.forall_operands h

mutual

/-- What holds of all stretches of an item holds of those of its operands. -/
theorem Item.forall_operands {P : Span → Prop} : ∀ i : Item, (∀ s ∈ i.stretches, P s) →
    ∀ o ∈ i.operands, ∀ s ∈ o.stretches, P s
  | .action _ p, h | .call _ _ p, h => by
    rw [Item.stretches] at h
    rw [Item.operands]
    exact forall_pipelineOperands p h
  | .control _ _ p b o, h => by
    rw [Item.stretches, List.forall_mem_append, List.forall_mem_append] at h
    rw [Item.operands, List.forall_mem_append, List.forall_mem_append]
    exact ⟨⟨forall_pipelineOperands p h.1.1, b.forall_operands h.1.2⟩, o.forall_operands h.2⟩
  | .define _ _ b, h => by
    rw [Item.stretches] at h
    rw [Item.operands]
    exact b.forall_operands h
  | .block _ _ p b, h => by
    rw [Item.stretches, List.forall_mem_append] at h
    rw [Item.operands, List.forall_mem_append]
    exact ⟨forall_pipelineOperands p h.1, b.forall_operands h.2⟩

theorem Body.forall_operands {P : Span → Prop} : ∀ b : Body, (∀ s ∈ b.stretches, P s) →
    ∀ o ∈ b.operands, ∀ s ∈ o.stretches, P s
  | .missing, _ => List.forall_mem_nil _
  | .items is, h => forall_itemsOperands is h

/-- The stretches of the operands in an outline are stretches of the outline. -/
theorem forall_itemsOperands {P : Span → Prop} : ∀ is : List Item,
    (∀ s ∈ itemsStretches is, P s) → ∀ o ∈ itemsOperands is, ∀ s ∈ o.stretches, P s
  | [], _ => List.forall_mem_nil _
  | i :: is, h => by
    rw [itemsStretches, List.forall_mem_append] at h
    rw [itemsOperands, List.forall_mem_append]
    exact ⟨i.forall_operands h.1, forall_itemsOperands is h.2⟩

theorem Otherwise.forall_operands {P : Span → Prop} : ∀ o : Otherwise, (∀ s ∈ o.stretches, P s) →
    ∀ o' ∈ o.operands, ∀ s ∈ o'.stretches, P s
  | .none, _ => List.forall_mem_nil _
  | .nested i, h => i.forall_operands h
  | .body b, h => b.forall_operands h

end

/-- What is recorded for operands starts where some of their stretches do. -/
theorem Reads.From.allStart_of_stretches {text : List Char} {os : List Operand} {r : Reads}
    {S : Nat → Prop} (h : r.From text os) (hos : ∀ o ∈ os, ∀ s ∈ o.stretches, S s.start) :
    r.AllStart S where
  labels m hm := by
    obtain ⟨-, ⟨term, span, fields, hmem, f, hf, -, hspan⟩ | ⟨key, fields, hmem, -⟩⟩ :=
      h.labels m hm
    · rw [hspan]
      refine hos _ hmem _ (subset_stretches term span fields ?_)
      exact List.mem_cons_of_mem _ (List.mem_map_of_mem hf)
    · exact hos _ hmem _ (subset_stretches _ _ fields List.mem_cons_self)
  values v hv := by
    obtain ⟨-, term, fields, -, hmem⟩ := h.values v hv
    exact hos _ hmem _ (subset_stretches _ _ fields List.mem_cons_self)
  calls m hm := by
    obtain ⟨name, span, fields, hmem, rfl⟩ := h.calls m hm
    exact hos _ hmem name.span (by simp [Operand.stretches])

end Stretches

namespace Reading

/-! ### Two texts -/

/-- A place in a text at which more characters can stand. -/
structure Gap where
  front : List Char
  /-- The delimiter right behind the place. -/
  close : List Char
  back : List Char

namespace Gap

variable (g : Gap)

/-- The text with some characters at the place. -/
def text (added : List Char) : List Char := g.front ++ added ++ g.close ++ g.back

/-- Where what is behind the delimiter starts. -/
def bytes (added : List Char) : Nat := utf8Length (g.front ++ added ++ g.close)

/-- What is in front of the place. -/
def ahead (added : List Char) : Frame := ⟨[], g.front, added ++ g.close ++ g.back, {}⟩

/-- What is behind the delimiter, where something has been read in front of it. -/
def behind (added : List Char) (before : Reads) : Frame :=
  ⟨g.front ++ added ++ g.close, g.back, [], before⟩

def InFront (s : Span) : Prop := s.Fits g.front ∧ s.start < utf8Length g.front

/-- The stretch is one of what is behind the delimiter. -/
def InBack (s : Span) : Prop := s.Fits g.back

end Gap

variable {g : Gap} {added : List Char} {call : Mention} {α β : Type}

/-- The readings of the text and of the one with more characters are in front of the place. -/
def Before (g : Gap) (added : List Char) (s t : State) : Prop :=
  ∃ s₀, Carried (g.ahead []) s₀ s ∧ Carried (g.ahead added) s₀ t ∧
    s₀.reads.AllStart (· < utf8Length g.front)

/-- Behind the place, the second reading has recorded one more call. -/
def After (g : Gap) (added : List Char) (call : Mention) (s t : State) : Prop :=
  ∃ s₀ before, Carried (g.behind [] before) s₀ s ∧
    Carried (g.behind added (before ++ { calls := [call] })) s₀ t ∧
      before.AllStart (· < utf8Length g.front)

section States

variable {s t : State} {scope scope' : List (String × Denotation)} {dot dot' : Denotation}

/-- The scope and the dot of a carried state can be changed. -/
theorem Carried.scoped {f : Frame} (h : Carried f s t) (scope : List (String × Denotation))
    (dot : Denotation) : Carried f { s with scope, dot } { t with scope, dot } :=
  ⟨h.source, h.target, rfl, rfl, h.reads⟩

/-- The two readings stay alike if both enter the same scope. -/
theorem Before.scoped (h : Before g added s t) (hscope : scope' = scope) (hdot : dot' = dot) :
    Before g added { s with scope, dot } { t with scope := scope', dot := dot' } := by
  obtain ⟨s₀, hs, ht, hstart⟩ := h
  subst hscope hdot
  exact ⟨_, hs.scoped _ _, ht.scoped _ _, hstart⟩

theorem Before.scope_eq (h : Before g added s t) : t.scope = s.scope := by
  obtain ⟨s₀, hs, ht, -⟩ := h
  rw [ht.scope, hs.scope]

theorem Before.dot_eq (h : Before g added s t) : t.dot = s.dot := by
  obtain ⟨s₀, hs, ht, -⟩ := h
  rw [ht.dot, hs.dot]

/-- The two readings stay alike behind the place too if both enter the same scope. -/
theorem After.scoped (h : After g added call s t) (hscope : scope' = scope) (hdot : dot' = dot) :
    After g added call { s with scope, dot } { t with scope := scope', dot := dot' } := by
  obtain ⟨s₀, before, hs, ht, hstart⟩ := h
  subst hscope hdot
  exact ⟨_, before, hs.scoped _ _, ht.scoped _ _, hstart⟩

theorem After.scope_eq (h : After g added call s t) : t.scope = s.scope := by
  obtain ⟨s₀, before, hs, ht, -⟩ := h
  rw [ht.scope, hs.scope]

theorem After.dot_eq (h : After g added call s t) : t.dot = s.dot := by
  obtain ⟨s₀, before, hs, ht, -⟩ := h
  rw [ht.dot, hs.dot]

/-- What is behind the place is read the same from both states. -/
theorem After.step {step step₁ step₂ : Reading α} (h : After g added call s t)
    (hfirst : ∀ before, Carries (g.behind [] before) step step₁)
    (hsecond : ∀ before, Carries (g.behind added before) step step₂) :
    After g added call (step₁ s).2 (step₂ t).2 := by
  obtain ⟨s₀, before, hs, ht, hstart⟩ := h
  exact ⟨(step s₀).2, before, (hfirst _ hs).2, (hsecond _ ht).2, hstart⟩

end States

/-! ### Steps in front of the place -/

/-- The step leads from the front of the place to the front of the place. -/
def Stalls (g : Gap) (added : List Char) (step : Reading α) : Prop := ∀ ⦃s t⦄,
  Before g added s t → (step t).1 = (step s).1 ∧ Before g added (step s).2 (step t).2

/-- The steps lead from the front of the place to what is behind it. -/
def Crosses (g : Gap) (added : List Char) (call : Mention) (step step' : Reading Unit) : Prop :=
  ∀ ⦃s t⦄, Before g added s t → After g added call (step s).2 (step' t).2

/-- A step that is carried, and that reads in front of the place only, keeps the readings alike. -/
theorem stalls_of_carries {step : Reading α} {os : List Operand}
    (hcarries : ∀ back, Carries ⟨[], g.front, back, {}⟩ step step) (hgathers : Gathers os step)
    (hos : ∀ o ∈ os, ∀ s ∈ o.stretches, g.InFront s) : Stalls g added step := by
  rintro s t ⟨s₀, hs, ht, hstart⟩
  obtain ⟨hvalue, hs⟩ := hcarries _ hs
  obtain ⟨hvalue', ht⟩ := hcarries _ ht
  refine ⟨hvalue'.trans hvalue.symm, _, hs, ht, ?_⟩
  obtain ⟨-, r, hreads, hfrom⟩ := hgathers s₀
  rw [hreads]
  exact hstart.append (hfrom.allStart_of_stretches fun o ho s hs ↦ (hos o ho s hs).2)

/-- A step in front of the place does not keep what follows it from crossing the place. -/
theorem Stalls.crosses {step : Reading α} {f f' : α → Reading Unit} (h : Stalls g added step)
    (hf : ∀ a, Crosses g added call (f a) (f' a)) :
    Crosses g added call (step >>= f) (step >>= f') := by
  intro s t hbefore
  obtain ⟨hvalue, hbehind⟩ := h hbefore
  rw [bind_apply, bind_apply, hvalue]
  exact hf _ hbehind

/-- A pipeline in front of the place keeps the readings alike. -/
theorem stalls_pipelineOf {p : Option Pipeline} (inRange : Bool)
    (h : ∀ s ∈ pipelineStretches p, g.InFront s) : Stalls g added (pipelineOf p inRange) :=
  stalls_of_carries (fun _ ↦ carries_pipelineOf_self rfl inRange fun s hs ↦ (h s hs).1)
    (gathers_pipelineOf p inRange) (forall_pipelineOperands p h)

/-- A body in front of the place is carried to itself. -/
theorem carries_body_self {f : Frame} (hfront : f.front = []) {b : Body}
    (h : ∀ s ∈ b.stretches, s.Fits f.text) : Carries f (body b) (body b) := by
  cases b with
  | missing => exact carries_pure _
  | items _ => exact carries_items_self hfront h

/-- An item in front of the place keeps the readings alike. -/
theorem stalls_item {i : Item} (h : ∀ s ∈ i.stretches, g.InFront s) :
    Stalls g added (item i) := by
  refine stalls_of_carries (fun back ↦ ?_) (gathers_item i) (i.forall_operands h)
  have hitem := carries_item (f := ⟨[], g.front, back, {}⟩) i fun s hs ↦ (h s hs).1
  rwa [Frame.bytes, utf8Length_nil, i.moved_zero] at hitem

/-- A header in front of the place keeps the readings alike. -/
theorem stalls_header {p : Option Pipeline} {b : Body} (kind : Control)
    (hp : ∀ s ∈ pipelineStretches p, g.InFront s) (hb : ∀ s ∈ b.stretches, g.InFront s) :
    Stalls g added (header kind p b) := by
  refine stalls_of_carries (fun back ↦ ?_) (gathers_header kind p b)
    (List.forall_mem_append.mpr ⟨forall_pipelineOperands p hp, b.forall_operands hb⟩)
  have hbody : Carries ⟨[], g.front, back, {}⟩ (body b) (body b) :=
    carries_body_self rfl fun s hs ↦ (hb s hs).1
  exact (carries_pipelineOf_self rfl _ fun s hs ↦ (hp s hs).1).bind fun d ↦ hbody.listOf kind d

/-! ### Steps across the place -/

section Crosses

variable {step step' : Reading Unit}

/-- What follows the place is carried in both texts. -/
theorem Crosses.bind {rest rest' next : Reading Unit} (h : Crosses g added call step step')
    (hfirst : ∀ before, Carries (g.behind [] before) next rest)
    (hsecond : ∀ before, Carries (g.behind added before) next rest') :
    Crosses g added call (step >>= fun _ ↦ rest) (step' >>= fun _ ↦ rest') :=
  fun _ _ hbefore ↦ (h hbefore).step hfirst hsecond

/-- A crossing may be in a scope of its own. -/
theorem Crosses.keepingScope (h : Crosses g added call step step') :
    Crosses g added call (keepingScope step) (keepingScope step') := by
  intro s t hbefore
  have hafter := h hbefore
  refine hafter.scoped ?_ hafter.dot_eq
  rw [hafter.scope_eq, hbefore.scope_eq]

theorem Crosses.withDot (h : Crosses g added call step step') (dot : Denotation) :
    Crosses g added call (withDot dot step) (withDot dot step') := by
  intro s t hbefore
  have hafter := h (hbefore.scoped hbefore.scope_eq (rfl : dot = dot))
  exact hafter.scoped hafter.scope_eq hbefore.dot_eq

theorem Crosses.isolated (h : Crosses g added call step step') :
    Crosses g added call (isolated step) (isolated step') := by
  intro s t hbefore
  have hfresh : Before g added s.fresh t.fresh := hbefore.scoped rfl rfl
  have hafter := h hfresh
  exact hafter.scoped hbefore.scope_eq hbefore.dot_eq

/-- A crossing may be in the list of a block. -/
theorem Crosses.listOf {is js : List Item} (h : Crosses g added call (items is) (items js))
    (kind : Control) (d : Denotation) :
    Crosses g added call (listOf kind d (.items is)) (listOf kind d (.items js)) := by
  cases kind with
  | ifBlock => exact h
  | withBlock => exact h.withDot d
  | rangeBlock => exact h.withDot .unknown

end Crosses

/-! ### The action with one more command -/

/-- Commands one after the other are read one after the other. -/
theorem commands_append (cs ds : List (List Operand)) (s : State) :
    (commands (cs ++ ds) s).2 = (commands ds (commands cs s).2).2 := by
  induction cs generalizing s with
  | nil => rfl
  | cons c cs ih => exact ih _

/-- A call without arguments is recorded, and nothing else is read. -/
theorem commands_callOf (name : Token) (s : State) : (commands [callOf name] s).2 =
    { s with reads := s.reads ++ { calls := [name.mentionIn s.text] } } := by
  rw [Reads.append_eq, List.append_nil, List.append_nil]
  rfl

/-- A call in the second text leads behind the place. -/
theorem Before.called {s t : State} (h : Before g added s t) (name : Token) :
    After g added (name.mentionIn (g.text added)) s
      { t with reads := t.reads ++ { calls := [name.mentionIn t.text] } } := by
  obtain ⟨s₀, hs, ht, hstart⟩ := h
  have htext (added : List Char) {u : State} (hu : Carried (g.ahead added) s₀ u) :
      u.text = g.text added := by
    rw [hu.target, Gap.ahead, Gap.text, List.nil_append]
    simp only [List.append_assoc]
  have hreads (added : List Char) {u : State} (hu : Carried (g.ahead added) s₀ u) :
      u.reads = s₀.reads := hu.reads.trans s₀.reads.moved_zero
  have hbehind (added : List Char) {u : State} (hu : u.text = g.text added)
      (hscope : u.scope = s₀.scope) (hdot : u.dot = s₀.dot) :
      Carried (g.behind added u.reads) { text := g.back, scope := s₀.scope, dot := s₀.dot } u := by
    refine ⟨rfl, ?_, hscope, hdot, (Reads.append_nil _).symm⟩
    rw [hu, Gap.behind, Gap.text, List.append_nil]
  refine ⟨_, s₀.reads, hreads [] hs ▸ hbehind [] (htext [] hs) hs.scope hs.dot, ?_, hstart⟩
  have htarget := htext added ht
  rw [← htarget, ← hreads added ht]
  let called : State := { t with reads := t.reads ++ { calls := [name.mentionIn t.text] } }
  have hcalled : called.text = g.text added := htarget
  exact hbehind added hcalled ht.scope ht.dot

/-- The action with one more command crosses the place, and its call is the new one. -/
theorem crosses_action {name : Token} {cs : List (List Operand)} (span : Span)
    (h : ∀ s ∈ commandsStretches cs, g.InFront s) :
    Crosses g added (name.mentionIn (g.text added)) (item (.action span (some (.mk none cs))))
      (item (.action span (some (.mk none (cs ++ [callOf name]))))) := by
  intro s t hbefore
  have hstalls : Stalls g added (pipelineOf (some (.mk none cs)) false) :=
    stalls_pipelineOf false h
  have hstate (ds : List (List Operand)) (u : State) :
      (item (.action span (some (.mk none ds))) u).2 = (commands ds u).2 := rfl
  rw [hstate, hstate, commands_append, commands_callOf]
  exact Before.called (hstalls hbefore).2 name

mutual

/-- An item crosses the place if an action at any depth of it gets one more command. -/
theorem crosses_item {g : Gap} {added : List Char} {name : Token} {i j : Item} :
    ItemGains g.InFront g.InBack (g.bytes []) (g.bytes added) name i j →
      Crosses g added (name.mentionIn (g.text added)) (item i) (item j)
  | .action h => crosses_action _ h
  | @ItemGains.list _ _ _ _ _ kind _ p is js o hp h ho => by
    have hheader : Crosses g added _ (header kind p (.items is)) (header kind p (.items js)) :=
      (stalls_pipelineOf _ hp).crosses fun d ↦ (crosses_items h).listOf kind d
    rw [item_control, item_control]
    exact (hheader.bind (fun before ↦ carries_otherwise (f := g.behind [] before) o ho)
      fun before ↦ carries_otherwise (f := g.behind added before) o ho).keepingScope
  | .nested hp hb h => by
    rw [item_control, item_control]
    exact ((stalls_header _ hp hb).crosses fun _ ↦ crosses_item h).keepingScope
  | .otherwise hp hb h => by
    rw [item_control, item_control]
    exact ((stalls_header _ hp hb).crosses fun _ ↦ crosses_items h).keepingScope
  | .define h => by
    rw [item, item]
    exact (crosses_items h).isolated
  | .block hp h => by
    rw [item, item]
    exact (stalls_pipelineOf false hp).crosses fun _ ↦ (crosses_items h).isolated

/-- An outline with one more command is read as before up to the command, and behind it with one
more call. -/
theorem crosses_items {g : Gap} {added : List Char} {name : Token} {is js : List Item} :
    ItemsGain g.InFront g.InBack (g.bytes []) (g.bytes added) name is js →
      Crosses g added (name.mentionIn (g.text added)) (items is) (items js)
  | .here h hafter =>
    (crosses_item h).bind (fun before ↦ carries_items (f := g.behind [] before) _ hafter)
      fun before ↦ carries_items (f := g.behind added before) _ hafter
  | .there hi h => (stalls_item hi).crosses fun _ ↦ crosses_items h

end

end Reading

end AlertAudit.Template
