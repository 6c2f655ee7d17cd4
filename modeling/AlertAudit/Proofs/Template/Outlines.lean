import AlertAudit.Proofs.Template.Acceptance
import AlertAudit.Proofs.Template.Runs.Items

/-!
The outline of a template that is accepted. The parser runs through a template along what spells
it, so the tree shows the outline that is spelled (`bareItems_of_spells`): a template has no other
one.
-/

set_option autoImplicit false

namespace AlertAudit.Template

namespace Parser

open Grammar Outline

section Rounds

variable {bodies : Bodies} {v w : Place} {parts : List Part}

/-- A round at the top that takes an item. -/
theorem passes_rootStep_item (hitem : ItemMeaning v w) (h : Passes (item bodies) v () parts w) :
    Passes (rootStep bodies) v (true, ()) parts w := by
  have hv : v.ahead ≠ [] := List.ne_nil_of_length_pos (Nat.zero_lt_of_lt hitem.length_lt)
  obtain ⟨hend, helse, hdefine⟩ := hitem.word?_ne
  have hround : rootItem bodies v.word? = (do item bodies; return (true, ())) := by
    unfold rootItem
    split
    next hword => exact absurd hword hdefine
    next hword => exact absurd hword hend
    next hword => exact absurd hword helse
    next => rfl
  refine .unless_stopped hv ((passes_actionWord v).before ?_)
  rw [hround]
  have hruns := h.bind (f := fun _ ↦ pure (true, ())) (passes_pure _ w)
  rwa [List.append_nil] at hruns

/-- A round at the top that takes a definition. -/
theorem passes_rootStep_define {vars : List String} (loops : Nat) {depth : Nat} {ps r : List Piece}
    {i : Template.Item} (h : Spelling.Definition ps i) (hdepth : ps.length ≤ depth)
    (hscoped : WellScoped (i.visits vars)) :
    Passes (rootStep (bodiesTo depth)) ⟨ps ++ r, vars, loops⟩ (true, ()) [.item i]
      ⟨r, vars, loops⟩ := by
  obtain @⟨start, ps, close, name, right, is, hopens, hnames, hright, hitems, hclose⟩ := h
  rw [Item.visits, Body.visits] at hscoped
  simp only [List.length_append, List.length_cons] at hdepth
  obtain ⟨depth, rfl⟩ : ∃ d, depth = d + 1 := ⟨depth - 1, by omega⟩
  have hlist := passes_listTo 0 depth rfl hitems (by omega) hscoped (endsList_of_marks hclose r _ 0)
  have hbody := passes_templateBody .defineClause vars loops hlist hclose
  have hrest : Passes (do
      let _ ← expect .rightDelim .defineClause
      templateBody (bodiesTo (depth + 1)) .defineClause)
      ⟨right :: (ps ++ (close ++ r)), vars, loops⟩ () ([.token right.token] ++ [.list is, .nothing])
      ⟨r, vars, loops⟩ := (passes_expect .defineClause hright _ vars loops).bind hbody
  have hdefine : Passes (define (bodiesTo (depth + 1))) _ () _ _ :=
    (passes_named hopens .defineClause hnames hrest).node .define rfl rfl
  rw [nodePart_define hopens hnames] at hdefine
  have hword : Place.word? ⟨start ++ name :: (right :: (ps ++ (close ++ r))), vars, loops⟩ =
      some (.keyword .defineWord) := by
    obtain ⟨left, w, rfl, hleft, hw⟩ := hopens
    exact word?_of_kind? (congrArg some hleft) (congrArg some hw)
  have hround : Passes (rootStep (bodiesTo (depth + 1)))
      ⟨start ++ name :: (right :: (ps ++ (close ++ r))), vars, loops⟩ (true, ())
      [.item (.define nowhere (Literal.unquote name.text) (.items is))] ⟨r, vars, loops⟩ := by
    refine .unless_stopped (by simp) ((passes_actionWord _).before ?_)
    rw [hword]
    exact hdefine.bind (f := fun _ ↦ pure (true, ())) (passes_pure _ _)
  simp only [List.append_assoc, List.cons_append]
  exact hround

/-- At the end of the input the loop at the top ends. -/
theorem ran_rootStep_end {s : State} (hs : s.error = none) (hrest : s.rest = []) :
    Ran (rootStep bodies) s (false, ()) [] s.view := by
  refine Ran.congr (q := fun s ↦ ((false, ()), s)) ?_
    ⟨rfl, hs, rfl, (List.append_nil _).symm, .refl s⟩
  rw [rootStep, bind_apply, stopped_apply, hrest, List.isEmpty_nil, Bool.or_true]
  rfl

end Rounds

/-- A state in which the loop at the top may start its next round. -/
structure State.AtTop (bound : Nat) (ps : List Piece) (vars : List String) (s : State) : Prop where
  error : s.error = none
  pending : s.pending.all (·.isTrivia)
  bounded : s.Bounded bound
  place : s.place = ⟨ps, vars, 0⟩

/-- A round at the top, and what follows it. -/
theorem ran_round {bodies : Bodies} {bound : Nat} {ps qs : List Piece} {vars vars' : List String}
    {parts : List Part} {is js : List Template.Item} {s : State}
    (h : Passes (rootStep bodies) ⟨ps ++ qs, vars, 0⟩ (true, ()) parts ⟨qs, vars', 0⟩)
    (hps : ps ≠ []) (hparts : parts.filterMap Part.item? = is) (hs : s.AtTop bound (ps ++ qs) vars)
    (hrest : ∀ {t : State}, t.AtTop bound qs vars' → ∃ parts' w,
      Ran (iterate (fun _ ↦ rootStep bodies) ()) t () parts' w ∧ w.place.ahead = [] ∧
        parts'.filterMap Part.item? = js) :
    ∃ parts' w, Ran (iterate (fun _ ↦ rootStep bodies) ()) s () parts' w ∧ w.place.ahead = [] ∧
      parts'.filterMap Part.item? = is ++ js := by
  obtain ⟨gap, hruns⟩ := h s.view.gap
  have hran := hruns s hs.error hs.pending (by rw [← hs.place]; rfl)
  obtain ⟨parts', w, hran', hw, hparts'⟩ := hrest ⟨hran.error, hran.grows.pending hs.pending,
    hs.bounded.grows hran.grows, congrArg View.place hran.view⟩
  refine ⟨_, w, hran.iterate_more ?_ hran', hw, by rw [List.filterMap_append, hparts, hparts']⟩
  rw [hs.place]
  exact length_lt_append hps qs

/-- The loop at the top runs through a template, to the end of the input. -/
theorem ran_template {ps : List Piece} {is : List Template.Item} (depth : Nat) {bound : Nat}
    (h : Spelling.Root ps is) (hdepth : ps.length ≤ depth) {vars : List String}
    (hscoped : WellScoped (itemsVisits is vars)) {s : State} (hs : s.AtTop bound ps vars) :
    ∃ parts w, Ran (iterate (fun _ ↦ rootStep (bodiesTo depth)) ()) s () parts w ∧
      w.place.ahead = [] ∧ parts.filterMap Part.item? = is := by
  induction h generalizing vars s with
  | nil =>
    have hahead : s.place.ahead = [] := congrArg Place.ahead hs.place
    exact ⟨[], s.view, (ran_rootStep_end hs.error (hs.bounded.rest_eq_nil hahead)).iterate_last,
      hahead, rfl⟩
  | @definition ps qs i is hdefinition _ ih =>
    rw [List.length_append] at hdepth
    rw [itemsVisits, hdefinition.varsAfter, wellScoped_append] at hscoped
    have hround := passes_rootStep_define (r := qs) 0 hdefinition
      (Nat.le_of_add_right_le hdepth) hscoped.1
    have hps : ps ≠ [] := by
      cases hdefinition with
      | mk _ _ _ _ _ => simp
    exact ran_round hround hps rfl hs (ih (Nat.le_of_add_left_le hdepth) hscoped.2)
  | @item ps qs is js hitem _ ih =>
    rw [List.length_append] at hdepth
    rw [itemsVisits_append, wellScoped_append] at hscoped
    obtain ⟨parts, hpasses, hparts⟩ := passes_item (r := qs) 0 depth rfl hitem
      (Nat.le_of_add_right_le hdepth) hscoped.1
    have hmeaning : ItemMeaning ⟨ps ++ qs, vars, 0⟩ ⟨qs, itemsVarsAfter is vars, 0⟩ :=
      ⟨ps, hitem.grammar hscoped.1, rfl, rfl⟩
    have hps : ps ≠ [] := by
      obtain ⟨p, r, rfl, -⟩ := item_start (hitem.grammar hscoped.1)
      exact List.cons_ne_nil p r
    exact ran_round (passes_rootStep_item hmeaning hpasses) hps hparts hs
      (ih (Nat.le_of_add_left_le hdepth) hscoped.2)

/-- At the start the parser is at the top of a template. -/
theorem atTop_start (text : String) : (State.start text).AtTop
    ((Tokens.ofText text).tokens.length + 1) (pieces (Tokens.ofText text).tokens) prelude :=
  ⟨rfl, rfl, bounded_start text, rfl⟩

end Parser

open AlertAudit.Template.Parser Outline

/-- The outline of a template is the one that its pieces spell. -/
theorem bareItems_of_spells {text : String} {is : List Item}
    (h : Spelling.Root (pieces (Tokens.ofText text).tokens) is)
    (hscoped : WellScoped (itemsVisits is prelude)) :
    bareItems (Parse.ofText text).tree.items = is := by
  obtain ⟨parts, w, hran, hw, hparts⟩ := ran_template ((Tokens.ofText text).tokens.length + 1)
    h (Nat.le_succ_of_le (length_pieces_le _)) hscoped (atTop_start text)
  have hafter : (State.afterItems text).rest = [] := by
    have hbounded := (bounded_start text).grows hran.grows
    refine hbounded.rest_eq_nil ?_
    rw [← hw]
    exact congrArg (·.place.ahead) hran.view
  have hlook : (State.afterItems text).look.rest = [] := by
    rw [State.look, hafter]
    rfl
  have hspaces := hran.grows.pending (atTop_start text).pending
  have htree : (Parse.ofText text).tree =
      .node .root (State.afterItems text).look.settle.built.reverse := by
    rw [Parse.ofText_eq, final_eq, takeRest_apply_of_nil hlook]
    rfl
  have hshown : Outline.shown (State.afterItems text).look.settle.built.reverse = parts :=
    (shown_settle ((growsTo_look _).pending hspaces)).trans hran.shown
  rw [htree, Tree.items, bareItems_eq_map, ← filterMap_plain Part.item?_bare fun _ ↦ rfl, ← hparts,
    ← hshown]
  rfl

/-- A template is accepted exactly if it can be read to its end and spells an outline in which every
variable is in scope. -/
theorem error_eq_none_iff_spells (text : String) : (Parse.ofText text).error = none ↔
    (Tokens.ofText text).error = none ∧ ∃ is,
      Spelling.Root (pieces (Tokens.ofText text).tokens) is ∧
        WellScoped (itemsVisits is prelude) := by
  have hrule : (Parse.ofText text).error = none ↔
      Grammar.Root prelude (pieces (Tokens.ofText text).tokens) := by
    rw [Parse.ofText_eq]
    exact error_final_eq_none_iff text
  rw [← Spelling.template_iff_spells, hrule]
  exact ⟨fun h ↦ ⟨error_eq_none_of_legal (Grammar.legal_of_template h), h⟩, And.right⟩

/-- The outline of a template that is accepted is spelled by its pieces, and well-scoped. -/
theorem spells_of_accepted {text : String} (h : (Parse.ofText text).error = none) :
    Spelling.Root (pieces (Tokens.ofText text).tokens)
        (bareItems (Parse.ofText text).tree.items) ∧
      WellScoped (itemsVisits (bareItems (Parse.ofText text).tree.items) prelude) := by
  obtain ⟨-, is, hspells, hscoped⟩ := (error_eq_none_iff_spells text).mp h
  rw [bareItems_of_spells hspells hscoped]
  exact ⟨hspells, hscoped⟩

end AlertAudit.Template
