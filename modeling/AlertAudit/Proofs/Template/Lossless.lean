import AlertAudit.Proofs.Template.Growth.Productions
import AlertAudit.Proofs.Template.Tiling

/-!
The tree of a template loses nothing of it. Growth accounts for the tokens that the productions
take; what is left is the loop over the items at the top. It ends with the input or with an error
(`rootLoop_ends`), so an error node at the end of a tree means that there is an error, and the
tokens that no production took are all in it.
-/

set_option autoImplicit false

namespace AlertAudit.Template

open AlertAudit.Template.Tree

namespace Parser

/-! ### The loop over the items -/

/-- What holds wherever a step does not go on holds after the last step. -/
theorem iterate_ends {β : Type} {step : β → Parser (Bool × β)} {P : State → Prop}
    (hstep : ∀ b s, ¬((step b s).1.1 ∧ Takes (step b) s) → P (step b s).2) (b : β) (s : State) :
    P (iterate step b s).2 := by
  induction hlength : s.rest.length using Nat.strongRecOn generalizing b s with
  | ind length ih =>
    rw [iterate_apply]
    split
    next hmore => exact ih _ (hlength ▸ hmore.2) _ _ rfl
    next hlast => exact hstep b s hlast

/-- What follows at the top of a template, by the word of the next action. -/
def rootItem (bodies : Bodies) : Option TokenKind → Parser (Bool × Unit)
  | some (.keyword .defineWord) => do
    define bodies
    return (true, ())
  | some (.keyword .endWord) => do
    endAction
    fail .unexpectedEnd
    return (false, ())
  | some (.keyword .elseWord) => do
    strayElse
    fail .unexpectedElse
    return (false, ())
  | _ => do
    item bodies
    return (true, ())

/-- One round of the loop over the items of a template. -/
def rootStep (bodies : Bodies) : Parser (Bool × Unit) := do
  if ← stopped then return (false, ())
  rootItem bodies (← actionWord)

/-- An item at the top grows. -/
theorem grows_rootItem {bodies : Bodies} (hbodies : bodies.Grow) (word : Option TokenKind) :
    Grows (rootItem bodies word) := by
  unfold rootItem
  split
  · exact grows_bind (consumes_define hbodies).grows fun _ ↦ grows_pure _
  · exact grows_bind grows_endAction fun _ ↦ grows_bind (grows_fail _) fun _ ↦ grows_pure _
  · exact grows_bind grows_strayElse fun _ ↦ grows_bind (grows_fail _) fun _ ↦ grows_pure _
  · exact grows_bind (proceeds_item hbodies).grows fun _ ↦ grows_pure _

/-- So does a round of the loop over the items. -/
theorem grows_rootStep {bodies : Bodies} (hbodies : bodies.Grow) : Grows (rootStep bodies) :=
  grows_bind grows_stopped fun _ ↦ grows_ite (grows_pure _)
    (grows_bind grows_actionWord (grows_rootItem hbodies))

/-- An item takes a token unless there is an error, also where only white space is left. -/
theorem advances_item {bodies : Bodies} (hbodies : bodies.Grow) (s : State) :
    Advances (item bodies) s := by
  by_cases hs : s.look.rest = []
  · refine .inl ?_
    rw [item, bind_apply, current_apply, hs, List.head?_nil, Option.map_none]
    exact isSome_error_unexpected _ _
  · exact (proceeds_item hbodies).advances s hs

/-- To look for the word of an action takes no tokens. -/
theorem look_rest_actionWord (s : State) : (actionWord s).2.look.rest = s.look.rest := by
  rw [actionWord, bind_apply, current_apply]
  split
  · rw [second_apply, look_look, look_look]
  · rw [pure_apply, look_look]

/-- At the end of the input no action begins. -/
theorem actionWord_of_nil {s : State} (h : s.look.rest = []) : (actionWord s).1 = none := by
  rw [actionWord, bind_apply, current_apply, h]
  rfl

/-- An item at the top ends with an error, or takes a token and lets the loop go on. -/
theorem rootItem_cases {bodies : Bodies} (hbodies : bodies.Grow) (word : Option TokenKind)
    {s : State} (hs : word ≠ none → s.look.rest ≠ []) :
    (rootItem bodies word s).2.error.isSome ∨
      (rootItem bodies word s).1.1 ∧ Takes (rootItem bodies word) s := by
  unfold rootItem
  split
  · exact .inr ⟨rfl, (consumes_define hbodies).takes s (hs (Option.some_ne_none _))⟩
  · exact .inl (isSome_error_fail _ _)
  · exact .inl (isSome_error_fail _ _)
  · exact (advances_item hbodies s).imp id fun htakes ↦ ⟨rfl, htakes⟩

/-- A round ends with an error, at the end of the input, or with fewer tokens to take. -/
theorem rootStep_cases {bodies : Bodies} (hbodies : bodies.Grow) (s : State) :
    (rootStep bodies s).2.error.isSome ∨ (rootStep bodies s).2.rest = [] ∨
      (rootStep bodies s).1.1 ∧ Takes (rootStep bodies) s := by
  by_cases hstopped : (stopped s).1
  · have hsame : rootStep bodies s = ((false, ()), s) := by
      rw [rootStep, bind_apply, if_pos hstopped]
      rfl
    rw [hsame]
    rw [stopped_apply, Bool.or_eq_true, List.isEmpty_iff] at hstopped
    exact hstopped.imp id .inl
  · have hround : rootStep bodies s = rootItem bodies (actionWord s).1 (actionWord s).2 := by
      rw [rootStep, bind_apply, if_neg hstopped]
      rfl
    have hs : (actionWord s).1 ≠ none → (actionWord s).2.look.rest ≠ [] := by
      rw [look_rest_actionWord]
      exact mt actionWord_of_nil
    rw [Takes, hround]
    rcases rootItem_cases hbodies _ hs with herror | ⟨hmore, htakes⟩
    · exact .inl herror
    · have hle := (grows_actionWord s).length_rest_le
      exact .inr (.inr ⟨hmore, Nat.lt_of_lt_of_le htakes hle⟩)

/-- The loop over the items ends with an error or at the end of the input. -/
theorem rootLoop_ends {bodies : Bodies} (hbodies : bodies.Grow) (s : State) :
    (iterate (fun _ ↦ rootStep bodies) () s).2.error.isSome ∨
      (iterate (fun _ ↦ rootStep bodies) () s).2.rest = [] :=
  iterate_ends (P := fun t ↦ t.error.isSome ∨ t.rest = [])
    (fun _ s hlast ↦ (rootStep_cases hbodies s).imp id (Or.resolve_right · hlast)) () s

/-! ### The whole template -/

/-- At the end of the input only white space is left. -/
theorem takeRest_apply_of_nil {s : State} (h : s.look.rest = []) :
    takeRest s = ((), s.look.settle) := by
  rw [takeRest, bind_apply, next_apply, h, List.head?_nil]
  rfl

/-- Tokens that are left go into an error node, all of them. -/
theorem takeRest_apply_of_ne_nil {s : State} (h : s.look.rest ≠ []) :
    takeRest s = ((), { s.look.settle with
      rest := [], built := .node .error (s.look.rest.map .leaf) :: s.look.settle.built }) := by
  obtain ⟨token, rest, hrest⟩ := List.exists_cons_of_ne_nil h
  have hleaves : (s.look.rest.reverse.map leaf ++ []).reverse = s.look.rest.map leaf := by
    rw [List.append_nil, List.map_reverse, List.reverse_reverse]
  rw [takeRest, bind_apply, next_apply, if_pos (by rw [hrest]; rfl), ← hleaves]
  rfl

/-- The state in which the parser of a template starts. -/
def State.start (text : String) : State where
  rest := (Tokens.ofText text).tokens
  stop := text.utf8ByteSize
  scanError := (Tokens.ofText text).error
  vars := prelude

/-- The state in which the parser of a template ends. -/
def State.final (text : String) : State :=
  (root (bodiesTo ((Tokens.ofText text).tokens.length + 1)) (.start text)).2

/-- The state behind the last item of a template. -/
def State.afterItems (text : String) : State :=
  (iterate (fun _ ↦ rootStep (bodiesTo ((Tokens.ofText text).tokens.length + 1))) ()
    (.start text)).2

/-- The parser ends with a root node over all that it has built. -/
theorem final_eq (text : String) : State.final text =
    { (takeRest (.afterItems text)).2 with
      built := [.node .root (takeRest (.afterItems text)).2.built.reverse] } := rfl

/-- From the start to the end of the items the state grows. -/
theorem growsTo_afterItems (text : String) : (State.start text).GrowsTo (.afterItems text) :=
  grows_iterate (fun _ ↦ grows_rootStep (grow_bodiesTo _)) () (.start text)

/-- All that the parser leaves is a root node over whole trees without frames and, if there is an
error, the tokens behind them. -/
theorem final_spec (text : String) : ∃ parsed tail : List Tree,
    (State.final text).built = [.node .root (parsed ++ tail)] ∧
    (State.final text).pending = [] ∧ (State.final text).rest = [] ∧
    leavesOf (parsed ++ tail) = (Tokens.ofText text).tokens ∧ (∀ tree ∈ parsed, tree.Plain) ∧
    (tail = [] ∨ (State.final text).error.isSome ∧
      ∃ tokens : List Token, tokens ≠ [] ∧ tail = [.node .error (tokens.map .leaf)]) := by
  have hgrows := growsTo_afterItems text
  have hends : (State.afterItems text).error.isSome ∨ (State.afterItems text).rest = [] :=
    rootLoop_ends (grow_bodiesTo _) (.start text)
  rw [final_eq]
  generalize State.afterItems text = s at hgrows hends ⊢
  obtain ⟨parsed, hbuilt, hleaves, hplain⟩ :=
    (hgrows.trans ((growsTo_look s).trans (growsTo_settle s.look))).trees
  have hbuilt : s.look.settle.built = parsed.reverse := hbuilt.trans (List.append_nil _)
  have hleaves : leavesOf parsed ++ s.look.rest = (Tokens.ofText text).tokens := by
    rw [← List.append_nil (leavesOf parsed)]
    exact hleaves
  by_cases hrest : s.look.rest = []
  · refine ⟨parsed, [], ?_, ?_, ?_, ?_, hplain, .inl rfl⟩
    · rw [takeRest_apply_of_nil hrest, hbuilt, List.reverse_reverse, List.append_nil]
    · rw [takeRest_apply_of_nil hrest]
      rfl
    · rw [takeRest_apply_of_nil hrest]
      exact hrest
    · rw [List.append_nil, ← hleaves, hrest, List.append_nil]
  · have herror : s.error.isSome := by
      refine hends.resolve_right fun hnil ↦ hrest ?_
      rw [State.look, hnil]
      rfl
    refine ⟨parsed, [.node .error (s.look.rest.map .leaf)], ?_, ?_, ?_, ?_, hplain, .inr ?_⟩
    · rw [takeRest_apply_of_ne_nil hrest, hbuilt, List.reverse_cons, List.reverse_reverse]
    · rw [takeRest_apply_of_ne_nil hrest]
      rfl
    · rw [takeRest_apply_of_ne_nil hrest]
    · rw [leavesOf_append, leavesOf_cons, leavesOf_nil, leaves_node, leavesOf_map_leaf,
        List.append_nil]
      exact hleaves
    · rw [takeRest_apply_of_ne_nil hrest]
      exact ⟨herror, s.look.rest, hrest, rfl⟩

end Parser

/-- The tree of a template is what the parser has built in the end. -/
theorem Parse.ofText_eq (text : String) : Parse.ofText text =
    ⟨(Parser.State.final text).built.headD (.node .root []), (Parser.State.final text).error⟩ := rfl

/-- The tree of a template is one root node, and nothing is left over next to it or in the input.
Its leaves are the tokens of the template, so they are its text. Below the root there are no other
frames than an error node at the end, which holds the tokens behind an error. -/
theorem ofText_lossless (text : String) :
    (Parser.State.final text).built = [(Parse.ofText text).tree] ∧
    (Parser.State.final text).pending = [] ∧ (Parser.State.final text).rest = [] ∧
    (Parse.ofText text).tree.leaves = (Tokens.ofText text).tokens ∧
    String.join ((Parse.ofText text).tree.leaves.map (·.text)) = text ∧
    ∃ parsed tail : List Tree, (Parse.ofText text).tree = .node .root (parsed ++ tail) ∧
      (∀ tree ∈ parsed, ∀ kind children, Within (.node kind children) tree →
        kind ≠ .root ∧ kind ≠ .error) ∧
      (tail = [] ∨ (Parse.ofText text).error.isSome ∧
        ∃ tokens : List Token, tokens ≠ [] ∧ tail = [.node .error (tokens.map .leaf)]) := by
  obtain ⟨parsed, tail, hbuilt, hpending, hrest, hleaves, hplain, htail⟩ := Parser.final_spec text
  have htree : (Parse.ofText text).tree = .node .root (parsed ++ tail) := by
    rw [Parse.ofText_eq, hbuilt, List.headD_cons]
  have htokens : (Parse.ofText text).tree.leaves = (Tokens.ofText text).tokens := by
    rw [htree, leaves_node, hleaves]
  refine ⟨?_, hpending, hrest, htokens, ?_, parsed, tail, htree, ?_, htail⟩
  · rw [htree, hbuilt]
  · rw [htokens]
    exact join_text_tokens text
  · intro tree htree kind children hwithin
    have hframe : kind.isFrame = false := (hplain tree htree _ hwithin).1
    constructor
    · rintro rfl
      exact absurd hframe (by decide)
    · rintro rfl
      exact absurd hframe (by decide)

end AlertAudit.Template
