import AlertAudit.Proofs.Template.Steps
import AlertAudit.Proofs.Template.Subtree
import AlertAudit.Template.Parser.Items

/-!
What every part of the parser does to a state, whatever the input: it puts whole trees behind those
that are built already, and their tokens are the ones it takes from the input, in order; an error
that it records is at the token that is next then; and it leaves the variables in scope, the loops
and the parentheses around it, except for what it declares (`State.GrowsTo`). The productions are
put together from a few primitives by sequencing and by `node`, and growth goes through both
(`grows_bind`, `grows_node`). A production that is entered at a token which it knows takes it
(`Takes`).
-/

set_option autoImplicit false

namespace AlertAudit.Template.Parser

open AlertAudit.Template.Tree

variable {α β : Type}

/-- Between `s` and `t` a token that is no white space has been next, and `span` is its place; or
the input has ended, and `span` is its end. In both cases nothing in front of that is left to be
taken. -/
def State.Stops (s t : State) (span : Text.Span) : Prop :=
  (∃ token rest, token :: rest <:+ s.rest ∧ token.isTrivia = false ∧ span = token.span ∧
    t.rest <:+ token :: rest) ∨ (span = ⟨s.stop, s.stop⟩ ∧ t.rest = [])

/-- What may happen to a state while something is parsed. -/
structure State.GrowsTo (s t : State) : Prop where
  /-- Complete trees are added, and their tokens come from the input. -/
  trees : ∃ added : List Tree, t.built = added.reverse ++ s.built ∧
    leavesOf added ++ t.pending ++ t.rest = s.pending ++ s.rest ∧ ∀ tree ∈ added, tree.Plain
  rest : t.rest <:+ s.rest
  stop : t.stop = s.stop
  /-- Only white space waits to be put into the tree. -/
  pending : s.pending.all (·.isTrivia) → t.pending.all (·.isTrivia)
  /-- The first error stays. -/
  error : s.error.isSome → t.error = s.error
  /-- A first error is at what was next. -/
  fault : s.error = none → ∀ e, t.error = some e → s.Stops t e.span
  /-- Variables come into scope in front of the others. -/
  vars : s.vars <:+ t.vars
  loops : t.loops = s.loops
  depth : t.depth = s.depth

namespace State.GrowsTo

/-- Where the error is unchanged, none has been recorded. -/
theorem fault_of_same {s t : State} (h : t.error = s.error) (hs : s.error = none) (e : ParseError)
    (he : t.error = some e) : s.Stops t e.span := by
  rw [h, hs] at he
  exact absurd he nofun

/-- A state grows to itself. -/
theorem refl (s : State) : s.GrowsTo s where
  trees := ⟨[], by simp, by simp, by simp⟩
  rest := List.suffix_refl _
  stop := rfl
  pending := id
  error := fun _ ↦ rfl
  fault := fault_of_same rfl
  vars := List.suffix_refl _
  loops := rfl
  depth := rfl

/-- An error that is recorded in one of two growths is at the token that is next in it. -/
theorem fault_trans {s t u : State} (hst : s.GrowsTo t) (htu : t.GrowsTo u) (hs : s.error = none)
    (e : ParseError) (he : u.error = some e) : s.Stops u e.span := by
  cases ht : t.error with
  | none =>
    rcases htu.fault ht e he with ⟨token, rest, hsuffix, htoken, hspan, hrest⟩ | ⟨hspan, hrest⟩
    · exact .inl ⟨token, rest, hsuffix.trans hst.rest, htoken, hspan, hrest⟩
    · exact .inr ⟨by rw [hspan, hst.stop], hrest⟩
  | some first =>
    rw [htu.error (by rw [ht]; rfl)] at he
    rcases hst.fault hs e he with ⟨token, rest, hsuffix, htoken, hspan, hrest⟩ | ⟨hspan, hrest⟩
    · exact .inl ⟨token, rest, hsuffix, htoken, hspan, htu.rest.trans hrest⟩
    · exact .inr ⟨hspan, List.suffix_nil.mp (hrest ▸ htu.rest)⟩

/-- Growth goes on from one state to the next. -/
theorem trans {s t u : State} (hst : s.GrowsTo t) (htu : t.GrowsTo u) : s.GrowsTo u where
  trees := by
    obtain ⟨first, hfirst, hfirstLeaves, hfirstPlain⟩ := hst.trees
    obtain ⟨second, hsecond, hsecondLeaves, hsecondPlain⟩ := htu.trees
    refine ⟨first ++ second, ?_, ?_, ?_⟩
    · rw [hsecond, hfirst, List.reverse_append, List.append_assoc]
    · rw [leavesOf_append, ← hfirstLeaves, List.append_assoc, List.append_assoc, List.append_assoc,
        ← hsecondLeaves, List.append_assoc]
    · intro tree htree
      rcases List.mem_append.mp htree with h | h
      · exact hfirstPlain tree h
      · exact hsecondPlain tree h
  rest := htu.rest.trans hst.rest
  stop := htu.stop.trans hst.stop
  pending := fun h ↦ htu.pending (hst.pending h)
  error := fun h ↦ by rw [htu.error (by rw [hst.error h]; exact h), hst.error h]
  fault := hst.fault_trans htu
  vars := hst.vars.trans htu.vars
  loops := htu.loops.trans hst.loops
  depth := htu.depth.trans hst.depth

/-- Tokens are taken from the input, and none are put back. -/
theorem length_rest_le {s t : State} (h : s.GrowsTo t) : t.rest.length ≤ s.rest.length :=
  h.rest.length_le

/-- An error stays recorded. -/
theorem error_eq_none {s t : State} (h : s.GrowsTo t) (ht : t.error = none) : s.error = none := by
  by_cases hs : s.error.isSome
  · rw [h.error hs] at ht
    exact ht
  · exact Option.not_isSome_iff_eq_none.mp hs

/-- Growth between two states that have other variables in scope and stand in other loops and
parentheses. -/
theorem reframe {s t s' t' : State} (h : s.GrowsTo t) {vars vars' : List String}
    {loops loops' depth depth' : Nat} (hs : s' = { s with vars, loops, depth })
    (ht : t' = { t with vars := vars', loops := loops', depth := depth' }) (hvars : vars <:+ vars')
    (hloops : loops' = loops) (hdepth : depth' = depth) : s'.GrowsTo t' := by
  subst hs ht
  exact ⟨h.trees, h.rest, h.stop, h.pending, h.error, h.fault, hvars, hloops, hdepth⟩

end State.GrowsTo

/-- One more variable in scope. -/
theorem growsTo_push (s : State) (name : String) : s.GrowsTo { s with vars := name :: s.vars } :=
  (State.GrowsTo.refl s).reframe rfl rfl (List.suffix_cons _ _) rfl rfl

/-- To look past white space is growth. -/
theorem growsTo_look (s : State) : s.GrowsTo s.look where
  trees := ⟨[], by simp [State.look], by simp [State.look], by simp⟩
  rest := List.dropWhile_suffix _
  stop := rfl
  pending := by
    intro h
    have hspaces : (s.rest.takeWhile (·.isTrivia)).all (·.isTrivia) := List.all_takeWhile
    simp only [State.look, List.all_append, h, hspaces, Bool.and_self]
  error := fun _ ↦ rfl
  fault := State.GrowsTo.fault_of_same rfl
  vars := List.suffix_refl _
  loops := rfl
  depth := rfl

/-- An error is recorded at the next token. -/
theorem growsTo_fault {s : State} (h : s.error = none) (cause : Cause) : s.GrowsTo { s.look with
    error := some ⟨cause, (s.look.rest.head?.map (·.span)).getD ⟨s.stop, s.stop⟩⟩ } where
  trees := (growsTo_look s).trees
  rest := (growsTo_look s).rest
  stop := rfl
  pending := (growsTo_look s).pending
  error := fun hs ↦ absurd hs (by rw [h]; exact Bool.false_ne_true)
  fault := by
    intro _ e he
    obtain rfl := Option.some.inj he
    have hhead := all_head?_look s
    cases hrest : s.look.rest with
    | nil => exact .inr ⟨rfl, hrest⟩
    | cons token rest =>
      rw [hrest, List.head?_cons, Option.all_some, Bool.not_eq_true'] at hhead
      have hsuffix : token :: rest <:+ s.rest := hrest ▸ (growsTo_look s).rest
      exact .inl ⟨token, rest, hsuffix, hhead, rfl, hrest ▸ List.suffix_rfl⟩
  vars := List.suffix_refl _
  loops := rfl
  depth := rfl

/-- Tokens that leave the input become the next leaves of the tree. -/
theorem growsTo_settle_take (s : State) {taken rest : List Token} (h : s.rest = taken ++ rest) :
    s.GrowsTo
      { s.settle with rest := rest, built := taken.reverse.map .leaf ++ s.settle.built } where
  trees := by
    refine ⟨(s.pending ++ taken).map .leaf, ?_, ?_, ?_⟩
    · simp [State.settle]
    · simp [State.settle, h]
    · simp only [List.mem_map]
      rintro _ ⟨t, -, rfl⟩
      exact plain_leaf t
  rest := h ▸ List.suffix_append _ _
  stop := rfl
  pending := fun _ ↦ rfl
  error := fun _ ↦ rfl
  fault := State.GrowsTo.fault_of_same rfl
  vars := List.suffix_refl _
  loops := rfl
  depth := rfl

/-- To put the white space into the tree is growth. -/
theorem growsTo_settle (s : State) : s.GrowsTo s.settle :=
  growsTo_settle_take s (List.nil_append s.rest).symm

/-! ### Steps -/

/-- Whatever the state, `p` only adds to it. -/
def Grows (p : Parser α) : Prop := ∀ s : State, s.GrowsTo (p s).2

theorem grows_pure (a : α) : Grows (pure a : Parser α) := fun s ↦ .refl s

/-- One part of the parser behind another one grows if both do. -/
theorem grows_bind {p : Parser α} {f : α → Parser β} (hp : Grows p) (hf : ∀ a, Grows (f a)) :
    Grows (p >>= f) :=
  fun s ↦ (hp s).trans (hf _ _)

theorem grows_get : Grows (get : Parser State) := fun s ↦ .refl s

/-- A choice grows if both of its sides do. -/
theorem grows_ite {c : Prop} [Decidable c] {p q : Parser α} (hp : Grows p) (hq : Grows q) :
    Grows (if c then p else q) := by
  split
  · exact hp
  · exact hq

theorem grows_next : Grows next := fun s ↦ growsTo_look s

theorem grows_current : Grows current := grows_bind grows_next fun _ ↦ grows_pure _

theorem grows_currentText : Grows currentText := grows_bind grows_next fun _ ↦ grows_pure _

theorem grows_second : Grows second := fun s ↦ growsTo_look s

theorem grows_adjacent : Grows adjacent := fun s ↦ .refl s

theorem grows_failed : Grows failed := fun s ↦ .refl s

theorem grows_stopped : Grows stopped := fun s ↦ .refl s

theorem grows_fail (cause : Cause) : Grows (fail cause) := by
  intro s
  by_cases herror : s.error = none
  · rw [fail_apply_of_none herror]
    exact growsTo_fault herror cause
  · rw [fail_apply_of_isSome (Option.isSome_iff_ne_none.mpr herror)]
    exact .refl s

/-- To record an unexpected token is growth. -/
theorem grows_unexpected (context : Context) : Grows (unexpected context) := by
  refine grows_bind grows_next fun token ↦ grows_bind grows_get fun s ↦ ?_
  split
  · exact grows_fail _
  · exact grows_fail _

/-- To take a token is growth. -/
theorem grows_bump : Grows bump := by
  intro s
  cases hrest : s.look.rest with
  | nil =>
    rw [bump_apply_of_nil hrest]
    exact growsTo_look s
  | cons token rest =>
    rw [bump_apply_of_cons hrest]
    exact (growsTo_look s).trans (growsTo_settle_take s.look hrest)

/-- To take all tokens of a kind is growth. -/
theorem grows_takeAll (kind : TokenKind) : Grows (takeAll kind) := fun s ↦
  growsTo_settle_take s List.takeWhile_append_dropWhile.symm

theorem grows_eat (kind : TokenKind) : Grows (eat kind) := by
  refine grows_bind grows_current fun found ↦ grows_ite ?_ (grows_pure _)
  exact grows_bind grows_bump fun _ ↦ grows_pure _

/-- To take a token that has to come is growth. -/
theorem grows_expect (kind : TokenKind) (context : Context) : Grows (expect kind context) := by
  refine grows_bind (grows_eat kind) fun found ↦ grows_ite (grows_pure _) ?_
  exact grows_bind (grows_unexpected context) fun _ ↦ grows_pure _

/-- What is parsed inside of a node becomes one tree. -/
theorem growsTo_node {kind : NodeKind} {p : Parser α} {s : State} (hframe : kind.isFrame = false)
    (hp : { s.settle with built := [] : State }.GrowsTo (p { s.settle with built := [] }).2)
    (hoperand : kind.isOperand →
      leavesOf (p { s.settle with built := [] }).2.built.reverse ≠ []) :
    s.GrowsTo (node kind p s).2 := by
  refine (growsTo_settle s).trans ?_
  rw [node_apply]
  obtain ⟨added, hbuilt, hleaves, hplain⟩ := hp.trees
  rw [List.append_nil] at hbuilt
  rw [hbuilt, List.reverse_reverse] at hoperand ⊢
  refine ⟨⟨[.node kind added], rfl, ?_, ?_⟩, hp.rest, hp.stop, hp.pending, hp.error, hp.fault,
    hp.vars, hp.loops, hp.depth⟩
  · rw [leavesOf_cons, leavesOf_nil, leaves_node, List.append_nil]
    exact hleaves
  · intro tree htree
    rw [List.mem_singleton.mp htree]
    exact plain_node ⟨hframe, hoperand⟩ hplain

/-- A node grows if what stands inside of it does. -/
theorem grows_node {kind : NodeKind} {p : Parser α} (hframe : kind.isFrame = false)
    (hoperand : kind.isOperand = false) (hp : Grows p) : Grows (node kind p) := fun s ↦
  growsTo_node hframe (hp _) fun h ↦ absurd h (by rw [hoperand]; exact Bool.false_ne_true)

/-- What `p` declares goes out of scope again. -/
theorem grows_keepingVars {p : Parser α} (hp : Grows p) : Grows (keepingVars p) := by
  intro s
  rw [keepingVars_apply (hp s).vars]
  exact (hp s).reframe rfl rfl (List.suffix_refl _) (hp s).loops (hp s).depth

/-- What stands in a loop grows as it does elsewhere. -/
theorem grows_inLoop {p : Parser α} (hp : Grows p) : Grows (inLoop p) := by
  intro s
  have hinner := hp { s with loops := s.loops + 1 }
  rw [inLoop_apply hinner.loops]
  exact hinner.reframe rfl rfl hinner.vars rfl hinner.depth

/-- So does what stands in parentheses. -/
theorem grows_inParens {p : Parser α} (hp : Grows p) : Grows (inParens p) := by
  intro s
  have hinner := hp { s with depth := s.depth + 1 }
  rw [inParens_apply hinner.depth]
  exact hinner.reframe rfl rfl hinner.vars hinner.loops rfl

/-- So does what is isolated. -/
theorem grows_isolated {p : Parser α} (hp : Grows p) : Grows (isolated p) := by
  intro s
  have hinner := hp { s with vars := ["$"], loops := 0 }
  rw [isolated_apply]
  exact hinner.reframe rfl rfl (List.suffix_refl _) rfl hinner.depth

/-- Each round grows, and there are no more rounds than tokens. -/
theorem grows_iterate {step : β → Parser (Bool × β)} (hstep : ∀ b, Grows (step b)) (b : β) :
    Grows (iterate step b) := by
  intro s
  induction hlength : s.rest.length using Nat.strongRecOn generalizing b s with
  | ind length ih =>
    rw [iterate_apply]
    split
    next hmore =>
      exact (hstep b s).trans (ih _ (hlength ▸ hmore.2) _ _ rfl)
    next => exact hstep b s

/-! ### Taking tokens -/

def Takes (p : Parser α) (s : State) : Prop := (p s).2.rest.length < s.rest.length

/-- What takes a token first takes one as a whole. -/
theorem takes_bind_of_left {p : Parser α} {f : α → Parser β} {s : State} (hp : Takes p s)
    (hf : ∀ a, Grows (f a)) : Takes (p >>= f) s :=
  Nat.lt_of_le_of_lt (hf _ _).length_rest_le hp

/-- So does what takes one behind something else. -/
theorem takes_bind_of_right {p : Parser α} {f : α → Parser β} {s : State} (hp : Grows p)
    (hf : Takes (f (p s).1) (p s).2) : Takes (p >>= f) s :=
  Nat.lt_of_lt_of_le hf (hp s).length_rest_le

/-- A token is taken unless the input has ended. -/
theorem takes_bump {s : State} (h : s.look.rest ≠ []) : Takes bump s := by
  obtain ⟨token, rest, hrest⟩ := List.exists_cons_of_ne_nil h
  have hle := (growsTo_look s).length_rest_le
  rw [hrest, List.length_cons] at hle
  rw [Takes, bump_apply_of_cons hrest]
  exact hle

/-- Grows, and takes a token wherever there is one to take. -/
structure Consumes (p : Parser α) : Prop where
  grows : Grows p
  takes : ∀ s : State, s.look.rest ≠ [] → Takes p s

/-- To take the next token consumes, unless the input has ended. -/
theorem consumes_bump : Consumes bump := ⟨grows_bump, fun _ ↦ takes_bump⟩

/-- What consumes first consumes as a whole. -/
theorem consumes_bind {p : Parser α} {f : α → Parser β} (hp : Consumes p)
    (hf : ∀ a, Grows (f a)) : Consumes (p >>= f) :=
  ⟨grows_bind hp.grows hf, fun s hs ↦ takes_bind_of_left (hp.takes s hs) hf⟩

/-- A node consumes if what stands inside of it does. -/
theorem consumes_node {kind : NodeKind} {p : Parser α} (hframe : kind.isFrame = false)
    (hoperand : kind.isOperand = false) (hp : Consumes p) : Consumes (node kind p) :=
  ⟨grows_node hframe hoperand hp.grows, fun s hs ↦ hp.takes { s.settle with built := [] } hs⟩

/-- What keeps variables consumes if it does so without. -/
theorem consumes_keepingVars {p : Parser α} (hp : Consumes p) : Consumes (keepingVars p) :=
  ⟨grows_keepingVars hp.grows, fun s hs ↦ hp.takes s hs⟩

/-- The start of an action with a word consumes. -/
theorem consumes_eat_bump {kind : TokenKind} {f : Unit → Parser α} (hf : ∀ a, Grows (f a)) :
    Consumes (eat kind >>= fun _ ↦ bump >>= f) := by
  have hafter := grows_bind grows_bump hf
  refine ⟨grows_bind (grows_eat kind) fun _ ↦ hafter, fun s hs ↦ ?_⟩
  rw [← look_look] at hs
  by_cases hkind : s.look.rest.head?.map (·.kind) = some kind
  · refine takes_bind_of_left (takes_bind_of_right grows_current ?_) fun _ ↦ hafter
    rw [current_apply, if_pos hkind]
    exact takes_bind_of_left (takes_bump hs) fun _ ↦ grows_pure _
  · refine takes_bind_of_right (grows_eat kind) (takes_bind_of_left ?_ hf)
    have heat : eat kind s = (false, s.look) := by
      rw [eat, bind_apply, current_apply, if_neg hkind, pure_apply]
    rw [heat]
    exact takes_bump hs

/-- In state `s`, `p` takes a token or there is an error. -/
def Advances (p : Parser α) (s : State) : Prop := (p s).2.error.isSome ∨ Takes p s

/-- Grows, and takes a token or records an error wherever there is a token to take. -/
structure Proceeds (p : Parser α) : Prop where
  grows : Grows p
  advances : ∀ s : State, s.look.rest ≠ [] → Advances p s

/-- What takes a token proceeds. -/
theorem Consumes.proceeds {p : Parser α} (h : Consumes p) : Proceeds p :=
  ⟨h.grows, fun s hs ↦ .inr (h.takes s hs)⟩

/-- What only looks first proceeds if the rest does. -/
theorem proceeds_bind_of_look {p : Parser α} {f : α → Parser β} (hp : Grows p)
    (hlook : ∀ s : State, (p s).2.look.rest = s.look.rest) (hf : ∀ a, Proceeds (f a)) :
    Proceeds (p >>= f) := by
  refine ⟨grows_bind hp fun a ↦ (hf a).grows, fun s hs ↦ ?_⟩
  have hadvances : Advances (f (p s).1) (p s).2 := (hf _).advances _ (by rw [hlook]; exact hs)
  exact hadvances.imp id (takes_bind_of_right hp)

/-- A look at the next token leaves it to the rest to proceed. -/
theorem proceeds_current {f : Option TokenKind → Parser α} (hf : ∀ kind, Proceeds (f kind)) :
    Proceeds (current >>= f) :=
  proceeds_bind_of_look grows_current (fun s ↦ congrArg State.rest (look_look s)) hf

/-- So does a look at the second token. -/
theorem proceeds_second {f : Option TokenKind → Parser α} (hf : ∀ kind, Proceeds (f kind)) :
    Proceeds (second >>= f) :=
  proceeds_bind_of_look grows_second (fun s ↦ congrArg State.rest (look_look s)) hf

/-- Behind a failure there is an error. -/
theorem isSome_error_fail (cause : Cause) (s : State) : (fail cause s).2.error.isSome := by
  by_cases herror : s.error = none
  · rw [fail_apply_of_none herror]
    rfl
  · have hsome := Option.isSome_iff_ne_none.mpr herror
    rw [fail_apply_of_isSome hsome]
    exact hsome

/-- Behind an unexpected token there is an error. -/
theorem isSome_error_unexpected (context : Context) (s : State) :
    (unexpected context s).2.error.isSome := by
  obtain ⟨cause, hcause⟩ := unexpected_apply context s
  rw [hcause]
  exact isSome_error_fail _ _

/-- A failure proceeds. -/
theorem proceeds_fail (cause : Cause) : Proceeds (fail cause) :=
  ⟨grows_fail cause, fun s _ ↦ .inl (isSome_error_fail cause s)⟩

theorem proceeds_unexpected (context : Context) : Proceeds (unexpected context) :=
  ⟨grows_unexpected context, fun s _ ↦ .inl (isSome_error_unexpected context s)⟩

/-- A state that takes a token that is no white space, with no white space waiting, puts a token
into the tree. -/
theorem State.GrowsTo.leaves_ne_nil {s t : State} (h : s.GrowsTo t) (hbuilt : s.built = [])
    (hpending : s.pending = []) (hhead : s.rest.head?.all (!·.isTrivia))
    (htakes : t.rest.length < s.rest.length) : leavesOf t.built.reverse ≠ [] := by
  intro hnil
  obtain ⟨added, hadded, hleaves, -⟩ := h.trees
  rw [hadded, hbuilt, List.append_nil, List.reverse_reverse] at hnil
  rw [hnil, hpending, List.nil_append, List.nil_append] at hleaves
  have hspaces := h.pending (by rw [hpending]; rfl)
  cases hwaiting : t.pending with
  | nil =>
    rw [hwaiting, List.nil_append] at hleaves
    rw [hleaves] at htakes
    exact Nat.lt_irrefl _ htakes
  | cons token tokens =>
    rw [hwaiting] at hleaves hspaces
    rw [← hleaves] at hhead
    simp only [List.all_cons, Bool.and_eq_true] at hspaces
    simp only [List.cons_append, List.head?_cons, Option.all_some, hspaces.1, Bool.not_true,
      Bool.false_eq_true] at hhead

/-- A failure takes no tokens. -/
theorem look_rest_fail (cause : Cause) (s : State) : (fail cause s).2.look.rest = s.look.rest := by
  by_cases herror : s.error = none
  · rw [fail_apply_of_none herror]
    change s.look.look.rest = s.look.rest
    rw [look_look]
  · rw [fail_apply_of_isSome (Option.isSome_iff_ne_none.mpr herror)]

end AlertAudit.Template.Parser
