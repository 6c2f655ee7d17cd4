import AlertAudit.Proofs.Template.Extents
import AlertAudit.Proofs.Template.Runs

/-!
Runs over operands. The span of an operand is that of its node, so besides what is taken it matters
which token is taken last: `Closes` says that nothing waits behind it.
-/

set_option autoImplicit false

namespace AlertAudit.Template.Parser

open Grammar Outline AlertAudit.Template.Tree

/-- The token that was taken last stands at the end of the tree, and no white space waits. -/
structure State.EndsAt (t : Token) (s : State) : Prop where
  pending : s.pending = []
  built : s.built.head? = some (.leaf t)

/-- Wherever `v` is seen, the last thing that `p` does is to take `t`. -/
def Closes {α : Type} (p : Parser α) (v : View) (t : Token) : Prop :=
  ∀ s : State, s.error = none → s.pending.all (·.isTrivia) → s.view = v → (p s).2.EndsAt t

section Rules

variable {α β : Type} {p : Parser α} {f : α → Parser β} {u v w : View} {a : α} {b : β}
  {parts : List Part} {t : Token}

/-- What takes a token last does so behind a run. -/
theorem Closes.after (hp : Runs p v a parts u) (hf : Closes (f a) u t) : Closes (p >>= f) v t := by
  intro s hs hspaces hv
  obtain ⟨rfl, herror, hu, -, hgrows⟩ := hp s hs hspaces hv
  exact hf _ herror (hgrows.pending hspaces) hu

/-- What is returned changes nothing about the token. -/
theorem Closes.then_pure (h : Closes p v t) (g : α → β) : Closes (p >>= fun a ↦ pure (g a)) v t := h

/-- A choice takes a token last if the side that is chosen does. -/
theorem Closes.ite_left {c : Prop} [Decidable c] {q : Parser α} (hc : c) (h : Closes p v t) :
    Closes (if c then p else q) v t := by
  rwa [if_pos hc]

/-- So does what comes after a look for errors. -/
theorem Closes.unless_failed {q : Parser α} (h : Closes p v t) :
    Closes (do if ← failed then q else p) v t := by
  intro s hs hspaces hv
  rw [bind_apply, failed_apply, hs]
  exact h s hs hspaces hv

/-- The piece that is taken is the token taken last. -/
theorem closes_bump (p : Piece) (r : List Piece) (vars : List String) (loops : Nat) (gap : Bool) :
    Closes bump ⟨⟨p :: r, vars, loops⟩, gap⟩ p.token := by
  intro s _ _ hv
  obtain ⟨rest, hrest, -, -⟩ := exists_look_rest (congrArg (·.place.ahead) hv)
  rw [bump_apply_of_cons hrest]
  exact ⟨rfl, rfl⟩

/-- So it is if the piece is one that may come. -/
theorem closes_eat {kind : TokenKind} {p : Piece} (h : p.kind = kind) (r : List Piece)
    (vars : List String) (loops : Nat) (gap : Bool) :
    Closes (eat kind) ⟨⟨p :: r, vars, loops⟩, gap⟩ p.token := by
  have hkind : Place.kind? ⟨p :: r, vars, loops⟩ = some kind := congrArg some h
  exact .after (runs_current hkind gap)
    (.ite_left rfl ((closes_bump p r vars loops false).then_pure fun _ ↦ true))

end Rules

/-! ### Fields -/

/-- The attached fields are the tokens of their kind that follow. -/
theorem takeWhile_of_fields {gap spaced : Bool} {fs r : List Piece} (hfields : Fields gap fs spaced)
    (hnext : ∀ vars loops, View.adjacent ⟨⟨r, vars, loops⟩, spaced⟩ ≠ some .field)
    {ts : List Token} (hgap : gapOf ts = gap) (hpieces : pieces ts = fs ++ r) :
    ts.takeWhile (·.kind = .field) = tokensOf fs ∧
      pieces (ts.dropWhile (·.kind = .field)) = r ∧
      gapOf (ts.dropWhile (·.kind = .field)) = spaced := by
  induction hfields generalizing ts with
  | nil =>
    have hhead : ts.head?.map (·.kind) ≠ some .field := by
      have hview := adjacent_view { rest := ts, stop := 0, scanError := none, vars := [] }
      rw [show State.view _ = ⟨⟨pieces ts, [], 0⟩, gapOf ts⟩ from rfl, hpieces, hgap] at hview
      exact fun h ↦ hnext [] 0 (hview.symm.trans h)
    cases ts with
    | nil => exact ⟨rfl, hpieces, hgap⟩
    | cons t ts =>
      have ht : t.kind ≠ .field := by simpa using hhead
      rw [List.takeWhile_cons_of_neg (by simpa using ht),
        List.dropWhile_cons_of_neg (by simpa using ht)]
      exact ⟨rfl, hpieces, hgap⟩
  | @cons f fs spaced hkind _ ih =>
    cases ts with
    | nil => exact absurd hpieces (by simp [pieces])
    | cons t ts =>
      have ht : t.isTrivia = false := hgap
      rw [pieces, if_neg (by rw [ht]; exact Bool.false_ne_true)] at hpieces
      obtain ⟨rfl, hrest⟩ := List.cons.inj hpieces
      have hkind : t.kind = .field := hkind
      obtain ⟨htaken, hdropped, hgap'⟩ := ih hnext rfl hrest
      rw [List.takeWhile_cons_of_pos (by simpa using hkind),
        List.dropWhile_cons_of_pos (by simpa using hkind), htaken]
      exact ⟨rfl, hdropped, hgap'⟩

section Fields

variable {gap spaced : Bool} {fs r : List Piece} {vars : List String} {loops : Nat}
  (hfields : Fields gap fs spaced)
  (hnext : View.adjacent ⟨⟨r, vars, loops⟩, spaced⟩ ≠ some .field)

/-- Fields are tokens of one kind. -/
theorem kind_of_fields {gap spaced : Bool} {fs : List Piece} (h : Fields gap fs spaced)
    {t : Token} (ht : t ∈ tokensOf fs) : t.kind = .field := by
  induction h with
  | nil => exact absurd ht List.not_mem_nil
  | cons hkind _ ih =>
    rcases List.mem_cons.mp ht with rfl | ht
    · exact hkind
    · exact ih ht

/-- Fields pass each test that their kind passes. -/
theorem filter_of_fields {gap spaced : Bool} {fs : List Piece} (h : Fields gap fs spaced)
    {q : Token → Bool} (hq : ∀ t : Token, t.kind = .field → q t) :
    (tokensOf fs).filter q = tokensOf fs :=
  List.filter_eq_self.mpr fun _ ht ↦ hq _ (kind_of_fields h ht)

include hfields hnext

/-- All attached fields are taken at once, with nothing in front of them. -/
theorem takeAll_apply_of_fields {s : State} (hv : s.view = ⟨⟨fs ++ r, vars, loops⟩, gap⟩) :
    ∃ rest, takeAll .field s = ((), { s.settle with
        rest, built := (tokensOf fs).reverse.map .leaf ++ s.settle.built }) ∧
      s.rest = tokensOf fs ++ rest ∧ pieces rest = r ∧ gapOf rest = spaced := by
  obtain ⟨htaken, hdropped, hgap⟩ := takeWhile_of_fields hfields (fun _ _ ↦ hnext)
    (show gapOf s.rest = gap from congrArg View.gap hv) (congrArg (·.place.ahead) hv)
  refine ⟨s.rest.dropWhile (·.kind = .field), ?_, ?_, hdropped, hgap⟩
  · rw [← htaken]
    rfl
  · rw [← htaken, List.takeWhile_append_dropWhile]

/-- A run over attached fields. -/
theorem runs_takeAll : Runs (takeAll .field) ⟨⟨fs ++ r, vars, loops⟩, gap⟩ ()
    ((tokensOf fs).map .token) ⟨⟨r, vars, loops⟩, spaced⟩ := by
  intro s hs hspaces hv
  obtain ⟨rest, happly, hrest, rfl, rfl⟩ := takeAll_apply_of_fields hfields hnext hv
  have hsolid : (tokensOf fs).filter (!·.isTrivia) = tokensOf fs :=
    filter_of_fields hfields fun t ht ↦ by rw [Token.isTrivia, ht]; rfl
  have hvars : s.vars = vars := congrArg (·.place.vars) hv
  have hloops : s.loops = loops := congrArg (·.place.loops) hv
  refine Ran.congr (q := fun s ↦ ((), { s.settle with
    rest, built := (tokensOf fs).reverse.map .leaf ++ s.settle.built })) happly
    ⟨rfl, hs, ?_, ?_, growsTo_settle_take s hrest⟩
  · rw [← hvars, ← hloops]
    rfl
  · rw [State.shown, List.reverse_append, ← List.map_reverse, List.reverse_reverse, shown_append,
      shown_map_leaf, hsolid, ← shown_settle hspaces]
    rfl

/-- The last of the fields stands at the end of the tree. -/
theorem endsAt_takeAll {s : State} {t : Token} (h : s.EndsAt t)
    (hv : s.view = ⟨⟨fs ++ r, vars, loops⟩, gap⟩) :
    (takeAll .field s).2.EndsAt ((tokensOf fs).getLastD t) := by
  obtain ⟨rest, happly, -, -, -⟩ := takeAll_apply_of_fields hfields hnext hv
  have hsettle : s.settle.built = s.built := by
    rw [State.settle, h.pending]
    rfl
  rw [happly]
  refine ⟨rfl, ?_⟩
  change ((tokensOf fs).reverse.map Tree.leaf ++ s.settle.built).head? = _
  rw [hsettle, List.head?_append, h.built, List.head?_map, List.head?_reverse,
    List.getLastD_eq_getLast?]
  cases (tokensOf fs).getLast? <;> rfl

variable {c : OperandClass} (hclass : fs ≠ [] → c = .executable)

include hclass

/-- Where a field is attached, all are taken, and nothing otherwise. -/
theorem operandFields_apply {s : State} (hs : s.error = none)
    (hv : s.view = ⟨⟨fs ++ r, vars, loops⟩, gap⟩) (text : String) :
    operandFields c text s = if fs = [] then ((), s) else takeAll .field s := by
  have hadjacent : s.rest.head?.map (·.kind) = View.adjacent ⟨⟨fs ++ r, vars, loops⟩, gap⟩ := by
    rw [adjacent_view, hv]
  have hunfold : operandFields c text s =
      if s.rest.head?.map (·.kind) = some .field then
        if c = .executable then takeAll .field s else fail (.fieldAfterTerm text) s
      else ((), s) := by
    simp only [operandFields, bind_apply, failed_apply, hs, Option.isSome_none, Bool.false_eq_true,
      if_false]
    change (if s.rest.head?.map (·.kind) = some .field then _ else _ : Parser Unit) s = _
    split
    · split <;> rfl
    · rfl
  rw [hunfold, hadjacent]
  cases hfields with
  | nil =>
    rw [List.nil_append, if_neg hnext, if_pos rfl]
  | cons hkind _ =>
    rw [if_pos (by simpa [View.adjacent, Place.kind?] using hkind),
      if_pos (hclass (List.cons_ne_nil _ _)), if_neg (List.cons_ne_nil _ _)]

/-- A run over the fields of an operand, if there are any. -/
theorem runs_operandFields (text : String) :
    Runs (operandFields c text) ⟨⟨fs ++ r, vars, loops⟩, gap⟩ () ((tokensOf fs).map .token)
      ⟨⟨r, vars, loops⟩, spaced⟩ := by
  intro s hs hspaces hv
  have happly := operandFields_apply hfields hnext hclass hs hv text
  split at happly
  next hnil =>
    subst hnil
    cases hfields
    exact (runs_pure () _ s hs hspaces hv).congr happly
  next => exact (runs_takeAll hfields hnext s hs hspaces hv).congr happly

/-- Behind the fields of an operand the last of them stands at the end of the tree. -/
theorem endsAt_operandFields {s : State} {t : Token} (hs : s.error = none) (h : s.EndsAt t)
    (hv : s.view = ⟨⟨fs ++ r, vars, loops⟩, gap⟩) (text : String) :
    (operandFields c text s).2.EndsAt ((tokensOf fs).getLastD t) := by
  rw [operandFields_apply hfields hnext hclass hs hv text]
  split
  next hnil =>
    subst hnil
    exact h
  next => exact endsAt_takeAll hfields hnext h hv

/-- Fields behind what takes a token last. -/
theorem closes_operandFields {p : Parser Unit} {v : View} {parts : List Part} {t : Token}
    (hp : Runs p v () parts ⟨⟨fs ++ r, vars, loops⟩, gap⟩) (hclose : Closes p v t) (text : String) :
    Closes (p >>= fun _ ↦ operandFields c text) v ((tokensOf fs).getLastD t) := by
  intro s hs hspaces hv
  obtain ⟨-, herror, hu, -, -⟩ := hp s hs hspaces hv
  exact endsAt_operandFields hfields hnext hclass herror (hclose s hs hspaces hv) hu text

end Fields

/-! ### Operands -/

/-- A run over the first token of an operand, which is taken last. -/
theorem runs_operandHead {vars : List String} {p : Piece}
    (h : operandFault? vars p.kind p.text = none) (r : List Piece) (loops : Nat) (gap : Bool) :
    Runs (operandHead p.kind p.text) ⟨⟨p :: r, vars, loops⟩, gap⟩ () [.token p.token]
      ⟨⟨r, vars, loops⟩, p.spaced⟩ ∧
    Closes (operandHead p.kind p.text) ⟨⟨p :: r, vars, loops⟩, gap⟩ p.token := by
  have happly : ∀ s : State, s.view = ⟨⟨p :: r, vars, loops⟩, gap⟩ →
      operandHead p.kind p.text s = bump s := by
    intro s hv
    have hvars : s.vars = vars := congrArg (·.place.vars) hv
    simp only [operandHead, bind_apply, get_apply, hvars, h]
  refine ⟨fun s hs hspaces hv ↦ (runs_bump p r vars loops gap s hs hspaces hv).congr (happly s hv),
    fun s hs hspaces hv ↦ ?_⟩
  rw [happly s hv]
  exact closes_bump p r vars loops gap s hs hspaces hv

/-- The span of a node whose last child is a token. -/
theorem span?_node {kind : NodeKind} {children : List Tree} {first last : Token}
    (rest : List Token) (hfirst : (leavesOf children ++ rest).head? = some first)
    (hlast : children.getLast? = some (.leaf last)) :
    (Tree.node kind children).span? = some ⟨first.start, last.stop⟩ := by
  obtain ⟨front, rfl⟩ := List.getLast?_eq_some_iff.mp hlast
  have hleaves : leavesOf (front ++ [.leaf last]) = leavesOf front ++ [last] := by
    rw [leavesOf_append, leavesOf_cons, leavesOf_nil, leaves_leaf, List.append_nil]
  have hfirst : (leavesOf front ++ [last]).head? = some first := by
    rw [hleaves, List.head?_append_of_ne_nil _ (by simp)] at hfirst
    exact hfirst
  rw [span?, first?_eq, last?_eq, leaves_node, hleaves, hfirst, List.getLast?_concat]
  rfl

/-- The node of an operand, by what is taken in it and by the token that is taken last. -/
theorem runs_operandNode {inner : Parser Unit} {p : Piece} {r : List Piece} {vars : List String}
    {loops : Nat} {nodeKind : NodeKind} {c : OperandClass} {parts : List Part} {last : Token}
    {w : View} {o : Template.Operand} (hkind : operandOf? p.kind = some (nodeKind, c))
    (hstages : Runs (operandStages inner p.kind c p.text) ⟨⟨p :: r, vars, loops⟩, false⟩ () parts w)
    (hclose : Closes (operandStages inner p.kind c p.text) ⟨⟨p :: r, vars, loops⟩, false⟩ last)
    (hpart : ∀ tree : Tree, tree.span? = some ⟨p.token.start, last.stop⟩ →
      assemble nodeKind tree parts = .operand o) (gap : Bool) :
    Runs (operand inner) ⟨⟨p :: r, vars, loops⟩, gap⟩ (some c) [.operand o] w := by
  intro s hs hspaces hv
  have hplace : s.place = ⟨p :: r, vars, loops⟩ := congrArg View.place hv
  obtain ⟨rest, hrest, -, -⟩ := exists_look_rest (congrArg Place.ahead hplace)
  have hinside : s.look.inside.view = ⟨⟨p :: r, vars, loops⟩, false⟩ := by
    rw [← hplace]
    exact view_look s
  have hran := hstages s.look.inside hs rfl hinside
  obtain ⟨hpending, hbuilt⟩ := hclose s.look.inside hs rfl hinside
  obtain ⟨added, hadded, hleaves, -⟩ := hran.grows.trees
  have hchildren : (operandStages inner p.kind c p.text s.look.inside).2.built.reverse = added := by
    rw [hadded]
    exact (congrArg List.reverse (List.append_nil _)).trans (List.reverse_reverse _)
  have hspan : (Tree.node nodeKind added).span? = some ⟨p.token.start, last.stop⟩ := by
    refine span?_node (operandStages inner p.kind c p.text s.look.inside).2.rest ?_ ?_
    · rw [hpending, List.append_nil] at hleaves
      rw [hleaves]
      exact congrArg List.head? hrest
    · rw [← hchildren, List.getLast?_reverse]
      exact hbuilt
  have hparts : Outline.shown added = parts := by
    rw [← hchildren]
    exact hran.shown
  have hnode : Ran (node nodeKind (operandStages inner p.kind c p.text)) s.look ()
      [.operand o] w := by
    refine hran.node ((growsTo_look s).pending hspaces) (isFrame_of_operandOf? hkind)
      (fun _ hnil ↦ ?_) ?_
    · rw [span?, first?_eq, leaves_node, ← hchildren, hnil] at hspan
      exact absurd hspan (by simp)
    · rw [hchildren, shown_operand (isOperand_of_operandOf? hkind), hparts, hpart _ hspan]
  obtain ⟨-, herror, hw, hshown, hgrows⟩ := hnode
  exact Ran.congr (q := fun s ↦ (some c,
      (node nodeKind (operandStages inner p.kind c p.text) s.look).2))
    (operand_apply_of_some inner (by rw [hrest]; rfl) hkind)
    ⟨rfl, herror, hw, hshown, (growsTo_look s).trans hgrows⟩

/-! ### Terms -/

/-- Parts that are tokens are these tokens. -/
theorem filterMap_token? (ts : List Token) : (ts.map Part.token).filterMap Part.token? = ts := by
  rw [List.filterMap_map]
  exact List.filterMap_some

/-- Pieces reach from the start of the first to the end of the last. -/
theorem extentOf_cons (p : Piece) (ps : List Piece) :
    extentOf (p :: ps) = ⟨p.token.start, ((tokensOf ps).getLastD p.token).stop⟩ := by
  induction ps generalizing p with
  | nil => rfl
  | cons q ps ih =>
    have hlast := congrArg (·.stop) (ih q)
    rw [extentOf, List.getLast?_cons_cons, tokensOf, List.map_cons, List.getLastD_cons]
    exact congrArg (fun stop ↦ (⟨p.token.start, stop⟩ : Text.Span)) hlast

/-- A token with its fields is an operand with the term of the token. -/
theorem assemble_atom {vars : List String} {p : Piece} (fs : List Piece) {c : OperandClass}
    {nodeKind : NodeKind} (hkind : operandOf? p.kind = some (nodeKind, c))
    (hatom : Atom vars p c) {tree : Tree} {span : Text.Span} (hspan : tree.span? = some span) :
    assemble nodeKind tree ((tokensOf (p :: fs)).map .token) =
      .operand (.mk (termOf p.token) span (fieldsOf (p :: fs))) := by
  have htokens : ∀ kind : TokenKind, Outline.tokensOf kind ((tokensOf (p :: fs)).map .token) =
      (p.token :: tokensOf fs).filter (·.kind = kind) := fun kind ↦
    congrArg (List.filter _) (filterMap_token? _)
  have hhead : p.token.isTrivia = false →
      (((tokensOf (p :: fs)).map Part.token).filterMap Part.token?).find? (!·.isTrivia) =
        some p.token := by
    intro hsolid
    rw [filterMap_token?, tokensOf, List.map_cons, List.find?_cons_of_pos (by simp [hsolid])]
  have hfields : fieldsOf (p :: fs) = (p.token :: tokensOf fs).filter (·.kind = .field) := rfl
  rw [hfields]
  unfold Piece.kind at hkind
  cases hatom with
  | function hkind' _ | inScope hkind' _ | field hkind' | dot hkind' =>
    unfold Piece.kind at hkind'
    rw [hkind'] at hkind
    obtain ⟨rfl, -⟩ := Prod.mk.inj (Option.some.inj hkind)
    simp only [assemble, hspan, Option.getD_some, htokens, termOf, hkind', decide_true,
      List.filter_cons_of_pos, List.head?_cons]
  | nil hkind' | bool hkind' | char hkind' _ | number hkind' =>
    unfold Piece.kind at hkind'
    rw [hkind'] at hkind
    obtain ⟨rfl, -⟩ := Prod.mk.inj (Option.some.inj hkind)
    have hsolid : p.token.isTrivia = false := by
      rw [Token.isTrivia, hkind']
      rfl
    simp only [assemble, hspan, Option.getD_some, htokens, termOf, hkind', hhead hsolid]
  | string hkind' _ =>
    unfold Piece.kind at hkind'
    rcases hkind' with hkind' | hkind'
    all_goals
      rw [hkind'] at hkind
      obtain ⟨rfl, -⟩ := Prod.mk.inj (Option.some.inj hkind)
      have hsolid : p.token.isTrivia = false := by
        rw [Token.isTrivia, hkind']
        rfl
      simp only [assemble, hspan, Option.getD_some, htokens, termOf, hkind', hhead hsolid]

/-! ### Operands -/

section Operands

variable {inner : Parser Unit} {vars : List String} {loops : Nat} {spaced : Bool}
  {fs r : List Piece}

/-- The first two stages, then the fields. -/
theorem operandStages_eq (kind : TokenKind) (c : OperandClass) (text : String) :
    operandStages inner kind c text = (operandHead kind text >>= fun _ ↦ operandBody inner kind) >>=
      fun _ ↦ operandFields c text := rfl

/-- A run over an operand of one token, with its fields. -/
theorem runs_atom {p : Piece} {c : OperandClass} (hatom : Atom vars p c)
    (hfields : Fields p.spaced fs spaced) (hclass : fs ≠ [] → c = .executable)
    (hnext : View.adjacent ⟨⟨r, vars, loops⟩, spaced⟩ ≠ some .field) (gap : Bool) :
    Runs (operand inner) ⟨⟨p :: fs ++ r, vars, loops⟩, gap⟩ (some c)
      [.operand (.mk (termOf p.token) (extentOf (p :: fs)) (fieldsOf (p :: fs)))]
      ⟨⟨r, vars, loops⟩, spaced⟩ := by
  have hparen := kind_ne_of_atom hatom
  obtain ⟨⟨nodeKind, c'⟩, hkind⟩ :=
    Option.isSome_iff_exists.mp ((startsOperand_iff p.kind).mp (startsOperand_of_atom hatom))
  obtain ⟨rfl, hfault⟩ := (atom_iff hkind hparen).mp hatom
  have hhead : (operandHead p.kind p.text >>= fun _ ↦ operandBody inner p.kind) =
      operandHead p.kind p.text := by
    rw [operandBody, if_neg hparen]
    exact bind_pure_unit
  obtain ⟨hruns, hclose⟩ := runs_operandHead hfault (fs ++ r) loops false
  have hstages : Runs (operandStages inner p.kind c p.text) ⟨⟨p :: (fs ++ r), vars, loops⟩, false⟩
      () ((tokensOf (p :: fs)).map .token) ⟨⟨r, vars, loops⟩, spaced⟩ := by
    rw [operandStages_eq, hhead]
    exact hruns.bind (runs_operandFields hfields hnext hclass p.text)
  have hclosed : Closes (operandStages inner p.kind c p.text)
      ⟨⟨p :: (fs ++ r), vars, loops⟩, false⟩ ((tokensOf fs).getLastD p.token) := by
    rw [operandStages_eq, hhead]
    exact closes_operandFields hfields hnext hclass hruns hclose p.text
  refine runs_operandNode hkind hstages hclosed (fun tree hspan ↦ ?_) gap
  rw [assemble_atom fs hkind hatom hspan, extentOf_cons]

/-- What stands in a parenthesis shows as its pipeline. -/
theorem runs_paren {vars' : List String} {left right : Piece} {ps : List Piece}
    {pl : Template.Pipeline} {gap' : Bool} (hleft : left.kind = .parenOpen)
    (hinner : Runs inner ⟨⟨ps ++ right :: (fs ++ r), vars, loops⟩, left.spaced⟩ () [.pipeline pl]
      ⟨⟨right :: (fs ++ r), vars', loops⟩, gap'⟩)
    (hright : right.kind = .parenClose) (hfields : Fields right.spaced fs spaced)
    (hnext : View.adjacent ⟨⟨r, vars', loops⟩, spaced⟩ ≠ some .field) (gap : Bool) :
    Runs (operand inner) ⟨⟨left :: ps ++ right :: (fs ++ r), vars, loops⟩, gap⟩ (some .executable)
      [.operand (.mk (.paren (some pl)) (extentOf (left :: ps ++ right :: fs)) (fieldsOf fs))]
      ⟨⟨r, vars', loops⟩, spaced⟩ := by
  have hkind : operandOf? left.kind = some (.paren, .executable) := by
    rw [hleft]
    rfl
  have hclass : fs ≠ [] → OperandClass.executable = .executable := fun _ ↦ rfl
  have hlast : extentOf (left :: ps ++ right :: fs) =
      ⟨left.token.start, ((tokensOf fs).getLastD right.token).stop⟩ := by
    have hright := congrArg (·.stop) (extentOf_cons right fs)
    rw [extentOf, List.getLast?_append_of_ne_nil _ (List.cons_ne_nil _ _)]
    exact congrArg (fun stop ↦ (⟨left.token.start, stop⟩ : Text.Span)) hright
  have hfault : operandFault? vars left.kind left.text = none := by
    rw [hleft]
    rfl
  obtain ⟨hhead, -⟩ := runs_operandHead hfault (ps ++ right :: (fs ++ r)) loops false
  have hend : Runs (do let _ ← eat .parenClose) ⟨⟨right :: (fs ++ r), vars', loops⟩, gap'⟩ ()
      [.token right.token] ⟨⟨fs ++ r, vars', loops⟩, right.spaced⟩ :=
    (runs_eat hright (fs ++ r) vars' loops gap').bind (runs_pure () _)
  have hbody : Runs (operandBody inner left.kind) ⟨⟨ps ++ right :: (fs ++ r), vars, loops⟩,
      left.spaced⟩ () ([.pipeline pl] ++ [.token right.token])
      ⟨⟨fs ++ r, vars', loops⟩, right.spaced⟩ :=
    .ite_left hleft (hinner.bind (.unless_failed hend))
  have hruns := hhead.bind (f := fun _ ↦ operandBody inner left.kind) hbody
  have hclose : Closes (operandHead left.kind left.text >>= fun _ ↦ operandBody inner left.kind)
      ⟨⟨left :: (ps ++ right :: (fs ++ r)), vars, loops⟩, false⟩ right.token :=
    .after hhead (.ite_left hleft (.after hinner (.unless_failed
      ((closes_eat hright (fs ++ r) vars' loops gap').then_pure fun _ ↦ ()))))
  have hstages := hruns.bind (f := fun _ ↦ operandFields .executable left.text)
    (runs_operandFields hfields hnext hclass left.text)
  have hclosed := closes_operandFields hfields hnext hclass hruns hclose left.text
  refine runs_operandNode hkind hstages hclosed (fun tree hspan ↦ ?_) gap
  have htokens : ([Part.token left.token] ++ ([Part.pipeline pl] ++ [Part.token right.token]) ++
      (tokensOf fs).map Part.token).filterMap Part.token? =
        left.token :: right.token :: tokensOf fs :=
    congrArg (fun ts ↦ left.token :: right.token :: ts) (filterMap_token? _)
  have hfieldTokens : Outline.tokensOf .field ([Part.token left.token] ++
      ([Part.pipeline pl] ++ [Part.token right.token]) ++ (tokensOf fs).map Part.token) =
        fieldsOf fs := by
    unfold Piece.kind at hleft hright
    rw [Outline.tokensOf, htokens, List.filter_cons_of_neg (by simp [hleft]),
      List.filter_cons_of_neg (by simp [hright])]
    rfl
  rw [assemble, hspan, hlast, hfieldTokens]
  rfl

end Operands

end AlertAudit.Template.Parser
