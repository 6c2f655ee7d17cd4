import AlertAudit.Proofs.Template.Grammar
import AlertAudit.Proofs.Template.Growth

/-!
What a part of the parser does to its input, when it finds no fault. `Means` says it as a relation
between what is seen of the state in front and behind, the `Place`: the relation holds exactly if
the part comes to its end without an error. Meanings are put together in step with the parser, so
that a production is compared with its rule of the grammar as one relation with another.
-/

set_option autoImplicit false

namespace AlertAudit.Template

/-! ### Pieces -/

/-- White space in front makes no pieces. -/
theorem pieces_dropWhile (ts : List Token) : pieces (ts.dropWhile (·.isTrivia)) = pieces ts := by
  induction ts with
  | nil => rfl
  | cons t ts ih =>
    by_cases ht : t.isTrivia
    · rw [List.dropWhile_cons_of_pos ht, ih, pieces, if_pos ht]
    · rw [List.dropWhile_cons_of_neg ht]

/-- The first piece is the first token that is no white space. -/
theorem head?_pieces (ts : List Token) :
    (pieces ts).head?.map (·.token) = ts.find? (!·.isTrivia) := by
  induction ts with
  | nil => rfl
  | cons t ts ih =>
    rw [pieces]
    by_cases ht : t.isTrivia
    · rw [if_pos ht, ih, List.find?_cons_of_neg (by simp [ht])]
    · rw [if_neg ht, List.head?_cons, Option.map_some, List.find?_cons_of_pos (by simp [ht])]

/-- Behind some tokens there are no more pieces than with them. -/
theorem length_pieces_append (ts us : List Token) :
    (pieces us).length ≤ (pieces (ts ++ us)).length := by
  induction ts with
  | nil => exact Nat.le_refl _
  | cons t ts ih =>
    rw [List.cons_append, pieces]
    split
    · exact ih
    · exact Nat.le_succ_of_le ih

namespace Parser

variable {α β : Type} {V W X : Type}

/-- What matters of a state for whether a template is accepted. -/
structure Place where
  /-- The tokens in front, other than white space. -/
  ahead : List Piece
  vars : List String
  loops : Nat

/-- A place, and whether white space comes next. -/
structure View where
  place : Place
  gap : Bool

def Place.kind? (v : Place) : Option TokenKind := v.ahead.head?.map Piece.kind

def Place.text (v : Place) : String := (v.ahead.head?.map Piece.text).getD ""

def Place.tail (v : Place) : Place := { v with ahead := v.ahead.tail }

/-- The kind of what comes right next. -/
def View.adjacent (v : View) : Option TokenKind :=
  if v.gap then some .whitespace else v.place.kind?

def State.place (s : State) : Place := ⟨pieces s.rest, s.vars, s.loops⟩

def State.view (s : State) : View := ⟨s.place, s.rest.head?.any (·.isTrivia)⟩

/-- To look past white space changes no place. -/
theorem place_look (s : State) : s.look.place = s.place := by
  rw [State.place, State.place, ← pieces_dropWhile s.rest]
  rfl

/-- Behind white space no more of it is seen. -/
theorem view_look (s : State) : s.look.view = ⟨s.place, false⟩ := by
  have hhead := all_head?_look s
  rw [State.view, place_look]
  cases hrest : s.look.rest.head? with
  | none => rfl
  | some t =>
    rw [hrest, Option.all_some, Bool.not_eq_true'] at hhead
    rw [Option.any_some, hhead]

/-- What is next once the white space has been looked past. -/
theorem ahead_of_look_cons {s : State} {token : Token} {rest : List Token}
    (h : s.look.rest = token :: rest) :
    s.place.ahead = ⟨token, rest.head?.any (·.isTrivia)⟩ :: pieces rest := by
  have hhead := all_head?_look s
  rw [h, List.head?_cons, Option.all_some, Bool.not_eq_true'] at hhead
  rw [← place_look, State.place, h, pieces, if_neg (by rw [hhead]; exact Bool.false_ne_true)]

/-- At the end of the input there are no pieces ahead. -/
theorem ahead_of_look_nil {s : State} (h : s.look.rest = []) : s.place.ahead = [] := by
  rw [← place_look, State.place, h]
  rfl

/-- The next token is the next piece. -/
theorem kind?_place (s : State) : s.look.rest.head?.map (·.kind) = s.place.kind? := by
  rw [Place.kind?]
  cases hrest : s.look.rest with
  | nil => rw [ahead_of_look_nil hrest]; rfl
  | cons token rest => rw [ahead_of_look_cons hrest]; rfl

theorem text_place (s : State) : (s.look.rest.head?.map (·.text)).getD "" = s.place.text := by
  rw [Place.text]
  cases hrest : s.look.rest with
  | nil => rw [ahead_of_look_nil hrest]; rfl
  | cons token rest => rw [ahead_of_look_cons hrest]; rfl

/-- The second token is the second piece. -/
theorem kind?_tail_place (s : State) :
    (s.look.rest.tail.find? (!·.isTrivia)).map (·.kind) = s.place.tail.kind? := by
  rw [Place.kind?, Place.tail]
  cases hrest : s.look.rest with
  | nil => rw [ahead_of_look_nil hrest]; rfl
  | cons token rest =>
    rw [ahead_of_look_cons hrest, List.tail_cons, List.tail_cons, ← head?_pieces, Option.map_map]
    rfl

/-- What is adjacent is seen of the input. -/
theorem adjacent_view (s : State) : s.rest.head?.map (·.kind) = s.view.adjacent := by
  rw [View.adjacent, State.view, State.place, Place.kind?]
  cases hrest : s.rest with
  | nil => rfl
  | cons token rest =>
    rw [List.head?_cons, Option.any_some, pieces]
    cases ht : token.isTrivia with
    | true =>
      have hkind : token.kind = .whitespace := of_decide_eq_true ht
      rw [if_pos rfl, Option.map_some, hkind]
    | false => rfl

/-! ### Meanings -/

/-- From the states in `C`, `p` comes to its end without an error exactly as `R` says: `pre` is what
`R` sees of the state in front of `p`, and `post` what it sees of the state behind. -/
structure Means (pre : State → V) (post : State → W) (C : State → Prop) (p : Parser α)
    (R : V → α → W → Prop) : Prop where
  grows : Grows p
  run : ∀ s : State, s.error = none → C s → ∀ (a : α) (w : W),
    (p s).2.error = none ∧ (p s).1 = a ∧ post (p s).2 = w ↔ R (pre s) a w

def Anywhere : State → Prop := fun _ ↦ True

section Rules

variable {pre : State → V} {mid : State → X} {post : State → W} {C : State → Prop}

/-- Relations that say the same are the same meaning. -/
theorem Means.congr {p : Parser α} {R S : V → α → W → Prop} (h : Means pre post C p R)
    (hRS : ∀ v a w, R v a w ↔ S v a w) : Means pre post C p S :=
  ⟨h.grows, fun s hs hC a w ↦ (h.run s hs hC a w).trans (hRS _ a w)⟩

/-- What holds in more states holds in fewer. -/
theorem Means.mono {C D : State → Prop} {p : Parser α} {R : V → α → W → Prop}
    (h : Means pre post C p R) (hDC : ∀ s, D s → C s) : Means pre post D p R :=
  ⟨h.grows, fun s hs hD ↦ h.run s hs (hDC s hD)⟩

/-- A state with its result satisfies the relation. -/
theorem Means.sound {p : Parser α} {R : V → α → W → Prop} (h : Means pre post C p R) {s : State}
    (hs : s.error = none) (hC : C s) (ht : (p s).2.error = none) :
    R (pre s) (p s).1 (post (p s).2) :=
  (h.run s hs hC _ _).mp ⟨ht, rfl, rfl⟩

/-- One after the other. What follows need only have a meaning in the states that `p` leads to. -/
theorem Means.bind_on {D : α → State → Prop} {p : Parser α} {f : α → Parser β}
    {R : V → α → X → Prop} {S : α → X → β → W → Prop} (hp : Means pre mid C p R)
    (hf : ∀ a, Means mid post (D a) (f a) (S a))
    (hD : ∀ s : State, C s → R (pre s) (p s).1 (mid (p s).2) → s.GrowsTo (p s).2 →
      D (p s).1 (p s).2) :
    Means pre post C (p >>= f) fun v b w ↦ ∃ a u, R v a u ∧ S a u b w := by
  refine ⟨grows_bind hp.grows fun a ↦ (hf a).grows, fun s hs hC b w ↦ ?_⟩
  rw [bind_apply]
  constructor
  · rintro ⟨herror, hb, hw⟩
    have ht : (p s).2.error = none := ((hf _).grows _).error_eq_none herror
    have hR := hp.sound hs hC ht
    exact ⟨_, _, hR, ((hf _).run _ ht (hD s hC hR (hp.grows s)) b w).mp ⟨herror, hb, hw⟩⟩
  · rintro ⟨a, u, hR, hS⟩
    obtain ⟨ht, rfl, rfl⟩ := (hp.run s hs hC a u).mpr hR
    exact ((hf _).run _ ht (hD s hC hR (hp.grows s)) b w).mpr hS

/-- A part with another one behind it means both, with something in between. -/
theorem Means.bind {p : Parser α} {f : α → Parser β} {R : V → α → X → Prop}
    {S : α → X → β → W → Prop} (hp : Means pre mid C p R)
    (hf : ∀ a, Means mid post Anywhere (f a) (S a)) :
    Means pre post C (p >>= f) fun v b w ↦ ∃ a u, R v a u ∧ S a u b w :=
  hp.bind_on hf fun _ _ _ _ ↦ trivial

/-- A first part whose result and effect are functions of what is seen. -/
theorem Means.bind_eq {p : Parser α} {k : α → Parser β} {f : V → α} {g : V → X}
    {S : α → X → β → W → Prop} (hp : Means pre mid C p fun v a u ↦ a = f v ∧ u = g v)
    (hk : ∀ a, Means mid post Anywhere (k a) (S a)) :
    Means pre post C (p >>= k) fun v b w ↦ S (f v) (g v) b w := by
  refine (hp.bind hk).congr fun v b w ↦ ?_
  constructor
  · rintro ⟨_, _, ⟨rfl, rfl⟩, hS⟩
    exact hS
  · exact fun hS ↦ ⟨_, _, ⟨rfl, rfl⟩, hS⟩

/-- A first part whose effect is a function of what is seen. -/
theorem Means.then_eq {p : Parser Unit} {k : Unit → Parser β} {g : V → X}
    {S : X → β → W → Prop} (hp : Means pre mid C p fun v _ u ↦ u = g v)
    (hk : Means mid post Anywhere (k ()) S) :
    Means pre post C (p >>= k) fun v b w ↦ S (g v) b w := by
  refine (hp.bind fun _ ↦ hk).congr fun v b w ↦ ?_
  constructor
  · rintro ⟨_, _, rfl, hS⟩
    exact hS
  · exact fun hS ↦ ⟨(), _, rfl, hS⟩

/-- To return a value means that the place stays the same. -/
theorem means_pure (a : α) : Means pre pre C (pure a : Parser α) fun v b w ↦ b = a ∧ w = v :=
  ⟨grows_pure a, fun s hs _ b w ↦ by
    rw [pure_apply]
    simp only [hs, true_and, eq_comm]⟩

/-- What only reports that it is done. -/
theorem Means.returning {p : Parser Unit} {R : V → W → Prop} (a : α)
    (hp : Means pre post C p fun v _ w ↦ R v w) :
    Means pre post C (do p; return a) fun v b w ↦ b = a ∧ R v w := by
  refine (hp.bind fun _ ↦ means_pure a).congr fun v b w ↦ ?_
  constructor
  · rintro ⟨_, _, hR, rfl, rfl⟩
    exact ⟨rfl, hR⟩
  · rintro ⟨rfl, hR⟩
    exact ⟨(), w, hR, rfl, rfl⟩

/-- A choice means what the side means that is chosen. -/
theorem means_ite {c : Prop} [Decidable c] {p q : Parser α} {R S : V → α → W → Prop}
    (hp : Means pre post C p R) (hq : Means pre post C q S) :
    Means pre post C (if c then p else q) fun v a w ↦ if c then R v a w else S v a w := by
  split
  · exact hp
  · exact hq

/-- What comes after a look for errors is not kept from running. -/
theorem Means.unless_failed {p q : Parser α} {R : V → α → W → Prop} (hq : Grows q)
    (h : Means pre post C p R) :
    Means pre post C (do if ← failed then q else p) R := by
  refine ⟨grows_bind grows_failed fun _ ↦ grows_ite hq h.grows, fun s hs hC a w ↦ ?_⟩
  rw [bind_apply, failed_apply, hs]
  exact h.run s hs hC a w

/-- No failure comes to its end without an error. -/
theorem means_fail (cause : Cause) : Means pre post C (fail cause) fun _ _ _ ↦ False :=
  ⟨grows_fail cause, fun s _ _ _ _ ↦ by
    have herror := Option.isSome_iff_ne_none.mp (isSome_error_fail cause s)
    simp only [herror, false_and]⟩

/-- Neither does what is unexpected. -/
theorem means_unexpected (context : Context) :
    Means pre post C (unexpected context) fun _ _ _ ↦ False :=
  ⟨grows_unexpected context, fun s _ _ _ _ ↦ by
    have herror := Option.isSome_iff_ne_none.mp (isSome_error_unexpected context s)
    simp only [herror, false_and]⟩

/-- Nothing comes to its end behind an error. -/
theorem Means.bind_false {p : Parser α} {f : α → Parser β}
    (hp : Means pre pre C p fun _ _ _ ↦ False) (hf : ∀ a, Grows (f a)) :
    Means pre post C (p >>= f) fun _ _ _ ↦ False := by
  refine ⟨grows_bind hp.grows hf, fun s hs hC _ _ ↦ ⟨?_, False.elim⟩⟩
  rintro ⟨herror, -, -⟩
  exact hp.sound hs hC ((hf _ _).error_eq_none herror)

/-- A step that always does the same to what is seen of the state. -/
theorem means_of_apply {p : Parser α} {f : V → α} {g : V → W} (hgrows : Grows p)
    (happly : ∀ s, (p s).2.error = s.error ∧ (p s).1 = f (pre s) ∧ post (p s).2 = g (pre s)) :
    Means pre post C p fun v a w ↦ a = f v ∧ w = g v :=
  ⟨hgrows, fun s hs _ a w ↦ by
    obtain ⟨herror, ha, hw⟩ := happly s
    rw [herror, ha, hw]
    simp only [hs, true_and, eq_comm]⟩

/-- What is known with the white space is known without it. -/
theorem Means.post_place {p : Parser α} {R : V → α → View → Prop}
    (h : Means pre State.view C p R) :
    Means pre State.place C p fun v a w ↦ ∃ gap, R v a ⟨w, gap⟩ := by
  refine ⟨h.grows, fun s hs hC a w ↦ ?_⟩
  constructor
  · rintro ⟨herror, rfl, rfl⟩
    exact ⟨_, h.sound hs hC herror⟩
  · rintro ⟨gap, hR⟩
    obtain ⟨herror, ha, hw⟩ := (h.run s hs hC a _).mpr hR
    exact ⟨herror, ha, congrArg View.place hw⟩

/-- What does not depend on white space in front has its meaning there, too. -/
theorem Means.pre_view {p : Parser α} {R : Place → α → W → Prop}
    (h : Means State.place post C p R) :
    Means State.view post C p fun v a w ↦ R v.place a w :=
  ⟨h.grows, fun s hs hC a w ↦ h.run s hs hC a w⟩

/-- A meaning in front of which white space does not matter is one of places. -/
theorem Means.of_pre_view {p : Parser α} {R : Place → α → W → Prop}
    (h : Means State.view post C p fun v a w ↦ R v.place a w) : Means State.place post C p R :=
  ⟨h.grows, fun s hs hC a w ↦ h.run s hs hC a w⟩

/-- What does not depend on the tree under construction. -/
def Blind (f : State → V) : Prop :=
  ∀ (s : State) (pending : List Token) (built : List Tree), f { s with pending, built } = f s

/-- A node does what the part inside of it does. -/
theorem Means.run_node {p : Parser α} {R : V → α → W → Prop} (h : Means pre post C p R)
    (hpre : Blind pre) (hpost : Blind post) (hC : Blind C) (kind : NodeKind) {s : State}
    (hs : s.error = none) (hCs : C s) (a : α) (w : W) :
    (Parser.node kind p s).2.error = none ∧ (Parser.node kind p s).1 = a ∧
      post (Parser.node kind p s).2 = w ↔ R (pre s) a w := by
  have hinner := h.run { s.settle with built := [] } hs ((hC s [] []).mpr hCs) a w
  rw [show pre { s.settle with built := [] } = pre s from hpre s [] []] at hinner
  rw [node_apply, ← hinner, hpost _ _ _]

/-- A node means what stands inside of it. -/
theorem Means.node {kind : NodeKind} {p : Parser α} {R : V → α → W → Prop} (hpre : Blind pre)
    (hpost : Blind post) (hC : Blind C) (hframe : kind.isFrame = false)
    (hoperand : kind.isOperand = false) (h : Means pre post C p R) :
    Means pre post C (node kind p) R :=
  ⟨grows_node hframe hoperand h.grows, fun _ hs hCs ↦ h.run_node hpre hpost hC kind hs hCs⟩

end Rules

/-- Trees do not matter for the place. -/
theorem blind_place : Blind State.place := fun _ _ _ ↦ rfl

theorem blind_view : Blind State.view := fun _ _ _ ↦ rfl

theorem blind_anywhere : Blind Anywhere := fun _ _ _ ↦ rfl

/-! ### Primitives -/

section Primitives

variable {C : State → Prop}

/-- The next kind is that of the next piece, and white space is looked past. -/
theorem means_current_view :
    Means State.place State.view C current fun v k w ↦ k = v.kind? ∧ w = ⟨v, false⟩ :=
  means_of_apply grows_current fun s ↦ ⟨rfl, kind?_place s, view_look s⟩

theorem means_current : Means State.place State.place C current fun v k w ↦ k = v.kind? ∧ w = v :=
  means_of_apply grows_current fun s ↦ ⟨rfl, kind?_place s, place_look s⟩

theorem means_currentText :
    Means State.place State.place C currentText fun v t w ↦ t = v.text ∧ w = v :=
  means_of_apply grows_currentText fun s ↦ ⟨rfl, text_place s, place_look s⟩

/-- The second kind is that of the second piece. -/
theorem means_second :
    Means State.place State.place C second fun v k w ↦ k = v.tail.kind? ∧ w = v :=
  means_of_apply grows_second fun s ↦ ⟨rfl, kind?_tail_place s, place_look s⟩

/-- The adjacent kind is seen where it is. -/
theorem means_adjacent :
    Means State.view State.view C adjacent fun v k w ↦ k = v.adjacent ∧ w = v :=
  means_of_apply grows_adjacent fun s ↦ ⟨rfl, adjacent_view s, rfl⟩

theorem means_pure_place {α : Type} (a : α) :
    Means State.view State.place C (pure a : Parser α) fun v b w ↦ b = a ∧ w = v.place :=
  (means_pure a).post_place.congr fun v b w ↦ by
    obtain ⟨place, gap⟩ := v
    simp

/-- The view behind the next token. -/
def Place.bumped (v : Place) : View := ⟨v.tail, v.ahead.head?.any Piece.spaced⟩

/-- The view behind a token is that of the next piece, with its note. -/
theorem view_bump (s : State) : (bump s).2.view = s.place.bumped := by
  cases hrest : s.look.rest with
  | nil =>
    have hplace : s.place = ⟨[], s.vars, s.loops⟩ := by
      rw [← ahead_of_look_nil hrest]
      rfl
    rw [bump_apply_of_nil hrest, view_look, hplace]
    rfl
  | cons token rest =>
    rw [bump_apply_of_cons hrest, Place.bumped, Place.tail, ahead_of_look_cons hrest]
    rfl

/-- The place behind a token is the one behind the next piece. -/
theorem place_bump (s : State) : (bump s).2.place = s.place.tail :=
  congrArg View.place (view_bump s)

/-- To take a token records no error. -/
theorem error_bump (s : State) : (bump s).2.error = s.error := by
  cases hrest : s.look.rest with
  | nil =>
    rw [bump_apply_of_nil hrest]
    rfl
  | cons token rest =>
    rw [bump_apply_of_cons hrest]
    rfl

theorem means_bump_view :
    Means State.place State.view C bump fun v _ w ↦ w = v.bumped :=
  (means_of_apply (f := fun _ ↦ ()) grows_bump fun s ↦ ⟨error_bump s, rfl, view_bump s⟩).congr
    fun _ _ _ ↦ by simp

theorem means_bump : Means State.place State.place C bump fun v _ w ↦ w = v.tail :=
  means_bump_view.post_place.congr fun v _ w ↦ by
    simp [Place.bumped]

/-- A token that may come is taken if it is of the kind. -/
theorem means_eat_view (kind : TokenKind) :
    Means State.place State.view C (eat kind) fun v b w ↦
      if v.kind? = some kind then b = true ∧ w = v.bumped else b = false ∧ w = ⟨v, false⟩ := by
  refine (means_current_view.bind fun k ↦ means_ite
    (means_bump_view.pre_view.bind fun _ ↦ means_pure true) (means_pure false)).congr fun v b w ↦ ?_
  by_cases hkind : v.kind? = some kind
  · simp [hkind]
  · simp [hkind]

theorem means_eat (kind : TokenKind) :
    Means State.place State.place C (eat kind) fun v b w ↦
      if v.kind? = some kind then b = true ∧ w = v.tail else b = false ∧ w = v := by
  refine (means_eat_view kind).post_place.congr fun v b w ↦ ?_
  by_cases hkind : v.kind? = some kind
  · simp [hkind, Place.bumped]
  · simp [hkind]

/-- A token that has to come is of the kind, or there is an error. -/
theorem means_expect (kind : TokenKind) (context : Context) :
    Means State.place State.place C (expect kind context) fun v b w ↦
      v.kind? = some kind ∧ b = true ∧ w = v.tail := by
  refine ((means_eat kind).bind fun found ↦ means_ite (means_pure true)
    ((means_unexpected context).bind_false fun _ ↦ grows_pure false)).congr fun v b w ↦ ?_
  by_cases hkind : v.kind? = some kind
  · simp [hkind]
  · simp [hkind]

/-- A variable comes into scope. -/
theorem means_push (name : String) :
    Means State.place State.place C (modify fun s ↦ { s with vars := name :: s.vars })
      fun v _ w ↦ w = { v with vars := name :: v.vars } := by
  have hgrows : Grows (modify fun s ↦ { s with vars := name :: s.vars } : Parser Unit) :=
    fun s ↦ growsTo_push s name
  refine ⟨hgrows, fun s hs _ a w ↦ ?_⟩
  constructor
  · rintro ⟨-, -, rfl⟩
    rfl
  · rintro rfl
    exact ⟨hs, rfl, rfl⟩

/-- What keeps variables means the same with the variables from before. -/
theorem Means.keepingVars {p : Parser α} {R : Place → α → Place → Prop}
    (h : Means State.place State.place C p R) :
    Means State.place State.place C (keepingVars p) fun v a w ↦
      ∃ u, R v a u ∧ w = { u with vars := v.vars } := by
  refine ⟨grows_keepingVars h.grows, fun s hs hC a w ↦ ?_⟩
  rw [keepingVars_apply (h.grows s).vars]
  constructor
  · rintro ⟨herror, rfl, rfl⟩
    exact ⟨_, h.sound hs hC herror, rfl⟩
  · rintro ⟨u, hR, rfl⟩
    obtain ⟨herror, ha, rfl⟩ := (h.run s hs hC a u).mpr hR
    exact ⟨herror, ha, rfl⟩

/-- What stands in a loop means the same with one more loop around it. -/
theorem Means.inLoop {p : Parser α} {R : Place → α → Place → Prop}
    (h : Means State.place State.place C p R)
    (hC : ∀ s, C s → C { s with loops := s.loops + 1 }) :
    Means State.place State.place C (inLoop p) fun v a w ↦
      ∃ u, R { v with loops := v.loops + 1 } a u ∧ w = { u with loops := v.loops } := by
  refine ⟨grows_inLoop h.grows, fun s hs hCs a w ↦ ?_⟩
  have hs' : ({ s with loops := s.loops + 1 } : State).error = none := hs
  rw [inLoop_apply (h.grows _).loops]
  constructor
  · rintro ⟨herror, rfl, rfl⟩
    exact ⟨_, h.sound hs' (hC s hCs) herror, rfl⟩
  · rintro ⟨u, hR, rfl⟩
    obtain ⟨herror, ha, rfl⟩ := (h.run _ hs' (hC s hCs) a u).mpr hR
    exact ⟨herror, ha, rfl⟩

/-- What stands in parentheses means the same with one more parenthesis around it. -/
theorem Means.inParens {p : Parser α} {R : Place → α → Place → Prop}
    (h : Means State.place State.place C p R)
    (hC : ∀ s, C s → C { s with depth := s.depth + 1 }) :
    Means State.place State.place C (inParens p) R := by
  refine ⟨grows_inParens h.grows, fun s hs hCs a w ↦ ?_⟩
  rw [inParens_apply (h.grows _).depth]
  exact h.run { s with depth := s.depth + 1 } hs (hC s hCs) a w

/-- What is isolated means the same without variables and loops from outside. -/
theorem Means.isolated {p : Parser α} {R : Place → α → Place → Prop}
    (h : Means State.place State.place C p R)
    (hC : ∀ s, C s → C { s with vars := ["$"], loops := 0 }) :
    Means State.place State.place C (isolated p) fun v a w ↦
      ∃ u, R { v with vars := ["$"], loops := 0 } a u ∧
        w = { u with vars := v.vars, loops := v.loops } := by
  refine ⟨grows_isolated h.grows, fun s hs hCs a w ↦ ?_⟩
  have hs' : ({ s with vars := ["$"], loops := 0 } : State).error = none := hs
  rw [isolated_apply]
  constructor
  · rintro ⟨herror, rfl, rfl⟩
    exact ⟨_, h.sound hs' (hC s hCs) herror, rfl⟩
  · rintro ⟨u, hR, rfl⟩
    obtain ⟨herror, ha, rfl⟩ := (h.run _ hs' (hC s hCs) a u).mpr hR
    exact ⟨herror, ha, rfl⟩

end Primitives

/-! ### Bounds on the input -/

def Short (bound : Nat) (s : State) : Prop := s.place.ahead.length ≤ bound

theorem blind_short (bound : Nat) : Blind (Short bound) := fun _ _ _ ↦ rfl

/-- Growth leaves no more pieces ahead. -/
theorem State.GrowsTo.length_ahead_le {s t : State} (h : s.GrowsTo t) :
    t.place.ahead.length ≤ s.place.ahead.length := by
  obtain ⟨taken, htaken⟩ := h.rest
  rw [State.place, State.place, ← htaken]
  exact length_pieces_append taken t.rest

/-- An input that is short enough for one bound is so for a larger one. -/
theorem Short.mono {bound bound' : Nat} (hle : bound ≤ bound') {s : State} (h : Short bound s) :
    Short bound' s :=
  Nat.le_trans h hle

/-- One after the other, where the first part need not take a token. -/
theorem Means.bind_short {W : Type} {post : State → W} {bound : Nat} {p : Parser α}
    {f : α → Parser β} {R : Place → α → Place → Prop} {S : α → Place → β → W → Prop}
    (hp : Means State.place State.place (Short bound) p R)
    (hf : ∀ a, Means State.place post (Short bound) (f a) (S a)) :
    Means State.place post (Short bound) (p >>= f) fun v b w ↦ ∃ a u, R v a u ∧ S a u b w :=
  hp.bind_on hf fun _ hs _ hgrows ↦ Nat.le_trans hgrows.length_ahead_le hs

/-- A first part whose result and effect are functions of what is seen, on a short input. -/
theorem Means.bind_eq_short {W : Type} {post : State → W} {bound : Nat} {p : Parser α}
    {k : α → Parser β} {f : Place → α} {g : Place → Place} {S : α → Place → β → W → Prop}
    (hp : Means State.place State.place (Short bound) p fun v a u ↦ a = f v ∧ u = g v)
    (hk : ∀ a, Means State.place post (Short bound) (k a) (S a)) :
    Means State.place post (Short bound) (p >>= k) fun v b w ↦ S (f v) (g v) b w := by
  refine (hp.bind_short hk).congr fun v b w ↦ ?_
  constructor
  · rintro ⟨_, _, ⟨rfl, rfl⟩, hS⟩
    exact hS
  · exact fun hS ↦ ⟨_, _, ⟨rfl, rfl⟩, hS⟩

/-- A first part whose effect is a function of what is seen, on a short input. -/
theorem Means.then_eq_short {W : Type} {post : State → W} {bound : Nat} {p : Parser Unit}
    {k : Unit → Parser β} {g : Place → Place} {S : Place → β → W → Prop}
    (hp : Means State.place State.place (Short bound) p fun v _ u ↦ u = g v)
    (hk : Means State.place post (Short bound) (k ()) S) :
    Means State.place post (Short bound) (p >>= k) fun v b w ↦ S (g v) b w := by
  refine (hp.bind_short fun _ ↦ hk).congr fun v b w ↦ ?_
  constructor
  · rintro ⟨_, _, rfl, hS⟩
    exact hS
  · exact fun hS ↦ ⟨(), _, rfl, hS⟩

/-- One after the other, where the first part takes a token. -/
theorem Means.bind_shorter {W : Type} {post : State → W} {bound : Nat} {p : Parser α}
    {f : α → Parser β} {R : Place → α → Place → Prop} {S : α → Place → β → W → Prop}
    (hp : Means State.place State.place (Short (bound + 1)) p R)
    (hf : ∀ a, Means State.place post (Short bound) (f a) (S a))
    (htakes : ∀ v a w, R v a w → w.ahead.length < v.ahead.length) :
    Means State.place post (Short (bound + 1)) (p >>= f) fun v b w ↦
      ∃ a u, R v a u ∧ S a u b w :=
  hp.bind_on hf fun _ hs hR _ ↦ Nat.le_of_lt_succ (Nat.lt_of_lt_of_le (htakes _ _ _ hR) hs)

/-- A node on a short input means what stands inside of it. -/
theorem Means.node_short {bound : Nat} {kind : NodeKind} {p : Parser α}
    {R : Place → α → Place → Prop} (h : Means State.place State.place (Short bound) p R)
    (hframe : kind.isFrame = false) (hoperand : kind.isOperand = false) :
    Means State.place State.place (Short bound) (Parser.node kind p) R :=
  Means.node blind_place blind_place (blind_short bound) hframe hoperand h

/-- Behind the next token there are fewer. -/
theorem Means.bump_shorter {W : Type} {post : State → W} {bound : Nat} {k : Unit → Parser β}
    {S : Place → β → W → Prop} (hk : Means State.place post (Short bound) (k ()) S) :
    Means State.place post (Short (bound + 1)) (bump >>= k) fun v b w ↦ S v.tail b w := by
  refine (means_bump.bind_on (D := fun _ ↦ Short bound) (fun _ ↦ hk) fun s hs hR _ ↦ ?_).congr
    fun v b w ↦ ?_
  · have hR : (bump s).2.place = s.place.tail := hR
    rw [Short, hR, Place.tail, List.length_tail]
    exact Nat.sub_le_of_le_add hs
  · constructor
    · rintro ⟨_, _, rfl, hS⟩
      exact hS
    · exact fun hS ↦ ⟨(), _, rfl, hS⟩

/-! ### Repetition -/

/-- The rounds of a step that goes on for as long as it asks to. -/
inductive Rounds (R : β → V → Bool × β → V → Prop) : β → V → β → V → Prop
  | last {b c : β} {v w : V} : R b v (false, c) w → Rounds R b v c w
  | more {b c d : β} {u v w : V} : R b v (true, c) u → Rounds R c u d w → Rounds R b v d w

/-- Where fewer pieces are ahead, a token has been taken. -/
theorem takes_of_ahead {s t : State} (h : s.GrowsTo t)
    (hfewer : t.place.ahead.length < s.place.ahead.length) : t.rest.length < s.rest.length := by
  obtain ⟨taken, htaken⟩ := h.rest
  by_cases hnil : taken = []
  · rw [hnil, List.nil_append] at htaken
    rw [State.place, State.place, htaken] at hfewer
    exact absurd hfewer (Nat.lt_irrefl _)
  · rw [← htaken, List.length_append]
    have := List.length_pos_iff.mpr hnil
    omega

/-- A loop means its rounds one after the other, if each of them takes a token. -/
theorem Means.iterate {f : State → V} {C : State → Prop} {step : β → Parser (Bool × β)}
    {R : β → V → Bool × β → V → Prop} (hstep : ∀ b, Means f f C (step b) (R b))
    (hC : ∀ s t : State, s.GrowsTo t → C s → C t)
    (htakes : ∀ b s c, C s → R b (f s) (true, c) (f (step b s).2) → Takes (step b) s) (b : β) :
    Means f f C (iterate step b) (Rounds R b) := by
  refine ⟨grows_iterate (fun b ↦ (hstep b).grows) b, fun s ↦ ?_⟩
  induction hlength : s.rest.length using Nat.strongRecOn generalizing b s with
  | ind length ih =>
    intro hs hCs c w
    have hgrow := (hstep b).grows s
    have hrounds := grows_iterate (fun b ↦ (hstep b).grows)
    rw [iterate_apply]
    constructor
    · split
      next hmore =>
        rintro ⟨herror, rfl, rfl⟩
        have ht := (hrounds _ _).error_eq_none herror
        have hR := (hstep b).sound hs hCs ht
        rw [show (step b s).1 = (true, (step b s).1.2) from Prod.ext hmore.1 rfl] at hR
        have hmeans := ih _ (hlength ▸ hmore.2) (step b s).1.2 (step b s).2 rfl ht
            (hC _ _ hgrow hCs)
        exact .more hR ((hmeans _ _).mp ⟨herror, rfl, rfl⟩)
      next hlast =>
        rintro ⟨herror, rfl, rfl⟩
        have hR := (hstep b).sound hs hCs herror
        cases hgoOn : (step b s).1.1 with
        | true =>
          rw [show (step b s).1 = (true, (step b s).1.2) from Prod.ext hgoOn rfl] at hR
          exact absurd ⟨hgoOn, htakes b s _ hCs hR⟩ hlast
        | false =>
          rw [show (step b s).1 = (false, (step b s).1.2) from Prod.ext hgoOn rfl] at hR
          exact .last hR
    · generalize hv : f s = v
      intro hrun
      cases hrun with
      | last hR =>
        subst hv
        obtain ⟨herror, hresult, hw⟩ := ((hstep b).run s hs hCs _ _).mpr hR
        rw [hresult, if_neg (by simp)]
        exact ⟨herror, rfl, hw⟩
      | more hR hrest =>
        subst hv
        obtain ⟨herror, hresult, rfl⟩ := ((hstep b).run s hs hCs _ _).mpr hR
        have htake := htakes b s _ hCs hR
        rw [hresult, if_pos ⟨rfl, htake⟩]
        exact (ih _ (hlength ▸ htake) _ _ rfl herror (hC _ _ hgrow hCs) _ _).mpr hrest

end Parser

end AlertAudit.Template
