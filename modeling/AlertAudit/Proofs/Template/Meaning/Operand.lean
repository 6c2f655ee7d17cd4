import AlertAudit.Proofs.Template.Growth.Productions
import AlertAudit.Proofs.Template.Meaning

/-!
The meaning of operands is the rule for them. Whether fields or white space come right behind an
operand matters, so what it leaves is a `View`.
-/

set_option autoImplicit false

namespace AlertAudit.Template.Parser

open Grammar

/-! ### Fields -/

def gapOf (ts : List Token) : Bool := ts.head?.any (·.isTrivia)

/-- The tokens of the kind that follow are the attached fields, and all of them. -/
theorem fields_takeWhile (ts : List Token) :
    ∃ fs, Fields (gapOf ts) fs (gapOf (ts.dropWhile (·.kind = .field))) ∧
      pieces ts = fs ++ pieces (ts.dropWhile (·.kind = .field)) ∧
      (ts.dropWhile (·.kind = .field)).head?.map (·.kind) ≠ some .field := by
  induction ts with
  | nil => exact ⟨[], .nil, rfl, by simp⟩
  | cons t ts ih =>
    by_cases ht : t.kind = .field
    · have htrivia : t.isTrivia = false := by
        rw [Token.isTrivia, ht]
        rfl
      obtain ⟨fs, hfields, hpieces, hlast⟩ := ih
      rw [List.dropWhile_cons_of_pos (by simpa using ht)]
      refine ⟨⟨t, gapOf ts⟩ :: fs, ?_, ?_, hlast⟩
      · rw [show gapOf (t :: ts) = false from htrivia]
        exact .cons ht hfields
      · rw [pieces, if_neg (by rw [htrivia]; exact Bool.false_ne_true), hpieces]
        rfl
    · rw [List.dropWhile_cons_of_neg (by simpa using ht)]
      exact ⟨[], .nil, rfl, by simpa using ht⟩

/-- There is one way to take all attached fields. -/
theorem fields_unique {gap gap₁ gap₂ : Bool} {fs gs : List Piece} {v w : Place}
    (hfs : Fields gap fs gap₁) (hgs : Fields gap gs gap₂) (happend : fs ++ v.ahead = gs ++ w.ahead)
    (hv : View.adjacent ⟨v, gap₁⟩ ≠ some .field) (hw : View.adjacent ⟨w, gap₂⟩ ≠ some .field) :
    fs = gs ∧ gap₁ = gap₂ := by
  induction hfs generalizing gs with
  | nil =>
    cases hgs with
    | nil => exact ⟨rfl, rfl⟩
    | cons hkind _ =>
      rw [List.nil_append] at happend
      rw [View.adjacent, Place.kind?, happend] at hv
      exact absurd (by simp [hkind]) hv
  | cons hkind hrest ih =>
    cases hgs with
    | nil =>
      rw [List.nil_append] at happend
      rw [View.adjacent, Place.kind?, ← happend] at hw
      exact absurd (by simp [hkind]) hw
    | cons _ hrest' =>
      simp only [List.cons_append, List.cons.injEq] at happend
      obtain ⟨rfl, happend⟩ := happend
      obtain ⟨rfl, rfl⟩ := ih hrest' happend hv
      exact ⟨rfl, rfl⟩

/-- What follows is taken up to where no field is attached any more. -/
def FieldsMeaning (operandClass : OperandClass) (v : View) (w : View) : Prop :=
  ∃ fs, Fields v.gap fs w.gap ∧ (fs ≠ [] → operandClass = .executable) ∧
    v.place.ahead = fs ++ w.place.ahead ∧ w.place.vars = v.place.vars ∧
    w.place.loops = v.place.loops ∧ w.adjacent ≠ some .field

/-- To take all fields means to take those that are attached. -/
theorem means_takeAll {C : State → Prop} :
    Means State.view State.view C (takeAll .field) fun v _ w ↦ FieldsMeaning .executable v w := by
  refine ⟨grows_takeAll _, fun s hs _ a w ↦ ?_⟩
  obtain ⟨fs, hfields, hpieces, hlast⟩ := fields_takeWhile s.rest
  have hview : (takeAll .field s).2.view =
      ⟨⟨pieces (s.rest.dropWhile (·.kind = .field)), s.vars, s.loops⟩,
        gapOf (s.rest.dropWhile (·.kind = .field))⟩ := rfl
  have hadjacent : (takeAll .field s).2.view.adjacent ≠ some .field := by
    rw [← adjacent_view]
    exact hlast
  rw [hview] at hadjacent
  constructor
  · rintro ⟨-, -, rfl⟩
    rw [hview]
    exact ⟨fs, hfields, fun _ ↦ rfl, hpieces, rfl, rfl, hadjacent⟩
  · rintro ⟨gs, hgs, -, hahead, hvars, hloops, hw⟩
    obtain ⟨⟨ahead, vars, loops⟩, gap⟩ := w
    have happend := hpieces.symm.trans hahead
    obtain ⟨rfl, rfl⟩ := fields_unique hfields hgs happend hadjacent hw
    refine ⟨hs, rfl, ?_⟩
    obtain rfl : vars = s.vars := hvars
    obtain rfl : loops = s.loops := hloops
    rw [hview, List.append_cancel_left happend]

/-- Without an attached field, nothing is taken. -/
theorem fieldsMeaning_of_ne {operandClass : OperandClass} {v w : View}
    (hv : v.adjacent ≠ some .field) : FieldsMeaning operandClass v w ↔ w = v := by
  obtain ⟨⟨ahead, vars, loops⟩, gap⟩ := v
  constructor
  · rintro ⟨fs, hfields, -, hahead, hvars, hloops, -⟩
    obtain ⟨⟨ahead', vars', loops'⟩, gap'⟩ := w
    cases hfields with
    | nil =>
      simp only [List.nil_append] at hahead hvars hloops
      rw [hahead, hvars, hloops]
    | cons hkind _ =>
      rw [View.adjacent, Place.kind?, hahead] at hv
      exact absurd (by simp [hkind]) hv
  · rintro rfl
    exact ⟨[], .nil, by simp, rfl, rfl, rfl, hv⟩

/-- Only what can be run has fields. -/
theorem executable_of_fieldsMeaning {operandClass : OperandClass} {v w : View}
    (hv : v.adjacent = some .field) (h : FieldsMeaning operandClass v w) :
    operandClass = .executable := by
  obtain ⟨fs, hfields, hclass, hahead, -, -, hw⟩ := h
  obtain ⟨⟨ahead, vars, loops⟩, gap⟩ := v
  obtain ⟨⟨ahead', vars', loops'⟩, gap'⟩ := w
  cases fs with
  | nil =>
    cases hfields
    rw [View.adjacent, Place.kind?, hahead] at hv
    exact absurd hv hw
  | cons f fs => exact hclass (by simp)

/-- Fields that are attached to an operand must be ones that it can have. -/
theorem means_operandFields {C : State → Prop} (operandClass : OperandClass) (text : String) :
    Means State.view State.view C (operandFields operandClass text) fun v _ w ↦
      FieldsMeaning operandClass v w := by
  refine (Means.unless_failed (grows_pure ()) (means_adjacent.bind_eq fun _ ↦
    means_ite (means_ite means_takeAll (means_fail _)) (means_pure ()))).congr fun v _ w ↦ ?_
  by_cases hadjacent : v.adjacent = some .field
  · by_cases hclass : operandClass = .executable
    · simp only [hadjacent, hclass, if_true]
    · simp only [hadjacent, hclass, if_true, if_false, false_iff]
      exact fun h ↦ hclass (executable_of_fieldsMeaning hadjacent h)
  · simp only [hadjacent, if_false, true_and]
    exact (fieldsMeaning_of_ne hadjacent).symm

/-! ### Operands -/

/-- An operand starts with a token that gives it a kind. -/
theorem startsOperand_iff (kind : TokenKind) :
    kind.startsOperand ↔ (operandOf? kind).isSome := by
  cases kind with
  | keyword word => cases word <;> decide
  | bool value => cases value <;> decide
  | _ => decide

/-- An operand of one token is one without a fault. -/
theorem atom_iff {vars : List String} {p : Piece} {nodeKind : NodeKind}
    {c operandClass : OperandClass} (hoperand : operandOf? p.kind = some (nodeKind, operandClass))
    (hparen : p.kind ≠ .parenOpen) :
    Atom vars p c ↔ c = operandClass ∧ operandFault? vars p.kind p.text = none := by
  constructor
  · intro hatom
    cases hatom with
    | function hkind hdefined => simp_all [operandOf?, operandFault?]
    | inScope hkind hmem => simp_all [operandOf?, operandFault?]
    | char hkind hconstant => simp_all [operandOf?, operandFault?]
    | string hkind hquoted =>
      rcases hkind with hkind | hkind
      · simp_all [operandOf?, operandFault?]
      · simp_all [operandOf?, operandFault?]
    | field hkind | dot hkind | nil hkind | bool hkind | number hkind =>
      simp_all [operandOf?, operandFault?]
  · rintro ⟨rfl, hfault⟩
    unfold operandOf? at hoperand
    split at hoperand <;>
      simp only [Option.some.injEq, Prod.mk.injEq, reduceCtorEq] at hoperand <;>
      obtain ⟨-, rfl⟩ := hoperand
    next hkind => exact .function hkind (by simpa [operandFault?, hkind] using hfault)
    next hkind => exact .dot hkind
    next hkind => exact .nil hkind
    next hkind => exact .inScope hkind (by simpa [operandFault?, hkind] using hfault)
    next hkind => exact .field hkind
    next hkind => exact .bool hkind
    next hkind => exact .char hkind (by simpa [operandFault?, hkind] using hfault)
    next hkind => exact .number hkind
    next hkind =>
      have hquoted : Literal.unquote p.text ≠ none := by simpa [operandFault?, hkind] using hfault
      exact .string (.inl hkind) (Option.isSome_iff_ne_none.mpr hquoted)
    next hkind =>
      have hquoted : Literal.unquote p.text ≠ none := by simpa [operandFault?, hkind] using hfault
      exact .string (.inr hkind) (Option.isSome_iff_ne_none.mpr hquoted)
    next hkind => exact absurd hkind hparen

/-- An operand of one token is no parenthesis. -/
theorem kind_ne_of_atom {vars : List String} {p : Piece} {c : OperandClass}
    (h : Atom vars p c) : p.kind ≠ .parenOpen := by
  intro hparen
  cases h with
  | string hkind _ => simp [hparen] at hkind
  | function hkind _ | inScope hkind _ | char hkind _ | field hkind | dot hkind | nil hkind
  | bool hkind | number hkind => simp [hparen] at hkind

/-- An operand of one token starts with a token that starts operands. -/
theorem startsOperand_of_atom {vars : List String} {p : Piece} {c : OperandClass}
    (h : Atom vars p c) : p.kind.startsOperand := by
  cases h with
  | string hkind _ =>
    rcases hkind with hkind | hkind
    · rw [hkind]; rfl
    · rw [hkind]; rfl
  | function hkind _ | inScope hkind _ | char hkind _ | field hkind | dot hkind | nil hkind
  | bool hkind | number hkind => rw [hkind]; rfl

/-- The first token of an operand starts it. -/
theorem startsOperand_of_operand {depth : Nat} {vars vars' : List String} {ps : List Piece}
    {c : OperandClass} {spaced : Bool} (h : Operand depth vars ps c spaced vars') :
    ∃ p r, ps = p :: r ∧ p.kind.startsOperand := by
  cases h with
  | atom hatom _ _ => exact ⟨_, _, rfl, startsOperand_of_atom hatom⟩
  | paren hleft _ _ _ => exact ⟨_, _, rfl, by rw [hleft]; rfl⟩

/-- The first token of an operand is taken if it is not at fault. -/
theorem means_operandHead {C : State → Prop} (kind : TokenKind) (text : String) :
    Means State.place State.view C (operandHead kind text) fun v _ w ↦
      operandFault? v.vars kind text = none ∧ w = v.bumped := by
  refine ⟨grows_operandHead kind text, fun s hs hC a w ↦ ?_⟩
  have hvars : s.place.vars = s.vars := rfl
  cases hfault : operandFault? s.vars kind text with
  | none =>
    have hhead : operandHead kind text s = bump s := by
      simp only [operandHead, bind_apply, get_apply, hfault]
    rw [hhead, hvars, hfault]
    exact (means_bump_view.run s hs hC a w).trans (by simp)
  | some cause =>
    have hhead : operandHead kind text s = (fail cause >>= fun _ ↦ bump) s := by
      simp only [operandHead, bind_apply, get_apply, hfault]
    have hfails : Means State.place State.view C (fail cause >>= fun _ ↦ bump) fun _ _ _ ↦ False :=
      (means_fail cause).bind_false fun _ ↦ grows_bump
    rw [hhead, hvars, hfault]
    exact (hfails.run s hs hC a w).trans (by simp)

/-- What stands between parentheses that may hold `depth - 1` more of them: a pipeline in front of
the closing one. -/
def InnerMeaning (depth : Nat) (v : Place) (w : Place) : Prop :=
  ∃ d ps, depth = d + 1 ∧ Pipeline d false v.vars ps w.vars ∧ v.ahead = ps ++ w.ahead ∧
    w.kind? = some .parenClose ∧ w.loops = v.loops

/-- Behind the pipeline in a parenthesis the parenthesis is closed. -/
theorem InnerMeaning.kind?_eq {depth : Nat} {v w : Place} (h : InnerMeaning depth v w) :
    w.kind? = some .parenClose := by
  obtain ⟨_, _, _, _, _, hclose, _⟩ := h
  exact hclose

/-- An operand, or nothing where none starts. -/
def OperandMeaning (depth : Nat) (v : Place) (c : Option OperandClass) (w : View) : Prop :=
  (c = none ∧ v.kind?.any (·.startsOperand) = false ∧ w = ⟨v, false⟩) ∨
  ∃ operandClass ps, c = some operandClass ∧
    Operand depth v.vars ps operandClass w.gap w.place.vars ∧ v.ahead = ps ++ w.place.ahead ∧
    w.place.loops = v.loops ∧ w.adjacent ≠ some .field

/-- The stages of an operand are what the rule for it says. -/
theorem operandMeaning_iff {depth : Nat} {v : Place} {p : Piece} {r : List Piece}
    {nodeKind : NodeKind}
    {operandClass : OperandClass} {c : Option OperandClass} {w : View} (hahead : v.ahead = p :: r)
    (hoperand : operandOf? p.kind = some (nodeKind, operandClass)) :
    OperandMeaning depth v c w ↔ c = some operandClass ∧
      operandFault? v.vars p.kind p.text = none ∧
        if p.kind = .parenOpen then
          ∃ u, InnerMeaning depth v.tail u ∧ FieldsMeaning operandClass u.bumped w
        else FieldsMeaning operandClass v.bumped w := by
  obtain ⟨ahead, vars, loops⟩ := v
  obtain rfl : ahead = p :: r := hahead
  obtain ⟨⟨ahead', vars', loops'⟩, gap'⟩ := w
  constructor
  · rintro (⟨-, hstarts, -⟩ | ⟨c', ps, rfl, hrule, hps, hloops, hnext⟩)
    · have hstart := (startsOperand_iff p.kind).mpr (by rw [hoperand]; rfl)
      exact absurd hstart (by simpa [Place.kind?] using hstarts)
    · cases hrule with
      | @atom _ _ q fs _ _ hatom hfields hclass =>
        obtain ⟨rfl, rfl⟩ : p = q ∧ r = fs ++ ahead' := by simpa using hps
        have hparen := kind_ne_of_atom hatom
        obtain ⟨rfl, hfault⟩ := (atom_iff hoperand hparen).mp hatom
        refine ⟨rfl, hfault, ?_⟩
        rw [if_neg hparen]
        exact ⟨fs, hfields, hclass, rfl, rfl, hloops, hnext⟩
      | @paren d _ _ left right qs fs _ hleft hpipe hright hfields =>
        obtain ⟨rfl, rfl⟩ : p = left ∧ r = qs ++ right :: (fs ++ ahead') := by simpa using hps
        obtain ⟨-, rfl⟩ : nodeKind = .paren ∧ operandClass = .executable := by
          rw [hleft, operandOf?] at hoperand
          simpa [eq_comm] using hoperand
        refine ⟨rfl, by rw [hleft]; rfl, ?_⟩
        rw [if_pos hleft]
        refine ⟨⟨right :: (fs ++ ahead'), vars', loops⟩, ⟨d, qs, rfl, hpipe, rfl, ?_, rfl⟩, ?_⟩
        · exact congrArg some hright
        · exact ⟨fs, hfields, fun _ ↦ rfl, rfl, rfl, hloops, hnext⟩
  · rintro ⟨rfl, hfault, hrest⟩
    by_cases hparen : p.kind = .parenOpen
    · rw [if_pos hparen] at hrest
      obtain ⟨⟨ahead₁, vars₁, loops₁⟩, ⟨d, qs, rfl, hpipe, hqs, hclose, hloops₁⟩, hfields⟩ := hrest
      obtain ⟨fs, hfields, -, hfs, rfl, hloops, hnext⟩ := hfields
      obtain ⟨right, rest, rfl, hright⟩ : ∃ right rest, ahead₁ = right :: rest ∧
          right.kind = .parenClose := by
        cases ahead₁ with
        | nil => simp [Place.kind?] at hclose
        | cons right rest => exact ⟨right, rest, rfl, by simpa [Place.kind?] using hclose⟩
      obtain rfl : rest = fs ++ ahead' := hfs
      obtain ⟨-, rfl⟩ : nodeKind = .paren ∧ operandClass = .executable := by
        rw [hparen, operandOf?] at hoperand
        simpa [eq_comm] using hoperand
      refine .inr ⟨.executable, p :: qs ++ right :: fs, rfl, .paren hparen hpipe hright hfields, ?_,
        hloops.trans hloops₁, hnext⟩
      obtain rfl : r = qs ++ right :: (fs ++ ahead') := hqs
      simp
    · rw [if_neg hparen] at hrest
      obtain ⟨fs, hfields, hclass, rfl, rfl, hloops, hnext⟩ := hrest
      exact .inr ⟨operandClass, p :: fs, rfl, .atom ((atom_iff hoperand hparen).mpr ⟨rfl, hfault⟩)
        hfields hclass, rfl, hloops, hnext⟩

section Inner

variable {inner : Parser Unit} {depth : Nat}
  (hinner : Means State.place State.place Anywhere inner fun v _ w ↦ InnerMeaning depth v w)

include hinner

/-- The rest of an operand is the pipeline in its parenthesis, if it is one. -/
theorem means_operandBody (kind : TokenKind) :
    Means State.view State.view Anywhere (operandBody inner kind) fun v _ w ↦
      if kind = .parenOpen then ∃ u, InnerMeaning depth v.place u ∧ w = u.bumped else w = v := by
  refine (means_ite (hinner.bind fun _ ↦ Means.unless_failed (grows_pure ())
    ((means_eat_view .parenClose).bind fun _ ↦ means_pure ())).pre_view (means_pure ())).congr
    fun v _ w ↦ ?_
  by_cases hkind : kind = .parenOpen
  · simp only [hkind, if_true]
    constructor
    · rintro ⟨_, u, hu, b, u', heat, -, rfl⟩
      have hclose := hu.kind?_eq
      rw [if_pos hclose] at heat
      exact ⟨u, hu, heat.2⟩
    · rintro ⟨u, hu, rfl⟩
      have hclose := hu.kind?_eq
      exact ⟨(), u, hu, true, _, by rw [if_pos hclose]; exact ⟨rfl, rfl⟩, trivial, rfl⟩
  · simp only [hkind, if_false, true_and]

/-- The stages of an operand mean the first token, the pipeline in it and the fields. -/
theorem means_operandStages (kind : TokenKind) (operandClass : OperandClass) (text : String) :
    Means State.place State.view Anywhere (operandStages inner kind operandClass text)
      fun v _ w ↦ operandFault? v.vars kind text = none ∧
        if kind = .parenOpen then
          ∃ u, InnerMeaning depth v.tail u ∧ FieldsMeaning operandClass u.bumped w
        else FieldsMeaning operandClass v.bumped w := by
  refine ((means_operandHead kind text).bind fun _ ↦ (means_operandBody hinner kind).bind
    fun _ ↦ means_operandFields operandClass text).congr fun v _ w ↦ ?_
  by_cases hkind : kind = .parenOpen
  · simp only [hkind, if_true]
    constructor
    · rintro ⟨_, _, ⟨hfault, rfl⟩, _, _, ⟨u, hu, rfl⟩, hfields⟩
      exact ⟨hfault, u, hu, hfields⟩
    · rintro ⟨hfault, u, hu, hfields⟩
      exact ⟨(), _, ⟨hfault, rfl⟩, (), _, ⟨u, hu, rfl⟩, hfields⟩
  · simp only [hkind, if_false]
    constructor
    · rintro ⟨_, _, ⟨hfault, rfl⟩, _, _, rfl, hfields⟩
      exact ⟨hfault, hfields⟩
    · rintro ⟨hfault, hfields⟩
      exact ⟨(), _, ⟨hfault, rfl⟩, (), _, rfl, hfields⟩

/-- An operand is parsed as the rule says. -/
theorem means_operand :
    Means State.place State.view Anywhere (operand inner) fun v c w ↦
      OperandMeaning depth v c w := by
  refine ⟨grows_operand hinner.grows, fun s hs hC c w ↦ ?_⟩
  cases hfound : s.look.rest.head?.bind (operandOf? ·.kind) with
  | none =>
    have hkind : s.place.kind?.bind operandOf? = none := by
      rw [← kind?_place, Option.bind_map]
      exact hfound
    have hstarts : s.place.kind?.any (·.startsOperand) = false := by
      cases hk : s.place.kind? with
      | none => rfl
      | some kind =>
        rw [hk, Option.bind_some] at hkind
        have := startsOperand_iff kind
        simpa [hkind] using this
    rw [operand_apply_of_none inner hfound]
    constructor
    · rintro ⟨-, rfl, rfl⟩
      exact .inl ⟨rfl, hstarts, view_look s⟩
    · rintro (⟨rfl, -, rfl⟩ | ⟨_, ps, -, hrule, hps, -, -⟩)
      · exact ⟨hs, rfl, view_look s⟩
      · obtain ⟨p, r, rfl, hstart⟩ := startsOperand_of_operand hrule
        rw [Place.kind?, hps, List.cons_append, List.head?_cons, Option.map_some, Option.any_some,
          hstart] at hstarts
        exact absurd hstarts (by decide)
  | some found =>
    obtain ⟨nodeKind, operandClass⟩ := found
    obtain ⟨token, hhead, hoperand⟩ := Option.bind_eq_some_iff.mp hfound
    obtain ⟨p, r, hahead, hkind, htext⟩ : ∃ p r, s.place.ahead = p :: r ∧ p.kind = token.kind ∧
        p.text = token.text := by
      cases hrest : s.look.rest with
      | nil => simp [hrest] at hhead
      | cons first rest =>
        obtain rfl : first = token := by simpa [hrest] using hhead
        exact ⟨_, _, ahead_of_look_cons hrest, rfl, rfl⟩
    have hstages := (means_operandStages hinner token.kind operandClass token.text).run_node
      blind_place blind_view blind_anywhere nodeKind (s := s.look) hs trivial () w
    rw [place_look] at hstages
    rw [operand_apply_of_some inner hhead hoperand,
      operandMeaning_iff hahead (by rw [hkind]; exact hoperand), hkind, htext, ← hstages]
    simp only [true_and]
    constructor
    · rintro ⟨herror, rfl, hw⟩
      exact ⟨rfl, herror, hw⟩
    · rintro ⟨rfl, herror, hw⟩
      exact ⟨herror, rfl, hw⟩

end Inner

end AlertAudit.Template.Parser
