import AlertAudit.Proofs.Template.Growth.Productions
import AlertAudit.Proofs.Template.Meaning

/-!
The meaning of declarations. What is read as a declaration depends on the two tokens in front, and
in the header of a loop on what follows the first comma.
-/

set_option autoImplicit false

namespace AlertAudit.Template.Parser

def closesDecl (kind : Option TokenKind) : Bool := kind = some .declare || kind = some .assign

/-- What is declared in front of a pipeline. In the header of a loop a comma may be the last thing;
what follows it is left to the commands. -/
inductive DeclarationMeaning (inRange : Bool) : Place → Place → Prop
  | none {v : Place} : ¬(v.kind? = some .variable ∧ continuesDecl v.tail.kind?) →
    DeclarationMeaning inRange v v
  | one {x mark : Piece} {r : List Piece} {vars : List String} {loops : Nat} :
    x.kind = .variable → closesDecl (some mark.kind) →
    DeclarationMeaning inRange ⟨x :: mark :: r, vars, loops⟩ ⟨r, x.text :: vars, loops⟩
  | two {x comma y mark : Piece} {r : List Piece} {vars : List String} {loops : Nat} :
    inRange → x.kind = .variable → comma.kind = .comma → y.kind = .variable →
    closesDecl (some mark.kind) →
    DeclarationMeaning inRange ⟨x :: comma :: y :: mark :: r, vars, loops⟩
      ⟨r, y.text :: x.text :: vars, loops⟩
  | index {x comma : Piece} {r : List Piece} {vars : List String} {loops : Nat} {w : Place} :
    inRange → x.kind = .variable → comma.kind = .comma → w = ⟨r, x.text :: vars, loops⟩ →
    (w.kind? = some .variable ∧ continuesDecl w.tail.kind? = false ∨ w.kind? = some .rightDelim ∨
      w.kind? = some .parenClose) →
    DeclarationMeaning inRange ⟨x :: comma :: r, vars, loops⟩ w

/-- A variable that is declared comes into scope, with the mark behind it. -/
theorem means_declared {C : State → Prop} :
    Means State.place State.place C declared fun v closed w ↦
      closed = closesDecl v.tail.kind? ∧ w = ⟨v.ahead.tail.tail, v.text :: v.vars, v.loops⟩ :=
  (means_currentText.bind_eq fun name ↦ means_bump.then_eq (means_current.bind_eq fun mark ↦
    (means_push name).then_eq (means_bump.then_eq (means_pure (closesDecl mark))))).congr
    fun _ _ _ ↦ Iff.rfl

/-- What may follow the comma behind the first variable of a loop. -/
def secondVariable (context : Context) : Option TokenKind → Parser Unit
  | some .variable => do
    if continuesDecl (← second) then
      unless ← declared do fail (.tooManyDeclarations context)
  | some .rightDelim | some .parenClose => return
  | _ => fail .rangeDeclaration

/-- A declaration from its first variable on. -/
def declarationBody (context : Context) : Parser Unit := do
  if ← declared then return
  if context = .header .rangeBlock then secondVariable context (← current)
  else fail (.tooManyDeclarations context)

/-- A declaration is one if a variable and what goes on with it are next. -/
theorem declaration_eq (context : Context) : declaration context = (do
    if (← current) = some .variable && continuesDecl (← second) then
      node .decl (declarationBody context)) := rfl

/-- The second variable of a declaration, by the token behind the comma. -/
theorem means_secondVariable {C : State → Prop} (context : Context) (kind : Option TokenKind) :
    Means State.place State.place C (secondVariable context kind) fun v _ w ↦
      if kind = some .variable then
        if continuesDecl v.tail.kind? then
          closesDecl v.tail.kind? ∧ w = ⟨v.ahead.tail.tail, v.text :: v.vars, v.loops⟩
        else w = v
      else (kind = some .rightDelim ∨ kind = some .parenClose) ∧ w = v := by
  unfold secondVariable
  split
  · refine (means_second.bind_eq fun after ↦ means_ite (means_declared.bind_eq fun closed ↦
      means_ite (means_pure ()) (means_fail _)) (means_pure ())).congr fun v _ w ↦ ?_
    by_cases hafter : continuesDecl v.tail.kind?
    · simp [hafter]
    · simp [hafter]
  · exact (means_pure ()).congr fun v _ w ↦ by simp
  · exact (means_pure ()).congr fun v _ w ↦ by simp
  next hvariable hdelim hparen =>
    exact (means_fail _).congr fun v _ w ↦ by simp_all

/-- The variables of a declaration, with what has to stand between them. -/
theorem means_declarationBody {C : State → Prop} (context : Context) :
    Means State.place State.place C (declarationBody context) fun v _ w ↦
      if closesDecl v.tail.kind? then w = ⟨v.ahead.tail.tail, v.text :: v.vars, v.loops⟩
      else context = .header .rangeBlock ∧
        ∃ u, u = ⟨v.ahead.tail.tail, v.text :: v.vars, v.loops⟩ ∧
          if u.kind? = some .variable then
            if continuesDecl u.tail.kind? then
              closesDecl u.tail.kind? ∧ w = ⟨u.ahead.tail.tail, u.text :: u.vars, u.loops⟩
            else w = u
          else (u.kind? = some .rightDelim ∨ u.kind? = some .parenClose) ∧ w = u := by
  refine (means_declared.bind_eq fun closed ↦ means_ite (means_pure ()) (means_ite
    (means_current.bind_eq fun kind ↦ means_secondVariable context kind)
    (means_fail _))).congr fun v _ w ↦ ?_
  by_cases hcloses : closesDecl v.tail.kind?
  · simp [hcloses]
  · by_cases hrange : context = .header .rangeBlock
    · simp [hcloses, hrange]
    · simp [hcloses, hrange]

/-- A declaration goes on with a mark or with a comma. -/
theorem continuesDecl_iff (kind : Option TokenKind) :
    continuesDecl kind ↔ closesDecl kind ∨ kind = some .comma := by
  unfold continuesDecl
  split <;> simp_all [closesDecl]

/-- A place with a next kind has a next piece. -/
theorem exists_cons_of_kind? {v : Place} {kind : TokenKind} (h : v.kind? = some kind) :
    ∃ p r, v.ahead = p :: r ∧ p.kind = kind := by
  cases hahead : v.ahead with
  | nil => simp [Place.kind?, hahead] at h
  | cons p r => exact ⟨p, r, rfl, by simpa [Place.kind?, hahead] using h⟩

/-- A declaration with a single variable. -/
theorem declarationMeaning_of_closes {inRange : Bool} {x mark : Piece} {r : List Piece}
    {vars : List String} {loops : Nat} {w : Place} (hx : x.kind = .variable)
    (hmark : closesDecl (some mark.kind)) :
    DeclarationMeaning inRange ⟨x :: mark :: r, vars, loops⟩ w ↔
      w = ⟨r, x.text :: vars, loops⟩ := by
  constructor
  · intro h
    cases h with
    | none hnone => exact absurd ⟨congrArg some hx, (continuesDecl_iff _).mpr (.inl hmark)⟩ hnone
    | one _ _ => rfl
    | two _ _ hcomma _ _ => simp [closesDecl, hcomma] at hmark
    | index _ _ hcomma _ _ => simp [closesDecl, hcomma] at hmark
  · rintro rfl
    exact .one hx hmark

/-- A declaration in the header of a loop whose first variable a comma follows. -/
theorem declarationMeaning_of_comma {inRange : Bool} {x comma : Piece} {r : List Piece}
    {vars : List String} {loops : Nat} {w : Place} (hx : x.kind = .variable)
    (hcomma : comma.kind = .comma) :
    DeclarationMeaning inRange ⟨x :: comma :: r, vars, loops⟩ w ↔
      inRange ∧ ∃ u, u = ⟨r, x.text :: vars, loops⟩ ∧
        if u.kind? = some .variable then
          if continuesDecl u.tail.kind? then
            closesDecl u.tail.kind? ∧ w = ⟨u.ahead.tail.tail, u.text :: u.vars, u.loops⟩
          else w = u
        else (u.kind? = some .rightDelim ∨ u.kind? = some .parenClose) ∧ w = u := by
  constructor
  · intro h
    cases h with
    | none hnone =>
      exact absurd ⟨congrArg some hx, (continuesDecl_iff _).mpr (.inr (congrArg some hcomma))⟩ hnone
    | one _ hmark => simp [closesDecl, hcomma] at hmark
    | @two _ _ y mark r _ _ hrange _ _ hy hmark =>
      refine ⟨hrange, _, rfl, ?_⟩
      have hkind : Place.kind? ⟨y :: mark :: r, x.text :: vars, loops⟩ = some .variable :=
        congrArg some hy
      have hafter : closesDecl (Place.tail ⟨y :: mark :: r, x.text :: vars, loops⟩).kind? := hmark
      rw [if_pos hkind, if_pos ((continuesDecl_iff _).mpr (.inl hafter))]
      exact ⟨hafter, rfl⟩
    | index hrange _ _ hw hnext =>
      refine ⟨hrange, _, rfl, ?_⟩
      rw [← hw]
      rcases hnext with ⟨hkind, hafter⟩ | hkind | hkind
      · rw [if_pos hkind, if_neg (by rw [hafter]; exact Bool.false_ne_true)]
      · rw [if_neg (by rw [hkind]; decide)]
        exact ⟨.inl hkind, rfl⟩
      · rw [if_neg (by rw [hkind]; decide)]
        exact ⟨.inr hkind, rfl⟩
  · rintro ⟨hrange, u, hu, h⟩
    split at h
    next hkind =>
      split at h
      next hafter =>
        obtain ⟨hmark, rfl⟩ := h
        subst hu
        obtain ⟨y, r', hr, hy⟩ := exists_cons_of_kind? hkind
        obtain rfl : r = y :: r' := hr
        cases r' with
        | nil => exact absurd hmark Bool.false_ne_true
        | cons mark r => exact .two hrange hx hcomma hy hmark
      next hafter =>
        obtain rfl := h
        exact .index hrange hx hcomma hu (.inl ⟨hkind, by simpa using hafter⟩)
    next hkind =>
      obtain ⟨hnext, rfl⟩ := h
      exact .index hrange hx hcomma hu (.inr hnext)

/-- A declaration is parsed as the rule says. -/
theorem means_declaration {C : State → Prop} (context : Context) :
    Means State.place State.place C (declaration context) fun v _ w ↦
      DeclarationMeaning (context = .header .rangeBlock) v w := by
  rw [declaration_eq]
  have hnode : Means State.place State.place Anywhere (node .decl (declarationBody context)) _ :=
    Means.node blind_place blind_place blind_anywhere rfl rfl (means_declarationBody context)
  refine (means_current.bind_eq fun kind ↦ means_second.bind_eq fun after ↦
    means_ite hnode (means_pure ())).congr fun v _ w ↦ ?_
  by_cases hstart : v.kind? = some .variable ∧ continuesDecl v.tail.kind?
  · rw [if_pos (by simpa using hstart)]
    obtain ⟨hkind, hafter⟩ := hstart
    obtain ⟨x, rest, hahead, hx⟩ := exists_cons_of_kind? hkind
    obtain ⟨ahead, vars, loops⟩ := v
    obtain rfl : ahead = x :: rest := hahead
    cases rest with
    | nil => exact absurd hafter Bool.false_ne_true
    | cons mark r =>
      by_cases hcloses : closesDecl (some mark.kind)
      · rw [declarationMeaning_of_closes hx hcloses]
        exact iff_of_eq (if_pos hcloses)
      · have hcomma : mark.kind = .comma :=
          Option.some.inj (((continuesDecl_iff _).mp hafter).resolve_left hcloses)
        rw [declarationMeaning_of_comma hx hcomma, decide_eq_true_eq]
        exact iff_of_eq (if_neg hcloses)
  · rw [if_neg (by simpa using hstart)]
    constructor
    · rintro ⟨-, rfl⟩
      exact .none hstart
    · intro h
      have hcontinues : ∀ kind, closesDecl kind ∨ kind = some .comma → continuesDecl kind :=
        fun kind ↦ (continuesDecl_iff kind).mpr
      cases h with
      | none _ => exact ⟨rfl, rfl⟩
      | one hx hmark => exact absurd ⟨congrArg some hx, hcontinues _ (.inl hmark)⟩ hstart
      | two _ hx hcomma _ _ | index _ hx hcomma _ _ =>
        exact absurd ⟨congrArg some hx, hcontinues _ (.inr (congrArg some hcomma))⟩ hstart

end AlertAudit.Template.Parser
