import AlertAudit.Proofs.Template.Meaning.Pipeline

/-!
The meaning of blocks is the rule for them, given that of the lists in them. The parser looks at the
words of end and else actions before it takes them, so a list is followed by one of the two, and the
tokens taken without a look are known.
-/

set_option autoImplicit false

namespace AlertAudit.Template.Parser

open Grammar

/-- The kind of the second token if the next one opens an action. -/
def Place.word? (v : Place) : Option TokenKind :=
  if v.kind? = some .leftDelim then v.tail.kind? else none

/-- The place behind the word of an action, whose left delimiter may have been taken. -/
def Place.pastWord (v : Place) : Place :=
  if v.kind? = some .leftDelim then v.tail.tail else v.tail

/-- A look at the word of an action looks past white space. -/
theorem actionWord_apply (s : State) : actionWord s = (s.place.word?, s.look) := by
  rw [actionWord, bind_apply, current_apply, kind?_place, Place.word?]
  split
  · rw [second_apply, look_look, kind?_tail_place]
  · rw [pure_apply]

section Primitives

variable {C : State → Prop}

/-- A look for the word of an action changes no place. -/
theorem means_actionWord :
    Means State.place State.place C actionWord fun v k w ↦ k = v.word? ∧ w = v :=
  means_of_apply grows_actionWord fun s ↦ by
    rw [actionWord_apply]
    exact ⟨rfl, rfl, place_look s⟩

/-- An action that is a word, of which only the right delimiter is looked at. -/
theorem means_endAction : Means State.place State.place C endAction fun v _ w ↦
    v.tail.tail.kind? = some .rightDelim ∧ w = v.tail.tail.tail := by
  have hclose : Means State.place State.place Anywhere (do let _ ← expect .rightDelim .endAction)
      fun v _ w ↦ v.kind? = some .rightDelim ∧ w = v.tail := by
    refine ((means_expect .rightDelim .endAction).bind fun _ ↦ means_pure ()).congr fun v _ w ↦ ?_
    simp
  exact ((Means.node blind_place blind_place blind_anywhere rfl rfl
    (means_bump.then_eq (means_bump.then_eq hclose))).mono fun _ _ ↦ trivial).congr
      fun _ _ _ ↦ Iff.rfl

/-- An else action that belongs to no block does not come to its end without an error. -/
theorem means_strayElse_fail (cause : Cause) :
    Means State.place State.place C (do strayElse; fail cause) fun _ _ _ ↦ False := by
  refine ⟨grows_bind grows_strayElse fun _ ↦ grows_fail _, fun s _ _ _ _ ↦ ?_⟩
  have herror := Option.isSome_iff_ne_none.mp (isSome_error_fail cause (strayElse s).2)
  rw [bind_apply]
  simp only [herror, false_and]

/-- The name of a template. -/
theorem means_templateName (context : Context) :
    Means State.place State.place C (templateName context) fun v _ w ↦
      ∃ name r, v.ahead = name :: r ∧ name.Names ∧ w = v.tail := by
  refine (Means.unless_failed (grows_pure ()) (means_current.bind_eq fun kind ↦
    means_ite (means_currentText.bind_eq fun text ↦ means_ite means_bump
      ((means_fail .invalidString).bind_false fun _ ↦ grows_bump))
      (means_unexpected context))).congr fun v _ w ↦ ?_
  simp only [if_false_right]
  constructor
  · rintro ⟨hnames, hquoted, hw⟩
    obtain ⟨kind, hkind, hnames⟩ := (Option.any_eq_true _ _).mp hnames
    obtain ⟨name, r, hahead, rfl⟩ := exists_cons_of_kind? hkind
    rw [Place.text, hahead] at hquoted
    exact ⟨name, r, hahead, ⟨hnames, hquoted⟩, hw⟩
  · rintro ⟨name, r, hahead, ⟨hnames, hquoted⟩, hw⟩
    rw [Place.kind?, Place.text, hahead]
    exact ⟨hnames, hquoted, hw⟩

end Primitives

/-! ### Lists and blocks -/

/-- Items in front of an end or else action. -/
def ListMeaning (inLoop : Bool) (v : Place) (e : ListEnd) (w : Place) : Prop :=
  ∃ ps, Items inLoop v.vars ps w.vars ∧ v.ahead = ps ++ w.ahead ∧ w.loops = v.loops ∧
    (e = .atEnd ∧ w.word? = some (.keyword .endWord) ∨
      e = .atElse ∧ w.word? = some (.keyword .elseWord))

/-- A block, with its word or the action of its word in front. -/
def GuardMeaning (kind : Control) (v w : Place) : Prop :=
  ∃ ps, Guarded (0 < v.loops) kind v.vars ps ∧ v.pastWord.ahead = ps ++ w.ahead ∧
    w.vars = v.vars ∧ w.loops = v.loops

/-- The parsers for what stands inside of a block mean what the rules say, if there are not too
many tokens for the depth to which blocks may nest. -/
structure Bodies.Mean (bodies : Bodies) (bound : Nat) : Prop where
  list : Means State.place State.place (Short bound) bodies.list fun v e w ↦
    ListMeaning (0 < v.loops) v e w
  control : ∀ kind, Means State.place State.place (Short (bound + 1)) (bodies.control kind)
    fun v _ w ↦ GuardMeaning kind v w

/-! ### Starts of items -/

/-- The kinds of tokens behind the left delimiter of an item. -/
def opensItem : TokenKind → Bool
  | .keyword .ifWord | .keyword .withWord | .keyword .rangeWord | .keyword .blockWord
  | .keyword .templateWord | .keyword .breakWord | .keyword .continueWord => true
  | kind => kind.startsOperand

/-- A pipeline starts with an operand. -/
theorem startsOperand_of_pipeline {depth : Nat} {inRange : Bool} {vars vars' : List String}
    {ps : List Piece} (h : Pipeline depth inRange vars ps vars') :
    ∃ p r, ps = p :: r ∧ p.kind.startsOperand := by
  cases h with
  | mk hdeclares hcommand _ _ =>
    cases hdeclares with
    | none =>
      obtain ⟨p, r, rfl, hstart⟩ := startsOperand_of_command hcommand
      exact ⟨p, _, rfl, hstart⟩
    | one hx _ => exact ⟨_, _, rfl, by rw [hx]; rfl⟩
    | two _ hx _ _ _ => exact ⟨_, _, rfl, by rw [hx]; rfl⟩
    | index _ hx _ _ => exact ⟨_, _, rfl, by rw [hx]; rfl⟩

/-- What starts an operand can stand behind a left delimiter. -/
theorem opensItem_of_startsOperand {kind : TokenKind} (h : kind.startsOperand) :
    opensItem kind := by
  unfold opensItem
  split
  · rfl
  · rfl
  · rfl
  · rfl
  · rfl
  · rfl
  · rfl
  · exact h

/-- How an item starts. -/
theorem item_start {inLoop : Bool} {vars vars' : List String} {ps : List Piece}
    (h : Item inLoop vars ps vars') :
    ∃ p r, ps = p :: r ∧ (p.kind = .text ∨ p.kind = .comment ∨
      p.kind = .leftDelim ∧ ∃ q r', r = q :: r' ∧ opensItem q.kind) := by
  cases h with
  | text hkind => exact ⟨_, _, rfl, .inl hkind⟩
  | comment hkind => exact ⟨_, _, rfl, .inr (.inl hkind)⟩
  | action hleft hheader _ =>
    obtain ⟨p, r, rfl, hstart⟩ := startsOperand_of_pipeline hheader
    exact ⟨_, _, rfl, .inr (.inr ⟨hleft, p, _, rfl, opensItem_of_startsOperand hstart⟩)⟩
  | @guarded _ _ kind _ _ hopens _ =>
    obtain ⟨left, w, rfl, hleft, hw⟩ := hopens
    exact ⟨_, _, rfl, .inr (.inr ⟨hleft, w, _, rfl, by rw [hw]; cases kind <;> rfl⟩)⟩
  | block hopens _ _ _ _ _ | call hopens _ _ | callWith hopens _ _ _ =>
    obtain ⟨left, w, rfl, hleft, hw⟩ := hopens
    exact ⟨_, _, rfl, .inr (.inr ⟨hleft, w, _, rfl, by rw [hw]; rfl⟩)⟩
  | breaks hmarks | continues hmarks =>
    obtain ⟨left, w, right, rfl, hleft, hw, _⟩ := hmarks
    exact ⟨_, _, rfl, .inr (.inr ⟨hleft, w, _, rfl, by rw [hw]; rfl⟩)⟩

/-! ### Ends of lists -/

/-- A word of an action is seen where the two pieces stand with which it starts. -/
theorem word?_eq_some_iff {v : Place} {word : Keyword} :
    v.word? = some (.keyword word) ↔
      ∃ start, Opens word start ∧ v.ahead = start ++ v.tail.tail.ahead := by
  constructor
  · intro h
    rw [Place.word?] at h
    split at h
    next hleft =>
      obtain ⟨left, r, hahead, hleft⟩ := exists_cons_of_kind? hleft
      rw [Place.tail, hahead] at h
      obtain ⟨w, r', hr, hw⟩ := exists_cons_of_kind? h
      obtain rfl : r = w :: r' := hr
      exact ⟨[left, w], ⟨left, w, rfl, hleft, hw⟩, by rw [Place.tail, Place.tail, hahead]; rfl⟩
    next => exact absurd h (by simp)
  · rintro ⟨_, ⟨left, w, rfl, hleft, hw⟩, hahead⟩
    have hkind : v.kind? = some .leftDelim := by
      rw [Place.kind?, hahead]
      exact congrArg some hleft
    rw [Place.word?, if_pos hkind, Place.tail, hahead]
    exact congrArg some hw

/-- The word of an action and the right delimiter behind it. -/
theorem marks_iff {v w : Place} {word : Keyword} :
    (v.word? = some (.keyword word) ∧ v.tail.tail.kind? = some .rightDelim ∧
      w = v.tail.tail.tail) ↔
    ∃ close, Marks word close ∧ v.ahead = close ++ w.ahead ∧ w.vars = v.vars ∧
      w.loops = v.loops := by
  constructor
  · rintro ⟨hword, hclose, rfl⟩
    obtain ⟨_, ⟨left, x, rfl, hleft, hx⟩, hahead⟩ := word?_eq_some_iff.mp hword
    obtain ⟨right, r, hr, hright⟩ := exists_cons_of_kind? hclose
    refine ⟨[left, x, right], ⟨left, x, right, rfl, hleft, hx, hright⟩, ?_, rfl, rfl⟩
    rw [hahead, hr, Place.tail, hr]
    rfl
  · rintro ⟨_, ⟨left, x, right, rfl, hleft, hx, hright⟩, hahead, hvars, hloops⟩
    obtain ⟨ahead, vars, loops⟩ := v
    obtain ⟨ahead', vars', loops'⟩ := w
    obtain rfl : ahead = [left, x, right] ++ ahead' := hahead
    obtain rfl : vars' = vars := hvars
    obtain rfl : loops' = loops := hloops
    refine ⟨word?_eq_some_iff.mpr ⟨[left, x], ⟨left, x, rfl, hleft, hx⟩, rfl⟩, ?_, rfl⟩
    exact congrArg some hright

/-- Items with the end action behind them. -/
def EndedMeaning (inLoop : Bool) (v w : Place) : Prop :=
  ∃ ps close, Items inLoop v.vars ps w.vars ∧ Marks .endWord close ∧
    v.ahead = ps ++ (close ++ w.ahead) ∧ w.loops = v.loops

/-- A list with the end action behind it, piece by piece. -/
theorem endedMeaning_iff {inLoop : Bool} {v w : Place} :
    (∃ u, ListMeaning inLoop v .atEnd u ∧ u.tail.tail.kind? = some .rightDelim ∧
      w = u.tail.tail.tail) ↔ EndedMeaning inLoop v w := by
  constructor
  · rintro ⟨u, ⟨ps, hitems, hahead, hloops, hend⟩, hclose, hw⟩
    have hword : u.word? = some (.keyword .endWord) := by simpa using hend
    obtain ⟨close, hmarks, hu, hvars, hloops'⟩ := marks_iff.mp ⟨hword, hclose, hw⟩
    refine ⟨ps, close, by rw [hvars]; exact hitems, hmarks, by rw [hahead, hu], ?_⟩
    rw [hloops', hloops]
  · rintro ⟨ps, close, hitems, hmarks, hahead, hloops⟩
    obtain ⟨hword, hclose, hw⟩ := marks_iff.mpr
      ⟨close, hmarks, (rfl : Place.ahead ⟨close ++ w.ahead, w.vars, v.loops⟩ = _), rfl, hloops⟩
    exact ⟨⟨close ++ w.ahead, w.vars, v.loops⟩, ⟨ps, hitems, hahead, rfl, .inl ⟨rfl, hword⟩⟩,
      hclose,
      hw⟩

/-- What follows a list that may not end in front of an else action. -/
theorem means_listEnd {C : State → Prop} {p : ListEnd → Parser Unit} (hend : p .atEnd = endAction)
    (helse : Means State.place State.place C (p .atElse) fun _ _ _ ↦ False)
    (hstopped : p .stopped = pure ()) (e : ListEnd) :
    Means State.place State.place C (p e) fun v _ w ↦
      e = .atEnd ∧ v.tail.tail.kind? = some .rightDelim ∧ w = v.tail.tail.tail ∨
        e = .stopped ∧ w = v := by
  cases e with
  | atEnd =>
    rw [hend]
    exact means_endAction.congr fun v _ w ↦ by simp
  | atElse => exact helse.congr fun v _ w ↦ by simp
  | stopped =>
    rw [hstopped]
    exact (means_pure ()).congr fun v _ w ↦ by simp

/-! ### Bodies of templates -/

/-- What follows the list of a body. -/
def templateEnd (context : Context) : ListEnd → Parser Unit
  | .atEnd => endAction
  | .atElse => do
    strayElse
    fail (.elseInBody context)
  | .stopped => return

/-- The body of a template is isolated, with its end. -/
theorem templateBody_eq (bodies : Bodies) (context : Context) : templateBody bodies context = (do
    if ← failed then return
    isolated (bodies.list >>= templateEnd context)) := rfl

/-- The body of a named template, with its end. -/
def BodyMeaning (v w : Place) : Prop :=
  ∃ u, EndedMeaning false { v with vars := ["$"], loops := 0 } u ∧
    w = { u with vars := v.vars, loops := v.loops }

/-- The body of a template is parsed as the rule says. -/
theorem means_templateBody {bodies : Bodies} {bound : Nat} (hbodies : bodies.Mean bound)
    (context : Context) :
    Means State.place State.place (Short bound) (templateBody bodies context) fun v _ w ↦
      BodyMeaning v w := by
  have hend : ∀ e, Means State.place State.place (Short bound) (templateEnd context e) _ :=
    means_listEnd rfl (means_strayElse_fail _) rfl
  rw [templateBody_eq]
  refine Means.unless_failed (grows_pure ()) (((hbodies.list.bind_short hend).isolated
    fun s hs ↦ hs).congr fun v _ w ↦ ?_)
  refine exists_congr fun u ↦ and_congr_left fun _ ↦ ?_
  rw [← endedMeaning_iff]
  constructor
  · rintro ⟨e, u', hlist, ⟨rfl, hend⟩ | ⟨rfl, -⟩⟩
    · exact ⟨u', hlist, hend⟩
    · obtain ⟨_, _, _, _, ⟨hend, -⟩ | ⟨hend, -⟩⟩ := hlist
      · exact absurd hend (by simp)
      · exact absurd hend (by simp)
  · rintro ⟨u', hlist, hend⟩
    exact ⟨.atEnd, u', hlist, .inl ⟨rfl, hend⟩⟩

/-! ### Else branches -/

/-- An else branch behind the word `else`, up to where the list in it ends. -/
def elseChoice (bodies : Bodies) (kind : Control) : Parser ListEnd := do
  match chained? kind (← current) with
  | some nested =>
    bodies.control nested
    return .stopped
  | none =>
    unless startsNested (← current) do
      let _ ← expect .rightDelim .elseAction
    if ← failed then return .stopped
    bodies.list

/-- What follows an else branch. -/
def elseEnd : ListEnd → Parser Unit
  | .atEnd => endAction
  | .atElse => do
    strayElse
    fail .secondElse
  | .stopped => return

/-- An else branch is its node, and the end of the block if no other list follows. -/
theorem elseBranch_eq (bodies : Bodies) (kind : Control) : elseBranch bodies kind =
    (node .elseBranch (bump >>= fun _ ↦ bump >>= fun _ ↦ elseChoice bodies kind)) >>= elseEnd := rfl

/-- The rest of an else branch behind the word `else`. -/
def ElseChoiceMeaning (kind : Control) (v : Place) (e : ListEnd) (w : Place) : Prop :=
  match chained? kind v.kind? with
  | some nested => GuardMeaning nested v w ∧ e = .stopped
  | none => v.kind? = some .rightDelim ∧ ListMeaning (0 < v.loops) v.tail e w

/-- No list starts with a word. -/
theorem not_listMeaning_of_startsNested {inLoop : Bool} {v w : Place} {e : ListEnd}
    (h : startsNested v.kind?) : ¬ListMeaning inLoop v e w := by
  have hkind : v.kind? = some (.keyword .ifWord) ∨ v.kind? = some (.keyword .withWord) := by
    simpa [startsNested] using h
  rintro ⟨ps, hitems, hahead, -, hend⟩
  generalize w.vars = vars at hitems
  cases hitems with
  | nil =>
    have hword : w.word? = none := by
      have hsame : w.kind? = v.kind? := by
        rw [Place.kind?, Place.kind?, hahead, List.nil_append]
      rw [Place.word?, if_neg]
      intro hleft
      rw [← hsame, hleft] at hkind
      exact absurd hkind (by decide)
    rw [hword] at hend
    exact absurd hend (by simp)
  | cons hitem _ =>
    obtain ⟨p, r, rfl, hstart⟩ := item_start hitem
    rw [Place.kind?, hahead] at hkind
    have hkind : p.kind = .keyword .ifWord ∨ p.kind = .keyword .withWord := by simpa using hkind
    rcases hstart with hp | hp | ⟨hp, -⟩
    · exact absurd hkind (by rw [hp]; decide)
    · exact absurd hkind (by rw [hp]; decide)
    · exact absurd hkind (by rw [hp]; decide)

/-- What follows the word of an else action is parsed as the rule says. -/
theorem means_elseChoice {bodies : Bodies} {bound : Nat} (hbodies : bodies.Mean bound)
    (kind : Control) :
    Means State.place State.place (Short bound) (elseChoice bodies kind) fun v e w ↦
      ElseChoiceMeaning kind v e w := by
  have hlist : Means State.place State.place (Short bound) (do
      if ← failed then return .stopped
      bodies.list) _ := Means.unless_failed (grows_pure _) hbodies.list
  have hchoice : ∀ word : Option TokenKind, Means State.place State.place (Short bound)
      (match chained? kind word with
      | some nested => do
        bodies.control nested
        return .stopped
      | none => do
        unless startsNested (← current) do
          let _ ← expect .rightDelim .elseAction
        if ← failed then return .stopped
        bodies.list) fun v e w ↦ match chained? kind word with
          | some nested => GuardMeaning nested v w ∧ e = .stopped
          | none => v.kind? = some .rightDelim ∧ ListMeaning (0 < v.loops) v.tail e w := by
    intro word
    cases chained? kind word with
    | some nested =>
      have hcontrol := (hbodies.control nested).mono fun s hs ↦ Short.mono (Nat.le_succ bound) hs
      exact (hcontrol.returning ListEnd.stopped).congr fun _ _ _ ↦ and_comm
    | none =>
      refine (means_current.bind_eq_short fun next ↦ means_ite hlist
        ((means_expect .rightDelim .elseAction).bind_short fun _ ↦ hlist)).congr fun v e w ↦ ?_
      constructor
      · intro h
        split at h
        next hnested => exact absurd h (not_listMeaning_of_startsNested hnested)
        next =>
          obtain ⟨_, _, ⟨hclose, rfl, rfl⟩, hlist⟩ := h
          exact ⟨hclose, hlist⟩
      · rintro ⟨hclose, hlist⟩
        rw [if_neg (by rw [hclose]; decide)]
        exact ⟨true, v.tail, ⟨hclose, rfl, rfl⟩, hlist⟩
  exact (means_current.bind_eq_short hchoice).congr fun _ _ _ ↦ Iff.rfl

/-- What follows the list of a block, by how the list ended. -/
def AfterList (kind : Control) (e : ListEnd) (v w : Place) : Prop :=
  match e with
  | .atEnd => v.tail.tail.kind? = some .rightDelim ∧ w = v.tail.tail.tail
  | .atElse => ∃ e u, ElseChoiceMeaning kind v.tail.tail e u ∧
      (e = .atEnd ∧ u.tail.tail.kind? = some .rightDelim ∧ w = u.tail.tail.tail ∨
        e = .stopped ∧ w = u)
  | .stopped => w = v

/-- An else branch is parsed as the rule says. -/
theorem means_elseBranch {bodies : Bodies} {bound : Nat} (hbodies : bodies.Mean bound)
    (kind : Control) :
    Means State.place State.place (Short bound) (elseBranch bodies kind) fun v _ w ↦
      AfterList kind .atElse v w := by
  have hend : ∀ e, Means State.place State.place (Short bound) (elseEnd e) _ :=
    means_listEnd rfl (means_strayElse_fail _) rfl
  have hhead : Means State.place State.place (Short bound)
      (bump >>= fun _ ↦ bump >>= fun _ ↦ elseChoice bodies kind) fun v e w ↦
        ElseChoiceMeaning kind v.tail.tail e w :=
    (means_bump.then_eq_short (means_bump.then_eq_short (means_elseChoice hbodies kind))).congr
      fun _ _ _ ↦ Iff.rfl
  rw [elseBranch_eq]
  exact ((hhead.node_short rfl rfl).bind_short hend).congr fun _ _ _ ↦ Iff.rfl

/-! ### Blocks -/

/-- What follows the list of a block. -/
def controlEnd (bodies : Bodies) (kind : Control) : ListEnd → Parser Unit
  | .atEnd => endAction
  | .atElse => elseBranch bodies kind
  | .stopped => return

def controlList (bodies : Bodies) (kind : Control) : Parser ListEnd :=
  if kind = .rangeBlock then inLoop bodies.list else bodies.list

/-- What follows the word of a block. -/
def controlRest (bodies : Bodies) (kind : Control) : Parser Unit := do
  actionPipeline (.header kind)
  let _ ← eat .rightDelim
  controlList bodies kind >>= controlEnd bodies kind

/-- A block is the node behind its word, which keeps variables. -/
theorem control_eq (bodies : Bodies) (kind : Control) : control bodies kind =
    keepingVars (node (.control kind)
      (eat .leftDelim >>= fun _ ↦ bump >>= fun _ ↦ controlRest bodies kind)) := by
  have hlist : (controlList bodies kind >>= controlEnd bodies kind) =
      if kind = .rangeBlock then inLoop bodies.list >>= controlEnd bodies kind
      else bodies.list >>= controlEnd bodies kind := ite_bind _ _ _
  rw [controlRest, hlist]
  rfl

/-- The list of a block is parsed as the rule says. -/
theorem means_controlList {bodies : Bodies} {bound : Nat} (hbodies : bodies.Mean bound)
    (kind : Control) :
    Means State.place State.place (Short bound) (controlList bodies kind) fun v e w ↦
      ListMeaning (0 < v.loops || kind = .rangeBlock) v e w := by
  refine (means_ite (hbodies.list.inLoop fun s hs ↦ hs) hbodies.list).congr fun v e w ↦ ?_
  by_cases hkind : kind = .rangeBlock
  · rw [if_pos hkind, decide_eq_true hkind, Bool.or_true]
    constructor
    · rintro ⟨u, ⟨ps, hitems, hahead, -, hend⟩, rfl⟩
      exact ⟨ps, hitems, hahead, rfl, hend⟩
    · rintro ⟨ps, hitems, hahead, hloops, hend⟩
      refine ⟨{ w with loops := v.loops + 1 }, ⟨ps, ?_, hahead, rfl, hend⟩, ?_⟩
      · rw [decide_eq_true (Nat.succ_pos _)]
        exact hitems
      · rw [← hloops]
  · rw [if_neg hkind, decide_eq_false hkind, Bool.or_false]

/-- What follows the list of a block is parsed as the rule says. -/
theorem means_controlEnd {bodies : Bodies} {bound : Nat} (hbodies : bodies.Mean bound)
    (kind : Control) (e : ListEnd) :
    Means State.place State.place (Short bound) (controlEnd bodies kind e) fun v _ w ↦
      AfterList kind e v w := by
  cases e with
  | atEnd => exact means_endAction.congr fun _ _ _ ↦ Iff.rfl
  | atElse => exact means_elseBranch hbodies kind
  | stopped => exact (means_pure ()).congr fun v _ w ↦ by simp [AfterList]

/-- Only a condition or a binding goes on with another one of its kind. -/
theorem chained?_eq_some_iff {kind nested : Control} {word : Option TokenKind} :
    chained? kind word = some nested ↔
      nested = kind ∧ kind ≠ .rangeBlock ∧ word = some (.keyword kind.word) := by
  constructor
  · intro h
    unfold chained? at h
    split at h
    · exact ⟨(Option.some.inj h).symm, by decide, rfl⟩
    · exact ⟨(Option.some.inj h).symm, by decide, rfl⟩
    · exact absurd h (by simp)
  · rintro ⟨rfl, hkind, rfl⟩
    cases nested with
    | ifBlock => rfl
    | withBlock => rfl
    | rangeBlock => exact absurd rfl hkind

/-- The place behind a word that no left delimiter is in front of. -/
theorem pastWord_of_keyword {v : Place} {word : Keyword} (h : v.kind? = some (.keyword word)) :
    v.pastWord = v.tail := by
  rw [Place.pastWord, if_neg]
  rw [h]
  exact fun hleft ↦ by simp at hleft

/-- What follows the list of a block is its tail. -/
theorem tail_of_afterList {kind : Control} {e : ListEnd} {u w : Place}
    (hend : e = .atEnd ∧ u.word? = some (.keyword .endWord) ∨
      e = .atElse ∧ u.word? = some (.keyword .elseWord)) (h : AfterList kind e u w) :
    ∃ rs, Tail (0 < u.loops) kind u.vars rs ∧ u.ahead = rs ++ w.ahead ∧ w.loops = u.loops := by
  rcases hend with ⟨rfl, hword⟩ | ⟨rfl, hword⟩
  · obtain ⟨close, hmarks, hahead, -, hloops⟩ := marks_iff.mp ⟨hword, h⟩
    exact ⟨close, .close hmarks, hahead, hloops⟩
  · obtain ⟨e, x, hchoice, hrest⟩ := h
    unfold ElseChoiceMeaning at hchoice
    split at hchoice
    next nested hchained =>
      obtain ⟨rfl, hkind, hnext⟩ := chained?_eq_some_iff.mp hchained
      obtain ⟨⟨ps, hguarded, hps, -, hloops⟩, rfl⟩ := hchoice
      obtain rfl : w = x := by simpa using hrest
      obtain ⟨start, hopens, hstart⟩ := word?_eq_some_iff.mp hword
      obtain ⟨y, r, hy, hykind⟩ := exists_cons_of_kind? hnext
      rw [pastWord_of_keyword hnext, Place.tail, hy, List.tail_cons] at hps
      obtain rfl : r = ps ++ w.ahead := hps
      refine ⟨start ++ y :: ps, .chained hkind hopens hykind hguarded, ?_, hloops⟩
      rw [hstart, hy, List.append_assoc, List.cons_append]
    next hchained =>
      obtain ⟨hclose, hlist⟩ := hchoice
      obtain ⟨start, hmarks, hstart, -, -⟩ := marks_iff.mp ⟨hword, hclose, rfl⟩
      rcases hrest with ⟨rfl, hrest⟩ | ⟨rfl, -⟩
      · obtain ⟨ps, close, hitems, hclose', hps, hloops⟩ := endedMeaning_iff.mp ⟨x, hlist, hrest⟩
        refine ⟨start ++ ps ++ close, .otherwise hmarks hitems hclose', ?_, hloops⟩
        rw [hstart, hps]
        simp
      · obtain ⟨_, _, _, _, hend⟩ := hlist
        exact absurd hend (by simp)

/-- The tail of a block is parsed behind its list. -/
theorem afterList_of_tail {kind : Control} {vars : List String} {loops : Nat} {rs r : List Piece}
    (h : Tail (0 < loops) kind vars rs) :
    ∃ e vars', ((e = .atEnd ∧ Place.word? ⟨rs ++ r, vars, loops⟩ = some (.keyword .endWord) ∨
      e = .atElse ∧ Place.word? ⟨rs ++ r, vars, loops⟩ = some (.keyword .elseWord)) ∧
        AfterList kind e ⟨rs ++ r, vars, loops⟩ ⟨r, vars', loops⟩) := by
  generalize hl : decide (0 < loops) = inLoop at h
  cases h with
  | close hmarks =>
    obtain ⟨hword, hclose, hw⟩ := (marks_iff (v := ⟨rs ++ r, vars, loops⟩)
      (w := ⟨r, vars, loops⟩)).mpr ⟨rs, hmarks, rfl, rfl, rfl⟩
    exact ⟨.atEnd, vars, .inl ⟨rfl, hword⟩, hclose, hw⟩
  | @otherwise _ _ _ vars' start ps close hmarks hitems hclose =>
    subst hl
    obtain ⟨hword, hopen, hw⟩ := (marks_iff (v := ⟨start ++ ps ++ close ++ r, vars, loops⟩)
      (w := ⟨ps ++ (close ++ r), vars, loops⟩)).mpr ⟨start, hmarks, by simp, rfl, rfl⟩
    obtain ⟨x, hlist, hend⟩ := (endedMeaning_iff (v := ⟨ps ++ (close ++ r), vars, loops⟩)
      (w := ⟨r, vars', loops⟩)).mpr ⟨ps, close, hitems, hclose, rfl, rfl⟩
    have hnone : chained? kind
        (Place.tail (Place.tail ⟨start ++ ps ++ close ++ r, vars, loops⟩)).kind? = none := by
      rw [hopen]
      cases kind <;> rfl
    refine ⟨.atElse, vars', .inr ⟨rfl, hword⟩, .atEnd, x, ?_, .inl ⟨rfl, hend⟩⟩
    rw [ElseChoiceMeaning, hnone]
    refine ⟨hopen, ?_⟩
    rw [← hw]
    exact hlist
  | @chained _ _ _ _ ps y hkind hopens hy hguarded =>
    subst hl
    obtain ⟨left, e, rfl, hleft, he⟩ := hopens
    have hword : Place.word? ⟨[left, e] ++ y :: ps ++ r, vars, loops⟩ = some (.keyword .elseWord) :=
      word?_eq_some_iff.mpr ⟨[left, e], ⟨left, e, rfl, hleft, he⟩, rfl⟩
    have hnext : Place.kind? ⟨y :: ps ++ r, vars, loops⟩ = some (.keyword kind.word) :=
      congrArg some hy
    refine ⟨.atElse, vars, .inr ⟨rfl, hword⟩, .stopped, ⟨r, vars, loops⟩, ?_, .inr ⟨rfl, rfl⟩⟩
    change ElseChoiceMeaning kind ⟨y :: ps ++ r, vars, loops⟩ _ _
    rw [ElseChoiceMeaning, chained?_eq_some_iff.mpr ⟨rfl, hkind, hnext⟩]
    refine ⟨⟨ps, hguarded, ?_, rfl, rfl⟩, rfl⟩
    rw [pastWord_of_keyword hnext]
    rfl

/-- The parts of a block one after the other: `u` is where the pipeline in its header ends, and `x`
where its list does. -/
def GuardSteps (kind : Control) (v w : Place) : Prop :=
  ∃ u e x, PipelineMeaning maxDepth (kind = .rangeBlock) .rightDelim v.pastWord u ∧
    ListMeaning (0 < u.loops || kind = .rangeBlock) u.tail e x ∧ AfterList kind e x w

/-- The header, the list and what follows it are the rule for blocks. -/
theorem guardMeaning_iff {kind : Control} {v w : Place} :
    (∃ u, GuardSteps kind v u ∧ w = { u with vars := v.vars }) ↔ GuardMeaning kind v w := by
  have hvars : v.pastWord.vars = v.vars := by
    rw [Place.pastWord]
    split <;> rfl
  have hloops : v.pastWord.loops = v.loops := by
    rw [Place.pastWord]
    split <;> rfl
  constructor
  · rintro ⟨w, ⟨u, e, x, ⟨ps, hheader, hps, hclose, huloops⟩, ⟨qs, hitems, hqs, hxloops, hend⟩,
      hafter⟩, rfl⟩
    obtain ⟨rs, htail, hrs, hwloops⟩ := tail_of_afterList hend hafter
    obtain ⟨right, r, hr, hright⟩ := exists_cons_of_kind? hclose
    rw [Place.tail, hr, List.tail_cons] at hqs
    have hxloops : x.loops = v.loops := by rw [hxloops, Place.tail, huloops, hloops]
    rw [hvars] at hheader
    rw [huloops, hloops] at hitems
    rw [hxloops] at htail
    refine ⟨ps ++ right :: qs ++ rs, .mk hheader hright hitems htail, ?_, rfl, ?_⟩
    · have hqs : r = qs ++ x.ahead := hqs
      rw [hps, hr, hqs, hrs]
      simp
    · exact hwloops.trans hxloops
  · rintro ⟨ps, hguarded, hahead, hwvars, hwloops⟩
    obtain ⟨ahead, vars, loops⟩ := w
    obtain rfl : vars = v.vars := hwvars
    obtain rfl : loops = v.loops := hwloops
    generalize hl : decide (0 < v.loops) = inLoop at hguarded
    cases hguarded with
    | @mk _ _ _ vars' vars'' right ps qs rs hheader hright hitems htail =>
      subst hl
      obtain ⟨e, vars, hend, hafter⟩ := afterList_of_tail (r := ahead) htail
      refine ⟨⟨ahead, vars, v.loops⟩, ⟨⟨right :: (qs ++ (rs ++ ahead)), vars', v.loops⟩, e,
        ⟨rs ++ ahead, vars'', v.loops⟩, ⟨ps, ?_, ?_, congrArg some hright, hloops.symm⟩,
        ⟨qs, hitems, rfl, rfl, hend⟩, hafter⟩, rfl⟩
      · rw [hvars]
        exact hheader
      · rw [hahead]
        simp

/-- A pipeline takes a piece. -/
theorem length_lt_of_pipelineMeaning {depth : Nat} {inRange : Bool} {close : TokenKind}
    {v w : Place} (h : PipelineMeaning depth inRange close v w) :
    w.ahead.length < v.ahead.length := by
  obtain ⟨ps, hpipeline, hahead, -, -⟩ := h
  obtain ⟨p, r, rfl, -⟩ := startsOperand_of_pipeline hpipeline
  rw [hahead, List.length_append, List.length_cons]
  omega

/-- The pipeline of an action and the right delimiter, which is there where a pipeline ends. -/
theorem means_header {β : Type} {bound : Nat} (context : Context) {k : Bool → Parser β}
    {S : Place → β → Place → Prop}
    (hk : ∀ b, Means State.place State.place (Short bound) (k b) S) :
    Means State.place State.place (Short (bound + 1))
      (actionPipeline context >>= fun _ ↦ eat .rightDelim >>= k) fun v b w ↦
        ∃ u, PipelineMeaning maxDepth (context = .header .rangeBlock) .rightDelim v u ∧
          S u.tail b w := by
  have hpipeline := (means_actionPipeline context).mono (D := Short (bound + 1)) fun _ _ ↦ trivial
  refine (hpipeline.bind_shorter (fun _ ↦ (means_eat .rightDelim).bind_short hk)
    fun _ _ _ ↦ length_lt_of_pipelineMeaning).congr fun v b w ↦ ?_
  constructor
  · rintro ⟨_, u, hpipeline, _, x, hx, hS⟩
    obtain ⟨_, _, _, hclose, _⟩ := id hpipeline
    rw [if_pos hclose] at hx
    obtain ⟨-, rfl⟩ := hx
    exact ⟨u, hpipeline, hS⟩
  · rintro ⟨u, hpipeline, hS⟩
    obtain ⟨_, _, _, hclose, _⟩ := id hpipeline
    refine ⟨(), u, hpipeline, true, u.tail, ?_, hS⟩
    rw [if_pos hclose]
    exact ⟨rfl, rfl⟩

/-- The word and the header of a block take two tokens, so the list has fewer in front of it. -/
theorem means_control {bodies : Bodies} {bound : Nat} (hbodies : bodies.Mean bound)
    (kind : Control) :
    Means State.place State.place (Short (bound + 2)) (control bodies kind) fun v _ w ↦
      GuardMeaning kind v w := by
  have hrest : Means State.place State.place (Short (bound + 1)) (controlRest bodies kind) _ :=
    means_header (.header kind) fun _ ↦
      (means_controlList hbodies kind).bind_short (means_controlEnd hbodies kind)
  have hword : Means State.place State.place (Short (bound + 2))
      (bump >>= fun _ ↦ controlRest bodies kind) _ := hrest.bump_shorter
  have hkind : decide (Context.header kind = .header .rangeBlock) = decide (kind = .rangeBlock) :=
    decide_eq_decide.mpr ⟨Context.header.inj, congrArg _⟩
  rw [control_eq]
  have hparts := (means_eat .leftDelim).bind_short fun _ ↦ hword
  refine (hparts.node_short rfl rfl).keepingVars.congr fun v _ w ↦ ?_
  have hpast : ∀ x : Place, (∃ b y, (if v.kind? = some .leftDelim then b = true ∧ y = v.tail
      else b = false ∧ y = v) ∧ x = y.tail) ↔ x = v.pastWord := by
    intro x
    rw [Place.pastWord]
    split <;> simp
  rw [← guardMeaning_iff]
  refine exists_congr fun z ↦ and_congr_left fun _ ↦ ?_
  constructor
  · rintro ⟨b, y, hy, u, hpipeline, e, x, hlist, hafter⟩
    rw [(hpast y.tail).mp ⟨b, y, hy, rfl⟩, hkind] at hpipeline
    exact ⟨u, e, x, hpipeline, hlist, hafter⟩
  · rintro ⟨u, e, x, hpipeline, hlist, hafter⟩
    obtain ⟨b, y, hy, hpast⟩ := (hpast v.pastWord).mpr rfl
    refine ⟨b, y, hy, u, ?_, e, x, hlist, hafter⟩
    rw [← hpast, hkind]
    exact hpipeline

end AlertAudit.Template.Parser
