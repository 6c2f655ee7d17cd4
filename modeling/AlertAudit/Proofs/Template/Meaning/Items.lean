import AlertAudit.Proofs.Template.Meaning.Block

/-!
The meaning of items, given that of what stands inside of them, and from it by induction on the
depth of the blocks the meaning of lists. Two tokens tell which of the rules for an item can be
followed, so an item that is parsed by one of them has no other reading.
-/

set_option autoImplicit false

namespace AlertAudit.Template.Parser

open Grammar

def ItemMeaning (v w : Place) : Prop :=
  ∃ ps, Item (0 < v.loops) v.vars ps w.vars ∧ v.ahead = ps ++ w.ahead ∧ w.loops = v.loops

/-- An item takes a piece. -/
theorem ItemMeaning.length_lt {v w : Place} (h : ItemMeaning v w) :
    w.ahead.length < v.ahead.length := by
  obtain ⟨ps, hitem, hahead, -⟩ := h
  obtain ⟨p, r, rfl, -⟩ := item_start hitem
  rw [hahead, List.length_append, List.length_cons]
  omega

/-! ### Actions -/

/-- An action that is a pipeline. -/
def PlainSteps (v w : Place) : Prop :=
  ∃ u, PipelineMeaning maxDepth false .rightDelim v.tail u ∧ w = u.tail

/-- A template that is defined and called at once. -/
def BlockSteps (v w : Place) : Prop :=
  ∃ name r, v.tail.tail.ahead = name :: r ∧ name.Names ∧
    ∃ u, PipelineMeaning maxDepth false .rightDelim v.tail.tail.tail u ∧ BodyMeaning u.tail w

/-- A call of a template. -/
def CallSteps (v w : Place) : Prop :=
  ∃ name r, v.tail.tail.ahead = name :: r ∧ name.Names ∧
    (v.tail.tail.tail.kind? = some .rightDelim ∧ w = v.tail.tail.tail.tail ∨
      ∃ u, PipelineMeaning maxDepth false .rightDelim v.tail.tail.tail u ∧ w = u.tail)

/-- An action that leaves or repeats a loop. -/
def LoopSteps (v w : Place) : Prop :=
  v.tail.tail.kind? = some .rightDelim ∧ 0 < v.loops ∧ w = v.tail.tail.tail

/-- The definition of a template. -/
def DefineSteps (v w : Place) : Prop :=
  ∃ name r, v.tail.tail.ahead = name :: r ∧ name.Names ∧
    v.tail.tail.tail.kind? = some .rightDelim ∧ BodyMeaning v.tail.tail.tail.tail w

/-- An action that is a pipeline. -/
def plainAction : Parser Unit :=
  node .action do
    bump
    actionPipeline .command
    let _ ← eat .rightDelim

/-- An action that is a pipeline is parsed step by step. -/
theorem means_plainAction (bound : Nat) :
    Means State.place State.place (Short (bound + 1)) plainAction fun v _ w ↦ PlainSteps v w := by
  have hheader : Means State.place State.place (Short (bound + 1))
      (do actionPipeline .command; let _ ← eat .rightDelim) _ :=
    means_header .command fun _ ↦ means_pure ()
  refine ((means_bump.then_eq_short hheader).node_short rfl rfl).congr fun v _ w ↦ ?_
  simp only [true_and]
  exact Iff.rfl

section Bodies

variable {bodies : Bodies} {bound : Nat} (hbodies : bodies.Mean bound)

include hbodies in
/-- So is a template that is defined and called at once. -/
theorem means_block :
    Means State.place State.place (Short (bound + 1)) (block bodies) fun v _ w ↦
      BlockSteps v w := by
  have hheader : Means State.place State.place (Short (bound + 1)) (do
      actionPipeline .blockClause
      let _ ← eat .rightDelim
      templateBody bodies .blockClause) _ :=
    means_header .blockClause fun _ ↦ means_templateBody hbodies .blockClause
  have hname := (means_templateName .blockClause).bind_short fun _ ↦ hheader
  refine ((means_bump.then_eq_short (means_bump.then_eq_short hname)).node_short rfl rfl).congr
    fun v _ w ↦ ?_
  constructor
  · rintro ⟨_, _, ⟨name, r, hahead, hnames, rfl⟩, u, hpipeline, hbody⟩
    exact ⟨name, r, hahead, hnames, u, hpipeline, hbody⟩
  · rintro ⟨name, r, hahead, hnames, u, hpipeline, hbody⟩
    exact ⟨(), _, ⟨name, r, hahead, hnames, rfl⟩, u, hpipeline, hbody⟩

include hbodies in
/-- So is the definition of a template. -/
theorem means_define :
    Means State.place State.place (Short bound) (define bodies) fun v _ w ↦ DefineSteps v w := by
  have hrest : Means State.place State.place (Short bound) (do
      let _ ← expect .rightDelim .defineClause
      templateBody bodies .defineClause) _ :=
    (means_expect .rightDelim .defineClause).bind_short fun _ ↦
      means_templateBody hbodies .defineClause
  have hname := (means_templateName .defineClause).bind_short fun _ ↦ hrest
  refine ((means_bump.then_eq_short (means_bump.then_eq_short hname)).node_short rfl rfl).congr
    fun v _ w ↦ ?_
  constructor
  · rintro ⟨_, _, ⟨name, r, hahead, hnames, rfl⟩, _, _, ⟨hclose, -, rfl⟩, hbody⟩
    exact ⟨name, r, hahead, hnames, hclose, hbody⟩
  · rintro ⟨name, r, hahead, hnames, hclose, hbody⟩
    exact ⟨(), _, ⟨name, r, hahead, hnames, rfl⟩, true, _, ⟨hclose, rfl, rfl⟩, hbody⟩

end Bodies

/-- So is a call of a template. -/
theorem means_call (bound : Nat) :
    Means State.place State.place (Short (bound + 1)) call fun v _ w ↦ CallSteps v w := by
  have hclose : Means State.place State.place (Short (bound + 1))
      (do let _ ← eat .rightDelim) _ := (means_eat .rightDelim).bind_short fun _ ↦ means_pure ()
  have hheader : Means State.place State.place (Short (bound + 1))
      (do actionPipeline .templateClause; let _ ← eat .rightDelim) _ :=
    means_header .templateClause fun _ ↦ means_pure ()
  have hargument : Means State.place State.place (Short (bound + 1)) (do
      unless ← failed do
        unless (← current) = some .rightDelim do actionPipeline .templateClause
      let _ ← eat .rightDelim) _ :=
    Means.unless_failed hclose.grows (means_current.bind_eq_short fun _ ↦
      means_ite hclose hheader)
  have hname := (means_templateName .templateClause).bind_short fun _ ↦ hargument
  refine ((means_bump.then_eq_short (means_bump.then_eq_short hname)).node_short rfl rfl).congr
    fun v _ w ↦ ?_
  constructor
  · rintro ⟨_, _, ⟨name, r, hahead, hnames, rfl⟩, hrest⟩
    refine ⟨name, r, hahead, hnames, ?_⟩
    by_cases hclose : v.tail.tail.tail.kind? = some .rightDelim
    · simp only [if_pos hclose] at hrest
      obtain ⟨_, _, ⟨-, rfl⟩, -, rfl⟩ := hrest
      exact .inl ⟨hclose, rfl⟩
    · rw [if_neg hclose] at hrest
      obtain ⟨u, hpipeline, -, rfl⟩ := hrest
      exact .inr ⟨u, hpipeline, rfl⟩
  · rintro ⟨name, r, hahead, hnames, hrest⟩
    refine ⟨(), _, ⟨name, r, hahead, hnames, rfl⟩, ?_⟩
    by_cases hclose : v.tail.tail.tail.kind? = some .rightDelim
    · simp only [if_pos hclose]
      rcases hrest with ⟨-, rfl⟩ | ⟨u, ⟨ps, hpipeline, hahead, -⟩, -⟩
      · exact ⟨true, _, ⟨rfl, rfl⟩, trivial, rfl⟩
      · obtain ⟨p, r, rfl, hstart⟩ := startsOperand_of_pipeline hpipeline
        rw [Place.kind?, hahead] at hclose
        have hclose : p.kind = .rightDelim := by simpa using hclose
        rw [hclose] at hstart
        exact absurd hstart (by decide)
    · rw [if_neg hclose]
      obtain ⟨u, hpipeline, rfl⟩ := hrest.resolve_left fun h ↦ hclose h.1
      exact ⟨u, hpipeline, rfl, rfl⟩

/-- An action that leaves or repeats a loop stands in one. -/
theorem means_insideLoop {C : State → Prop} (cause : Cause) :
    Means State.place State.place C (do if (← get).loops = 0 then fail cause) fun v _ w ↦
      0 < v.loops ∧ w = v := by
  refine ⟨grows_bind grows_get fun s ↦ grows_ite (grows_fail _) (grows_pure _),
    fun s hs hC a w ↦ ?_⟩
  have hfail : Means State.place State.place C (fail cause) _ := means_fail cause
  have hpure : Means State.place State.place C (pure ()) _ := means_pure ()
  rw [bind_apply, get_apply]
  by_cases hloops : s.loops = 0
  · have hpos : ¬0 < s.place.loops := Nat.not_lt.mpr (Nat.le_of_eq hloops)
    rw [if_pos hloops, hfail.run s hs hC a w]
    simp only [hpos, false_and]
  · have hpos : 0 < s.place.loops := Nat.pos_of_ne_zero hloops
    rw [if_neg hloops, hpure.run s hs hC a w]
    simp only [hpos, true_and]

/-- Such an action is parsed step by step. -/
theorem means_loopAction {C : State → Prop} {kind : NodeKind} (hC : Blind C)
    (hframe : kind.isFrame = false) (hoperand : kind.isOperand = false) (context : Context) :
    Means State.place State.place C (loopAction kind context) fun v _ w ↦ LoopSteps v w := by
  have hrest : Means State.place State.place Anywhere (do
      if ← expect .rightDelim context then
        if (← get).loops = 0 then fail (.outsideLoop context)) _ :=
    (means_expect .rightDelim context).bind fun _ ↦
      means_ite (means_insideLoop (.outsideLoop context)) (means_pure ())
  have hword : Means State.place State.place Anywhere (do
      bump
      if ← expect .rightDelim context then
        if (← get).loops = 0 then fail (.outsideLoop context)) _ := means_bump.then_eq hrest
  refine (Means.node blind_place blind_place hC hframe hoperand
    (means_bump.then_eq hword)).congr fun v _ w ↦ ?_
  constructor
  · rintro ⟨_, _, ⟨hclose, rfl, rfl⟩, hloops, hw⟩
    exact ⟨hclose, hloops, hw⟩
  · rintro ⟨hclose, hloops, hw⟩
    exact ⟨true, _, ⟨hclose, rfl, rfl⟩, hloops, hw⟩

/-! ### Items -/

/-- An action by the word behind its left delimiter. -/
def ActionSteps (v w : Place) : Prop :=
  match v.tail.kind? with
  | some (.keyword .ifWord) => GuardMeaning .ifBlock v w
  | some (.keyword .withWord) => GuardMeaning .withBlock v w
  | some (.keyword .rangeWord) => GuardMeaning .rangeBlock v w
  | some (.keyword .blockWord) => BlockSteps v w
  | some (.keyword .templateWord) => CallSteps v w
  | some (.keyword .breakWord) | some (.keyword .continueWord) => LoopSteps v w
  | _ => PlainSteps v w

/-- An item by its first token. -/
def ItemSteps (v w : Place) : Prop :=
  match v.kind? with
  | some .text | some .comment => w = v.tail
  | some .leftDelim => ActionSteps v w
  | _ => False

/-- An action, by the word behind its left delimiter. -/
def wordAction (bodies : Bodies) : Option TokenKind → Parser Unit
  | some (.keyword .ifWord) => bodies.control .ifBlock
  | some (.keyword .withWord) => bodies.control .withBlock
  | some (.keyword .rangeWord) => bodies.control .rangeBlock
  | some (.keyword .blockWord) => block bodies
  | some (.keyword .templateWord) => call
  | some (.keyword .breakWord) => loopAction .breakLoop .breakAction
  | some (.keyword .continueWord) => loopAction .continueLoop .continueAction
  | _ => plainAction

/-- An action is told by the word behind its left delimiter. -/
theorem action_eq (bodies : Bodies) : action bodies = second >>= wordAction bodies := rfl

/-- An item, by its first token. -/
def kindItem (bodies : Bodies) : Option TokenKind → Parser Unit
  | some .text => bump
  | some .comment => node .comment bump
  | some .leftDelim => action bodies
  | _ => unexpected .input

/-- An item is told by its first token. -/
theorem item_eq (bodies : Bodies) : item bodies = current >>= kindItem bodies := rfl

section Bodies

variable {bodies : Bodies} {bound : Nat} (hbodies : bodies.Mean bound)

include hbodies in
/-- An action is parsed step by step. -/
theorem means_action :
    Means State.place State.place (Short (bound + 1)) (action bodies) fun v _ w ↦
      ActionSteps v w := by
  have hword : ∀ word : Option TokenKind, Means State.place State.place (Short (bound + 1))
      (wordAction bodies word) fun v _ w ↦ match word with
        | some (.keyword .ifWord) => GuardMeaning .ifBlock v w
        | some (.keyword .withWord) => GuardMeaning .withBlock v w
        | some (.keyword .rangeWord) => GuardMeaning .rangeBlock v w
        | some (.keyword .blockWord) => BlockSteps v w
        | some (.keyword .templateWord) => CallSteps v w
        | some (.keyword .breakWord) | some (.keyword .continueWord) => LoopSteps v w
        | _ => PlainSteps v w := by
    intro word
    unfold wordAction
    split
    · exact hbodies.control .ifBlock
    · exact hbodies.control .withBlock
    · exact hbodies.control .rangeBlock
    · exact means_block hbodies
    · exact means_call bound
    · exact means_loopAction (blind_short _) rfl rfl _
    · exact means_loopAction (blind_short _) rfl rfl _
    · exact means_plainAction bound
  exact (means_second.bind_eq_short hword).congr fun _ _ _ ↦ Iff.rfl

include hbodies in
/-- An item is parsed step by step. -/
theorem means_itemSteps :
    Means State.place State.place (Short (bound + 1)) (item bodies) fun v _ w ↦
      ItemSteps v w := by
  have hkind : ∀ kind : Option TokenKind, Means State.place State.place (Short (bound + 1))
      (kindItem bodies kind) fun v _ w ↦ match kind with
        | some .text | some .comment => w = v.tail
        | some .leftDelim => ActionSteps v w
        | _ => False := by
    intro kind
    unfold kindItem
    split
    · exact means_bump
    · exact means_bump.node_short rfl rfl
    · exact means_action hbodies
    · exact means_unexpected .input
  exact (means_current.bind_eq_short hkind).congr fun _ _ _ ↦ Iff.rfl

end Bodies

/-! ### The rules for items -/

/-- The body of a template is items without a loop around them, with the end action behind them. -/
theorem bodyMeaning_iff {v w : Place} : BodyMeaning v w ↔
    ∃ ps close vars, Items false ["$"] ps vars ∧ Marks .endWord close ∧
      v.ahead = ps ++ (close ++ w.ahead) ∧ w.vars = v.vars ∧ w.loops = v.loops := by
  constructor
  · rintro ⟨u, ⟨ps, close, hitems, hclose, hahead, -⟩, rfl⟩
    exact ⟨ps, close, u.vars, hitems, hclose, hahead, rfl, rfl⟩
  · rintro ⟨ps, close, vars, hitems, hclose, hahead, hvars, hloops⟩
    refine ⟨⟨w.ahead, vars, 0⟩, ⟨ps, close, hitems, hclose, hahead, rfl⟩, ?_⟩
    rw [← hvars, ← hloops]

/-- The word of an action stands behind its left delimiter. -/
theorem kind?_tail_of_word? {v : Place} {kind : TokenKind} (h : v.word? = some kind) :
    v.kind? = some .leftDelim ∧ v.tail.kind? = some kind := by
  rw [Place.word?] at h
  split at h
  next hleft => exact ⟨hleft, h⟩
  next => exact absurd h (by simp)

/-- What stands behind a left delimiter is the word of an action. -/
theorem word?_of_kind? {v : Place} {kind : Option TokenKind} (hleft : v.kind? = some .leftDelim)
    (hkind : v.tail.kind? = kind) : v.word? = kind := by
  rw [Place.word?, if_pos hleft, hkind]

/-- A block is an item. -/
theorem itemMeaning_of_guardMeaning (kind : Control) {v w : Place}
    (hword : v.word? = some (.keyword kind.word)) (h : GuardMeaning kind v w) :
    ItemMeaning v w := by
  obtain ⟨ps, hguarded, hahead, hvars, hloops⟩ := h
  obtain ⟨start, hopens, hstart⟩ := word?_eq_some_iff.mp hword
  rw [Place.pastWord, if_pos (kind?_tail_of_word? hword).1] at hahead
  refine ⟨start ++ ps, ?_, ?_, hloops⟩
  · rw [hvars]
    exact .guarded hopens hguarded
  · rw [hstart, hahead, List.append_assoc]

/-- A template that is defined and called at once is an item. -/
theorem itemMeaning_of_blockSteps {v w : Place} (hword : v.word? = some (.keyword .blockWord))
    (h : BlockSteps v w) : ItemMeaning v w := by
  obtain ⟨name, r, hname, hnames, u, ⟨ps, hheader, hps, hclose, hloops⟩, hbody⟩ := h
  obtain ⟨qs, close, vars, hitems, hmarks, hqs, hvars, hloops'⟩ := bodyMeaning_iff.mp hbody
  obtain ⟨start, hopens, hstart⟩ := word?_eq_some_iff.mp hword
  obtain ⟨right, r', hr', hright⟩ := exists_cons_of_kind? hclose
  refine ⟨start ++ name :: ps ++ right :: qs ++ close, ?_, ?_, hloops'.trans hloops⟩
  · rw [hvars]
    exact .block hopens hnames hheader hright hitems hmarks
  · have hps : r = ps ++ u.ahead := by rw [← hps, Place.tail, hname, List.tail_cons]
    have hqs : r' = qs ++ (close ++ w.ahead) := by rw [← hqs, Place.tail, hr', List.tail_cons]
    rw [hstart, hname, hps, hr', hqs]
    simp

/-- A call of a template is an item. -/
theorem itemMeaning_of_callSteps {v w : Place} (hword : v.word? = some (.keyword .templateWord))
    (h : CallSteps v w) : ItemMeaning v w := by
  obtain ⟨name, r, hname, hnames, hrest⟩ := h
  obtain ⟨start, hopens, hstart⟩ := word?_eq_some_iff.mp hword
  have hr : v.tail.tail.tail.ahead = r := by rw [Place.tail, hname, List.tail_cons]
  rcases hrest with ⟨hclose, rfl⟩ | ⟨u, ⟨ps, hheader, hps, hclose, hloops⟩, rfl⟩
  · obtain ⟨right, r', hr', hright⟩ := exists_cons_of_kind? hclose
    refine ⟨start ++ [name, right], .call hopens hnames hright, ?_, rfl⟩
    rw [hstart, hname, ← hr, hr', Place.tail, hr']
    simp
  · obtain ⟨right, r', hr', hright⟩ := exists_cons_of_kind? hclose
    refine ⟨start ++ name :: ps ++ [right], .callWith hopens hnames hheader hright, ?_, hloops⟩
    rw [hstart, hname, ← hr, hps, Place.tail, hr']
    simp

/-- An action that leaves or repeats a loop is an item, if it stands in one. -/
theorem itemMeaning_of_loopSteps {v w : Place} (hword : v.word? = some (.keyword .breakWord) ∨
    v.word? = some (.keyword .continueWord)) (h : LoopSteps v w) : ItemMeaning v w := by
  obtain ⟨hclose, hpos, rfl⟩ := h
  rcases hword with hword | hword
  · obtain ⟨ps, hmarks, hahead, hvars, hloops⟩ := marks_iff.mp ⟨hword, hclose, rfl⟩
    refine ⟨ps, ?_, hahead, hloops⟩
    rw [hvars, decide_eq_true hpos]
    exact .breaks hmarks
  · obtain ⟨ps, hmarks, hahead, hvars, hloops⟩ := marks_iff.mp ⟨hword, hclose, rfl⟩
    refine ⟨ps, ?_, hahead, hloops⟩
    rw [hvars, decide_eq_true hpos]
    exact .continues hmarks

/-- An action that is a pipeline is an item. -/
theorem itemMeaning_of_plainSteps {v w : Place} (hleft : v.kind? = some .leftDelim)
    (h : PlainSteps v w) : ItemMeaning v w := by
  obtain ⟨u, ⟨ps, hheader, hps, hclose, hloops⟩, rfl⟩ := h
  obtain ⟨left, r, hr, hleft⟩ := exists_cons_of_kind? hleft
  obtain ⟨right, r', hr', hright⟩ := exists_cons_of_kind? hclose
  rw [Place.tail, hr, List.tail_cons] at hps
  refine ⟨left :: ps ++ [right], .action hleft hheader hright, ?_, hloops⟩
  have hps : r = ps ++ u.ahead := hps
  rw [hr, hps, Place.tail, hr']
  simp

/-- What is parsed step by step is an item of the grammar. -/
theorem itemMeaning_of_itemSteps {v w : Place} (h : ItemSteps v w) : ItemMeaning v w := by
  unfold ItemSteps at h
  split at h
  next hkind =>
    obtain ⟨p, r, hr, hkind⟩ := exists_cons_of_kind? hkind
    subst h
    exact ⟨[p], .text hkind, by rw [hr, Place.tail, hr]; rfl, rfl⟩
  next hkind =>
    obtain ⟨p, r, hr, hkind⟩ := exists_cons_of_kind? hkind
    subst h
    exact ⟨[p], .comment hkind, by rw [hr, Place.tail, hr]; rfl, rfl⟩
  next hleft =>
    unfold ActionSteps at h
    split at h
    next hword => exact itemMeaning_of_guardMeaning .ifBlock (word?_of_kind? hleft hword) h
    next hword => exact itemMeaning_of_guardMeaning .withBlock (word?_of_kind? hleft hword) h
    next hword => exact itemMeaning_of_guardMeaning .rangeBlock (word?_of_kind? hleft hword) h
    next hword => exact itemMeaning_of_blockSteps (word?_of_kind? hleft hword) h
    next hword => exact itemMeaning_of_callSteps (word?_of_kind? hleft hword) h
    next hword => exact itemMeaning_of_loopSteps (.inl (word?_of_kind? hleft hword)) h
    next hword => exact itemMeaning_of_loopSteps (.inr (word?_of_kind? hleft hword)) h
    next => exact itemMeaning_of_plainSteps hleft h
  next => exact absurd h id

/-- An action is an item with its steps. -/
theorem itemSteps_of_left {v w : Place} (hleft : v.kind? = some .leftDelim)
    (h : ActionSteps v w) : ItemSteps v w := by
  rw [ItemSteps, hleft]
  exact h

/-- No word of an action starts an operand. -/
theorem itemSteps_of_startsOperand {v w : Place} {kind : TokenKind}
    (hleft : v.kind? = some .leftDelim) (hkind : v.tail.kind? = some kind)
    (hstart : kind.startsOperand) (h : PlainSteps v w) : ItemSteps v w := by
  refine itemSteps_of_left hleft ?_
  unfold ActionSteps
  split
  next hword => exact absurd hstart (by rw [Option.some.inj (hkind.symm.trans hword)]; decide)
  next hword => exact absurd hstart (by rw [Option.some.inj (hkind.symm.trans hword)]; decide)
  next hword => exact absurd hstart (by rw [Option.some.inj (hkind.symm.trans hword)]; decide)
  next hword => exact absurd hstart (by rw [Option.some.inj (hkind.symm.trans hword)]; decide)
  next hword => exact absurd hstart (by rw [Option.some.inj (hkind.symm.trans hword)]; decide)
  next hword => exact absurd hstart (by rw [Option.some.inj (hkind.symm.trans hword)]; decide)
  next hword => exact absurd hstart (by rw [Option.some.inj (hkind.symm.trans hword)]; decide)
  next => exact h

/-- An action with a word is an item with the steps of the word. -/
theorem itemSteps_of_word {v w : Place} {word : Keyword} (hleft : v.kind? = some .leftDelim)
    (hword : v.tail.kind? = some (.keyword word)) (h : match word with
      | .ifWord => GuardMeaning .ifBlock v w
      | .withWord => GuardMeaning .withBlock v w
      | .rangeWord => GuardMeaning .rangeBlock v w
      | .blockWord => BlockSteps v w
      | .templateWord => CallSteps v w
      | .breakWord | .continueWord => LoopSteps v w
      | _ => False) : ItemSteps v w := by
  refine itemSteps_of_left hleft ?_
  rw [ActionSteps, hword]
  cases word <;> first | exact h | exact absurd h id

/-- The pieces of a rule for an item stand in front of the place behind it. -/
theorem itemSteps_of_item {ahead ps : List Piece} {vars vars' : List String} {loops : Nat}
    (h : Item (0 < loops) vars ps vars') :
    ItemSteps ⟨ps ++ ahead, vars, loops⟩ ⟨ahead, vars', loops⟩ := by
  generalize hl : decide (0 < loops) = inLoop at h
  cases h with
  | text hkind =>
    rw [ItemSteps, Place.kind?, List.cons_append, List.head?_cons, Option.map_some, hkind]
    rfl
  | comment hkind =>
    rw [ItemSteps, Place.kind?, List.cons_append, List.head?_cons, Option.map_some, hkind]
    rfl
  | @action _ _ _ left right ps hleft hheader hright =>
    obtain ⟨p, r, rfl, hstart⟩ := startsOperand_of_pipeline hheader
    refine itemSteps_of_startsOperand (congrArg some hleft) rfl hstart ?_
    refine ⟨⟨right :: ahead, vars', loops⟩, ⟨p :: r, hheader, ?_, congrArg some hright, rfl⟩, rfl⟩
    simp [Place.tail]
  | @guarded _ _ kind _ ps hopens hguarded =>
    subst hl
    obtain ⟨left, w, rfl, hleft, hw⟩ := hopens
    have hpast : Place.pastWord ⟨[left, w] ++ ps ++ ahead, vars, loops⟩ =
        ⟨ps ++ ahead, vars, loops⟩ := if_pos (congrArg some hleft)
    have hmeaning : GuardMeaning kind ⟨[left, w] ++ ps ++ ahead, vars, loops⟩
        ⟨ahead, vars, loops⟩ := ⟨ps, hguarded, by rw [hpast], rfl, rfl⟩
    refine itemSteps_of_word (congrArg some hleft) (congrArg some hw) ?_
    cases kind with
    | ifBlock => exact hmeaning
    | withBlock => exact hmeaning
    | rangeBlock => exact hmeaning
  | @block _ _ _ vars'' start ps qs close name right hopens hnames hheader hright hitems hmarks =>
    obtain ⟨left, w, rfl, hleft, hw⟩ := hopens
    refine itemSteps_of_word (congrArg some hleft) (congrArg some hw) ?_
    refine ⟨name, _, rfl, hnames, ⟨right :: (qs ++ (close ++ ahead)), vars', loops⟩,
      ⟨ps, hheader, by simp [Place.tail], congrArg some hright, rfl⟩, ?_⟩
    exact bodyMeaning_iff.mpr ⟨qs, close, vars'', hitems, hmarks, rfl, rfl, rfl⟩
  | @call _ _ start name right hopens hnames hright =>
    obtain ⟨left, w, rfl, hleft, hw⟩ := hopens
    refine itemSteps_of_word (congrArg some hleft) (congrArg some hw) ?_
    exact ⟨name, _, rfl, hnames, .inl ⟨congrArg some hright, rfl⟩⟩
  | @callWith _ _ _ start ps name right hopens hnames hheader hright =>
    obtain ⟨left, w, rfl, hleft, hw⟩ := hopens
    refine itemSteps_of_word (congrArg some hleft) (congrArg some hw) ?_
    refine ⟨name, _, rfl, hnames, .inr ⟨⟨right :: ahead, vars', loops⟩, ?_, rfl⟩⟩
    exact ⟨ps, hheader, by simp [Place.tail], congrArg some hright, rfl⟩
  | breaks hmarks =>
    obtain ⟨left, w, right, rfl, hleft, hw, hright⟩ := hmarks
    refine itemSteps_of_word (congrArg some hleft) (congrArg some hw) ?_
    exact ⟨congrArg some hright, of_decide_eq_true hl, rfl⟩
  | continues hmarks =>
    obtain ⟨left, w, right, rfl, hleft, hw, hright⟩ := hmarks
    refine itemSteps_of_word (congrArg some hleft) (congrArg some hw) ?_
    exact ⟨congrArg some hright, of_decide_eq_true hl, rfl⟩

/-- The steps of an item are the rules for items. -/
theorem itemSteps_iff {v w : Place} : ItemSteps v w ↔ ItemMeaning v w := by
  refine ⟨itemMeaning_of_itemSteps, ?_⟩
  obtain ⟨ahead, vars, loops⟩ := v
  obtain ⟨ahead', vars', loops'⟩ := w
  rintro ⟨ps, hitem, hahead, hloops⟩
  obtain rfl : ahead = ps ++ ahead' := hahead
  obtain rfl : loops' = loops := hloops
  exact itemSteps_of_item hitem

/-- An item is parsed as the rules say. -/
theorem means_item {bodies : Bodies} {bound : Nat} (hbodies : bodies.Mean bound) :
    Means State.place State.place (Short (bound + 1)) (item bodies) fun v _ w ↦ ItemMeaning v w :=
  (means_itemSteps hbodies).congr fun _ _ _ ↦ itemSteps_iff

/-! ### Lists -/

section Rules

variable {α : Type} {C : State → Prop}

/-- What always records an error means a relation that does not hold of what it can meet. -/
theorem means_of_impossible {p : Parser α} {R : Place → α → Place → Prop} (hgrows : Grows p)
    (hfails : ∀ s, (p s).2.error.isSome) (hR : ∀ s, C s → ∀ a w, ¬R s.place a w) :
    Means State.place State.place C p R := by
  refine ⟨hgrows, fun s _ hC a w ↦ ⟨?_, fun h ↦ absurd h (hR s hC a w)⟩⟩
  rintro ⟨herror, -, -⟩
  exact absurd herror (Option.isSome_iff_ne_none.mp (hfails s))

/-- What takes tokens does not run at the end of the input. -/
theorem Means.unless_stopped {p q : Parser α} {R : Place → α → Place → Prop} (hq : Grows q)
    (hfails : ∀ s, (q s).2.error.isSome) (h : Means State.place State.place C p R)
    (hR : ∀ v a w, R v a w → v.ahead ≠ []) :
    Means State.place State.place C (do if ← stopped then q else p) R := by
  refine ⟨grows_bind grows_stopped fun _ ↦ grows_ite hq h.grows, fun s hs hC a w ↦ ?_⟩
  rw [bind_apply, stopped_apply, hs, Option.isSome_none, Bool.false_or]
  by_cases hrest : s.rest = []
  · have hplace : s.place.ahead = [] := by rw [State.place, hrest]; rfl
    rw [if_pos (List.isEmpty_iff.mpr hrest)]
    constructor
    · rintro ⟨herror, -, -⟩
      exact absurd herror (Option.isSome_iff_ne_none.mp (hfails s))
    · exact fun h ↦ absurd hplace (hR _ _ _ h)
  · rw [if_neg (mt List.isEmpty_iff.mp hrest)]
    exact h.run s hs hC a w

end Rules

/-- What follows in a list, by the word of the next action. -/
def listItem (bodies : Bodies) : Option TokenKind → Parser (Bool × ListEnd)
  | some (.keyword .endWord) => return (false, .atEnd)
  | some (.keyword .elseWord) => return (false, .atElse)
  | _ => do
    item bodies
    return (true, .stopped)

/-- One round of the loop over the items of a list. -/
def listStep (bodies : Bodies) : Parser (Bool × ListEnd) := do
  if ← stopped then
    fail .listNotClosed
    return (false, .stopped)
  listItem bodies (← actionWord)

/-- A list is a loop over its items in a node. -/
theorem list_eq (bodies : Bodies) :
    list bodies = node .list (iterate (fun _ ↦ listStep bodies) .stopped) := rfl

/-- One round of a list. -/
def ListStep (v : Place) (a : Bool × ListEnd) (w : Place) : Prop :=
  a = (false, .atEnd) ∧ w = v ∧ v.word? = some (.keyword .endWord) ∨
  a = (false, .atElse) ∧ w = v ∧ v.word? = some (.keyword .elseWord) ∨
  a = (true, .stopped) ∧ ItemMeaning v w

/-- An item does not start with a word that ends a list, and it defines no template. -/
theorem ItemMeaning.word?_ne {v w : Place} (h : ItemMeaning v w) :
    v.word? ≠ some (.keyword .endWord) ∧ v.word? ≠ some (.keyword .elseWord) ∧
      v.word? ≠ some (.keyword .defineWord) := by
  obtain ⟨ps, hitem, hahead, -⟩ := h
  obtain ⟨p, r, rfl, hstart⟩ := item_start hitem
  have hword : ∀ word : Keyword, opensItem (.keyword word) = false →
      v.word? ≠ some (.keyword word) := by
    intro word hopens hword
    obtain ⟨_, ⟨left, x, rfl, hleft, hx⟩, hstart'⟩ := word?_eq_some_iff.mp hword
    rw [hahead, List.cons_append, List.cons_append] at hstart'
    obtain ⟨rfl, hr⟩ := List.cons.inj hstart'
    rw [hleft] at hstart
    obtain ⟨q, r', rfl, hq⟩ := (hstart.resolve_left (by simp)).resolve_left (by simp) |>.2
    obtain ⟨rfl, -⟩ := List.cons.inj hr
    rw [hx, hopens] at hq
    exact Bool.false_ne_true hq
  exact ⟨hword _ rfl, hword _ rfl, hword _ rfl⟩

/-- A round takes an item, or ends the list in front of an end or else action. -/
theorem means_listStep {bodies : Bodies} {bound : Nat} (hbodies : bodies.Mean bound) :
    Means State.place State.place (Short (bound + 1)) (listStep bodies) fun v a w ↦
      ListStep v a w := by
  have hitem := (means_item hbodies).returning (true, ListEnd.stopped)
  have hword : ∀ word : Option TokenKind, Means State.place State.place (Short (bound + 1))
      (listItem bodies word) fun v a w ↦ match word with
        | some (.keyword .endWord) => a = (false, .atEnd) ∧ w = v
        | some (.keyword .elseWord) => a = (false, .atElse) ∧ w = v
        | _ => a = (true, .stopped) ∧ ItemMeaning v w := by
    intro word
    unfold listItem
    split
    · exact means_pure _
    · exact means_pure _
    · exact hitem
  have hround : Means State.place State.place (Short (bound + 1))
      (actionWord >>= listItem bodies) fun v a w ↦ ListStep v a w := by
    refine (means_actionWord.bind_eq_short hword).congr fun v a w ↦ ?_
    rw [ListStep]
    split
    next hend =>
      have hitem : ¬ItemMeaning v w := fun h ↦ h.word?_ne.1 hend
      simp [hend, hitem]
    next helse =>
      have hitem : ¬ItemMeaning v w := fun h ↦ h.word?_ne.2.1 helse
      simp [helse, hitem]
    next hend helse =>
      have hend : v.word? ≠ some (.keyword .endWord) := hend
      have helse : v.word? ≠ some (.keyword .elseWord) := helse
      simp [hend, helse]
  refine Means.unless_stopped (grows_bind (grows_fail _) fun _ ↦ grows_pure _)
    (fun s ↦ isSome_error_fail _ s) hround fun v a w hstep ↦ ?_
  intro hnil
  have hnone : v.word? = none := by rw [Place.word?, Place.kind?, hnil]; rfl
  rcases hstep with ⟨-, -, hend⟩ | ⟨-, -, helse⟩ | ⟨-, hitem⟩
  · exact absurd (hnone.symm.trans hend) (by simp)
  · exact absurd (hnone.symm.trans helse) (by simp)
  · exact absurd hitem.length_lt (by rw [hnil]; exact Nat.not_lt_zero _)

/-- The rounds of a list take items as the rules say. -/
theorem listMeaning_of_rounds {b e : ListEnd} {v w : Place}
    (h : Rounds (fun _ v a w ↦ ListStep v a w) b v e w) : ListMeaning (0 < v.loops) v e w := by
  induction h with
  | last hstep =>
    rcases hstep with ⟨hend, rfl, hword⟩ | ⟨helse, rfl, hword⟩ | ⟨hmore, -⟩
    · exact ⟨[], .nil, rfl, rfl, .inl ⟨congrArg Prod.snd hend, hword⟩⟩
    · exact ⟨[], .nil, rfl, rfl, .inr ⟨congrArg Prod.snd helse, hword⟩⟩
    · exact absurd (congrArg Prod.fst hmore) Bool.false_ne_true
  | more hstep _ ih =>
    rcases hstep with ⟨hend, -, -⟩ | ⟨helse, -, -⟩ | ⟨-, ps, hitem, hahead, hloops⟩
    · exact absurd (congrArg Prod.fst hend).symm Bool.false_ne_true
    · exact absurd (congrArg Prod.fst helse).symm Bool.false_ne_true
    · obtain ⟨qs, hitems, hqs, hloops', hend⟩ := ih
      rw [hloops] at hitems
      exact ⟨ps ++ qs, .cons hitem hitems, by rw [hahead, hqs, List.append_assoc],
        hloops'.trans hloops, hend⟩

/-- The items of a list are taken round by round. -/
theorem rounds_of_listMeaning {b e : ListEnd} {v w : Place}
    (h : ListMeaning (0 < v.loops) v e w) : Rounds (fun _ v a w ↦ ListStep v a w) b v e w := by
  induction hlength : v.ahead.length using Nat.strongRecOn generalizing b v with
  | ind length ih =>
    obtain ⟨ahead, vars, loops⟩ := v
    obtain ⟨ahead', vars', loops'⟩ := w
    obtain ⟨ps, hitems, hahead, hloops, hend⟩ := h
    obtain rfl : ahead = ps ++ ahead' := hahead
    obtain rfl : loops' = loops := hloops
    generalize hl : decide (0 < Place.loops _) = inLoop at hitems
    cases hitems with
    | nil =>
      rcases hend with ⟨rfl, hword⟩ | ⟨rfl, hword⟩
      · exact .last (.inl ⟨rfl, rfl, hword⟩)
      · exact .last (.inr (.inl ⟨rfl, rfl, hword⟩))
    | @cons _ _ vars₁ _ ps qs hitem hitems =>
      subst hl
      have hmeaning : ItemMeaning ⟨ps ++ qs ++ ahead', vars, loops'⟩
          ⟨qs ++ ahead', vars₁, loops'⟩ := ⟨ps, hitem, List.append_assoc _ _ _, rfl⟩
      exact .more (.inr (.inr ⟨rfl, hmeaning⟩))
        (ih _ (hlength ▸ hmeaning.length_lt) ⟨qs, hitems, rfl, rfl, hend⟩ rfl)

/-- A list is parsed as the rules say, on a short input. -/
theorem means_list {bodies : Bodies} {bound : Nat} (hbodies : bodies.Mean bound) :
    Means State.place State.place (Short (bound + 1)) (list bodies) fun v e w ↦
      ListMeaning (0 < v.loops) v e w := by
  have hstep := means_listStep hbodies
  have hrounds := Means.iterate (fun _ : ListEnd ↦ hstep)
    (fun _ _ hgrows hs ↦ Nat.le_trans hgrows.length_ahead_le hs)
    (fun _ s c _ h ↦ takes_of_ahead (hstep.grows s) (by
      rcases h with ⟨h, -, -⟩ | ⟨h, -, -⟩ | ⟨-, hitem⟩
      · exact absurd (congrArg Prod.fst h).symm Bool.false_ne_true
      · exact absurd (congrArg Prod.fst h).symm Bool.false_ne_true
      · exact hitem.length_lt)) .stopped
  rw [list_eq]
  exact (hrounds.node_short rfl rfl).congr fun v e w ↦
    ⟨listMeaning_of_rounds, rounds_of_listMeaning⟩

/-- A list does not end with the input. -/
theorem ListMeaning.ahead_ne_nil {inLoop : Bool} {v w : Place} {e : ListEnd}
    (h : ListMeaning inLoop v e w) : v.ahead ≠ [] := by
  obtain ⟨ps, -, hahead, -, hend⟩ := h
  obtain ⟨word, hword⟩ : ∃ word, w.word? = some (.keyword word) := by
    rcases hend with ⟨-, hword⟩ | ⟨-, hword⟩
    · exact ⟨_, hword⟩
    · exact ⟨_, hword⟩
  obtain ⟨_, ⟨left, x, rfl, -, -⟩, hw⟩ := word?_eq_some_iff.mp hword
  rw [hahead, hw]
  simp

/-- A block takes more than one piece. -/
theorem GuardMeaning.one_lt_length {kind : Control} {v w : Place} (h : GuardMeaning kind v w) :
    1 < v.ahead.length := by
  obtain ⟨ps, hguarded, hahead, -, -⟩ := h
  have hpast : v.pastWord.ahead ≠ [] := by
    cases hguarded with
    | mk _ _ _ _ =>
      rw [hahead]
      simp
  have htail : v.pastWord.ahead = v.ahead.tail.tail ∨ v.pastWord.ahead = v.ahead.tail := by
    rw [Place.pastWord]
    split
    · exact .inl rfl
    · exact .inr rfl
  have hlength := List.length_pos_iff.mpr hpast
  rcases htail with htail | htail
  · rw [htail, List.length_tail, List.length_tail] at hlength
    omega
  · rw [htail, List.length_tail] at hlength
    omega

/-- The parsers for bodies of a depth mean what the rules say, for inputs that are too short to
nest deeper. -/
theorem mean_bodiesTo : ∀ depth : Nat, (bodiesTo depth).Mean depth
  | 0 => by
    constructor
    · refine means_of_impossible (grows_bind (grows_fail _) fun _ ↦ grows_pure _)
        (fun s ↦ isSome_error_fail _ s) fun s hs e w hlist ↦ ?_
      exact hlist.ahead_ne_nil (List.eq_nil_of_length_eq_zero (Nat.le_zero.mp hs))
    · intro kind
      refine means_of_impossible (grows_fail _) (fun s ↦ isSome_error_fail _ s)
        fun s hs _ w hguard ↦ ?_
      exact absurd hguard.one_lt_length (Nat.not_lt.mpr hs)
  | depth + 1 =>
    ⟨means_list (mean_bodiesTo depth), fun kind ↦ means_control (mean_bodiesTo depth) kind⟩

end AlertAudit.Template.Parser
