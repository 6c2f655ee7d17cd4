import AlertAudit.Proofs.Template.Lookups
import AlertAudit.Proofs.Template.Outlines
import AlertAudit.Proofs.Template.Visits

/-!
The variables that the parser visits in items, along what spells them, and those of a whole
template. They are the visits of its outline (`visits_eq_itemsVisits`), and so are the lookups of a
reading, so where the parser finds a variable in scope a reading has it in scope as well, or is
going to declare it with a pipeline around the place (`lookups_agree`).
-/

set_option autoImplicit false

namespace AlertAudit.Template

namespace Parser

open Grammar

variable {α β : Type}

/-- What a log notes wherever `v` is seen, with white space in front or without. -/
def Notes (l : Log) (v : Place) (vs : List Visit) : Prop := ∀ gap, Logs l ⟨v, gap⟩ vs

section Rules

variable {l : Log} {p : Parser α} {f : α → Log} {u v : Place} {a : α} {parts : List Part}
  {vs vs' : List Visit}

theorem notes_silent (v : Place) : Notes .silent v [] := fun _ ↦ logs_silent _

/-- What is noted first comes in front of what is noted next. -/
theorem Notes.bind (hl : Notes l v vs) (hp : Passes p v a parts u) (hf : Notes (f a) u vs') :
    Notes (.bind l p f) v (vs ++ vs') := by
  intro gap
  obtain ⟨gap', hp⟩ := hp gap
  exact (hl gap).bind hp (hf gap')

/-- Nothing is noted in front of what follows. -/
theorem Notes.after (hp : Passes p v a parts u) (hf : Notes (f a) u vs) :
    Notes (.after p f) v vs := by
  intro gap
  obtain ⟨gap', hp⟩ := hp gap
  exact .after hp (hf gap')

/-- A node notes what is noted inside of it. -/
theorem Notes.node (h : Notes l v vs) : Notes (.node l) v vs := fun gap ↦ (h gap).node

/-- A choice notes what the side notes that is chosen. -/
theorem Notes.ite_left {c : Prop} [Decidable c] {l' : Log} (hc : c) (h : Notes l v vs) :
    Notes (if c then l else l') v vs := by
  rwa [if_pos hc]

/-- So it does on the other side. -/
theorem Notes.ite_right {c : Prop} [Decidable c] {l' : Log} (hc : ¬c) (h : Notes l v vs) :
    Notes (if c then l' else l) v vs := by
  rwa [if_neg hc]

variable {step : β → Parser (Bool × β)} {b c : β}

/-- The last round of a loop notes its own. -/
theorem Notes.iterate_last (hl : Notes l v vs) (h : Passes (step b) v (false, c) parts u) :
    Notes (.iterate step l b) v vs := by
  intro gap
  obtain ⟨gap', h⟩ := h gap
  exact (hl gap).iterate_last h

/-- A round notes its own in front of the rounds behind it. -/
theorem Notes.iterate_more (hl : Notes l v vs) (h : Passes (step b) v (true, c) parts u)
    (hfewer : u.ahead.length < v.ahead.length) (hrest : Notes (.iterate step l c) u vs') :
    Notes (.iterate step l b) v (vs ++ vs') := by
  intro gap
  obtain ⟨gap', h⟩ := h gap
  exact (hl gap).iterate_more h hfewer (hrest gap')

variable {ahead : List Piece} {vars : List String} {loops : Nat}

/-- What is noted inside of one more loop. -/
theorem Notes.inLoop (h : Notes l ⟨ahead, vars, loops + 1⟩ vs) :
    Notes (fun s ↦ l { s with loops := s.loops + 1 }) ⟨ahead, vars, loops⟩ vs := by
  intro gap s hs hspaces hv
  refine h gap { s with loops := s.loops + 1 } hs hspaces ?_
  rw [show s.loops = loops from congrArg (·.place.loops) hv]
  exact congrArg (fun v : View ↦ (⟨⟨v.place.ahead, v.place.vars, loops + 1⟩, v.gap⟩ : View)) hv

/-- What is noted in a scope of its own. -/
theorem Notes.isolated (h : Notes l ⟨ahead, ["$"], 0⟩ vs) :
    Notes (fun s ↦ l { s with vars := ["$"], loops := 0 }) ⟨ahead, vars, loops⟩ vs := by
  intro gap s hs hspaces hv
  exact h gap { s with vars := ["$"], loops := 0 } hs hspaces
    (congrArg (fun v : View ↦ (⟨⟨v.place.ahead, ["$"], 0⟩, v.gap⟩ : View)) hv)

end Rules

/-! ### Parts of items -/

section Parts

variable {r : List Piece} {vars : List String} {loops : Nat} {vs vs' : List Visit}

/-- What is noted in the pipeline of an action. -/
theorem notes_actionPipeline {ps : List Piece} {right : Piece} {pl : Template.Pipeline}
    {inRange : Bool} (context : Context)
    (hcontext : inRange = decide (context = .header .rangeBlock))
    (h : Spelling.Header inRange ps pl) (hscoped : WellScoped (pl.visits vars))
    (hright : right.kind = .rightDelim) :
    Notes (actionPipelineLog context) ⟨ps ++ right :: r, vars, loops⟩ (pl.visits vars) := fun gap ↦
  logs_pipeline gap context hcontext h hscoped (.inl rfl) (congrArg some hright)

/-- What is noted in the pipeline of an action and behind its right delimiter. -/
theorem notes_header {ps : List Piece} {right : Piece} {pl : Template.Pipeline} {inRange : Bool}
    (context : Context) (hcontext : inRange = decide (context = .header .rangeBlock))
    (h : Spelling.Header inRange ps pl) (hscoped : WellScoped (pl.visits vars))
    (hright : right.kind = .rightDelim) {l : Log} (hl : Notes l ⟨r, pl.varsAfter vars, loops⟩ vs) :
    Notes (.bind (actionPipelineLog context) (actionPipeline context) fun _ ↦
        .after (eat .rightDelim) fun _ ↦ l)
      ⟨ps ++ right :: r, vars, loops⟩ (pl.visits vars ++ vs) :=
  (notes_actionPipeline context hcontext h hscoped hright).bind
    (passes_actionPipeline context hcontext h hscoped hright)
    (.after (passes_eat hright r _ loops) hl)

/-- What is noted behind the name of a template. -/
theorem notes_named {word : Keyword} {start : List Piece} (hopens : Opens word start)
    (context : Context) {name : Piece} (hnames : name.Names) {l : Log}
    (h : Notes l ⟨r, vars, loops⟩ vs) :
    Notes (namedLog context l) ⟨start ++ name :: r, vars, loops⟩ vs := by
  obtain ⟨left, x, rfl, -, -⟩ := hopens
  exact .node (.after (passes_bump left _ vars loops) (.after (passes_bump x _ vars loops)
    (.after (passes_templateName context hnames) h)))

/-- What is noted in the list of a block, which may be a loop. -/
theorem notes_controlList (logs : BodyLogs) {kind : Control} {inLoop : Bool}
    (hloops : inLoop = decide (0 < loops))
    (h : ∀ loops' : Nat, (inLoop || decide (kind = .rangeBlock)) = decide (0 < loops') →
      Notes logs.list ⟨r, vars, loops'⟩ vs) :
    Notes (controlListLog logs kind) ⟨r, vars, loops⟩ vs := by
  by_cases hkind : kind = .rangeBlock
  · exact .ite_left hkind (.inLoop (h (loops + 1) (by simp [hkind])))
  · exact .ite_right hkind (h loops (by simp [hkind, hloops]))

variable {bodies : Bodies} {logs : BodyLogs}

/-- A block whose left delimiter is in front. -/
theorem notes_control {kind : Control} {start : List Piece} (hopens : Opens kind.word start)
    (h : Notes (controlRestLog bodies logs kind) ⟨r, vars, loops⟩ vs) :
    Notes (controlLog bodies logs kind) ⟨start ++ r, vars, loops⟩ vs := by
  obtain ⟨left, w, rfl, hleft, -⟩ := hopens
  exact .node (.after (passes_eat hleft (w :: r) vars loops)
    (.after (passes_bump w r vars loops) h))

/-- A block behind the word of an else action. -/
theorem notes_chained {kind : Control} {w : Piece} (hw : w.kind = .keyword kind.word)
    (h : Notes (controlRestLog bodies logs kind) ⟨r, vars, loops⟩ vs) :
    Notes (controlLog bodies logs kind) ⟨w :: r, vars, loops⟩ vs := by
  have hnot : Place.kind? ⟨w :: r, vars, loops⟩ ≠ some .leftDelim := by
    rw [Place.kind?, List.head?_cons, Option.map_some, hw]
    simp
  exact .node (.after (passes_eat_of_ne hnot) (.after (passes_bump w r vars loops) h))

/-- An else action by what stands behind its word. -/
theorem notes_else (logs : BodyLogs) {kind : Control} (left x : Piece)
    (h : Notes (elseChoiceLog logs kind) ⟨r, vars, loops⟩ vs) :
    Notes (controlEndLog logs kind .atElse) ⟨left :: x :: r, vars, loops⟩ vs :=
  .node (.after (passes_bump left _ vars loops) (.after (passes_bump x _ vars loops) h))

/-- An item that is an action, by the word behind its left delimiter. -/
theorem notes_item_of_action {v : Place} (hleft : v.kind? = some .leftDelim)
    (h : Notes (wordActionLog logs v.tail.kind?) v vs) : Notes (itemLog logs) v vs :=
  .after (passes_current hleft) (.ite_left rfl (.after (passes_second rfl) h))

/-- A word behind the left delimiter decides on what is noted. -/
theorem notes_item_of_word (logs : BodyLogs) {word : Keyword} {start : List Piece}
    (hopens : Opens word start)
    (h : Notes (wordActionLog logs (some (.keyword word))) ⟨start ++ r, vars, loops⟩ vs) :
    Notes (itemLog logs) ⟨start ++ r, vars, loops⟩ vs := by
  obtain ⟨left, x, rfl, hleft, hx⟩ := hopens
  refine notes_item_of_action (congrArg some hleft) ?_
  rw [← hx] at h
  exact h

/-- An action that starts with an operand is none with a word. -/
theorem wordActionLog_of_startsOperand (logs : BodyLogs) {kind : TokenKind}
    (h : kind.startsOperand) : wordActionLog logs (some kind) = plainActionLog := by
  cases kind with
  | keyword word => cases word <;> first | rfl | exact absurd h Bool.false_ne_true
  | _ => rfl

/-- The word of a block decides on what is noted. -/
theorem wordActionLog_word (logs : BodyLogs) (kind : Control) :
    wordActionLog logs (some (.keyword kind.word)) = logs.control kind := by
  cases kind <;> rfl

/-- What is no action has no operands. -/
theorem notes_item_of_ne {v : Place} (h : v.kind? ≠ some .leftDelim) : Notes (itemLog logs) v [] :=
  .after (passes_current rfl) (.ite_right h (notes_silent v))

/-- The round in which a list ends. -/
theorem notes_listStep_end {e : ListEnd} {v : Place} (h : EndsList e v) :
    Notes (listStepLog logs) v [] := by
  refine .after (passes_actionWord v) ?_
  rcases h with ⟨-, hword⟩ | ⟨-, hword⟩
  · rw [hword]
    exact notes_silent v
  · rw [hword]
    exact notes_silent v

/-- A round that takes an item. -/
theorem notes_listStep_item {v w : Place} (hitem : ItemMeaning v w)
    (h : Notes (itemLog logs) v vs) :
    Notes (listStepLog logs) v vs := by
  obtain ⟨hend, helse, -⟩ := hitem.word?_ne
  refine .after (passes_actionWord v) ?_
  split
  next hword => exact absurd hword hend
  next hword => exact absurd hword helse
  next => exact h

/-- An item at the top notes its own. -/
theorem notes_rootStep_item {v w : Place} (hitem : ItemMeaning v w)
    (h : Notes (itemLog logs) v vs) : Notes (rootStepLog logs) v vs := by
  obtain ⟨hend, helse, hdefine⟩ := hitem.word?_ne
  refine .after (passes_actionWord v) ?_
  split
  next hword => exact absurd hword hdefine
  next hword => exact absurd hword hend
  next hword => exact absurd hword helse
  next => exact h

end Parts

/-! ### Along what spells items -/

mutual

/-- What is noted in an item are the visits of its outline. -/
theorem notes_item {inLoop : Bool} {ps r : List Piece} {is : List Template.Item}
    {vars : List String} {loops : Nat} (depth : Nat) (hloops : inLoop = decide (0 < loops)) :
    Spelling.Item inLoop ps is → ps.length ≤ depth → WellScoped (itemsVisits is vars) →
      Notes (itemLog (logsTo depth)) ⟨ps ++ r, vars, loops⟩ (itemsVisits is vars)
  | .text (p := p) hkind, _, _ => by
    have hplace : Place.kind? ⟨p :: r, vars, loops⟩ = some .text := congrArg some hkind
    exact notes_item_of_ne (by rw [List.singleton_append, hplace]; simp)
  | .comment (p := p) hkind, _, _ => by
    have hplace : Place.kind? ⟨p :: r, vars, loops⟩ = some .comment := congrArg some hkind
    exact notes_item_of_ne (by rw [List.singleton_append, hplace]; simp)
  | @Spelling.Item.action _ left right ps pl hleft hheader hright, _, hscoped => by
    rw [itemsVisits, itemsVisits, List.append_nil] at hscoped ⊢
    have hplain : Notes plainActionLog ⟨left :: (ps ++ right :: r), vars, loops⟩ (pl.visits vars) :=
      .node (.after (passes_bump left _ vars loops)
        (notes_actionPipeline .command rfl hheader hscoped hright))
    obtain ⟨p, ps', rfl, hstart⟩ := startsOperand_of_pipeline (hheader.grammar hscoped)
    rw [← wordActionLog_of_startsOperand (logsTo depth) hstart] at hplain
    rw [List.append_assoc]
    exact notes_item_of_action (congrArg some hleft) hplain
  | @Spelling.Item.guarded _ kind start ps i hopens hguarded, hdepth, hscoped => by
    rw [itemsVisits, itemsVisits, List.append_nil] at hscoped ⊢
    have hlength := length_of_opens hopens
    rw [List.length_append] at hdepth
    obtain ⟨depth, rfl⟩ : ∃ d, depth = d + 1 := ⟨depth - 1, by omega⟩
    have hcontrol := notes_control hopens (notes_guarded (r := r) depth hloops hguarded
      (by omega) hscoped)
    rw [List.append_assoc]
    refine notes_item_of_word (logsTo (depth + 1)) hopens ?_
    rw [wordActionLog_word]
    exact hcontrol
  | @Spelling.Item.block _ start ps qs close name right pl is hopens hnames hheader hright hitems
    hmarks, hdepth, hscoped => by
    rw [itemsVisits, itemsVisits, List.append_nil, Item.visits, Body.visits] at hscoped ⊢
    rw [wellScoped_append] at hscoped
    simp only [List.length_append, List.length_cons] at hdepth
    obtain ⟨depth, rfl⟩ : ∃ d, depth = d + 1 := ⟨depth - 1, by omega⟩
    have hlist := notes_items 0 depth rfl hitems (by omega) hscoped.2
      (endsList_of_marks hmarks r _ 0)
    have hbody : Notes (templateBodyLog (logsTo (depth + 1)))
        ⟨qs ++ (close ++ r), pl.varsAfter vars, loops⟩ (itemsVisits is ["$"]) :=
      .isolated (.node hlist)
    have hblock := notes_named hopens .blockClause hnames
      (notes_header .blockClause rfl hheader hscoped.1 hright hbody)
    have hitem := notes_item_of_word (logsTo (depth + 1)) hopens hblock
    simp only [List.append_assoc, List.cons_append]
    exact hitem
  | @Spelling.Item.call _ start name right hopens hnames hright, _, _ => by
    have hplace : Place.kind? ⟨right :: r, vars, loops⟩ = some .rightDelim := congrArg some hright
    have hargument : Notes argumentLog ⟨right :: r, vars, loops⟩ [] :=
      .after (passes_current hplace) (.ite_left rfl (notes_silent _))
    have hcall := notes_named hopens .templateClause hnames hargument
    have hitem := notes_item_of_word (logsTo depth) hopens hcall
    rw [List.append_assoc]
    exact hitem
  | @Spelling.Item.callWith _ start ps name right pl hopens hnames hheader hright, _, hscoped => by
    rw [itemsVisits, itemsVisits, List.append_nil] at hscoped ⊢
    have hplace : Place.kind? ⟨ps ++ right :: r, vars, loops⟩ ≠ some .rightDelim := by
      obtain ⟨p, ps', rfl, hstart⟩ := startsOperand_of_pipeline (hheader.grammar hscoped)
      intro h
      rw [show p.kind = .rightDelim from Option.some.inj h] at hstart
      exact Bool.false_ne_true hstart
    have hargument : Notes argumentLog ⟨ps ++ right :: r, vars, loops⟩ (pl.visits vars) :=
      .after (passes_current rfl)
        (.ite_right hplace (notes_actionPipeline .templateClause rfl hheader hscoped hright))
    have hcall := notes_named hopens .templateClause hnames hargument
    have hitem := notes_item_of_word (logsTo depth) hopens hcall
    simp only [List.append_assoc, List.cons_append]
    exact hitem
  | @Spelling.Item.breaks ps hmarks, _, _ => by
    obtain ⟨left, w, right, rfl, hleft, hw, -⟩ := hmarks
    have hopens : Opens .breakWord [left, w] := ⟨left, w, rfl, hleft, hw⟩
    exact notes_item_of_word (r := right :: r) (logsTo depth) hopens (notes_silent _)
  | @Spelling.Item.continues ps hmarks, _, _ => by
    obtain ⟨left, w, right, rfl, hleft, hw, -⟩ := hmarks
    have hopens : Opens .continueWord [left, w] := ⟨left, w, rfl, hleft, hw⟩
    exact notes_item_of_word (r := right :: r) (logsTo depth) hopens (notes_silent _)

/-- What is noted behind the word of a block are the visits of the block. -/
theorem notes_guarded {inLoop : Bool} {kind : Control} {ps r : List Piece} {i : Template.Item}
    {vars : List String} {loops : Nat} (depth : Nat) (hloops : inLoop = decide (0 < loops)) :
    Spelling.Guarded inLoop kind ps i → ps.length ≤ depth → WellScoped (i.visits vars) →
      Notes (controlRestLog (bodiesTo depth) (logsTo depth) kind) ⟨ps ++ r, vars, loops⟩
        (i.visits vars)
  | @Spelling.Guarded.mk _ _ right ps qs rs pl is o hheader hright hitems htail, hdepth, hscoped =>
    by
    rw [Item.visits, Body.visits, Body.varsAfter] at hscoped ⊢
    rw [wellScoped_append, wellScoped_append] at hscoped
    simp only [List.length_append, List.length_cons] at hdepth
    obtain ⟨depth, rfl⟩ : ∃ d, depth = d + 1 := ⟨depth - 1, by omega⟩
    obtain ⟨e, hend, hnotes⟩ := notes_tail (r := r) loops (depth + 1) hloops htail
      (by omega) hscoped.2
    have hlist := notes_controlList (logsTo (depth + 1)) hloops fun loops' hloops' ↦
      Notes.node (notes_items loops' depth hloops' hitems (by omega) hscoped.1.2 (hend loops'))
    have hpasses := passes_controlList hloops fun loops' hloops' ↦
      passes_listTo loops' depth hloops' hitems (by omega) hscoped.1.2 (hend loops')
    have hrest := notes_header (.header kind) (isRange_iff kind) hheader hscoped.1.1 hright
      (hlist.bind hpasses hnotes)
    rw [List.append_assoc]
    simp only [List.append_assoc, List.cons_append]
    exact hrest

/-- What is noted behind the list of a block are the visits of what follows it. -/
theorem notes_tail {inLoop : Bool} {kind : Control} {ps r : List Piece} {o : Template.Otherwise}
    {vars : List String} (loops depth : Nat) (hloops : inLoop = decide (0 < loops)) :
    Spelling.Tail inLoop kind ps o → ps.length ≤ depth → WellScoped (o.visits vars) →
      ∃ e, (∀ loops', EndsList e ⟨ps ++ r, vars, loops'⟩) ∧
        Notes (controlEndLog (logsTo depth) kind e) ⟨ps ++ r, vars, loops⟩ (o.visits vars)
  | .close hmarks, _, _ => by
    rw [Otherwise.visits]
    exact ⟨.atEnd, endsList_of_marks hmarks r vars, notes_silent _⟩
  | @Spelling.Tail.otherwise _ _ start ps close is hmarks hitems hclose, hdepth, hscoped => by
    rw [Otherwise.visits, Body.visits] at hscoped ⊢
    obtain ⟨left, w, right, rfl, hleft, hw, hright⟩ := hmarks
    simp only [List.length_append, List.length_cons] at hdepth
    obtain ⟨depth, rfl⟩ : ∃ d, depth = d + 1 := ⟨depth - 1, by omega⟩
    have hlist := notes_items loops depth hloops hitems (by omega) hscoped
      (endsList_of_marks hclose r _ loops)
    have hplace : Place.kind? ⟨right :: (ps ++ (close ++ r)), vars, loops⟩ = some .rightDelim :=
      congrArg some hright
    have hnone : chained? kind (some .rightDelim) = none := by cases kind <;> rfl
    have hchoice : Notes (elseChoiceLog (logsTo (depth + 1)) kind)
        ⟨right :: (ps ++ (close ++ r)), vars, loops⟩ (itemsVisits is vars) := by
      refine .after (passes_current hplace) ?_
      rw [hnone]
      exact .after (passes_current hplace) (.ite_right Bool.false_ne_true
        (.after (passes_expect .elseAction hright _ vars loops) (.node hlist)))
    have helse := notes_else (logsTo (depth + 1)) left w hchoice
    simp only [List.append_assoc]
    exact ⟨.atElse, fun _ ↦ .inr ⟨rfl, word?_of_kind? (congrArg some hleft) (congrArg some hw)⟩,
      helse⟩
  | @Spelling.Tail.chained _ _ start ps w i hkind hopens hw hguarded, hdepth, hscoped => by
    rw [Otherwise.visits] at hscoped ⊢
    obtain ⟨left, x, rfl, hleft, hx⟩ := hopens
    simp only [List.length_append, List.length_cons] at hdepth
    obtain ⟨depth, rfl⟩ : ∃ d, depth = d + 1 := ⟨depth - 1, by omega⟩
    have hcontrol := notes_chained hw (notes_guarded (r := r) depth hloops hguarded
      (by omega) hscoped)
    have hplace : Place.kind? ⟨w :: (ps ++ r), vars, loops⟩ = some (.keyword kind.word) :=
      congrArg some hw
    have hchoice : Notes (elseChoiceLog (logsTo (depth + 1)) kind) ⟨w :: (ps ++ r), vars, loops⟩
        (i.visits vars) := by
      refine .after (passes_current hplace) ?_
      rw [chained?_eq_some_iff.mpr ⟨rfl, hkind, rfl⟩]
      exact hcontrol
    have helse := notes_else (logsTo (depth + 1)) left x hchoice
    rw [List.append_assoc]
    exact ⟨.atElse, fun _ ↦ .inr ⟨rfl, word?_of_kind? (congrArg some hleft) (congrArg some hx)⟩,
      helse⟩

/-- The variable operands of items are visited with the names in scope in the outline. -/
theorem notes_items {inLoop : Bool} {ps r : List Piece} {is : List Template.Item}
    {vars : List String} (loops depth : Nat) {e : ListEnd} (hloops : inLoop = decide (0 < loops)) :
    Spelling.Items inLoop ps is → ps.length ≤ depth → WellScoped (itemsVisits is vars) →
      EndsList e ⟨r, itemsVarsAfter is vars, loops⟩ →
      Notes (.iterate (fun _ ↦ listStep (bodiesTo depth)) (listStepLog (logsTo depth)) .stopped)
        ⟨ps ++ r, vars, loops⟩ (itemsVisits is vars)
  | .nil, _, _, hend => .iterate_last (notes_listStep_end hend) (passes_listStep_end hend)
  | @Spelling.Items.cons _ ps qs is js hitem hitems, hdepth, hscoped, hend => by
    rw [itemsVisits_append] at hscoped ⊢
    rw [wellScoped_append] at hscoped
    rw [List.length_append] at hdepth
    rw [itemsVarsAfter_append] at hend
    obtain ⟨parts, hpasses, -⟩ := passes_item (r := qs ++ r) loops depth hloops hitem (by omega)
      hscoped.1
    have hmeaning : ItemMeaning ⟨ps ++ (qs ++ r), vars, loops⟩
        ⟨qs ++ r, itemsVarsAfter is vars, loops⟩ :=
      ⟨ps, hloops ▸ hitem.grammar hscoped.1, rfl, rfl⟩
    rw [List.append_assoc]
    exact .iterate_more
      (notes_listStep_item hmeaning (notes_item depth hloops hitem (by omega) hscoped.1))
      (passes_listStep_item hmeaning hpasses) hmeaning.length_lt
      (notes_items loops depth hloops hitems (by omega) hscoped.2 hend)

end

/-! ### Whole templates -/

/-- The definition of a template. -/
theorem notes_rootStep_define {vars : List String} {loops depth : Nat} {ps r : List Piece}
    {i : Template.Item} (h : Spelling.Definition ps i) (hdepth : ps.length ≤ depth)
    (hscoped : WellScoped (i.visits vars)) :
    Notes (rootStepLog (logsTo depth)) ⟨ps ++ r, vars, loops⟩ (i.visits vars) := by
  obtain @⟨start, ps, close, name, right, is, hopens, hnames, hright, hitems, hclose⟩ := h
  rw [Item.visits, Body.visits] at hscoped ⊢
  simp only [List.length_append, List.length_cons] at hdepth
  obtain ⟨depth, rfl⟩ : ∃ d, depth = d + 1 := ⟨depth - 1, by omega⟩
  have hlist := notes_items 0 depth rfl hitems (by omega) hscoped
    (endsList_of_marks hclose r _ 0)
  have hbody : Notes (templateBodyLog (logsTo (depth + 1))) ⟨ps ++ (close ++ r), vars, loops⟩
      (itemsVisits is ["$"]) := .isolated (.node hlist)
  have hrest : Notes (.after (expect .rightDelim .defineClause) fun _ ↦
      templateBodyLog (logsTo (depth + 1))) ⟨right :: (ps ++ (close ++ r)), vars, loops⟩
      (itemsVisits is ["$"]) := .after (passes_expect .defineClause hright _ vars loops) hbody
  have hdefine := notes_named hopens .defineClause hnames hrest
  have hword : Place.word? ⟨start ++ name :: (right :: (ps ++ (close ++ r))), vars, loops⟩ =
      some (.keyword .defineWord) := by
    obtain ⟨left, w, rfl, hleft, hw⟩ := hopens
    exact word?_of_kind? (congrArg some hleft) (congrArg some hw)
  have hround : Notes (rootStepLog (logsTo (depth + 1)))
      ⟨start ++ name :: (right :: (ps ++ (close ++ r))), vars, loops⟩ (itemsVisits is ["$"]) := by
    refine .after (passes_actionWord _) ?_
    rw [hword]
    exact hdefine
  simp only [List.append_assoc, List.cons_append]
  exact hround

/-- What is noted in a round at the top, and in what follows it. -/
theorem log_round {bodies : Bodies} {l : Log} {bound : Nat} {ps qs : List Piece}
    {vars vars' : List String} {parts : List Part} {vs vs' : List Visit} {s : State}
    (h : Passes (rootStep bodies) ⟨ps ++ qs, vars, 0⟩ (true, ()) parts ⟨qs, vars', 0⟩)
    (hl : Notes l ⟨ps ++ qs, vars, 0⟩ vs) (hps : ps ≠ []) (hs : s.AtTop bound (ps ++ qs) vars)
    (hrest : ∀ {t : State}, t.AtTop bound qs vars' →
      Log.iterate (fun _ ↦ rootStep bodies) l () t = vs') :
    Log.iterate (fun _ ↦ rootStep bodies) l () s = vs ++ vs' := by
  have hview : s.view = ⟨⟨ps ++ qs, vars, 0⟩, s.view.gap⟩ := by rw [← hs.place]; rfl
  obtain ⟨gap, hruns⟩ := h s.view.gap
  obtain ⟨hresult, herror, hplace, -, hgrows⟩ := hruns s hs.error hs.pending hview
  have htakes : (rootStep bodies s).2.rest.length < s.rest.length := by
    refine takes_of_ahead hgrows ?_
    rw [show (rootStep bodies s).2.place = ⟨qs, vars', 0⟩ from congrArg View.place hplace, hs.place]
    exact length_lt_append hps qs
  rw [iterate_log_more (Prod.ext hresult rfl) htakes, hl s.view.gap s hs.error hs.pending hview]
  exact congrArg (vs ++ ·) (hrest ⟨herror, hgrows.pending hs.pending, hs.bounded.grows hgrows,
    congrArg View.place hplace⟩)

/-- The loop at the top visits the variables of the outline. -/
theorem log_template {ps : List Piece} {is : List Template.Item} {depth bound : Nat}
    (h : Spelling.Root ps is) (hdepth : ps.length ≤ depth) {vars : List String}
    (hscoped : WellScoped (itemsVisits is vars)) {s : State} (hs : s.AtTop bound ps vars) :
    Log.iterate (fun _ ↦ rootStep (bodiesTo depth)) (rootStepLog (logsTo depth)) () s =
      itemsVisits is vars := by
  induction h generalizing vars s with
  | nil =>
    have hrest := hs.bounded.rest_eq_nil (congrArg Place.ahead hs.place)
    rw [iterate_log_last (congrArg Prod.fst (ran_rootStep_end hs.error hrest).result)]
    have hnone : Notes (rootStepLog (logsTo depth)) ⟨[], vars, 0⟩ [] :=
      .after (passes_actionWord _) (notes_item_of_ne nofun)
    exact hnone s.view.gap s hs.error hs.pending (by rw [← hs.place]; rfl)
  | @definition ps qs i is hdefinition _ ih =>
    rw [List.length_append] at hdepth
    rw [itemsVisits, hdefinition.varsAfter] at hscoped ⊢
    rw [wellScoped_append] at hscoped
    have hle := Nat.le_of_add_right_le hdepth
    have hps : ps ≠ [] := by
      cases hdefinition with
      | mk _ _ _ _ _ => simp
    exact log_round (passes_rootStep_define 0 hdefinition hle hscoped.1)
      (notes_rootStep_define hdefinition hle hscoped.1) hps hs
      (ih (Nat.le_of_add_left_le hdepth) hscoped.2)
  | @item ps qs is js hitem _ ih =>
    rw [List.length_append] at hdepth
    rw [itemsVisits_append] at hscoped ⊢
    rw [wellScoped_append] at hscoped
    have hle := Nat.le_of_add_right_le hdepth
    obtain ⟨parts, hpasses, -⟩ := passes_item (r := qs) 0 depth rfl hitem hle
      hscoped.1
    have hmeaning : ItemMeaning ⟨ps ++ qs, vars, 0⟩ ⟨qs, itemsVarsAfter is vars, 0⟩ :=
      ⟨ps, hitem.grammar hscoped.1, rfl, rfl⟩
    have hps : ps ≠ [] := by
      obtain ⟨p, r, rfl, -⟩ := item_start (hitem.grammar hscoped.1)
      exact List.cons_ne_nil p r
    exact log_round (passes_rootStep_item hmeaning hpasses)
      (notes_rootStep_item hmeaning (notes_item depth rfl hitem hle hscoped.1)) hps hs
      (ih (Nat.le_of_add_left_le hdepth) hscoped.2)

end Parser

/-! ### Scopes of the parser and of a reading -/

mutual

/-- The visits of an item do not depend on its span. -/
theorem Item.visits_bare (vars : List String) : ∀ i : Item, i.bare.visits vars = i.visits vars
  | .action _ p | .call _ _ p => by rw [Item.bare, Item.visits, Item.visits]
  | .control _ _ p b o => by
    rw [Item.bare, Item.visits, Item.visits, b.visits_bare, b.varsAfter_bare, o.visits_bare]
  | .define _ _ b => by rw [Item.bare, Item.visits, Item.visits, b.visits_bare]
  | .block _ _ p b => by rw [Item.bare, Item.visits, Item.visits, b.visits_bare]

theorem Body.visits_bare (vars : List String) : ∀ b : Body, b.bare.visits vars = b.visits vars
  | .missing => by rw [Body.bare]
  | .items is => by rw [Body.bare, Body.visits, Body.visits, itemsVisits_bare vars is]

theorem Body.varsAfter_bare (vars : List String) :
    ∀ b : Body, b.bare.varsAfter vars = b.varsAfter vars
  | .missing => by rw [Body.bare]
  | .items is => by rw [Body.bare, Body.varsAfter, Body.varsAfter, itemsVarsAfter_bare vars is]

theorem Item.varsAfter_bare (vars : List String) :
    ∀ i : Item, i.bare.varsAfter vars = i.varsAfter vars
  | .action _ p | .call _ _ p | .control _ _ p _ _ | .define _ _ _ | .block _ _ p _ => by
    rw [Item.bare, Item.varsAfter, Item.varsAfter]

theorem itemsVarsAfter_bare (vars : List String) :
    ∀ is : List Item, itemsVarsAfter (bareItems is) vars = itemsVarsAfter is vars
  | [] => by rw [bareItems]
  | i :: is => by
    rw [bareItems, itemsVarsAfter, itemsVarsAfter, i.varsAfter_bare, itemsVarsAfter_bare _ is]

/-- The spans of items play no part in what is visited. -/
theorem itemsVisits_bare (vars : List String) :
    ∀ is : List Item, itemsVisits (bareItems is) vars = itemsVisits is vars
  | [] => by rw [bareItems]
  | i :: is => by
    rw [bareItems, itemsVisits, itemsVisits, i.visits_bare, i.varsAfter_bare, itemsVisits_bare _ is]

/-- The visits of what follows a list do not depend on the spans in it. -/
theorem Otherwise.visits_bare (vars : List String) :
    ∀ o : Otherwise, o.bare.visits vars = o.visits vars
  | .none => by rw [Otherwise.bare]
  | .nested i => by rw [Otherwise.bare, Otherwise.visits, Otherwise.visits, i.visits_bare]
  | .body b => by rw [Otherwise.bare, Otherwise.visits, Otherwise.visits, b.visits_bare]

end

/-- The parser of an accepted template visits the variable operands of its outline. -/
theorem visits_eq_itemsVisits {text : String} (h : (Parse.ofText text).error = none) :
    Parser.visits text = itemsVisits (Parse.ofText text).tree.items prelude := by
  obtain ⟨hspells, hscoped⟩ := spells_of_accepted h
  have hlog := Parser.log_template hspells
    (Nat.le_succ_of_le (Parser.length_pieces_le _)) hscoped (Parser.atTop_start text)
  rw [itemsVisits_bare] at hlog
  exact hlog

/-- In an accepted template the parser and a reading come to the same variable operands. At each of
them the parser has the names in scope that the reading has in scope, and those that pipelines
around the operand declare; a lookup finds a binding unless the name is one of the latter. -/
theorem lookups_agree {text : String} (h : (Parse.ofText text).error = none) :
    List.Forall₂ (fun (u : Visit) (l : Reading.Lookup) ↦ u.name = l.name ∧
        ∀ n, n ∈ u.vars ↔ n ∈ l.scope.map Prod.fst ∨ n ∈ l.declaring)
      (Parser.visits text) (Reading.lookups text) ∧
    ∀ l ∈ Reading.lookups text, l.name.text ∉ l.declaring →
      (l.scope.lookup l.name.text).isSome := by
  have hagree := (Reading.follows_items (Parse.ofText text).tree.items
    (Reading.covers_start text)).agree
  obtain ⟨-, hscoped⟩ := spells_of_accepted h
  rw [itemsVisits_bare] at hscoped
  exact ⟨(visits_eq_itemsVisits h).symm ▸ hagree, Reading.isSome_lookup_of_agree hagree hscoped⟩

/-- The template `{{ $y := $y }}{{ with ($z := 1) }}{{ $z = $y }}{{ end }}`. -/
def declaredByItself : String :=
  "\x7b\x7b $y := $y \x7d\x7d\x7b\x7b with ($z := 1) \x7d\x7d\x7b\x7b $z = $y \x7d\x7d\x7b\x7b end \x7d\x7d"

set_option maxRecDepth 100000 in
/-- A variable is not in scope of a reading inside of the pipeline that declares it, and is behind
it. -/
theorem lookups_agree_declaredByItself : (Parse.ofText declaredByItself).error = none ∧
    ∃ inner outer, Reading.lookups declaredByItself = [inner, outer] ∧
      inner.declaring = ["$y"] ∧ inner.scope.lookup "$y" = none ∧
      outer.declaring = ["$z"] ∧ (outer.scope.lookup "$y").isSome := by
  have herror : (Parse.ofText declaredByItself).error = none := by decide +kernel
  have hlookups : Reading.lookups declaredByItself =
      [⟨⟨.variable, 9, "$y"⟩, (Reading.State.start "").scope, ["$y"]⟩,
        ⟨⟨.variable, 42, "$y"⟩,
          ("$z", .unknown) :: ("$y", .unknown) :: (Reading.State.start "").scope, ["$z"]⟩] := by
    decide +kernel
  have hbound := (lookups_agree herror).2
  rw [hlookups] at hbound
  exact ⟨herror, _, _, hlookups, rfl, rfl, rfl,
    hbound _ (List.mem_cons_of_mem _ List.mem_cons_self) (by decide)⟩

end AlertAudit.Template
