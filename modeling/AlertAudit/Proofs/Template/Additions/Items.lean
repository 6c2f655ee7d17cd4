import AlertAudit.Proofs.Template.Additions.Pipeline

/-!
What is added where the items of a template are read. A node that has a name gets it behind the word
of its action, before anything else that could be taken for one (`adds_named`). The main statement
is `answers_of_accepted`: in the tree of a template without an error every node has what is asked of
it, and nothing is missing in the outline.
-/

set_option autoImplicit false

namespace AlertAudit.Template

open AlertAudit.Template.Tree Outline

namespace Parser

/-! ### Names -/

/-- So far a node has tokens alone, and none that could name a template. -/
structure State.Unnamed (s : State) : Prop where
  pending : s.pending.all (·.isTrivia)
  built : ∃ ts : List Token, s.built.reverse = ts.map .leaf ∧ ∀ t ∈ ts, ¬t.kind.namesTemplate

/-- The name of a template is among the children of a node. -/
def State.Named (s : State) : Prop := (templateName? (ofTrees s.built.reverse)).isSome

/-- A node starts without a name. -/
theorem unnamed_inside (s : State) : s.inside.Unnamed := ⟨rfl, [], rfl, by simp⟩

/-- White space names no template. -/
theorem not_namesTemplate_of_isTrivia {t : Token} (h : t.isTrivia) : ¬t.kind.namesTemplate := by
  rw [show t.kind = .whitespace from of_decide_eq_true h]
  exact Bool.false_ne_true

/-- A token that is taken stands behind the white space in front of it. -/
theorem reverse_built_bump {s : State} {token : Token} {rest : List Token}
    (h : s.look.rest = token :: rest) : (bump s).2.built.reverse =
      s.built.reverse ++ s.look.pending.map .leaf ++ [.leaf token] := by
  have hbuilt : (bump s).2.built =
      .leaf token :: (s.look.pending.reverse.map .leaf ++ s.built) := by
    rw [bump_apply_of_cons h]
    rfl
  rw [hbuilt, List.reverse_cons, List.reverse_append, ← List.map_reverse, List.reverse_reverse]

/-- A token that names nothing leaves a node without a name. -/
theorem State.Unnamed.bump {s : State} (hs : s.Unnamed)
    (h : ∀ kind ∈ s.place.kind?, ¬kind.namesTemplate) : (bump s).2.Unnamed := by
  refine ⟨(grows_bump s).pending hs.pending, ?_⟩
  obtain ⟨ts, hbuilt, hts⟩ := hs.built
  cases hrest : s.look.rest with
  | nil =>
    rw [bump_apply_of_nil hrest]
    exact ⟨ts, hbuilt, hts⟩
  | cons token rest =>
    have hspaces := List.all_eq_true.mp ((growsTo_look s).pending hs.pending)
    have htoken : ¬token.kind.namesTemplate := by
      refine h _ ?_
      rw [← kind?_place, hrest]
      rfl
    refine ⟨ts ++ s.look.pending ++ [token], ?_, ?_⟩
    · rw [reverse_built_bump hrest, hbuilt, List.map_append, List.map_append]
      rfl
    · intro t ht
      simp only [List.mem_append, List.mem_singleton] at ht
      rcases ht with (ht | ht) | rfl
      · exact hts t ht
      · exact not_namesTemplate_of_isTrivia (hspaces t ht)
      · exact htoken

/-- The name of a template is a token alone. -/
theorem quiet_templateName (context : Context) : Quiet (templateName context) := by
  refine quiet_failed.bind fun _ ↦ quiet_ite (quiet_pure _) ?_
  refine quiet_current.bind fun kind ↦ quiet_ite ?_ (quiet_unexpected _)
  refine quiet_currentText.bind fun text ↦ quiet_ite quiet_bump ?_
  exact (quiet_fail _).bind fun _ ↦ quiet_bump

/-- Where a name is no error it is taken. -/
theorem templateName_eq_bump {context : Context} {s : State}
    (herror : (templateName context s).2.error = none) :
    (templateName context s).2 = (bump s).2 := by
  have hs := (grows_templateName context s).error_eq_none herror
  have happly : templateName context s =
      if (s.look.rest.head?.map (·.kind)).any (·.namesTemplate) then
        if (Literal.unquote ((s.look.rest.head?.map (·.text)).getD "")).isSome then bump s.look
        else bump (fail .invalidString s.look).2
      else unexpected context s.look := by
    rw [templateName, bind_apply, failed_apply, hs, Option.isSome_none, if_neg Bool.false_ne_true,
      bind_apply, current_apply]
    split
    · rw [bind_apply, currentText_apply, look_look]
      split <;> rfl
    · rfl
  rw [happly] at herror ⊢
  split_ifs at herror ⊢ with hnames hquoted
  · rw [bump_look]
  · exact absurd ((grows_bump _).error_eq_none herror)
      (Option.isSome_iff_ne_none.mp (isSome_error_fail _ _))
  · exact absurd herror (Option.isSome_iff_ne_none.mp (isSome_error_unexpected _ _))

/-- Behind the name of a template its node has a name. -/
theorem named_templateName {context : Context} {s : State} (hs : s.Unnamed)
    (herror : (templateName context s).2.error = none) : (templateName context s).2.Named := by
  have hnone := (grows_templateName context s).error_eq_none herror
  obtain ⟨ts, hbuilt, hts⟩ := hs.built
  obtain ⟨name, r, hahead, ⟨hnames, hquoted⟩, -⟩ :=
    (means_templateName (C := Anywhere) context).sound hnone trivial herror
  cases hrest : s.look.rest with
  | nil =>
    rw [ahead_of_look_nil hrest] at hahead
    exact absurd hahead (List.cons_ne_nil _ _).symm
  | cons token rest =>
    rw [ahead_of_look_cons hrest] at hahead
    obtain ⟨rfl, -⟩ := List.cons.inj hahead
    have hspaces := List.all_eq_true.mp ((growsTo_look s).pending hs.pending)
    have htokens : (ofTrees (s.built.reverse ++ s.look.pending.map .leaf ++
        [.leaf token])).filterMap
        Part.token? = ts ++ s.look.pending ++ [token] := by
      rw [hbuilt, ← List.map_append, ← List.map_singleton, ← List.map_append, ofTrees_map_leaf,
        List.filterMap_map]
      exact List.filterMap_some
    have hfront : (ts ++ s.look.pending).find? (·.kind.namesTemplate) = none := by
      refine List.find?_eq_none.mpr fun t ht ↦ ?_
      rcases List.mem_append.mp ht with ht | ht
      · exact hts t ht
      · exact not_namesTemplate_of_isTrivia (hspaces t ht)
    have hlast : [token].find? (·.kind.namesTemplate) = some token := List.find?_cons_of_pos hnames
    rw [State.Named, templateName_eq_bump herror, reverse_built_bump hrest, templateName?, htokens,
      List.find?_append, hfront, Option.none_or, hlast]
    exact hquoted

/-- A node that has a name keeps it. -/
theorem State.Named.grows {s t : State} (hs : s.Named) (h : s.GrowsTo t) : t.Named := by
  obtain ⟨added, hadded⟩ := h.exists_children
  obtain ⟨name, hname⟩ := Option.isSome_iff_exists.mp hs
  obtain ⟨token, htoken, hquoted⟩ := Option.bind_eq_some_iff.mp hname
  rw [State.Named, hadded, templateName?, ofTrees_append, List.filterMap_append, List.find?_append,
    htoken]
  exact Option.isSome_of_eq_some hquoted

/-- The name behind the word of an action names its node. -/
theorem named_of_word {word : Keyword} {context : Context} {k : Parser Unit} (hk : Grows k)
    {s : State} (hword : s.place.word? = some (.keyword word))
    (herror : ((do bump; bump; templateName context; k) s.inside : Unit × State).2.error = none) :
    ((do bump; bump; templateName context; k) s.inside : Unit × State).2.Named := by
  have hrest := hk (templateName context (bump (bump s.inside).2).2).2
  have hplace : s.inside.place = s.place := rfl
  rw [Place.word?] at hword
  split at hword
  next hleft =>
    refine (named_templateName ?_ (hrest.error_eq_none herror)).grows hrest
    refine ((unnamed_inside s).bump ?_).bump ?_
    · rw [hplace, hleft]
      intro kind hkind
      obtain rfl := Option.some.inj hkind
      exact Bool.false_ne_true
    · rw [place_bump, hplace, hword]
      intro kind hkind
      obtain rfl := Option.some.inj hkind
      exact Bool.false_ne_true
  next => exact absurd hword (Option.some_ne_none _).symm

/-! ### Items -/

/-- What stands in an else branch: a list, or a block that can follow the word `else`. -/
inductive ElseGroups : List Part → Prop
  | list (is : List Item) : ElseGroups [.list is]
  | block {kind : Control} {span : Text.Span} {p : Option Pipeline} {b : Body} {o : Otherwise} :
    kind ≠ .rangeBlock → ElseGroups [.item (.control kind span p b o)]

/-- An else branch has a list or a block, and never both. -/
theorem answers_elseBranch {children : List Tree} (h : ElseGroups (groups children)) :
    Answers .elseBranch (ofTrees children) := by
  rw [Answers, isSome_findSome?_iff, body_ne_missing_iff, ← gives_groups_iff fun _ ↦ rfl,
    ← gives_groups_iff fun _ ↦ rfl]
  generalize groups children = gs at h
  cases h with
  | list is => simp [gives_singleton_iff, Part.nested?, Part.list?]
  | block hkind => simp [gives_singleton_iff, Part.nested?, Part.list?, hkind]

/-- The parsers for what stands inside of a block add a list, and a block of its kind. -/
structure Bodies.Add (bodies : Bodies) : Prop where
  list : ∀ s, Adds (fun _ gs ↦ ∃ is, gs = [.list is]) bodies.list s
  control : ∀ kind s, Adds (fun _ gs ↦ ∃ span p b o, gs = [.item (.control kind span p b o)])
    (bodies.control kind) s

theorem quiet_actionWord : Quiet actionWord :=
  quiet_current.bind fun _ ↦ quiet_ite quiet_second (quiet_pure _)

/-- The end of an action adds nothing that is asked for. -/
theorem adds_endAction (s : State) : Adds (fun _ _ ↦ True) endAction s := by
  have hinside : Quiet (do bump; bump; let _ ← expect .rightDelim .endAction) :=
    quiet_bump.bind fun _ ↦ quiet_bump.bind fun _ ↦ (quiet_expect _ _).bind fun _ ↦ quiet_pure _
  exact ((hinside _).node .endAction rfl rfl fun _ _ _ ↦ trivial).mono fun _ _ ↦ trivial

/-- An else action that no block has a place for is an error. -/
theorem adds_strayElse (cause : Cause) (s : State) :
    Adds (fun _ _ ↦ True) (do strayElse; fail cause) s :=
  adds_of_error (grows_bind grows_strayElse (fun _ ↦ grows_fail cause) s)
    (isSome_error_fail cause _)

/-- What follows the list of a block adds nothing that is asked for. -/
theorem adds_listEnd {p : ListEnd → Parser Unit} (hend : p .atEnd = endAction)
    {cause : Cause} (helse : p .atElse = do strayElse; fail cause) (hstopped : p .stopped = pure ())
    (e : ListEnd) (s : State) : Adds (fun _ _ ↦ True) (p e) s := by
  cases e with
  | atEnd => rw [hend]; exact adds_endAction s
  | atElse => rw [helse]; exact adds_strayElse cause s
  | stopped => rw [hstopped]; exact adds_pure trivial

section Bodies

variable {bodies : Bodies} (hbodies : bodies.Add)

include hbodies

/-- The body of a template has a list. -/
theorem adds_templateBody (context : Context) (s : State) :
    Adds (fun _ ↦ Gives Part.list?) (templateBody bodies context) s := by
  rw [templateBody_eq]
  refine Adds.unless_failed (grows_pure ()) (Adds.isolated fun t ↦ ?_)
  refine (hbodies.list t).bind (H := fun _ _ _ ↦ True) (adds_listEnd rfl rfl rfl _ _) ?_
  rintro _ _ _ _ ⟨is, rfl⟩ -
  exact (gives_singleton_iff.mpr rfl).append_right

/-- An else branch adds a list or a block. -/
theorem adds_elseChoice (kind : Control) (s : State) :
    Adds (fun _ ↦ ElseGroups) (elseChoice bodies kind) s := by
  refine quiet_current.before fun word t ↦ ?_
  cases hchained : chained? kind word with
  | some nested =>
    have hnested : nested ≠ .rangeBlock := by
      obtain ⟨rfl, hkind, -⟩ := chained?_eq_some_iff.mp hchained
      exact hkind
    refine (hbodies.control nested t).bind (H := fun _ _ gs ↦ gs = []) (adds_pure rfl) ?_
    rintro _ _ _ _ ⟨span, p, b, o, rfl⟩ rfl
    exact .block hnested
  | none =>
    have hlist (t : State) : Adds (fun _ ↦ ElseGroups) (do
        if ← failed then return .stopped
        bodies.list) t := by
      refine Adds.unless_failed (grows_pure _) ((hbodies.list t).mono ?_)
      rintro _ ⟨is, rfl⟩
      exact .list is
    exact quiet_current.before fun _ t ↦ adds_ite (fun _ ↦ hlist t) fun _ ↦
      (quiet_expect _ _).before fun _ t ↦ hlist t

/-- The node of an else branch has all that is asked of it. -/
theorem adds_elseBranch (kind : Control) (s : State) :
    Adds (fun _ _ ↦ True) (elseBranch bodies kind) s := by
  have hinside : Adds (fun _ ↦ ElseGroups)
      (bump >>= fun _ ↦ bump >>= fun _ ↦ elseChoice bodies kind) s.inside :=
    quiet_bump.before fun _ _ ↦ quiet_bump.before fun _ t ↦ adds_elseChoice hbodies kind t
  rw [elseBranch_eq]
  exact (hinside.node .elseBranch rfl rfl fun _ _ h ↦ answers_elseBranch h).bind
    (H := fun _ _ _ ↦ True) (adds_listEnd rfl rfl rfl _ _) fun _ _ _ _ _ _ ↦ trivial

/-- A block has a list. -/
theorem adds_controlList (kind : Control) (s : State) :
    Adds (fun _ gs ↦ ∃ is, gs = [.list is]) (controlList bodies kind) s :=
  adds_ite (fun _ ↦ Adds.inLoop hbodies.list) fun _ ↦ hbodies.list s

/-- What follows its list has all that is asked of it. -/
theorem adds_controlEnd (kind : Control) (e : ListEnd) (s : State) :
    Adds (fun _ _ ↦ True) (controlEnd bodies kind e) s := by
  cases e with
  | atEnd => exact adds_endAction s
  | atElse => exact adds_elseBranch hbodies kind s
  | stopped => exact adds_pure trivial

/-- A block adds itself, with all that is asked of it. -/
theorem adds_control (kind : Control) (s : State) :
    Adds (fun _ gs ↦ ∃ span p b o, gs = [.item (.control kind span p b o)])
      (control bodies kind) s := by
  have hlist (t : State) : Adds (fun _ ↦ Gives Part.list?)
      (controlList bodies kind >>= controlEnd bodies kind) t := by
    refine (adds_controlList hbodies kind t).bind (H := fun _ _ _ ↦ True)
      (adds_controlEnd hbodies kind _ _) ?_
    rintro _ _ _ _ ⟨is, rfl⟩ -
    exact (gives_singleton_iff.mpr rfl).append_right
  have hrest (t : State) : Adds (fun _ gs ↦ Gives Part.pipeline? gs ∧ Gives Part.list? gs)
      (controlRest bodies kind) t := by
    refine (adds_actionPipeline _ t).bind (H := fun _ _ ↦ Gives Part.list?)
      ((quiet_eat _).before fun _ t ↦ hlist t) ?_
    rintro _ _ _ _ ⟨q, rfl⟩ h
    exact ⟨(gives_singleton_iff.mpr rfl).append_right, h.append_left⟩
  have hinside : Adds (fun _ gs ↦ Gives Part.pipeline? gs ∧ Gives Part.list? gs)
      (eat .leftDelim >>= fun _ ↦ bump >>= fun _ ↦ controlRest bodies kind) s.inside :=
    (quiet_eat _).before fun _ _ ↦ quiet_bump.before fun _ t ↦ hrest t
  rw [control_eq]
  refine ((hinside.node (.control kind) rfl rfl fun _ children h ↦ ⟨?_, ?_⟩).mono ?_).keepingVars
  · exact isSome_findSome?_iff.mpr ((gives_groups_iff (fun _ ↦ rfl) children).mp h.1)
  · exact body_ne_missing_iff.mpr ((gives_groups_iff (fun _ ↦ rfl) children).mp h.2)
  · rintro _ ⟨tree, parts, rfl⟩
    exact ⟨_, _, _, _, rfl⟩

omit hbodies in
/-- An action that is a word and a name, with what follows them. -/
theorem adds_named (kind : NodeKind) {word : Keyword} {context : Context} {k : Parser Unit}
    {P : List Part → Prop} (hframe : kind.isFrame = false) (hoperand : kind.isOperand = false)
    (hk : ∀ t, Adds (fun _ ↦ P) k t)
    (hanswers : ∀ children, (templateName? (ofTrees children)).isSome → P (groups children) →
      Answers kind (ofTrees children))
    {s : State} (hword : s.place.word? = some (.keyword word)) :
    Adds (fun _ _ ↦ True) (node kind (do bump; bump; templateName context; k)) s := by
  have hinside : Adds (fun _ ↦ P) (do bump; bump; templateName context; k) s.inside :=
    quiet_bump.before fun _ _ ↦ quiet_bump.before fun _ _ ↦
      (quiet_templateName _).before fun _ t ↦ hk t
  refine (adds_node kind (growsTo_node hframe hinside.grows fun h ↦ absurd h (by simp [hoperand]))
    hinside fun children herror hchildren h ↦ hanswers children ?_ h).mono fun _ _ ↦ trivial
  rw [← hchildren]
  exact named_of_word (fun t ↦ (hk t).grows) hword herror

/-- The definition of a template has a name and a list. -/
theorem adds_define {s : State} (hword : s.place.word? = some (.keyword .defineWord)) :
    Adds (fun _ _ ↦ True) (define bodies) s :=
  adds_named .define rfl rfl
    (fun _ ↦ (quiet_expect _ _).before fun _ t ↦ adds_templateBody hbodies _ t)
    (fun children hname h ↦
      ⟨hname, body_ne_missing_iff.mpr ((gives_groups_iff (fun _ ↦ rfl) children).mp h)⟩) hword

/-- A block with a name has a name, a pipeline and a list. -/
theorem adds_block {s : State} (hword : s.place.word? = some (.keyword .blockWord)) :
    Adds (fun _ _ ↦ True) (block bodies) s := by
  have hbehind (t : State) : Adds (fun _ gs ↦ Gives Part.pipeline? gs ∧ Gives Part.list? gs) (do
      actionPipeline .blockClause
      let _ ← eat .rightDelim
      templateBody bodies .blockClause) t := by
    refine (adds_actionPipeline _ t).bind (H := fun _ _ ↦ Gives Part.list?)
      ((quiet_eat _).before fun _ t ↦ adds_templateBody hbodies _ t) ?_
    rintro _ _ _ _ ⟨q, rfl⟩ h
    exact ⟨(gives_singleton_iff.mpr rfl).append_right, h.append_left⟩
  exact adds_named .block rfl rfl hbehind
    (fun children hname h ↦ ⟨hname,
      isSome_findSome?_iff.mpr ((gives_groups_iff (fun _ ↦ rfl) children).mp h.1),
      body_ne_missing_iff.mpr ((gives_groups_iff (fun _ ↦ rfl) children).mp h.2)⟩) hword

omit hbodies in
/-- A call has a name. -/
theorem adds_call {s : State} (hword : s.place.word? = some (.keyword .templateWord)) :
    Adds (fun _ _ ↦ True) call s := by
  have hclose (t : State) : Adds (fun _ _ ↦ True) (do let _ ← eat .rightDelim) t :=
    (quiet_eat _).before fun _ _ ↦ adds_pure trivial
  have hbehind (t : State) : Adds (fun _ _ ↦ True) (do
      unless ← failed do
        unless (← current) = some .rightDelim do actionPipeline .templateClause
      let _ ← eat .rightDelim) t :=
    quiet_failed.before fun _ t ↦ adds_ite (fun _ ↦ hclose t) fun _ ↦
      quiet_current.before fun _ t ↦ adds_ite (fun _ ↦ hclose t) fun _ ↦
        (adds_actionPipeline _ t).bind (H := fun _ _ _ ↦ True) (hclose _) fun _ _ _ _ _ _ ↦ trivial
  exact adds_named .call rfl rfl hbehind (fun _ hname _ ↦ hname) hword

omit hbodies in
/-- An action that leaves or repeats a loop is asked for nothing. -/
theorem adds_loopAction (kind : NodeKind) (hframe : kind.isFrame = false)
    (hoperand : kind.isOperand = false) (hanswers : ∀ parts, Answers kind parts)
    (context : Context) (s : State) : Adds (fun _ _ ↦ True) (loopAction kind context) s := by
  have hinside : Quiet (do
      bump
      bump
      if ← expect .rightDelim context then
        if (← get).loops = 0 then fail (.outsideLoop context)) :=
    quiet_bump.bind fun _ ↦ quiet_bump.bind fun _ ↦ (quiet_expect _ _).bind fun _ ↦
      quiet_ite (quiet_get.bind fun _ ↦ quiet_ite (quiet_fail _) (quiet_pure _)) (quiet_pure _)
  exact ((hinside _).node kind hframe hoperand fun _ _ _ ↦ hanswers _).mono fun _ _ ↦ trivial

omit hbodies in
/-- An action that is a pipeline has one. -/
theorem adds_plainAction (s : State) : Adds (fun _ _ ↦ True) plainAction s := by
  have hinside : Adds (fun _ ↦ Gives Part.pipeline?) (do
      bump
      actionPipeline .command
      let _ ← eat .rightDelim) s.inside := by
    refine quiet_bump.before fun _ t ↦ ((adds_actionPipeline .command t).mono ?_).then_quiet
      fun _ ↦ (quiet_eat _).bind fun _ ↦ quiet_pure _
    rintro _ ⟨q, rfl⟩
    exact gives_singleton_iff.mpr rfl
  refine (hinside.node .action rfl rfl fun _ children h ↦ ?_).mono fun _ _ ↦ trivial
  exact isSome_findSome?_iff.mpr ((gives_groups_iff (fun _ ↦ rfl) children).mp h)

/-- An action, whose left delimiter comes next. -/
theorem adds_action {s : State} (hleft : s.place.kind? = some .leftDelim) :
    Adds (fun _ _ ↦ True) (action bodies) s := by
  have hword : (second s).2.place.word? = (second s).1 := by
    rw [second_apply, place_look, kind?_tail_place, Place.word?, if_pos hleft]
  have hcontrol (kind : Control) (t : State) : Adds (fun _ _ ↦ True) (bodies.control kind) t :=
    (hbodies.control kind t).mono fun _ _ ↦ trivial
  refine (quiet_second s).bind (H := fun _ _ _ ↦ True) ?_ fun _ _ _ _ _ _ ↦ trivial
  generalize (second s).1 = word at hword
  generalize (second s).2 = t at hword
  split
  · exact hcontrol .ifBlock t
  · exact hcontrol .withBlock t
  · exact hcontrol .rangeBlock t
  · exact adds_block hbodies hword
  · exact adds_call hword
  · exact adds_loopAction .breakLoop rfl rfl (fun _ ↦ trivial) _ t
  · exact adds_loopAction .continueLoop rfl rfl (fun _ ↦ trivial) _ t
  · exact adds_plainAction t

/-- An item adds what has all that is asked of it. -/
theorem adds_item (s : State) : Adds (fun _ _ ↦ True) (item bodies) s := by
  have hkind : (current s).2.place.kind? = (current s).1 := by
    rw [current_apply, place_look, kind?_place]
  refine (quiet_current s).bind (H := fun _ _ _ ↦ True) ?_ fun _ _ _ _ _ _ ↦ trivial
  generalize (current s).1 = kind at hkind
  generalize (current s).2 = t at hkind
  split
  · exact (quiet_bump t).mono fun _ _ ↦ trivial
  · exact ((quiet_bump t.inside).node .comment rfl rfl fun _ _ _ ↦ trivial).mono
      fun _ _ ↦ trivial
  · exact adds_action hbodies hkind
  · exact adds_unexpected _ t

/-- So does a round of a list. -/
theorem adds_listStep (s : State) : Adds (fun _ _ ↦ True) (listStep bodies) s := by
  refine quiet_stopped.before fun _ t ↦ adds_ite (fun _ ↦ ?_) fun _ ↦ ?_
  · exact (quiet_fail _).before fun _ _ ↦ adds_pure trivial
  · refine quiet_actionWord.before fun word t ↦ ?_
    unfold listItem
    split
    · exact adds_pure trivial
    · exact adds_pure trivial
    · exact (adds_item hbodies t).bind (H := fun _ _ _ ↦ True) (adds_pure trivial)
        fun _ _ _ _ _ _ ↦ trivial

/-- A list adds itself. -/
theorem adds_list (s : State) : Adds (fun _ gs ↦ ∃ is, gs = [.list is]) (list bodies) s := by
  have hitems := adds_iterate (fun _ t ↦ adds_listStep hbodies t) ListEnd.stopped s.inside
  rw [list_eq]
  refine (hitems.node .list rfl rfl fun _ _ _ ↦ trivial).mono ?_
  rintro _ ⟨tree, parts, rfl⟩
  exact ⟨_, rfl⟩

/-- One round at the top of a template. -/
theorem adds_rootStep (s : State) : Adds (fun _ _ ↦ True) (rootStep bodies) s := by
  refine quiet_stopped.before fun _ t ↦ adds_ite (fun _ ↦ adds_pure trivial) fun _ ↦ ?_
  have hword : (actionWord t).2.place.word? = (actionWord t).1 := by
    rw [actionWord_apply, place_look]
  refine (quiet_actionWord t).bind (H := fun _ _ _ ↦ True) ?_ fun _ _ _ _ _ _ ↦ trivial
  generalize (actionWord t).1 = word at hword
  generalize (actionWord t).2 = u at hword
  unfold rootItem
  split
  · exact (adds_define hbodies hword).bind (H := fun _ _ _ ↦ True) (adds_pure trivial)
      fun _ _ _ _ _ _ ↦ trivial
  · exact (adds_endAction u).bind (H := fun _ _ _ ↦ True)
      ((quiet_fail _).before fun _ _ ↦ adds_pure trivial) fun _ _ _ _ _ _ ↦ trivial
  · exact adds_of_error (grows_bind grows_strayElse
      (fun _ ↦ grows_bind (grows_fail _) fun _ ↦ grows_pure _) u) (isSome_error_fail _ _)
  · exact (adds_item hbodies u).bind (H := fun _ _ _ ↦ True) (adds_pure trivial)
      fun _ _ _ _ _ _ ↦ trivial

end Bodies

/-- However deep blocks may nest. -/
theorem add_bodiesTo : ∀ depth : Nat, (bodiesTo depth).Add
  | 0 => ⟨fun _ ↦ (adds_fail (F := fun _ _ ↦ False) _ _).bind (H := fun _ _ _ ↦ True)
      (adds_pure trivial) fun _ _ _ _ h _ ↦ h.elim, fun _ _ ↦ adds_fail _ _⟩
  | depth + 1 => ⟨adds_list (add_bodiesTo depth), adds_control (add_bodiesTo depth)⟩

/-! ### Whole templates -/

/-- What the items of an accepted template have added has all that is asked of it. -/
theorem answering_afterItems {text : String} (h : (State.afterItems text).error = none) :
    ∀ tree ∈ (State.afterItems text).built, tree.Answering := by
  have hitems := adds_iterate (fun _ t ↦ adds_rootStep
    (add_bodiesTo ((Tokens.ofText text).tokens.length + 1)) t) () (State.start text)
  obtain ⟨added, hbuilt, hanswers, -⟩ := hitems.adds h
  intro tree htree
  have hadded : (State.afterItems text).built = added.reverse := hbuilt.trans (List.append_nil _)
  rw [hadded, List.mem_reverse] at htree
  exact hanswers tree htree

/-- The tree of an accepted template is a root over what the items have added, and the white space
behind them. -/
theorem tree_ofText_of_accepted {text : String} (h : (State.afterItems text).error = none) :
    (Parse.ofText text).tree = .node .root ((State.afterItems text).built.reverse ++
      (State.afterItems text).look.pending.map .leaf) := by
  have hrest : (State.afterItems text).rest = [] := by
    refine (rootLoop_ends (grow_bodiesTo _) (State.start text)).resolve_left fun hsome ↦ ?_
    exact Option.isSome_iff_ne_none.mp hsome h
  have hlook : (State.afterItems text).look.rest = [] := by
    rw [State.look, hrest]
    rfl
  have hsettle : (State.afterItems text).look.settle.built.reverse =
      (State.afterItems text).built.reverse ++
        (State.afterItems text).look.pending.map .leaf := by
    have hbuilt : (State.afterItems text).look.settle.built =
      (State.afterItems text).look.pending.reverse.map .leaf ++ (State.afterItems text).built := rfl
    rw [hbuilt, List.reverse_append, ← List.map_reverse, List.reverse_reverse]
  rw [← hsettle, Parse.ofText_eq, final_eq, takeRest_apply_of_nil hlook]
  rfl

end Parser

/-- In the tree of a template without an error every node has all that is asked of a node of its
kind: an action, a block with a header and a parenthesis have a pipeline, a block has a list, what
defines or calls a template has a name, an else branch has either a block or a list, and so on. So
nothing is missing in the outline, at any depth. -/
theorem answers_of_accepted {text : String} (h : (Parse.ofText text).error = none) :
    (∀ kind children, (Tree.node kind children).Within (Parse.ofText text).tree →
      Answers kind (ofTrees children)) ∧
    ∀ i ∈ (Parse.ofText text).tree.items, i.Complete := by
  have hafter : (Parser.State.afterItems text).error = none := by
    rw [← Parser.error_final]
    exact h
  have htree : (Parse.ofText text).tree.Answering := by
    rw [Parser.tree_ofText_of_accepted hafter]
    refine Tree.answering_node trivial fun c hc ↦ ?_
    rcases List.mem_append.mp hc with hc | hc
    · exact Parser.answering_afterItems hafter c (List.mem_reverse.mp hc)
    · obtain ⟨t, -, rfl⟩ := List.mem_map.mp hc
      exact Tree.answering_leaf t
  exact ⟨htree, htree.complete_items⟩

/-- A definition with a chain of else branches, a call of it, a loop that declares two variables,
and a block. -/
def everyBlock : String :=
  "\x7b\x7b define \"job\" \x7d\x7d\x7b\x7b if .Labels.job \x7d\x7da" ++
    "\x7b\x7b else if (eq .Value 1) | not \x7d\x7db\x7b\x7b else \x7d\x7dc\x7b\x7b end \x7d\x7d" ++
    "\x7b\x7b end \x7d\x7d\x7b\x7b template \"job\" . \x7d\x7d" ++
    "\x7b\x7b range $i, $x := query \"up\" \x7d\x7d\x7b\x7b $x.Value \x7d\x7d\x7b\x7b end \x7d\x7d" ++
    "\x7b\x7b block \"row\" $value \x7d\x7d\x7b\x7b . -\x7d\x7d\x7b\x7b end \x7d\x7d"

/-- All nodes of the template with every sort of block have what is asked of them, and nothing is
missing in its outline. -/
theorem answers_of_accepted_everyBlock :
    (Parse.ofText everyBlock).error = none ∧
      (∀ kind children, (Tree.node kind children).Within (Parse.ofText everyBlock).tree →
        Answers kind (ofTrees children)) ∧
      ∀ i ∈ (Parse.ofText everyBlock).tree.items, i.Complete :=
  have herror : (Parse.ofText everyBlock).error = none := by decide +kernel
  ⟨herror, answers_of_accepted herror⟩

end AlertAudit.Template
