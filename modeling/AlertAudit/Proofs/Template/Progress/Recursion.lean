import AlertAudit.Proofs.Template.Acceptance
import AlertAudit.Proofs.Template.Limits
import AlertAudit.Proofs.Template.Progress.Loops

/-!
The recursion of the parser. The productions call one another in a cycle only by way of the lists
and blocks in a block and of the pipelines in parentheses. A list calls the parsers of what stands
inside behind two more tokens, or at a block that has not been started; a block calls them behind
its word. So the tokens in front of a list and those behind the word of a block get fewer with every
call (`Bodies.AgreeTo`), and there is exactly one way to parse what stands inside of blocks to any
depth (`eq_blocks_iff`).
-/

set_option autoImplicit false

namespace AlertAudit.Template.Parser

variable {α : Type}

/-- Of `n` tokens at least `count` are behind. -/
def Taken (count n : Nat) (s : State) : Prop := s.place.ahead.length + count ≤ n

theorem stable_taken (count n : Nat) : Stable (Taken count n) where
  grows := fun _ _ hgrows hs ↦
    Nat.le_trans (Nat.add_le_add_right hgrows.length_ahead_le count) hs
  inside := fun _ hs ↦ hs

section Rules

variable {C : State → Prop} {p q : Parser α}

/-- Parsers that agree do so with the variables kept. -/
theorem AgreeOn.keepingVars (h : AgreeOn C p q) :
    AgreeOn C (keepingVars p) (keepingVars q) := by
  intro s hs
  have hkeeping (r : Parser α) : Parser.keepingVars r s = ((r s).1,
    { (r s).2 with vars := (r s).2.vars.drop ((r s).2.vars.length - s.vars.length) }) := rfl
  rw [hkeeping, hkeeping, h s hs]

theorem AgreeOn.inLoop (hC : ∀ s : State, C s → C { s with loops := s.loops + 1 })
    (h : AgreeOn C p q) : AgreeOn C (inLoop p) (inLoop q) := by
  intro s hs
  have hinLoop (r : Parser α) : Parser.inLoop r s = ((r { s with loops := s.loops + 1 }).1,
    { (r { s with loops := s.loops + 1 }).2 with
      loops := (r { s with loops := s.loops + 1 }).2.loops - 1 }) := rfl
  rw [hinLoop, hinLoop, h _ (hC s hs)]

theorem AgreeOn.isolated (hC : ∀ s : State, C s → C { s with vars := ["$"], loops := 0 })
    (h : AgreeOn C p q) : AgreeOn C (isolated p) (isolated q) := by
  intro s hs
  rw [isolated_apply, isolated_apply, h _ (hC s hs)]

/-- Behind the two tokens at which an action starts. -/
theorem AgreeOn.pastTwo {D : State → Prop} (h : AgreeOn D p q)
    (hD : ∀ s, C s → D (bump (bump s).2).2) :
    AgreeOn C (do bump; bump; p) (do bump; bump; q) := by
  intro s hs
  rw [bind_apply, bind_apply, bind_apply, bind_apply]
  exact h _ (hD s hs)

end Rules

/-! ### Blocks -/

/-- Two tokens are taken, if there are as many. -/
theorem ahead_bump_bump (s : State) :
    (bump (bump s).2).2.place.ahead = s.place.ahead.tail.tail := by
  rw [place_bump, place_bump]
  rfl

/-- A token of the kind is taken if it comes next. -/
theorem place_eat (kind : TokenKind) (s : State) : (eat kind s).2.place =
    if s.place.kind? = some kind then s.place.tail else s.place := by
  rw [eat, bind_apply, current_apply, kind?_place]
  split
  · rw [bind_apply, pure_apply, place_bump, place_look]
  · rw [pure_apply, place_look]

/-- The word of a block has been taken. -/
theorem place_word (s : State) : (bump (eat .leftDelim s).2).2.place = s.place.pastWord := by
  rw [place_bump, place_eat, Place.pastWord]
  split
  · rfl
  · rfl

section Control

variable {bodies bodies' : Bodies} {n : Nat}
  (hlist : AgreeOn (Taken 0 n) bodies.list bodies'.list)
  (hcontrol : ∀ kind, AgreeOn (fun t ↦ t.place.kind? = some (.keyword kind.word) ∧ Taken 2 n t)
    (bodies.control kind) (bodies'.control kind))
include hlist hcontrol

/-- What comes behind the word of an else branch agrees where the parsers inside of it do. -/
theorem agreeOn_elseChoice (kind : Control) :
    AgreeOn (fun t ↦ Taken 0 n t ∧ (t.place.ahead ≠ [] → Taken 2 n t)) (elseChoice bodies kind)
      (elseChoice bodies' kind) := by
  rintro s ⟨hs, htaken⟩
  have hstable := stable_taken 0 n
  have hbody : AgreeOn (Taken 0 n) (do if ← failed then return .stopped else bodies.list)
      (do if ← failed then return .stopped else bodies'.list) :=
    .after hstable grows_failed fun _ ↦ (agreeOn_refl _).ite hlist
  have hlook : Taken 0 n s.look := hstable.grows _ _ (growsTo_look s) hs
  rw [elseChoice, elseChoice, bind_apply, bind_apply, current_apply, kind?_place]
  cases hchained : chained? kind s.place.kind? with
  | some nested =>
    obtain ⟨rfl, -, hword⟩ := chained?_eq_some_iff.mp hchained
    have hahead : s.place.ahead ≠ [] := by
      intro hnil
      rw [Place.kind?, hnil] at hword
      cases hword
    refine congrArg (fun r : Unit × State ↦ (ListEnd.stopped, r.2))
      (hcontrol nested s.look ⟨?_, ?_⟩)
    · rw [place_look, hword]
    · rw [Taken, place_look]
      exact htaken hahead
  | none =>
    refine AgreeOn.after hstable grows_current (fun _ ↦ ?_) s.look hlook
    exact hbody.ite (.after hstable (grows_expect _ _) fun _ ↦ hbody)

theorem agreeOn_elseBranch (kind : Control) :
    AgreeOn (Taken 0 n) (elseBranch bodies kind) (elseBranch bodies' kind) := by
  have hinside : AgreeOn (Taken 0 n) (bump >>= fun _ ↦ bump >>= fun _ ↦ elseChoice bodies kind)
      (bump >>= fun _ ↦ bump >>= fun _ ↦ elseChoice bodies' kind) := by
    refine (agreeOn_elseChoice hlist hcontrol kind).pastTwo fun s hs ↦ ?_
    have hs : s.place.ahead.length + 0 ≤ n := hs
    rw [Taken, Taken, ahead_bump_bump, ← List.length_pos_iff, List.length_tail, List.length_tail]
    omega
  rw [elseBranch_eq, elseBranch_eq]
  exact (hinside.node (stable_taken 0 n).inside .elseBranch).then_same

/-- The rest of a block agrees where the parsers inside of it do. -/
theorem agreeOn_controlRest (hbodies : bodies.Grow) (kind : Control) :
    AgreeOn (Taken 0 n) (controlRest bodies kind) (controlRest bodies' kind) := by
  have hstable := stable_taken 0 n
  have hends (e : ListEnd) :
      AgreeOn (Taken 0 n) (controlEnd bodies kind e) (controlEnd bodies' kind e) := by
    cases e with
    | atEnd => exact agreeOn_refl _
    | atElse => exact agreeOn_elseBranch hlist hcontrol kind
    | stopped => exact agreeOn_refl _
  have hinLoop : AgreeOn (Taken 0 n) (inLoop bodies.list) (inLoop bodies'.list) :=
    hlist.inLoop fun _ hs ↦ hs
  have hlists : AgreeOn (Taken 0 n) (controlList bodies kind) (controlList bodies' kind) :=
    hinLoop.ite hlist
  refine .after hstable (grows_actionPipeline _) fun _ ↦ .after hstable (grows_eat _) fun _ ↦ ?_
  exact hlists.bind hstable (grows_ite (grows_inLoop hbodies.list) hbodies.list) hends

/-- A block is parsed by what stands behind its word. -/
theorem agreeOn_control (hbodies : bodies.Grow) (kind : Control) :
    AgreeOn (fun s ↦ s.place.pastWord.ahead.length ≤ n) (control bodies kind)
      (control bodies' kind) := by
  rw [control_eq, control_eq]
  refine (AgreeOn.node (fun _ hs ↦ hs) _ fun s hs ↦ ?_).keepingVars
  rw [bind_apply, bind_apply, bind_apply, bind_apply]
  refine agreeOn_controlRest hlist hcontrol hbodies kind _ ?_
  rw [Taken, place_word]
  exact hs

end Control

/-! ### Lists -/

/-- An action with a word takes two tokens to get behind it. -/
theorem length_ahead_of_word? {v : Place} {kind : TokenKind} (h : v.word? = some kind) :
    v.tail.tail.ahead.length + 2 = v.ahead.length := by
  obtain ⟨left, r, hahead, -⟩ := exists_cons_of_kind? (kind?_tail_of_word? h).1
  obtain ⟨word, r', hr, -⟩ := exists_cons_of_kind? (kind?_tail_of_word? h).2
  rw [Place.tail, hahead] at hr
  obtain rfl : r = word :: r' := hr
  rw [Place.tail, Place.tail, hahead]
  rfl

/-- An action with a word and a body. -/
theorem agreeOn_worded {k k' : Parser Unit} {n : Nat} (kind : NodeKind)
    (h : AgreeOn (Taken 2 n) k k') :
    AgreeOn (fun s ↦ s.place.word? ≠ none ∧ Taken 0 n s) (node kind (do bump; bump; k))
      (node kind (do bump; bump; k')) := by
  refine (h.pastTwo fun s hs ↦ ?_).node (fun _ hs ↦ hs) kind
  obtain ⟨word, hword⟩ := Option.ne_none_iff_exists'.mp hs.1
  rw [Taken, ahead_bump_bump]
  exact Nat.le_trans (Nat.le_of_eq (length_ahead_of_word? hword)) hs.2

section List

variable {bodies bodies' : Bodies} {n : Nat}
  (hlist : AgreeOn (Taken 2 n) bodies.list bodies'.list)
include hlist

/-- The bodies of named templates agree where the parsers inside of them do. -/
theorem agreeOn_templateBody (context : Context) :
    AgreeOn (Taken 2 n) (templateBody bodies context) (templateBody bodies' context) := by
  rw [templateBody_eq, templateBody_eq]
  refine .after (stable_taken 2 n) grows_failed fun _ ↦ (agreeOn_refl _).ite ?_
  exact .isolated (fun _ hs ↦ hs) hlist.then_same

theorem agreeOn_define :
    AgreeOn (fun s ↦ s.place.word? ≠ none ∧ Taken 0 n s) (define bodies) (define bodies') := by
  have hstable := stable_taken 2 n
  exact agreeOn_worded .define (.after hstable (grows_templateName _) fun _ ↦
    .after hstable (grows_expect _ _) fun _ ↦ agreeOn_templateBody hlist _)

theorem agreeOn_block :
    AgreeOn (fun s ↦ s.place.word? ≠ none ∧ Taken 0 n s) (block bodies) (block bodies') := by
  have hstable := stable_taken 2 n
  exact agreeOn_worded .block (.after hstable (grows_templateName _) fun _ ↦
    .after hstable (grows_actionPipeline _) fun _ ↦ .after hstable (grows_eat _) fun _ ↦
      agreeOn_templateBody hlist _)

variable (hcontrol : ∀ kind, AgreeOn
    (fun t ↦ t.place.word? = some (.keyword kind.word) ∧ Taken 0 n t)
    (bodies.control kind) (bodies'.control kind))
include hcontrol

/-- Actions with a word agree where the parsers inside of them do. -/
theorem agreeOn_wordAction (word : Option TokenKind) :
    AgreeOn (fun s ↦ s.place.word? = word ∧ Taken 0 n s) (wordAction bodies word)
      (wordAction bodies' word) := by
  unfold wordAction
  split
  · exact hcontrol .ifBlock
  · exact hcontrol .withBlock
  · exact hcontrol .rangeBlock
  · refine (agreeOn_block hlist).mono fun s hs ↦ ⟨?_, hs.2⟩
    rw [hs.1]
    exact Option.some_ne_none _
  · exact agreeOn_refl _
  · exact agreeOn_refl _
  · exact agreeOn_refl _
  · exact agreeOn_refl _

theorem agreeOn_action : AgreeOn (fun s ↦ s.place.kind? = some .leftDelim ∧ Taken 0 n s)
    (action bodies) (action bodies') := by
  rintro s ⟨hleft, hs⟩
  have hword : s.place.tail.kind? = s.place.word? := (if_pos hleft).symm
  rw [action_eq, action_eq, bind_apply, bind_apply, second_apply, kind?_tail_place, hword]
  exact agreeOn_wordAction hlist hcontrol _ s.look
    ⟨by rw [place_look], (stable_taken 0 n).grows _ _ (growsTo_look s) hs⟩

/-- Items agree where the parsers inside of them do. -/
theorem agreeOn_item : AgreeOn (Taken 0 n) (item bodies) (item bodies') := by
  have hkind (kind : Option TokenKind) : AgreeOn (fun s ↦ s.place.kind? = kind ∧ Taken 0 n s)
      (kindItem bodies kind) (kindItem bodies' kind) := by
    unfold kindItem
    split
    · exact agreeOn_refl _
    · exact agreeOn_refl _
    · exact agreeOn_action hlist hcontrol
    · exact agreeOn_refl _
  intro s hs
  rw [item_eq, item_eq, bind_apply, bind_apply, current_apply, kind?_place]
  exact hkind _ s.look ⟨by rw [place_look], (stable_taken 0 n).grows _ _ (growsTo_look s) hs⟩

/-- The rounds of a list agree where the parsers inside of the items do. -/
theorem agreeOn_listStep : AgreeOn (Taken 0 n) (listStep bodies) (listStep bodies') := by
  have hstable := stable_taken 0 n
  have hitem (word : Option TokenKind) :
      AgreeOn (Taken 0 n) (listItem bodies word) (listItem bodies' word) := by
    unfold listItem
    split
    · exact agreeOn_refl _
    · exact agreeOn_refl _
    · exact (agreeOn_item hlist hcontrol).then_same
  refine .after hstable grows_stopped fun _ ↦ (agreeOn_refl _).ite ?_
  exact .after hstable grows_actionWord hitem

/-- A list is parsed by the tokens in front of it. -/
theorem agreeOn_list (hbodies : bodies.Grow) :
    AgreeOn (Taken 0 n) (list bodies) (list bodies') := by
  have hstable := stable_taken 0 n
  rw [list_eq, list_eq]
  exact (AgreeOn.iterate hstable (fun _ ↦ grows_listStep hbodies)
    (fun _ ↦ agreeOn_listStep hlist hcontrol) _).node hstable.inside .list

theorem agreeOn_rootStep : AgreeOn (Taken 0 n) (rootStep bodies) (rootStep bodies') := by
  have hstable := stable_taken 0 n
  have hitem (word : Option TokenKind) : AgreeOn (fun s ↦ s.place.word? = word ∧ Taken 0 n s)
      (rootItem bodies word) (rootItem bodies' word) := by
    unfold rootItem
    split
    · refine ((agreeOn_define hlist).mono fun s hs ↦ ⟨?_, hs.2⟩).then_same
      rw [hs.1]
      exact Option.some_ne_none _
    · exact agreeOn_refl _
    · exact agreeOn_refl _
    · exact ((agreeOn_item hlist hcontrol).mono fun _ hs ↦ hs.2).then_same
  refine .after hstable grows_stopped fun _ ↦ (agreeOn_refl _).ite fun s hs ↦ ?_
  rw [bind_apply, bind_apply, actionWord_apply]
  exact hitem _ s.look ⟨by rw [place_look], hstable.grows _ _ (growsTo_look s) hs⟩

/-- Whole templates agree where the parsers inside of the items do. -/
theorem agreeOn_root (hbodies : bodies.Grow) :
    AgreeOn (Taken 0 n) (root bodies) (root bodies') := by
  have hstable := stable_taken 0 n
  have hloop : AgreeOn (Taken 0 n) (iterate (fun _ ↦ rootStep bodies) ())
      (iterate (fun _ ↦ rootStep bodies') ()) :=
    .iterate hstable (fun _ ↦ grows_rootStep hbodies)
      (fun _ ↦ agreeOn_rootStep hlist hcontrol) ()
  have hall : AgreeOn (Taken 0 n) (do iterate (fun _ ↦ rootStep bodies) (); takeRest)
      (do iterate (fun _ ↦ rootStep bodies') (); takeRest) := hloop.then_same
  exact hall.node hstable.inside .root

end List

/-! ### All levels -/

/-- The parsers one level further out. -/
def Bodies.outer (bodies : Bodies) : Bodies := ⟨Parser.list bodies, Parser.control bodies⟩

/-- The parsers do the same where fewer than `n` tokens are in front, for a block those behind its
left delimiter. -/
structure Bodies.AgreeTo (n : Nat) (bodies bodies' : Bodies) : Prop where
  list : AgreeOn (fun s ↦ s.place.ahead.length < n) bodies.list bodies'.list
  control : ∀ kind, AgreeOn (fun s ↦ s.place.pastWord.ahead.length + 1 < n) (bodies.control kind)
    (bodies'.control kind)

theorem Bodies.Grow.outer {bodies : Bodies} (h : bodies.Grow) : bodies.outer.Grow :=
  ⟨grows_list h, fun kind ↦ (consumes_control h kind).proceeds⟩

/-- Behind the word two tokens are gone. -/
theorem length_pastWord_of_word? {v : Place} {kind : TokenKind} (h : v.word? = some kind) :
    v.pastWord.ahead.length + 2 = v.ahead.length := by
  rw [Place.pastWord, if_pos (kind?_tail_of_word? h).1, length_ahead_of_word? h]

/-- A block whose left delimiter has been taken. -/
theorem length_pastWord_of_keyword {v : Place} {word : Keyword}
    (h : v.kind? = some (.keyword word)) : v.pastWord.ahead.length + 1 = v.ahead.length := by
  obtain ⟨token, r, hahead, -⟩ := exists_cons_of_kind? h
  rw [Place.pastWord, if_neg (by rw [h]; simp), Place.tail, hahead]
  rfl

section AgreeTo

variable {bodies bodies' : Bodies} {n : Nat}

/-- What stands inside of a list or block is parsed with fewer tokens in front. -/
theorem Bodies.AgreeTo.outer (hbodies : bodies.Grow) (h : bodies.AgreeTo n bodies') :
    bodies.outer.AgreeTo (n + 1) bodies'.outer where
  list := by
    have hlist : AgreeOn (Taken 2 n) bodies.list bodies'.list :=
      h.list.mono fun s (hs : s.place.ahead.length + 2 ≤ n) ↦ by omega
    have hcontrol (kind : Control) :
        AgreeOn (fun s ↦ s.place.word? = some (.keyword kind.word) ∧ Taken 0 n s)
          (bodies.control kind) (bodies'.control kind) := by
      refine (h.control kind).mono fun s ⟨hword, hs⟩ ↦ ?_
      have hlength := length_pastWord_of_word? hword
      rw [Taken] at hs
      omega
    exact (agreeOn_list hlist hcontrol hbodies).mono fun s hs ↦ Nat.le_of_lt_succ hs
  control kind := by
    cases n with
    | zero => exact fun s hs ↦ absurd (Nat.lt_of_succ_lt_succ hs) (Nat.not_lt_zero _)
    | succ n =>
      have hlist : AgreeOn (Taken 0 n) bodies.list bodies'.list :=
        h.list.mono fun s hs ↦ Nat.lt_succ_of_le hs
      have hcontrol (kind : Control) :
          AgreeOn (fun s ↦ s.place.kind? = some (.keyword kind.word) ∧ Taken 2 n s)
            (bodies.control kind) (bodies'.control kind) := by
        refine (h.control kind).mono fun s ⟨hword, hs⟩ ↦ ?_
        have hlength := length_pastWord_of_keyword hword
        rw [Taken] at hs
        omega
      exact (agreeOn_control hlist hcontrol hbodies kind).mono fun s hs ↦ by omega

theorem agreeTo_zero (bodies bodies' : Bodies) : bodies.AgreeTo 0 bodies' :=
  ⟨fun _ hs ↦ absurd hs (Nat.not_lt_zero _), fun _ _ hs ↦ absurd hs (Nat.not_lt_zero _)⟩

/-- Parsers for bounded nesting do what any parsers with as many levels do. -/
theorem agreeTo_bodiesTo {levels : Nat → Bodies} (h : ∀ m, levels (m + 1) = (levels m).outer)
    (n m : Nat) : (bodiesTo n).AgreeTo n (levels (m + n)) := by
  induction n with
  | zero => exact agreeTo_zero _ _
  | succ n ih =>
    rw [← Nat.add_assoc, h]
    exact ih.outer (grow_bodiesTo n)

/-- On so many tokens further levels change nothing. -/
theorem agreeTo_bodiesTo_of_le {m : Nat} (h : n ≤ m) : (bodiesTo n).AgreeTo n (bodiesTo m) := by
  obtain ⟨k, rfl⟩ := Nat.exists_eq_add_of_le' h
  exact agreeTo_bodiesTo (fun _ ↦ rfl) n k

end AgreeTo

/-- The parsers for what stands inside of blocks, which may nest as deep as there are tokens. -/
def blocks : Bodies where
  list := fun s ↦ (bodiesTo (s.place.ahead.length + 1)).list s
  control := fun kind s ↦ (bodiesTo (s.place.pastWord.ahead.length + 2)).control kind s

/-- The list parser of `blocks` has levels enough for what is ahead. -/
theorem list_blocks (s : State) :
    blocks.list s = (bodiesTo (s.place.ahead.length + 1)).list s := rfl

theorem control_blocks (kind : Control) (s : State) :
    blocks.control kind s = (bodiesTo (s.place.pastWord.ahead.length + 2)).control kind s := rfl

theorem grow_blocks : blocks.Grow where
  list := by
    intro s
    rw [list_blocks]
    exact (grow_bodiesTo _).list s
  control := by
    intro kind
    refine ⟨fun s ↦ ?_, fun s hs ↦ ?_⟩
    · rw [control_blocks]
      exact ((grow_bodiesTo _).control kind).grows s
    · rw [Advances, Takes, control_blocks]
      exact ((grow_bodiesTo _).control kind).advances s hs

/-- On so many tokens `blocks` does what that many levels do. -/
theorem agreeTo_blocks (n : Nat) : (bodiesTo n).AgreeTo n blocks where
  list := by
    intro s hs
    have hle : (bodiesTo (s.place.ahead.length + 1)).AgreeTo (s.place.ahead.length + 1)
        (bodiesTo n) := agreeTo_bodiesTo_of_le hs
    rw [list_blocks, hle.list s (Nat.lt_succ_self _)]
  control := by
    intro kind s hs
    have hle : (bodiesTo (s.place.pastWord.ahead.length + 2)).AgreeTo
        (s.place.pastWord.ahead.length + 2) (bodiesTo n) := agreeTo_bodiesTo_of_le hs
    rw [control_blocks, hle.control kind s (Nat.lt_succ_self _)]

/-- Parsers that agree whatever the number of tokens are the same. -/
theorem Bodies.eq_of_agreeTo {bodies bodies' : Bodies} (h : ∀ n, bodies.AgreeTo n bodies') :
    bodies = bodies' := by
  have hlist : bodies.list = bodies'.list :=
    funext fun s ↦ (h (s.place.ahead.length + 1)).list s (Nat.lt_succ_self _)
  have hcontrol : bodies.control = bodies'.control := funext fun kind ↦ funext fun s ↦
    (h (s.place.pastWord.ahead.length + 2)).control kind s (Nat.lt_succ_self _)
  exact congr (congrArg Bodies.mk hlist) hcontrol

theorem Bodies.AgreeTo.trans_of {bodies bodies' bodies'' : Bodies} {n : Nat}
    (h : bodies.AgreeTo n bodies') (h' : bodies.AgreeTo n bodies'') :
    bodies'.AgreeTo n bodies'' where
  list := fun s hs ↦ (h.list s hs).symm.trans (h'.list s hs)
  control := fun kind s hs ↦ (h.control kind s hs).symm.trans (h'.control kind s hs)

/-- The recursion of lists and blocks has one solution. -/
theorem eq_outer_iff {bodies : Bodies} : bodies = bodies.outer ↔ bodies = blocks := by
  constructor
  · intro h
    have hbodies : ∀ n, (bodiesTo n).AgreeTo n bodies := fun n ↦
      @agreeTo_bodiesTo (fun _ ↦ bodies) (fun _ ↦ h) n 0
    exact Bodies.eq_of_agreeTo fun n ↦ (hbodies n).trans_of (agreeTo_blocks n)
  · rintro rfl
    refine Bodies.eq_of_agreeTo fun n ↦ ?_
    cases n with
    | zero => exact agreeTo_zero _ _
    | succ n => exact (agreeTo_blocks (n + 1)).trans_of ((agreeTo_blocks n).outer (grow_bodiesTo n))

/-- A template is parsed with these parsers. -/
theorem root_blocks (text : String) : root blocks (.start text) =
    root (bodiesTo ((Tokens.ofText text).tokens.length + 1)) (.start text) := by
  have hagree := agreeTo_blocks ((Tokens.ofText text).tokens.length + 1)
  have hstart : Taken 0 (Tokens.ofText text).tokens.length (.start text) := length_pieces_le _
  refine (agreeOn_root (hagree.list.mono fun s (hs : s.place.ahead.length + 2 ≤ _) ↦ ?_)
    (fun kind ↦ (hagree.control kind).mono fun s ⟨hword, hs⟩ ↦ ?_) (grow_bodiesTo _) _ hstart).symm
  · omega
  · have hlength := length_pastWord_of_word? hword
    rw [Taken] at hs
    omega

/-! ### Parentheses -/

theorem AgreeOn.inParens {C : State → Prop} {p q : Parser α}
    (hC : ∀ s : State, C s → C { s with depth := s.depth + 1 }) (h : AgreeOn C p q) :
    AgreeOn C (inParens p) (inParens q) := by
  intro s hs
  have hinParens (r : Parser α) : Parser.inParens r s = ((r { s with depth := s.depth + 1 }).1,
    { (r { s with depth := s.depth + 1 }).2 with
      depth := (r { s with depth := s.depth + 1 }).2.depth - 1 }) := rfl
  rw [hinParens, hinParens, h _ (hC s hs)]

/-- A pipeline in parentheses, unless as many are open as the limit allows. `inner` reads what
stands in parentheses in it. -/
def outerParens (inner : Parser Unit) : Parser Unit := do
  if maxDepth ≤ (← get).depth then fail .tooDeep
  else Parser.inParens (pipeline inner .parenthesized .parenClose)

section Parens

variable {inner inner' : Parser Unit} {n : Nat} (hinner : Grows inner)
  (h : AgreeOn (fun s ↦ s.place.ahead.length < n) inner inner')
include hinner h

/-- What stands in parentheses in a pipeline is read with fewer tokens in front. -/
theorem agreeOn_pipeline_short (context : Context) (close : TokenKind) :
    AgreeOn (Short n) (pipeline inner context close) (pipeline inner' context close) := by
  refine agreeOn_pipeline (stable_short n) hinner (h.mono ?_) context close
  rintro t ⟨-, s, hs, hlt⟩
  exact Nat.lt_of_lt_of_le hlt hs

/-- Parentheses agree where the parsers inside of them do. -/
theorem agreeOn_outerParens : AgreeOn (Short n) (outerParens inner) (outerParens inner') := by
  refine .after (stable_short n) (fun s ↦ .refl s) fun s ↦ .ite (agreeOn_refl _) ?_
  exact (agreeOn_pipeline_short hinner h _ _).inParens fun _ hs ↦ hs

end Parens

/-- Where no more parentheses may be opened, the count refuses them. -/
theorem counted_of_le {s : State} (h : maxDepth ≤ s.depth) (fuel : Nat) :
    counted fuel s = fail .tooDeep s := by
  cases fuel with
  | zero => rfl
  | succ fuel => rw [counted, bind_apply, get_apply, if_pos h]

theorem counted_succ (fuel : Nat) : counted (fuel + 1) = outerParens (counted fuel) := rfl

/-- With all of the fuel the count solves its own equation: the limit refuses the rest. -/
theorem counted_eq_outerParens : counted maxDepth = outerParens (counted maxDepth) := by
  rw [← counted_succ]
  funext s
  by_cases hfull : maxDepth ≤ s.depth
  · rw [counted_of_le hfull, counted_of_le hfull]
  · have hroom : s.depth + (maxDepth - s.depth) = maxDepth := by omega
    rw [← agreeAt_counted hroom (Nat.sub_le _ _) s rfl,
      ← agreeAt_counted hroom ((Nat.sub_le _ _).trans (Nat.le_succ _)) s rfl]

theorem grows_counted : ∀ fuel : Nat, Grows (counted fuel)
  | 0 => grows_fail _
  | fuel + 1 => grows_bind (fun s ↦ .refl s) fun _ ↦ grows_ite (grows_fail _)
      (grows_inParens (grows_pipeline (grows_counted fuel) _ _))

/-- The recursion of parentheses has one solution. -/
theorem eq_outerParens_iff {p : Parser Unit} : p = outerParens p ↔ p = counted maxDepth := by
  refine ⟨fun h ↦ ?_, fun h ↦ h ▸ counted_eq_outerParens⟩
  have hshort (n : Nat) : AgreeOn (fun s ↦ s.place.ahead.length < n) (counted maxDepth) p := by
    induction n with
    | zero => exact fun s hs ↦ absurd hs (Nat.not_lt_zero _)
    | succ n ih =>
      rw [counted_eq_outerParens, h]
      exact (agreeOn_outerParens (grows_counted _) ih).mono fun s hs ↦ Nat.le_of_lt_succ hs
  exact funext fun s ↦ (hshort _ s (Nat.lt_succ_self _)).symm

end AlertAudit.Template.Parser
