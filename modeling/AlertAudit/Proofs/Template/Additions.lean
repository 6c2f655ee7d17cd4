import AlertAudit.Proofs.Template.Growth.Productions
import AlertAudit.Proofs.Template.Views

/-!
What the parser adds to the tree where it finds no fault. `Adds F p s` says that from `s` all nodes
that `p` adds have what is asked of them, and that what they contribute, tokens left out, is as `F`
says. Additions are put together in step with the parser, so that each node is checked where it is
made: by what the parsers in it add (`adds_node`).
-/

set_option autoImplicit false

namespace AlertAudit.Template

/-! ### What nodes contribute -/

namespace Outline

/-- What the nodes among some trees contribute. -/
def groups (trees : List Tree) : List Part := (ofTrees trees).filter (·.token?.isNone)

def Gives {γ : Type} (f : Part → Option γ) (parts : List Part) : Prop :=
  ∃ part ∈ parts, (f part).isSome

/-- What the nodes of some trees and some more contribute is what those of both do. -/
theorem groups_append (ts us : List Tree) : groups (ts ++ us) = groups ts ++ groups us := by
  rw [groups, ofTrees_append, List.filter_append]
  rfl

theorem ofTrees_map_leaf (ts : List Token) : ofTrees (ts.map .leaf) = ts.map .token := by
  induction ts with
  | nil => rfl
  | cons t ts ih => rw [List.map_cons, ofTrees, ofTree, ih, List.map_cons]

/-- Tokens contribute nothing of their own. -/
theorem groups_map_leaf (ts : List Token) : groups (ts.map .leaf) = [] := by
  induction ts with
  | nil => rfl
  | cons t ts ih => exact ih

/-- A node contributes what is put together from its children. -/
theorem groups_node (kind : NodeKind) (children : List Tree) :
    groups [.node kind children] =
      [assemble kind (.node kind children) (ofTrees children)] := by
  rw [groups, ofTrees, ofTrees, ofTree]
  cases kind <;> rfl

section Gives

variable {γ : Type} {f : Part → Option γ} {parts parts' : List Part}

theorem gives_singleton_iff {part : Part} : Gives f [part] ↔ (f part).isSome := by
  simp [Gives]

/-- What is found behind is found. -/
theorem Gives.append_left (h : Gives f parts') : Gives f (parts ++ parts') :=
  h.imp fun _ hpart ↦ ⟨List.mem_append_right _ hpart.1, hpart.2⟩

/-- What is found in front is found. -/
theorem Gives.append_right (h : Gives f parts) : Gives f (parts ++ parts') :=
  h.imp fun _ hpart ↦ ⟨List.mem_append_left _ hpart.1, hpart.2⟩

/-- A first one is found if one is. -/
theorem isSome_findSome?_iff : (parts.findSome? f).isSome ↔ Gives f parts := by
  rw [List.isSome_findSome?, List.any_eq_true]
  rfl

/-- Some are found if one is. -/
theorem filterMap_ne_nil_iff : parts.filterMap f ≠ [] ↔ Gives f parts := by
  simp [Gives, Option.isSome_iff_ne_none]

/-- A list is not missing if there is one. -/
theorem body_ne_missing_iff : body parts ≠ .missing ↔ Gives Part.list? parts := by
  rw [← isSome_findSome?_iff, body]
  cases hfound : parts.findSome? Part.list? with
  | none => simp
  | some b =>
    obtain ⟨part, -, hpart⟩ := List.exists_of_findSome?_eq_some hfound
    cases part <;> cases hpart
    simp

/-- Where `f` finds no tokens it looks through the nodes alone. -/
theorem gives_groups_iff (htoken : ∀ t, f (.token t) = none) (trees : List Tree) :
    Gives f (groups trees) ↔ Gives f (ofTrees trees) := by
  refine exists_congr fun part ↦ ?_
  rw [groups, List.mem_filter, and_assoc]
  refine and_congr_right fun _ ↦ ⟨And.right, fun h ↦ ⟨?_, h⟩⟩
  cases part with
  | token t => exact absurd h (by simp [htoken])
  | _ => rfl

end Gives

end Outline

namespace Parser

open AlertAudit.Template.Tree Outline

variable {α β : Type}

/-! ### Additions -/

/-- From `s`, what `p` adds to the tree has all that is asked of it, unless there is an error. `F`
says what the nodes contribute, for what `p` returns. -/
structure Adds (F : α → List Part → Prop) (p : Parser α) (s : State) : Prop where
  grows : s.GrowsTo (p s).2
  adds : (p s).2.error = none → ∃ added : List Tree, (p s).2.built = added.reverse ++ s.built ∧
    (∀ tree ∈ added, tree.Answering) ∧ F (p s).1 (groups added)

/-- `p` adds tokens alone. -/
def Quiet (p : Parser α) : Prop := ∀ s, Adds (fun _ gs ↦ gs = []) p s

section Rules

variable {F : α → List Part → Prop} {p : Parser α} {s : State}

/-- What does the same adds the same. -/
theorem Adds.congr {q : Parser α} (hsame : p s = q s) (h : Adds F q s) : Adds F p s := by
  obtain ⟨hgrows, hadds⟩ := h
  rw [← hsame] at hgrows hadds
  exact ⟨hgrows, hadds⟩

/-- What is said of additions may be weakened. -/
theorem Adds.mono {G : α → List Part → Prop} (h : Adds F p s)
    (hle : ∀ gs, F (p s).1 gs → G (p s).1 gs) : Adds G p s := by
  refine ⟨h.grows, fun herror ↦ ?_⟩
  obtain ⟨added, hbuilt, hanswers, hgroups⟩ := h.adds herror
  exact ⟨added, hbuilt, hanswers, hle _ hgroups⟩

/-- White space that is looked past first is no addition. -/
theorem Adds.of_look (h : Adds F p s.look) : Adds F (fun s ↦ p s.look) s :=
  ⟨(growsTo_look s).trans h.grows, h.adds⟩

/-- Where there is an error in the end, nothing is said of what is added. -/
theorem adds_of_error (hgrows : s.GrowsTo (p s).2) (herror : (p s).2.error.isSome) :
    Adds F p s :=
  ⟨hgrows, fun hnone ↦ absurd herror (by rw [hnone]; exact Bool.false_ne_true)⟩

/-- What takes nothing adds nothing. -/
theorem adds_pure {a : α} (h : F a []) : Adds F (pure a : Parser α) s :=
  ⟨.refl s, fun _ ↦ ⟨[], rfl, by simp, h⟩⟩

/-- What comes behind adds to what comes in front. -/
theorem Adds.bind {f : α → Parser β} {G : β → List Part → Prop} {H : α → β → List Part → Prop}
    (hp : Adds F p s) (hf : Adds (H (p s).1) (f (p s).1) (p s).2)
    (hG : ∀ a b gs gs', F a gs → H a b gs' → G b (gs ++ gs')) : Adds G (p >>= f) s := by
  refine ⟨hp.grows.trans hf.grows, fun herror ↦ ?_⟩
  obtain ⟨first, hfirst, hfirstAnswers, hF⟩ := hp.adds (hf.grows.error_eq_none herror)
  obtain ⟨second, hsecond, hsecondAnswers, hH⟩ := hf.adds herror
  refine ⟨first ++ second, ?_, ?_, ?_⟩
  · rw [bind_apply, hsecond, hfirst, List.reverse_append, List.append_assoc]
  · exact List.forall_mem_append.mpr ⟨hfirstAnswers, hsecondAnswers⟩
  · rw [groups_append]
    exact hG _ _ _ _ hF hH

/-- What comes in front adds tokens alone. -/
theorem Quiet.before {f : α → Parser β} {G : β → List Part → Prop} (hp : Quiet p)
    (hf : ∀ a t, Adds G (f a) t) : Adds G (p >>= f) s :=
  (hp s).bind (H := fun _ ↦ G) (hf _ _) fun _ _ _ _ hnil h ↦ by rwa [hnil]

/-- What comes behind adds tokens alone. -/
theorem Adds.then_quiet {f : α → Parser β} {G : List Part → Prop} (hp : Adds (fun _ ↦ G) p s)
    (hf : ∀ a, Quiet (f a)) : Adds (fun _ ↦ G) (p >>= f) s :=
  hp.bind (H := fun _ _ gs ↦ gs = []) (hf _ _) fun _ _ gs gs' hgs hnil ↦ by
    rwa [hnil, List.append_nil]

/-- A choice adds what the side adds that is chosen. -/
theorem adds_ite {c : Prop} [Decidable c] {q : Parser α} (hp : c → Adds F p s)
    (hq : ¬c → Adds F q s) : Adds F (if c then p else q) s := by
  split
  next hc => exact hp hc
  next hc => exact hq hc

/-- Where an error has been recorded nothing is asked of what is done then. -/
theorem Adds.unless_failed {q : Parser α} (hq : Grows q) (hp : Adds F p s) :
    Adds F (do if ← failed then q else p) s := by
  by_cases herror : s.error.isSome
  · refine Adds.congr (q := q) ?_ (adds_of_error (hq s) ?_)
    · rw [bind_apply, failed_apply, if_pos herror]
    · rw [(hq s).error herror]
      exact herror
  · refine Adds.congr ?_ hp
    rw [bind_apply, failed_apply, if_neg herror]

/-- A node that has all that is asked of it by what is added in it. -/
theorem adds_node (kind : NodeKind) (hgrows : s.GrowsTo (node kind p s).2)
    (h : Adds F p s.inside)
    (hanswers : ∀ children, (p s.inside).2.error = none → (p s.inside).2.built.reverse = children →
      F (p s.inside).1 (groups children) → Answers kind (ofTrees children)) :
    Adds (fun _ gs ↦ ∃ tree parts, gs = [assemble kind tree parts]) (node kind p) s := by
  refine ⟨hgrows, fun herror ↦ ?_⟩
  obtain ⟨children, hbuilt, hchildren, hF⟩ := h.adds herror
  have hreverse : (p s.inside).2.built.reverse = children := by
    rw [hbuilt, List.reverse_append, List.reverse_reverse]
    rfl
  refine ⟨s.pending.map .leaf ++ [.node kind children], ?_, ?_, ?_⟩
  · have hnode : (node kind p s).2.built =
        .node kind (p s.inside).2.built.reverse :: s.settle.built := rfl
    rw [hnode, hreverse, List.reverse_append, ← List.map_reverse]
    rfl
  · refine List.forall_mem_append.mpr ⟨?_, ?_⟩
    · rintro _ hmem
      obtain ⟨t, -, rfl⟩ := List.mem_map.mp hmem
      exact answering_leaf t
    · intro tree hmem
      rw [List.mem_singleton.mp hmem]
      exact answering_node (hanswers children herror hreverse hF) hchildren
  · rw [groups_append, groups_map_leaf, groups_node]
    exact ⟨_, _, rfl⟩

/-- A node adds what its kind makes of what is added in it. -/
theorem Adds.node (kind : NodeKind) (hframe : kind.isFrame = false)
    (hoperand : kind.isOperand = false) (h : Adds F p s.inside)
    (hanswers : ∀ a children, F a (groups children) → Answers kind (ofTrees children)) :
    Adds (fun _ gs ↦ ∃ tree parts, gs = [assemble kind tree parts]) (Parser.node kind p) s :=
  adds_node kind (growsTo_node hframe h.grows fun hkind ↦ absurd hkind (by simp [hoperand])) h
    fun children _ _ hF ↦ hanswers _ children hF

/-- What keeps variables adds the same. -/
theorem Adds.keepingVars (h : Adds F p s) : Adds F (keepingVars p) s := by
  refine Adds.congr (q := fun s ↦ ((p s).1, { (p s).2 with vars := s.vars }))
    (keepingVars_apply h.grows.vars) ⟨?_, h.adds⟩
  exact h.grows.reframe rfl rfl (List.suffix_refl _) h.grows.loops h.grows.depth

/-- So does what stands in a loop. -/
theorem Adds.inLoop (h : ∀ t, Adds F p t) : Adds F (inLoop p) s := by
  have hinner := h { s with loops := s.loops + 1 }
  exact Adds.congr (q := fun s ↦ ((p { s with loops := s.loops + 1 }).1,
      { (p { s with loops := s.loops + 1 }).2 with loops := s.loops }))
    (inLoop_apply hinner.grows.loops)
    ⟨hinner.grows.reframe rfl rfl hinner.grows.vars rfl hinner.grows.depth, hinner.adds⟩

/-- So does what stands in parentheses. -/
theorem Adds.inParens (h : ∀ t, Adds F p t) : Adds F (inParens p) s := by
  have hinner := h { s with depth := s.depth + 1 }
  exact Adds.congr (q := fun s ↦ ((p { s with depth := s.depth + 1 }).1,
      { (p { s with depth := s.depth + 1 }).2 with depth := s.depth }))
    (inParens_apply hinner.grows.depth)
    ⟨hinner.grows.reframe rfl rfl hinner.grows.vars hinner.grows.loops rfl, hinner.adds⟩

/-- So does what is isolated. -/
theorem Adds.isolated (h : ∀ t, Adds F p t) : Adds F (isolated p) s := by
  have hinner := h { s with vars := ["$"], loops := 0 }
  exact ⟨hinner.grows.reframe rfl rfl (List.suffix_refl _) rfl hinner.grows.depth, hinner.adds⟩

end Rules

/-- A failure may be said to add anything. -/
theorem adds_fail {F : Unit → List Part → Prop} (cause : Cause) (s : State) :
    Adds F (fail cause) s :=
  adds_of_error (grows_fail cause s) (isSome_error_fail cause s)

/-- So may what is unexpected. -/
theorem adds_unexpected {F : Unit → List Part → Prop} (context : Context) (s : State) :
    Adds F (unexpected context) s :=
  adds_of_error (grows_unexpected context s) (isSome_error_unexpected context s)

/-! ### Rounds -/

/-- A loop is a round with the further ones behind it. -/
theorem iterate_eq_bind (step : β → Parser (Bool × β)) (b : β) (s : State) :
    iterate step b s = (step b >>= fun r ↦
      if r.1 ∧ (step b s).2.rest.length < s.rest.length then iterate step r.2 else pure r.2) s := by
  rw [iterate_apply, bind_apply]
  split <;> rfl

section Rounds

variable {step : β → Parser (Bool × β)} (hstep : ∀ b t, Adds (fun _ _ ↦ True) (step b) t)

include hstep

/-- What a loop adds has all that is asked of it if that is so with each round. -/
theorem adds_iterate (b : β) (s : State) : Adds (fun _ _ ↦ True) (iterate step b) s := by
  induction hlength : s.rest.length using Nat.strongRecOn generalizing b s with
  | ind length ih =>
    refine Adds.congr (iterate_eq_bind step b s) ((hstep b s).bind (H := fun _ _ _ ↦ True)
      (adds_ite (fun hmore ↦ ?_) fun _ ↦ adds_pure trivial) fun _ _ _ _ _ _ ↦ trivial)
    exact ih _ (hlength ▸ hmore.2) _ _ rfl

/-- What the first round adds is added, whatever follows. -/
theorem Adds.iterate {P : List Part → Prop} {b : β} {s : State}
    (hfirst : Adds (fun _ ↦ P) (step b) s) (hP : ∀ gs gs', P gs → P (gs ++ gs')) :
    Adds (fun _ ↦ P) (iterate step b) s :=
  Adds.congr (iterate_eq_bind step b s) (hfirst.bind (H := fun _ _ _ ↦ True)
    (adds_ite (fun _ ↦ adds_iterate hstep _ _) fun _ ↦ adds_pure trivial)
    fun _ _ _ _ h _ ↦ hP _ _ h)

end Rounds

/-! ### Primitives -/

section Quiet

variable {p : Parser α}

/-- What puts tokens into the tree and grows adds tokens alone. -/
theorem quiet_of_grows (hp : Grows p)
    (h : ∀ s, ∃ ts : List Token, (p s).2.built = ts.map .leaf ++ s.built) : Quiet p := by
  refine fun s ↦ ⟨hp s, fun _ ↦ ?_⟩
  obtain ⟨ts, hts⟩ := h s
  refine ⟨ts.reverse.map .leaf, ?_, ?_, groups_map_leaf _⟩
  · rw [hts, ← List.map_reverse, List.reverse_reverse]
  · intro tree hmem
    obtain ⟨t, -, rfl⟩ := List.mem_map.mp hmem
    exact answering_leaf t

/-- Two parts that add tokens alone do so one after the other. -/
theorem Quiet.bind {f : α → Parser β} (hp : Quiet p) (hf : ∀ a, Quiet (f a)) : Quiet (p >>= f) :=
  fun _ ↦ hp.before hf

/-- A choice adds tokens alone if both of its sides do. -/
theorem quiet_ite {c : Prop} [Decidable c] {q : Parser α} (hp : Quiet p) (hq : Quiet q) :
    Quiet (if c then p else q) := fun s ↦ adds_ite (fun _ ↦ hp s) fun _ ↦ hq s

theorem quiet_pure (a : α) : Quiet (pure a : Parser α) := fun _ ↦ adds_pure rfl

end Quiet

theorem quiet_get : Quiet (get : Parser State) := quiet_of_grows grows_get fun _ ↦ ⟨[], rfl⟩

theorem quiet_current : Quiet current := quiet_of_grows grows_current fun _ ↦ ⟨[], rfl⟩

theorem quiet_currentText : Quiet currentText :=
  quiet_of_grows grows_currentText fun _ ↦ ⟨[], rfl⟩

theorem quiet_second : Quiet second := quiet_of_grows grows_second fun _ ↦ ⟨[], rfl⟩

theorem quiet_adjacent : Quiet adjacent := quiet_of_grows grows_adjacent fun _ ↦ ⟨[], rfl⟩

theorem quiet_failed : Quiet failed := quiet_of_grows grows_failed fun _ ↦ ⟨[], rfl⟩

theorem quiet_stopped : Quiet stopped := quiet_of_grows grows_stopped fun _ ↦ ⟨[], rfl⟩

theorem quiet_fail (cause : Cause) : Quiet (fail cause) := adds_fail cause

theorem quiet_unexpected (context : Context) : Quiet (unexpected context) := adds_unexpected context

/-- To take a token adds it alone. -/
theorem quiet_bump : Quiet bump := by
  refine quiet_of_grows grows_bump fun s ↦ ?_
  cases hrest : s.look.rest with
  | nil => exact ⟨[], by rw [bump_apply_of_nil hrest]; rfl⟩
  | cons token rest =>
    exact ⟨token :: s.look.pending.reverse, by rw [bump_apply_of_cons hrest]; rfl⟩

/-- To take all tokens of a kind adds them alone. -/
theorem quiet_takeAll (kind : TokenKind) : Quiet (takeAll kind) := by
  refine quiet_of_grows (grows_takeAll kind) fun s ↦
    ⟨(s.rest.takeWhile (·.kind = kind)).reverse ++ s.pending.reverse, ?_⟩
  rw [List.map_append, List.append_assoc]
  rfl

theorem quiet_eat (kind : TokenKind) : Quiet (eat kind) :=
  quiet_current.bind fun _ ↦ quiet_ite (quiet_bump.bind fun _ ↦ quiet_pure _) (quiet_pure _)

theorem quiet_expect (kind : TokenKind) (context : Context) : Quiet (expect kind context) :=
  (quiet_eat kind).bind fun _ ↦ quiet_ite (quiet_pure _)
    ((quiet_unexpected context).bind fun _ ↦ quiet_pure _)

end Parser

end AlertAudit.Template
