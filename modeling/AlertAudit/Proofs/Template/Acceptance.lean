import AlertAudit.Proofs.Template.Legal
import AlertAudit.Proofs.Template.Lossless
import AlertAudit.Proofs.Template.Meaning.Items

/-!
The parser accepts the templates of the grammar and no others. The meaning of lists goes over to the
loop at the top, which ends only where no token is left, since white space is never the last token
of a template.
-/

set_option autoImplicit false

namespace AlertAudit.Template

namespace Parser

open Grammar

/-! ### The end of the input -/

/-- The last token ahead, if there is one, is no white space, and there are not too many. -/
structure State.Bounded (bound : Nat) (s : State) : Prop where
  short : Short bound s
  solid : ∀ last ∈ s.rest.getLast?, last.isTrivia = false

/-- Growth keeps the last token and takes no more than there were. -/
theorem State.Bounded.grows {bound : Nat} {s t : State} (h : s.Bounded bound)
    (hgrows : s.GrowsTo t) : t.Bounded bound := by
  refine ⟨Nat.le_trans hgrows.length_ahead_le h.short, fun last hlast ↦ h.solid last ?_⟩
  obtain ⟨taken, htaken⟩ := hgrows.rest
  rw [← htaken, List.getLast?_append, hlast, Option.some_or]
  rfl

/-- Only where there is no token at all is there none but white space. -/
theorem State.Bounded.rest_eq_nil {bound : Nat} {s : State} (h : s.Bounded bound)
    (hahead : s.place.ahead = []) : s.rest = [] := by
  by_contra hne
  obtain ⟨last, hlast⟩ := Option.ne_none_iff_exists'.mp (mt List.getLast?_eq_none_iff.mp hne)
  obtain ⟨p, hp, -⟩ := exists_mem_pieces (List.mem_of_getLast? hlast) (h.solid last hlast)
  have hnil : pieces s.rest = [] := hahead
  rw [hnil] at hp
  exact absurd hp List.not_mem_nil

/-- What runs until the end of the input. -/
theorem Means.until_stopped {α : Type} {bound : Nat} {p : Parser α} {a : α}
    {R : Place → α → Place → Prop}
    (h : Means State.place State.place (State.Bounded bound) p R) :
    Means State.place State.place (State.Bounded bound) (do if ← stopped then return a else p)
      fun v b w ↦ v.ahead = [] ∧ b = a ∧ w = v ∨ v.ahead ≠ [] ∧ R v b w := by
  refine ⟨grows_bind grows_stopped fun _ ↦ grows_ite (grows_pure a) h.grows, fun s hs hC b w ↦ ?_⟩
  rw [bind_apply, stopped_apply, hs, Option.isSome_none, Bool.false_or]
  by_cases hrest : s.rest = []
  · have hahead : s.place.ahead = [] := by rw [State.place, hrest]; rfl
    rw [if_pos (List.isEmpty_iff.mpr hrest), pure_apply]
    simp only [hs, hahead, true_and, ne_eq, not_true_eq_false, false_and, or_false, eq_comm]
  · have hahead : s.place.ahead ≠ [] := fun h ↦ hrest (hC.rest_eq_nil h)
    rw [if_neg (mt List.isEmpty_iff.mp hrest), h.run s hs hC b w]
    simp only [hahead, false_and, ne_eq, not_false_eq_true, true_and, false_or]

/-! ### The top of a template -/

/-- The definition of a template. -/
def DefineMeaning (v w : Place) : Prop :=
  ∃ ps, Definition ps ∧ v.ahead = ps ++ w.ahead ∧ w.vars = v.vars ∧ w.loops = v.loops

/-- The definition of a template is parsed as the rule says. -/
theorem defineSteps_iff {v w : Place} :
    v.word? = some (.keyword .defineWord) ∧ DefineSteps v w ↔ DefineMeaning v w := by
  constructor
  · rintro ⟨hword, name, r, hname, hnames, hclose, hbody⟩
    obtain ⟨ps, close, vars, hitems, hmarks, hps, hvars, hloops⟩ := bodyMeaning_iff.mp hbody
    obtain ⟨start, hopens, hstart⟩ := word?_eq_some_iff.mp hword
    obtain ⟨right, r', hr', hright⟩ := exists_cons_of_kind? hclose
    refine ⟨start ++ name :: right :: ps ++ close, .mk hopens hnames hright hitems hmarks, ?_,
      hvars, hloops⟩
    have hr : r = right :: r' := by rw [← hr', Place.tail, hname, List.tail_cons]
    have hps : r' = ps ++ (close ++ w.ahead) := by rw [← hps, Place.tail, hr', List.tail_cons]
    rw [hstart, hname, hr, hps]
    simp
  · obtain ⟨ahead, vars, loops⟩ := v
    obtain ⟨ahead', vars', loops'⟩ := w
    rintro ⟨_, ⟨hopens, hnames, hright, hitems, hmarks⟩, hahead, hvars, hloops⟩
    obtain rfl : ahead = _ ++ ahead' := hahead
    obtain rfl : vars' = vars := hvars
    obtain rfl : loops' = loops := hloops
    obtain ⟨left, x, rfl, hleft, hx⟩ := hopens
    refine ⟨word?_of_kind? (congrArg some hleft) (congrArg some hx), _, _, rfl, hnames,
      congrArg some hright, bodyMeaning_iff.mpr ⟨_, _, _, hitems, hmarks, ?_, rfl, rfl⟩⟩
    simp [Place.tail]

/-- One round at the top of a template. -/
def RootStep (v : Place) (a : Bool × Unit) (w : Place) : Prop :=
  v.ahead = [] ∧ a = (false, ()) ∧ w = v ∨
    v.ahead ≠ [] ∧ a = (true, ()) ∧ (DefineMeaning v w ∨ ItemMeaning v w)

section Bodies

variable {bodies : Bodies} {bound : Nat} (hbodies : bodies.Mean bound)

include hbodies in
/-- An item at the top is the definition of a template, or an item with no end or else action in
front. -/
theorem means_rootItem (word : Option TokenKind) :
    Means State.place State.place (State.Bounded bound) (rootItem bodies word) fun v a w ↦
      a = (true, ()) ∧ (word = some (.keyword .defineWord) ∧ DefineSteps v w ∨
        word ≠ some (.keyword .defineWord) ∧ word ≠ some (.keyword .endWord) ∧
          word ≠ some (.keyword .elseWord) ∧ ItemMeaning v w) := by
  unfold rootItem
  split
  · have hdefine := (means_define hbodies).mono (D := State.Bounded bound) fun s hs ↦ hs.short
    exact (hdefine.returning _).congr fun v a w ↦ by simp
  · exact means_of_impossible (grows_bind grows_endAction fun _ ↦ grows_bind (grows_fail _)
      fun _ ↦ grows_pure _) (fun s ↦ isSome_error_fail _ _) fun _ _ _ _ ↦ by simp
  · exact means_of_impossible (grows_bind grows_strayElse fun _ ↦ grows_bind (grows_fail _)
      fun _ ↦ grows_pure _) (fun s ↦ isSome_error_fail _ _) fun _ _ _ _ ↦ by simp
  next hdefine hend helse =>
    have hdefine : word ≠ some (.keyword .defineWord) := hdefine
    have hend : word ≠ some (.keyword .endWord) := hend
    have helse : word ≠ some (.keyword .elseWord) := helse
    have hitem := (means_item hbodies).mono (D := State.Bounded bound)
      fun s hs ↦ hs.short.mono (Nat.le_succ bound)
    exact (hitem.returning _).congr fun v a w ↦ by simp [hdefine, hend, helse]

include hbodies in
/-- A round at the top takes such an item, or ends with the input. -/
theorem means_rootStep :
    Means State.place State.place (State.Bounded bound) (rootStep bodies) RootStep := by
  have hround := means_actionWord.bind_on (C := State.Bounded bound)
    (means_rootItem hbodies) fun s hs _ hgrows ↦ hs.grows hgrows
  refine hround.until_stopped.congr fun v a w ↦ ?_
  refine or_congr_right (and_congr_right fun hahead ↦ ?_)
  constructor
  · rintro ⟨word, u, ⟨rfl, rfl⟩, ha, ⟨hword, hsteps⟩ | ⟨-, -, -, hitem⟩⟩
    · exact ⟨ha, .inl (defineSteps_iff.mp ⟨hword, hsteps⟩)⟩
    · exact ⟨ha, .inr hitem⟩
  · rintro ⟨ha, hdefine | hitem⟩
    · exact ⟨v.word?, v, ⟨rfl, rfl⟩, ha, .inl (defineSteps_iff.mpr hdefine)⟩
    · obtain ⟨hend, helse, hdefine⟩ := hitem.word?_ne
      exact ⟨v.word?, v, ⟨rfl, rfl⟩, ha, .inr ⟨hdefine, hend, helse, hitem⟩⟩

/-- A definition takes a piece. -/
theorem DefineMeaning.length_lt {v w : Place} (h : DefineMeaning v w) :
    w.ahead.length < v.ahead.length := by
  obtain ⟨_, ⟨-, -, -, -, -⟩, hahead, -⟩ := h
  rw [hahead]
  simp
  omega

/-- A round that goes on takes a piece. -/
theorem RootStep.length_lt {v w : Place} {b : Unit} (h : RootStep v (true, b) w) :
    w.ahead.length < v.ahead.length := by
  rcases h with ⟨-, h, -⟩ | ⟨-, -, hdefine | hitem⟩
  · exact absurd (congrArg Prod.fst h).symm Bool.false_ne_true
  · exact hdefine.length_lt
  · exact hitem.length_lt

include hbodies in
/-- The loop at the top means its rounds. -/
theorem means_rootLoop :
    Means State.place State.place (State.Bounded bound)
      (iterate (fun _ ↦ rootStep bodies) ()) (Rounds (fun _ ↦ RootStep) ()) :=
  Means.iterate (fun _ ↦ means_rootStep hbodies) (fun _ _ hgrows hs ↦ hs.grows hgrows)
    (fun _ s _ _ h ↦ takes_of_ahead ((means_rootStep hbodies).grows s) h.length_lt) ()

end Bodies

/-- The rounds at the top of a template follow the rules for templates. -/
theorem template_of_rounds {a b : Unit} {v w : Place} (hloops : v.loops = 0)
    (h : Rounds (fun _ ↦ RootStep) a v b w) : Root v.vars v.ahead := by
  induction h with
  | last hstep =>
    rcases hstep with ⟨hahead, -⟩ | ⟨-, h, -⟩
    · rw [hahead]
      exact .nil
    · exact absurd (congrArg Prod.fst h) Bool.false_ne_true
  | more hstep _ ih =>
    rcases hstep with ⟨-, h, -⟩ | ⟨-, -, ⟨ps, hdefinition, hahead, hvars, hloops'⟩ |
      ⟨ps, hitem, hahead, hloops'⟩⟩
    · exact absurd (congrArg Prod.fst h).symm Bool.false_ne_true
    · have hrest := ih (hloops'.trans hloops)
      rw [hvars] at hrest
      rw [hahead]
      exact .definition hdefinition hrest
    · have hrest := ih (hloops'.trans hloops)
      rw [hloops] at hitem
      rw [hahead]
      exact .item hitem hrest

/-- A template of the grammar is taken round by round. -/
theorem rounds_of_template {vars : List String} {ps : List Piece} (h : Root vars ps) :
    ∃ w, Rounds (fun _ ↦ RootStep) () ⟨ps, vars, 0⟩ () w := by
  have hmore : ∀ {u v w : Place}, DefineMeaning v u ∨ ItemMeaning v u →
      Rounds (fun _ ↦ RootStep) () u () w → Rounds (fun _ ↦ RootStep) () v () w := by
    intro u v w hround hrest
    have hlength : u.ahead.length < v.ahead.length :=
      hround.elim (fun h ↦ h.length_lt) fun h ↦ h.length_lt
    exact .more (.inr ⟨List.ne_nil_of_length_pos (Nat.zero_lt_of_lt hlength), rfl, hround⟩) hrest
  induction h with
  | nil => exact ⟨_, .last (.inl ⟨rfl, rfl, rfl⟩)⟩
  | @definition vars ps qs hdefinition _ ih =>
    obtain ⟨w, hrest⟩ := ih
    have hmeaning : DefineMeaning ⟨ps ++ qs, vars, 0⟩ ⟨qs, vars, 0⟩ :=
      ⟨ps, hdefinition, rfl, rfl, rfl⟩
    exact ⟨w, hmore (.inl hmeaning) hrest⟩
  | @item vars vars' ps qs hitem _ ih =>
    obtain ⟨w, hrest⟩ := ih
    have hmeaning : ItemMeaning ⟨ps ++ qs, vars, 0⟩ ⟨qs, vars', 0⟩ := ⟨ps, hitem, rfl, rfl⟩
    exact ⟨w, hmore (.inr hmeaning) hrest⟩

/-! ### Whole templates -/

/-- To take what is left records no error. -/
theorem error_takeRest (s : State) : (takeRest s).2.error = s.error := by
  by_cases hrest : s.look.rest = []
  · rw [takeRest_apply_of_nil hrest]
    rfl
  · rw [takeRest_apply_of_ne_nil hrest]
    rfl

/-- The error of a template is that of its items. -/
theorem error_final (text : String) :
    (State.final text).error = (State.afterItems text).error := by
  rw [final_eq]
  exact error_takeRest _

/-- There are no more pieces than tokens. -/
theorem length_pieces_le (ts : List Token) : (pieces ts).length ≤ ts.length := by
  induction ts with
  | nil => exact Nat.le_refl _
  | cons t ts ih =>
    rw [pieces]
    split
    · exact Nat.le_succ_of_le ih
    · exact Nat.succ_le_succ ih

/-- At the start there are no more tokens than the bound. -/
theorem bounded_start (text : String) :
    (State.start text).Bounded ((Tokens.ofText text).tokens.length + 1) :=
  ⟨Nat.le_succ_of_le (length_pieces_le _), isTrivia_getLast?_tokens text⟩

/-- The parser ends without an error exactly if the pieces are a template of the grammar. -/
theorem error_final_eq_none_iff (text : String) : (State.final text).error = none ↔
    Root prelude (pieces (Tokens.ofText text).tokens) := by
  have hloop := means_rootLoop (mean_bodiesTo ((Tokens.ofText text).tokens.length + 1))
  have hrun := hloop.run (State.start text) rfl (bounded_start text) ()
  rw [error_final]
  constructor
  · intro h
    exact template_of_rounds rfl ((hrun _).mp ⟨h, rfl, rfl⟩)
  · intro h
    obtain ⟨w, hrounds⟩ := rounds_of_template h
    exact ((hrun w).mpr hrounds).1

end Parser

/-- A template is accepted exactly if it can be read to its end and its tokens other than white
space follow the rules of the grammar, with the variables of alert templates in scope. -/
theorem error_ofText_eq_none_iff (text : String) : (Parse.ofText text).error = none ↔
    (Tokens.ofText text).error = none ∧
      Grammar.Root prelude (pieces (Tokens.ofText text).tokens) := by
  rw [Parse.ofText_eq]
  constructor
  · intro h
    have hrule := (Parser.error_final_eq_none_iff text).mp h
    exact ⟨error_eq_none_of_legal (Grammar.legal_of_template hrule), hrule⟩
  · rintro ⟨-, hrule⟩
    exact (Parser.error_final_eq_none_iff text).mpr hrule

end AlertAudit.Template
