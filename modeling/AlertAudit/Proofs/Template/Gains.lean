import AlertAudit.Proofs.Template.Filtered
import AlertAudit.Proofs.Template.MovedBack
import AlertAudit.Proofs.Template.Piped

/-!
Templates with one more stage in one of their actions. The pieces of a template around the action
stay the same in front of it and move further behind it. Since no phrase of the grammar ends in an
action, they spell the outline with one more command, in which what comes behind the action has
moved (`Spelling.template_gains`).
-/

set_option autoImplicit false

namespace AlertAudit.Template

open AlertAudit.Text

/-! ### Outlines with one more command -/

/-- The command that calls a function without arguments. -/
def callOf (name : Token) : List Operand := [.mk (.function (some name)) name.span []]

section Gains

variable (P Q : Span → Prop) (m n : Nat) (name : Token)

mutual

/-- The item gets one more command in one of its actions. The stretches in front of it have the
property `P`. What comes behind it, the stretches of which have the property `Q` by themselves, is
moved by `n` bytes and not by `m`. -/
inductive ItemGains : Item → Item → Prop
  | action {span : Span} {cs : List (List Operand)} : (∀ s ∈ commandsStretches cs, P s) →
    ItemGains (.action span (some (.mk none cs)))
      (.action span (some (.mk none (cs ++ [callOf name]))))
  | list {kind : Control} {span : Span} {p : Option Pipeline} {is js : List Item} {o : Otherwise} :
    (∀ s ∈ pipelineStretches p, P s) → ItemsGain is js → (∀ s ∈ o.stretches, Q s) →
    ItemGains (.control kind span p (.items is) (o.moved m))
      (.control kind span p (.items js) (o.moved n))
  | nested {kind : Control} {span : Span} {p : Option Pipeline} {b : Body} {i j : Item} :
    (∀ s ∈ pipelineStretches p, P s) → (∀ s ∈ b.stretches, P s) → ItemGains i j →
    ItemGains (.control kind span p b (.nested i)) (.control kind span p b (.nested j))
  | otherwise {kind : Control} {span : Span} {p : Option Pipeline} {b : Body} {is js : List Item} :
    (∀ s ∈ pipelineStretches p, P s) → (∀ s ∈ b.stretches, P s) → ItemsGain is js →
    ItemGains (.control kind span p b (.body (.items is)))
      (.control kind span p b (.body (.items js)))
  | define {span : Span} {title : Option String} {is js : List Item} : ItemsGain is js →
    ItemGains (.define span title (.items is)) (.define span title (.items js))
  | block {span : Span} {title : Option String} {p : Option Pipeline} {is js : List Item} :
    (∀ s ∈ pipelineStretches p, P s) → ItemsGain is js →
    ItemGains (.block span title p (.items is)) (.block span title p (.items js))

/-- One of the items gets one more command. -/
inductive ItemsGain : List Item → List Item → Prop
  | here {i j : Item} {after : List Item} : ItemGains i j → (∀ s ∈ itemsStretches after, Q s) →
    ItemsGain (i :: itemsMoved m after) (j :: itemsMoved n after)
  | there {i : Item} {is js : List Item} : (∀ s ∈ i.stretches, P s) → ItemsGain is js →
    ItemsGain (i :: is) (i :: js)

end

end Gains

variable {P Q : Span → Prop} {m n : Nat} {name : Token}

/-- An item with one more command, alone in a list. -/
theorem ItemGains.singleton {i j : Item} (h : ItemGains P Q m n name i j) :
    ItemsGain P Q m n name [i] [j] := by
  have hone : ItemsGain P Q m n name (i :: itemsMoved m []) (j :: itemsMoved n []) :=
    .here h (List.forall_mem_nil _)
  rwa [itemsMoved, itemsMoved] at hone

/-- Items in front of the one with one more command. -/
theorem ItemsGain.behind {is js : List Item} (h : ItemsGain P Q m n name is js) :
    ∀ {before : List Item}, (∀ s ∈ itemsStretches before, P s) →
      ItemsGain P Q m n name (before ++ is) (before ++ js)
  | [], _ => h
  | i :: before, hbefore => by
    rw [itemsStretches, List.forall_mem_append] at hbefore
    exact .there hbefore.1 (h.behind hbefore.2)

/-- Items behind the one with one more command, which are moved. -/
theorem ItemsGain.before {is js after : List Item} (hafter : ∀ s ∈ itemsStretches after, Q s) :
    ItemsGain P Q m n name is js →
      ItemsGain P Q m n name (is ++ itemsMoved m after) (js ++ itemsMoved n after)
  | @ItemsGain.here _ _ _ _ _ i j between hi hbetween => by
    rw [List.cons_append, List.cons_append, ← itemsMoved_append, ← itemsMoved_append]
    refine .here hi ?_
    rw [itemsStretches_append, List.forall_mem_append]
    exact ⟨hbetween, hafter⟩
  | .there hi h => .there hi (h.before hafter)

/-! ### Pieces in parts -/

/-- No piece is a left delimiter with the start of an operand behind it, nor the last one. -/
def Barred : List Piece → Prop
  | [] => True
  | [p] => p.kind ≠ .leftDelim
  | p :: q :: ps => (p.kind = .leftDelim → q.kind.startsOperand = false) ∧ Barred (q :: ps)

theorem barred_nil : Barred [] := trivial

/-- The last piece is outside of an action or ends one. -/
def Apart (ps : List Piece) : Prop :=
  ∀ p ∈ ps.getLast?, p.kind ≠ .leftDelim ∧ p.kind.isInner = false

section Cuts

variable {left first right : Piece} {inner : List Piece}

/-- What starts with an operand behind a left delimiter does not start in barred pieces. -/
theorem Barred.skip (hleft : left.kind = .leftDelim) (hfirst : first.kind.startsOperand)
    {rest xs ys : List Piece} : ∀ {fr : List Piece}, Barred xs →
      xs ++ ys = fr ++ left :: first :: rest →
        ∃ fr', fr = xs ++ fr' ∧ ys = fr' ++ left :: first :: rest := by
  induction xs with
  | nil => exact fun {fr} _ h ↦ ⟨fr, rfl, h⟩
  | cons x xs ih =>
    intro fr hxs h
    cases fr with
    | nil =>
      obtain ⟨rfl, hrest⟩ := List.cons.inj h
      cases xs with
      | nil => exact absurd hleft hxs
      | cons y xs =>
        obtain ⟨rfl, -⟩ := List.cons.inj hrest
        rw [hxs.1 hleft] at hfirst
        cases hfirst
    | cons f fr =>
      obtain ⟨rfl, hrest⟩ := List.cons.inj h
      have htail : Barred xs := by
        cases xs with
        | nil => trivial
        | cons y xs => exact hxs.2
      obtain ⟨fr', rfl, hys⟩ := ih htail hrest
      exact ⟨fr', rfl, hys⟩

/-- An action is in one of two parts if the first part ends outside of it. -/
theorem Apart.split (hleft : left.kind = .leftDelim) (hinner : ∀ p ∈ inner, p.kind.isInner)
    {xs ys fr bk : List Piece} (hxs : Apart xs)
    (h : xs ++ ys = fr ++ (left :: inner ++ [right]) ++ bk) :
    (∃ fr', fr = xs ++ fr' ∧ ys = fr' ++ (left :: inner ++ [right]) ++ bk) ∨
      ∃ bk', xs = fr ++ (left :: inner ++ [right]) ++ bk' ∧ bk = bk' ++ ys := by
  rw [List.append_assoc] at h
  rcases List.append_eq_append_iff.mp h with ⟨u, rfl, hys⟩ | ⟨u, rfl, hrest⟩
  · exact .inl ⟨u, rfl, by rw [List.append_assoc]; exact hys⟩
  · rcases List.append_eq_append_iff.mp hrest with ⟨v, rfl, hbk⟩ | ⟨v, hu, rfl⟩
    · exact .inr ⟨v, (List.append_assoc _ _ _).symm, hbk⟩
    · by_cases hv : v = []
      · -- the first part ends with the action
        subst hv
        rw [List.append_nil] at hu
        exact .inr ⟨[], by rw [hu, List.append_nil], rfl⟩
      · by_cases hnil : u = []
        · subst hnil
          exact .inl ⟨[], by rw [List.append_nil, List.append_nil], by rw [hu]; rfl⟩
        · obtain ⟨w, r, rfl⟩ := (List.eq_nil_or_concat' v).resolve_left hv
          rw [← List.append_assoc] at hu
          obtain ⟨hfront, -⟩ := List.append_inj' hu rfl
          obtain ⟨front, last, rfl⟩ := (List.eq_nil_or_concat' u).resolve_left hnil
          have hmem : last ∈ left :: inner := by rw [hfront]; simp
          obtain ⟨hopens, hkind⟩ :=
            hxs last (by rw [← List.append_assoc, List.getLast?_concat]; rfl)
          rcases List.mem_cons.mp hmem with rfl | hmem
          · exact absurd hleft hopens
          · exact absurd (hinner last hmem) (by rw [hkind]; exact Bool.false_ne_true)

theorem EndsAction.apart {ps : List Piece} (h : EndsAction ps) : Apart ps := by
  obtain ⟨r, p, rfl, hp⟩ := h
  intro q hq
  rw [List.getLast?_concat] at hq
  obtain rfl := Option.some.inj hq
  exact hp ▸ ⟨nofun, rfl⟩

/-- Phrases that end outside of an action do so one after the other. -/
theorem Apart.append {ps qs : List Piece} (hps : Apart ps) (hqs : Apart qs) :
    Apart (ps ++ qs) := by
  intro p hp
  cases hlast : qs.getLast? with
  | none =>
    rw [List.getLast?_append, hlast, Option.none_or] at hp
    exact hps p hp
  | some q =>
    rw [List.getLast?_append, hlast, Option.some_or] at hp
    exact hqs p (hlast.trans hp)

end Cuts

/-- Pieces without a left delimiter are barred. -/
theorem barred_of_forall : ∀ {ps : List Piece}, (∀ p ∈ ps, p.kind ≠ .leftDelim) → Barred ps
  | [], _ => trivial
  | [_], h => h _ List.mem_cons_self
  | p :: q :: ps, h => by
    obtain ⟨hp, hrest⟩ := List.forall_mem_cons.mp h
    exact ⟨fun hkind ↦ absurd hkind hp, barred_of_forall hrest⟩

namespace Spelling

open AlertAudit.Template.Parser (OperandClass)
open Grammar (Atom Fields Opens Marks)

/-! ### Kinds of pieces -/

/-- An operand of one token is inside of an action. -/
theorem isInner_atom {vars : List String} {p : Piece} {c : OperandClass} (h : Atom vars p c) :
    p.kind.isInner := by
  cases h with
  | string hkind => rcases hkind with h | h <;> rw [h] <;> rfl
  | function hkind | inScope hkind | field hkind | dot hkind | nil hkind | bool hkind | char hkind
  | number hkind => rw [hkind]; rfl

theorem isInner_fields {before after : Bool} {fs : List Piece} (h : Fields before fs after) :
    ∀ p ∈ fs, p.kind.isInner := by
  induction h with
  | nil => exact List.forall_mem_nil _
  | cons hkind _ ih => exact List.forall_mem_cons.mpr ⟨by rw [hkind]; rfl, ih⟩

theorem isInner_declares {inRange : Bool} {next : Option TokenKind} {ps : List Piece}
    {decl : Option Decl} (h : Declares inRange next ps decl) : ∀ p ∈ ps, p.kind.isInner := by
  have hkind {p : Piece} {kind : TokenKind} (h : p.kind = kind) (hkind : kind.isInner) :
      p.kind.isInner := h ▸ hkind
  have hmark {p : Piece} (h : p.kind = .declare ∨ p.kind = .assign) : p.kind.isInner :=
    h.elim (hkind · rfl) (hkind · rfl)
  cases h with
  | none => exact List.forall_mem_nil _
  | one hv hm =>
    simp only [List.forall_mem_cons]
    exact ⟨hkind hv rfl, hmark hm, nofun⟩
  | two _ hv hcomma hw hm =>
    simp only [List.forall_mem_cons]
    exact ⟨hkind hv rfl, hkind hcomma rfl, hkind hw rfl, hmark hm, nofun⟩
  | index _ hv hcomma _ =>
    simp only [List.forall_mem_cons]
    exact ⟨hkind hv rfl, hkind hcomma rfl, nofun⟩

mutual

/-- The pieces of an operand are inside of an action. -/
theorem isInner_operand {depth : Nat} {ps : List Piece} {c : OperandClass} {spaced : Bool}
    {o : Template.Operand} : Operand depth ps c spaced o → ∀ p ∈ ps, p.kind.isInner
  | .atom hatom hfields _ => List.forall_mem_cons.mpr ⟨isInner_atom hatom, isInner_fields hfields⟩
  | .paren hleft hpipeline hright hfields => by
    rw [List.forall_mem_append, List.forall_mem_cons, List.forall_mem_cons, hleft, hright]
    exact ⟨⟨rfl, isInner_pipeline hpipeline⟩, rfl, isInner_fields hfields⟩

theorem isInner_command {depth : Nat} {ps : List Piece} {c : OperandClass}
    {os : List Template.Operand} : Command depth ps c os → ∀ p ∈ ps, p.kind.isInner
  | .last hoperand => isInner_operand hoperand
  | .more hoperand hcommand =>
    List.forall_mem_append.mpr ⟨isInner_operand hoperand, isInner_command hcommand⟩

theorem isInner_stages {depth : Nat} {ps : List Piece} {cs : List (List Template.Operand)} :
    Stages depth ps cs → ∀ p ∈ ps, p.kind.isInner
  | .nil => List.forall_mem_nil _
  | .bar hbar => List.forall_mem_singleton.mpr (by rw [hbar]; rfl)
  | .cons hbar hcommand hstages => by
    rw [List.forall_mem_append, List.forall_mem_cons, hbar]
    exact ⟨⟨rfl, isInner_command hcommand⟩, isInner_stages hstages⟩

/-- A pipeline stands inside of an action. -/
theorem isInner_pipeline {depth : Nat} {inRange : Bool} {ps : List Piece}
    {pl : Template.Pipeline} : Pipeline depth inRange ps pl → ∀ p ∈ ps, p.kind.isInner
  | .mk hdeclares hcommand _ hstages => by
    rw [List.forall_mem_append, List.forall_mem_append]
    exact ⟨⟨isInner_declares hdeclares, isInner_command hcommand⟩, isInner_stages hstages⟩

end

/-- No action starts inside of an action. -/
theorem ne_leftDelim_of_isInner {p : Piece} (h : p.kind.isInner) : p.kind ≠ .leftDelim := by
  intro hkind
  rw [hkind] at h
  cases h

/-! ### Barred phrases -/

/-- The word with which a block starts is no operand. -/
theorem barred_opens {word : Keyword} {start rest : List Piece} (h : Opens word start)
    (hword : word ≠ .nilWord) (hrest : ∀ p ∈ rest, p.kind ≠ .leftDelim) :
    Barred (start ++ rest) := by
  obtain ⟨left, w, rfl, -, hw⟩ := h
  have hkind : w.kind.startsOperand = false := by
    rw [hw]
    cases word <;> first | rfl | exact absurd rfl hword
  have hbehind : ∀ p ∈ w :: rest, p.kind ≠ .leftDelim :=
    List.forall_mem_cons.mpr ⟨by rw [hw]; exact nofun, hrest⟩
  exact ⟨fun _ ↦ hkind, barred_of_forall hbehind⟩

/-- An action that is a word is barred. -/
theorem barred_marks {word : Keyword} {ps : List Piece} (h : Marks word ps)
    (hword : word ≠ .nilWord) : Barred ps := by
  obtain ⟨left, w, right, rfl, hleft, hw, hright⟩ := h
  exact barred_opens ⟨left, w, rfl, hleft, hw⟩ hword
    (List.forall_mem_singleton.mpr (by rw [hright]; exact nofun))

/-- Pieces in an action and its right delimiter. -/
theorem barred_inner {ps : List Piece} {right : Piece} (hps : ∀ p ∈ ps, p.kind.isInner)
    (hright : right.kind = .rightDelim) : Barred (ps ++ [right]) := by
  refine barred_of_forall (List.forall_mem_append.mpr
    ⟨fun p hp ↦ ne_leftDelim_of_isInner (hps p hp), ?_⟩)
  exact List.forall_mem_singleton.mpr (by rw [hright]; exact nofun)

/-- An action with a word and a name, and with a pipeline behind them. -/
theorem barred_header {word : Keyword} {start ps : List Piece} {name right : Piece}
    (h : Opens word start) (hword : word ≠ .nilWord) (hnames : name.Names)
    (hps : ∀ p ∈ ps, p.kind.isInner) (hright : right.kind = .rightDelim) :
    Barred (start ++ (name :: ps ++ [right])) := by
  refine barred_opens h hword (List.forall_mem_append.mpr ⟨List.forall_mem_cons.mpr
    ⟨?_, fun p hp ↦ ne_leftDelim_of_isInner (hps p hp)⟩, ?_⟩)
  · intro hkind
    have hnames := hnames.1
    rw [hkind] at hnames
    cases hnames
  · exact List.forall_mem_singleton.mpr (by rw [hright]; exact nofun)

/-! ### Phrases that end outside of an action -/

/-- An item ends outside of an action. -/
theorem apart_item {inLoop : Bool} {ps : List Piece} {is : List Template.Item}
    (h : Item inLoop ps is) : Apart ps := by
  have hsingle {p : Piece} {kind : TokenKind} (hp : p.kind = kind) (hleft : kind ≠ .leftDelim)
      (hinner : kind.isInner = false) : Apart [p] := by
    intro q hq
    obtain rfl := Option.some.inj hq
    exact hp ▸ ⟨hleft, hinner⟩
  cases h with
  | text hkind => exact hsingle hkind nofun rfl
  | comment hkind => exact hsingle hkind nofun rfl
  | action _ _ hright => exact ((endsAction_singleton hright).behind _).apart
  | guarded _ hguarded => exact ((endsAction_guarded hguarded).behind _).apart
  | block _ _ _ _ _ hclose => exact ((endsAction_marks hclose).behind _).apart
  | call _ _ hright => exact (((endsAction_singleton hright).behind [_]).behind _).apart
  | callWith _ _ _ hright => exact ((endsAction_singleton hright).behind _).apart
  | breaks hmarks | continues hmarks => exact (endsAction_marks hmarks).apart

theorem apart_items {inLoop : Bool} {ps : List Piece} {is : List Template.Item}
    (h : Items inLoop ps is) : Apart ps := by
  induction h using Items.list_induction with
  | nil => exact nofun
  | cons hitem _ ih => exact (apart_item hitem).append ih

theorem apart_definition {ps : List Piece} {i : Template.Item} (h : Definition ps i) :
    Apart ps := by
  cases h with
  | mk _ _ _ _ hclose => exact ((endsAction_marks hclose).behind _).apart

end Spelling

/-! ### An action with one more stage -/

/-- The pieces of an action that starts with an operand, has no declaration and does not end with a
bar; and the pieces with which it gets one more stage. -/
structure PipedAction where
  left : Piece
  inner : List Piece
  right : Piece
  left_kind : left.kind = .leftDelim
  inner_kind : ∀ p ∈ inner, p.kind.isInner
  right_kind : right.kind = .rightDelim
  starts : ∃ p ∈ inner.head?, p.kind.startsOperand
  plain : ∀ p ∈ inner[1]?, p.kind ≠ .declare ∧ p.kind ≠ .assign
  ends : ∀ p ∈ inner.getLast?, p.kind ≠ .pipe
  left' : Piece
  bar : Piece
  name : Piece
  right' : Piece
  left'_kind : left'.kind = .leftDelim
  bar_kind : bar.kind = .pipe
  name_kind : name.kind = .identifier
  name_defined : Builtin.isDefined name.text
  right'_kind : right'.kind = .rightDelim

namespace PipedAction

variable (act : PipedAction)

def old : List Piece := act.left :: act.inner ++ [act.right]

def new : List Piece := act.left' :: (blankBehind act.inner ++ [act.bar, act.name]) ++ [act.right']

/-- The action starts with an operand. -/
theorem exists_first : ∃ first rest, act.inner = first :: rest ∧ first.kind.startsOperand := by
  obtain ⟨first, hfirst, hkind⟩ := act.starts
  obtain ⟨rest, hrest⟩ := List.head?_eq_some_iff.mp hfirst
  exact ⟨first, rest, hrest, hkind⟩

/-- The action is behind barred pieces. -/
theorem skip {xs ys fr bk : List Piece} (hxs : Barred xs) (h : xs ++ ys = fr ++ act.old ++ bk) :
    ∃ fr', fr = xs ++ fr' ∧ ys = fr' ++ act.old ++ bk := by
  obtain ⟨first, rest, hinner, hkind⟩ := act.exists_first
  have hold : act.old ++ bk = act.left :: first :: (rest ++ [act.right] ++ bk) := by
    rw [old, hinner, List.cons_append, List.cons_append, List.cons_append, List.cons_append]
  rw [List.append_assoc, hold] at h
  obtain ⟨fr', hfr, hys⟩ := hxs.skip act.left_kind hkind h
  exact ⟨fr', hfr, by rw [List.append_assoc, hold, hys]⟩

/-- The action is in one of two parts if the first one ends outside of an action. -/
theorem split {xs ys fr bk : List Piece} (hxs : Apart xs) (h : xs ++ ys = fr ++ act.old ++ bk) :
    (∃ fr', fr = xs ++ fr' ∧ ys = fr' ++ act.old ++ bk) ∨
      ∃ bk', xs = fr ++ act.old ++ bk' ∧ bk = bk' ++ ys :=
  hxs.split act.left_kind act.inner_kind h

/-- The action is not in barred pieces. -/
theorem not_barred {xs fr bk : List Piece} (hxs : Barred xs) : xs ≠ fr ++ act.old ++ bk := by
  intro h
  rw [← List.append_nil xs] at h
  obtain ⟨fr', -, hnil⟩ := act.skip hxs h
  rw [old] at hnil
  exact absurd hnil.symm (by simp)

/-- The pieces of an action are all of those between two delimiters. -/
theorem eq_of_inner {left right : Piece} {ps fr bk : List Piece} (hps : ∀ p ∈ ps, p.kind.isInner)
    (hright : right.kind = .rightDelim) (h : left :: ps ++ [right] = fr ++ act.old ++ bk) :
    fr = [] ∧ ps = act.inner ∧ bk = [] := by
  have hdelim {p : Piece} (hp : p.kind = .rightDelim) : p.kind.isInner = false := by rw [hp]; rfl
  cases fr with
  | nil =>
    rw [List.nil_append, old, List.cons_append, List.cons_append, List.cons_append,
      List.append_assoc] at h
    obtain ⟨rfl, -, hbk⟩ := Scan.append_cons_inj_of_forall hps act.inner_kind (hdelim hright)
      (hdelim act.right_kind) (List.cons.inj h).2
    exact ⟨rfl, rfl, hbk.symm⟩
  | cons f fr =>
    rw [List.cons_append, List.cons_append, List.cons_append] at h
    exact absurd (List.cons.inj h).2 (act.not_barred (Spelling.barred_inner hps hright))

end PipedAction

namespace Spelling

open Grammar (Opens Marks)

/-- The action with one more stage has one more command. -/
theorem item_piped (act : PipedAction) {inLoop : Bool} {pl : Template.Pipeline}
    (hheader : Header false act.inner pl) (hP : Between P act.inner) :
    ∃ i, Item inLoop act.new [i] ∧
      ItemGains P Q m n act.name.token (.action nowhere (some pl)) i := by
  obtain ⟨decl, cs⟩ := pl
  obtain rfl := hheader.decl_eq_none act.plain
  have hcall : Command Parser.maxDepth [act.name] .executable (callOf act.name.token) :=
    command_function act.name_kind act.name_defined
  have hpiped := hheader.piped act.ends act.bar_kind hcall
  exact ⟨_, .action act.left'_kind hpiped act.right'_kind, .action (stretches_pipeline hheader hP)⟩

/-! ### Templates with one more stage -/

section Gains

variable {act : PipedAction}

mutual

/-- An item that holds the action spells one with one more command. -/
theorem gains_item {inLoop : Bool} {ps fr bk : List Piece} {is : List Template.Item} :
    Item inLoop ps is → ps = fr ++ act.old ++ bk.map (·.moved m) →
      Between P (fr ++ act.inner) → Between Q bk →
        ∃ js, Item inLoop (fr ++ act.new ++ bk.map (·.moved n)) js ∧
          ItemsGain P Q m n act.name.token is js
  | .text hkind, hps, _, _ | .comment hkind, hps, _, _ => by
    have hbarred := barred_of_forall (List.forall_mem_singleton.mpr (by rw [hkind]; exact nofun))
    exact absurd hps (act.not_barred hbarred)
  | .action _ hheader hright, hps, hP, _ => by
    obtain ⟨rfl, rfl, hbk⟩ := act.eq_of_inner (isInner_pipeline hheader) hright hps
    obtain rfl := List.map_eq_nil_iff.mp hbk
    obtain ⟨i, hitem, hgains⟩ := item_piped act hheader hP
    exact ⟨[i], by simpa using hitem, hgains.singleton⟩
  | @Item.guarded _ kind _ _ _ hopens hguarded, hps, hP, hQ => by
    have hbarred := barred_opens hopens (by cases kind <;> exact nofun) (List.forall_mem_nil _)
    rw [List.append_nil] at hbarred
    obtain ⟨fr, rfl, hrest⟩ := act.skip hbarred hps
    rw [List.append_assoc] at hP
    obtain ⟨j, hspells, hgains⟩ := gains_guarded hguarded hrest hP.right hQ
    refine ⟨[j], ?_, hgains.singleton⟩
    simpa only [List.append_assoc] using Item.guarded hopens hspells
  | @Item.block _ start ps qs close name right _ _ hopens hnames hheader hright hitems hclose,
      hps, hP, hQ => by
    have hbarred := barred_header hopens nofun hnames (isInner_pipeline hheader) hright
    have hshape : start ++ name :: ps ++ right :: qs ++ close =
        (start ++ (name :: ps ++ [right])) ++ (qs ++ close) := by
      simp only [List.append_assoc, List.cons_append, List.nil_append]
    obtain ⟨fr, rfl, hrest⟩ := act.skip hbarred (hshape ▸ hps)
    rw [List.append_assoc] at hP
    rcases act.split (apart_items hitems) hrest with ⟨_, -, hclose'⟩ | ⟨_, hqs, hbk⟩
    · exact absurd hclose' (act.not_barred (barred_marks hclose nofun))
    · obtain ⟨bk, close, rfl, rfl, rfl⟩ := List.map_eq_append_iff.mp hbk
      obtain ⟨js, hspells, hgains⟩ := gains_items hitems hqs hP.right hQ.left
      have hblock := @Item.block inLoop _ _ _ _ _ _ _ _ hopens hnames hheader hright hspells
        (marks_moved (n := n) (marks_of_moved hclose))
      have hpl : ∀ s ∈ pipelineStretches (some _), P s :=
        stretches_pipeline hheader hP.left.right.tail.left
      refine ⟨_, ?_, (ItemGains.block hpl hgains).singleton⟩
      simpa only [List.append_assoc, List.map_append, List.cons_append, List.nil_append]
        using hblock
  | .call hopens hnames hright, hps, _, _ => by
    have hbarred := barred_header hopens nofun hnames (List.forall_mem_nil _) hright
    exact absurd hps (act.not_barred hbarred)
  | .callWith hopens hnames hheader hright, hps, _, _ => by
    have hbarred := barred_header hopens nofun hnames (isInner_pipeline hheader) hright
    rw [List.append_assoc] at hps
    exact absurd hps (act.not_barred hbarred)
  | .breaks hmarks, hps, _, _ | .continues hmarks, hps, _, _ =>
    absurd hps (act.not_barred (barred_marks hmarks nofun))

theorem gains_guarded {inLoop : Bool} {kind : Control} {ps fr bk : List Piece}
    {i : Template.Item} : Guarded inLoop kind ps i → ps = fr ++ act.old ++ bk.map (·.moved m) →
      Between P (fr ++ act.inner) → Between Q bk →
        ∃ j, Guarded inLoop kind (fr ++ act.new ++ bk.map (·.moved n)) j ∧
          ItemGains P Q m n act.name.token i j
  | @Guarded.mk _ _ right ps qs rs _ _ _ hheader hright hitems htail, hps, hP, hQ => by
    have hbarred := barred_inner (isInner_pipeline hheader) hright
    have hshape : ps ++ right :: qs ++ rs = (ps ++ [right]) ++ (qs ++ rs) := by
      simp only [List.append_assoc, List.cons_append, List.nil_append]
    obtain ⟨fr, rfl, hrest⟩ := act.skip hbarred (hshape ▸ hps)
    rw [List.append_assoc] at hP
    have hpl := stretches_pipeline hheader hP.left.left
    rcases act.split (apart_items hitems) hrest with ⟨fr, rfl, hrs⟩ | ⟨_, hqs, hbk⟩
    · have hbehind : Between P (fr ++ act.inner) := (List.append_assoc qs _ _ ▸ hP.right).right
      obtain ⟨o, hspells, hgains⟩ := gains_tail htail hrs hbehind hQ
      refine ⟨_, ?_, hgains hpl (stretches_items hitems hP.right.left.left)⟩
      simpa only [List.append_assoc, List.cons_append, List.nil_append]
        using Guarded.mk hheader hright hitems hspells
    · obtain ⟨bk, back, rfl, rfl, rfl⟩ := List.map_eq_append_iff.mp hbk
      obtain ⟨js, hspells, hgains⟩ := gains_items hitems hqs hP.right hQ.left
      obtain ⟨o, hback, rfl⟩ := htail.exists_moved rfl
      refine ⟨_, ?_, .list hpl hgains (stretches_tail hback hQ.right)⟩
      simpa only [List.append_assoc, List.map_append, List.cons_append, List.nil_append]
        using Guarded.mk hheader hright hspells (hback.moved (n := n))

theorem gains_tail {inLoop : Bool} {kind : Control} {ps fr bk : List Piece}
    {o : Template.Otherwise} : Tail inLoop kind ps o → ps = fr ++ act.old ++ bk.map (·.moved m) →
      Between P (fr ++ act.inner) → Between Q bk →
        ∃ o', Tail inLoop kind (fr ++ act.new ++ bk.map (·.moved n)) o' ∧
          ∀ {span : Span} {p : Option Template.Pipeline} {b : Body},
            (∀ s ∈ pipelineStretches p, P s) → (∀ s ∈ b.stretches, P s) →
              ItemGains P Q m n act.name.token (.control kind span p b o)
                (.control kind span p b o')
  | .close hmarks, hps, _, _ => absurd hps (act.not_barred (barred_marks hmarks nofun))
  | .otherwise hmarks hitems hclose, hps, hP, hQ => by
    rw [List.append_assoc] at hps
    obtain ⟨fr, rfl, hrest⟩ := act.skip (barred_marks hmarks nofun) hps
    rw [List.append_assoc] at hP
    rcases act.split (apart_items hitems) hrest with ⟨_, -, hclose'⟩ | ⟨_, hqs, hbk⟩
    · exact absurd hclose' (act.not_barred (barred_marks hclose nofun))
    · obtain ⟨bk, close, rfl, rfl, rfl⟩ := List.map_eq_append_iff.mp hbk
      obtain ⟨js, hspells, hgains⟩ := gains_items hitems hqs hP.right hQ.left
      refine ⟨_, ?_, fun hp hb ↦ .otherwise hp hb hgains⟩
      simpa only [List.append_assoc, List.map_append] using Tail.otherwise hmarks hspells
        (marks_moved (n := n) (marks_of_moved hclose))
  | @Tail.chained _ _ start ps w _ hkind hopens hw hguarded, hps, hP, hQ => by
    have hbarred := barred_opens hopens nofun
      (List.forall_mem_singleton.mpr (by rw [show w.kind = _ from hw]; exact nofun))
    have hshape : start ++ w :: ps = (start ++ [w]) ++ ps := by
      rw [List.append_assoc, List.singleton_append]
    obtain ⟨fr, rfl, hrest⟩ := act.skip hbarred (hshape ▸ hps)
    rw [List.append_assoc] at hP
    obtain ⟨j, hspells, hgains⟩ := gains_guarded hguarded hrest hP.right hQ
    refine ⟨_, ?_, fun hp hb ↦ .nested hp hb hgains⟩
    simpa only [List.append_assoc, List.cons_append, List.nil_append]
      using Tail.chained hkind hopens hw hspells

theorem gains_items {inLoop : Bool} {ps fr bk : List Piece} {is : List Template.Item} :
    Items inLoop ps is → ps = fr ++ act.old ++ bk.map (·.moved m) →
      Between P (fr ++ act.inner) → Between Q bk →
        ∃ js, Items inLoop (fr ++ act.new ++ bk.map (·.moved n)) js ∧
          ItemsGain P Q m n act.name.token is js
  | .nil, hps, _, _ => absurd hps (act.not_barred barred_nil)
  | .cons hitem hitems, hps, hP, hQ => by
    rcases act.split (apart_item hitem) hps with ⟨fr, rfl, hrest⟩ | ⟨_, hfirst, hbk⟩
    · rw [List.append_assoc] at hP
      obtain ⟨js, hspells, hgains⟩ := gains_items hitems hrest hP.right hQ
      refine ⟨_, ?_, hgains.behind (stretches_item hitem hP.left)⟩
      simpa only [List.append_assoc] using Items.cons hitem hspells
    · obtain ⟨bk, back, rfl, rfl, rfl⟩ := List.map_eq_append_iff.mp hbk
      obtain ⟨js, hspells, hgains⟩ := gains_item hitem hfirst hP hQ.left
      obtain ⟨after, hback, rfl⟩ := hitems.exists_moved rfl
      refine ⟨_, ?_, hgains.before (stretches_items hback hQ.right)⟩
      simpa only [List.append_assoc, List.map_append]
        using Items.cons hspells (hback.moved (n := n))

end

/-- A definition that holds the action spells one with one more command. -/
theorem gains_definition {ps fr bk : List Piece} {i : Template.Item} (h : Definition ps i)
    (hps : ps = fr ++ act.old ++ bk.map (·.moved m)) (hP : Between P (fr ++ act.inner))
    (hQ : Between Q bk) : ∃ j, Definition (fr ++ act.new ++ bk.map (·.moved n)) j ∧
      ItemGains P Q m n act.name.token i j := by
  cases h with
  | @mk start qs close name right _ hopens hnames hright hitems hclose =>
    have hbarred := barred_header hopens nofun hnames (List.forall_mem_nil _) hright
    have hshape : start ++ name :: right :: qs ++ close =
        (start ++ (name :: [] ++ [right])) ++ (qs ++ close) := by
      simp only [List.append_assoc, List.cons_append, List.nil_append]
    obtain ⟨fr, rfl, hrest⟩ := act.skip hbarred (hshape ▸ hps)
    rw [List.append_assoc] at hP
    rcases act.split (apart_items hitems) hrest with ⟨_, -, hclose'⟩ | ⟨_, hqs, hbk⟩
    · exact absurd hclose' (act.not_barred (barred_marks hclose nofun))
    · obtain ⟨bk, close, rfl, rfl, rfl⟩ := List.map_eq_append_iff.mp hbk
      obtain ⟨js, hspells, hgains⟩ := gains_items hitems hqs hP.right hQ.left
      refine ⟨_, ?_, .define hgains⟩
      simpa only [List.append_assoc, List.map_append, List.cons_append, List.nil_append]
        using Definition.mk hopens hnames hright hspells
          (marks_moved (n := n) (marks_of_moved hclose))

/-- With one more stage in an action of a template, its outline gets one more command there. -/
theorem template_gains {ps fr bk : List Piece} {is : List Template.Item} (h : Root ps is)
    (hps : ps = fr ++ act.old ++ bk.map (·.moved m)) (hP : Between P (fr ++ act.inner))
    (hQ : Between Q bk) : ∃ js, Root (fr ++ act.new ++ bk.map (·.moved n)) js ∧
      ItemsGain P Q m n act.name.token is js := by
  induction h generalizing fr bk with
  | nil => exact absurd hps (act.not_barred barred_nil)
  | definition hdefinition hrest ih =>
    rcases act.split (apart_definition hdefinition) hps with ⟨fr, rfl, hrest'⟩ | ⟨_, hfirst, hbk⟩
    · rw [List.append_assoc] at hP
      obtain ⟨js, hspells, hgains⟩ := ih hrest' hP.right hQ
      refine ⟨_, ?_, .there (stretches_definition hdefinition hP.left) hgains⟩
      simpa only [List.append_assoc] using Root.definition hdefinition hspells
    · obtain ⟨bk, back, rfl, rfl, rfl⟩ := List.map_eq_append_iff.mp hbk
      obtain ⟨j, hspells, hgains⟩ := gains_definition hdefinition hfirst hP hQ.left
      obtain ⟨after, hback, rfl⟩ := exists_moved_of_template hrest
      refine ⟨_, ?_, .here hgains (stretches_template hback hQ.right)⟩
      simpa only [List.append_assoc, List.map_append]
        using Root.definition hspells (template_moved (n := n) hback)
  | item hitem hrest ih =>
    rcases act.split (apart_item hitem) hps with ⟨fr, rfl, hrest'⟩ | ⟨_, hfirst, hbk⟩
    · rw [List.append_assoc] at hP
      obtain ⟨js, hspells, hgains⟩ := ih hrest' hP.right hQ
      refine ⟨_, ?_, hgains.behind (stretches_item hitem hP.left)⟩
      simpa only [List.append_assoc] using Root.item hitem hspells
    · obtain ⟨bk, back, rfl, rfl, rfl⟩ := List.map_eq_append_iff.mp hbk
      obtain ⟨js, hspells, hgains⟩ := gains_item hitem hfirst hP hQ.left
      obtain ⟨after, hback, rfl⟩ := exists_moved_of_template hrest
      refine ⟨_, ?_, hgains.before (stretches_template hback hQ.right)⟩
      simpa only [List.append_assoc, List.map_append]
        using Root.item hspells (template_moved (n := n) hback)

end Gains

end Spelling

end AlertAudit.Template
