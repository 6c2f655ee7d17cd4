import AlertAudit.Proofs.Template.Contexts

/-!
Phrases of a template that stand further on in a text. The rules of the grammar do not ask where a
piece stands, so pieces that are moved spell a moved outline only (`Spelling.Tail.exists_moved`),
and around a block they spell a moved context (`Spelling.InTemplate.exists_moved`).
-/

set_option autoImplicit false

namespace AlertAudit.Template.Spelling

open AlertAudit.Template.Parser (OperandClass)
open Grammar (Atom Fields Opens Marks)

variable {n : Nat}

/-- An operand of one token that has been moved was one before. -/
theorem atom_of_moved {vars : List String} {p : Piece} {c : OperandClass}
    (h : Atom vars (p.moved n) c) : Atom vars p c := by
  cases h with
  | function hkind hdefined => exact .function hkind hdefined
  | inScope hkind hmem => exact .inScope hkind hmem
  | field hkind => exact .field hkind
  | dot hkind => exact .dot hkind
  | nil hkind => exact .nil hkind
  | bool hkind => exact .bool hkind
  | char hkind hconstant => exact .char hkind hconstant
  | number hkind => exact .number hkind
  | string hkind hquoted => exact .string hkind hquoted

/-- Fields that have been moved were attached before. -/
theorem fields_of_moved {before after : Bool} {ps : List Piece}
    (h : Fields before (ps.map (·.moved n)) after) : Fields before ps after := by
  generalize hqs : ps.map (·.moved n) = qs at h
  induction h generalizing ps with
  | nil =>
    obtain rfl := List.map_eq_nil_iff.mp hqs
    exact .nil
  | cons hkind _ ih =>
    obtain ⟨f, fs, rfl, rfl, hfs⟩ := List.map_eq_cons_iff.mp hqs
    exact .cons hkind (ih hfs)

/-- The word of an action was one before. -/
theorem opens_of_moved {word : Keyword} {ps : List Piece} (h : Opens word (ps.map (·.moved n))) :
    Opens word ps := by
  obtain ⟨left, w, hps, hleft, hw⟩ := h
  obtain ⟨left, rest, rfl, rfl, hrest⟩ := List.map_eq_cons_iff.mp hps
  obtain ⟨w, rfl, rfl⟩ := List.map_eq_singleton_iff.mp hrest
  exact ⟨left, w, rfl, hleft, hw⟩

/-- So was the word of an end or else action. -/
theorem marks_of_moved {word : Keyword} {ps : List Piece} (h : Marks word (ps.map (·.moved n))) :
    Marks word ps := by
  obtain ⟨left, w, right, hps, hleft, hw, hright⟩ := h
  obtain ⟨left, rest, rfl, rfl, hrest⟩ := List.map_eq_cons_iff.mp hps
  obtain ⟨w, last, rfl, rfl, hlast⟩ := List.map_eq_cons_iff.mp hrest
  obtain ⟨right, rfl, rfl⟩ := List.map_eq_singleton_iff.mp hlast
  exact ⟨left, w, right, rfl, hleft, hw, hright⟩

/-- Moved pieces spell a moved declaration only. -/
theorem Declares.exists_moved {inRange : Bool} {next : Option TokenKind} {ps : List Piece}
    {decl : Option Decl} (h : Declares inRange next (ps.map (·.moved n)) decl) :
    ∃ decl₀, Declares inRange next ps decl₀ ∧ decl = decl₀.map (·.moved n) := by
  generalize hqs : ps.map (·.moved n) = qs at h
  cases h with
  | none =>
    obtain rfl := List.map_eq_nil_iff.mp hqs
    exact ⟨_, .none, rfl⟩
  | one hv hmark =>
    obtain ⟨v, rest, rfl, rfl, hrest⟩ := List.map_eq_cons_iff.mp hqs
    obtain ⟨mark, rfl, rfl⟩ := List.map_eq_singleton_iff.mp hrest
    exact ⟨_, .one hv hmark, rfl⟩
  | two hrange hv hcomma hw hmark =>
    obtain ⟨v, rest, rfl, rfl, hrest⟩ := List.map_eq_cons_iff.mp hqs
    obtain ⟨comma, rest', rfl, rfl, hrest'⟩ := List.map_eq_cons_iff.mp hrest
    obtain ⟨w, last, rfl, rfl, hlast⟩ := List.map_eq_cons_iff.mp hrest'
    obtain ⟨mark, rfl, rfl⟩ := List.map_eq_singleton_iff.mp hlast
    exact ⟨_, .two hrange hv hcomma hw hmark, rfl⟩
  | index hrange hv hcomma hnext =>
    obtain ⟨v, rest, rfl, rfl, hrest⟩ := List.map_eq_cons_iff.mp hqs
    obtain ⟨comma, rfl, rfl⟩ := List.map_eq_singleton_iff.mp hrest
    exact ⟨_, .index hrange hv hcomma hnext, rfl⟩

mutual

/-- Moved pieces spell a moved operand only. -/
theorem Operand.exists_moved {n depth : Nat} {ps qs : List Piece} {c : OperandClass} {spaced : Bool}
    {o : Template.Operand} : Operand depth qs c spaced o → ps.map (·.moved n) = qs →
      ∃ o₀, Operand depth ps c spaced o₀ ∧ o = o₀.moved n
  | .atom hatom hfields hclass, hqs => by
    obtain ⟨p, fs, rfl, rfl, rfl⟩ := List.map_eq_cons_iff.mp hqs
    refine ⟨_, .atom (atom_of_moved hatom) (fields_of_moved hfields)
      fun hne ↦ hclass (mt List.map_eq_nil_iff.mp hne), ?_⟩
    rw [Template.Operand.moved, ← termOf_moved, ← extentOf_moved n (List.cons_ne_nil p fs),
      ← fieldsOf_moved]
    rfl
  | .paren hleft hpipeline hright hfields, hqs => by
    obtain ⟨front, rest, rfl, hfront, hrest⟩ := List.map_eq_append_iff.mp hqs
    obtain ⟨left, ps, rfl, rfl, hps⟩ := List.map_eq_cons_iff.mp hfront
    obtain ⟨right, fs, rfl, rfl, rfl⟩ := List.map_eq_cons_iff.mp hrest
    obtain ⟨pl, hspells, rfl⟩ := Pipeline.exists_moved hpipeline hps
    refine ⟨_, .paren hleft hspells hright (fields_of_moved hfields), ?_⟩
    rw [Template.Operand.moved, Term.moved, ← fieldsOf_moved, ← hqs, List.cons_append,
      extentOf_moved n (List.cons_ne_nil left (ps ++ right :: fs))]

/-- So they do with a command. -/
theorem Command.exists_moved {n depth : Nat} {ps qs : List Piece} {c : OperandClass}
    {os : List Template.Operand} : Command depth qs c os → ps.map (·.moved n) = qs →
      ∃ os₀, Command depth ps c os₀ ∧ os = operandsMoved n os₀
  | .last hoperand, hqs => by
    obtain ⟨o, hspells, rfl⟩ := Operand.exists_moved hoperand hqs
    exact ⟨[o], .last hspells, by rw [operandsMoved, operandsMoved]⟩
  | .more hoperand hcommand, hqs => by
    obtain ⟨front, rest, rfl, hfront, hrest⟩ := List.map_eq_append_iff.mp hqs
    obtain ⟨o, hspells, rfl⟩ := Operand.exists_moved hoperand hfront
    obtain ⟨os, hspells', rfl⟩ := Command.exists_moved hcommand hrest
    exact ⟨o :: os, .more hspells hspells', by rw [operandsMoved]⟩

theorem Stages.exists_moved {n depth : Nat} {ps qs : List Piece}
    {cs : List (List Template.Operand)} : Stages depth qs cs → ps.map (·.moved n) = qs →
      ∃ cs₀, Stages depth ps cs₀ ∧ cs = commandsMoved n cs₀
  | .nil, hqs => by
    obtain rfl := List.map_eq_nil_iff.mp hqs
    exact ⟨[], .nil, by rw [commandsMoved]⟩
  | .bar hbar, hqs => by
    obtain ⟨bar, rfl, rfl⟩ := List.map_eq_singleton_iff.mp hqs
    exact ⟨[], .bar hbar, by rw [commandsMoved]⟩
  | .cons hbar hcommand hstages, hqs => by
    obtain ⟨front, rest, rfl, hfront, hrest⟩ := List.map_eq_append_iff.mp hqs
    obtain ⟨bar, ps, rfl, rfl, hps⟩ := List.map_eq_cons_iff.mp hfront
    obtain ⟨os, hspells, rfl⟩ := Command.exists_moved hcommand hps
    obtain ⟨cs, hspells', rfl⟩ := Stages.exists_moved hstages hrest
    exact ⟨os :: cs, .cons hbar hspells hspells', by rw [commandsMoved]⟩

/-- So they do with a pipeline. -/
theorem Pipeline.exists_moved {n depth : Nat} {inRange : Bool} {ps qs : List Piece}
    {pl : Template.Pipeline} : Pipeline depth inRange qs pl → ps.map (·.moved n) = qs →
      ∃ pl₀, Pipeline depth inRange ps pl₀ ∧ pl = pl₀.moved n
  | .mk hdeclares hcommand hnil hstages, hqs => by
    obtain ⟨front, rest, rfl, hfront, hrest⟩ := List.map_eq_append_iff.mp hqs
    obtain ⟨ds, ps, rfl, rfl, rfl⟩ := List.map_eq_append_iff.mp hfront
    have hnext : (ps.map (·.moved n)).head?.map Piece.kind = ps.head?.map Piece.kind := by
      cases ps <;> rfl
    obtain ⟨decl, hdecl, rfl⟩ := (hnext ▸ hdeclares).exists_moved
    obtain ⟨os, hspells, rfl⟩ := Command.exists_moved hcommand rfl
    obtain ⟨cs, hspells', rfl⟩ := Stages.exists_moved hstages hrest
    exact ⟨.mk decl (os :: cs), .mk hdecl hspells hnil hspells',
      by rw [Template.Pipeline.moved, commandsMoved]⟩

end

mutual

/-- Moved pieces spell a moved item only. -/
theorem Item.exists_moved {n : Nat} {inLoop : Bool} {ps qs : List Piece}
    {is : List Template.Item} : Item inLoop qs is → ps.map (·.moved n) = qs →
      ∃ is₀, Item inLoop ps is₀ ∧ is = itemsMoved n is₀
  | .text hkind, hqs => by
    obtain ⟨p, rfl, rfl⟩ := List.map_eq_singleton_iff.mp hqs
    exact ⟨[], .text hkind, by rw [itemsMoved]⟩
  | .comment hkind, hqs => by
    obtain ⟨p, rfl, rfl⟩ := List.map_eq_singleton_iff.mp hqs
    exact ⟨[], .comment hkind, by rw [itemsMoved]⟩
  | .action hleft hheader hright, hqs => by
    obtain ⟨front, close, rfl, hfront, hclose⟩ := List.map_eq_append_iff.mp hqs
    obtain ⟨left, ps, rfl, rfl, hps⟩ := List.map_eq_cons_iff.mp hfront
    obtain ⟨right, rfl, rfl⟩ := List.map_eq_singleton_iff.mp hclose
    obtain ⟨pl, hspells, rfl⟩ := Pipeline.exists_moved hheader hps
    exact ⟨_, .action hleft hspells hright, by
      rw [itemsMoved, itemsMoved, Template.Item.moved, Option.map_some]⟩
  | .guarded hopens hguarded, hqs => by
    obtain ⟨start, ps, rfl, rfl, hps⟩ := List.map_eq_append_iff.mp hqs
    obtain ⟨i, hspells, rfl⟩ := Guarded.exists_moved hguarded hps
    exact ⟨_, .guarded (opens_of_moved hopens) hspells, by rw [itemsMoved, itemsMoved]⟩
  | .block hopens hnames hheader hright hitems hmarks, hqs => by
    obtain ⟨front, close, rfl, hfront, rfl⟩ := List.map_eq_append_iff.mp hqs
    obtain ⟨front', list, rfl, hfront', hlist⟩ := List.map_eq_append_iff.mp hfront
    obtain ⟨right, qs, rfl, rfl, hqs'⟩ := List.map_eq_cons_iff.mp hlist
    obtain ⟨start, named, rfl, rfl, hnamed⟩ := List.map_eq_append_iff.mp hfront'
    obtain ⟨name, ps, rfl, rfl, hps⟩ := List.map_eq_cons_iff.mp hnamed
    obtain ⟨pl, hspells, rfl⟩ := Pipeline.exists_moved hheader hps
    obtain ⟨is, hspells', rfl⟩ := Items.exists_moved hitems hqs'
    refine ⟨_, .block (opens_of_moved hopens) hnames hspells hright hspells'
      (marks_of_moved hmarks), ?_⟩
    rw [itemsMoved, itemsMoved, Template.Item.moved, Option.map_some, Body.moved]
    rfl
  | .call hopens hnames hright, hqs => by
    obtain ⟨start, named, rfl, rfl, hnamed⟩ := List.map_eq_append_iff.mp hqs
    obtain ⟨name, close, rfl, rfl, hclose⟩ := List.map_eq_cons_iff.mp hnamed
    obtain ⟨right, rfl, rfl⟩ := List.map_eq_singleton_iff.mp hclose
    refine ⟨_, .call (opens_of_moved hopens) hnames hright, ?_⟩
    rw [itemsMoved, itemsMoved, Template.Item.moved, Option.map_none]
    rfl
  | .callWith hopens hnames hheader hright, hqs => by
    obtain ⟨front, close, rfl, hfront, hclose⟩ := List.map_eq_append_iff.mp hqs
    obtain ⟨right, rfl, rfl⟩ := List.map_eq_singleton_iff.mp hclose
    obtain ⟨start, named, rfl, rfl, hnamed⟩ := List.map_eq_append_iff.mp hfront
    obtain ⟨name, ps, rfl, rfl, hps⟩ := List.map_eq_cons_iff.mp hnamed
    obtain ⟨pl, hspells, rfl⟩ := Pipeline.exists_moved hheader hps
    refine ⟨_, .callWith (opens_of_moved hopens) hnames hspells hright, ?_⟩
    rw [itemsMoved, itemsMoved, Template.Item.moved, Option.map_some]
    rfl
  | .breaks hmarks, hqs => by
    subst hqs
    exact ⟨[], .breaks (marks_of_moved hmarks), by rw [itemsMoved]⟩
  | .continues hmarks, hqs => by
    subst hqs
    exact ⟨[], .continues (marks_of_moved hmarks), by rw [itemsMoved]⟩

/-- So they do with what follows the word of a block. -/
theorem Guarded.exists_moved {n : Nat} {inLoop : Bool} {kind : Control} {ps qs : List Piece}
    {i : Template.Item} : Guarded inLoop kind qs i → ps.map (·.moved n) = qs →
      ∃ i₀, Guarded inLoop kind ps i₀ ∧ i = i₀.moved n
  | .mk hheader hright hitems htail, hqs => by
    obtain ⟨front, rs, rfl, hfront, hrs⟩ := List.map_eq_append_iff.mp hqs
    obtain ⟨ps, list, rfl, hps, hlist⟩ := List.map_eq_append_iff.mp hfront
    obtain ⟨right, qs, rfl, rfl, hqs'⟩ := List.map_eq_cons_iff.mp hlist
    obtain ⟨pl, hspells, rfl⟩ := Pipeline.exists_moved hheader hps
    obtain ⟨is, hspells', rfl⟩ := Items.exists_moved hitems hqs'
    obtain ⟨o, hspells'', rfl⟩ := Tail.exists_moved htail hrs
    exact ⟨_, .mk hspells hright hspells' hspells'', by
      rw [Template.Item.moved, Option.map_some, Body.moved]⟩

/-- So they do with what follows its list. -/
theorem Tail.exists_moved {n : Nat} {inLoop : Bool} {kind : Control} {ps qs : List Piece}
    {o : Template.Otherwise} : Tail inLoop kind qs o → ps.map (·.moved n) = qs →
      ∃ o₀, Tail inLoop kind ps o₀ ∧ o = o₀.moved n
  | .close hmarks, hqs => by
    subst hqs
    exact ⟨_, .close (marks_of_moved hmarks), by rw [Otherwise.moved]⟩
  | .otherwise hmarks hitems hclose, hqs => by
    obtain ⟨front, close, rfl, hfront, rfl⟩ := List.map_eq_append_iff.mp hqs
    obtain ⟨start, ps, rfl, rfl, hps⟩ := List.map_eq_append_iff.mp hfront
    obtain ⟨is, hspells, rfl⟩ := Items.exists_moved hitems hps
    exact ⟨_, .otherwise (marks_of_moved hmarks) hspells (marks_of_moved hclose), by
      rw [Otherwise.moved, Body.moved]⟩
  | .chained hkind hopens hw hguarded, hqs => by
    obtain ⟨start, rest, rfl, rfl, hrest⟩ := List.map_eq_append_iff.mp hqs
    obtain ⟨w, ps, rfl, rfl, hps⟩ := List.map_eq_cons_iff.mp hrest
    obtain ⟨i, hspells, rfl⟩ := Guarded.exists_moved hguarded hps
    exact ⟨_, .chained hkind (opens_of_moved hopens) hw hspells, by rw [Otherwise.moved]⟩

/-- So they do with several items. -/
theorem Items.exists_moved {n : Nat} {inLoop : Bool} {ps qs : List Piece}
    {is : List Template.Item} : Items inLoop qs is → ps.map (·.moved n) = qs →
      ∃ is₀, Items inLoop ps is₀ ∧ is = itemsMoved n is₀
  | .nil, hqs => by
    obtain rfl := List.map_eq_nil_iff.mp hqs
    exact ⟨[], .nil, by rw [itemsMoved]⟩
  | .cons hitem hitems, hqs => by
    obtain ⟨ps, rest, rfl, hps, hrest⟩ := List.map_eq_append_iff.mp hqs
    obtain ⟨is, hspells, rfl⟩ := Item.exists_moved hitem hps
    obtain ⟨js, hspells', rfl⟩ := Items.exists_moved hitems hrest
    exact ⟨is ++ js, .cons hspells hspells', by rw [itemsMoved_append]⟩

end

/-- So they do with the definition of a template. -/
theorem Definition.exists_moved {ps : List Piece} {i : Template.Item}
    (h : Definition (ps.map (·.moved n)) i) : ∃ i₀, Definition ps i₀ ∧ i = i₀.moved n := by
  generalize hqs : ps.map (·.moved n) = qs at h
  cases h with
  | mk hopens hnames hright hitems hclose =>
    obtain ⟨front, close, rfl, hfront, rfl⟩ := List.map_eq_append_iff.mp hqs
    obtain ⟨start, rest, rfl, rfl, hrest⟩ := List.map_eq_append_iff.mp hfront
    obtain ⟨name, rest', rfl, rfl, hrest'⟩ := List.map_eq_cons_iff.mp hrest
    obtain ⟨right, ps, rfl, rfl, hps⟩ := List.map_eq_cons_iff.mp hrest'
    obtain ⟨is, hspells, rfl⟩ := Items.exists_moved hitems hps
    refine ⟨_, .mk (opens_of_moved hopens) hnames hright hspells (marks_of_moved hclose), ?_⟩
    rw [Template.Item.moved, Body.moved]
    rfl

/-- So they do with a whole template. -/
theorem exists_moved_of_template {ps : List Piece} {is : List Template.Item}
    (h : Root (ps.map (·.moved n)) is) : ∃ is₀, Root ps is₀ ∧ is = itemsMoved n is₀ := by
  generalize hqs : ps.map (·.moved n) = qs at h
  induction h generalizing ps with
  | nil =>
    obtain rfl := List.map_eq_nil_iff.mp hqs
    exact ⟨[], .nil, by rw [itemsMoved]⟩
  | definition hdefinition _ ih =>
    obtain ⟨ps, rest, rfl, rfl, hrest⟩ := List.map_eq_append_iff.mp hqs
    obtain ⟨i, hspells, rfl⟩ := hdefinition.exists_moved
    obtain ⟨is, hspells', rfl⟩ := ih hrest
    exact ⟨i :: is, .definition hspells hspells', by rw [itemsMoved]⟩
  | item hitem _ ih =>
    obtain ⟨ps, rest, rfl, hps, hrest⟩ := List.map_eq_append_iff.mp hqs
    obtain ⟨is, hspells, rfl⟩ := Item.exists_moved hitem hps
    obtain ⟨js, hspells', rfl⟩ := ih hrest
    exact ⟨is ++ js, .item hspells hspells', by rw [itemsMoved_append]⟩

/-! ### Contexts -/

mutual

/-- Behind a block that has its word in front, the context is moved. -/
theorem InGuarded.exists_moved {n : Nat} {l inLoop : Bool} {k kind : Control}
    {front back qs : List Piece} {c : ItemContext} : InGuarded l k inLoop kind front qs c →
      back.map (·.moved n) = qs →
        ∃ c₀, InGuarded l k inLoop kind front back c₀ ∧ c = c₀.moved n
  | .here hheader hright, hqs => by
    obtain rfl := List.map_eq_nil_iff.mp hqs
    exact ⟨_, .here hheader hright, by rw [ItemContext.moved]⟩
  | .list hheader hright hinner hrest, hqs => by
    obtain ⟨back, rs, rfl, hback, hrs⟩ := List.map_eq_append_iff.mp hqs
    obtain ⟨c, hspells, rfl⟩ := InItems.exists_moved hinner hback
    obtain ⟨o, hspells', rfl⟩ := Tail.exists_moved hrest hrs
    exact ⟨_, .list hheader hright hspells hspells', by rw [ItemContext.moved]⟩
  | .nested hheader hright hfirst hkind hopens hw hinner, hqs => by
    obtain ⟨c, hspells, rfl⟩ := InGuarded.exists_moved hinner hqs
    exact ⟨_, .nested hheader hright hfirst hkind hopens hw hspells, by rw [ItemContext.moved]⟩
  | .otherwise hheader hright hfirst hmarks hinner hclose, hqs => by
    obtain ⟨back, close, rfl, hback, rfl⟩ := List.map_eq_append_iff.mp hqs
    obtain ⟨c, hspells, rfl⟩ := InItems.exists_moved hinner hback
    exact ⟨_, .otherwise hheader hright hfirst hmarks hspells (marks_of_moved hclose), by
      rw [ItemContext.moved]⟩

/-- Behind a block in an item, the context is moved. -/
theorem InItem.exists_moved {n : Nat} {l inLoop : Bool} {k : Control} {front back qs : List Piece}
    {c : ItemContext} : InItem l k inLoop front qs c → back.map (·.moved n) = qs →
      ∃ c₀, InItem l k inLoop front back c₀ ∧ c = c₀.moved n
  | .guarded hopens hinner, hqs => by
    obtain ⟨c, hspells, rfl⟩ := InGuarded.exists_moved hinner hqs
    exact ⟨c, .guarded hopens hspells, rfl⟩
  | .block hopens hnames hheader hright hinner hclose, hqs => by
    obtain ⟨back, close, rfl, hback, rfl⟩ := List.map_eq_append_iff.mp hqs
    obtain ⟨c, hspells, rfl⟩ := InItems.exists_moved hinner hback
    exact ⟨_, .block hopens hnames hheader hright hspells (marks_of_moved hclose), by
      rw [ItemContext.moved]⟩

/-- Behind a block in some items, the context is moved. -/
theorem InItems.exists_moved {n : Nat} {l inLoop : Bool} {k : Control} {front back qs : List Piece}
    {c : ListContext} : InItems l k inLoop front qs c → back.map (·.moved n) = qs →
      ∃ c₀, InItems l k inLoop front back c₀ ∧ c = c₀.moved n
  | .mk hbefore hinner hafter, hqs => by
    obtain ⟨back, rest, rfl, hback, hrest⟩ := List.map_eq_append_iff.mp hqs
    obtain ⟨c, hspells, rfl⟩ := InItem.exists_moved hinner hback
    obtain ⟨js, hspells', rfl⟩ := Items.exists_moved hafter hrest
    exact ⟨_, .mk hbefore hspells hspells', by rw [ListContext.moved]⟩

end

/-- Around a block, what follows it further on is spelled by a moved context only. -/
theorem InTemplate.exists_moved {l : Bool} {k : Control} {front back : List Piece}
    {c : ListContext} (h : InTemplate l k front (back.map (·.moved n)) c) :
    ∃ c₀, InTemplate l k front back c₀ ∧ c = c₀.moved n := by
  generalize hqs : back.map (·.moved n) = qs at h
  cases h with
  | item hbefore hinner hafter =>
    obtain ⟨back, rest, rfl, hback, rfl⟩ := List.map_eq_append_iff.mp hqs
    obtain ⟨c, hspells, rfl⟩ := InItem.exists_moved hinner hback
    obtain ⟨js, hspells', rfl⟩ := exists_moved_of_template hafter
    exact ⟨_, .item hbefore hspells hspells', by rw [ListContext.moved]⟩
  | define hbefore hopens hnames hright hinner hclose hafter =>
    obtain ⟨inside, rest, rfl, hinside, rfl⟩ := List.map_eq_append_iff.mp hqs
    obtain ⟨back, close, rfl, hback, rfl⟩ := List.map_eq_append_iff.mp hinside
    obtain ⟨c, hspells, rfl⟩ := InItems.exists_moved hinner hback
    obtain ⟨js, hspells', rfl⟩ := exists_moved_of_template hafter
    exact ⟨_, .define hbefore hopens hnames hright hspells (marks_of_moved hclose) hspells', by
      rw [ListContext.moved, ItemContext.moved]⟩

end AlertAudit.Template.Spelling
