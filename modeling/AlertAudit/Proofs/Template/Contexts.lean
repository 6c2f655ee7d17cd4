import AlertAudit.Proofs.Template.Concatenation

/-!
A block in its template. A context is an outline around the list and the else branch of one block,
and `fill` puts them in. The pieces around a block spell its context (`Spelling.InTemplate`), and
with the pieces of a list and of an end they spell the filled outline (`Spelling.template_fill`).
-/

set_option autoImplicit false

namespace AlertAudit.Template

mutual

/-- A block in an item, without its list and its else branch. -/
inductive ItemContext where
  /-- The item is the block. -/
  | here (kind : Control) (pipeline : Option Pipeline)
  | list (kind : Control) (pipeline : Option Pipeline) (inner : ListContext)
      (otherwise : Otherwise)
  | nested (kind : Control) (pipeline : Option Pipeline) (body : Body) (inner : ItemContext)
  | otherwise (kind : Control) (pipeline : Option Pipeline) (body : Body) (inner : ListContext)
  | define (name : Option String) (inner : ListContext)
  | block (name : Option String) (pipeline : Option Pipeline) (inner : ListContext)

/-- A block in one of several items. -/
inductive ListContext where
  | mk (before : List Item) (inner : ItemContext) (after : List Item)

end

mutual

def ItemContext.kind : ItemContext → Control
  | .here kind _ => kind
  | .list _ _ inner _ | .otherwise _ _ _ inner | .define _ inner | .block _ _ inner => inner.kind
  | .nested _ _ _ inner => inner.kind

def ListContext.kind : ListContext → Control
  | .mk _ inner _ => inner.kind

end

mutual

/-- The item with the list and the else branch of the block. -/
def ItemContext.fill (b : Body) (o : Otherwise) : ItemContext → Item
  | .here kind p => .control kind nowhere p b o
  | .list kind p inner o' => .control kind nowhere p (.items (inner.fill b o)) o'
  | .nested kind p b' inner => .control kind nowhere p b' (.nested (inner.fill b o))
  | .otherwise kind p b' inner => .control kind nowhere p b' (.body (.items (inner.fill b o)))
  | .define name inner => .define nowhere name (.items (inner.fill b o))
  | .block name p inner => .block nowhere name p (.items (inner.fill b o))

def ListContext.fill (b : Body) (o : Otherwise) : ListContext → List Item
  | .mk before inner after => before ++ inner.fill b o :: after

end

mutual

/-- The context with `n` bytes put in front of what follows the block. -/
def ItemContext.moved (n : Nat) : ItemContext → ItemContext
  | .here kind p => .here kind p
  | .list kind p inner o => .list kind p (inner.moved n) (o.moved n)
  | .nested kind p b inner => .nested kind p b (inner.moved n)
  | .otherwise kind p b inner => .otherwise kind p b (inner.moved n)
  | .define name inner => .define name (inner.moved n)
  | .block name p inner => .block name p (inner.moved n)

def ListContext.moved (n : Nat) : ListContext → ListContext
  | .mk before inner after => .mk before (inner.moved n) (itemsMoved n after)

end

mutual

theorem ItemContext.moved_zero : ∀ c : ItemContext, c.moved 0 = c
  | .here _ _ => by rw [ItemContext.moved]
  | .list _ _ inner o => by rw [ItemContext.moved, inner.moved_zero, o.moved_zero]
  | .nested _ _ _ inner => by rw [ItemContext.moved, inner.moved_zero]
  | .otherwise _ _ _ inner | .define _ inner | .block _ _ inner => by
    rw [ItemContext.moved, inner.moved_zero]

/-- A context stays the same if nothing is put in front of what follows the block. -/
theorem ListContext.moved_zero : ∀ c : ListContext, c.moved 0 = c
  | .mk _ inner after => by rw [ListContext.moved, inner.moved_zero, itemsMoved_zero]

end

/-! ### Pieces around a block -/

namespace Spelling

open Grammar (Opens Marks)

mutual

/-- A block in a loop or not in what follows the word of another one, or of itself: `front` comes in
front of the list of the block, and `back` behind its end. -/
inductive InGuarded (l : Bool) (k : Control) :
    Bool → Control → List Piece → List Piece → ItemContext → Prop
  | here {right : Piece} {ps : List Piece} {pl : Template.Pipeline} :
    Header (k = .rangeBlock) ps pl → right.kind = .rightDelim →
    InGuarded l k l k (ps ++ [right]) [] (.here k (some pl))
  | list {inLoop : Bool} {kind : Control} {right : Piece} {ps front back rs : List Piece}
    {pl : Template.Pipeline} {c : ListContext} {o : Template.Otherwise} :
    Header (kind = .rangeBlock) ps pl → right.kind = .rightDelim →
    InItems l k (inLoop || kind = .rangeBlock) front back c → Tail inLoop kind rs o →
    InGuarded l k inLoop kind (ps ++ right :: front) (back ++ rs) (.list kind (some pl) c o)
  | nested {inLoop : Bool} {kind : Control} {right w : Piece} {ps qs start front back : List Piece}
    {pl : Template.Pipeline} {is : List Template.Item} {c : ItemContext} :
    Header (kind = .rangeBlock) ps pl → right.kind = .rightDelim →
    Items (inLoop || kind = .rangeBlock) qs is → kind ≠ .rangeBlock → Opens .elseWord start →
    w.kind = .keyword kind.word → InGuarded l k inLoop kind front back c →
    InGuarded l k inLoop kind (ps ++ right :: qs ++ (start ++ w :: front)) back
      (.nested kind (some pl) (.items is) c)
  | otherwise {inLoop : Bool} {kind : Control} {right : Piece}
    {ps qs start front back close : List Piece} {pl : Template.Pipeline}
    {is : List Template.Item} {c : ListContext} :
    Header (kind = .rangeBlock) ps pl → right.kind = .rightDelim →
    Items (inLoop || kind = .rangeBlock) qs is → Marks .elseWord start →
    InItems l k inLoop front back c → Marks .endWord close →
    InGuarded l k inLoop kind (ps ++ right :: qs ++ (start ++ front)) (back ++ close)
      (.otherwise kind (some pl) (.items is) c)

/-- A block in an item. -/
inductive InItem (l : Bool) (k : Control) :
    Bool → List Piece → List Piece → ItemContext → Prop
  | guarded {inLoop : Bool} {kind : Control} {start front back : List Piece} {c : ItemContext} :
    Opens kind.word start → InGuarded l k inLoop kind front back c →
    InItem l k inLoop (start ++ front) back c
  | block {inLoop : Bool} {start ps front back close : List Piece} {name right : Piece}
    {pl : Template.Pipeline} {c : ListContext} : Opens .blockWord start → name.Names →
    Header false ps pl → right.kind = .rightDelim → InItems l k false front back c →
    Marks .endWord close → InItem l k inLoop (start ++ name :: ps ++ right :: front)
      (back ++ close) (.block (Literal.unquote name.text) (some pl) c)

/-- A block in one of several items. -/
inductive InItems (l : Bool) (k : Control) :
    Bool → List Piece → List Piece → ListContext → Prop
  | mk {inLoop : Bool} {ps front back qs : List Piece} {is js : List Template.Item}
    {c : ItemContext} : Items inLoop ps is → InItem l k inLoop front back c →
    Items inLoop qs js → InItems l k inLoop (ps ++ front) (back ++ qs) (.mk is c js)

end

/-- A block in a template. -/
inductive InTemplate (l : Bool) (k : Control) : List Piece → List Piece → ListContext → Prop
  | item {ps front back qs : List Piece} {is js : List Template.Item} {c : ItemContext} :
    Root ps is → InItem l k false front back c → Root qs js →
    InTemplate l k (ps ++ front) (back ++ qs) (.mk is c js)
  | define {ps start front back close qs : List Piece} {name right : Piece}
    {is js : List Template.Item} {c : ListContext} : Root ps is → Opens .defineWord start →
    name.Names → right.kind = .rightDelim → InItems l k false front back c →
    Marks .endWord close → Root qs js →
    InTemplate l k (ps ++ (start ++ name :: right :: front)) (back ++ close ++ qs)
      (.mk is (.define (Literal.unquote name.text) c) js)

theorem items_append {inLoop : Bool} {ps qs : List Piece} {is js : List Template.Item}
    (h : Items inLoop ps is) (h' : Items inLoop qs js) : Items inLoop (ps ++ qs) (is ++ js) := by
  induction h using Items.list_induction with
  | nil => exact h'
  | cons hitem _ ih =>
    rw [List.append_assoc, List.append_assoc]
    exact .cons hitem ih

theorem items_cons {inLoop : Bool} {ps qs : List Piece} {i : Template.Item}
    {is : List Template.Item} (h : Item inLoop ps [i]) (h' : Items inLoop qs is) :
    Items inLoop (ps ++ qs) (i :: is) := .cons h h'

section Fill

variable {l : Bool} {k : Control} {qs rs : List Piece} {is : List Template.Item}
  {o : Template.Otherwise}

mutual

theorem guarded_fill {l inLoop : Bool} {k kind : Control} {front back qs rs : List Piece}
    {c : ItemContext} {is : List Template.Item} {o : Template.Otherwise} :
    InGuarded l k inLoop kind front back c → Items (l || k = .rangeBlock) qs is → Tail l k rs o →
      Guarded inLoop kind (front ++ (qs ++ rs) ++ back) (c.fill (.items is) o)
  | .here hheader hright, hitems, htail => by
    have h := Guarded.mk hheader hright hitems htail
    simpa [ItemContext.fill] using h
  | .list hheader hright hinner hrest, hitems, htail => by
    have h := Guarded.mk hheader hright (items_fill hinner hitems htail) hrest
    simpa [ItemContext.fill] using h
  | .nested hheader hright hfirst hkind hopens hw hinner, hitems, htail => by
    have h := Guarded.mk hheader hright hfirst
      (.chained hkind hopens hw (guarded_fill hinner hitems htail))
    simpa [ItemContext.fill] using h
  | .otherwise hheader hright hfirst hmarks hinner hclose, hitems, htail => by
    have h := Guarded.mk hheader hright hfirst
      (.otherwise hmarks (items_fill hinner hitems htail) hclose)
    simpa [ItemContext.fill] using h

theorem item_fill {l inLoop : Bool} {k : Control} {front back qs rs : List Piece}
    {c : ItemContext} {is : List Template.Item} {o : Template.Otherwise} :
    InItem l k inLoop front back c → Items (l || k = .rangeBlock) qs is → Tail l k rs o →
      Item inLoop (front ++ (qs ++ rs) ++ back) [c.fill (.items is) o]
  | .guarded hopens hinner, hitems, htail => by
    have h : Item inLoop _ _ := .guarded hopens (guarded_fill hinner hitems htail)
    simpa using h
  | .block hopens hnames hheader hright hinner hclose, hitems, htail => by
    have h : Item inLoop _ _ := .block hopens hnames hheader hright
      (items_fill hinner hitems htail) hclose
    simpa [ItemContext.fill] using h

theorem items_fill {l inLoop : Bool} {k : Control} {front back qs rs : List Piece}
    {c : ListContext} {is : List Template.Item} {o : Template.Otherwise} :
    InItems l k inLoop front back c → Items (l || k = .rangeBlock) qs is → Tail l k rs o →
      Items inLoop (front ++ (qs ++ rs) ++ back) (c.fill (.items is) o)
  | .mk hbefore hinner hafter, hitems, htail => by
    have h := items_append hbefore (items_cons (item_fill hinner hitems htail) hafter)
    simpa [ListContext.fill] using h

end

/-- The pieces around a block, with a list and an end for it, spell the filled outline. -/
theorem template_fill {c : ListContext} {front back : List Piece} (h : InTemplate l k front back c)
    (hitems : Items (l || k = .rangeBlock) qs is) (htail : Tail l k rs o) :
    Root (front ++ (qs ++ rs) ++ back) (c.fill (.items is) o) := by
  cases h with
  | item hbefore hinner hafter =>
    have h := template_append hbefore (.item (item_fill hinner hitems htail) hafter)
    simpa [ListContext.fill] using h
  | define hbefore hopens hnames hright hinner hclose hafter =>
    have h := template_append hbefore (.definition (.mk hopens hnames hright
      (items_fill hinner hitems htail) hclose) hafter)
    simpa [ListContext.fill, ItemContext.fill] using h

end Fill

end Spelling

end AlertAudit.Template
