import AlertAudit.Proofs.Template.MovedBack
import AlertAudit.Proofs.Template.Units

/-!
The blocks of a text. The pieces of a text around a block of its outline spell the context of the
block (`exists_blockIn`). The list of the block comes behind an action, and its else branch and its
end begin and end with one, so the text is cut there into four parts that are scanned by themselves
(`BlockIn.exists_parts`).
-/

set_option autoImplicit false

namespace AlertAudit.Template

open AlertAudit.Text
open Scan (Scans Ends charsOf)

/-! ### Actions at the ends -/

namespace Spelling

theorem startsAction_tail {inLoop : Bool} {kind : Control} {ps : List Piece}
    {o : Template.Otherwise} (h : Tail inLoop kind ps o) : StartsAction ps := by
  cases h with
  | close hmarks => exact startsAction_marks hmarks
  | otherwise hmarks _ _ => exact ((startsAction_marks hmarks).append _).append _
  | chained _ hopens _ _ => exact (startsAction_opens hopens).append _

section Contexts

variable {l inLoop : Bool} {k kind : Control} {front back : List Piece}

mutual

theorem endsAction_inGuarded {l inLoop : Bool} {k kind : Control} {front back : List Piece}
    {c : ItemContext} : InGuarded l k inLoop kind front back c → EndsAction front
  | .here _ hright => (endsAction_singleton hright).behind _
  | @InGuarded.list _ _ _ _ right _ _ _ _ _ _ _ _ _ hinner _ =>
    ((endsAction_inItems hinner).behind [right]).behind _
  | @InGuarded.nested _ _ _ _ _ w _ _ _ _ _ _ _ _ _ _ _ _ _ _ hinner =>
    (((endsAction_inGuarded hinner).behind [w]).behind _).behind _
  | .otherwise _ _ _ _ hinner _ => ((endsAction_inItems hinner).behind _).behind _

theorem endsAction_inItem {l inLoop : Bool} {k : Control} {front back : List Piece}
    {c : ItemContext} : InItem l k inLoop front back c → EndsAction front
  | .guarded _ hinner => (endsAction_inGuarded hinner).behind _
  | @InItem.block _ _ _ _ _ _ _ _ _ right _ _ _ _ _ _ hinner _ =>
    ((endsAction_inItems hinner).behind [right]).behind _

theorem endsAction_inItems {l inLoop : Bool} {k : Control} {front back : List Piece}
    {c : ListContext} : InItems l k inLoop front back c → EndsAction front
  | .mk _ hinner _ => (endsAction_inItem hinner).behind _

end

theorem endsAction_inTemplate {l : Bool} {k : Control} {front back : List Piece}
    {c : ListContext} (h : InTemplate l k front back c) : EndsAction front := by
  cases h with
  | item _ hinner _ => exact (endsAction_inItem hinner).behind _
  | @define _ _ _ _ _ _ name right _ _ _ _ _ _ _ hinner _ _ =>
    exact (((endsAction_inItems hinner).behind [name, right]).behind _).behind _

end Contexts

/-! ### Blocks of an outline -/

/-- An item leaves itself in the outline, or nothing. -/
theorem eq_nil_or_singleton {inLoop : Bool} {ps : List Piece} {is : List Template.Item}
    (h : Item inLoop ps is) : is = [] ∨ ∃ i, is = [i] := by
  cases h with
  | text _ | comment _ | breaks _ | continues _ => exact .inl rfl
  | action _ _ _ | guarded _ _ | block _ _ _ _ _ _ | call _ _ _ | callWith _ _ _ _ =>
    exact .inr ⟨_, rfl⟩

/-- One of several items is the first one or one of the others. -/
theorem first_or_later {one more is js : List Template.Item} {i : Template.Item}
    (hone : one = [] ∨ ∃ x, one = [x]) (h : one ++ more = is ++ i :: js) :
    (one = [i] ∧ is = [] ∧ more = js) ∨ ∃ is', is = one ++ is' ∧ more = is' ++ i :: js := by
  rcases hone with rfl | ⟨x, rfl⟩
  · exact .inr ⟨is, rfl, h⟩
  · cases is with
    | nil =>
      obtain ⟨rfl, rfl⟩ := List.cons.inj h
      exact .inl ⟨rfl, rfl, rfl⟩
    | cons y is =>
      obtain ⟨rfl, rfl⟩ := List.cons.inj h
      exact .inr ⟨is, rfl, rfl⟩

/-- The pieces of one of several items, with those in front of it and behind it. -/
theorem exists_of_items {inLoop : Bool} {ps : List Piece} {all js : List Template.Item}
    {i : Template.Item} : ∀ {is : List Template.Item}, Items inLoop ps all →
      all = is ++ i :: js → ∃ qs rs ss, ps = qs ++ rs ++ ss ∧ Items inLoop qs is ∧
        Item inLoop rs [i] ∧ Items inLoop ss js
  | _, .nil, hall => absurd hall (by simp)
  | _, @Items.cons _ first rest _ _ hitem hitems, hall => by
    rcases first_or_later (eq_nil_or_singleton hitem) hall with
      ⟨rfl, rfl, rfl⟩ | ⟨is, rfl, hmore⟩
    · exact ⟨[], first, rest, rfl, .nil, hitem, hitems⟩
    · obtain ⟨qs, rs, ss, rfl, hqs, hrs, hss⟩ := exists_of_items hitems hmore
      exact ⟨first ++ qs, rs, ss, by simp only [List.append_assoc], .cons hitem hqs, hrs, hss⟩

theorem exists_of_template {ps : List Piece} {is js : List Template.Item} {i : Template.Item}
    (h : Root ps (is ++ i :: js)) : ∃ qs rs ss, ps = qs ++ rs ++ ss ∧ Root qs is ∧
      (Item false rs [i] ∨ Definition rs i) ∧ Root ss js := by
  generalize hall : is ++ i :: js = all at h
  induction h generalizing is with
  | nil => exact absurd hall (by simp)
  | @definition first rest x more hdefinition hrest ih =>
    rcases @first_or_later [x] _ _ _ _ (.inr ⟨x, rfl⟩) hall.symm with
      ⟨hx, rfl, rfl⟩ | ⟨is, rfl, hmore⟩
    · obtain rfl := (List.cons.inj hx).1
      exact ⟨[], first, rest, rfl, .nil, .inr hdefinition, hrest⟩
    · obtain ⟨qs, rs, ss, rfl, hqs, hrs, hss⟩ := ih hmore.symm
      exact ⟨first ++ qs, rs, ss, by simp only [List.append_assoc], .definition hdefinition hqs,
        hrs, hss⟩
  | @item first rest one more hitem hrest ih =>
    rcases first_or_later (eq_nil_or_singleton hitem) hall.symm with
      ⟨rfl, rfl, rfl⟩ | ⟨is, rfl, hmore⟩
    · exact ⟨[], first, rest, rfl, .nil, .inl hitem, hrest⟩
    · obtain ⟨qs, rs, ss, rfl, hqs, hrs, hss⟩ := ih hmore.symm
      exact ⟨first ++ qs, rs, ss, by simp only [List.append_assoc], .item hitem hqs, hrs, hss⟩

/-- The pieces are the list and the end of a block of a kind, with pieces around them that stand in
the relation `P`, which also has whether the block is in a loop. -/
def Surrounded (P : Bool → List Piece → List Piece → Prop) (k : Control) (ps : List Piece)
    (b : Template.Body) (o : Template.Otherwise) : Prop :=
  ∃ l front qs rs back is, ps = front ++ (qs ++ rs) ++ back ∧ P l front back ∧
    b = .items is ∧ Items (l || k = .rangeBlock) qs is ∧ Tail l k rs o

theorem Surrounded.around {P Q : Bool → List Piece → List Piece → Prop} {k : Control}
    {ps qs : List Piece} {b : Template.Body} {o : Template.Otherwise} (h : Surrounded P k ps b o)
    (before after : List Piece) (hqs : qs = before ++ ps ++ after)
    (hQ : ∀ l front back, P l front back → Q l (before ++ front) (back ++ after)) :
    Surrounded Q k qs b o := by
  obtain ⟨l, front, list, tail, back, is, rfl, hP, hb, hitems, htail⟩ := h
  exact ⟨l, before ++ front, list, tail, back ++ after, is, by simp only [hqs, List.append_assoc],
    hQ l front back hP, hb, hitems, htail⟩

variable {b : Template.Body} {o : Template.Otherwise}

mutual

theorem surrounded_guarded {inLoop : Bool} {kind : Control} {ps : List Piece} :
    ∀ c : ItemContext, Guarded inLoop kind ps (c.fill b o) →
      Surrounded (InGuarded · c.kind inLoop kind · · c) c.kind ps b o
  | .here k p, h => by
    rw [ItemContext.fill] at h
    cases h with
    | mk hheader hright hitems htail =>
      exact ⟨inLoop, _, _, _, [], _, by simp, .here hheader hright, rfl, hitems, htail⟩
  | .list k p inner o', h => by
    rw [ItemContext.fill] at h
    cases h with
    | @mk _ _ right ps qs rs pl _ _ hheader hright hitems htail =>
      refine (surrounded_items inner hitems).around (ps ++ [right]) rs (by simp)
        fun l front back hinner ↦ ?_
      have hlist := InGuarded.list hheader hright hinner htail
      simpa [ItemContext.kind] using hlist
  | .nested k p b' inner, h => by
    rw [ItemContext.fill] at h
    cases h with
    | @mk _ _ right ps qs rs pl is _ hheader hright hitems htail =>
      cases htail with
      | @chained _ _ start rs w _ hkind hopens hw hguarded =>
        refine (surrounded_guarded inner hguarded).around
          (ps ++ right :: qs ++ (start ++ [w])) [] (by simp) fun l front back hinner ↦ ?_
        have hnested := InGuarded.nested hheader hright hitems hkind hopens hw hinner
        simpa [ItemContext.kind] using hnested
  | .otherwise k p b' inner, h => by
    rw [ItemContext.fill] at h
    cases h with
    | @mk _ _ right ps qs rs pl is _ hheader hright hitems htail =>
      cases htail with
      | @otherwise _ _ start rs close _ hmarks hbody hclose =>
        refine (surrounded_items inner hbody).around (ps ++ right :: qs ++ start) close
          (by simp) fun l front back hinner ↦ ?_
        have hotherwise := InGuarded.otherwise hheader hright hitems hmarks hinner hclose
        simpa [ItemContext.kind] using hotherwise
  | .define _ inner, h | .block _ _ inner, h => by
    rw [ItemContext.fill] at h
    cases h
termination_by c => (sizeOf c, 0)

theorem surrounded_item {inLoop : Bool} {ps : List Piece} :
    ∀ c : ItemContext, Item inLoop ps [c.fill b o] →
      Surrounded (InItem · c.kind inLoop · · c) c.kind ps b o := by
  intro c h
  generalize hi : c.fill b o = i at h
  cases h with
  | @guarded _ _ start _ _ hopens hguarded =>
    subst hi
    refine (surrounded_guarded c hguarded).around start [] (by simp) fun l front back hinner ↦ ?_
    rw [List.append_nil]
    exact .guarded hopens hinner
  | @block _ start ps qs close name right pl is hopens hnames hheader hright hitems hclose =>
    cases c with
    | block n p inner =>
      rw [ItemContext.fill] at hi
      cases hi
      refine (surrounded_items inner hitems).around (start ++ name :: ps ++ [right]) close
        (by simp) fun l front back hinner ↦ ?_
      have hblock : InItem l inner.kind inLoop _ _ _ :=
        .block hopens hnames hheader hright hinner hclose
      simpa [ItemContext.kind] using hblock
    | _ =>
      rw [ItemContext.fill] at hi
      cases hi
  | action _ _ _ | call _ _ _ | callWith _ _ _ _ =>
    cases c <;> exact absurd hi (by simp [ItemContext.fill])
termination_by c => (sizeOf c, 1)

theorem surrounded_items {inLoop : Bool} {ps : List Piece} :
    ∀ c : ListContext, Items inLoop ps (c.fill b o) →
      Surrounded (InItems · c.kind inLoop · · c) c.kind ps b o
  | .mk before inner after, h => by
    rw [ListContext.fill] at h
    obtain ⟨qs, rs, ss, rfl, hqs, hrs, hss⟩ := exists_of_items h rfl
    exact (surrounded_item inner hrs).around qs ss rfl fun l front back hinner ↦ .mk hqs hinner hss
termination_by c => (sizeOf c, 0)

end

/-- The pieces of a template around one of its blocks spell the context of the block. -/
theorem surrounded_template {ps : List Piece} (c : ListContext) (h : Root ps (c.fill b o)) :
    Surrounded (InTemplate · c.kind · · c) c.kind ps b o := by
  obtain ⟨before, inner, after⟩ := c
  rw [ListContext.fill] at h
  obtain ⟨qs, rs, ss, rfl, hqs, hrs | hrs, hss⟩ := exists_of_template h
  · exact (surrounded_item inner hrs).around qs ss rfl fun l front back hinner ↦
      .item hqs hinner hss
  · generalize hi : inner.fill b o = i at hrs
    cases hrs with
    | @mk start ps close name right is hopens hnames hright hitems hclose =>
      cases inner with
      | define n inner =>
        rw [ItemContext.fill] at hi
        cases hi
        refine (surrounded_items inner hitems).around (qs ++ (start ++ [name, right]))
          (close ++ ss) (by simp) fun l front back hinner ↦ ?_
        have hdefine := InTemplate.define hqs hopens hnames hright hinner hclose hss
        simpa [ListContext.kind, ItemContext.kind] using hdefine
      | _ =>
        rw [ItemContext.fill] at hi
        cases hi

end Spelling

/-! ### Blocks of a text -/

/-- A block in the outline of a text: its pieces, and what they spell. -/
structure BlockIn (text : String) where
  /-- The block is in a loop. -/
  inLoop : Bool
  context : ListContext
  items : List Item
  otherwise : Otherwise
  /-- The pieces in front of the list, those of the list, those of the end with the else branch, and
  those behind the end. -/
  front : List Piece
  list : List Piece
  tail : List Piece
  back : List Piece
  outline_eq : bareItems (Parse.ofText text).tree.items = context.fill (.items items) otherwise
  pieces_eq : pieces (Tokens.ofText text).tokens = front ++ (list ++ tail) ++ back
  spells_context : Spelling.InTemplate inLoop context.kind front back context
  spells_list : Spelling.Items (inLoop || context.kind = .rangeBlock) list items
  spells_tail : Spelling.Tail inLoop context.kind tail otherwise

namespace BlockIn

variable {text : String} (block : BlockIn text)

/-- The list of the block: it starts behind the action in front of it, and stops where the else
branch or the end of the block starts. -/
def listSpan : Span := ⟨(extentOf block.front).stop, (extentOf block.tail).start⟩

/-- The else branch of the block, with its words and its end. -/
def tailSpan : Span := extentOf block.tail

def listText : List Char := block.listSpan.slice text.toList

/-- The stretch of the else branch in the text without the list. -/
def emptiedSpan : Span :=
  ⟨block.tailSpan.start - utf8Length block.listText,
    block.tailSpan.stop - utf8Length block.listText⟩

def emptied : String :=
  String.ofList (takeBytes block.listSpan.start text.toList ++
    dropBytes block.listSpan.stop text.toList)

end BlockIn

/-- Each block in the outline of an accepted template is a block of its text. -/
theorem exists_blockIn {text : String} (h : (Parse.ofText text).error = none) {c : ListContext}
    {b : Body} {o : Otherwise} (hc : bareItems (Parse.ofText text).tree.items = c.fill b o) :
    ∃ block : BlockIn text,
      block.context = c ∧ Body.items block.items = b ∧ block.otherwise = o := by
  have hspells := (spells_of_accepted h).1
  rw [hc] at hspells
  obtain ⟨l, front, qs, rs, back, is, hpieces, hcontext, rfl, hitems, htail⟩ :=
    Spelling.surrounded_template c hspells
  exact ⟨⟨l, c, is, o, front, qs, rs, back, hc, hpieces, hcontext, hitems, htail⟩, rfl, rfl, rfl⟩

/-- A text that is scanned to its end has the pieces of its lexemes. -/
theorem pieces_ofText {cs : List Char} {ls : List Lexeme} (h : Scans cs ls) :
    (Tokens.ofText (String.ofList cs)).error = none ∧
      pieces (Tokens.ofText (String.ofList cs)).tokens = piecesOf ls := by
  rw [tokens_error_eq_none_iff, Tokens.ofText, String.toList_ofList]
  obtain ⟨hlexemes, houtcome⟩ := Scan.scans_iff.mp h
  exact ⟨houtcome, by rw [← hlexemes]; rfl⟩

theorem exists_scans {text : String} (h : (Tokens.ofText text).error = none) :
    ∃ ls, Scans text.toList ls :=
  ⟨_, Scan.scans_iff.mpr ⟨rfl, (tokens_error_eq_none_iff text).mp h⟩⟩

/-- Lexemes in four parts that are scanned by themselves: those in front of the list of a block, its
list, its end with the else branch, and those behind the end. The else branch `o` is taken as it is
at the start of a text of its own. -/
structure Parts (l : Bool) (k : Control) (c : ListContext) (is : List Item) (o : Otherwise)
    (a b e z : List Lexeme) : Prop where
  front : Scans (charsOf a) a ∧ ∃ l ∈ a.getLast?, Ends l
  list : Scans (charsOf b) b
  tail : Scans (charsOf e) e ∧ ∃ l ∈ e.getLast?, Ends l
  back : Scans (charsOf z) z
  whole : Scans (charsOf (a ++ b ++ e ++ z)) (a ++ b ++ e ++ z)
  spells_context : Spelling.InTemplate l k (piecesOf a)
    ((piecesOf z).map (·.moved (utf8Length (charsOf (a ++ b ++ e))))) c
  spells_list : Spelling.Items (l || k = .rangeBlock)
    ((piecesOf b).map (·.moved (utf8Length (charsOf a)))) is
  spells_tail : Spelling.Tail l k (piecesOf e) o

section Extents

variable {cs : List Char} {ls : List Lexeme}

/-- Pieces start where their text does. -/
theorem start_extentOf_piecesOf (h : Scans cs ls) : (extentOf (piecesOf ls)).start = 0 := by
  cases ls with
  | nil => rfl
  | cons l ls =>
    have hhead := (stream_scanText cs).kind_head?_ne_whitespace
    rw [(Scan.scans_iff.mp h).1] at hhead
    have hplain : Token.isTrivia ⟨l.kind, 0, String.ofList l.chars⟩ = false :=
      decide_eq_false (hhead l rfl)
    rw [piecesOf, Token.place, pieces_cons hplain]
    rfl

/-- Pieces stop where a text stops that ends with an action or a comment. -/
theorem stop_extentOf_piecesOf (h : ∃ l ∈ ls.getLast?, Ends l) :
    (extentOf (piecesOf ls)).stop = utf8Length (charsOf ls) := by
  obtain ⟨l, hl, hends⟩ := h
  obtain ⟨front, rfl⟩ := List.getLast?_eq_some_iff.mp hl
  have hsolid : l.kind ≠ .whitespace := by rcases hends with h | h <;> simp [h]
  rw [piecesOf_concat front hsolid, extentOf, List.getLast?_concat, Option.map_some,
    Option.getD_some, stop_place, Scan.charsOf_append, Scan.charsOf_cons, utf8Length_append,
    utf8Length_append]
  change 0 + utf8Length (charsOf front) + utf8Length l.chars =
    utf8Length (charsOf front) + (utf8Length l.chars + 0)
  omega

end Extents

/-- The text of a block and the text around it are scanned by themselves. -/
theorem BlockIn.exists_parts {text : String} (block : BlockIn text)
    (h : (Tokens.ofText text).error = none) : ∃ (a b e z : List Lexeme) (o : Otherwise),
      text.toList = charsOf (a ++ b ++ e ++ z) ∧
      Parts block.inLoop block.context.kind block.context block.items o a b e z ∧
      block.otherwise = o.moved (utf8Length (charsOf (a ++ b))) ∧
      block.front = piecesOf a ∧
      block.tail = (piecesOf e).map (·.moved (utf8Length (charsOf (a ++ b)))) := by
  obtain ⟨ls, hscans⟩ := exists_scans h
  have htext := hscans.charsOf_eq
  have hpieces := (pieces_ofText hscans).2
  rw [String.ofList_toList, block.pieces_eq] at hpieces
  rw [← htext] at hscans
  have hfront := Spelling.endsAction_inTemplate block.spells_context
  have hstart := Spelling.startsAction_tail block.spells_tail
  have hend := Spelling.endsAction_tail block.spells_tail
  obtain ⟨x, z, rfl, ⟨hx, l, hl, hends⟩, hz, hinside, hback⟩ :=
    parts_behind hscans hpieces.symm ((hend.behind block.list).behind block.front)
  rw [← List.append_assoc] at hinside
  obtain ⟨y, e, rfl, hy, he, hbefore, htail⟩ := parts_before hx hinside.symm hstart
  obtain ⟨a, b, rfl, ha, hb, hfrontPieces, hlist⟩ := parts_behind hy hbefore.symm hfront
  -- the else branch is not empty, so the last lexeme in front of the rest is its own
  have hne : e ≠ [] := by
    rintro rfl
    obtain ⟨p, r, htail', -⟩ := hstart
    exact absurd (htail'.symm.trans htail) nofun
  rw [List.getLast?_append_of_ne_nil _ hne] at hl
  have hspells := block.spells_tail
  rw [htail] at hspells
  obtain ⟨o, hlocal, ho⟩ := hspells.exists_moved rfl
  refine ⟨a, b, e, z, o, htext.symm, ⟨ha, hb, ⟨he, l, hl, hends⟩, hz, hscans, ?_, ?_, hlocal⟩, ho,
    hfrontPieces, htail⟩
  · rw [← hfrontPieces, ← hback]
    exact block.spells_context
  · rw [← hlist]
    exact block.spells_list

/-- The stretches of the list and of the else branch. -/
theorem BlockIn.spans_of_parts {text : String} {block : BlockIn text} {l : Bool} {k : Control}
    {c : ListContext} {is : List Item} {o : Otherwise} {a b e z : List Lexeme}
    (h : Parts l k c is o a b e z) (hfront : block.front = piecesOf a)
    (htail : block.tail = (piecesOf e).map (·.moved (utf8Length (charsOf (a ++ b))))) :
    block.listSpan = ⟨utf8Length (charsOf a), utf8Length (charsOf (a ++ b))⟩ ∧
      block.tailSpan = ⟨utf8Length (charsOf (a ++ b)), utf8Length (charsOf (a ++ b ++ e))⟩ := by
  have hpiece : piecesOf e ≠ [] := by
    rintro hnil
    obtain ⟨p, r, hp, -⟩ := Spelling.startsAction_tail h.spells_tail
    exact absurd (hp.symm.trans hnil) nofun
  have hspan : block.tailSpan =
      ⟨utf8Length (charsOf (a ++ b)), utf8Length (charsOf (a ++ b ++ e))⟩ := by
    rw [BlockIn.tailSpan, htail, extentOf_moved _ hpiece, Span.moved,
      start_extentOf_piecesOf h.tail.1, stop_extentOf_piecesOf h.tail.2, Nat.zero_add,
      Scan.charsOf_append (a ++ b), utf8Length_append, Nat.add_comm (utf8Length (charsOf e))]
  have hstop : (extentOf block.front).stop = utf8Length (charsOf a) := by
    rw [hfront, stop_extentOf_piecesOf h.front.2]
  refine ⟨?_, hspan⟩
  rw [BlockIn.listSpan, hstop]
  exact congrArg (Span.mk _) (congrArg Span.start hspan)

/-- The text of the list, and the text without it. -/
theorem BlockIn.texts_of_parts {text : String} {block : BlockIn text} {a b e z : List Lexeme}
    (htext : text.toList = charsOf (a ++ b ++ e ++ z))
    (hspan : block.listSpan = ⟨utf8Length (charsOf a), utf8Length (charsOf (a ++ b))⟩) :
    block.listText = charsOf b ∧ block.emptied = String.ofList (charsOf (a ++ e ++ z)) := by
  have hdrop (front back : List Char) : dropBytes (utf8Length front) (front ++ back) = back := by
    have h := dropBytes_append_left front back 0
    rwa [Nat.zero_add, dropBytes] at h
  have htake (front back : List Char) : takeBytes (utf8Length front) (front ++ back) = front := by
    have h := takeBytes_append_left front back 0
    rwa [Nat.zero_add, takeBytes, List.append_nil] at h
  have hbytes : utf8Length (charsOf (a ++ b)) - utf8Length (charsOf a) =
      utf8Length (charsOf b) := by
    rw [Scan.charsOf_append, utf8Length_append, Nat.add_sub_cancel_left]
  have hchars : text.toList = charsOf a ++ (charsOf b ++ charsOf (e ++ z)) := by
    simp only [htext, Scan.charsOf_append, List.append_assoc]
  have hchars' : text.toList = charsOf (a ++ b) ++ charsOf (e ++ z) := by
    simp only [htext, Scan.charsOf_append, List.append_assoc]
  constructor
  · rw [listText, hspan, Span.slice, hbytes, hchars, hdrop, htake]
  · rw [emptied, hspan]
    change String.ofList (takeBytes (utf8Length (charsOf a)) text.toList ++
      dropBytes (utf8Length (charsOf (a ++ b))) text.toList) = _
    rw [hchars', hdrop, ← hchars', hchars, htake, List.append_assoc, Scan.charsOf_append a]

section Parts

variable {l : Bool} {k : Control} {c : ListContext} {is : List Item} {o : Otherwise}
  {a b e z : List Lexeme}

/-- The pieces of the parts, one after the other. -/
theorem Parts.pieces_eq (h : Parts l k c is o a b e z) : piecesOf (a ++ b ++ e ++ z) =
    piecesOf a ++ ((piecesOf b).map (·.moved (utf8Length (charsOf a))) ++
      (piecesOf e).map (·.moved (utf8Length (charsOf (a ++ b))))) ++
        (piecesOf z).map (·.moved (utf8Length (charsOf (a ++ b ++ e)))) := by
  rw [piecesOf_append _ h.back, piecesOf_append _ h.tail.1, piecesOf_append _ h.list,
    List.append_assoc (piecesOf a)]

/-- The parts spell the filled context. -/
theorem Parts.spells (h : Parts l k c is o a b e z) : Spelling.Root (piecesOf (a ++ b ++ e ++ z))
    (c.fill (.items is) (o.moved (utf8Length (charsOf (a ++ b))))) := by
  rw [h.pieces_eq]
  exact Spelling.template_fill h.spells_context h.spells_list h.spells_tail.moved

/-- Without the list the other three parts are left. -/
theorem Parts.emptied (h : Parts l k c is o a b e z) :
    ∃ c₀, c = c₀.moved (utf8Length (charsOf b)) ∧ Parts l k c₀ [] o a [] e z := by
  obtain ⟨⟨ha, halast⟩, -, ⟨he, helast⟩, hz, -, hcontext, -, htail⟩ := h
  have hae : Scans (charsOf (a ++ e)) (a ++ e) := by
    rw [Scan.charsOf_append]
    exact Scan.scans_append ha he halast
  have hlast : ∃ l ∈ (a ++ e).getLast?, Ends l := by
    obtain ⟨l, hl, hends⟩ := helast
    exact ⟨l, List.mem_getLast?_append_of_mem_getLast? hl, hends⟩
  have hwhole : Scans (charsOf (a ++ e ++ z)) (a ++ e ++ z) := by
    rw [Scan.charsOf_append (a ++ e)]
    exact Scan.scans_append hae hz hlast
  have hmoved : utf8Length (charsOf (a ++ b ++ e)) =
      utf8Length (charsOf (a ++ e)) + utf8Length (charsOf b) := by
    simp only [Scan.charsOf_append, utf8Length_append]
    omega
  rw [hmoved, ← map_moved_map_moved] at hcontext
  obtain ⟨c₀, hc₀, rfl⟩ := hcontext.exists_moved
  refine ⟨c₀, rfl, ⟨ha, halast⟩, Scan.scans_nil, ⟨he, helast⟩, hz, ?_, ?_, .nil, htail⟩
  · rwa [List.append_nil]
  · rwa [List.append_nil]

end Parts

end AlertAudit.Template
