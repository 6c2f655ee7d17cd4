import AlertAudit.Proofs.Template.Spelling
import AlertAudit.Proofs.Template.Subtree
import AlertAudit.Template.Reads

/-!
Outlines without the spans of their items. Nothing is read from these spans, so a template reads the
same from the bare outline (`items_bareItems`). What a tree contributes to the outline does not
depend on white space in it either, and what is left is `Outline.shown`; of a node, it is put
together from what its children show (`shown_node`).
-/

set_option autoImplicit false

namespace AlertAudit.Template

open AlertAudit.Text

mutual

/-- The item and the items in it without their spans. -/
def Item.bare : Item → Item
  | .action _ p => .action nowhere p
  | .control kind _ p b o => .control kind nowhere p b.bare o.bare
  | .define _ name b => .define nowhere name b.bare
  | .block _ name p b => .block nowhere name p b.bare
  | .call _ name p => .call nowhere name p

def Body.bare : Body → Body
  | .missing => .missing
  | .items is => .items (bareItems is)

def bareItems : List Item → List Item
  | [] => []
  | i :: is => i.bare :: bareItems is

def Otherwise.bare : Otherwise → Otherwise
  | .none => .none
  | .nested i => .nested i.bare
  | .body b => .body b.bare

end

/-- The spans of items are left out one by one. -/
theorem bareItems_eq_map (is : List Item) : bareItems is = is.map Item.bare := by
  induction is with
  | nil => rw [bareItems, List.map_nil]
  | cons i is ih => rw [bareItems, ih, List.map_cons]

namespace Reading

mutual

theorem item_bare : ∀ i : Item, item i.bare = item i
  | .action _ p => by rw [Item.bare, item, item]
  | .control kind _ p b o => by rw [Item.bare, item, item, body_bare b, otherwise_bare o]
  | .define _ _ b => by rw [Item.bare, item, item, body_bare b]
  | .block _ _ p b => by rw [Item.bare, item, item, body_bare b]
  | .call _ _ p => by rw [Item.bare, item, item]

theorem body_bare : ∀ b : Body, body b.bare = body b
  | .missing => by rw [Body.bare]
  | .items is => by rw [Body.bare, body, body, items_bareItems is]

/-- The spans of items play no part in what is read. -/
theorem items_bareItems : ∀ is : List Item, items (bareItems is) = items is
  | [] => by rw [bareItems]
  | i :: is => by rw [bareItems, items, items, item_bare i, items_bareItems is]

theorem otherwise_bare : ∀ o : Otherwise, otherwise o.bare = otherwise o
  | .none => by rw [Otherwise.bare]
  | .nested i => by rw [Otherwise.bare, otherwise, otherwise, item_bare i]
  | .body b => by rw [Otherwise.bare, otherwise, otherwise, body_bare b]

end

end Reading

/-! ### Parts -/

namespace Part

/-- White space. -/
def isSpace : Part → Bool
  | .token t => t.isTrivia
  | _ => false

/-- The part without the spans of items. -/
def bare : Part → Part
  | .list is => .list (bareItems is)
  | .otherwise o => .otherwise o.bare
  | .item i => .item i.bare
  | part => part

theorem token?_bare (p : Part) : p.bare.token? = p.token? := by cases p <;> rfl

theorem operand?_bare (p : Part) : p.bare.operand? = p.operand? := by cases p <;> rfl

theorem command?_bare (p : Part) : p.bare.command? = p.command? := by cases p <;> rfl

theorem decl?_bare (p : Part) : p.bare.decl? = p.decl? := by cases p <;> rfl

theorem pipeline?_bare (p : Part) : p.bare.pipeline? = p.pipeline? := by cases p <;> rfl

theorem list?_bare (p : Part) : p.bare.list? = p.list?.map Body.bare := by
  cases p with
  | list is => rw [bare, list?, list?, Option.map_some, Body.bare]
  | _ => rfl

theorem otherwise?_bare (p : Part) : p.bare.otherwise? = p.otherwise?.map Otherwise.bare := by
  cases p <;> rfl

theorem item?_bare (p : Part) : p.bare.item? = p.item?.map Item.bare := by cases p <;> rfl

theorem nested?_bare (p : Part) : p.bare.nested? = p.nested?.map Item.bare := by
  cases p with
  | item i =>
    cases i with
    | control kind span p b o =>
      rw [bare, Item.bare, nested?, nested?]
      split
      · rfl
      · rw [Option.map_some, Item.bare]
    | action | define | block | call => rw [bare, Item.bare]; rfl
  | _ => rfl

end Part

namespace Outline

/-- The parts other than white space, without the spans of items. -/
def plain (parts : List Part) : List Part := (parts.filter (!·.isSpace)).map Part.bare

/-- The plain parts of some parts and some more are those of both. -/
theorem plain_append (parts parts' : List Part) :
    plain (parts ++ parts') = plain parts ++ plain parts' := by
  rw [plain, List.filter_append, List.map_append]
  rfl

/-- White space is a token. -/
theorem exists_token_of_isSpace {p : Part} (h : p.isSpace) : ∃ t, p = .token t ∧ t.isTrivia := by
  cases p with
  | token t => exact ⟨t, rfl, h⟩
  | _ => exact absurd h Bool.false_ne_true

/-- White space is not plain. -/
theorem plain_cons_of_isSpace {p : Part} (h : p.isSpace) (ps : List Part) :
    plain (p :: ps) = plain ps := by
  rw [plain, List.filter_cons_of_neg (by simpa using h)]
  rfl

/-- Everything else is. -/
theorem plain_cons_of_not_isSpace {p : Part} (h : ¬p.isSpace) (ps : List Part) :
    plain (p :: ps) = p.bare :: plain ps := by
  rw [plain, List.filter_cons_of_pos (by simpa using h)]
  rfl

section Lookups

variable {α : Type} {f : Part → Option α} {g : α → α} (hbare : ∀ p, f p.bare = (f p).map g)
  (htoken : ∀ t, f (.token t) = none)

include hbare htoken

/-- What is found among the parts is found among the plain ones. -/
theorem findSome?_plain (parts : List Part) :
    (plain parts).findSome? f = (parts.findSome? f).map g := by
  induction parts with
  | nil => rfl
  | cons p ps ih =>
    by_cases hp : p.isSpace
    · obtain ⟨t, rfl, -⟩ := exists_token_of_isSpace hp
      rw [plain_cons_of_isSpace hp, ih, List.findSome?_cons, htoken]
    · rw [plain_cons_of_not_isSpace hp, List.findSome?_cons, List.findSome?_cons, hbare, ih]
      cases f p <;> rfl

/-- What is gathered from the parts is gathered from the plain ones. -/
theorem filterMap_plain (parts : List Part) :
    (plain parts).filterMap f = (parts.filterMap f).map g := by
  induction parts with
  | nil => rfl
  | cons p ps ih =>
    by_cases hp : p.isSpace
    · obtain ⟨t, rfl, -⟩ := exists_token_of_isSpace hp
      rw [plain_cons_of_isSpace hp, ih, List.filterMap_cons_none (htoken t)]
    · rw [plain_cons_of_not_isSpace hp, List.filterMap_cons, List.filterMap_cons, hbare, ih]
      cases f p <;> rfl

end Lookups

/-- The tokens among the plain parts are those that are no white space. -/
theorem token?_plain (parts : List Part) : (plain parts).filterMap Part.token? =
    (parts.filterMap Part.token?).filter (!·.isTrivia) := by
  induction parts with
  | nil => rfl
  | cons p ps ih =>
    by_cases hp : p.isSpace
    · obtain ⟨t, rfl, ht⟩ := exists_token_of_isSpace hp
      have hcons : (Part.token t :: ps).filterMap Part.token? = t :: ps.filterMap Part.token? := rfl
      rw [plain_cons_of_isSpace hp, ih, hcons, List.filter_cons_of_neg (by simpa using ht)]
    · rw [plain_cons_of_not_isSpace hp, List.filterMap_cons, List.filterMap_cons, Part.token?_bare,
        ih]
      cases p with
      | token t => exact (List.filter_cons_of_pos (by simpa [Part.isSpace] using hp)).symm
      | _ => rfl

/-- Tokens that are no white space are found among the plain parts. -/
theorem find?_token?_plain {q : Token → Bool} (hq : ∀ t, t.isTrivia → q t = false)
    (parts : List Part) : ((plain parts).filterMap Part.token?).find? q =
      (parts.filterMap Part.token?).find? q := by
  rw [token?_plain, List.find?_filter]
  refine congrArg (List.find? · _) (funext fun t ↦ ?_)
  cases ht : t.isTrivia with
  | true => simp [hq t ht]
  | false => simp

theorem tokensOf_plain (kind : TokenKind) (hkind : kind.isTrivia = false) (parts : List Part) :
    tokensOf kind (plain parts) = tokensOf kind parts := by
  rw [tokensOf, tokensOf, token?_plain, List.filter_filter]
  refine List.filter_congr fun t _ ↦ ?_
  by_cases ht : t.kind = kind
  · rw [Token.isTrivia, ht, hkind, Bool.not_false, Bool.and_true]
  · simp [ht]

/-- The name of a template is found among the plain parts. -/
theorem templateName?_plain (parts : List Part) :
    templateName? (plain parts) = templateName? parts := by
  have hspace : ∀ t : Token, t.isTrivia → t.kind.namesTemplate = false := by
    intro t ht
    rw [show t.kind = .whitespace from of_decide_eq_true ht]
    rfl
  rw [templateName?, templateName?, find?_token?_plain hspace]

/-- The list of a block is found among the plain parts, without the spans in it. -/
theorem body_plain (parts : List Part) : body (plain parts) = (body parts).bare := by
  rw [body, body, findSome?_plain Part.list?_bare fun _ ↦ rfl]
  cases parts.findSome? Part.list? with
  | none =>
    change Body.missing = Body.missing.bare
    rw [Body.bare]
  | some b => rfl

/-- So is what follows the list. -/
theorem otherwise_plain (parts : List Part) :
    ((plain parts).findSome? Part.otherwise?).getD .none =
      ((parts.findSome? Part.otherwise?).getD .none).bare := by
  rw [findSome?_plain Part.otherwise?_bare fun _ ↦ rfl]
  cases parts.findSome? Part.otherwise? with
  | none =>
    change Otherwise.none = Otherwise.none.bare
    rw [Otherwise.bare]
  | some o => rfl

theorem pipeline?_plain (parts : List Part) :
    (plain parts).findSome? Part.pipeline? = parts.findSome? Part.pipeline? := by
  rw [findSome?_plain (g := id) (fun p ↦ by rw [Part.pipeline?_bare, Option.map_id, id])
    fun _ ↦ rfl, Option.map_id, id]

theorem decl?_plain (parts : List Part) :
    (plain parts).findSome? Part.decl? = parts.findSome? Part.decl? := by
  rw [findSome?_plain (g := id) (fun p ↦ by rw [Part.decl?_bare, Option.map_id, id])
    fun _ ↦ rfl, Option.map_id, id]

theorem command?_plain (parts : List Part) :
    (plain parts).filterMap Part.command? = parts.filterMap Part.command? := by
  rw [filterMap_plain (g := id) (fun p ↦ by rw [Part.command?_bare, Option.map_id, id])
    fun _ ↦ rfl, List.map_id]

theorem operand?_plain (parts : List Part) :
    (plain parts).filterMap Part.operand? = parts.filterMap Part.operand? := by
  rw [filterMap_plain (g := id) (fun p ↦ by rw [Part.operand?_bare, Option.map_id, id])
    fun _ ↦ rfl, List.map_id]

/-! ### Nodes -/

def shown (trees : List Tree) : List Part := plain (ofTrees trees)

theorem ofTrees_append (ts us : List Tree) : ofTrees (ts ++ us) = ofTrees ts ++ ofTrees us := by
  induction ts with
  | nil => rw [ofTrees]; rfl
  | cons t ts ih => rw [List.cons_append, ofTrees, ofTrees, ih, List.cons_append]

/-- What some trees and some more show is what both of them show. -/
theorem shown_append (ts us : List Tree) : shown (ts ++ us) = shown ts ++ shown us := by
  rw [shown, ofTrees_append, plain_append]
  rfl

theorem shown_nil : shown [] = [] := by
  rw [shown, ofTrees]
  rfl

/-- Of tokens, all but white space is shown. -/
theorem shown_map_leaf (ts : List Token) :
    shown (ts.map .leaf) = (ts.filter (!·.isTrivia)).map .token := by
  induction ts with
  | nil => exact shown_nil
  | cons t ts ih =>
    rw [List.map_cons, shown, ofTrees, ofTree]
    by_cases ht : t.isTrivia
    · have hspace : (Part.token t).isSpace := ht
      rw [plain_cons_of_isSpace hspace, List.filter_cons_of_neg (by simpa using ht)]
      exact ih
    · have hspace : ¬(Part.token t).isSpace := ht
      rw [plain_cons_of_not_isSpace hspace, List.filter_cons_of_pos (by simpa using ht),
        List.map_cons, ← ih]
      rfl

/-- What a node that is no operand contributes to the bare outline. -/
def nodePart (kind : NodeKind) (parts : List Part) : Part := assemble kind (.node kind []) parts

/-- No node shows white space. -/
theorem not_isSpace_assemble (kind : NodeKind) (tree : Tree) (parts : List Part) :
    ¬(assemble kind tree parts).isSpace := by
  cases kind <;> simp [assemble, Part.isSpace]

/-- A node without children has no place. -/
theorem span_childless (kind : NodeKind) : (Tree.node kind []).span?.getD ⟨0, 0⟩ = nowhere := by
  rw [Tree.span?, Tree.first?, Tree.firstOf?]
  rfl

/-- What a node contributes to the bare outline is put together from the plain parts in it. -/
theorem bare_assemble {kind : NodeKind} (hoperand : kind.isOperand = false) (tree : Tree)
    (parts : List Part) : (assemble kind tree parts).bare = nodePart kind (plain parts) := by
  have hspan := span_childless kind
  cases kind with
  | list =>
    rw [nodePart, assemble, assemble, Part.bare, filterMap_plain Part.item?_bare fun _ ↦ rfl,
      bareItems_eq_map]
  | action => simp only [nodePart, assemble, Part.bare, Item.bare, pipeline?_plain, hspan]
  | control kind =>
    simp only [nodePart, assemble, Part.bare, Item.bare, pipeline?_plain, body_plain,
      otherwise_plain, hspan]
  | elseBranch =>
    simp only [nodePart, assemble, Part.bare, findSome?_plain Part.nested?_bare fun _ ↦ rfl,
      body_plain]
    cases parts.findSome? Part.nested? with
    | none => simp only [Option.map_none, Otherwise.bare]
    | some i => simp only [Option.map_some, Otherwise.bare]
  | define => simp only [nodePart, assemble, Part.bare, Item.bare, templateName?_plain, body_plain,
      hspan]
  | block => simp only [nodePart, assemble, Part.bare, Item.bare, templateName?_plain, body_plain,
      pipeline?_plain, hspan]
  | call => simp only [nodePart, assemble, Part.bare, Item.bare, templateName?_plain,
      pipeline?_plain, hspan]
  | pipeline => simp only [nodePart, assemble, Part.bare, decl?_plain, command?_plain]
  | decl => simp only [nodePart, assemble, Part.bare, tokensOf_plain .variable rfl,
      tokensOf_plain .assign rfl]
  | command => simp only [nodePart, assemble, Part.bare, operand?_plain]
  | dot | field | «variable» | function | paren | literal => exact absurd hoperand (by decide)
  | error | root | comment | endAction | breakLoop | continueLoop => rfl

/-- A node shows what its kind makes of what its children show. -/
theorem shown_node {kind : NodeKind} (hoperand : kind.isOperand = false) (children : List Tree) :
    shown [.node kind children] = [nodePart kind (shown children)] := by
  rw [shown, ofTrees, ofTrees, ofTree, plain_cons_of_not_isSpace (not_isSpace_assemble _ _ _),
    bare_assemble hoperand]
  rfl

/-- A node that is an operand shows its term, with the tokens and the pipeline in it. -/
theorem shown_operand {kind : NodeKind} (hoperand : kind.isOperand) (children : List Tree) :
    shown [.node kind children] = [assemble kind (.node kind children) (shown children)] := by
  rw [shown, ofTrees, ofTrees, ofTree, plain_cons_of_not_isSpace (not_isSpace_assemble _ _ _)]
  have hplain (parts : List Part) (tree : Tree) :
      (assemble kind tree parts).bare = assemble kind tree (plain parts) := by
    have hspace : ∀ t : Token, t.isTrivia → (!t.isTrivia) = false := by simp
    cases kind with
    | dot | field | «variable» | function | paren =>
      simp only [assemble, Part.bare, tokensOf_plain .field rfl,
        tokensOf_plain .variable rfl, tokensOf_plain .identifier rfl,
        pipeline?_plain]
    | literal =>
      simp only [assemble, Part.bare, tokensOf_plain .field rfl,
        find?_token?_plain hspace]
    | _ => exact absurd hoperand Bool.false_ne_true
  rw [hplain]
  rfl

end Outline

end AlertAudit.Template
