import AlertAudit.Proofs.Template.Stretches

/-!
Pipelines with one more stage. White space behind a phrase changes nothing in its outline
(`blankBehind`), and behind a pipeline that does not end with a bar, a bar with a function name
makes one more command (`Spelling.Pipeline.piped`).
-/

set_option autoImplicit false

namespace AlertAudit.Template

/-! ### White space behind pieces -/

def Piece.blanked (p : Piece) : Piece := ⟨p.token, true⟩

/-- The pieces with white space behind the last one. -/
def blankBehind : List Piece → List Piece
  | [] => []
  | [p] => [p.blanked]
  | p :: q :: ps => p :: blankBehind (q :: ps)

theorem blankBehind_cons {p : Piece} {ps : List Piece} (h : ps ≠ []) :
    blankBehind (p :: ps) = p :: blankBehind ps := by
  obtain ⟨q, ps, rfl⟩ := List.exists_cons_of_ne_nil h
  rw [blankBehind]

theorem blankBehind_append (ps : List Piece) {qs : List Piece} (h : qs ≠ []) :
    blankBehind (ps ++ qs) = ps ++ blankBehind qs := by
  induction ps with
  | nil => rfl
  | cons p ps ih => rw [List.cons_append, blankBehind_cons (by simp [h]), ih, List.cons_append]

theorem tokensOf_blankBehind (ps : List Piece) : tokensOf (blankBehind ps) = tokensOf ps := by
  fun_induction blankBehind ps with
  | case1 => rfl
  | case2 p => rfl
  | case3 p q ps ih => exact congrArg (p.token :: ·) ih

theorem fieldsOf_blankBehind (ps : List Piece) : fieldsOf (blankBehind ps) = fieldsOf ps := by
  rw [fieldsOf, tokensOf_blankBehind, fieldsOf]

theorem extentOf_eq (ps : List Piece) : extentOf ps =
    ⟨((tokensOf ps).head?.map Token.start).getD 0,
      ((tokensOf ps).getLast?.map Token.stop).getD 0⟩ := by
  rw [extentOf, tokensOf, List.head?_map, List.getLast?_map, Option.map_map, Option.map_map]
  rfl

theorem extentOf_blankBehind (ps : List Piece) : extentOf (blankBehind ps) = extentOf ps := by
  rw [extentOf_eq, tokensOf_blankBehind, ← extentOf_eq]

namespace Spelling

open AlertAudit.Template.Parser (OperandClass)
open Grammar (Atom Fields)

theorem atom_blanked {vars : List String} {p : Piece} {c : OperandClass} (h : Atom vars p c) :
    Atom vars p.blanked c := by
  cases h with
  | function hkind hdefined => exact .function hkind hdefined
  | inScope hkind hmem => exact .inScope hkind hmem
  | field hkind => exact .field hkind
  | dot hkind => exact .dot hkind
  | nil hkind => exact .nil hkind
  | bool hkind => exact .bool hkind
  | char hkind hconstant => exact .char hkind hconstant
  | number hkind => exact .number hkind
  | string hkind hquoted => exact .string hkind hquoted

theorem fields_blankBehind {before after : Bool} {fs : List Piece} (h : Fields before fs after)
    (hne : fs ≠ []) : Fields before (blankBehind fs) true := by
  induction h with
  | nil => exact absurd rfl hne
  | @cons f fs spaced hkind hfields ih =>
    cases fs with
    | nil => exact .cons hkind .nil
    | cons g fs => exact .cons hkind (ih (List.cons_ne_nil g fs))

theorem command_ne_nil {depth : Nat} {ps : List Piece} {c : OperandClass}
    {os : List Template.Operand} (h : Command depth ps c os) : ps ≠ [] := by
  have hoperand {ps : List Piece} {c : OperandClass} {spaced : Bool} {o : Template.Operand}
      (h : Operand depth ps c spaced o) : ps ≠ [] := by
    cases h with
    | atom => exact List.cons_ne_nil _ _
    | paren => exact List.append_ne_nil_of_left_ne_nil (List.cons_ne_nil _ _) _
  cases h with
  | last hlast => exact hoperand hlast
  | more hfirst _ => exact List.append_ne_nil_of_left_ne_nil (hoperand hfirst) _

mutual

/-- White space behind an operand separates it from what follows. -/
theorem Operand.blankBehind {depth : Nat} {ps : List Piece} {c : OperandClass} {spaced : Bool}
    {o : Template.Operand} : Operand depth ps c spaced o →
      Operand depth (blankBehind ps) c true o
  | @Operand.atom _ p fs _ _ hatom hfields hclass => by
    rw [← extentOf_blankBehind, ← fieldsOf_blankBehind]
    cases fs with
    | nil => exact .atom (atom_blanked hatom) .nil hclass
    | cons f fs =>
      have hne := List.cons_ne_nil f fs
      exact .atom hatom (fields_blankBehind hfields hne) fun _ ↦ hclass hne
  | @Operand.paren _ left right ps fs _ pl hleft hpipeline hright hfields => by
    have hextent := extentOf_blankBehind (left :: ps ++ right :: fs)
    rw [blankBehind_append _ (List.cons_ne_nil right fs)] at hextent ⊢
    rw [← hextent]
    cases fs with
    | nil => exact .paren hleft hpipeline hright .nil
    | cons f fs =>
      have hne := List.cons_ne_nil f fs
      rw [← fieldsOf_blankBehind, blankBehind_cons hne]
      exact .paren hleft hpipeline hright (fields_blankBehind hfields hne)

theorem Command.blankBehind {depth : Nat} {ps : List Piece} {c : OperandClass}
    {os : List Template.Operand} : Command depth ps c os → Command depth (blankBehind ps) c os
  | .last hoperand => .last hoperand.blankBehind
  | .more hoperand hcommand => by
    rw [blankBehind_append _ (command_ne_nil hcommand)]
    exact .more hoperand hcommand.blankBehind

end

variable {depth : Nat} {inRange : Bool} {bar : Piece} {call : List Piece}
  {os : List Template.Operand}

/-- One more stage behind the other ones. -/
theorem Stages.piped (hbar : bar.kind = .pipe) (hcall : Command depth call .executable os)
    {qs : List Piece} {cs : List (List Template.Operand)} : Stages depth qs cs →
      (∀ p ∈ qs.getLast?, p.kind ≠ .pipe) →
        Stages depth (AlertAudit.Template.blankBehind qs ++ bar :: call) (cs ++ [os])
  | .nil, _ => by
    have hone := Stages.cons hbar hcall .nil
    rwa [List.append_nil] at hone
  | .bar hkind, hlast => absurd hkind (hlast _ rfl)
  | @Stages.cons _ _ ps qs _ _ hfirst hcommand hstages, hlast => by
    by_cases hqs : qs = []
    · subst hqs
      have hrest := Stages.piped hbar hcall hstages nofun
      rw [List.append_nil, blankBehind_cons (command_ne_nil hcommand)]
      exact .cons hfirst hcommand.blankBehind hrest
    · have hrest := Stages.piped hbar hcall hstages fun p hp ↦ hlast p (by
        rw [List.getLast?_append, hp]
        rfl)
      rw [blankBehind_append _ hqs, List.append_assoc]
      exact .cons hfirst hcommand hrest

theorem head?_blankBehind (ps : List Piece) :
    (AlertAudit.Template.blankBehind ps).head?.map Piece.kind = ps.head?.map Piece.kind := by
  fun_cases AlertAudit.Template.blankBehind ps <;> rfl

/-- A pipeline that does not end with a bar, with one more stage. -/
theorem Pipeline.piped {ps : List Piece} {decl : Option Decl} {cs : List (List Template.Operand)}
    (h : Pipeline depth inRange ps (.mk decl cs)) (hlast : ∀ p ∈ ps.getLast?, p.kind ≠ .pipe)
    (hbar : bar.kind = .pipe) (hcall : Command depth call .executable os) :
    Pipeline depth inRange (AlertAudit.Template.blankBehind ps ++ bar :: call)
      (.mk decl (cs ++ [os])) := by
  cases h with
  | @mk _ _ ds ps qs _ _ _ _ hdeclares hcommand hnil hstages =>
    have hps := command_ne_nil hcommand
    by_cases hqs : qs = []
    · subst hqs
      have hrest := hstages.piped hbar hcall nofun
      rw [List.append_nil, blankBehind_append _ hps]
      exact .mk (head?_blankBehind ps ▸ hdeclares) hcommand.blankBehind hnil hrest
    · have hrest := hstages.piped hbar hcall fun p hp ↦ hlast p (by
        rw [List.getLast?_append, hp]
        rfl)
      rw [blankBehind_append _ hqs, List.append_assoc]
      exact .mk hdeclares hcommand hnil hrest

/-- A function without arguments. -/
theorem command_function {name : Piece} (hkind : name.kind = .identifier)
    (hdefined : Builtin.isDefined name.text) : Command depth [name] .executable
      [.mk (.function (some name.token)) name.token.span []] := by
  have hterm : termOf name.token = .function (some name.token) := by
    rw [termOf, show name.token.kind = .identifier from hkind]
  have hfields : fieldsOf [name] = [] := by
    simp [fieldsOf, tokensOf, show name.token.kind = .identifier from hkind]
  have hcommand : Command depth [name] .executable [.mk (termOf name.token) (extentOf [name])
    (fieldsOf [name])] := .last (.atom (.function hkind hdefined) .nil (absurd rfl))
  rwa [hterm, hfields] at hcommand

/-- A pipeline declares nothing if no mark of a declaration comes behind its first piece. -/
theorem Pipeline.decl_eq_none {ps : List Piece} {decl : Option Decl}
    {cs : List (List Template.Operand)} (h : Pipeline depth false ps (.mk decl cs))
    (hmark : ∀ p ∈ ps[1]?, p.kind ≠ .declare ∧ p.kind ≠ .assign) : decl = none := by
  cases h with
  | mk hdeclares _ _ _ =>
    cases hdeclares with
    | none => rfl
    | one _ hkind =>
      obtain ⟨hdeclare, hassign⟩ := hmark _ rfl
      exact absurd hkind (not_or.mpr ⟨hdeclare, hassign⟩)
    | two hrange | index hrange => cases hrange

end Spelling

end AlertAudit.Template
