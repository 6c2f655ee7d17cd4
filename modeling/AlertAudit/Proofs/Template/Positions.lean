import AlertAudit.Proofs.Template.Outlines
import AlertAudit.Proofs.Template.Sources
import AlertAudit.Proofs.Template.Stretches
import AlertAudit.Text.Blank
import Mathlib.Data.List.Chain

/-!
Where the mentions of a template stand in its text. A piece with the fields attached to it is one
stretch of the text (`covers_extentOf`), so a read of the sample value is recorded at the whole of
an operand; a label is recorded at the field or the string that names it, and a call at its name
(`placed_reads`).
-/

set_option autoImplicit false

namespace AlertAudit.Template

open AlertAudit.Text

/-! ### Names in a text -/

/-- The character with which a token that stands for something of the alert starts. -/
def TokenKind.mark? : TokenKind → Option Char
  | .variable => some '$'
  | .field | .dot => some '.'
  | _ => none

namespace Scan

/-- Words are read without a mark. -/
theorem mark?_ofWord (word : String) : (TokenKind.ofWord word).mark? = none := by
  unfold TokenKind.ofWord
  split
  · rfl
  · split
    · rfl
    · split <;> rfl

/-- Numbers are read without a mark. -/
theorem mark?_of_number {c : Char} {cs : List Char} {m n : Nat} {kind : TokenKind}
    (h : read.number c cs m = .ok (kind, n)) : kind.mark? = none := by
  unfold read.number at h
  split at h
  · split at h <;> cases h
    rfl
  · cases h
    rfl

theorem mark?_of_elim {length? : Option Nat} {literal kind : TokenKind} {e : ScanError} {n : Nat}
    (h : (length?.map (literal, ·)).elim (.error e) .ok = Except.ok (kind, n))
    (hliteral : literal.mark? = none) : kind.mark? = none := by
  cases length? with
  | none => cases h
  | some m =>
    cases h
    exact hliteral

theorem isWordChar_of_mem_run {cs : List Char} {c : Char} (h : c ∈ cs.take (run isWordChar cs)) :
    isWordChar c := by
  rw [run, ← List.prefix_iff_eq_take.mp (List.takeWhile_prefix _)] at h
  exact List.mem_takeWhile_imp h

/-- What a word starts with may stand in a word. -/
theorem isWordChar_of_isWordStart {c : Char} (h : isWordStart c) : isWordChar c := by
  simp only [isWordStart, isWordChar, Char.isAlphanum, Bool.or_eq_true] at h ⊢
  exact h.imp_left .inl

/-- Behind its mark a name has the characters of a word. -/
theorem chars_of_read {c : Char} {cs : List Char} {kind : TokenKind} {n : Nat}
    (h : read c cs = .ok (kind, n)) {mark : Char} (hmark : kind.mark? = some mark) :
    c = mark ∧ ∀ d ∈ cs.take n, isWordChar d := by
  have hnone {p : Prop} (h : kind.mark? = none) : p := absurd (h.symm.trans hmark) nofun
  unfold read at h
  split at h
  · cases h
    exact hnone rfl
  split at h
  · cases h
    exact hnone (mark?_ofWord _)
  split at h
  · split at h
    · exact hnone (mark?_of_number h)
    · cases h
  split at h
  case h_7 =>
    cases h
    exact ⟨Option.some.inj hmark, fun d hd ↦ isWordChar_of_mem_run hd⟩
  case h_6 =>
    split at h <;> cases h
    exact hnone rfl
  case h_8 =>
    split at h
    next d r =>
      split at h
      next hstart =>
        cases h
        refine ⟨Option.some.inj hmark, fun e he ↦ ?_⟩
        rw [Nat.add_comm, List.take_succ_cons] at he
        rcases List.mem_cons.mp he with rfl | he
        · exact isWordChar_of_isWordStart hstart
        · exact isWordChar_of_mem_run he
      next =>
        split at h
        · exact hnone (mark?_of_number h)
        · cases h
          exact ⟨Option.some.inj hmark, fun _ hd ↦ absurd hd List.not_mem_nil⟩
    next =>
      cases h
      exact ⟨Option.some.inj hmark, fun _ hd ↦ absurd hd List.not_mem_nil⟩
  case h_9 | h_10 | h_11 => exact hnone (mark?_of_elim h rfl)
  case h_12 => cases h
  all_goals
    cases h
    exact hnone rfl

/-- Names consist of their mark and a word. -/
def Marked (ls : List Lexeme) : Prop :=
  ∀ l ∈ ls, ∀ mark, l.kind.mark? = some mark → ∃ word, l.chars = mark :: word ∧
    ∀ c ∈ word, isWordChar c

theorem marked_nil : Marked [] := fun _ h ↦ absurd h List.not_mem_nil

/-- A lexeme without a mark may be of any characters. -/
theorem Marked.cons {ls : List Lexeme} (h : Marked ls) {kind : TokenKind}
    (hkind : kind.mark? = none)
    (chars : List Char) : Marked (⟨kind, chars⟩ :: ls) :=
  List.forall_mem_cons.mpr ⟨fun _ hmark ↦ absurd (hkind.symm.trans hmark) nofun, h⟩

/-- A lexeme that is read starts with its mark. -/
theorem Marked.cons_read {ls : List Lexeme} (h : Marked ls) {c : Char} {cs : List Char}
    {kind : TokenKind} {n : Nat} (hread : read c cs = .ok (kind, n)) :
    Marked (⟨kind, c :: cs.take n⟩ :: ls) := by
  refine List.forall_mem_cons.mpr ⟨fun mark hmark ↦ ?_, h⟩
  obtain ⟨rfl, hword⟩ := chars_of_read hread hmark
  exact ⟨cs.take n, rfl, hword⟩

/-- Each lexeme of an action starts with its mark. -/
theorem marked_scanAction (depth : Nat) (cs : List Char) :
    Marked (scanAction depth cs).lexemes := by
  fun_induction scanAction depth cs with
  | case1 | case2 | case3 | case4 | case5 => exact marked_nil.cons rfl _
  | case6 depth c cs kind n hread => exact (marked_nil.cons rfl _).cons_read hread
  | case7 depth c cs kind n hread chars rest _ depth' _ _ ih => exact ih.cons_read hread

/-- Each lexeme of a text starts with its mark. -/
theorem marked_scanText (cs : List Char) : Marked (scanText cs).lexemes := by
  fun_induction scanText cs with
  | case1 => exact marked_nil
  | case2 => exact marked_nil.cons rfl _
  | case3 tail marker inner _ rest _ ih => exact ih.cons rfl _
  | case4 tail marker inner => exact (marked_scanAction 0 inner).cons rfl _
  | case5 tail marker inner _ action opening rest _ r ih =>
    have hbehind : Marked (action.lexemes ++ r.lexemes) :=
      List.forall_mem_append.mpr ⟨marked_scanAction 0 inner, ih⟩
    exact hbehind.cons rfl _
  | case6 c tail _ ih => exact ih.cons rfl _

end Scan

/-- A name among the tokens of a text consists of its mark and a word. -/
theorem exists_word {text : String} {t : Token} (ht : t ∈ (Tokens.ofText text).tokens)
    {mark : Char} (hmark : t.kind.mark? = some mark) : ∃ word, t.text.toList = mark :: word ∧
      ∀ c ∈ word, Scan.isWordChar c := by
  obtain ⟨front, l, back, hlexemes, rfl⟩ := exists_of_mem_place ht
  obtain ⟨word, hchars, hword⟩ := Scan.marked_scanText text.toList l
    (hlexemes ▸ List.mem_append_right _ List.mem_cons_self) mark hmark
  exact ⟨word, by rw [String.toList_ofList, hchars], hword⟩

/-- A token is in its text where it says. -/
theorem covers_token {text : String} {t : Token} (ht : t ∈ (Tokens.ofText text).tokens) :
    t.span.Covers text.toList t.text.toList := by
  obtain ⟨front, l, back, hlexemes, rfl⟩ := exists_of_mem_place ht
  rw [String.toList_ofList]
  refine ⟨Scan.charsOf front, Scan.charsOf back, ?_, ?_⟩
  · rw [← Scan.charsOf_scanText text.toList, hlexemes, Scan.charsOf_append, Scan.charsOf_cons,
      List.append_assoc]
  · rw [Token.span, stop_place, Nat.zero_add, utf8Length_append]

/-! ### Operands in a text -/

/-- No white space lies between the pieces, except where it is noted. -/
def Adjacent (ps : List Piece) : Prop :=
  ps.IsChain fun p q ↦ p.spaced = false → q.token.start = p.token.stop

/-- Between two pieces there is nothing but white space. -/
theorem adjacent_pieces {ts : List Token} (h : ts.IsChain fun t u ↦ u.start = t.stop) :
    Adjacent (pieces ts) := by
  induction ts with
  | nil => exact .nil
  | cons t ts ih =>
    have hbehind := ih h.tail
    rw [pieces]
    split
    next => exact hbehind
    next =>
      refine List.isChain_cons.mpr ⟨fun q hq hspaced ↦ ?_, hbehind⟩
      cases ts with
      | nil => cases hq
      | cons u us =>
        have hu : u.isTrivia = false := hspaced
        rw [pieces, if_neg (by simp [hu])] at hq
        cases hq
        exact h.rel

theorem adjacent_ofText (text : String) : Adjacent (pieces (Tokens.ofText text).tokens) :=
  adjacent_pieces (isChain_place 0 _)

def textOf (ps : List Piece) : List Char := ps.flatMap (·.text.toList)

theorem extentOf_cons_cons (p q : Piece) (ps : List Piece) :
    extentOf (p :: q :: ps) = ⟨p.token.start, (extentOf (q :: ps)).stop⟩ := by
  rw [extentOf, extentOf, List.getLast?_cons_cons]
  rfl

open Grammar (Atom Fields)

/-- All pieces in a chain of fields are fields. -/
theorem kind_of_mem_fields {before after : Bool} {fs : List Piece} (h : Fields before fs after)
    {f : Piece} (hf : f ∈ fs) : f.kind = .field := by
  induction h with
  | nil => exact absurd hf List.not_mem_nil
  | cons hkind _ ih =>
    rcases List.mem_cons.mp hf with rfl | hf
    · exact hkind
    · exact ih hf

/-- A piece with the fields attached to it is one stretch of the text. -/
theorem covers_extentOf {text : List Char} {p : Piece} {fs : List Piece} {spaced : Bool}
    (hfields : Fields p.spaced fs spaced) (hadjacent : Adjacent (p :: fs))
    (hcovers : ∀ q ∈ p :: fs, q.token.span.Covers text q.text.toList) :
    (extentOf (p :: fs)).Covers text (textOf (p :: fs)) := by
  generalize hb : p.spaced = b at hfields
  induction hfields generalizing p with
  | nil =>
    rw [textOf, List.flatMap_singleton]
    exact hcovers p List.mem_cons_self
  | @cons f fs spaced _ _ ih =>
    obtain ⟨hnext, hadjacent⟩ := List.isChain_cons_cons.mp hadjacent
    obtain ⟨hp, hcovers⟩ := List.forall_mem_cons.mp hcovers
    rw [extentOf_cons_cons]
    exact hp.append (ih hadjacent hcovers rfl) (hnext hb)

/-- The operand is spelled by some of the pieces. -/
def IsWithin (ps : List Piece) (o : Operand) : Prop :=
  ∃ depth mid c spaced, mid <:+: ps ∧ Spelling.Operand depth mid c spaced o

/-- The operands are spelled by some of the pieces each. -/
def AllWithin (ps : List Piece) (os : List Operand) : Prop := ∀ o ∈ os, IsWithin ps o

/-- Operands spelled by some pieces are spelled by more of them. -/
theorem AllWithin.mono {ps qs : List Piece} {os : List Operand} (h : AllWithin ps os)
    (hsub : ps <:+: qs) : AllWithin qs os := by
  intro o ho
  obtain ⟨depth, mid, c, spaced, hmid, hspells⟩ := h o ho
  exact ⟨depth, mid, c, spaced, hmid.trans hsub, hspells⟩

theorem allWithin_nil {ps : List Piece} : AllWithin ps [] := fun _ h ↦ absurd h List.not_mem_nil

theorem AllWithin.append {ps qs : List Piece} {os os' : List Operand} (h : AllWithin ps os)
    (h' : AllWithin qs os') : AllWithin (ps ++ qs) (os ++ os') :=
  List.forall_mem_append.mpr ⟨h.mono (List.prefix_append ps qs).isInfix,
    h'.mono (List.suffix_append ps qs).isInfix⟩

theorem AllWithin.behind {qs : List Piece} {os : List Operand} (h : AllWithin qs os)
    (ps : List Piece) : AllWithin (ps ++ qs) os := h.mono (List.suffix_append ps qs).isInfix

theorem AllWithin.before {ps : List Piece} {os : List Operand} (h : AllWithin ps os)
    (qs : List Piece) : AllWithin (ps ++ qs) os := h.mono (List.prefix_append ps qs).isInfix

namespace Spelling

open AlertAudit.Template.Parser (OperandClass)

theorem operands_atom (t : Token) (span : Span) (fields : List Token) :
    (Template.Operand.mk (termOf t) span fields).operands =
      [.mk (termOf t) span fields] := by
  unfold termOf
  split <;> rw [Operand.operands]
  all_goals exact nofun

mutual

/-- The operands in an operand are spelled by its pieces. -/
theorem within_operand {depth : Nat} {ps : List Piece} {c : OperandClass} {spaced : Bool}
    {o : Template.Operand} : Operand depth ps c spaced o → AllWithin ps o.operands
  | .atom hatom hfields hclass => by
    rw [operands_atom]
    exact List.forall_mem_singleton.mpr
      ⟨depth, _, _, _, List.infix_rfl, .atom hatom hfields hclass⟩
  | @Operand.paren depth left right ps fs _ _ hleft hpipeline hright hfields => by
    rw [Operand.operands]
    refine List.forall_mem_cons.mpr
      ⟨⟨_, _, _, _, List.infix_rfl, .paren hleft hpipeline hright hfields⟩, ?_⟩
    exact ((within_pipeline hpipeline).behind [left]).before (right :: fs)

theorem within_command {depth : Nat} {ps : List Piece} {c : OperandClass}
    {os : List Template.Operand} : Command depth ps c os → AllWithin ps (operandsOperands os)
  | .last hoperand => by
    rw [operandsOperands, operandsOperands, List.append_nil]
    exact within_operand hoperand
  | .more hoperand hcommand => by
    rw [operandsOperands]
    exact (within_operand hoperand).append (within_command hcommand)

theorem within_stages {depth : Nat} {ps : List Piece} {cs : List (List Template.Operand)} :
    Stages depth ps cs → AllWithin ps (commandsOperands cs)
  | .nil | .bar _ => allWithin_nil
  | @Stages.cons _ bar _ _ _ _ _ hcommand hstages => by
    rw [commandsOperands]
    exact ((within_command hcommand).behind [bar]).append (within_stages hstages)

/-- The operands in a pipeline are spelled by its pieces. -/
theorem within_pipeline {depth : Nat} {inRange : Bool} {ps : List Piece} {pl : Template.Pipeline} :
    Pipeline depth inRange ps pl → AllWithin ps pl.operands
  | .mk _ hcommand _ hstages => by
    rw [Pipeline.operands, commandsOperands]
    exact ((within_command hcommand).behind _).append (within_stages hstages)

end

mutual

/-- The operands in an item are spelled by its pieces. -/
theorem within_item {inLoop : Bool} {ps : List Piece} {is : List Template.Item} :
    Item inLoop ps is → AllWithin ps (itemsOperands is)
  | .text _ | .comment _ | .breaks _ | .continues _ => allWithin_nil
  | @Item.action _ left right _ _ _ hheader _ => by
    rw [itemsOperands, itemsOperands, Item.operands, List.append_nil]
    exact ((within_pipeline hheader).behind [left]).before [right]
  | .guarded _ hguarded => by
    rw [itemsOperands, itemsOperands, List.append_nil]
    exact (within_guarded hguarded).behind _
  | @Item.block _ start _ _ _ name right _ _ _ _ hheader _ hitems _ => by
    rw [itemsOperands, itemsOperands, Item.operands, Body.operands, List.append_nil]
    have hfront := ((within_pipeline hheader).behind [name]).behind start
    exact (hfront.append ((within_items hitems).behind [right])).before _
  | .call _ _ _ => by
    rw [itemsOperands, itemsOperands, Item.operands, List.append_nil]
    exact allWithin_nil
  | @Item.callWith _ _ _ name _ _ _ _ hheader _ => by
    rw [itemsOperands, itemsOperands, Item.operands, List.append_nil]
    exact (((within_pipeline hheader).behind [name]).behind _).before _

theorem within_guarded {inLoop : Bool} {kind : Control} {ps : List Piece} {i : Template.Item} :
    Guarded inLoop kind ps i → AllWithin ps i.operands
  | @Guarded.mk _ _ right _ _ _ _ _ _ hheader _ hitems htail => by
    rw [Item.operands, Body.operands]
    exact ((within_pipeline hheader).append ((within_items hitems).behind [right])).append
      (within_tail htail)

theorem within_tail {inLoop : Bool} {kind : Control} {ps : List Piece} {o : Template.Otherwise} :
    Tail inLoop kind ps o → AllWithin ps o.operands
  | .close _ => allWithin_nil
  | .otherwise _ hitems _ => by
    rw [Otherwise.operands, Body.operands]
    exact ((within_items hitems).behind _).before _
  | @Tail.chained _ _ _ _ w _ _ _ _ hguarded => by
    rw [Otherwise.operands]
    exact ((within_guarded hguarded).behind [w]).behind _

theorem within_items {inLoop : Bool} {ps : List Piece} {is : List Template.Item} :
    Items inLoop ps is → AllWithin ps (itemsOperands is)
  | .nil => allWithin_nil
  | .cons hitem hitems => by
    rw [itemsOperands_append]
    exact (within_item hitem).append (within_items hitems)

end

theorem within_definition {ps : List Piece} {i : Template.Item} (h : Definition ps i) :
    AllWithin ps i.operands := by
  cases h with
  | @mk _ _ _ name right _ _ _ _ hitems _ =>
    rw [Item.operands, Body.operands]
    exact ((within_items hitems).behind [name, right]).behind _ |>.before _

/-- Each operand in a template is spelled by some of its pieces. -/
theorem within_template {ps : List Piece} {is : List Template.Item} (h : Root ps is) :
    AllWithin ps (itemsOperands is) := by
  induction h with
  | nil => exact allWithin_nil
  | definition hdefinition _ ih =>
    rw [itemsOperands]
    exact (within_definition hdefinition).append ih
  | item hitem _ ih =>
    rw [itemsOperands_append]
    exact (within_item hitem).append ih

end Spelling

/-! ### Mentions in a text -/

/-- The mention is at these characters of the text, and it is on their line. -/
def Mention.At (text : List Char) (m : Mention) (chars : List Char) : Prop :=
  ∃ before after, text = before ++ chars ++ after ∧
    m.span = ⟨utf8Length before, utf8Length (before ++ chars)⟩ ∧ m.line = before.count '\n'

/-- A mention is at the characters that its span covers. -/
theorem Mention.OnLine.at_of_covers {text chars : List Char} {m : Mention} (h : m.OnLine text)
    (hcovers : m.span.Covers text chars) : m.At text chars := by
  obtain ⟨before, after, rfl, hspan⟩ := hcovers
  refine ⟨before, after, rfl, hspan, ?_⟩
  rw [h, hspan, List.append_assoc, lineAt_utf8Length]

/-- A function operand is named by its only token. -/
theorem eq_of_termOf_function {t name : Token} (h : termOf t = .function (some name)) :
    name = t := by
  unfold termOf at h
  split at h <;> cases h
  rfl

/-- A literal operand holds its only token. -/
theorem eq_of_termOf_literal {t key : Token} (h : termOf t = .literal (some key)) : key = t := by
  unfold termOf at h
  split at h <;> cases h
  rfl

/-- The dot and the names start with a mark of their own. -/
theorem exists_mark_of_isDirect {t : Token} (h : Reading.isDirect (termOf t)) :
    ∃ mark, t.kind.mark? = some mark ∧ (mark = '$' ∨ mark = '.') := by
  unfold termOf at h
  split at h
  next => exact absurd h Bool.false_ne_true
  next hkind => exact ⟨'$', by rw [hkind, TokenKind.mark?], .inl rfl⟩
  next hkind => exact ⟨'.', by rw [hkind, TokenKind.mark?], .inr rfl⟩
  next hkind => exact ⟨'.', by rw [hkind, TokenKind.mark?], .inr rfl⟩
  next => exact absurd h Bool.false_ne_true

section Pieces

variable {ps : List Piece} {term : Term} {span : Span} {fields : List Token}

/-- An operand without parentheses is a piece with the fields attached to it. -/
theorem IsWithin.exists_pieces (h : IsWithin ps (.mk term span fields))
    (hterm : ∀ p, term ≠ .paren p) : ∃ p fs spaced c, p :: fs <:+: ps ∧ Atom [p.text] p c ∧
      Fields p.spaced fs spaced ∧ (fs ≠ [] → c = .executable) ∧ term = termOf p.token ∧
      span = extentOf (p :: fs) := by
  obtain ⟨depth, mid, c, spaced, hmid, hspells⟩ := h
  cases hspells with
  | atom hatom hfields hclass => exact ⟨_, _, _, _, hmid, hatom, hfields, hclass, rfl, rfl⟩
  | paren _ _ _ _ => exact absurd rfl (hterm _)

/-- The fields of an operand are among the pieces. -/
theorem IsWithin.mem_fieldsOf (h : IsWithin ps (.mk term span fields)) {f : Token}
    (hf : f ∈ fields) : f ∈ tokensOf ps ∧ f.kind = .field := by
  have hsub {qs : List Piece} (hqs : qs <:+: ps) (hf : f ∈ fieldsOf qs) :
      f ∈ tokensOf ps ∧ f.kind = .field := by
    obtain ⟨hmem, hkind⟩ := List.mem_filter.mp hf
    exact ⟨(hqs.map _).mem hmem, of_decide_eq_true hkind⟩
  obtain ⟨depth, mid, c, spaced, hmid, hspells⟩ := h
  cases hspells with
  | atom _ _ _ => exact hsub hmid hf
  | @paren _ left right qs fs _ _ _ _ _ _ =>
    have hsuffix : fs <:+ left :: qs ++ right :: fs :=
      (List.suffix_cons right fs).trans (List.suffix_append _ _)
    exact hsub (hsuffix.isInfix.trans hmid) hf

end Pieces

/-- The tokens of pieces are tokens of the text. -/
theorem mem_tokens_of_mem_tokensOf {ts : List Token} {t : Token} (h : t ∈ tokensOf (pieces ts)) :
    t ∈ ts := by
  obtain ⟨p, hp, rfl⟩ := List.mem_map.mp h
  exact mem_of_mem_pieces hp

section Template

variable {text : String} {term : Term} {span : Span} {fields : List Token}

/-- A function is called by its name. -/
theorem mem_tokens_of_function {name : Token}
    (h : IsWithin (pieces (Tokens.ofText text).tokens) (.mk (.function (some name)) span fields)) :
    name ∈ (Tokens.ofText text).tokens := by
  obtain ⟨p, fs, spaced, c, hpart, -, -, -, hterm, -⟩ := h.exists_pieces fun _ ↦ nofun
  rw [eq_of_termOf_function hterm.symm]
  exact mem_of_mem_pieces (hpart.mem List.mem_cons_self)

/-- An operand that is a string has no fields and covers its token. -/
theorem span_of_string {key : Token} {name : String}
    (h : IsWithin (pieces (Tokens.ofText text).tokens) (.mk (.literal (some key)) span fields))
    (hkey : key.stringValue? = some name) :
    key ∈ (Tokens.ofText text).tokens ∧ key.span = span := by
  obtain ⟨p, fs, spaced, c, hpart, hatom, -, hclass, hterm, rfl⟩ := h.exists_pieces fun _ ↦ nofun
  obtain rfl := eq_of_termOf_literal hterm.symm
  have hnames : p.token.kind.namesTemplate := by
    by_contra hnames
    rw [Token.stringValue?, if_neg hnames] at hkey
    exact absurd hkey nofun
  have hfs : fs = [] := by
    by_contra hne
    cases hclass hne
    cases hatom with
    | function hkind | inScope hkind | field hkind =>
      rw [Piece.kind] at hkind
      rw [hkind] at hnames
      exact Bool.false_ne_true hnames
  subst hfs
  exact ⟨mem_of_mem_pieces (hpart.mem List.mem_cons_self), rfl⟩

/-- The name of a field is what is behind its dot. -/
theorem fieldName_eq {f : Token} {word : List Char} (hf : f.text.toList = '.' :: word)
    (hword : ∀ c ∈ word, Scan.isWordChar c) : Reading.fieldName f = String.ofList word := by
  have hdots : word.dropWhile (· = '.') = word := by
    cases word with
    | nil => rfl
    | cons c word =>
      refine List.dropWhile_cons_of_neg ?_
      intro hdot
      obtain rfl : c = '.' := of_decide_eq_true hdot
      exact absurd (hword '.' List.mem_cons_self) (by decide)
  rw [Reading.fieldName, hf, List.dropWhile_cons_of_pos rfl, hdots]

/-- Letters, digits and the underscore lie between `0` and `z`. -/
theorem toNat_of_isWordChar {c : Char} (h : Scan.isWordChar c) :
    0x30 ≤ c.toNat ∧ c.toNat ≤ 0x7A := by
  have hbetween {a z : Char} (ha : 0x30 ≤ a.toNat) (hz : z.toNat ≤ 0x7A) (hca : a.val ≤ c.val)
      (hcz : c.val ≤ z.val) : 0x30 ≤ c.toNat ∧ c.toNat ≤ 0x7A :=
    ⟨le_trans ha (UInt32.le_iff_toNat_le.mp hca), le_trans (UInt32.le_iff_toNat_le.mp hcz) hz⟩
  obtain hword | hunderscore := Bool.or_eq_true_iff.mp h
  · obtain hletter | hdigit := Bool.or_eq_true_iff.mp hword
    · obtain hupper | hlower := Bool.or_eq_true_iff.mp hletter
      · obtain ⟨hfirst, hlast⟩ := of_decide_eq_true hupper
        exact hbetween (by decide) (by decide) hfirst hlast
      · obtain ⟨hfirst, hlast⟩ := Bool.and_eq_true_iff.mp hlower
        exact hbetween (by decide) (by decide) (of_decide_eq_true hfirst) (of_decide_eq_true hlast)
    · obtain ⟨hfirst, hlast⟩ := Bool.and_eq_true_iff.mp hdigit
      exact hbetween (by decide) (by decide) (of_decide_eq_true hfirst) (of_decide_eq_true hlast)
  · obtain rfl : c = '_' := of_decide_eq_true hunderscore
    decide

/-- No white space stands in a word. -/
theorem isBlank_of_isWordChar {c : Char} (h : Scan.isWordChar c) : isBlank c = false := by
  have hrange := toNat_of_isWordChar h
  simp [isBlank]
  omega

/-- The dot or a name with its fields is one stretch of the text, without white space. -/
theorem exists_chars_of_isDirect (h : IsWithin (pieces (Tokens.ofText text).tokens)
    (.mk term span fields)) (hdirect : Reading.isDirect term) : ∃ chars,
      span.Covers text.toList chars ∧ (chars.head? = some '$' ∨ chars.head? = some '.') ∧
        ∀ c ∈ chars, isBlank c = false := by
  obtain ⟨p, fs, spaced, c, hpart, -, hfields, -, rfl, rfl⟩ :=
    h.exists_pieces (by rintro p rfl; exact Bool.false_ne_true hdirect)
  obtain ⟨mark, hmark, hchar⟩ := exists_mark_of_isDirect hdirect
  have hmem {q : Piece} (hq : q ∈ p :: fs) : q.token ∈ (Tokens.ofText text).tokens :=
    mem_of_mem_pieces (hpart.mem hq)
  have hadjacent : Adjacent (p :: fs) := by
    obtain ⟨front, back, hall⟩ := hpart
    have hpieces := adjacent_ofText text
    rw [← hall] at hpieces
    exact List.IsChain.right_of_append (List.IsChain.left_of_append hpieces)
  refine ⟨_, covers_extentOf hfields hadjacent fun q hq ↦ covers_token (hmem hq), ?_, ?_⟩
  · obtain ⟨word, hword, -⟩ := exists_word (hmem List.mem_cons_self) hmark
    rw [textOf, List.flatMap_cons, Piece.text, hword, List.cons_append, List.head?_cons]
    exact hchar.imp (congrArg some) (congrArg some)
  · have hplain {q : Piece} (hq : q ∈ p :: fs) {mark : Char} (hmark : q.kind.mark? = some mark)
        (hblank : isBlank mark = false) {c : Char} (hc : c ∈ q.text.toList) :
        isBlank c = false := by
      obtain ⟨word, hword, hchars⟩ := exists_word (hmem hq) hmark
      rw [Piece.text, hword] at hc
      rcases List.mem_cons.mp hc with rfl | hc
      · exact hblank
      · exact isBlank_of_isWordChar (hchars _ hc)
    intro c hc
    obtain ⟨q, hq, hcq⟩ := List.mem_flatMap.mp hc
    rcases List.mem_cons.mp hq with rfl | hfs
    · exact hplain hq hmark (by rcases hchar with rfl | rfl <;> rfl) hcq
    · exact hplain hq (congrArg TokenKind.mark? (kind_of_mem_fields hfields hfs)) rfl hcq

/-- The characters name a label: they are a field, or a string that stands for the name. -/
def NamesLabel (text : String) (m : Mention) (chars : List Char) : Prop :=
  chars = '.' :: m.name.toList ∨ ∃ t ∈ (Tokens.ofText text).tokens,
    t.span = m.span ∧ t.text.toList = chars ∧ t.stringValue? = some m.name

/-- A label that some operands name has its name in the text. -/
theorem exists_namesLabel {m : Mention} {os : List Operand}
    (hos : AllWithin (pieces (Tokens.ofText text).tokens) os)
    (h : FieldNames os m ∨ LiteralNames os m) :
    ∃ chars, m.span.Covers text.toList chars ∧ NamesLabel text m chars := by
  rcases h with ⟨term, span, fields, hmem, f, hf, hname, hspan⟩ | ⟨key, fields, hmem, hkey⟩
  · obtain ⟨hf, hkind⟩ := (hos _ hmem).mem_fieldsOf hf
    replace hf := mem_tokens_of_mem_tokensOf hf
    obtain ⟨word, hword, hchars⟩ := exists_word hf (congrArg TokenKind.mark? hkind)
    refine ⟨f.text.toList, hspan ▸ covers_token hf, .inl ?_⟩
    rw [hword, hname, fieldName_eq hword hchars, String.toList_ofList]
  · obtain ⟨hmem, hspan⟩ := span_of_string (hos _ hmem) hkey
    exact ⟨key.text.toList, hspan ▸ covers_token hmem, .inr ⟨key, hmem, hspan, rfl, hkey⟩⟩

/-- What an accepted template mentions is where it says: a call is at its name, a label at the field
or the string that names it, and a read of the sample value at the whole of an operand that starts
with `$` or `.` and has no white space. -/
theorem placed_reads (h : (Parse.ofText text).error = none) :
    ∃ reads, Reads.ofText text = .ok reads ∧
      (∀ m ∈ reads.calls, m.At text.toList m.name.toList) ∧
      (∀ m ∈ reads.labels, ∃ chars, m.At text.toList chars ∧ NamesLabel text m chars) ∧
      ∀ v ∈ reads.values, ∃ chars, v.At text.toList chars ∧
        (∃ term fields, .mk term v.span fields ∈ itemsOperands (Parse.ofText text).tree.items) ∧
        (chars.head? = some '$' ∨ chars.head? = some '.') ∧ ∀ c ∈ chars, isBlank c = false := by
  have hwithin := Spelling.within_template (spells_of_accepted h).1
  rw [itemsOperands_bareItems] at hwithin
  obtain ⟨-, r, hreads, hcalls, hlabels, hvalues⟩ :=
    Reading.gathers_items (Parse.ofText text).tree.items (.start text)
  obtain rfl : _ = r := hreads
  refine ⟨_, by rw [Reads.ofText, h], fun m hm ↦ ?_, fun m hm ↦ ?_, fun v hv ↦ ?_⟩
  · obtain ⟨name, span, fields, hmem, rfl⟩ := hcalls m hm
    have hname := mem_tokens_of_function (hwithin _ hmem)
    exact Mention.OnLine.at_of_covers rfl (covers_token hname)
  · obtain ⟨hline, hnames⟩ := hlabels m hm
    obtain ⟨chars, hcovers, hnames⟩ := exists_namesLabel hwithin hnames
    exact ⟨chars, hline.at_of_covers hcovers, hnames⟩
  · obtain ⟨hline, term, fields, hdirect, hmem⟩ := hvalues v hv
    obtain ⟨chars, hcovers, hhead, hblank⟩ := exists_chars_of_isDirect (hwithin _ hmem) hdirect
    exact ⟨chars, hline.at_of_covers hcovers, ⟨term, fields, hmem⟩, hhead, hblank⟩

end Template

/-- The line `é`, and on the next one
`{{ index $labels "é" }}{{ .Labels.job }}{{ $value | len }}{{ ($.Value) }}`. -/
def mentionsBehindAccent : String :=
  "é\n\x7b\x7b index $labels \"é\" \x7d\x7d\x7b\x7b .Labels.job \x7d\x7d" ++
    "\x7b\x7b $value | len \x7d\x7d\x7b\x7b ($.Value) \x7d\x7d"

def readsBehindAccent : Reads where
  labels := [⟨"é", ⟨20, 24⟩, 1⟩, ⟨"job", ⟨37, 41⟩, 1⟩]
  values := [⟨⟨"$value", ⟨47, 53⟩, 1⟩, ["$value"]⟩, ⟨⟨"$.Value", ⟨66, 73⟩, 1⟩, ["$.Value"]⟩]
  calls := [⟨"index", ⟨6, 11⟩, 1⟩, ⟨"len", ⟨56, 59⟩, 1⟩]

set_option maxRecDepth 100000 in
/-- Behind a letter of two bytes and a line break all mentions have their places. -/
theorem placed_reads_behind_accent : (Parse.ofText mentionsBehindAccent).error = none ∧
    Reads.ofText mentionsBehindAccent = .ok readsBehindAccent ∧
      (∀ m ∈ readsBehindAccent.calls, m.At mentionsBehindAccent.toList m.name.toList) ∧
      (∀ m ∈ readsBehindAccent.labels, ∃ chars, m.At mentionsBehindAccent.toList chars ∧
        NamesLabel mentionsBehindAccent m chars) ∧
      ∀ v ∈ readsBehindAccent.values, ∃ chars, v.At mentionsBehindAccent.toList chars ∧
        (chars.head? = some '$' ∨ chars.head? = some '.') ∧ ∀ c ∈ chars, isBlank c = false := by
  have herror : (Parse.ofText mentionsBehindAccent).error = none := by decide +kernel
  have hexpected : Reads.ofText mentionsBehindAccent = .ok readsBehindAccent := by decide +kernel
  obtain ⟨reads, hreads, hcalls, hlabels, hvalues⟩ := placed_reads herror
  obtain rfl := Except.ok.inj (hexpected.symm.trans hreads)
  refine ⟨herror, hexpected, hcalls, hlabels, fun v hv ↦ ?_⟩
  obtain ⟨chars, hat, -, hhead, hblank⟩ := hvalues v hv
  exact ⟨chars, hat, hhead, hblank⟩

end AlertAudit.Template
