import AlertAudit.Proofs.Template.Grammar
import AlertAudit.Proofs.Template.TokenStream

/-!
Text that could not be read. Where the scan of a template ends early, a token stands for the rest of
the text, and no rule of the grammar has a place for a token of its kind. Whether or not the scan
ends early, white space is never the last token.
-/

set_option autoImplicit false

namespace AlertAudit.Template

/-! ### The rules -/

namespace Grammar

/-- No piece stands for text that could not be read. -/
def Legal (ps : List Piece) : Prop := ∀ p ∈ ps, p.kind ≠ .lexError

@[simp]
theorem legal_nil : Legal [] := fun _ h ↦ absurd h List.not_mem_nil

/-- Pieces are legal if each of them is. -/
@[simp]
theorem legal_cons {p : Piece} {ps : List Piece} :
    Legal (p :: ps) ↔ p.kind ≠ .lexError ∧ Legal ps := List.forall_mem_cons

@[simp]
theorem legal_append {ps qs : List Piece} : Legal (ps ++ qs) ↔ Legal ps ∧ Legal qs :=
  List.forall_mem_append

/-- An operand of one token is legal. -/
theorem Atom.legal {vars : List String} {p : Piece} {c : Parser.OperandClass}
    (h : Atom vars p c) : p.kind ≠ .lexError := by
  cases h with
  | function hkind _ | inScope hkind _ | char hkind _ => simp [hkind]
  | field hkind | dot hkind | nil hkind | number hkind | bool hkind => simp [hkind]
  | string hkind _ => rcases hkind with hkind | hkind <;> simp [hkind]

/-- Fields are legal. -/
theorem Fields.legal {before after : Bool} {ps : List Piece} (h : Fields before ps after) :
    Legal ps := by
  induction h with
  | nil => exact legal_nil
  | cons hkind _ ih => simp [hkind, ih]

/-- Declarations are legal. -/
theorem Declares.legal {inRange : Bool} {vars vars' : List String} {next : Option TokenKind}
    {ps : List Piece} (h : Declares inRange vars next ps vars') : Legal ps := by
  have hmark : ∀ {mark : Piece}, mark.kind = .declare ∨ mark.kind = .assign →
      mark.kind ≠ .lexError := by
    intro mark hkind
    rcases hkind with hkind | hkind <;> simp [hkind]
  cases h with
  | none => exact legal_nil
  | one hv hkind => simp [hv, hmark hkind]
  | two _ hv hcomma hw hkind => simp [hv, hcomma, hw, hmark hkind]
  | index _ hv hcomma _ => simp [hv, hcomma]

mutual

/-- Operands are legal. -/
theorem Operand.legal {depth : Nat} {vars vars' : List String} {ps : List Piece}
    {c : Parser.OperandClass} {spaced : Bool} : Operand depth vars ps c spaced vars' → Legal ps
  | .atom hatom hfields _ => by simp [hatom.legal, hfields.legal]
  | .paren hleft hpipeline hright hfields => by
    simp [hleft, hpipeline.legal, hright, hfields.legal]

/-- Commands are legal. -/
theorem Command.legal {depth : Nat} {vars vars' : List String} {ps : List Piece}
    {c : Parser.OperandClass} : Command depth vars ps c vars' → Legal ps
  | .last hoperand => hoperand.legal
  | .more hoperand hcommand => legal_append.mpr ⟨hoperand.legal, hcommand.legal⟩

theorem Stages.legal {depth : Nat} {vars vars' : List String} {ps : List Piece} :
    Stages depth vars ps vars' → Legal ps
  | .nil => legal_nil
  | .bar hbar => by simp [hbar]
  | .cons hbar hcommand hstages => by simp [hbar, hcommand.legal, hstages.legal]

/-- Pipelines are legal. -/
theorem Pipeline.legal {depth : Nat} {inRange : Bool} {vars vars' : List String}
    {ps : List Piece} : Pipeline depth inRange vars ps vars' → Legal ps
  | .mk hdeclares hcommand _ hstages => by
    simp [hdeclares.legal, hcommand.legal, hstages.legal]

end

theorem Opens.legal {word : Keyword} {ps : List Piece} (h : Opens word ps) : Legal ps := by
  obtain ⟨left, w, rfl, hleft, hw⟩ := h
  simp [hleft, hw]

theorem Marks.legal {word : Keyword} {ps : List Piece} (h : Marks word ps) : Legal ps := by
  obtain ⟨left, w, right, rfl, hleft, hw, hright⟩ := h
  simp [hleft, hw, hright]

/-- The name of a template is legal. -/
theorem kind_ne_of_names {p : Piece} (h : p.Names) : p.kind ≠ .lexError := by
  intro hkind
  have hnames := h.1
  rw [hkind] at hnames
  exact absurd hnames (by decide)

mutual

/-- Items are legal. -/
theorem Item.legal {inLoop : Bool} {vars vars' : List String} {ps : List Piece} :
    Item inLoop vars ps vars' → Legal ps
  | .text hkind => by simp [hkind]
  | .comment hkind => by simp [hkind]
  | .action hleft hheader hright => by simp [hleft, hheader.legal, hright]
  | .guarded hopens hguarded => legal_append.mpr ⟨hopens.legal, hguarded.legal⟩
  | .block hopens hnames hheader hright hitems hmarks => by
    simp [hopens.legal, kind_ne_of_names hnames, hheader.legal, hright, hitems.legal, hmarks.legal]
  | .call hopens hnames hright => by simp [hopens.legal, kind_ne_of_names hnames, hright]
  | .callWith hopens hnames hheader hright => by
    simp [hopens.legal, kind_ne_of_names hnames, hheader.legal, hright]
  | .breaks hmarks => hmarks.legal
  | .continues hmarks => hmarks.legal

theorem Guarded.legal {inLoop : Bool} {kind : Control} {vars : List String} {ps : List Piece} :
    Guarded inLoop kind vars ps → Legal ps
  | .mk hheader hright hitems htail => by
    simp [hheader.legal, hright, hitems.legal, htail.legal]

theorem Tail.legal {inLoop : Bool} {kind : Control} {vars : List String} {ps : List Piece} :
    Tail inLoop kind vars ps → Legal ps
  | .close hmarks => hmarks.legal
  | .otherwise hmarks hitems hclose => by simp [hmarks.legal, hitems.legal, hclose.legal]
  | .chained _ hopens hkind hguarded => by simp [hopens.legal, hkind, hguarded.legal]

theorem Items.legal {inLoop : Bool} {vars vars' : List String} {ps : List Piece} :
    Items inLoop vars ps vars' → Legal ps
  | .nil => legal_nil
  | .cons hitem hitems => legal_append.mpr ⟨hitem.legal, hitems.legal⟩

end

theorem Definition.legal {ps : List Piece} (h : Definition ps) : Legal ps := by
  cases h with
  | mk hopens hnames hright hitems hclose =>
    simp [hopens.legal, kind_ne_of_names hnames, hright, hitems.legal, hclose.legal]

/-- Each piece of a template of the grammar is legal. -/
theorem legal_of_template {vars : List String} {ps : List Piece} (h : Root vars ps) :
    Legal ps := by
  induction h with
  | nil => exact legal_nil
  | definition hdefinition _ ih => exact legal_append.mpr ⟨hdefinition.legal, ih⟩
  | item hitem _ ih => exact legal_append.mpr ⟨hitem.legal, ih⟩

end Grammar

/-! ### The scan -/

/-- The last lexeme, if there is one, is no white space. -/
def Solid (ls : List Lexeme) : Prop := ∀ last ∈ ls.getLast?, last.kind ≠ .whitespace

theorem solid_nil : Solid [] := fun _ h ↦ absurd h nofun

/-- A lexeme that is no white space may come last. -/
theorem Solid.cons {ls : List Lexeme} (h : Solid ls) {kind : TokenKind} (hkind : kind ≠ .whitespace)
    (chars : List Char) : Solid (⟨kind, chars⟩ :: ls) := by
  intro last hlast
  cases ls with
  | nil =>
    obtain rfl := Option.some.inj hlast
    exact hkind
  | cons l ls => exact h last hlast

/-- What ends solid does so whatever stands in front. -/
theorem Solid.behind {ls : List Lexeme} (hne : ls ≠ []) (h : Solid ls) (front : List Lexeme) :
    Solid (front ++ ls) := by
  intro last hlast
  rw [List.getLast?_append_of_ne_nil _ hne] at hlast
  exact h last hlast

/-- A template ends with a text, a comment, the end of an action or what could not be read. -/
theorem Stream.solid {error : Option ScanError} {ls : List Lexeme} (h : Stream error ls) :
    Solid ls := by
  induction h with
  | nil => exact solid_nil
  | text _ _ _ ih | comment _ ih => exact ih.cons (by decide) _
  | action _ _ _ ih => exact (ih.cons (by decide) _).behind (List.cons_ne_nil _ _) _
  | failed => exact solid_nil.cons (by decide) _
  | failedAction => exact (solid_nil.cons (by decide) _).behind (List.cons_ne_nil _ _) _

/-! ### Tokens -/

theorem map_kind_place (start : Nat) (lexemes : List Lexeme) :
    (Token.place start lexemes).map (·.kind) = lexemes.map (·.kind) := by
  induction lexemes generalizing start with
  | nil => rfl
  | cons l ls ih => rw [Token.place, List.map_cons, List.map_cons, ih]

/-- The kinds of the tokens are those of the lexemes. -/
theorem map_kind_tokens (text : String) : (Tokens.ofText text).tokens.map (·.kind) =
    (Scan.scanText text.toList).lexemes.map (·.kind) := map_kind_place 0 _

/-- The last token of a template is no white space. -/
theorem isTrivia_getLast?_tokens (text : String) :
    ∀ last ∈ (Tokens.ofText text).tokens.getLast?, last.isTrivia = false := by
  intro last hlast
  have hkind : ((Scan.scanText text.toList).lexemes.map (·.kind)).getLast? = some last.kind := by
    rw [← map_kind_tokens, List.getLast?_map, hlast, Option.map_some]
  rw [List.getLast?_map] at hkind
  obtain ⟨l, hl, hkind⟩ := Option.map_eq_some_iff.mp hkind
  have hsolid := (stream_scanText text.toList).solid l hl
  rw [hkind] at hsolid
  exact decide_eq_false hsolid

/-- If a template cannot be read to its end, one of its tokens says so. -/
theorem exists_lexError_of_error {text : String} (h : (Tokens.ofText text).error ≠ none) :
    ∃ t ∈ (Tokens.ofText text).tokens, t.kind = .lexError := by
  have hsome : (Tokens.ofText text).error.isSome := Option.isSome_iff_ne_none.mpr h
  rw [error_ofText] at hsome
  obtain ⟨l, hl, hkind⟩ := (stream_scanText text.toList).isSome_iff.mp hsome
  have hmem : TokenKind.lexError ∈ (Tokens.ofText text).tokens.map (·.kind) := by
    rw [map_kind_tokens]
    exact List.mem_map.mpr ⟨l, hl, hkind⟩
  exact List.mem_map.mp hmem

/-- Each token that is no white space is a piece. -/
theorem exists_mem_pieces {ts : List Token} {t : Token} (h : t ∈ ts) (ht : t.isTrivia = false) :
    ∃ p ∈ pieces ts, p.token = t := by
  induction ts with
  | nil => exact absurd h List.not_mem_nil
  | cons u ts ih =>
    rw [pieces]
    rcases List.mem_cons.mp h with rfl | h
    · rw [ht, if_neg Bool.false_ne_true]
      exact ⟨_, List.mem_cons_self, rfl⟩
    · obtain ⟨p, hp, hpt⟩ := ih h
      split
      · exact ⟨p, hp, hpt⟩
      · exact ⟨p, List.mem_cons_of_mem _ hp, hpt⟩

/-- Where all pieces are legal, the template has been read to its end. -/
theorem error_eq_none_of_legal {text : String}
    (h : Grammar.Legal (pieces (Tokens.ofText text).tokens)) :
    (Tokens.ofText text).error = none := by
  refine Classical.byContradiction fun herror ↦ ?_
  obtain ⟨t, ht, hkind⟩ := exists_lexError_of_error herror
  have htrivia : t.isTrivia = false := by
    rw [Token.isTrivia, hkind]
    rfl
  obtain ⟨p, hp, rfl⟩ := exists_mem_pieces ht htrivia
  exact h p hp hkind

end AlertAudit.Template
