import AlertAudit.Proofs.Template.Literals
import AlertAudit.Proofs.Template.Outlines
import AlertAudit.Proofs.Template.Readings
import AlertAudit.Proofs.Template.Seam
import AlertAudit.Proofs.Template.TokenStream

/-!
Lookups of a label by a literal. A template that spells a well-scoped outline is accepted and reads
what the outline reads (`reads_of_spells`), so it is enough to know its tokens. Those of `index`, of
the labels and of a literal are read one by one (`scanAction_of_readsAs`): what the literal holds,
such as a delimiter or a comment, plays no part in where it ends. And to read `index` with the
labels and a string is to read the label of that name (`Reading.reads_index`).
-/

set_option autoImplicit false

namespace AlertAudit.Template

open AlertAudit.Text Literal

/-! ### Actions token by token -/

namespace Scan

/-- Lexemes other than parentheses, each of which is read in front of the next ones and `rest`. -/
inductive ReadsAs : List Lexeme → List Char → Prop
  | nil {rest : List Char} : ReadsAs [] rest
  | cons {kind : TokenKind} {c : Char} {cs rest : List Char} {ls : List Lexeme} :
    rightDelim? (c :: (cs ++ (charsOf ls ++ rest))) = none →
    read c (cs ++ (charsOf ls ++ rest)) = .ok (kind, cs.length) →
    kind ≠ .parenOpen ∧ kind ≠ .parenClose → missingTerminator? kind (charsOf ls ++ rest) = none →
    ReadsAs ls rest → ReadsAs (⟨kind, c :: cs⟩ :: ls) rest

theorem scanAction_of_readsAs {ls : List Lexeme} {rest : List Char} (h : ReadsAs ls rest)
    (depth : Nat) : scanAction depth (charsOf ls ++ rest) =
      ⟨ls ++ (scanAction depth rest).lexemes, (scanAction depth rest).outcome⟩ := by
  induction h with
  | nil => rfl
  | @cons kind c cs rest ls hdelim hread hparen hterminator _ ih =>
    have hdepth : depthBehind depth kind = depth := by
      unfold depthBehind
      split
      · exact absurd rfl hparen.1
      · exact absurd rfl hparen.2
      · rfl
    rw [charsOf_cons, List.append_assoc, List.cons_append, scanAction_of_read hdelim hread
      (by simp [hparen.2]) (by rwa [List.drop_left]), List.take_left, List.drop_left, hdepth, ih]
    rfl

theorem rightDelim?_eq_none {c : Char} (hspace : isSpace c = false) (hbrace : c ≠ '}')
    (cs : List Char) : rightDelim? (c :: cs) = none := by
  unfold rightDelim?
  split
  next heq => exact absurd (List.cons.inj heq).1 hbrace
  next heq =>
    obtain ⟨rfl, -⟩ := List.cons.inj heq
    rw [hspace]
    rfl
  next => rfl

end Scan

/-! ### Readings -/

/-- What is read from a template that spells a well-scoped outline. -/
theorem reads_of_spells {text : String} {is : List Item}
    (herror : (Tokens.ofText text).error = none)
    (hspells : Spelling.Root (pieces (Tokens.ofText text).tokens) is)
    (hscoped : WellScoped (itemsVisits is prelude)) : (Parse.ofText text).error = none ∧
      Reads.ofText text = .ok (Reading.items is (.start text)).2.reads := by
  have haccepted : (Parse.ofText text).error = none :=
    (error_eq_none_iff_spells text).mpr ⟨herror, is, hspells, hscoped⟩
  refine ⟨haccepted, ?_⟩
  rw [Reads.ofText, haccepted, ← Reading.items_bareItems, bareItems_of_spells hspells hscoped]

namespace Reading

variable {s : State}

theorem operand_function (name : Token) (span : Span) (s : State) :
    operand (.mk (.function (some name)) span []) s = (.unknown, { s with
      reads.calls := s.reads.calls ++ [⟨name.text, name.span, lineAt s.text name.start⟩] }) := by
  rw [operand_eq (by simp)]
  rfl

theorem operand_variable {name : Token} (h : s.scope.lookup name.text = some .labels)
    (span : Span) : operand (.mk (.variable (some name)) span []) s = (.labels, s) := by
  have hlookup : lookup name.text s = (.labels, s) := by
    change ((s.scope.lookup name.text).getD .unknown, s) = _
    rw [h]
    rfl
  rw [operand_eq (by simp), simpleOperand, bind_apply, termResult, bind_apply, hlookup]
  rfl

theorem operand_literal (token : Option Token) (span : Span) (s : State) :
    operand (.mk (.literal token) span []) s = (.unknown, s) := by
  rw [operand_eq (by simp)]
  rfl

theorem commandResult_of_indexed {os : List Operand} {values : List Denotation} {name : String}
    {span : Span} (h : indexedLabel? os values = some (name, span)) :
    commandResult os values = (do readLabel name span; return .unknown) := by
  unfold commandResult
  rw [h]

theorem operands_cons {o : Operand} {os : List Operand} {d : Denotation} {ds : List Denotation}
    {t u : State} (h : operand o s = (d, t)) (h' : operands os t = (ds, u)) :
    operands (o :: os) s = (d :: ds, u) := by
  rw [operands, bind_apply, bind_apply, h, h']
  rfl

/-- The operands of a lookup of a label by name. -/
def indexOperands (name labels key : Token) : List Operand :=
  [.mk (.function (some name)) name.span [], .mk (.variable (some labels)) labels.span [],
    .mk (.literal (some key)) key.span []]

theorem reads_index {name labels key : Token} {v : String} (hname : name.text = "index")
    (hlabels : s.scope.lookup labels.text = some .labels) (hkey : key.stringValue? = some v) :
    (items [.action nowhere (some (.mk none [indexOperands name labels key]))] s).2.reads =
      { s.reads with
        labels := s.reads.labels ++ [⟨v, key.span, lineAt s.text key.start⟩]
        calls := s.reads.calls ++ [⟨name.text, name.span, lineAt s.text name.start⟩] } := by
  have hoperands : operands (indexOperands name labels key) s =
      ([.unknown, .labels, .unknown],
        (operand (.mk (.function (some name)) name.span []) s).2) := by
    rw [operand_function]
    exact operands_cons (operand_function _ _ _) (operands_cons
      (operand_variable (by exact hlabels) _) (operands_cons (operand_literal _ _ _) rfl))
  have hindexed : indexedLabel? (indexOperands name labels key) [.unknown, .labels, .unknown] =
      some (v, key.span) := by
    rw [indexOperands, indexedLabel?, if_pos hname, hkey, Option.map_some]
  change (commands [indexOperands name labels key] s).2.reads = _
  rw [commands, bind_apply, hoperands, bind_apply]
  dsimp only
  rw [commandResult_of_indexed hindexed, operand_function]
  rfl

end Reading

/-! ### The template -/

/-- A template that looks up a label by a literal. -/
def indexed (literal : String) : String := "\x7b\x7b index $labels " ++ literal ++ " \x7d\x7d"

/-- What stands between the delimiters. -/
def indexLexemes (kind : TokenKind) (literal : List Char) : List Lexeme :=
  [⟨.whitespace, [' ']⟩, ⟨.identifier, ['i', 'n', 'd', 'e', 'x']⟩, ⟨.whitespace, [' ']⟩,
    ⟨.variable, ['$', 'l', 'a', 'b', 'e', 'l', 's']⟩, ⟨.whitespace, [' ']⟩, ⟨kind, literal⟩,
    ⟨.whitespace, [' ']⟩]

theorem toList_indexed (kind : TokenKind) (literal : String) : (indexed literal).toList =
    '{' :: '{' :: (Scan.charsOf (indexLexemes kind literal.toList) ++ ['}', '}']) := by
  unfold indexed
  simp [indexLexemes, Scan.charsOf]

section Tokens

variable {kind : TokenKind} (hkind : kind = .str ∨ kind = .rawStr)
include hkind

theorem readsAs_index {quote : Char} {cs : List Char} (hquote : quote = '"' ∨ quote = '`')
    (hread : ∀ rest, Scan.read quote (cs ++ rest) = .ok (kind, cs.length)) :
    Scan.ReadsAs (indexLexemes kind (quote :: cs)) ['}', '}'] := by
  have hliteral : Scan.ReadsAs [⟨kind, quote :: cs⟩, ⟨.whitespace, [' ']⟩] ['}', '}'] := by
    refine .cons ?_ (hread _) ?_ ?_ (.cons rfl rfl (by decide) rfl .nil)
    · rcases hquote with rfl | rfl <;> exact Scan.rightDelim?_eq_none rfl (by decide) _
    · rcases hkind with rfl | rfl <;> decide
    · rcases hkind with rfl | rfl <;> rfl
  have hspace : Scan.ReadsAs
      [⟨.whitespace, [' ']⟩, ⟨kind, quote :: cs⟩, ⟨.whitespace, [' ']⟩] ['}', '}'] := by
    refine .cons ?_ ?_ (by decide) rfl hliteral
    · rcases hquote with rfl | rfl <;> rfl
    · rcases hquote with rfl | rfl <;> rfl
  exact .cons rfl rfl (by decide) rfl (.cons rfl rfl (by decide) rfl
    (.cons rfl rfl (by decide) rfl (.cons rfl rfl (by decide) rfl hspace)))

/-- The tokens of the template, without white space. -/
def indexPieces (kind : TokenKind) (literal : String) : List Piece :=
  [⟨⟨.leftDelim, 0, "\x7b\x7b"⟩, true⟩, ⟨⟨.identifier, 3, "index"⟩, true⟩,
    ⟨⟨.variable, 9, "$labels"⟩, true⟩, ⟨⟨kind, 17, literal⟩, true⟩,
    ⟨⟨.rightDelim, 17 + literal.utf8ByteSize + 1, "\x7d\x7d"⟩, false⟩]

theorem pieces_place_index (literal : String) : pieces (Token.place 0
    (⟨.leftDelim, ['{', '{']⟩ :: indexLexemes kind literal.toList ++
      [⟨.rightDelim, ['}', '}']⟩])) = indexPieces kind literal := by
  have hplace : Token.place 0 (⟨.leftDelim, ['{', '{']⟩ :: indexLexemes kind literal.toList ++
      [⟨.rightDelim, ['}', '}']⟩]) =
    [⟨.leftDelim, 0, "\x7b\x7b"⟩, ⟨.whitespace, 2, " "⟩, ⟨.identifier, 3, "index"⟩,
      ⟨.whitespace, 8, " "⟩, ⟨.variable, 9, "$labels"⟩, ⟨.whitespace, 16, " "⟩] ++
      Token.place 17
        [⟨kind, literal.toList⟩, ⟨.whitespace, [' ']⟩, ⟨.rightDelim, ['}', '}']⟩] := rfl
  rw [hplace, Token.place, String.ofList_toList]
  rcases hkind with rfl | rfl <;> rfl

end Tokens

theorem exists_pieces_indexed {v literal : String} (h : Quotes v literal) :
    (Tokens.ofText (indexed literal)).error = none ∧ ∃ kind, (kind = .str ∨ kind = .rawStr) ∧
      pieces (Tokens.ofText (indexed literal)).tokens = indexPieces kind literal := by
  obtain ⟨kind, quote, cs, hkind, hquote, hliteral, hread⟩ := read_of_quotes h
  have haction := Scan.scanAction_of_readsAs (readsAs_index hkind hquote hread) 0
  have hclose : Scan.scanAction 0 ['}', '}'] = ⟨[⟨.rightDelim, ['}', '}']⟩], .ok []⟩ :=
    Scan.scanAction_of_rightDelim? (n := 2) rfl
  rw [hclose, ← hliteral] at haction
  have htext : Scan.scanText ('{' :: '{' ::
      (Scan.charsOf (indexLexemes kind literal.toList) ++ ['}', '}'])) =
      ⟨⟨.leftDelim, ['{', '{']⟩ :: (Scan.scanAction 0
        (Scan.charsOf (indexLexemes kind literal.toList) ++ ['}', '}'])).lexemes ++
          (Scan.scanText []).lexemes, (Scan.scanText []).outcome⟩ :=
    Scan.scanText_action Bool.false_ne_true (congrArg Scan.Result.outcome haction)
  have hscan : Scan.scanText (indexed literal).toList = ⟨⟨.leftDelim, ['{', '{']⟩ ::
      indexLexemes kind literal.toList ++ [⟨.rightDelim, ['}', '}']⟩], .ok ()⟩ := by
    rw [toList_indexed kind, htext, haction, Scan.scanText, List.append_nil]
    rfl
  refine ⟨by rw [error_ofText, hscan]; rfl, kind, hkind, ?_⟩
  rw [Tokens.ofText, hscan]
  exact pieces_place_index hkind literal

theorem spelling_operand {depth : Nat} {p : Piece} {c : Parser.OperandClass}
    (h : Grammar.Atom [p.text] p c) (hkind : p.kind ≠ .field) :
    Spelling.Operand depth [p] c p.spaced (.mk (termOf p.token) p.token.span []) := by
  have hfields : fieldsOf [p] = [] := List.filter_cons_of_neg (mt of_decide_eq_true hkind)
  have hatom : Spelling.Operand depth [p] c p.spaced
      (.mk (termOf p.token) p.token.span (fieldsOf [p])) := .atom h .nil fun hne ↦ absurd rfl hne
  rwa [hfields] at hatom

/-- The outline of the template. -/
def indexItems (kind : TokenKind) (literal : String) : List Item :=
  [.action nowhere (some (.mk none [Reading.indexOperands ⟨.identifier, 3, "index"⟩
    ⟨.variable, 9, "$labels"⟩ ⟨kind, 17, literal⟩]))]

theorem spells_index {kind : TokenKind} {literal : String} (hkind : kind = .str ∨ kind = .rawStr)
    (hliteral : (Literal.unquote literal).isSome) :
    Spelling.Root (indexPieces kind literal) (indexItems kind literal) := by
  have hindex : Spelling.Operand Parser.maxDepth [⟨⟨.identifier, 3, "index"⟩, true⟩] _ true
      (.mk (.function (some ⟨.identifier, 3, "index"⟩)) ⟨3, 8⟩ []) :=
    spelling_operand (.function rfl (by decide)) (by decide)
  have hlabels : Spelling.Operand Parser.maxDepth [⟨⟨.variable, 9, "$labels"⟩, true⟩] _ true
      (.mk (.variable (some ⟨.variable, 9, "$labels"⟩)) ⟨9, 16⟩ []) :=
    spelling_operand (.inScope rfl List.mem_cons_self) (by decide)
  have hkey : Spelling.Operand Parser.maxDepth [⟨⟨kind, 17, literal⟩, true⟩] .string true
      (.mk (.literal (some ⟨kind, 17, literal⟩)) (Token.span ⟨kind, 17, literal⟩) []) := by
    have hatom : Grammar.Atom [literal] ⟨⟨kind, 17, literal⟩, true⟩ .string :=
      .string hkind hliteral
    rcases hkind with rfl | rfl <;> exact spelling_operand hatom nofun
  have hcommand := Spelling.Command.more hindex (.more hlabels (.last hkey))
  have hheader : Spelling.Header false _ _ := .mk .none hcommand nofun .nil
  exact .item (.action rfl hheader rfl) .nil

theorem wellScoped_index (kind : TokenKind) (literal : String) :
    WellScoped (itemsVisits (indexItems kind literal) prelude) := by
  change WellScoped [⟨⟨.variable, 9, "$labels"⟩, prelude⟩]
  simp [prelude]

theorem lineAt_indexed (literal : String) {n : Nat} (hn : n ≤ 17) :
    lineAt (indexed literal).toList n = 0 := by
  have hsplit : (indexed literal).toList =
      "\x7b\x7b index $labels ".toList ++ (literal.toList ++ " \x7d\x7d".toList) := by
    unfold indexed
    simp
  have hfront : ∀ n ≤ 17, lineAt "\x7b\x7b index $labels ".toList n = 0 := by decide
  rw [hsplit]
  have hmoved := @lineAt_moved "\x7b\x7b index $labels ".toList n hn []
    (literal.toList ++ " \x7d\x7d".toList)
  exact hmoved.trans (hfront n hn)

/-- However a string is written, a lookup of a label by its literal is accepted, and it reads the
label of that name at the literal and nothing else. -/
theorem reads_indexed {v literal : String} (h : Quotes v literal) :
    (Parse.ofText (indexed literal)).error = none ∧ Reads.ofText (indexed literal) = .ok
      { labels := [⟨v, ⟨17, 17 + literal.utf8ByteSize⟩, 0⟩], values := []
        calls := [⟨"index", ⟨3, 8⟩, 0⟩] } := by
  obtain ⟨herror, kind, hkind, hpieces⟩ := exists_pieces_indexed h
  have hvalue := unquote_of_quotes h
  have hspells := spells_index hkind (Option.isSome_of_eq_some hvalue)
  rw [← hpieces] at hspells
  obtain ⟨haccepted, hreads⟩ := reads_of_spells herror hspells (wellScoped_index kind literal)
  have hkey : Token.stringValue? ⟨kind, 17, literal⟩ = some v := by
    rcases hkind with rfl | rfl <;> exact hvalue
  have hlabel := @Reading.reads_index (.start (indexed literal)) ⟨.identifier, 3, "index"⟩
    ⟨.variable, 9, "$labels"⟩ ⟨kind, 17, literal⟩ v rfl rfl hkey
  have hline : lineAt (indexed literal).toList 17 = 0 := lineAt_indexed literal (Nat.le_refl 17)
  have hline' : lineAt (indexed literal).toList 3 = 0 := lineAt_indexed literal (by decide)
  refine ⟨haccepted, hreads.trans (congrArg Except.ok (hlabel.trans ?_))⟩
  change Reads.mk [⟨v, _, lineAt (indexed literal).toList 17⟩] []
    [⟨"index", ⟨3, 8⟩, lineAt (indexed literal).toList 3⟩] = _
  rw [hline, hline']
  rfl

/-- One character of each kind: plain, in two hexadecimal digits, with two letters, in octal digits,
and in four and in eight hexadecimal digits. -/
theorem reads_indexed_escaped :
    let v := "\x7d\x7d\"\né→😀"
    let literal := "\"\x7d\\x7D\\\"\\n\\351\\u2192\\U0001F600\""
    Quotes v literal ∧ (Parse.ofText (indexed literal)).error = none ∧
      Reads.ofText (indexed literal) = .ok
        { labels := [⟨v, ⟨17, 48⟩, 0⟩], calls := [⟨"index", ⟨3, 8⟩, 0⟩] } := by
  intro v literal
  have hplain : Writes '}' ['}'] := .plain ⟨by decide, by decide, by decide⟩
  have hbyte : Writes '}' ['\\', 'x', '7', 'D'] := .escape (.byte (by decide)
    (.cons (d := 7) (by decide) (.inl rfl) (.cons (d := 13) (by decide) (.inr rfl) .nil)))
  have hquote : Writes '"' ['\\', '"'] := .escape (.named (by decide))
  have hbreak : Writes '\n' ['\\', 'n'] := .escape (.named (by decide))
  have hoctal : Writes 'é' ['\\', '3', '5', '1'] := .escape (.octal (by decide)
    (.cons (d := 3) (by decide) (.inl rfl) (.cons (d := 5) (by decide) (.inl rfl)
      (.cons (d := 1) (by decide) (.inl rfl) .nil))))
  have hshort : Writes '→' ['\\', 'u', '2', '1', '9', '2'] := .escape (.short
    (.cons (d := 2) (by decide) (.inl rfl) (.cons (d := 1) (by decide) (.inl rfl)
      (.cons (d := 9) (by decide) (.inl rfl) (.cons (d := 2) (by decide) (.inl rfl) .nil)))))
  have hlong : Writes '😀' ['\\', 'U', '0', '0', '0', '1', 'F', '6', '0', '0'] := .escape (.long
    (.cons (d := 0) (by decide) (.inl rfl) (.cons (d := 0) (by decide) (.inl rfl)
      (.cons (d := 0) (by decide) (.inl rfl) (.cons (d := 1) (by decide) (.inl rfl)
        (.cons (d := 15) (by decide) (.inr rfl) (.cons (d := 6) (by decide) (.inl rfl)
          (.cons (d := 0) (by decide) (.inl rfl)
            (.cons (d := 0) (by decide) (.inl rfl) .nil)))))))))
  have hencodes := Encodes.cons hplain (.cons hbyte (.cons hquote (.cons hbreak
    (.cons hoctal (.cons hshort (.cons hlong .nil))))))
  have hv : v.toList = ['}', '}', '"', '\n', 'é', '→', '😀'] := by decide
  rw [← hv] at hencodes
  have hquotes : Quotes v literal := .double hencodes
  obtain ⟨haccepted, hreads⟩ := reads_indexed hquotes
  exact ⟨hquotes, haccepted, hreads⟩

end AlertAudit.Template
