import AlertAudit.Proofs.Template.Blocks
import AlertAudit.Proofs.Template.Crossing

/-!
Texts with one more stage in one of their actions. Around the action a text is scanned as before
(`Scan.units_replace`), so the pieces in front of the action stay where they are, those behind it
move by the characters of the stage, and the action gets a bar and the name of a function
(`ActionIn.exists_piped`).
-/

set_option autoImplicit false

namespace AlertAudit.Template

open AlertAudit.Text
open Scan (Scans Units Outside charsOf)

/-! ### Another action in a text -/

/-- In front of an action, a text is scanned the same with another action behind it. -/
theorem Scan.units_replace {us ms ns : List Lexeme} (h : Units (us ++ ms)) (hns : Units ns)
    (hmark : ∃ m ∈ ms.head?, m.kind = .leftDelim) (hhead : ∀ n ∈ ns.head?, n.kind ≠ .text) :
    Units (us ++ ns) := by
  have hms : ms ≠ [] := by
    rintro rfl
    obtain ⟨m, hm, -⟩ := hmark
    cases hm
  generalize hall : us ++ ms = all at h
  induction h generalizing us with
  | nil => exact absurd (List.append_eq_nil_iff.mp hall).2 hms
  | @text front rest hfront hsplit hhead' hrest ih =>
    rcases List.append_eq_cons_iff.mp hall with ⟨rfl, -⟩ | ⟨us, rfl, rfl⟩
    · exact hns
    · have hbehind := ih rfl
      have hnext : ∀ l ∈ (us ++ ns).head?, l.kind ≠ .text := by
        cases us with
        | nil => exact hhead
        | cons u us => exact hhead'
      have hne : charsOf (us ++ ms) ≠ [] := by
        intro hnil
        have hscans := hrest.scans
        rw [hnil, Scans, scans_nil] at hscans
        exact hms (List.append_eq_nil_iff.mp (congrArg Result.lexemes hscans).symm).2
      exact .text hfront (splitBefore_of_scans hsplit (.inl hne) hbehind.scans hnext) hnext hbehind
  | comment hunit _ ih =>
    rcases List.append_eq_cons_iff.mp hall with ⟨rfl, -⟩ | ⟨us, rfl, rfl⟩
    · exact hns
    · exact .comment hunit (ih rfl)
  | @action mark close inner rest hinner hunit hrest ih =>
    rcases List.append_eq_append_iff.mp hall with ⟨vs, hus, rfl⟩ | ⟨us, rfl, rfl⟩
    · by_cases hnil : us = []
      · subst hnil
        exact hns
      by_cases hnil' : vs = []
      · subst hnil'
        rw [List.append_nil] at hus
        rw [← hus]
        exact .action hinner hunit hns
      · have hout : Outside us (vs ++ rest) := .inr (.inr (.inr hmark))
        exact absurd hout (not_outside_of_action hinner hus hnil hnil')
    · rw [List.append_assoc]
      exact .action hinner hunit (ih rfl)

def actionOf (opening : List Char) (inner : List Lexeme) (closing : List Char) : List Lexeme :=
  ⟨.leftDelim, opening⟩ :: (inner ++ [⟨.rightDelim, closing⟩])

theorem charsOf_actionOf (opening closing : List Char) (inner : List Lexeme) :
    charsOf (actionOf opening inner closing) = opening ++ charsOf inner ++ closing := by
  rw [actionOf, Scan.charsOf_cons, Scan.charsOf_append, Scan.charsOf_singleton, List.append_assoc]

/-! ### The pieces of an action -/

/-- The pieces of lexemes, of which white space is none. -/
theorem pieces_place_cons (k : Nat) (l : Lexeme) (ls : List Lexeme) :
    pieces (Token.place k (l :: ls)) =
      if l.kind = .whitespace then pieces (Token.place (k + utf8Length l.chars) ls)
      else ⟨⟨l.kind, k, String.ofList l.chars⟩, ls.head?.any (·.kind = .whitespace)⟩ ::
        pieces (Token.place (k + utf8Length l.chars) ls) := by
  have hspaced (n : Nat) : (Token.place n ls).head?.any (·.isTrivia) =
      ls.head?.any (·.kind = .whitespace) := by
    cases ls <;> rfl
  have htrivia : Token.isTrivia ⟨l.kind, k, String.ofList l.chars⟩ =
      decide (l.kind = .whitespace) := rfl
  rw [Token.place, pieces, stop_place, hspaced, htrivia]
  simp only [decide_eq_true_eq]

/-- Lexemes start with white space as they do with white space behind them. -/
theorem spaced_blanked (l : Lexeme) (ls : List Lexeme) :
    (Scan.blanked (l :: ls)).head?.any (·.kind = .whitespace) =
      (l :: ls).head?.any (·.kind = .whitespace) := by
  cases ls with
  | nil =>
    rw [Scan.blanked.eq_2]
    split
    next h => rw [List.head?_cons, List.head?_cons, Option.any_some, Option.any_some, h]
    next => rfl
  | cons m ls =>
    rw [Scan.blanked]
    rfl

/-- White space comes behind the last piece where it comes behind the last lexeme. -/
theorem pieces_place_blanked (k : Nat) (ls : List Lexeme) :
    pieces (Token.place k (Scan.blanked ls)) = blankBehind (pieces (Token.place k ls)) := by
  fun_induction Scan.blanked ls generalizing k with
  | case1 => rfl
  | case2 l hl =>
    rw [pieces_place_cons, pieces_place_cons, if_pos rfl, if_pos hl]
    rfl
  | case3 l hl =>
    rw [pieces_place_cons, pieces_place_cons k l [], if_neg hl, if_neg hl]
    rfl
  | case4 l m ls ih =>
    rw [pieces_place_cons, pieces_place_cons k l (m :: ls), ih, spaced_blanked]
    split
    next => rfl
    next =>
      by_cases hnil : pieces (Token.place (k + utf8Length l.chars) (m :: ls)) = []
      · -- nothing but white space is left, so it comes behind the lexeme already
        have hm : m.kind = .whitespace := by
          by_contra hm
          rw [pieces_place_cons, if_neg hm] at hnil
          cases hnil
        rw [hnil, List.head?_cons, Option.any_some, hm]
        rfl
      · rw [blankBehind_cons hnil]

/-- The pieces of a stage that calls a function. -/
theorem pieces_place_stage (k : Nat) (name : String) : pieces (Token.place k (Scan.stage name)) =
    [⟨⟨.pipe, k, "|"⟩, true⟩, ⟨⟨.identifier, k + 2, name⟩, false⟩] := by
  rw [Scan.stage, pieces_place_cons, if_neg (by simp), pieces_place_cons, if_pos rfl,
    pieces_place_cons, if_neg (by simp), String.ofList_toList]
  rfl

theorem pieces_place_filtered (k : Nat) (name : String) (inner : List Lexeme) :
    pieces (Token.place k (Scan.filtered name inner)) =
      blankBehind (pieces (Token.place k inner)) ++
        [⟨⟨.pipe, k + utf8Length (charsOf inner) + 1, "|"⟩, true⟩,
          ⟨⟨.identifier, k + utf8Length (charsOf inner) + 3, name⟩, false⟩] := by
  have hbar : ∀ u ∈ (Token.place (k + utf8Length (charsOf (Scan.blanked inner)))
      (Scan.stage name)).head?, u.isTrivia = false := by
    intro u hu
    obtain rfl := Option.some.inj hu
    rfl
  rw [Scan.filtered, place_append, pieces_append hbar, pieces_place_blanked, pieces_place_stage,
    Scan.charsOf_blanked, utf8Length_append]
  rfl

/-- The pieces of an action are its delimiters and the pieces between them. -/
theorem pieces_place_actionOf (k : Nat) (opening closing : List Char) (inner : List Lexeme) :
    ∃ spaced, pieces (Token.place k (actionOf opening inner closing)) =
      ⟨⟨.leftDelim, k, String.ofList opening⟩, spaced⟩ ::
        pieces (Token.place (k + utf8Length opening) inner) ++
          [⟨⟨.rightDelim, k + utf8Length opening + utf8Length (charsOf inner),
            String.ofList closing⟩, false⟩] := by
  have hleft : Token.isTrivia ⟨.leftDelim, k, String.ofList opening⟩ = false := rfl
  have hright : ∀ u ∈ (Token.place (k + utf8Length opening + utf8Length (charsOf inner))
      [⟨.rightDelim, closing⟩]).head?, u.isTrivia = false := by
    intro u hu
    obtain rfl := Option.some.inj hu
    rfl
  rw [actionOf, Token.place, pieces_cons hleft, stop_place, place_append, pieces_append hright]
  exact ⟨_, rfl⟩

/-- The kinds of the pieces are those of the lexemes that are no white space. -/
theorem map_kind_pieces_place (k : Nat) (ls : List Lexeme) :
    (pieces (Token.place k ls)).map Piece.kind = (ls.map (·.kind)).filter (!·.isTrivia) := by
  induction ls generalizing k with
  | nil => rfl
  | cons l ls ih =>
    rw [pieces_place_cons, List.map_cons, List.filter_cons]
    by_cases hl : l.kind = .whitespace
    · rw [if_pos hl, if_neg (by rw [hl]; decide), ih]
    · have hsolid : l.kind.isTrivia = false := decide_eq_false hl
      rw [if_neg hl, if_pos (by rw [hsolid]; rfl), List.map_cons, ih]
      rfl

/-! ### Actions of a text -/

/-- An action in a text, with the lexemes around it. -/
structure ActionIn (text : String) where
  before : List Lexeme
  /-- The left delimiter, with its trim marker. -/
  opening : List Char
  inner : List Lexeme
  /-- The right delimiter, with its trim marker. -/
  closing : List Char
  after : List Lexeme
  lexemes_eq : (Scan.scanText text.toList).lexemes =
    before ++ (actionOf opening inner closing ++ after)
  inner_kind : ∀ l ∈ inner, l.kind.isInner

namespace ActionIn

variable {text : String} (action : ActionIn text)

/-- The kinds of the tokens in the action that are no white space. -/
def words : List TokenKind := (action.inner.map (·.kind)).filter (!·.isTrivia)

/-- The action is a pipeline: it starts with an operand, not with a word of a block. -/
def isPipeline : Bool := action.words.head?.any (·.startsOperand)

/-- The pipeline declares a variable or assigns to one. -/
def declares : Bool := action.words[1]?.any fun kind ↦ kind = .declare || kind = .assign

def endsWithBar : Bool := action.words.getLast? = some .pipe

/-- The text in front of the right delimiter, the delimiter, and the text behind it. -/
def gap : Reading.Gap where
  front := charsOf action.before ++ action.opening ++ charsOf action.inner
  close := action.closing
  back := charsOf action.after

/-- Where the tokens between the delimiters start. -/
def start : Nat := utf8Length (charsOf action.before) + utf8Length action.opening

/-- Where the right delimiter starts. -/
def stop : Nat := utf8Length action.gap.front

theorem start_add_eq_stop :
    action.start + utf8Length (charsOf action.inner) = action.stop := by
  simp only [start, stop, gap, utf8Length_append]

/-- The characters of a stage that calls a function. -/
def stageOf (name : String) : List Char := " | ".toList ++ name.toList

/-- The text with one more stage in front of the right delimiter. -/
def filtered (name : String) : String := String.ofList (action.gap.text (stageOf name))

/-- The lexemes of the text with something else in the action. -/
def lexemesWith (inner : List Lexeme) : List Lexeme :=
  action.before ++ (actionOf action.opening inner action.closing ++ action.after)

theorem charsOf_lexemesWith (inner : List Lexeme) : charsOf (action.lexemesWith inner) =
    charsOf action.before ++ action.opening ++ charsOf inner ++ action.closing ++
      charsOf action.after := by
  rw [lexemesWith, Scan.charsOf_append, Scan.charsOf_append, charsOf_actionOf]
  simp only [List.append_assoc]

theorem toList_eq : text.toList = action.gap.text [] := by
  have hchars := action.charsOf_lexemesWith action.inner
  rw [lexemesWith, ← action.lexemes_eq, Scan.charsOf_scanText] at hchars
  rw [hchars, gap, Reading.Gap.text, List.append_nil]

section Scanned

variable {name : String} (h : (Tokens.ofText text).error = none)

include h

theorem scans : Scans text.toList (action.lexemesWith action.inner) :=
  Scan.scans_iff.mpr ⟨action.lexemes_eq, (tokens_error_eq_none_iff text).mp h⟩

/-- The action and what comes behind it are scanned by themselves. -/
theorem units : Units (actionOf action.opening action.inner action.closing ++ action.after) ∧
    Units (actionOf action.opening action.inner action.closing) ∧ Units action.after := by
  obtain ⟨hunits, -⟩ := Scan.scans_iff_units.mp (action.scans h)
  obtain ⟨-, hrest⟩ := Scan.units_cut hunits (.inr (.inr (.inr ⟨_, rfl, rfl⟩)))
  have hlast : (actionOf action.opening action.inner action.closing).getLast? =
      some ⟨.rightDelim, action.closing⟩ := by
    rw [actionOf, ← List.cons_append]
    exact List.getLast?_concat
  exact ⟨hrest, Scan.units_cut hrest (.inr (.inr (.inl ⟨_, hlast, .inl rfl⟩)))⟩

theorem units_filtered (hname : Builtin.isDefined name) : Units (actionOf action.opening
    (Scan.filtered name action.inner) action.closing ++ action.after) := by
  obtain ⟨-, haction, hafter⟩ := action.units h
  have hfiltered := Scan.scans_filtered (Scan.isFunctionName_of_isDefined hname) action.inner_kind
    haction.scans
  exact .action (Scan.isInner_filtered name action.inner_kind) hfiltered hafter

/-- With one more stage in the action, the text is scanned to its end. -/
theorem scans_filtered (hname : Builtin.isDefined name) :
    Scans (action.gap.text (stageOf name))
      (action.lexemesWith (Scan.filtered name action.inner)) := by
  obtain ⟨hunits, -⟩ := Scan.scans_iff_units.mp (action.scans h)
  have hbehind := action.units_filtered h hname
  refine Scan.scans_iff_units.mpr ⟨Scan.units_replace hunits hbehind ⟨_, rfl, rfl⟩ ?_, ?_⟩
  · rintro n hn
    obtain rfl := Option.some.inj hn
    exact nofun
  · have hchars := action.charsOf_lexemesWith (Scan.filtered name action.inner)
    rw [Scan.charsOf_filtered] at hchars
    refine hchars.trans ?_
    simp only [gap, Reading.Gap.text, stageOf, List.append_assoc]

/-- The pieces of the text with something else in the action. -/
theorem piecesOf_lexemesWith {inner : List Lexeme}
    (hinner : Units (actionOf action.opening inner action.closing ++ action.after)) :
    piecesOf (action.lexemesWith inner) = piecesOf action.before ++
      pieces (Token.place (utf8Length (charsOf action.before))
        (actionOf action.opening inner action.closing)) ++
      (piecesOf action.after).map (·.moved (utf8Length (charsOf action.before) +
        utf8Length (charsOf (actionOf action.opening inner action.closing)))) := by
  have hafter := (action.units h).2.2.scans
  have hplace (k : Nat) (ls : List Lexeme) :
      (piecesOf ls).map (·.moved k) = pieces (Token.place k ls) := by
    rw [piecesOf, ← pieces_moved, ← place_moved, Nat.zero_add]
  rw [lexemesWith, piecesOf_append _ hinner.scans, piecesOf_append _ hafter, List.map_append,
    hplace, map_moved_map_moved, List.append_assoc,
    Nat.add_comm (utf8Length (charsOf action.before))]

end Scanned

/-! ### The action with one more stage -/

/-- Pieces in front of the right delimiter. -/
theorem between_inFront (h : (Tokens.ofText text).error = none) :
    Between action.gap.InFront
      (piecesOf action.before ++ pieces (Token.place action.start action.inner)) := by
  let front := action.before ++ ⟨.leftDelim, action.opening⟩ :: action.inner
  have hchars : charsOf front = action.gap.front := by
    rw [Scan.charsOf_append, Scan.charsOf_cons, ← List.append_assoc]
    rfl
  have hfilled : ∀ l ∈ front, l.chars ≠ [] := by
    intro l hl
    refine (action.scans h).chars_ne_nil l ?_
    simp only [front, lexemesWith, actionOf, List.mem_append, List.mem_cons] at hl ⊢
    tauto
  have hpieces : piecesOf action.before ++ pieces (Token.place action.start action.inner) ⊆
      pieces (Token.place 0 front) := by
    have hmark : ∀ u ∈ (Token.place (0 + utf8Length (charsOf action.before))
        (⟨.leftDelim, action.opening⟩ :: action.inner)).head?, u.isTrivia = false := by
      intro u hu
      obtain rfl := Option.some.inj hu
      rfl
    rw [place_append, pieces_append hmark, pieces_place_cons _ _ action.inner, if_neg nofun,
      Nat.zero_add]
    exact List.append_subset.mpr ⟨List.subset_append_left _ _,
      List.subset_append_of_subset_right _ (List.subset_cons_self _ _)⟩
  have hfits := between_fits_place front
  rw [hchars] at hfits
  intro p hp q hq
  refine ⟨hfits p (hpieces hp) q (hpieces hq), ?_⟩
  have hlt := start_lt_of_mem_place hfilled (hpieces hp)
  rwa [hchars] at hlt

theorem between_inBack : Between action.gap.InBack (piecesOf action.after) :=
  between_fits_place action.after

theorem isInner_of_mem_pieces {p : Piece}
    (hp : p ∈ pieces (Token.place action.start action.inner)) : p.kind.isInner := by
  obtain ⟨front, l, back, hlexemes, htoken⟩ := exists_of_mem_place (mem_of_mem_pieces hp)
  have hkind := action.inner_kind l (by rw [hlexemes]; simp)
  rwa [show p.kind = l.kind from congrArg Token.kind htoken]

section Piped

variable {name : String} (hpipeline : action.isPipeline) (hdeclares : action.declares = false)
  (hbar : action.endsWithBar = false)

include hpipeline in
theorem starts_of_isPipeline :
    ∃ p ∈ (pieces (Token.place action.start action.inner)).head?, p.kind.startsOperand := by
  rw [isPipeline, words, ← map_kind_pieces_place action.start, List.head?_map, Option.any_map,
    Option.any_eq_true] at hpipeline
  exact hpipeline

include hdeclares in
theorem plain_of_not_declares : ∀ p ∈ (pieces (Token.place action.start action.inner))[1]?,
    p.kind ≠ .declare ∧ p.kind ≠ .assign := by
  intro p hp
  rw [declares, words, ← map_kind_pieces_place action.start, List.getElem?_map, hp,
    Option.map_some, Option.any_some, Bool.or_eq_false_iff, decide_eq_false_iff_not,
    decide_eq_false_iff_not] at hdeclares
  exact hdeclares

include hbar in
theorem ends_of_not_endsWithBar :
    ∀ p ∈ (pieces (Token.place action.start action.inner)).getLast?, p.kind ≠ .pipe := by
  intro p hp hkind
  rw [endsWithBar, words, ← map_kind_pieces_place action.start, List.getLast?_map, hp,
    Option.map_some, hkind] at hbar
  cases hbar

/-- The pieces of the action without the stage and with it. The truth values tell whether white
space comes behind the left delimiter. -/
def piped (hname : Builtin.isDefined name) (spaced spaced' : Bool) : PipedAction where
  left := ⟨⟨.leftDelim, utf8Length (charsOf action.before), String.ofList action.opening⟩, spaced⟩
  inner := pieces (Token.place action.start action.inner)
  right := ⟨⟨.rightDelim, action.stop, String.ofList action.closing⟩, false⟩
  left_kind := rfl
  inner_kind _ := action.isInner_of_mem_pieces
  right_kind := rfl
  starts := action.starts_of_isPipeline hpipeline
  plain := action.plain_of_not_declares hdeclares
  ends := action.ends_of_not_endsWithBar hbar
  left' := ⟨⟨.leftDelim, utf8Length (charsOf action.before), String.ofList action.opening⟩, spaced'⟩
  bar := ⟨⟨.pipe, action.stop + 1, "|"⟩, true⟩
  name := ⟨⟨.identifier, action.stop + 3, name⟩, false⟩
  right' := ⟨⟨.rightDelim,
    action.start + utf8Length (charsOf (Scan.filtered name action.inner)),
      String.ofList action.closing⟩, false⟩
  left'_kind := rfl
  bar_kind := rfl
  name_kind := rfl
  name_defined := hname
  right'_kind := rfl

/-- The bytes up to the end of the action, if some characters are added in front of its right
delimiter. -/
theorem bytes_actionOf {inner : List Lexeme} {added : List Char}
    (hinner : charsOf inner = charsOf action.inner ++ added) :
    utf8Length (charsOf action.before) +
      utf8Length (charsOf (actionOf action.opening inner action.closing)) =
        action.gap.bytes added := by
  simp only [charsOf_actionOf, hinner, gap, Reading.Gap.bytes, utf8Length_append]
  omega

/-- The pieces of the text and of the one with one more stage in the action. -/
theorem exists_piped (h : (Tokens.ofText text).error = none) (hpipeline : action.isPipeline)
    (hdeclares : action.declares = false) (hbar : action.endsWithBar = false)
    (hname : Builtin.isDefined name) : ∃ act : PipedAction,
      act.name.token = ⟨.identifier, action.stop + 3, name⟩ ∧
      Between action.gap.InFront (piecesOf action.before ++ act.inner) ∧
      piecesOf (action.lexemesWith action.inner) = piecesOf action.before ++ act.old ++
        (piecesOf action.after).map (·.moved (action.gap.bytes [])) ∧
      piecesOf (action.lexemesWith (Scan.filtered name action.inner)) =
        piecesOf action.before ++ act.new ++
          (piecesOf action.after).map (·.moved (action.gap.bytes (stageOf name))) := by
  obtain ⟨spaced, hold⟩ := pieces_place_actionOf (utf8Length (charsOf action.before))
    action.opening action.closing action.inner
  obtain ⟨spaced', hnew⟩ := pieces_place_actionOf (utf8Length (charsOf action.before))
    action.opening action.closing (Scan.filtered name action.inner)
  rw [← start, start_add_eq_stop] at hold
  rw [← start, pieces_place_filtered, start_add_eq_stop] at hnew
  refine ⟨action.piped hpipeline hdeclares hbar hname spaced spaced', rfl,
    action.between_inFront h, ?_, ?_⟩
  · have hchars : charsOf action.inner = charsOf action.inner ++ [] := (List.append_nil _).symm
    rw [action.piecesOf_lexemesWith h (action.units h).1, action.bytes_actionOf hchars, hold]
    rfl
  · have hchars : charsOf (Scan.filtered name action.inner) =
        charsOf action.inner ++ stageOf name := by
      rw [Scan.charsOf_filtered, stageOf, List.append_assoc]
    rw [action.piecesOf_lexemesWith h (action.units_filtered h hname),
      action.bytes_actionOf hchars, hnew]
    rfl

end Piped

end ActionIn

end AlertAudit.Template
