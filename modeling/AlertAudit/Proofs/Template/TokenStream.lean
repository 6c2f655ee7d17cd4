import AlertAudit.Proofs.Template.Seam
import AlertAudit.Proofs.Text.Span

/-!
What the tokens of any template look like, also of one that cannot be read. They cover its text
without a gap (`tiles_place`). Text, comments and actions follow each other (`stream_scanText`),
where a text goes on up to the next left delimiter (`not_infix_splitBefore`) and an action holds
nothing but tokens of its own, with matching parentheses (`fills_scanAction`). A scan that fails
says so with one last token and no other one.
-/

set_option autoImplicit false

namespace AlertAudit.Template

open AlertAudit.Text

/-! ### Tokens side by side -/

/-- Tokens that cover a text from its start to its end, cut between characters. -/
structure Tiles (text : String) (tokens : List Token) : Prop where
  first : ∀ t ∈ tokens.head?, t.start = 0
  next : tokens.IsChain fun t u ↦ u.start = t.stop
  last : ∀ t ∈ tokens.getLast?, t.stop = text.utf8ByteSize
  none : tokens = [] → text = ""
  boundary : ∀ t ∈ tokens, ∃ before after, text = before ++ t.text ++ after ∧
    t.start = before.utf8ByteSize

/-- A token stops behind the bytes of its characters. -/
theorem stop_place (kind : TokenKind) (start : Nat) (chars : List Char) :
    Token.stop ⟨kind, start, String.ofList chars⟩ = start + utf8Length chars :=
  congrArg (start + ·) (utf8ByteSize_ofList chars)

/-- Each token starts where the one in front of it stops. -/
theorem isChain_place (start : Nat) (ls : List Lexeme) :
    (Token.place start ls).IsChain fun t u ↦ u.start = t.stop := by
  induction ls generalizing start with
  | nil => exact .nil
  | cons l ls ih =>
    cases ls with
    | nil => exact .singleton _
    | cons m ms => exact .cons_cons rfl (ih _)

/-- Where a token stands among the lexemes. -/
theorem exists_of_mem_place {start : Nat} {ls : List Lexeme} {t : Token}
    (h : t ∈ Token.place start ls) : ∃ front l back, ls = front ++ l :: back ∧
      t = ⟨l.kind, start + utf8Length (Scan.charsOf front), String.ofList l.chars⟩ := by
  induction ls generalizing start with
  | nil => exact absurd h List.not_mem_nil
  | cons l ls ih =>
    rw [Token.place] at h
    rcases List.mem_cons.mp h with rfl | h
    · exact ⟨[], l, ls, rfl, rfl⟩
    · obtain ⟨front, m, back, rfl, rfl⟩ := ih h
      refine ⟨l :: front, m, back, rfl, ?_⟩
      rw [Scan.charsOf_cons, utf8Length_append, ← Nat.add_assoc, stop_place]

/-- The last token stops at the end of the text. -/
theorem stop_getLast?_place {start : Nat} {ls : List Lexeme} {t : Token}
    (h : t ∈ (Token.place start ls).getLast?) : t.stop = start + utf8Length (Scan.charsOf ls) := by
  induction ls generalizing start with
  | nil => cases h
  | cons l ls ih =>
    rw [Scan.charsOf_cons, utf8Length_append, ← Nat.add_assoc, ← stop_place l.kind start l.chars]
    cases ls with
    | nil =>
      obtain rfl := Option.some.inj h
      rfl
    | cons m ms => exact ih h

/-- The lexemes of a text cover it. -/
theorem tiles_place (ls : List Lexeme) :
    Tiles (String.ofList (Scan.charsOf ls)) (Token.place 0 ls) where
  first t ht := by
    cases ls with
    | nil => cases ht
    | cons l ls =>
      obtain rfl := Option.some.inj ht
      rfl
  next := isChain_place 0 ls
  last t ht := by
    rw [stop_getLast?_place ht, utf8ByteSize_ofList, Nat.zero_add]
  none h := by
    cases ls with
    | nil => rfl
    | cons l ls => cases h
  boundary t ht := by
    obtain ⟨front, l, back, rfl, rfl⟩ := exists_of_mem_place ht
    refine ⟨String.ofList (Scan.charsOf front), String.ofList (Scan.charsOf back), ?_, ?_⟩
    · rw [← String.ofList_append, ← String.ofList_append, List.append_assoc, Scan.charsOf_append,
        Scan.charsOf_cons]
    · rw [utf8ByteSize_ofList]
      exact Nat.zero_add _

/-! ### Actions -/

/-- The kinds of tokens inside of an action. -/
def TokenKind.isInner : TokenKind → Bool
  | .leftDelim | .rightDelim | .text | .comment | .lexError | .colon | .punct => false
  | _ => true

/-- No parenthesis is closed without being open, and in the end all of them are closed, where
`depth` of them are open in front. -/
def Balanced (depth : Nat) (kinds : List TokenKind) : Prop :=
  (∀ front, front <+: kinds → front.count .parenClose ≤ depth + front.count .parenOpen) ∧
    kinds.count .parenClose = depth + kinds.count .parenOpen

theorem balanced_nil : Balanced 0 [] := by
  refine ⟨fun front hfront ↦ ?_, rfl⟩
  rw [List.prefix_nil.mp hfront]
  exact Nat.le_refl 0

/-- A token in front opens a parenthesis, closes one that is open or does neither. -/
theorem Balanced.cons {depth : Nat} {kind : TokenKind} {kinds : List TokenKind}
    (h : Balanced (Scan.depthBehind depth kind) kinds)
    (hparen : ¬(kind = .parenClose && depth = 0)) : Balanced depth (kind :: kinds) := by
  have hcount (ks : List TokenKind) :
      (kind :: ks).count .parenClose + Scan.depthBehind depth kind + ks.count .parenOpen =
        ks.count .parenClose + depth + (kind :: ks).count .parenOpen := by
    cases kind with
    | parenClose =>
      have hdepth : depth ≠ 0 := by simpa using hparen
      simp [Scan.depthBehind]
      omega
    | parenOpen =>
      simp [Scan.depthBehind]
      omega
    | _ => simp [Scan.depthBehind]
  refine ⟨fun front hfront ↦ ?_, ?_⟩
  · rcases List.prefix_cons_iff.mp hfront with rfl | ⟨ks, rfl, hks⟩
    · exact Nat.zero_le _
    · have hle := h.1 ks hks
      have := hcount ks
      omega
  · have heq := h.2
    have := hcount kinds
    omega

namespace Scan

/-- Each word is a token of an action. -/
theorem isInner_ofWord (word : String) : (TokenKind.ofWord word).isInner := by
  unfold TokenKind.ofWord
  split
  · rfl
  · split
    · rfl
    · split <;> rfl

/-- A number is a token of an action, whatever its kind. -/
theorem isInner_of_number {c : Char} {cs : List Char} {m n : Nat} {kind : TokenKind}
    (h : read.number c cs m = .ok (kind, n)) : kind.isInner := by
  unfold read.number at h
  split at h
  · split at h
    · cases h
    · cases h
      rfl
  · cases h
    rfl

/-- So is a literal that is closed. -/
theorem isInner_of_elim {length? : Option Nat} {literal kind : TokenKind} {e : ScanError} {n : Nat}
    (h : (length?.map (literal, ·)).elim (.error e) .ok = Except.ok (kind, n))
    (hliteral : literal.isInner) : kind.isInner := by
  cases length? with
  | none => cases h
  | some m =>
    cases h
    exact hliteral

/-- What is read in an action is a token of it. -/
theorem isInner_of_read {c : Char} {cs : List Char} {kind : TokenKind} {n : Nat}
    (h : read c cs = .ok (kind, n)) : kind.isInner := by
  unfold read at h
  split at h
  · cases h
    rfl
  split at h
  · cases h
    exact isInner_ofWord _
  split at h
  · split at h
    · exact isInner_of_number h
    · cases h
  split at h
  case h_6 =>
    split at h <;> cases h
    rfl
  case h_8 =>
    split at h
    · split at h
      · cases h
        rfl
      · split at h
        · exact isInner_of_number h
        · cases h
          rfl
    · cases h
      rfl
  case h_9 | h_10 | h_11 => exact isInner_of_elim h rfl
  case h_12 => cases h
  all_goals
    cases h
    rfl

/-- What stands behind the left delimiter of an action, in which `depth` parentheses are open:
tokens of the action, then the right delimiter if the scan succeeds, else what could not be read. -/
inductive Fills (depth : Nat) : List Lexeme → Except ScanError (List Char) → Prop
  | closed {inner : List Lexeme} {close rest : List Char} : (∀ l ∈ inner, l.kind.isInner) →
    Balanced depth (inner.map (·.kind)) → Fills depth (inner ++ [⟨.rightDelim, close⟩]) (.ok rest)
  | failed {inner : List Lexeme} {chars : List Char} {e : ScanError} :
    (∀ l ∈ inner, l.kind.isInner) → Fills depth (inner ++ [⟨.lexError, chars⟩]) (.error e)

/-- A token that closes no parenthesis too many goes in front of the others. -/
theorem Fills.cons {depth : Nat} {kind : TokenKind} {ls : List Lexeme}
    {o : Except ScanError (List Char)} (h : Fills (depthBehind depth kind) ls o)
    (hkind : kind.isInner) (hparen : ¬(kind = .parenClose && depth = 0)) (chars : List Char) :
    Fills depth (⟨kind, chars⟩ :: ls) o := by
  cases h with
  | closed hinner hbalanced =>
    exact .closed (List.forall_mem_cons.mpr ⟨hkind, hinner⟩) (hbalanced.cons hparen)
  | failed hinner => exact .failed (List.forall_mem_cons.mpr ⟨hkind, hinner⟩)

/-- An action has matching parentheses, up to its right delimiter or to what could not be read. -/
theorem fills_scanAction (depth : Nat) (cs : List Char) :
    Fills depth (scanAction depth cs).lexemes (scanAction depth cs).outcome := by
  have hnone : ∀ l ∈ ([] : List Lexeme), l.kind.isInner := by simp
  have hfail (depth : Nat) (rest : List Char) (e : ScanError) :
      Fills depth (Result.fail rest e : Result (List Char)).lexemes (.error e) := .failed hnone
  fun_induction scanAction depth cs with
  | case1 | case3 | case4 | case5 => exact hfail _ _ _
  | case2 depth cs n _ hdepth =>
    obtain rfl := Nat.eq_zero_of_not_pos hdepth
    exact .closed hnone balanced_nil
  | case6 depth c cs kind n hread chars rest hparen =>
    exact (hfail _ _ _).cons (isInner_of_read hread) hparen chars
  | case7 depth c cs kind n hread chars rest hparen depth' _ _ ih =>
    exact Fills.cons ih (isInner_of_read hread) hparen chars

/-! ### Text -/

/-- The text in front of a mark does not hold the mark. -/
theorem not_infix_splitBefore {mark : List Char} (hmark : mark ≠ []) (cs : List Char) :
    ¬mark <:+: (splitBefore mark cs).1 := by
  induction cs with
  | nil => exact fun h ↦ hmark (List.infix_nil.mp h)
  | cons c cs ih =>
    rw [splitBefore]
    split
    next => exact fun h ↦ hmark (List.infix_nil.mp h)
    next hhere =>
      intro h
      rcases List.infix_cons_iff.mp h with h | h
      · have hfront : c :: (splitBefore mark cs).1 <+: c :: cs :=
          ⟨(splitBefore mark cs).2, congrArg (c :: ·) (splitBefore_append mark cs)⟩
        exact hhere (List.isPrefixOf_iff_prefix.mpr (h.trans hfront))
      · exact ih h

/-- Behind a text there is no text. -/
theorem kind_head?_scanText_splitBefore (cs : List Char) :
    ∀ l ∈ (scanText (splitBefore ['{', '{'] cs).2).lexemes.head?, l.kind ≠ .text := by
  have hdelim : (splitBefore ['{', '{'] cs).2 = [] ∨
      ['{', '{'] <+: (splitBefore ['{', '{'] cs).2 := by
    by_cases hnil : (splitBefore ['{', '{'] cs).2 = []
    · exact .inl hnil
    · exact .inr (splitBefore_append_of_ne_nil hnil []).1
  have hhead {kind : TokenKind} (hkind : kind ≠ .text) (chars : List Char) (ls : List Lexeme) :
      ∀ l ∈ (Lexeme.mk kind chars :: ls).head?, l.kind ≠ .text := by
    intro l hl
    obtain rfl := Option.some.inj hl
    exact hkind
  generalize (splitBefore ['{', '{'] cs).2 = rest at hdelim
  fun_cases scanText rest with
  | case1 => exact fun _ hl ↦ absurd hl nofun
  | case6 c tail hopen =>
    have hprefix := hdelim.resolve_left (List.cons_ne_nil c tail)
    exact absurd (List.isPrefixOf_iff_prefix.mpr hprefix) (not_isPrefixOf_of_ne hopen)
  | _ => exact hhead (by decide) _ _

end Scan

/-! ### Templates -/

/-- Texts, comments and actions one after the other. Behind them, or in one more action, stands what
could not be read, if there is an error. -/
inductive Stream : Option ScanError → List Lexeme → Prop
  | nil : Stream none []
  | text {error : Option ScanError} {chars : List Char} {ls : List Lexeme} :
    ¬['{', '{'] <:+: chars → (∀ l ∈ ls.head?, l.kind ≠ .text) → Stream error ls →
    Stream error (⟨.text, chars⟩ :: ls)
  | comment {error : Option ScanError} {chars : List Char} {ls : List Lexeme} : Stream error ls →
    Stream error (⟨.comment, chars⟩ :: ls)
  | action {error : Option ScanError} {mark close : List Char} {inner ls : List Lexeme} :
    (∀ l ∈ inner, l.kind.isInner) → Balanced 0 (inner.map (·.kind)) → Stream error ls →
    Stream error (⟨.leftDelim, mark⟩ :: inner ++ ⟨.rightDelim, close⟩ :: ls)
  | failed {e : ScanError} {chars : List Char} : Stream (some e) [⟨.lexError, chars⟩]
  | failedAction {e : ScanError} {mark chars : List Char} {inner : List Lexeme} :
    (∀ l ∈ inner, l.kind.isInner) →
    Stream (some e) (⟨.leftDelim, mark⟩ :: inner ++ [⟨.lexError, chars⟩])

/-- Why a scan did not come to the end of its text. -/
def Scan.failure {α : Type} : Except ScanError α → Option ScanError
  | .ok _ => none
  | .error e => some e

/-- The lexemes of any text are texts, comments and actions. -/
theorem stream_scanText (cs : List Char) :
    Stream (Scan.failure (Scan.scanText cs).outcome) (Scan.scanText cs).lexemes := by
  fun_induction Scan.scanText cs with
  | case1 => exact .nil
  | case2 => exact .failed
  | case3 tail marker inner _ rest _ ih => exact .comment ih
  | case4 tail marker inner _ action opening e herror =>
    have hfills : Scan.Fills 0 action.lexemes action.outcome := Scan.fills_scanAction 0 inner
    rw [herror] at hfills
    generalize action.lexemes = ls at hfills ⊢
    cases hfills with
    | failed hinner => exact .failedAction hinner
  | case5 tail marker inner _ action opening rest hrest r ih =>
    have hfills : Scan.Fills 0 action.lexemes action.outcome := Scan.fills_scanAction 0 inner
    rw [hrest] at hfills
    generalize action.lexemes = ls at hfills ⊢
    cases hfills with
    | closed hinner hbalanced =>
      rw [List.cons_append, List.append_assoc]
      exact .action hinner hbalanced ih
  | case6 c tail hopen ih =>
    refine .text ?_ (Scan.kind_head?_scanText_splitBefore tail) ih
    have htext := Scan.not_infix_splitBefore (List.cons_ne_nil '{' ['{']) (c :: tail)
    rw [Scan.splitBefore, if_neg (Scan.not_isPrefixOf_of_ne hopen)] at htext
    exact htext

/-- A token of a kind that only the end of a failed scan has, or of one that no scan has. -/
def TokenKind.isStray (kind : TokenKind) : Bool :=
  kind = .lexError || kind = .colon || kind = .punct

/-- No token of an action is a stray one. -/
theorem isStray_of_isInner {kind : TokenKind} (h : kind.isInner) : kind.isStray = false := by
  cases kind <;> first | rfl | cases h

/-- What could not be read is the last lexeme of a failed scan, and of no other one. -/
theorem Stream.exists_eq {error : Option ScanError} {ls : List Lexeme} (h : Stream error ls) :
    ∃ front back, ls = front ++ back ∧ (∀ l ∈ front, l.kind.isStray = false) ∧
      (error = none ∧ back = [] ∨ error.isSome ∧ ∃ chars, back = [⟨.lexError, chars⟩]) := by
  have hinner {ls : List Lexeme} (h : ∀ l ∈ ls, l.kind.isInner) :
      ∀ l ∈ ls, l.kind.isStray = false := fun l hl ↦ isStray_of_isInner (h l hl)
  induction h with
  | nil => exact ⟨[], [], rfl, by simp, .inl ⟨rfl, rfl⟩⟩
  | @text error chars ls _ _ _ ih | @comment error chars ls _ ih =>
    obtain ⟨front, back, rfl, hfront, hback⟩ := ih
    exact ⟨_ :: front, back, rfl, List.forall_mem_cons.mpr ⟨rfl, hfront⟩, hback⟩
  | @action error mark close inner ls hkinds _ _ ih =>
    obtain ⟨front, back, rfl, hfront, hback⟩ := ih
    refine ⟨⟨.leftDelim, mark⟩ :: inner ++ ⟨.rightDelim, close⟩ :: front, back, ?_, ?_, hback⟩
    · simp only [List.cons_append, List.append_assoc]
    · exact List.forall_mem_append.mpr ⟨List.forall_mem_cons.mpr ⟨rfl, hinner hkinds⟩,
        List.forall_mem_cons.mpr ⟨rfl, hfront⟩⟩
  | failed => exact ⟨[], _, rfl, by simp, .inr ⟨rfl, _, rfl⟩⟩
  | @failedAction e mark chars inner hkinds =>
    exact ⟨⟨.leftDelim, mark⟩ :: inner, [⟨.lexError, chars⟩], rfl,
      List.forall_mem_cons.mpr ⟨rfl, hinner hkinds⟩, .inr ⟨rfl, _, rfl⟩⟩

section Kinds

variable {error : Option ScanError} {ls : List Lexeme}

/-- A scan fails if and only if something could not be read. -/
theorem Stream.isSome_iff (h : Stream error ls) :
    error.isSome ↔ ∃ l ∈ ls, l.kind = .lexError := by
  obtain ⟨front, back, rfl, hfront, ⟨rfl, rfl⟩ | ⟨hsome, chars, rfl⟩⟩ := h.exists_eq
  · simp only [List.append_nil, Option.isSome_none, Bool.false_eq_true, false_iff]
    rintro ⟨l, hl, hkind⟩
    exact absurd (hfront l hl) (by rw [hkind]; decide)
  · exact iff_of_true hsome ⟨_, List.mem_append_right _ List.mem_cons_self, rfl⟩

/-- What could not be read is the last lexeme. -/
theorem Stream.kind_ne_of_mem_dropLast (h : Stream error ls) :
    ∀ l ∈ ls.dropLast, l.kind ≠ .lexError := by
  obtain ⟨front, back, rfl, hfront, hback⟩ := h.exists_eq
  have hdrop : (front ++ back).dropLast <+: front := by
    rcases hback with ⟨-, rfl⟩ | ⟨-, chars, rfl⟩
    · rw [List.append_nil]
      exact List.dropLast_prefix front
    · exact List.dropLast_concat ▸ List.prefix_rfl
  intro l hl hkind
  exact absurd (hfront l (hdrop.subset hl)) (by rw [hkind]; decide)

/-- White space stands in actions only. -/
theorem Stream.kind_head?_ne_whitespace (h : Stream error ls) :
    ∀ l ∈ ls.head?, l.kind ≠ .whitespace := by
  intro l hl
  cases h with
  | nil => cases hl
  | _ =>
    obtain rfl := Option.some.inj hl
    exact nofun

/-- No scan has tokens of the two kinds that nothing is scanned as. -/
theorem Stream.kind_known (h : Stream error ls) :
    ∀ l ∈ ls, l.kind ≠ .colon ∧ l.kind ≠ .punct := by
  obtain ⟨front, back, rfl, hfront, hback⟩ := h.exists_eq
  have hknown : ∀ l ∈ front, l.kind ≠ .colon ∧ l.kind ≠ .punct := by
    intro l hl
    have hstray := hfront l hl
    constructor <;> rintro hkind <;> rw [hkind] at hstray <;> cases hstray
  refine List.forall_mem_append.mpr ⟨hknown, ?_⟩
  rcases hback with ⟨-, rfl⟩ | ⟨-, chars, rfl⟩ <;> simp

end Kinds

/-! ### Empty tokens -/

namespace Scan

/-- Nothing but what could not be read is empty. -/
def Filled (ls : List Lexeme) : Prop := ∀ l ∈ ls, l.chars = [] → l.kind = .lexError

/-- What could not be read may be empty. -/
theorem filled_fail {α : Type} (rest : List Char) (e : ScanError) :
    Filled (Result.fail rest e : Result α).lexemes := by
  intro l hl _
  rw [List.mem_singleton.mp hl]

/-- A lexeme with a character is not empty. -/
theorem Filled.cons {ls : List Lexeme} (h : Filled ls) (kind : TokenKind) (c : Char)
    (cs : List Char) : Filled (⟨kind, c :: cs⟩ :: ls) :=
  List.forall_mem_cons.mpr ⟨fun hnil ↦ absurd hnil (List.cons_ne_nil c cs), h⟩

/-- A right delimiter is not empty. -/
theorem take_ne_nil_of_rightDelim? {cs : List Char} {n : Nat} (h : rightDelim? cs = some n) :
    cs.take n ≠ [] := by
  unfold rightDelim? at h
  split at h
  · cases h
    exact List.cons_ne_nil _ _
  · split at h <;> cases h
    exact List.cons_ne_nil _ _
  · cases h

/-- In an action nothing but what could not be read is empty. -/
theorem filled_scanAction (depth : Nat) (cs : List Char) :
    Filled (scanAction depth cs).lexemes := by
  fun_induction scanAction depth cs with
  | case1 | case3 | case4 | case5 => exact filled_fail _ _
  | case2 depth cs n hn =>
    intro l hl hnil
    rw [List.mem_singleton.mp hl] at hnil
    exact absurd hnil (take_ne_nil_of_rightDelim? hn)
  | case6 depth c cs kind n => exact (filled_fail _ _).cons kind c _
  | case7 depth c cs kind n _ chars rest _ depth' _ _ ih => exact ih.cons kind c _

/-- So it is in a whole text. -/
theorem filled_scanText (cs : List Char) : Filled (scanText cs).lexemes := by
  fun_induction scanText cs with
  | case1 => exact fun _ hl ↦ absurd hl List.not_mem_nil
  | case2 => exact filled_fail _ _
  | case3 tail marker inner _ rest _ ih => exact ih.cons .comment _ _
  | case4 tail marker inner => exact (filled_scanAction 0 inner).cons .leftDelim _ _
  | case5 tail marker inner _ action opening rest _ r ih =>
    have hbehind : Filled (action.lexemes ++ r.lexemes) :=
      List.forall_mem_append.mpr ⟨filled_scanAction 0 inner, ih⟩
    exact hbehind.cons .leftDelim _ _
  | case6 c tail _ ih => exact ih.cons .text _ _

end Scan

/-! ### Tokens of a template -/

def Token.lexeme (t : Token) : Lexeme := ⟨t.kind, t.text.toList⟩

/-- The tokens are the lexemes again, without their places. -/
theorem map_lexeme_place (start : Nat) (ls : List Lexeme) :
    (Token.place start ls).map Token.lexeme = ls := by
  induction ls generalizing start with
  | nil => rfl
  | cons l ls ih =>
    rw [Token.place, List.map_cons, ih, Token.lexeme, String.toList_ofList]

/-- The error of a template is that of its scan. -/
theorem error_ofText (text : String) :
    (Tokens.ofText text).error = Scan.failure (Scan.scanText text.toList).outcome := by
  rw [Tokens.ofText]
  cases (Scan.scanText text.toList).outcome <;> rfl

/-- What holds of the tokens of every template, and of the error of one that cannot be read. -/
structure Tokens.Regular (text : String) (ts : Tokens) : Prop where
  tiles : Tiles text ts.tokens
  filled : ∀ t ∈ ts.tokens, t.text = "" → t.kind = .lexError
  fails : ts.error.isSome ↔ ∃ t ∈ ts.tokens, t.kind = .lexError
  last : ∀ t ∈ ts.tokens.dropLast, t.kind ≠ .lexError
  known : ∀ t ∈ ts.tokens, t.kind ≠ .colon ∧ t.kind ≠ .punct
  stream : Stream ts.error (ts.tokens.map Token.lexeme)

/-- The tokens of every template are regular. -/
theorem regular_ofText (text : String) : (Tokens.ofText text).Regular text := by
  have hlexemes : (Tokens.ofText text).tokens.map Token.lexeme =
    (Scan.scanText text.toList).lexemes := map_lexeme_place 0 _
  have hmem {t : Token} (ht : t ∈ (Tokens.ofText text).tokens) :
      t.lexeme ∈ (Scan.scanText text.toList).lexemes := hlexemes ▸ List.mem_map_of_mem ht
  have hstream := error_ofText text ▸ stream_scanText text.toList
  exact {
    tiles := by
      have htiles := tiles_place (Scan.scanText text.toList).lexemes
      rw [Scan.charsOf_scanText, String.ofList_toList] at htiles
      exact htiles
    filled := fun t ht hnil ↦
      Scan.filled_scanText text.toList _ (hmem ht) (by rw [Token.lexeme, hnil, String.toList_empty])
    fails := by
      rw [hstream.isSome_iff, ← hlexemes]
      simp only [List.mem_map, exists_exists_and_eq_and, Token.lexeme]
    last := fun t ht ↦ by
      refine hstream.kind_ne_of_mem_dropLast t.lexeme ?_
      rw [← hlexemes, ← List.map_dropLast]
      exact List.mem_map_of_mem ht
    known := fun t ht ↦ hstream.kind_known t.lexeme (hmem ht)
    stream := hlexemes ▸ hstream }

/-- What could not be read may be empty. -/
example : (Tokens.ofText "up \x7b\x7b (1").tokens.map (fun t ↦ (t.kind, t.text)) =
    [(.text, "up "), (.leftDelim, "\x7b\x7b"), (.whitespace, " "), (.parenOpen, "("),
      (.number, "1"), (.lexError, "")] := by with_unfolding_all rfl

end AlertAudit.Template
