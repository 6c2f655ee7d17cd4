import AlertAudit.Proofs.Template.Concatenation
import AlertAudit.Proofs.Template.Cuts

/-!
Texts in parts. A text that is scanned to its end consists of texts, comments and actions, each of
which is scanned by itself (`scans_iff_units`). So where it is cut outside of its actions, both
parts are scanned as they are in the whole (`units_cut`), and behind an action or a comment another
text can be put (`scans_append`). The pieces are parted with the text (`parts_before`,
`parts_behind`).
-/

set_option autoImplicit false

namespace AlertAudit.Template.Scan

open AlertAudit.Text

/-! ### Texts that are scanned to their ends -/

def Scans (cs : List Char) (ls : List Lexeme) : Prop := scanText cs = ⟨ls, .ok ()⟩

theorem scans_iff {cs : List Char} {ls : List Lexeme} :
    Scans cs ls ↔ (scanText cs).lexemes = ls ∧ (scanText cs).outcome = .ok () := by
  constructor
  · intro h
    rw [Scans] at h
    rw [h]
    exact ⟨rfl, rfl⟩
  · rintro ⟨rfl, h⟩
    rw [Scans, ← h]

theorem scans_nil : Scans [] [] := by rw [Scans, scanText]

theorem Scans.charsOf_eq {cs : List Char} {ls : List Lexeme} (h : Scans cs ls) :
    charsOf ls = cs := by
  rw [← (scans_iff.mp h).1, charsOf_scanText]

theorem scanText_of_splitBefore {cs front rest : List Char} (hfront : front ≠ [])
    (h : splitBefore ['{', '{'] cs = (front, rest)) :
    scanText cs = .cons .text front (scanText rest) := by
  cases cs with
  | nil => exact absurd (congrArg Prod.fst h).symm hfront
  | cons c tail =>
    rw [splitBefore] at h
    split at h
    next => exact absurd (congrArg Prod.fst h).symm hfront
    next hdelim =>
      obtain ⟨rfl, rfl⟩ := Prod.mk.inj h
      exact scanText_text hdelim

/-- What does not start with text starts with a left delimiter. -/
theorem prefix_of_kind_head?_ne_text {cs : List Char} (hne : cs ≠ [])
    (h : ∀ l ∈ (scanText cs).lexemes.head?, l.kind ≠ .text) : ['{', '{'] <+: cs := by
  obtain ⟨c, tail, rfl⟩ := List.exists_cons_of_ne_nil hne
  by_contra hdelim
  rw [← List.isPrefixOf_iff_prefix] at hdelim
  rw [scanText_text hdelim] at h
  exact h _ rfl rfl

/-- Text goes up to a left delimiter or to the end, whatever follows the delimiter. -/
theorem splitBefore_of_scans {front rest : List Char} {ls : List Lexeme}
    (hsplit : splitBefore ['{', '{'] (front ++ rest) = (front, rest)) (hrest : rest ≠ [] ∨ ls = [])
    (h : Scans (charsOf ls) ls) (hhead : ∀ l ∈ ls.head?, l.kind ≠ .text) :
    splitBefore ['{', '{'] (front ++ charsOf ls) = (front, charsOf ls) := by
  by_cases hnil : charsOf ls = []
  · have hno : ¬['{', '{'] <:+: front := by
      have h := not_infix_splitBefore (List.cons_ne_nil '{' ['{']) (front ++ rest)
      rwa [hsplit] at h
    have hnone : (splitBefore ['{', '{'] front).2 = [] := by
      by_contra hne
      exact hno ((splitBefore_append_of_ne_nil hne []).1.isInfix.trans
        (List.IsSuffix.isInfix ⟨_, splitBefore_append _ front⟩))
    have hall := splitBefore_append ['{', '{'] front
    rw [hnone, List.append_nil] at hall
    rw [hnil, List.append_nil]
    exact Prod.ext hall hnone
  · have hne : rest ≠ [] := by
      refine hrest.resolve_right ?_
      rintro rfl
      exact hnil rfl
    have hmark : ['{', '{'] <+: rest := by
      have hfound : (splitBefore ['{', '{'] (front ++ rest)).2 ≠ [] := by rwa [hsplit]
      have hprefix := (splitBefore_append_of_ne_nil hfound []).1
      rwa [hsplit] at hprefix
    obtain ⟨after, rfl⟩ := hmark
    obtain ⟨after', hafter'⟩ := prefix_of_kind_head?_ne_text hnil
      (by rw [(scans_iff.mp h).1]; exact hhead)
    rw [← hafter']
    exact splitBefore_replace (List.cons_ne_nil _ _) hsplit after'

/-- Whether there is a trim marker is told by the first two characters. -/
theorem trimMarkerLength_append {cs : List Char} (h : 2 ≤ cs.length) (ds : List Char) :
    trimMarkerLength (cs ++ ds) = trimMarkerLength cs := by
  rcases cs with _ | ⟨x, _ | ⟨y, cs⟩⟩
  · exact absurd h (by simp)
  · exact absurd h (by simp)
  · by_cases hdash : x = '-'
    · subst hdash
      rfl
    · simp [trimMarkerLength, hdash]

/-- A comment is scanned the same if the text ends with it. -/
theorem scans_comment {tail rest : List Char}
    (hmark : (['/', '*'] : List Char).isPrefixOf (tail.drop (trimMarkerLength tail)))
    (h : afterComment ((tail.drop (trimMarkerLength tail)).drop 2) = .ok rest) :
    Scans ('{' :: '{' :: tail.take (tail.length - rest.length))
      [⟨.comment, '{' :: '{' :: tail.take (tail.length - rest.length)⟩] := by
  have hinner := suffix_of_afterComment h
  obtain ⟨front, htail⟩ : rest <:+ tail :=
    hinner.trans ((List.drop_suffix 2 _).trans (List.drop_suffix _ tail))
  have htake : tail.take (tail.length - rest.length) = front := by
    rw [← htail, List.length_append, Nat.add_sub_cancel, List.take_left]
  rw [htake]
  obtain ⟨close, hclose⟩ := List.isPrefixOf_iff_prefix.mp hmark
  have hlong : trimMarkerLength tail + 2 ≤ front.length := by
    have hlength := hinner.length_le
    have hall := congrArg List.length hclose
    rw [← htail] at hlength hall ⊢
    simp only [List.length_append, List.length_drop, List.length_cons, List.length_nil]
      at hlength hall
    omega
  have hmarker : trimMarkerLength front = trimMarkerLength tail := by
    rw [← htail, trimMarkerLength_append (by omega)]
  have hdrop : tail.drop (trimMarkerLength tail) = front.drop (trimMarkerLength front) ++ rest := by
    rw [← hmarker, ← htail, List.drop_append_of_le_length (by omega)]
  have hbody : 2 ≤ (front.drop (trimMarkerLength front)).length := by
    rw [List.length_drop]
    omega
  rw [hdrop, List.drop_append_of_le_length hbody] at h
  have hmark' : (['/', '*'] : List Char).isPrefixOf (front.drop (trimMarkerLength front)) := by
    rw [hdrop, List.isPrefixOf_iff_prefix] at hmark
    rw [List.isPrefixOf_iff_prefix]
    exact List.prefix_of_prefix_length_le hmark (List.prefix_append _ rest) hbody
  rw [Scans, scanText_comment hmark' (afterComment_of_append h), scans_nil, List.length_nil,
    Nat.sub_zero, List.take_length]
  rfl

/-- An action is scanned the same if the text ends with it. -/
theorem scans_action {tail rest : List Char}
    (hmark : ¬(['/', '*'] : List Char).isPrefixOf (tail.drop (trimMarkerLength tail)))
    (h : (scanAction 0 (tail.drop (trimMarkerLength tail))).outcome = .ok rest) :
    Scans (charsOf (⟨.leftDelim, '{' :: '{' :: tail.take (trimMarkerLength tail)⟩ ::
        (scanAction 0 (tail.drop (trimMarkerLength tail))).lexemes))
      (⟨.leftDelim, '{' :: '{' :: tail.take (trimMarkerLength tail)⟩ ::
        (scanAction 0 (tail.drop (trimMarkerLength tail))).lexemes) := by
  have hshort := scanAction_charsOf h
  have hchars := charsOf_scanAction 0 (tail.drop (trimMarkerLength tail))
  rw [h] at hchars
  generalize hls : (scanAction 0 (tail.drop (trimMarkerLength tail))).lexemes = ls at *
  have hcloses : Closes (charsOf ls) := closes_of_scanAction 0 (congrArg Result.outcome hshort)
  have hchars : charsOf ls ++ rest = tail.drop (trimMarkerLength tail) := hchars
  have hlength : (tail.take (trimMarkerLength tail)).length = trimMarkerLength tail :=
    List.length_take_of_le (trimMarkerLength_le tail)
  have hmarker : trimMarkerLength (tail.take (trimMarkerLength tail) ++ charsOf ls) =
      trimMarkerLength tail := by
    have hlong : 2 ≤ (tail.take (trimMarkerLength tail) ++ charsOf ls).length := by
      rw [List.length_append]
      exact Nat.le_add_left_of_le hcloses.two_le_length
    rw [← trimMarkerLength_append hlong rest, List.append_assoc, hchars, List.take_append_drop]
  have hdrop : (tail.take (trimMarkerLength tail) ++ charsOf ls).drop (trimMarkerLength tail) =
      charsOf ls := List.drop_left' hlength
  have hmark' : ¬(['/', '*'] : List Char).isPrefixOf
      ((tail.take (trimMarkerLength tail) ++ charsOf ls).drop
        (trimMarkerLength (tail.take (trimMarkerLength tail) ++ charsOf ls))) := by
    rw [← hchars, List.isPrefixOf_iff_prefix] at hmark
    rw [hmarker, hdrop, List.isPrefixOf_iff_prefix]
    exact fun hshort ↦ hmark (hshort.trans (List.prefix_append _ rest))
  have hclosed : (scanAction 0 ((tail.take (trimMarkerLength tail) ++ charsOf ls).drop
      (trimMarkerLength (tail.take (trimMarkerLength tail) ++ charsOf ls)))).outcome = .ok [] := by
    rw [hmarker, hdrop, hshort]
  have hscan := scanText_action hmark' hclosed
  rw [hmarker, hdrop, hshort, List.take_left' hlength, scans_nil] at hscan
  rw [charsOf_cons, Scans, List.cons_append, List.cons_append, hscan]
  simp

/-! ### Cuts -/

/-- A lexeme behind which a new token is scanned outside of actions, and not a part of a text. -/
def Ends (l : Lexeme) : Prop := l.kind = .rightDelim ∨ l.kind = .comment

/-- The lexemes that end an action or a comment end with a brace. -/
def Braced (ls : List Lexeme) : Prop := ∀ l ∈ ls, Ends l → l.chars.getLast? = some '}'

theorem Braced.cons {ls : List Lexeme} (h : Braced ls) {kind : TokenKind} {chars : List Char}
    (hkind : ¬Ends ⟨kind, chars⟩) : Braced (⟨kind, chars⟩ :: ls) :=
  List.forall_mem_cons.mpr ⟨fun hends ↦ absurd hends hkind, h⟩

theorem getLast?_take_of_rightDelim? {cs : List Char} {n : Nat} (h : rightDelim? cs = some n) :
    (cs.take n).getLast? = some '}' := by
  unfold rightDelim? at h
  split at h
  · cases h
    rfl
  · split at h <;> cases h
    rfl
  · cases h

theorem not_ends_of_isInner {kind : TokenKind} (h : kind.isInner) (chars : List Char) :
    ¬Ends ⟨kind, chars⟩ := by
  rintro (hkind | hkind) <;> rw [show kind = _ from hkind] at h <;> exact absurd h (by decide)

theorem braced_scanAction (depth : Nat) (cs : List Char) :
    Braced (scanAction depth cs).lexemes := by
  have hfail {α : Type} (rest : List Char) (e : ScanError) :
      Braced (Result.fail rest e : Result α).lexemes :=
    List.forall_mem_singleton.mpr fun h ↦ absurd h (by rintro (h | h) <;> cases h)
  fun_induction scanAction depth cs with
  | case1 | case3 | case4 | case5 => exact hfail _ _
  | case2 depth cs n hn =>
    exact List.forall_mem_singleton.mpr fun _ ↦ getLast?_take_of_rightDelim? hn
  | case6 depth c cs kind n hread =>
    exact (hfail _ _).cons (not_ends_of_isInner (isInner_of_read hread) _)
  | case7 depth c cs kind n hread chars rest _ depth' _ _ ih =>
    exact ih.cons (not_ends_of_isInner (isInner_of_read hread) _)

theorem getLast?_take_of_afterComment {tail rest : List Char} {m : Nat}
    (h : afterComment (tail.drop m) = .ok rest) :
    (tail.take (tail.length - rest.length)).getLast? = some '}' := by
  obtain ⟨close, n, hclose, hn, hrest⟩ := afterComment_eq_ok_iff.mp h
  have hsplit := splitBefore_append ['*', '/'] (tail.drop m)
  generalize (splitBefore ['*', '/'] (tail.drop m)).1 = before at hsplit
  have htail : tail = (tail.take m ++ before ++ ['*', '/'] ++ close.take n) ++ rest := by
    have hbehind : before ++ (['*', '/'] ++ close) = tail.drop m := by rw [← hsplit, hclose]; rfl
    rw [← hrest, List.append_assoc _ (close.take n), List.take_append_drop, List.append_assoc,
      List.append_assoc, hbehind, List.take_append_drop]
  have hfront : tail.take (tail.length - rest.length) =
      tail.take m ++ before ++ ['*', '/'] ++ close.take n := by
    have hlength := congrArg List.length htail
    rw [List.length_append] at hlength
    refine (congrArg _ htail).trans (List.take_left' ?_)
    omega
  rw [hfront, List.getLast?_append, getLast?_take_of_rightDelim? hn, Option.some_or]

theorem braced_scanText (cs : List Char) : Braced (scanText cs).lexemes := by
  fun_induction scanText cs with
  | case1 => exact fun _ h ↦ absurd h List.not_mem_nil
  | case2 => exact List.forall_mem_singleton.mpr fun h ↦ absurd h (by rintro (h | h) <;> cases h)
  | case3 tail marker inner _ rest hrest ih =>
    refine List.forall_mem_cons.mpr ⟨fun _ ↦ ?_, ih⟩
    have hlast : (tail.take (tail.length - rest.length)).getLast? = some '}' :=
      getLast?_take_of_afterComment (m := marker + 2) (by rw [← List.drop_drop]; exact hrest)
    rw [List.getLast?_cons, List.getLast?_cons, hlast]
    rfl
  | case4 tail marker inner =>
    exact (braced_scanAction 0 inner).cons (by rintro (h | h) <;> cases h)
  | case5 tail marker inner _ action opening rest _ r ih =>
    have hbehind : Braced (action.lexemes ++ r.lexemes) :=
      List.forall_mem_append.mpr ⟨braced_scanAction 0 inner, ih⟩
    exact hbehind.cons (by rintro (h | h) <;> cases h)
  | case6 c tail _ ih => exact ih.cons (by rintro (h | h) <;> cases h)

/-- The lexemes of two texts one after the other. -/
theorem scans_append {cs ds : List Char} {ls ms : List Lexeme} (h : Scans cs ls) (h' : Scans ds ms)
    (hlast : ∃ l ∈ ls.getLast?, Ends l) : Scans (cs ++ ds) (ls ++ ms) := by
  obtain ⟨l, hl, hends⟩ := hlast
  obtain ⟨front, rfl⟩ := List.getLast?_eq_some_iff.mp hl
  obtain ⟨hls, houtcome⟩ := scans_iff.mp h
  obtain ⟨hms, houtcome'⟩ := scans_iff.mp h'
  have hseam : ¬Delimits cs ds := by
    intro hseam
    have hbrace := braced_scanText cs l (by rw [hls]; simp) hends
    have hchars := h.charsOf_eq
    rw [charsOf_append] at hchars
    have hend : cs.getLast? = some '}' := by
      rw [← hchars, List.getLast?_append, charsOf_cons]
      rw [show charsOf [] = [] from rfl, List.append_nil, hbrace, Option.some_or]
    exact absurd (hend.symm.trans hseam.1) (by decide)
  obtain ⟨hboth, hjoined⟩ := scanText_append houtcome hseam
  rw [hls, hms] at hjoined
  refine scans_iff.mpr ⟨?_, hboth.trans houtcome'⟩
  generalize (scanText (cs ++ ds)).lexemes = ns at hjoined ⊢
  generalize hfirst : front ++ [l] = first at hjoined ⊢
  cases hjoined with
  | apart => rfl
  | merged =>
    obtain ⟨-, hl⟩ := List.append_inj' hfirst rfl
    rw [(List.cons.inj hl).1] at hends
    exact absurd hends (by rintro (h | h) <;> cases h)

/-- Texts, comments and actions one after the other, each of which is scanned by itself. -/
inductive Units : List Lexeme → Prop
  | nil : Units []
  | text {front : List Char} {ls : List Lexeme} : front ≠ [] →
    splitBefore ['{', '{'] (front ++ charsOf ls) = (front, charsOf ls) →
    (∀ l ∈ ls.head?, l.kind ≠ .text) → Units ls → Units (⟨.text, front⟩ :: ls)
  | comment {chars : List Char} {ls : List Lexeme} : Scans chars [⟨.comment, chars⟩] → Units ls →
    Units (⟨.comment, chars⟩ :: ls)
  | action {mark close : List Char} {inner ls : List Lexeme} : (∀ l ∈ inner, l.kind.isInner) →
    Scans (charsOf (⟨.leftDelim, mark⟩ :: (inner ++ [⟨.rightDelim, close⟩])))
      (⟨.leftDelim, mark⟩ :: (inner ++ [⟨.rightDelim, close⟩])) → Units ls →
    Units (⟨.leftDelim, mark⟩ :: (inner ++ [⟨.rightDelim, close⟩]) ++ ls)

theorem units_scanText {cs : List Char} (h : (scanText cs).outcome = .ok ()) :
    Units (scanText cs).lexemes := by
  fun_induction scanText cs with
  | case1 => exact .nil
  | case2 => cases h
  | case3 tail marker inner hmark rest hrest ih => exact .comment (scans_comment hmark hrest) (ih h)
  | case4 => cases h
  | case5 tail marker inner hmark action opening rest hrest r ih =>
    have hunit := scans_action hmark hrest
    have hfills : Fills 0 action.lexemes action.outcome := fills_scanAction 0 inner
    have hscans : Scans (charsOf (opening :: action.lexemes)) (opening :: action.lexemes) := hunit
    rw [hrest] at hfills
    generalize action.lexemes = ls at hfills hscans
    cases hfills with
    | closed hinner _ => exact .action hinner hscans (ih h)
  | case6 c tail hopen ih =>
    have hdelim := not_isPrefixOf_of_ne hopen
    have hsplit := splitBefore_append ['{', '{'] tail
    refine .text (List.cons_ne_nil _ _) ?_ (kind_head?_scanText_splitBefore tail) (ih h)
    rw [charsOf_scanText, List.cons_append, splitBefore, hsplit, if_neg hdelim]

/-- The lexemes of the texts that are scanned to their ends. -/
theorem scans_iff_units {cs : List Char} {ls : List Lexeme} :
    Scans cs ls ↔ Units ls ∧ charsOf ls = cs := by
  constructor
  · intro h
    obtain ⟨rfl, houtcome⟩ := scans_iff.mp h
    exact ⟨units_scanText houtcome, charsOf_scanText cs⟩
  · rintro ⟨h, rfl⟩
    induction h with
    | nil => exact scans_nil
    | text hfront hsplit _ _ ih =>
      rw [charsOf_cons, Scans, scanText_of_splitBefore hfront hsplit]
      exact congrArg (Result.cons .text _) ih
    | comment hunit _ ih =>
      exact scans_append hunit ih ⟨_, rfl, .inr rfl⟩
    | @action mark close inner ls _ hunit _ ih =>
      rw [charsOf_append]
      refine scans_append hunit ih ⟨⟨.rightDelim, close⟩, ?_, .inl rfl⟩
      rw [← List.cons_append]
      exact List.getLast?_concat

theorem Units.scans {ls : List Lexeme} (h : Units ls) : Scans (charsOf ls) ls :=
  scans_iff_units.mpr ⟨h, rfl⟩

/-- The lexemes are parted outside of an action. -/
def Outside (ls ms : List Lexeme) : Prop :=
  ls = [] ∨ ms = [] ∨ (∃ l ∈ ls.getLast?, Ends l) ∨ ∃ m ∈ ms.head?, m.kind = .leftDelim

theorem Outside.of_append (us : List Lexeme) {ls ms : List Lexeme} (h : Outside (us ++ ls) ms) :
    Outside ls ms := by
  by_cases hnil : ls = []
  · exact .inl hnil
  · obtain ⟨front, l, rfl⟩ := (List.eq_nil_or_concat' ls).resolve_left hnil
    rw [← List.append_assoc] at h
    rcases h with h | h | ⟨k, hk, hends⟩ | h
    · exact absurd h (by simp)
    · exact .inr (.inl h)
    · rw [List.getLast?_concat] at hk
      exact .inr (.inr (.inl ⟨k, by rw [List.getLast?_concat]; exact hk, hends⟩))
    · exact .inr (.inr (.inr h))

/-- An action is not parted outside of it. -/
theorem not_outside_of_action {mark close : List Char} {inner ls us ms : List Lexeme}
    (hinner : ∀ l ∈ inner, l.kind.isInner)
    (h : ⟨.leftDelim, mark⟩ :: (inner ++ [⟨.rightDelim, close⟩]) = ls ++ us) (hls : ls ≠ [])
    (hus : us ≠ []) : ¬Outside ls (us ++ ms) := by
  obtain ⟨l, front, rfl⟩ := List.exists_cons_of_ne_nil hls
  obtain ⟨rfl, hbehind⟩ := List.cons.inj h
  obtain ⟨back, u, rfl⟩ := (List.eq_nil_or_concat' us).resolve_left hus
  have hparts : inner ++ [⟨.rightDelim, close⟩] = front ++ back ++ [u] := by
    rw [List.append_assoc]
    exact hbehind
  obtain ⟨rfl, hu⟩ := List.append_inj' hparts rfl
  obtain rfl := (List.cons.inj hu).1
  obtain ⟨hfront, hback⟩ := List.forall_mem_append.mp hinner
  rintro (h | h | ⟨k, hk, hends⟩ | ⟨k, hk, hkind⟩)
  · exact absurd h (by simp)
  · exact absurd h (by simp)
  · rcases List.mem_cons.mp (List.mem_of_getLast? hk) with rfl | hmem
    · exact absurd hends (by rintro (h | h) <;> cases h)
    · exact not_ends_of_isInner (hfront k hmem) k.chars hends
  · cases back with
    | nil =>
      obtain rfl := Option.some.inj hk
      cases hkind
    | cons x back =>
      obtain rfl := Option.some.inj hk
      have hx := hback x List.mem_cons_self
      rw [hkind] at hx
      exact absurd hx (by decide)

/-- Parted outside of an action, both parts are texts, comments and actions again. -/
theorem units_cut {ls ms : List Lexeme} (h : Units (ls ++ ms)) (hout : Outside ls ms) :
    Units ls ∧ Units ms := by
  generalize hall : ls ++ ms = all at h
  induction h generalizing ls with
  | nil =>
    obtain ⟨rfl, rfl⟩ := List.append_eq_nil_iff.mp hall
    exact ⟨.nil, .nil⟩
  | @text front rest hfront hsplit hhead hrest ih =>
    rcases List.append_eq_cons_iff.mp hall with ⟨rfl, rfl⟩ | ⟨ls, rfl, rfl⟩
    · exact ⟨.nil, .text hfront hsplit hhead hrest⟩
    · obtain ⟨hls, hms⟩ := ih (hout.of_append [_]) rfl
      have hhead' : ∀ l ∈ ls.head?, l.kind ≠ .text := by
        cases ls with
        | nil => exact fun _ hl ↦ absurd hl nofun
        | cons l ls => exact hhead
      have hne : charsOf (ls ++ ms) ≠ [] ∨ ls = [] := by
        rw [or_iff_not_imp_left, not_not]
        intro hnil
        have hscans := hrest.scans
        rw [hnil, Scans, scans_nil] at hscans
        exact (List.append_eq_nil_iff.mp (congrArg Result.lexemes hscans).symm).1
      exact ⟨.text hfront (splitBefore_of_scans hsplit hne hls.scans hhead') hhead' hls, hms⟩
  | @comment chars rest hunit hrest ih =>
    rcases List.append_eq_cons_iff.mp hall with ⟨rfl, rfl⟩ | ⟨ls, rfl, rfl⟩
    · exact ⟨.nil, .comment hunit hrest⟩
    · obtain ⟨hls, hms⟩ := ih (hout.of_append [_]) rfl
      exact ⟨.comment hunit hls, hms⟩
  | @action mark close inner rest hinner hunit hrest ih =>
    rcases List.append_eq_append_iff.mp hall with ⟨us, hls, rfl⟩ | ⟨us, rfl, rfl⟩
    · by_cases hnil : ls = []
      · subst hnil
        obtain rfl := hls
        exact ⟨.nil, .action hinner hunit hrest⟩
      by_cases hnil' : us = []
      · subst hnil'
        rw [List.append_nil] at hls
        have hone := Units.action hinner hunit .nil
        rw [List.append_nil, hls] at hone
        exact ⟨hone, hrest⟩
      · exact absurd hout (not_outside_of_action hinner hls hnil hnil')
    · obtain ⟨hls, hms⟩ := ih (hout.of_append _) rfl
      exact ⟨.action hinner hunit hls, hms⟩

end AlertAudit.Template.Scan

namespace AlertAudit.Template

open AlertAudit.Text
open Scan (Scans Ends Outside charsOf)

/-! ### Pieces in parts -/

theorem Piece.moved_moved (m n : Nat) (p : Piece) : (p.moved m).moved n = p.moved (m + n) :=
  congrArg (fun start ↦ (⟨⟨p.kind, start, p.text⟩, p.spaced⟩ : Piece)) (Nat.add_assoc _ _ _)

theorem map_moved_map_moved (m n : Nat) (ps : List Piece) :
    (ps.map (·.moved m)).map (·.moved n) = ps.map (·.moved (m + n)) := by
  rw [List.map_map]
  exact List.map_congr_left fun p _ ↦ p.moved_moved m n

/-- The pieces of lexemes from the start of a text on. -/
def piecesOf (ls : List Lexeme) : List Piece := pieces (Token.place 0 ls)

theorem piecesOf_append {ds : List Char} {ms : List Lexeme} (ls : List Lexeme) (h : Scans ds ms) :
    piecesOf (ls ++ ms) =
      piecesOf ls ++ (piecesOf ms).map (·.moved (utf8Length (charsOf ls))) := by
  have hfirst : ∀ u ∈ (Token.place (0 + utf8Length (charsOf ls)) ms).head?,
      u.isTrivia = false := by
    have hhead := (stream_scanText ds).kind_head?_ne_whitespace
    rw [(Scan.scans_iff.mp h).1] at hhead
    cases ms with
    | nil => exact fun _ hu ↦ absurd hu nofun
    | cons m ms =>
      intro u hu
      obtain rfl := Option.some.inj hu
      exact decide_eq_false (hhead m rfl)
  rw [piecesOf, place_append, pieces_append hfirst, place_moved, pieces_moved]
  rfl

/-- The last lexeme is the last piece, if it is no white space. -/
theorem piecesOf_concat (ls : List Lexeme) {l : Lexeme} (hl : l.kind ≠ .whitespace) :
    piecesOf (ls ++ [l]) = piecesOf ls ++
      [⟨⟨l.kind, 0 + utf8Length (charsOf ls), String.ofList l.chars⟩, false⟩] := by
  have hsolid : ∀ u ∈ (Token.place (0 + utf8Length (charsOf ls)) [l]).head?,
      u.isTrivia = false := by
    intro u hu
    obtain rfl := Option.some.inj hu
    exact decide_eq_false hl
  rw [piecesOf, place_append, pieces_append hsolid, Token.place, pieces_cons (hsolid _ rfl)]
  rfl

/-- The lexeme of a piece, with those in front of it. -/
theorem exists_of_pieces_place {n : Nat} {ls : List Lexeme} {ps qs : List Piece} {p : Piece}
    (h : pieces (Token.place n ls) = ps ++ p :: qs) : ∃ front l back, ls = front ++ l :: back ∧
      l.kind = p.kind ∧ (pieces (Token.place n front)).length = ps.length := by
  induction ls generalizing n ps with
  | nil => exact absurd h (by simp [Token.place, pieces])
  | cons l ls ih =>
    rw [Token.place, pieces] at h
    split at h
    next htrivia =>
      obtain ⟨front, m, back, rfl, hkind, hlength⟩ := ih h
      refine ⟨l :: front, m, back, rfl, hkind, ?_⟩
      rw [Token.place, pieces, if_pos htrivia]
      exact hlength
    next htrivia =>
      cases ps with
      | nil => exact ⟨[], l, ls, rfl, congrArg Piece.kind (List.cons.inj h).1, rfl⟩
      | cons q ps =>
        obtain ⟨front, m, back, rfl, hkind, hlength⟩ := ih (List.cons.inj h).2
        refine ⟨l :: front, m, back, rfl, hkind, ?_⟩
        rw [Token.place, pieces, if_neg htrivia, List.length_cons, List.length_cons]
        exact congrArg (· + 1) hlength

section Parts

variable {ls ms : List Lexeme} {ps qs : List Piece}

/-- Lexemes in two parts that are scanned by themselves. -/
theorem parts_of_outside (h : Scans (charsOf (ls ++ ms)) (ls ++ ms)) (hout : Outside ls ms)
    (hpieces : piecesOf (ls ++ ms) = ps ++ qs) (hlength : (piecesOf ls).length = ps.length) :
    Scans (charsOf ls) ls ∧ Scans (charsOf ms) ms ∧
      ps = piecesOf ls ∧ qs = (piecesOf ms).map (·.moved (utf8Length (charsOf ls))) := by
  obtain ⟨hunits, -⟩ := Scan.scans_iff_units.mp h
  obtain ⟨hls, hms⟩ := Scan.units_cut hunits hout
  rw [piecesOf_append ls hms.scans] at hpieces
  obtain ⟨rfl, rfl⟩ := List.append_inj hpieces hlength
  exact ⟨hls.scans, hms.scans, rfl, rfl⟩

/-- A text is cut in front of an action. -/
theorem parts_before (h : Scans (charsOf ls) ls) (hpieces : piecesOf ls = ps ++ qs)
    (hqs : StartsAction qs) : ∃ front back, ls = front ++ back ∧ Scans (charsOf front) front ∧
      Scans (charsOf back) back ∧ ps = piecesOf front ∧
        qs = (piecesOf back).map (·.moved (utf8Length (charsOf front))) := by
  obtain ⟨p, r, rfl, hp⟩ := hqs
  obtain ⟨front, l, back, rfl, hkind, hlength⟩ := exists_of_pieces_place hpieces
  exact ⟨front, l :: back, rfl, parts_of_outside h
    (.inr (.inr (.inr ⟨l, rfl, hkind.trans hp⟩))) hpieces hlength⟩

/-- A text is cut behind an action. -/
theorem parts_behind (h : Scans (charsOf ls) ls) (hpieces : piecesOf ls = ps ++ qs)
    (hps : EndsAction ps) : ∃ front back, ls = front ++ back ∧
      (Scans (charsOf front) front ∧ ∃ l ∈ front.getLast?, Ends l) ∧ Scans (charsOf back) back ∧
        ps = piecesOf front ∧
          qs = (piecesOf back).map (·.moved (utf8Length (charsOf front))) := by
  obtain ⟨r, p, rfl, hp⟩ := hps
  rw [List.append_assoc] at hpieces
  obtain ⟨front, l, back, rfl, hkind, hlength⟩ := exists_of_pieces_place hpieces
  have hl : l.kind = .rightDelim := hkind.trans hp
  have hlast : ∃ m ∈ (front ++ [l]).getLast?, Ends m := ⟨l, List.getLast?_concat, .inl hl⟩
  have hone : (piecesOf (front ++ [l])).length = (r ++ [p]).length := by
    rw [piecesOf_concat front (hl ▸ nofun : l.kind ≠ .whitespace), List.length_append,
      List.length_append, piecesOf, hlength]
    rfl
  rw [← List.append_assoc] at hpieces
  rw [List.append_cons] at h hpieces ⊢
  obtain ⟨hfront, hback, hps, hqs⟩ :=
    parts_of_outside h (.inr (.inr (.inl hlast))) hpieces hone
  exact ⟨front ++ [l], back, rfl, ⟨hfront, hlast⟩, hback, hps, hqs⟩

end Parts

end AlertAudit.Template
