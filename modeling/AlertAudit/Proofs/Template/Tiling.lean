import AlertAudit.Template.Scan

/-!
The tokens of a template tile its text: put side by side they are the text, whether or not the
scan ends early. What could not be read is the text of the last token.
-/

set_option autoImplicit false

namespace AlertAudit.Template

namespace Scan

def charsOf (lexemes : List Lexeme) : List Char := lexemes.flatMap (·.chars)

/-- What a scan of an action leaves for the text behind it. -/
def left : Except ScanError (List Char) → List Char
  | .ok rest => rest
  | .error _ => []

@[simp]
theorem charsOf_cons (l : Lexeme) (ls : List Lexeme) : charsOf (l :: ls) = l.chars ++ charsOf ls :=
  rfl

@[simp]
theorem charsOf_append (ls ms : List Lexeme) : charsOf (ls ++ ms) = charsOf ls ++ charsOf ms :=
  List.flatMap_append

/-- Behind an error the rest of the text is one lexeme. -/
theorem charsOf_fail {α : Type} (rest : List Char) (e : ScanError) :
    charsOf (Result.fail rest e : Result α).lexemes = rest := List.append_nil rest

/-- A lexeme in front of a scan puts its characters in front. -/
theorem charsOf_result_cons {α : Type} (kind : TokenKind) (chars : List Char) (r : Result α) :
    charsOf (r.cons kind chars).lexemes = chars ++ charsOf r.lexemes := rfl

/-- The lexemes of an action with what follows it are the scanned text. -/
theorem charsOf_scanAction (depth : Nat) (cs : List Char) :
    charsOf (scanAction depth cs).lexemes ++ left (scanAction depth cs).outcome = cs := by
  fun_induction scanAction depth cs with
  | case1 depth cs => rw [charsOf_fail]; exact List.append_nil cs
  | case2 depth cs n => exact (List.append_assoc _ _ _).trans (List.take_append_drop n cs)
  | case3 => rfl
  | case4 depth c cs => rw [charsOf_fail]; exact List.append_nil _
  | case5 depth c cs => rw [charsOf_fail]; exact List.append_nil _
  | case6 depth c cs kind n _ chars rest =>
    rw [charsOf_result_cons, charsOf_fail]
    refine (List.append_nil _).trans ?_
    exact congrArg (c :: ·) (List.take_append_drop n cs)
  | case7 depth c cs kind n _ chars rest _ depth' _ _ ih =>
    rw [charsOf_result_cons, List.append_assoc]
    have hrest : charsOf (scanAction depth' rest).lexemes ++
        left (Result.cons kind chars (scanAction depth' rest)).outcome = rest := ih
    rw [hrest]
    exact congrArg (c :: ·) (List.take_append_drop n cs)

/-- A text is cut in front of a mark without loss. -/
theorem splitBefore_append (mark cs : List Char) :
    (splitBefore mark cs).1 ++ (splitBefore mark cs).2 = cs := by
  induction cs with
  | nil => rfl
  | cons c cs ih =>
    rw [splitBefore]
    split
    · rfl
    · exact congrArg (c :: ·) ih

/-- Behind a comment stands the rest of the text. -/
theorem suffix_of_afterComment {cs rest : List Char} (h : afterComment cs = .ok rest) :
    rest <:+ cs := by
  have hsplit : (splitBefore ['*', '/'] cs).2 <:+ cs := ⟨_, splitBefore_append _ _⟩
  unfold afterComment at h
  split at h
  · exact absurd h (by simp)
  · split at h
    · exact absurd h (by simp)
    · rw [← Except.ok.inj h]
      exact (List.drop_suffix _ _).trans hsplit

/-- The lexemes of a template are its text. -/
theorem charsOf_scanText (cs : List Char) : charsOf (scanText cs).lexemes = cs := by
  fun_induction scanText cs with
  | case1 => rfl
  | case2 tail => exact charsOf_fail _ _
  | case3 tail marker inner hcomment rest hrest ih =>
    have hsuffix : rest <:+ tail := (suffix_of_afterComment hrest).trans
      ((List.drop_suffix _ _).trans (List.drop_suffix _ _))
    obtain ⟨front, rfl⟩ := hsuffix
    rw [charsOf_result_cons, ih]
    simp
  | case4 tail marker inner hcomment action opening e herror =>
    have haction : charsOf action.lexemes ++ left action.outcome = inner :=
      charsOf_scanAction 0 inner
    rw [herror, left, List.append_nil] at haction
    rw [charsOf_cons, haction]
    exact congrArg ('{' :: '{' :: ·) (List.take_append_drop marker tail)
  | case5 tail marker inner hcomment action opening rest hrest r ih =>
    have haction : charsOf action.lexemes ++ left action.outcome = inner :=
      charsOf_scanAction 0 inner
    rw [hrest, left] at haction
    rw [List.cons_append, charsOf_cons, charsOf_append, ih, haction]
    exact congrArg ('{' :: '{' :: ·) (List.take_append_drop marker tail)
  | case6 c tail hopen ih =>
    rw [charsOf_result_cons, ih]
    exact congrArg (c :: ·) (splitBefore_append _ _)

end Scan

/-- The texts of the tokens are those of their lexemes. -/
theorem map_text_place (start : Nat) (lexemes : List Lexeme) :
    (Token.place start lexemes).map (·.text) = lexemes.map fun l ↦ String.ofList l.chars := by
  induction lexemes generalizing start with
  | nil => rfl
  | cons l ls ih =>
    rw [Token.place, List.map_cons, List.map_cons, ih]

/-- The texts of the tokens are the template. -/
theorem join_text_tokens (text : String) :
    String.join ((Tokens.ofText text).tokens.map (·.text)) = text := by
  have hchars : (Token.place 0 (Scan.scanText text.toList).lexemes).map (·.text) =
      (Scan.scanText text.toList).lexemes.map fun l ↦ String.ofList l.chars :=
    map_text_place _ _
  apply String.toList_injective
  rw [Tokens.ofText, hchars, String.toList_join, List.flatMap_map]
  simp only [String.toList_ofList]
  exact Scan.charsOf_scanText text.toList

end AlertAudit.Template
