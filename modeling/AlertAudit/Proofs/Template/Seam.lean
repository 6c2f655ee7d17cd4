import AlertAudit.Proofs.Template.Lookahead
import AlertAudit.Proofs.Template.Tiling

/-!
Texts one after the other. Actions and comments are scanned the same whatever follows them, so only
the place where the texts meet matters: the text in front of it and the text behind it become one
token (`Joined`), unless a left delimiter comes about there (`scanText_append`).
-/

set_option autoImplicit false

namespace AlertAudit.Template.Scan

/-! ### Marks -/

/-- Where a mark is found does not depend on what follows it. -/
theorem splitBefore_append_of_ne_nil {mark cs : List Char} (h : (splitBefore mark cs).2 ≠ [])
    (ds : List Char) : mark <+: (splitBefore mark cs).2 ∧
      splitBefore mark (cs ++ ds) = ((splitBefore mark cs).1, (splitBefore mark cs).2 ++ ds) := by
  induction cs with
  | nil => exact absurd rfl h
  | cons c cs ih =>
    rw [splitBefore] at h ⊢
    rw [List.cons_append, splitBefore]
    split at h
    next hmark =>
      have hlong : mark.isPrefixOf (c :: (cs ++ ds)) := by
        rw [List.isPrefixOf_iff_prefix] at hmark ⊢
        exact hmark.trans (List.prefix_append (c :: cs) ds)
      rw [if_pos hmark, if_pos hlong]
      exact ⟨List.isPrefixOf_iff_prefix.mp hmark, rfl⟩
    next hmark =>
      obtain ⟨hfound, hsplit⟩ := ih h
      have hlong : ¬mark.isPrefixOf (c :: (cs ++ ds)) := by
        rw [List.isPrefixOf_iff_prefix] at hmark ⊢
        refine fun hlong ↦ hmark (List.prefix_of_prefix_length_le hlong
          (List.prefix_append (c :: cs) ds) ?_)
        have hlength := length_splitBefore_snd mark cs
        have hmarkLength := hfound.length_le
        rw [List.length_cons]
        omega
      rw [if_neg hmark, if_neg hlong, hsplit]
      exact ⟨hfound, rfl⟩

/-- A text that ends with an opening brace, with another one behind it. -/
def Delimits (cs ds : List Char) : Prop := cs.getLast? = some '{' ∧ ds.head? = some '{'

/-- A left delimiter that comes about behind the rest of a text comes about behind the text. -/
theorem Delimits.of_suffix {cs ds rest : List Char} (h : Delimits rest ds) (hrest : rest <:+ cs) :
    Delimits cs ds := by
  obtain ⟨front, rfl⟩ := hrest
  refine ⟨?_, h.2⟩
  rw [List.getLast?_append, h.1, Option.some_or]

/-- Text that does not start with a left delimiter does not start with one that ends in what
follows it. -/
theorem not_isPrefixOf_append {c : Char} {cs ds : List Char}
    (h : ¬(['{', '{'] : List Char).isPrefixOf (c :: cs)) (hseam : ¬Delimits (c :: cs) ds) :
    ¬(['{', '{'] : List Char).isPrefixOf (c :: (cs ++ ds)) := by
  cases cs with
  | nil =>
    intro hlong
    cases ds with
    | nil => exact absurd hlong (by simp)
    | cons d ds =>
      obtain ⟨rfl, rfl⟩ : '{' = c ∧ '{' = d := by simpa using hlong
      exact hseam ⟨rfl, rfl⟩
  | cons d cs => exact h

/-- Where no left delimiter is found, it is looked for in what follows. -/
theorem splitBefore_append_of_eq_nil {cs ds : List Char} (h : (splitBefore ['{', '{'] cs).2 = [])
    (hseam : ¬Delimits cs ds) : splitBefore ['{', '{'] (cs ++ ds) =
      (cs ++ (splitBefore ['{', '{'] ds).1, (splitBefore ['{', '{'] ds).2) := by
  induction cs with
  | nil => rfl
  | cons c cs ih =>
    rw [splitBefore] at h
    split at h
    next => exact absurd h (List.cons_ne_nil c cs)
    next hmark =>
      have hrest : ¬Delimits cs ds := fun hrest ↦ hseam (hrest.of_suffix (List.suffix_cons c cs))
      rw [List.cons_append, splitBefore, if_neg (not_isPrefixOf_append hmark hseam), ih h hrest]
      rfl

/-- A comment is skipped whatever follows it. -/
theorem afterComment_append {cs rest : List Char} (h : afterComment cs = .ok rest)
    (ds : List Char) : afterComment (cs ++ ds) = .ok (rest ++ ds) := by
  have hne : (splitBefore ['*', '/'] cs).2 ≠ [] := by
    intro hnil
    rw [afterComment, hnil] at h
    exact absurd h (by simp)
  obtain ⟨⟨close, hclose⟩, hsplit⟩ := splitBefore_append_of_ne_nil hne ds
  rw [afterComment, ← hclose] at h
  rw [afterComment, hsplit, ← hclose]
  dsimp only [List.cons_append, List.nil_append, List.drop_succ_cons, List.drop_zero] at h ⊢
  split at h
  next => exact absurd h (by simp)
  next n hn =>
    have hdelim : rightDelim? close = some n := hn
    obtain ⟨hdelim', hle⟩ := rightDelim?_append hdelim ds
    obtain rfl := Except.ok.inj h
    simp only [List.drop_succ_cons, List.drop_zero, hdelim', Nat.add_comm 2 n,
      List.drop_append_of_le_length hle]

/-- A trim marker is no longer than the text. -/
theorem trimMarkerLength_le (cs : List Char) : trimMarkerLength cs ≤ cs.length := by
  unfold trimMarkerLength
  split
  · split
    · simp
    · exact Nat.zero_le _
  · exact Nat.zero_le _

/-- Whether there is a trim marker does not depend on what follows two characters. -/
theorem drop_trimMarkerLength_append {cs : List Char}
    (h : 2 ≤ (cs.drop (trimMarkerLength cs)).length) (ds : List Char) :
    trimMarkerLength (cs ++ ds) = trimMarkerLength cs ∧
      (cs ++ ds).drop (trimMarkerLength cs) = cs.drop (trimMarkerLength cs) ++ ds := by
  refine ⟨?_, List.drop_append_of_le_length (trimMarkerLength_le cs)⟩
  rw [List.length_drop] at h
  rcases cs with _ | ⟨x, _ | ⟨y, cs⟩⟩
  · exact absurd h (by simp)
  · exact absurd h (Nat.not_le_of_lt (Nat.lt_succ_of_le (Nat.sub_le _ _)))
  · by_cases hdash : x = '-'
    · subst hdash
      rfl
    · simp [trimMarkerLength, hdash]

/-! ### Rounds of a scan -/

section Rounds

variable {tail rest : List Char}

/-- A comment at the front of a text. -/
theorem scanText_comment
    (hmark : (['/', '*'] : List Char).isPrefixOf (tail.drop (trimMarkerLength tail)))
    (h : afterComment ((tail.drop (trimMarkerLength tail)).drop 2) = .ok rest) :
    scanText ('{' :: '{' :: tail) =
      .cons .comment ('{' :: '{' :: tail.take (tail.length - rest.length)) (scanText rest) := by
  rw [scanText]
  dsimp only
  rw [if_pos hmark]
  split
  next e he => exact absurd (h.symm.trans he) (by simp)
  next r hr => rw [Except.ok.inj (h.symm.trans hr)]

/-- An action at the front of a text. -/
theorem scanText_action
    (hmark : ¬(['/', '*'] : List Char).isPrefixOf (tail.drop (trimMarkerLength tail)))
    (h : (scanAction 0 (tail.drop (trimMarkerLength tail))).outcome = .ok rest) :
    scanText ('{' :: '{' :: tail) =
      ⟨⟨.leftDelim, '{' :: '{' :: tail.take (trimMarkerLength tail)⟩ ::
        (scanAction 0 (tail.drop (trimMarkerLength tail))).lexemes ++ (scanText rest).lexemes,
        (scanText rest).outcome⟩ := by
  rw [scanText]
  dsimp only
  rw [if_neg hmark]
  split
  next e he => exact absurd (h.symm.trans he) (by simp)
  next r hr => rw [Except.ok.inj (h.symm.trans hr)]

/-- A text that does not start with two braces starts with no left delimiter. -/
theorem not_isPrefixOf_of_ne {c : Char} (h : ∀ r, c = '{' → tail = '{' :: r → False) :
    ¬(['{', '{'] : List Char).isPrefixOf (c :: tail) := by
  intro hdelim
  obtain ⟨r, hr⟩ := List.isPrefixOf_iff_prefix.mp hdelim
  obtain ⟨hc, htail⟩ := List.cons.inj hr
  exact h r hc.symm htail.symm

/-- A text at the front goes on up to the next left delimiter. -/
theorem scanText_text {c : Char} (h : ¬(['{', '{'] : List Char).isPrefixOf (c :: tail)) :
    scanText (c :: tail) = .cons .text (c :: (splitBefore ['{', '{'] tail).1)
      (scanText (splitBefore ['{', '{'] tail).2) := by
  rw [scanText]
  rintro r rfl rfl
  exact h rfl

end Rounds

/-- The lexemes of two texts one after the other: text at the end of the first and text at the
start of the second become one. -/
inductive Joined : List Lexeme → List Lexeme → List Lexeme → Prop
  | apart (ls ms : List Lexeme) : Joined ls ms (ls ++ ms)
  | merged (ls ms : List Lexeme) (xs ys : List Char) :
    Joined (ls ++ [⟨.text, xs⟩]) (⟨.text, ys⟩ :: ms) (ls ++ ⟨.text, xs ++ ys⟩ :: ms)

/-- Lexemes in front do not matter for what is joined. -/
theorem Joined.behind {ls ms ns : List Lexeme} (h : Joined ls ms ns) (front : List Lexeme) :
    Joined (front ++ ls) ms (front ++ ns) := by
  cases h with
  | apart ls ms =>
    rw [← List.append_assoc]
    exact .apart _ _
  | merged ls ms xs ys =>
    rw [← List.append_assoc, ← List.append_assoc]
    exact .merged _ _ _ _

/-- A text without an action is joined to what follows it. -/
theorem joined_text {c : Char} {cs ds : List Char}
    (hopen : ¬(['{', '{'] : List Char).isPrefixOf (c :: cs))
    (hnil : (splitBefore ['{', '{'] cs).2 = []) (hseam : ¬Delimits (c :: cs) ds) :
    (scanText (c :: (cs ++ ds))).outcome = (scanText ds).outcome ∧
      Joined [⟨.text, c :: cs⟩] (scanText ds).lexemes (scanText (c :: (cs ++ ds))).lexemes := by
  have hrest : ¬Delimits cs ds := fun hrest ↦ hseam (hrest.of_suffix (List.suffix_cons c cs))
  rw [scanText_text (not_isPrefixOf_append hopen hseam), splitBefore_append_of_eq_nil hnil hrest]
  cases ds with
  | nil =>
    rw [splitBefore, List.append_nil]
    exact ⟨rfl, .apart _ _⟩
  | cons d ds =>
    by_cases hdelim : (['{', '{'] : List Char).isPrefixOf (d :: ds)
    · rw [splitBefore, if_pos hdelim, List.append_nil]
      exact ⟨rfl, .apart _ _⟩
    · rw [splitBefore, if_neg hdelim, scanText_text hdelim]
      exact ⟨rfl, .merged [] _ (c :: cs) _⟩

/-- What is scanned to its end is scanned the same with more text behind it, and what follows is
scanned as if it stood alone. -/
theorem scanText_append {cs ds : List Char} (h : (scanText cs).outcome = .ok ())
    (hseam : ¬Delimits cs ds) : (scanText (cs ++ ds)).outcome = (scanText ds).outcome ∧
      Joined (scanText cs).lexemes (scanText ds).lexemes (scanText (cs ++ ds)).lexemes := by
  fun_induction scanText cs with
  | case1 => exact ⟨rfl, .apart [] _⟩
  | case2 => cases h
  | case3 tail marker inner hmark rest hrest ih =>
    have hinner : rest <:+ inner := (suffix_of_afterComment hrest).trans (List.drop_suffix 2 inner)
    have hsuffix : rest <:+ tail := hinner.trans (List.drop_suffix _ _)
    obtain ⟨r, hr⟩ := List.isPrefixOf_iff_prefix.mp hmark
    have hlong : 2 ≤ inner.length := by rw [← hr]; simp
    obtain ⟨hmarker, hdrop⟩ := drop_trimMarkerLength_append hlong ds
    have hdrop' : (tail ++ ds).drop (trimMarkerLength (tail ++ ds)) = inner ++ ds := by
      rw [hmarker, hdrop]
    have hcomment : afterComment ((inner ++ ds).drop 2) = .ok (rest ++ ds) := by
      rw [List.drop_append_of_le_length hlong]
      exact afterComment_append hrest ds
    have hmark' : (['/', '*'] : List Char).isPrefixOf (inner ++ ds) := by
      rw [← hr]
      rfl
    have hlength : (tail ++ ds).length - (rest ++ ds).length = tail.length - rest.length := by
      rw [List.length_append, List.length_append]
      omega
    have hopen : rest <:+ '{' :: '{' :: tail := hsuffix.trans (List.suffix_append ['{', '{'] tail)
    obtain ⟨houtcome, hjoined⟩ := ih h fun hrest ↦ hseam (hrest.of_suffix hopen)
    rw [List.cons_append, List.cons_append, scanText_comment (by rw [hdrop']; exact hmark')
      (by rw [hdrop']; exact hcomment), hlength, List.take_append_of_le_length (Nat.sub_le _ _)]
    exact ⟨houtcome, hjoined.behind [_]⟩
  | case4 => exact absurd h (by simp)
  | case5 tail marker inner hmark action opening rest hrest r ih =>
    have hcloses : Closes inner := closes_of_scanAction 0 hrest
    obtain ⟨hmarker, hdrop⟩ := drop_trimMarkerLength_append hcloses.two_le_length ds
    have hdrop' : (tail ++ ds).drop (trimMarkerLength (tail ++ ds)) = inner ++ ds := by
      rw [hmarker, hdrop]
    have haction : scanAction 0 (inner ++ ds) = ⟨action.lexemes, .ok (rest ++ ds)⟩ :=
      scanAction_append hrest ds
    have hmark' : ¬(['/', '*'] : List Char).isPrefixOf (inner ++ ds) := by
      obtain ⟨x, y, zs, hinner⟩ := hcloses.exists_eq
      rw [hinner] at hmark ⊢
      exact hmark
    have hsuffix : rest <:+ inner := by
      have hchars := charsOf_scanAction 0 inner
      rw [hrest] at hchars
      exact ⟨_, hchars⟩
    have hopen : rest <:+ '{' :: '{' :: tail :=
      (hsuffix.trans (List.drop_suffix _ _)).trans (List.suffix_append ['{', '{'] tail)
    obtain ⟨houtcome, hjoined⟩ := ih h fun hrest ↦ hseam (hrest.of_suffix hopen)
    have hscanned : (scanAction 0 ((tail ++ ds).drop (trimMarkerLength (tail ++ ds)))).outcome =
        .ok (rest ++ ds) := by rw [hdrop', haction]
    rw [List.cons_append, List.cons_append,
      scanText_action (by rw [hdrop']; exact hmark') hscanned, hdrop', haction, hmarker,
      List.take_append_of_le_length (trimMarkerLength_le tail)]
    exact ⟨houtcome, hjoined.behind (opening :: action.lexemes)⟩
  | case6 c tail hopen ih =>
    have hdelim := not_isPrefixOf_of_ne hopen
    by_cases hnil : (splitBefore ['{', '{'] tail).2 = []
    · have htail : (splitBefore ['{', '{'] tail).1 = tail := by
        have hsplit := splitBefore_append ['{', '{'] tail
        rwa [hnil, List.append_nil] at hsplit
      have hnone : scanText [] = ⟨[], .ok ()⟩ := by rw [scanText]
      rw [hnil, htail, hnone]
      exact joined_text hdelim hnil hseam
    · obtain ⟨-, hsplit⟩ := splitBefore_append_of_ne_nil hnil ds
      have hsuffix : (splitBefore ['{', '{'] tail).2 <:+ c :: tail :=
        List.IsSuffix.trans ⟨_, splitBefore_append _ _⟩ (List.suffix_cons c tail)
      obtain ⟨houtcome, hjoined⟩ := ih h fun hrest ↦ hseam (hrest.of_suffix hsuffix)
      rw [List.cons_append, scanText_text (not_isPrefixOf_append hdelim hseam), hsplit]
      exact ⟨houtcome, hjoined.behind [_]⟩

end AlertAudit.Template.Scan
