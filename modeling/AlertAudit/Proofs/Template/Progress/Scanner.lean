import AlertAudit.Proofs.Rounds
import AlertAudit.Proofs.Template.Cuts
import AlertAudit.Proofs.Template.Seam

/-!
The loops of the scanner. A `Cursor` holds the lexemes read so far and what is left of the text. A
round at the top reads the text in front of an action and the action or comment behind it; a round
inside of an action reads one lexeme. White space may give its last space to a trim marker, and a
lexeme without characters would make the round come back to where it started; there is none, since
a trim marker at the very front closes the action (`spaceLength_pos`).
-/

set_option autoImplicit false

namespace AlertAudit.Template.Scan

/-! ### Cursors -/

/-- Where the scanner stands. -/
structure Cursor where
  lexemes : List Lexeme
  /-- The number of parentheses open in the action around this place. -/
  depth : Nat
  rest : List Char

namespace Cursor

variable {α : Type}

def push (c : Cursor) (kind : TokenKind) (n : Nat) : Cursor :=
  { c with lexemes := c.lexemes ++ [⟨kind, c.rest.take n⟩], rest := c.rest.drop n }

/-- Gives up: what is left becomes the last lexeme. -/
def fail (c : Cursor) (e : ScanError) : Result α := ⟨c.lexemes ++ [⟨.lexError, c.rest⟩], .error e⟩

def followedBy (c : Cursor) (r : Result α) : Result α := ⟨c.lexemes ++ r.lexemes, r.outcome⟩

theorem followedBy_cons (c : Cursor) (kind : TokenKind) (n : Nat) (r : Result α) :
    c.followedBy (.cons kind (c.rest.take n) r) = (c.push kind n).followedBy r := by
  simp [followedBy, Result.cons, push]

theorem length_push_lt {c : Cursor} {n : Nat} (kind : TokenKind) (hrest : c.rest ≠ [])
    (hn : 0 < n) : (c.push kind n).rest.length < c.rest.length := by
  have hlength := List.length_pos_iff.mpr hrest
  simp only [push, List.length_drop]
  omega

end Cursor

/-! ### Inside of an action -/

/-- The length of the white space at the front, without the space that a trim marker right behind
it starts with. -/
def spaceLength (cs : List Char) : Nat :=
  let n := run isSpace cs
  if (rightDelim? (cs.drop (n - 1))).any (2 < ·) then n - 1 else n

/-- One round of the loop inside of an action. -/
def actionRound (c : Cursor) : Cursor ⊕ Result (List Char) :=
  match rightDelim? c.rest with
  | some n =>
    if c.depth > 0 then .inr (c.fail .unclosedParen)
    else .inr ⟨(c.push .rightDelim n).lexemes, .ok (c.push .rightDelim n).rest⟩
  | none =>
    match c.rest with
    | [] => .inr (c.fail .unclosedAction)
    | x :: xs =>
      if isSpace x then
        if spaceLength c.rest = 0 then .inl c else .inl (c.push .whitespace (spaceLength c.rest))
      else
        match read x xs with
        | .error e => .inr (c.fail e)
        | .ok (kind, n) =>
          if kind = .parenClose && c.depth = 0 then .inr (c.fail .unexpectedParen)
          else
            let behind := c.push kind (n + 1)
            match missingTerminator? kind behind.rest with
            | some e => .inr (behind.fail e)
            | none => .inl { behind with depth := depthBehind c.depth kind }

theorem rightDelim?_of_isSpace {x : Char} (hx : isSpace x) (xs : List Char) :
    (rightDelim? (x :: xs)).any (2 < ·) = (['-', '}', '}'] : List Char).isPrefixOf xs := by
  have hbrace : x ≠ '}' := by
    rintro rfl
    exact absurd hx (by decide)
  unfold rightDelim?
  split
  next heq => exact absurd (List.cons.inj heq).1 hbrace
  next heq =>
    obtain ⟨rfl, rfl⟩ := List.cons.inj heq
    rw [if_pos hx]
    rfl
  next hmark =>
    refine (Bool.eq_false_of_not_eq_true fun hprefix ↦ ?_).symm
    obtain ⟨r, rfl⟩ := List.isPrefixOf_iff_prefix.mp hprefix
    exact hmark x r rfl

/-- The last of the white space at the front. -/
theorem exists_drop_run {x : Char} (hx : isSpace x) (xs : List Char) :
    ∃ y, isSpace y ∧ (x :: xs).drop (run isSpace xs) = y :: xs.drop (run isSpace xs) := by
  induction xs generalizing x with
  | nil => exact ⟨x, hx, rfl⟩
  | cons z zs ih =>
    by_cases hz : isSpace z
    · rw [run, List.takeWhile_cons_of_pos hz]
      exact ih hz
    · rw [run, List.takeWhile_cons_of_neg hz]
      exact ⟨x, hx, rfl⟩

theorem spaceLength_cons {x : Char} (hx : isSpace x) (xs : List Char) :
    spaceLength (x :: xs) =
      if (['-', '}', '}'] : List Char).isPrefixOf (xs.drop (run isSpace xs)) then run isSpace xs
      else run isSpace xs + 1 := by
  have hrun : run isSpace (x :: xs) = run isSpace xs + 1 := by
    rw [run, List.takeWhile_cons_of_pos hx]
    rfl
  obtain ⟨y, hy, hdrop⟩ := exists_drop_run hx xs
  rw [spaceLength, hrun, Nat.add_sub_cancel, hdrop, rightDelim?_of_isSpace hy]

/-- White space that does not close the action is more than what a trim marker takes from it. -/
theorem spaceLength_pos {x : Char} {xs : List Char} (hx : isSpace x)
    (hdelim : rightDelim? (x :: xs) = none) : 0 < spaceLength (x :: xs) := by
  rw [spaceLength_cons hx]
  split
  next hmark =>
    refine Nat.pos_of_ne_zero fun hzero ↦ ?_
    rw [hzero, List.drop_zero, ← rightDelim?_of_isSpace hx, hdelim] at hmark
    exact Bool.false_ne_true hmark
  next => exact Nat.succ_pos _

theorem read_of_isSpace {x : Char} (hx : isSpace x) (xs : List Char) :
    read x xs = .ok (.whitespace, spaceLength (x :: xs) - 1) := by
  rw [spaceLength_cons hx]
  unfold read
  rw [if_pos hx]
  dsimp only
  split
  · rfl
  · rfl

/-- A round that goes on has read a lexeme with characters. -/
theorem actionRound_more {c d : Cursor} (h : actionRound c = .inl d) : ∃ kind n, 0 < n ∧
    c.rest ≠ [] ∧ d = { c.push kind n with depth := depthBehind c.depth kind } ∧
    scanAction c.depth c.rest = .cons kind (c.rest.take n) (scanAction d.depth d.rest) := by
  obtain ⟨lexemes, depth, rest⟩ := c
  unfold actionRound at h
  split at h
  next =>
    split at h
    · cases h
    · cases h
  next hdelim =>
    cases rest with
    | nil => cases h
    | cons x xs =>
      dsimp only at h hdelim
      split at h
      next hx =>
        have hpos := spaceLength_pos hx hdelim
        rw [if_neg (Nat.ne_of_gt hpos)] at h
        obtain rfl := Sum.inl.inj h
        refine ⟨.whitespace, spaceLength (x :: xs), hpos, List.cons_ne_nil _ _, rfl, ?_⟩
        have hread := read_of_isSpace hx xs
        generalize spaceLength (x :: xs) = n at hpos hread ⊢
        obtain ⟨n, rfl⟩ := Nat.exists_eq_succ_of_ne_zero (Nat.ne_of_gt hpos)
        exact scanAction_of_read hdelim hread (by simp) rfl
      next =>
        split at h
        next => cases h
        next kind n hread =>
          split at h
          next => cases h
          next hparen =>
            split at h
            next => cases h
            next hterminator =>
              obtain rfl := Sum.inl.inj h
              exact ⟨kind, n + 1, Nat.succ_pos n, List.cons_ne_nil _ _, rfl,
                scanAction_of_read hdelim hread hparen hterminator⟩

/-- A round that leaves the loop returns what the scan of the rest comes to. -/
theorem actionRound_last {c : Cursor} {r : Result (List Char)} (h : actionRound c = .inr r) :
    c.followedBy (scanAction c.depth c.rest) = r := by
  obtain ⟨lexemes, depth, rest⟩ := c
  rw [scanAction.eq_def]
  unfold actionRound at h
  dsimp only at h ⊢
  cases hdelim : rightDelim? rest with
  | some n =>
    rw [hdelim] at h
    dsimp only at h ⊢
    split at h
    next hdepth =>
      rw [if_pos hdepth]
      exact Sum.inr.inj h
    next hdepth =>
      rw [if_neg hdepth]
      exact Sum.inr.inj h
  | none =>
    rw [hdelim] at h
    cases rest with
    | nil => exact Sum.inr.inj h
    | cons x xs =>
      dsimp only at h ⊢
      split at h
      next hx =>
        rw [if_neg (Nat.ne_of_gt (spaceLength_pos hx hdelim))] at h
        cases h
      next =>
        cases hread : read x xs with
        | error e =>
          rw [hread] at h
          exact Sum.inr.inj h
        | ok lexeme =>
          obtain ⟨kind, n⟩ := lexeme
          rw [hread] at h
          dsimp only at h ⊢
          split at h
          next hparen =>
            rw [if_pos hparen]
            exact Sum.inr.inj h
          next hparen =>
            rw [if_neg hparen]
            have hrest : (Cursor.push ⟨lexemes, depth, x :: xs⟩ kind (n + 1)).rest =
                xs.drop n := rfl
            rw [hrest] at h
            cases hterminator : missingTerminator? kind (xs.drop n) with
            | some e =>
              rw [hterminator] at h
              rw [← Sum.inr.inj h]
              simp [Cursor.followedBy, Cursor.fail, Cursor.push, Result.cons, Result.fail]
            | none =>
              rw [hterminator] at h
              cases h

theorem shrinks_actionRound : Shrinks actionRound (·.rest.length) := by
  intro c d h
  obtain ⟨kind, n, hn, hrest, rfl, -⟩ := actionRound_more h
  exact Cursor.length_push_lt kind hrest hn

/-- Where the action is not closed, the loop is left for an error alone. -/
theorem exists_fail_of_actionRound {c : Cursor} {r : Result (List Char)}
    (hdelim : rightDelim? c.rest = none) (h : actionRound c = .inr r) :
    ∃ (d : Cursor) (e : ScanError), r = d.fail e := by
  rw [actionRound, hdelim] at h
  dsimp only at h
  split at h
  next => exact ⟨_, _, (Sum.inr.inj h).symm⟩
  next =>
    split at h
    next => split at h <;> cases h
    next =>
      split at h
      next => exact ⟨_, _, (Sum.inr.inj h).symm⟩
      next =>
        split at h
        next => exact ⟨_, _, (Sum.inr.inj h).symm⟩
        next =>
          split at h
          next => exact ⟨_, _, (Sum.inr.inj h).symm⟩
          next => cases h

/-- The round that closes the action has read its right delimiter. -/
theorem length_lt_of_actionRound_last {c : Cursor} {r : Result (List Char)} {rest : List Char}
    (h : actionRound c = .inr r) (hr : r.outcome = .ok rest) : rest.length < c.rest.length := by
  cases hdelim : rightDelim? c.rest with
  | none =>
    obtain ⟨d, e, rfl⟩ := exists_fail_of_actionRound hdelim h
    cases hr
  | some n =>
    have htake := List.length_pos_iff.mpr (take_ne_nil_of_rightDelim? hdelim)
    rw [actionRound, hdelim] at h
    dsimp only at h
    split at h
    next =>
      rw [← Sum.inr.inj h] at hr
      cases hr
    next =>
      rw [← Sum.inr.inj h] at hr
      rw [← Except.ok.inj hr, Cursor.push, List.length_drop]
      rw [List.length_take] at htake
      omega

/-- The loop inside of an action comes to what the scan of the action gives. -/
theorem repeats_actionRound {c : Cursor} {r : Result (List Char)} :
    Repeats actionRound c r ↔ r = c.followedBy (scanAction c.depth c.rest) := by
  refine repeats_iff shrinks_actionRound (fun _ _ ↦ actionRound_last) fun c d h ↦ ?_
  obtain ⟨kind, n, -, -, hd, hscan⟩ := actionRound_more h
  rw [hscan, Cursor.followedBy_cons, hd]
  rfl

/-! ### Outside of actions -/

/-- Reads the text in front of the next left delimiter, if there is any. -/
def Cursor.pastText (c : Cursor) : Cursor :=
  let n := (splitBefore ['{', '{'] c.rest).1.length
  if n = 0 then c else c.push .text n

/-- Reads the action or comment whose left delimiter comes right before `tail`. -/
def delimitedRound (c : Cursor) (tail : List Char) : Cursor ⊕ Result Unit :=
  let marker := trimMarkerLength tail
  let inner := tail.drop marker
  if (['/', '*'] : List Char).isPrefixOf inner then
    match afterComment (inner.drop 2) with
    | .error e => .inr (c.fail e)
    | .ok rest => .inl (c.push .comment (c.rest.length - rest.length))
  else
    let opened := c.push .leftDelim (marker + 2)
    let action := scanAction 0 opened.rest
    match action.outcome with
    | .error e => .inr ⟨opened.lexemes ++ action.lexemes, .error e⟩
    | .ok rest => .inl { opened with lexemes := opened.lexemes ++ action.lexemes, rest := rest }

/-- One round of the loop outside of actions. -/
def textRound (c : Cursor) : Cursor ⊕ Result Unit :=
  if c.rest = [] then .inr ⟨c.lexemes, .ok ()⟩
  else
    match c.pastText.rest with
    | '{' :: '{' :: tail => delimitedRound c.pastText tail
    | _ => .inr ⟨c.pastText.lexemes, .ok ()⟩

theorem rest_pastText (c : Cursor) : c.pastText.rest = (splitBefore ['{', '{'] c.rest).2 := by
  have hsplit := splitBefore_append ['{', '{'] c.rest
  rw [Cursor.pastText]
  split
  next hn =>
    rw [List.length_eq_zero_iff.mp hn, List.nil_append] at hsplit
    exact hsplit.symm
  next =>
    rw [Cursor.push, ← congrArg (List.drop _) hsplit, List.drop_left]

/-- Behind the text in front the scan goes on as it did. -/
theorem followedBy_pastText (c : Cursor) :
    c.pastText.followedBy (scanText c.pastText.rest) = c.followedBy (scanText c.rest) := by
  have hsplit := splitBefore_append ['{', '{'] c.rest
  have hrest := rest_pastText c
  rw [Cursor.pastText] at hrest ⊢
  split at hrest
  next hn => rw [if_pos hn]
  next hn =>
    rw [if_neg hn]
    obtain ⟨lexemes, depth, _ | ⟨x, xs⟩⟩ := c
    · exact absurd rfl hn
    have hdelim : ¬(['{', '{'] : List Char).isPrefixOf (x :: xs) := by
      intro hprefix
      rw [splitBefore, if_pos hprefix] at hn
      exact hn rfl
    have htext := (List.prefix_iff_eq_take.mp ⟨_, hsplit⟩).symm
    have hmore : splitBefore ['{', '{'] (x :: xs) =
        (x :: (splitBefore ['{', '{'] xs).1, (splitBefore ['{', '{'] xs).2) := by
      rw [splitBefore, if_neg hdelim]
    rw [hrest, ← Cursor.followedBy_cons, htext, hmore, scanText_text hdelim]

theorem length_pastText_le (c : Cursor) : c.pastText.rest.length ≤ c.rest.length := by
  rw [rest_pastText]
  exact length_splitBefore_snd _ _

/-- Behind the text in front there is a left delimiter or nothing. -/
theorem pastText_rest (c : Cursor) :
    c.pastText.rest = [] ∨ ∃ tail, c.pastText.rest = '{' :: '{' :: tail := by
  rw [rest_pastText]
  refine or_iff_not_imp_left.mpr fun hne ↦ ?_
  obtain ⟨tail, htail⟩ := (splitBefore_append_of_ne_nil hne []).1
  exact ⟨tail, htail.symm⟩

/-- What reads an action or a comment and goes on has read something. -/
theorem delimitedRound_more {c d : Cursor} {tail : List Char} (hrest : c.rest = '{' :: '{' :: tail)
    (h : delimitedRound c tail = .inl d) : d.rest.length < c.rest.length ∧
      c.followedBy (scanText c.rest) = d.followedBy (scanText d.rest) := by
  obtain ⟨lexemes, depth, _⟩ := c
  subst hrest
  unfold delimitedRound at h
  dsimp only at h
  split at h
  next hmark =>
    split at h
    next => cases h
    next rest hcomment =>
      obtain rfl := Sum.inl.inj h
      have hsuffix : rest <:+ tail := (suffix_of_afterComment hcomment).trans
        ((List.drop_suffix _ _).trans (List.drop_suffix _ _))
      rw [scanText_comment hmark hcomment]
      obtain ⟨front, rfl⟩ := hsuffix
      have hlength : ('{' :: '{' :: (front ++ rest)).length - rest.length = front.length + 2 := by
        simp only [List.length_cons, List.length_append]
        omega
      have htake : '{' :: '{' :: (front ++ rest).take ((front ++ rest).length - rest.length) =
          ('{' :: '{' :: (front ++ rest)).take (front.length + 2) := by
        rw [List.length_append, Nat.add_sub_cancel]
        rfl
      have hdrop : ('{' :: '{' :: (front ++ rest)).drop (front.length + 2) = rest := List.drop_left
      refine ⟨Cursor.length_push_lt _ (List.cons_ne_nil _ _) (hlength ▸ Nat.succ_pos _), ?_⟩
      rw [hlength, htake]
      refine (Cursor.followedBy_cons ⟨lexemes, depth, _⟩ .comment _ _).trans ?_
      rw [Cursor.push, hdrop]
  next hmark =>
    split at h
    next => cases h
    next rest haction =>
      obtain rfl := Sum.inl.inj h
      have hlength : rest.length ≤ (tail.drop (trimMarkerLength tail)).length :=
        length_of_scanAction haction
      refine ⟨?_, ?_⟩
      · simp only [List.length_drop, List.length_cons] at hlength ⊢
        omega
      · rw [scanText_action hmark haction]
        simp [Cursor.followedBy, Cursor.push]

theorem delimitedRound_last {c : Cursor} {tail : List Char} {r : Result Unit}
    (hrest : c.rest = '{' :: '{' :: tail) (h : delimitedRound c tail = .inr r) :
    c.followedBy (scanText c.rest) = r := by
  obtain ⟨lexemes, depth, _⟩ := c
  subst hrest
  unfold delimitedRound at h
  rw [scanText]
  dsimp only at h ⊢
  split at h
  next hmark =>
    rw [if_pos hmark]
    split at h
    next e he =>
      split
      next e' he' =>
        obtain rfl := Except.error.inj (he.symm.trans he')
        exact Sum.inr.inj h
      next he' => cases he.symm.trans he'
    next => cases h
  next hmark =>
    rw [if_neg hmark]
    split at h
    next e he =>
      split
      next e' he' =>
        obtain rfl := Except.error.inj (he.symm.trans he')
        rw [← Sum.inr.inj h]
        simp [Cursor.followedBy, Cursor.push]
      next he' => cases he.symm.trans he'
    next => cases h

theorem textRound_of_delim {c : Cursor} {tail : List Char}
    (h : c.pastText.rest = '{' :: '{' :: tail) : textRound c = delimitedRound c.pastText tail := by
  have hrest : c.rest ≠ [] := by
    intro hnil
    have hle := length_pastText_le c
    rw [h, hnil] at hle
    exact absurd hle (Nat.not_succ_le_zero _)
  rw [textRound, if_neg hrest, h]
  rfl

theorem textRound_of_nil {c : Cursor} (h : c.pastText.rest = []) :
    textRound c = .inr ⟨c.pastText.lexemes, .ok ()⟩ := by
  rw [textRound]
  split
  next hrest => rw [Cursor.pastText, hrest]; rfl
  next => rw [h]

theorem textRound_more {c d : Cursor} (h : textRound c = .inl d) :
    d.rest.length < c.rest.length ∧
      c.followedBy (scanText c.rest) = d.followedBy (scanText d.rest) := by
  rw [← followedBy_pastText]
  rcases pastText_rest c with hnil | ⟨tail, htail⟩
  · rw [textRound_of_nil hnil] at h
    cases h
  · rw [textRound_of_delim htail] at h
    obtain ⟨hlt, hscan⟩ := delimitedRound_more htail h
    exact ⟨Nat.lt_of_lt_of_le hlt (length_pastText_le c), hscan⟩

theorem textRound_last {c : Cursor} {r : Result Unit} (h : textRound c = .inr r) :
    c.followedBy (scanText c.rest) = r := by
  rw [← followedBy_pastText]
  rcases pastText_rest c with hnil | ⟨tail, htail⟩
  · rw [textRound_of_nil hnil] at h
    rw [hnil, ← Sum.inr.inj h, scanText, Cursor.followedBy, List.append_nil]
  · rw [textRound_of_delim htail] at h
    exact delimitedRound_last htail h

theorem shrinks_textRound : Shrinks textRound (·.rest.length) := fun _ _ h ↦ (textRound_more h).1

/-- The loop outside of actions comes to what the scan of the text gives. -/
theorem repeats_textRound {c : Cursor} {r : Result Unit} :
    Repeats textRound c r ↔ r = c.followedBy (scanText c.rest) :=
  repeats_iff shrinks_textRound (fun _ _ ↦ textRound_last) fun _ _ h ↦ (textRound_more h).2

end AlertAudit.Template.Scan
