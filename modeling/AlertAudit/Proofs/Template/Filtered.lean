import AlertAudit.Proofs.Template.Separators
import AlertAudit.Proofs.Template.Units
import AlertAudit.Template.Builtin
import Mathlib.Tactic.FinCases

/-!
Actions with one more stage. A bar with a space in front of it can stand at the end of an action:
what is in front of it is scanned as before, and the space joins the white space there
(`scanAction_blanked`). So a stage that calls a function can be put in front of the right delimiter
(`scans_filtered`).
-/

set_option autoImplicit false

namespace AlertAudit.Template.Scan

/-- A list is cut in one way only in front of the first element without a property. -/
theorem append_cons_inj_of_forall {α : Type} {p : α → Bool} {xs ys zs ws : List α} {a b : α}
    (hxs : ∀ x ∈ xs, p x) (hys : ∀ y ∈ ys, p y) (ha : p a = false) (hb : p b = false)
    (h : xs ++ a :: zs = ys ++ b :: ws) : xs = ys ∧ a = b ∧ zs = ws := by
  have htake {xs zs : List α} {a : α} (hxs : ∀ x ∈ xs, p x) (ha : p a = false) :
      (xs ++ a :: zs).takeWhile p = xs := by
    rw [List.takeWhile_append_of_pos hxs, List.takeWhile_cons_of_neg (by rw [ha]; nofun),
      List.append_nil]
  have hsame : xs = ys := by rw [← htake hxs ha, h, htake hys hb]
  subst hsame
  exact ⟨rfl, List.cons.inj (List.append_cancel_left h)⟩

/-! ### Actions -/

theorem charsOf_singleton (l : Lexeme) : charsOf [l] = l.chars := List.append_nil _

/-- An action that is scanned to its end, and what follows it. -/
theorem charsOf_append_of_scanAction {depth : Nat} {cs rest : List Char} {ls : List Lexeme}
    (h : scanAction depth cs = ⟨ls, .ok rest⟩) : charsOf ls ++ rest = cs := by
  have hchars := charsOf_scanAction depth cs
  rwa [h] at hchars

/-- What an action that is scanned to its end starts with: its right delimiter or a token. -/
theorem cases_of_scanAction {depth : Nat} {cs rest : List Char} {ls : List Lexeme}
    (h : scanAction depth cs = ⟨ls, .ok rest⟩) :
    (∃ n, rightDelim? cs = some n ∧ depth = 0 ∧ ls = [⟨.rightDelim, cs.take n⟩]) ∨
      ∃ c tail kind n ms, cs = c :: tail ∧ rightDelim? (c :: tail) = none ∧
        read c tail = .ok (kind, n) ∧ ¬(kind = .parenClose && depth = 0) ∧
        missingTerminator? kind (tail.drop n) = none ∧ ls = ⟨kind, c :: tail.take n⟩ :: ms ∧
        scanAction (depthBehind depth kind) (tail.drop n) = ⟨ms, .ok rest⟩ := by
  rw [scanAction.eq_def] at h
  split at h
  next n hn =>
    split at h
    next => cases h
    next hdepth =>
      exact .inl ⟨n, hn, Nat.eq_zero_of_not_pos hdepth, (congrArg Result.lexemes h).symm⟩
  next hdelim =>
    split at h
    next => cases h
    next c tail =>
      split at h
      next => cases h
      next kind n hread =>
        dsimp only at h
        split at h
        next => cases h
        next hparen =>
          split at h
          next => cases h
          next hterminator =>
            cases hrest : scanAction (depthBehind depth kind) (tail.drop n) with
            | mk ms outcome =>
              have hboth : Result.cons kind (c :: tail.take n) ⟨ms, outcome⟩ = ⟨ls, .ok rest⟩ :=
                hrest ▸ h
              obtain ⟨rfl, rfl⟩ := Result.mk.inj hboth
              exact .inr ⟨c, tail, kind, n, ms, rfl, hdelim, hread, hparen,
                Option.eq_none_iff_forall_ne_some.mpr hterminator, rfl, hrest⟩

/-- A dash is the sign of a number. -/
theorem read_dash_ne_ok {cs : List Char} (hcs : Separated cs) {t : TokenKind × Nat} :
    read '-' cs ≠ .ok t := by
  have hnone : numberLength? ('-' :: cs) = none := by
    have hmagnitude : magnitudeLength? ([] ++ cs) = magnitudeLength? [] :=
      magnitudeLength?_separated hcs
    rw [List.nil_append] at hmagnitude
    rw [numberLength?, if_pos (by decide), unsignedLength?, hmagnitude]
    rfl
  have hread : read '-' cs = .error (.badNumber (String.ofList ('-' :: cs.take 1))) := by
    unfold read
    rw [if_neg (by decide), if_neg (by decide), if_pos (by decide), hnone]
  intro h
  rw [hread] at h
  cases h

/-- In front of the end of an action, a dash is followed by a number. -/
theorem not_separated_of_dash {depth : Nat} {tail rest : List Char} {ls : List Lexeme}
    (h : scanAction depth ('-' :: tail) = ⟨ls, .ok rest⟩) : ¬Separated tail := by
  intro htail
  rcases cases_of_scanAction h with ⟨n, hn, -⟩ | ⟨c, r, kind, n, ms, hcs, -, hread, -⟩
  · exact absurd (separated_cons.mp (separated_of_rightDelim? hn)) (by decide)
  · obtain ⟨rfl, rfl⟩ := List.cons.inj hcs
    exact read_dash_ne_ok htail hread

theorem ne_slash_of_scanAction {depth : Nat} {tail rest : List Char} {c : Char} {ls : List Lexeme}
    (h : scanAction depth (c :: tail) = ⟨ls, .ok rest⟩) : c ≠ '/' := by
  rintro rfl
  rcases cases_of_scanAction h with ⟨n, hn, -⟩ | ⟨c, r, kind, n, ms, hcs, -, hread, -⟩
  · exact absurd (separated_cons.mp (separated_of_rightDelim? hn)) (by decide)
  · obtain ⟨rfl, rfl⟩ := List.cons.inj hcs
    cases hread

/-- Lexemes with a space behind them, which joins the white space at their end. -/
def blanked : List Lexeme → List Lexeme
  | [] => [⟨.whitespace, [' ']⟩]
  | [l] =>
    if l.kind = .whitespace then [⟨.whitespace, l.chars ++ [' ']⟩] else [l, ⟨.whitespace, [' ']⟩]
  | l :: m :: ls => l :: blanked (m :: ls)

theorem blanked_cons {l : Lexeme} {ls : List Lexeme} (h : l.kind = .whitespace → ls ≠ []) :
    blanked (l :: ls) = l :: blanked ls := by
  cases ls with
  | nil => rw [blanked.eq_2, if_neg fun hl ↦ h hl rfl, blanked]
  | cons m ls => rw [blanked]

theorem charsOf_blanked (ls : List Lexeme) : charsOf (blanked ls) = charsOf ls ++ [' '] := by
  fun_induction blanked ls with
  | case1 => rfl
  | case2 l hl => simp [charsOf]
  | case3 l hl => simp [charsOf]
  | case4 l m ls ih => rw [charsOf_cons, ih, charsOf_cons l, List.append_assoc]

/-- White space in front of more of an action. -/
theorem scanAction_spaces {depth : Nat} {c : Char} {xs ys rest : List Char} {ls : List Lexeme}
    (hc : isSpace c) (hxs : ∀ x ∈ xs, isSpace x) (hys : ∀ y ∈ ys.head?, isSpace y = false)
    (h : scanAction depth ys = ⟨ls, .ok rest⟩) :
    scanAction depth (c :: (xs ++ ys)) = ⟨⟨.whitespace, c :: xs⟩ :: ls, .ok rest⟩ := by
  have hmark : ¬['-', '}', '}'] <+: ys := by
    rintro ⟨r, rfl⟩
    exact not_separated_of_dash h (separated_cons.mpr (by decide))
  have hscan : scanAction depth (c :: (xs ++ ys)) = .cons .whitespace
      (c :: (xs ++ ys).take xs.length) (scanAction depth ((xs ++ ys).drop xs.length)) :=
    scanAction_of_read (rightDelim?_spaces hc hxs hmark) (read_spaces hc hxs hmark hys)
      (fun h ↦ by simp at h) rfl
  rw [List.take_left, List.drop_left, h] at hscan
  exact hscan

/-- Nothing but the right delimiter is left of an action. -/
theorem rightDelim?_of_scanAction {depth : Nat} {cs rest close : List Char}
    (h : scanAction depth cs = ⟨[⟨.rightDelim, close⟩], .ok rest⟩) :
    depth = 0 ∧ ∃ n, rightDelim? cs = some n ∧ close = cs.take n := by
  rcases cases_of_scanAction h with
    ⟨n, hn, hdepth, hls⟩ | ⟨c, tail, kind, n, ls, -, -, hread, -, -, hls, -⟩
  · exact ⟨hdepth, n, hn, (Lexeme.mk.inj (List.cons.inj hls).1).2⟩
  · have hkind := isInner_of_read hread
    rw [← (Lexeme.mk.inj (List.cons.inj hls).1).1] at hkind
    cases hkind

/-- An action ends with its right delimiter. -/
theorem rightDelim?_close {close rest : List Char} {inner : List Lexeme} :
    ∀ {depth : Nat} {cs : List Char},
      scanAction depth cs = ⟨inner ++ [⟨.rightDelim, close⟩], .ok rest⟩ →
        rightDelim? close = some close.length := by
  induction inner with
  | nil =>
    intro depth cs h
    obtain ⟨-, n, hn, rfl⟩ := rightDelim?_of_scanAction h
    obtain ⟨hdelim, hlength⟩ := rightDelim?_take hn
    rw [hlength]
    exact hdelim
  | cons l inner ih =>
    intro depth cs h
    rcases cases_of_scanAction h with
      ⟨n, -, -, hls⟩ | ⟨c, tail, kind, n, ls, -, -, -, -, -, hls, hbehind⟩
    · exact absurd (congrArg List.length hls) (by simp)
    · rw [← (List.cons.inj hls).2] at hbehind
      exact ih hbehind

/-- The first character of an action is the first one of its first token. -/
theorem head?_of_scanAction {depth : Nat} {cs rest : List Char} {l : Lexeme} {ls : List Lexeme}
    (h : scanAction depth cs = ⟨l :: ls, .ok rest⟩) (hls : ls ≠ []) :
    rightDelim? cs = none ∧ ∃ c, c ≠ '}' ∧ l.chars.head? = some c ∧ cs.head? = some c := by
  rcases cases_of_scanAction h with
    ⟨n, -, -, hdelim⟩ | ⟨c, tail, kind, n, ms, rfl, hdelim, hread, -, -, hls, -⟩
  · exact absurd (List.cons.inj hdelim).2 hls
  · obtain ⟨rfl, -⟩ := List.cons.inj hls
    refine ⟨hdelim, c, ?_, rfl, rfl⟩
    rintro rfl
    cases hread

/-- A token that is read in front of a separator, and the rest of an action. -/
theorem scanAction_separated {depth : Nat} {c : Char} {xs ys ds rest : List Char}
    {kind : TokenKind} {ls : List Lexeme} (hc : isSpace c = false) (hds : Separated ds)
    (hread : read c (xs ++ ys) = .ok (kind, xs.length))
    (hparen : ¬(kind = .parenClose && depth = 0))
    (hends : missingTerminator? kind (ys ++ ds) = none)
    (h : scanAction (depthBehind depth kind) (ys ++ ds) = ⟨ls, .ok rest⟩) :
    scanAction depth (c :: (xs ++ (ys ++ ds))) = ⟨⟨kind, c :: xs⟩ :: ls, .ok rest⟩ := by
  have hdelim : rightDelim? (c :: (xs ++ (ys ++ ds))) = none := by
    unfold rightDelim?
    split
    next heq =>
      obtain rfl := (List.cons.inj heq).1
      cases hread
    next heq =>
      obtain rfl := (List.cons.inj heq).1
      rw [hc, if_neg Bool.false_ne_true]
    next => rfl
  have hfits : xs.length ≤ (xs ++ ys).length := by simp
  have hread' := (read_separated hds hc hfits).mpr hread
  rw [List.append_assoc] at hread'
  have hscan := scanAction_of_read hdelim hread' hparen (by rw [List.drop_left]; exact hends)
  rw [List.take_left, List.drop_left, h] at hscan
  exact hscan

/-- Where a token ends is told by the character behind it, if that is no closing brace. -/
theorem missingTerminator?_of_head? {kind : TokenKind} {cs ds : List Char} {c : Char}
    (hc : c ≠ '}') (hcs : cs.head? = some c) (hds : ds.head? = some c)
    (h : missingTerminator? kind cs = none) : missingTerminator? kind ds = none := by
  obtain ⟨cs, rfl⟩ := List.head?_eq_some_iff.mp hcs
  obtain ⟨ds, rfl⟩ := List.head?_eq_some_iff.mp hds
  have hsame : atTerminator (c :: ds) = atTerminator (c :: cs) := by simp [atTerminator, hc]
  rw [missingTerminator?, hsame]
  exact h

theorem missingTerminator?_of_space (kind : TokenKind) {c : Char} (hc : isSpace c)
    (cs : List Char) : missingTerminator? kind (c :: cs) = none := by
  simp [missingTerminator?, atTerminator, hc]

theorem missingTerminator?_of_rightDelim? (kind : TokenKind) {cs : List Char} {n : Nat}
    (h : rightDelim? cs = some n) : missingTerminator? kind cs = none := by
  unfold rightDelim? at h
  split at h
  · simp [missingTerminator?, atTerminator]
  · split at h
    next hspace => exact missingTerminator?_of_space kind hspace _
    next => cases h
  · cases h

/-- A bar with a space in front of it can stand at the end of an action. -/
theorem scanAction_blanked {w rest' : List Char} {ms : List Lexeme}
    (hw : scanAction 0 ('|' :: w) = ⟨ms, .ok rest'⟩) {close : List Char} {inner : List Lexeme} :
    ∀ {depth : Nat} {cs rest : List Char},
      scanAction depth cs = ⟨inner ++ [⟨.rightDelim, close⟩], .ok rest⟩ →
        scanAction depth (charsOf inner ++ ' ' :: '|' :: w) = ⟨blanked inner ++ ms, .ok rest'⟩ := by
  have hbar : ∀ y ∈ ('|' :: w).head?, isSpace y = false := by
    intro y hy
    obtain rfl := Option.some.inj hy
    rfl
  induction inner with
  | nil =>
    intro depth cs rest h
    obtain ⟨rfl, -⟩ := rightDelim?_of_scanAction h
    have hspaced : scanAction 0 (' ' :: ([] ++ '|' :: w)) = _ := scanAction_spaces rfl nofun hbar hw
    exact hspaced
  | cons l inner ih =>
    intro depth cs rest h
    rcases cases_of_scanAction h with ⟨n, -, -, hls⟩ |
      ⟨c, tail, kind, n, ls, rfl, hdelim, hread, hparen, hterminator, hls, hbehind⟩
    · exact absurd (congrArg List.length hls) (by simp)
    rw [List.cons_append] at hls
    obtain ⟨rfl, rfl⟩ := List.cons.inj hls
    have hinner := ih hbehind
    -- the rest of the action starts as before, unless nothing is left in front of its delimiter
    have hhead : inner ≠ [] → rightDelim? (tail.drop n) = none ∧ ∃ d, d ≠ '}' ∧
        (charsOf inner ++ ' ' :: '|' :: w).head? = some d ∧ (tail.drop n).head? = some d := by
      intro hne
      obtain ⟨m, inner, rfl⟩ := List.exists_cons_of_ne_nil hne
      obtain ⟨hnone, d, hbrace, hm, hd⟩ := head?_of_scanAction hbehind (by simp)
      refine ⟨hnone, d, hbrace, ?_, hd⟩
      rw [charsOf_cons, List.append_assoc, List.head?_append, hm, Option.some_or]
    by_cases hc : isSpace c
    · obtain ⟨rfl, hspaces, hends⟩ := spaces_of_read hc hdelim hread
      by_cases hnil : inner = []
      · subst hnil
        obtain ⟨hdepth, -⟩ := rightDelim?_of_scanAction hbehind
        obtain rfl : depth = 0 := hdepth
        have hlonger : ∀ x ∈ tail.take n ++ [' '], isSpace x :=
          List.forall_mem_append.mpr ⟨hspaces, List.forall_mem_singleton.mpr rfl⟩
        have hscan := scanAction_spaces hc hlonger hbar hw
        rw [List.append_assoc] at hscan
        rw [charsOf_singleton]
        exact hscan
      · obtain ⟨hnone, d, -, hd, hd'⟩ := hhead hnil
        have hscan := scanAction_spaces hc hspaces (fun y hy ↦ hends hnone y ?_) hinner
        · rw [charsOf_cons, List.append_assoc, blanked_cons fun _ ↦ hnil]
          exact hscan
        · rw [hd'] at ⊢
          rw [hd] at hy
          exact hy
    · have hlt : n < tail.length :=
        (closes_of_scanAction _ (congrArg Result.outcome hbehind)).lt_length
      have hclose : Separated (close ++ rest) :=
        separated_of_rightDelim? (rightDelim?_append (rightDelim?_close hbehind) rest).1
      have hlength : (tail.take n).length = n := List.length_take_of_le (Nat.le_of_lt hlt)
      have htail : (tail.take n ++ charsOf inner) ++ (close ++ rest) = tail := by
        have hdrop := charsOf_append_of_scanAction hbehind
        rw [charsOf_append, charsOf_singleton, List.append_assoc] at hdrop
        rw [List.append_assoc, hdrop, List.take_append_drop]
      have hfits : n ≤ (tail.take n ++ charsOf inner).length := by
        rw [List.length_append]
        omega
      have hsolid := Bool.eq_false_of_not_eq_true hc
      have hread' : read c (tail.take n ++ charsOf inner) = .ok (kind, (tail.take n).length) := by
        rw [hlength, ← read_separated hclose hsolid hfits, htail]
        exact hread
      have hends : missingTerminator? kind (charsOf inner ++ ' ' :: '|' :: w) = none := by
        by_cases hnil : inner = []
        · subst hnil
          exact missingTerminator?_of_space kind rfl _
        · obtain ⟨-, d, hd, hhead, hhead'⟩ := hhead hnil
          exact missingTerminator?_of_head? hd hhead' hhead hterminator
      have hscan := scanAction_separated hsolid (separated_cons.mpr (by decide)) hread' hparen hends
        hinner
      have hkind : kind ≠ .whitespace := by
        rintro rfl
        exact hc (isSpace_of_read hread)
      rw [charsOf_cons, List.append_assoc, blanked_cons fun h ↦ absurd h hkind]
      exact hscan

/-! ### Actions with one more stage -/

/-- A letter with letters and digits behind it, which is no reserved word. -/
def isFunctionName (name : String) : Bool :=
  match name.toList with
  | [] => false
  | c :: cs => isWordStart c && cs.all isWordChar && TokenKind.ofWord name = .identifier

theorem isFunctionName_of_isDefined {name : String} (h : Builtin.isDefined name) :
    isFunctionName name := by
  have hall : ∀ name ∈ Builtin.general ++ Builtin.alerting, isFunctionName name := by
    decide +kernel
  refine hall name (List.mem_append.mpr ?_)
  simpa [Builtin.isDefined] using h

theorem exists_of_isFunctionName {name : String} (h : isFunctionName name) :
    ∃ c cs, name.toList = c :: cs ∧ isWordStart c ∧ (∀ d ∈ cs, isWordChar d) ∧
      TokenKind.ofWord name = .identifier := by
  unfold isFunctionName at h
  split at h
  next => cases h
  next c cs hname =>
    simp only [Bool.and_eq_true, List.all_eq_true, decide_eq_true_eq] at h
    exact ⟨c, cs, hname, h.1.1, h.1.2, h.2⟩

/-- The lexemes of a stage that calls a function: the bar, a space and the name. -/
def stage (name : String) : List Lexeme :=
  [⟨.pipe, ['|']⟩, ⟨.whitespace, [' ']⟩, ⟨.identifier, name.toList⟩]

theorem scanAction_stage {name : String} (h : isFunctionName name) {close : List Char}
    (hclose : rightDelim? close = some close.length) :
    scanAction 0 (charsOf (stage name) ++ close) =
      ⟨stage name ++ [⟨.rightDelim, close⟩], .ok []⟩ := by
  obtain ⟨c, cs, hname, hc, hcs, hkind⟩ := exists_of_isFunctionName h
  have hend := scanAction_of_rightDelim? hclose
  rw [List.take_length, List.drop_length] at hend
  have hspace : isSpace c = false := by
    by_contra hspace
    have hseparator := mem_separators_of_isSpace (Bool.eq_true_of_not_eq_false hspace)
    rw [(forall_mem_separators (P := (isWordStart · = false))).mpr (by decide) c hseparator] at hc
    cases hc
  have hread : read c (cs ++ []) = .ok (.identifier, cs.length) := by
    unfold read
    rw [if_neg (by rw [hspace]; exact Bool.false_ne_true), if_pos hc, List.append_nil, run,
      List.takeWhile_eq_self_iff.mpr hcs]
    dsimp only
    rw [List.take_length, ← hname, String.ofList_toList, hkind]
  have hword : scanAction 0 (c :: (cs ++ close)) =
      ⟨[⟨.identifier, c :: cs⟩, ⟨.rightDelim, close⟩], .ok []⟩ :=
    scanAction_separated hspace (separated_of_rightDelim? hclose) hread (by decide)
      (missingTerminator?_of_rightDelim? .identifier hclose) hend
  have hsolid : ∀ y ∈ (c :: (cs ++ close)).head?, isSpace y = false := by
    intro y hy
    obtain rfl := Option.some.inj hy
    exact hspace
  have hspaced : scanAction 0 (' ' :: ([] ++ c :: (cs ++ close))) =
      ⟨[⟨.whitespace, [' ']⟩, ⟨.identifier, c :: cs⟩, ⟨.rightDelim, close⟩], .ok []⟩ :=
    scanAction_spaces rfl (List.forall_mem_nil _) hsolid hword
  have hseparated : Separated (' ' :: c :: (cs ++ close)) := separated_cons.mpr (by decide)
  have hbar : scanAction 0 ('|' :: ([] ++ ([] ++ ' ' :: c :: (cs ++ close)))) = ⟨[⟨.pipe, ['|']⟩,
      ⟨.whitespace, [' ']⟩, ⟨.identifier, c :: cs⟩, ⟨.rightDelim, close⟩], .ok []⟩ :=
    scanAction_separated rfl hseparated rfl (by decide) rfl hspaced
  rw [stage, hname]
  simpa [charsOf] using hbar

/-- The trim marker of a left delimiter, or nothing. -/
def IsTrimMarker (cs : List Char) : Prop := cs = [] ∨ ∃ c, isSpace c ∧ cs = ['-', c]

theorem isTrimMarker_take (cs : List Char) : IsTrimMarker (cs.take (trimMarkerLength cs)) := by
  unfold trimMarkerLength
  split
  next c r =>
    split
    next hc => exact .inr ⟨c, hc, rfl⟩
    next => exact .inl rfl
  next => exact .inl rfl

/-- What is scanned as an action is an action behind a left delimiter. -/
theorem scans_of_scanAction {trim cs : List Char} {ls : List Lexeme} (htrim : IsTrimMarker trim)
    (h : scanAction 0 cs = ⟨ls, .ok []⟩) :
    Scans ('{' :: '{' :: (trim ++ cs)) (⟨.leftDelim, '{' :: '{' :: trim⟩ :: ls) := by
  have hmarker : trimMarkerLength (trim ++ cs) = trim.length := by
    rcases htrim with rfl | ⟨c, hc, rfl⟩
    · rw [List.nil_append, trimMarkerLength.eq_def]
      split
      next c r =>
        refine if_neg fun hc ↦ not_separated_of_dash h (separated_cons.mpr ?_)
        exact mem_separators_of_isSpace hc
      next => rfl
    · rw [List.cons_append, List.cons_append, trimMarkerLength, if_pos hc]
      rfl
  have hmark : ¬(['/', '*'] : List Char).isPrefixOf cs := by
    rw [List.isPrefixOf_iff_prefix]
    rintro ⟨r, rfl⟩
    exact ne_slash_of_scanAction h rfl
  have hscan := @scanText_action (trim ++ cs) []
  rw [hmarker, List.drop_left, List.take_left, h, scans_nil] at hscan
  rw [Scans, hscan hmark rfl, List.append_nil]

/-- The lexemes of an action end with its first right delimiter. -/
theorem eq_of_append_close {inner inner' ls : List Lexeme} {close close' : List Char}
    (hinner : ∀ l ∈ inner, l.kind.isInner) (hinner' : ∀ l ∈ inner', l.kind.isInner)
    (h : inner' ++ ⟨.rightDelim, close'⟩ :: ls = inner ++ [⟨.rightDelim, close⟩]) :
    inner' ++ [⟨.rightDelim, close'⟩] = inner ++ [⟨.rightDelim, close⟩] ∧ ls = [] := by
  obtain ⟨rfl, hclose, rfl⟩ := append_cons_inj_of_forall hinner' hinner rfl rfl h
  exact ⟨by rw [hclose], rfl⟩

/-- What is scanned as an action ends with a right delimiter. -/
theorem exists_of_scanAction {depth : Nat} {cs rest : List Char}
    (h : (scanAction depth cs).outcome = .ok rest) : ∃ inner close, (∀ l ∈ inner, l.kind.isInner) ∧
      scanAction depth cs = ⟨inner ++ [⟨.rightDelim, close⟩], .ok rest⟩ := by
  have hfills := fills_scanAction depth cs
  generalize scanAction depth cs = action at h hfills
  obtain ⟨ls, outcome⟩ := action
  obtain rfl : outcome = .ok rest := h
  obtain @⟨inner, close, _, hinner⟩ := hfills
  exact ⟨inner, close, hinner, rfl⟩

/-- An action is a left delimiter with what is scanned as an action behind it. -/
theorem scanAction_of_scans {mark close cs : List Char} {inner : List Lexeme}
    (hinner : ∀ l ∈ inner, l.kind.isInner)
    (h : Scans cs (⟨.leftDelim, mark⟩ :: (inner ++ [⟨.rightDelim, close⟩]))) :
    ∃ trim, IsTrimMarker trim ∧ mark = '{' :: '{' :: trim ∧
      scanAction 0 (charsOf (inner ++ [⟨.rightDelim, close⟩])) =
        ⟨inner ++ [⟨.rightDelim, close⟩], .ok []⟩ := by
  rw [Scans] at h
  unfold scanText at h
  split at h
  next => cases h
  next tail =>
    dsimp only at h
    split at h
    next =>
      split at h
      next => cases h
      next => cases (Lexeme.mk.inj (List.cons.inj (Result.mk.inj h).1).1).1
    next =>
      split at h
      next => cases (Result.mk.inj h).2
      next rest hrest =>
        obtain ⟨hlexemes, houtcome⟩ := Result.mk.inj h
        obtain ⟨hmark, hbehind⟩ := List.cons.inj hlexemes
        obtain ⟨inner', close', hinner', haction⟩ := exists_of_scanAction hrest
        rw [haction, List.append_eq, List.append_assoc] at hbehind
        obtain ⟨hsame, hnil⟩ : _ ∧ (scanText rest).lexemes = [] :=
          eq_of_append_close hinner hinner' hbehind
        have hempty : rest = [] := by rw [← charsOf_scanText rest, hnil]; rfl
        rw [hsame, hempty] at haction
        have hchars := charsOf_append_of_scanAction haction
        rw [List.append_nil] at hchars
        rw [← hchars] at haction
        exact ⟨_, isTrimMarker_take tail, (Lexeme.mk.inj hmark).2.symm, haction⟩
  next => cases (Lexeme.mk.inj (List.cons.inj (Result.mk.inj h).1).1).1

/-- An action with one more stage at its end. -/
def filtered (name : String) (inner : List Lexeme) : List Lexeme := blanked inner ++ stage name

/-- A stage that calls a function can be put at the end of an action. -/
theorem scans_filtered {name : String} (hname : isFunctionName name) {mark close cs : List Char}
    {inner : List Lexeme} (hinner : ∀ l ∈ inner, l.kind.isInner)
    (h : Scans cs (⟨.leftDelim, mark⟩ :: (inner ++ [⟨.rightDelim, close⟩]))) :
    Scans (charsOf (⟨.leftDelim, mark⟩ :: (filtered name inner ++ [⟨.rightDelim, close⟩])))
      (⟨.leftDelim, mark⟩ :: (filtered name inner ++ [⟨.rightDelim, close⟩])) := by
  obtain ⟨trim, htrim, rfl, haction⟩ := scanAction_of_scans hinner h
  have hstage := scanAction_stage hname (rightDelim?_close haction)
  have hfiltered := scans_of_scanAction htrim (scanAction_blanked hstage haction)
  rw [← hfiltered.charsOf_eq, ← List.append_assoc] at hfiltered
  exact hfiltered

/-- The characters of an action with one more stage at its end. -/
theorem charsOf_filtered (name : String) (inner : List Lexeme) :
    charsOf (filtered name inner) = charsOf inner ++ " | ".toList ++ name.toList := by
  rw [filtered, charsOf_append, charsOf_blanked]
  simp [stage, charsOf]

theorem isInner_filtered (name : String) {inner : List Lexeme}
    (hinner : ∀ l ∈ inner, l.kind.isInner) : ∀ l ∈ filtered name inner, l.kind.isInner := by
  have hblanked : ∀ l ∈ blanked inner, l.kind.isInner := by
    fun_induction blanked inner with
    | case1 => exact List.forall_mem_singleton.mpr rfl
    | case2 => exact List.forall_mem_singleton.mpr rfl
    | case3 l _ =>
      have hl := hinner l List.mem_cons_self
      exact List.forall_mem_cons.mpr ⟨hl, List.forall_mem_singleton.mpr rfl⟩
    | case4 l m ls ih =>
      obtain ⟨hl, hls⟩ := List.forall_mem_cons.mp hinner
      exact List.forall_mem_cons.mpr ⟨hl, ih hls⟩
  refine List.forall_mem_append.mpr ⟨hblanked, ?_⟩
  intro l hl
  fin_cases hl <;> rfl

end AlertAudit.Template.Scan
