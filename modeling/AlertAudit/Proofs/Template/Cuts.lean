import AlertAudit.Proofs.Template.TokenStream
import Mathlib.Data.List.TakeWhile

/-!
Actions without the text behind them. A word or a number has no closing brace, and a literal ends at
its quote, so a token inside of an action is read the same if the text ends with the action
(`read_of_append`). An action that is scanned to its end is scanned the same where the text ends
with it (`scanAction_charsOf`), and so is a comment (`afterComment_of_append`).
-/

set_option autoImplicit false

namespace AlertAudit.Template.Scan

/-! ### Lengths

No closing brace is in what a length covers. -/

/-- No closing brace is among the first `n` characters. -/
def Braceless (n : Nat) (cs : List Char) : Prop := '}' ∉ cs.take n

section Braceless

variable {n m : Nat} {c : Char} {cs : List Char}

theorem braceless_zero : Braceless 0 cs := List.not_mem_nil

theorem Braceless.cons (hc : c ≠ '}') (h : Braceless n cs) : Braceless (n + 1) (c :: cs) := by
  rw [Braceless, List.take_succ_cons, List.mem_cons, not_or]
  exact ⟨Ne.symm hc, h⟩

theorem Braceless.add (h : Braceless n cs) (h' : Braceless m (cs.drop n)) :
    Braceless (n + m) cs := by
  rw [Braceless, List.take_add, List.mem_append, not_or]
  exact ⟨h, h'⟩

/-- What is closed is closed behind characters other than braces. -/
theorem Braceless.closes (h : Braceless n cs) (hcloses : Closes cs) : Closes (cs.drop n) := by
  rw [Closes, ← List.take_append_drop n cs, List.count_append, List.count_eq_zero.mpr h,
    Nat.zero_add] at hcloses
  exact hcloses

theorem braceless_run {p : Char → Bool} (hp : p '}' = false) (cs : List Char) :
    Braceless (run p cs) cs := by
  rw [Braceless, run, ← List.prefix_iff_eq_take.mp (List.takeWhile_prefix p)]
  intro hmem
  rw [List.mem_takeWhile_imp hmem] at hp
  exact Bool.noConfusion hp

theorem braceless_exponentLength (cs : List Char) : Braceless (exponentLength cs) cs := by
  cases cs with
  | nil => exact braceless_zero
  | cons c cs =>
    by_cases hmark : c = 'e' ∨ c = 'E'
    · have hc : c ≠ '}' := by rcases hmark with rfl | rfl <;> decide
      cases cs with
      | nil =>
        simp only [exponentLength, Bool.or_eq_true, decide_eq_true_eq, hmark, if_true]
        exact braceless_zero.cons hc
      | cons s r =>
        by_cases hsign : s = '+' ∨ s = '-'
        · have hs : s ≠ '}' := by rcases hsign with rfl | rfl <;> decide
          simp only [exponentLength, Bool.or_eq_true, decide_eq_true_eq, hmark, hsign, if_true]
          rw [Nat.add_comm]
          exact ((braceless_run (by decide) r).cons hs).cons hc
        · simp only [exponentLength, Bool.or_eq_true, decide_eq_true_eq, hmark, hsign, if_true,
            if_false]
          rw [Nat.add_comm]
          exact (braceless_run (by decide) (s :: r)).cons hc
    · simp only [exponentLength, Bool.or_eq_true, decide_eq_true_eq, hmark, if_false]
      exact braceless_zero

theorem braceless_mantissaLength (cs : List Char) : Braceless (mantissaLength cs) cs :=
  (braceless_run (by decide) cs).add (braceless_exponentLength _)

theorem braceless_decimalLength (cs : List Char) : Braceless (decimalLength cs) cs := by
  have hdigits := braceless_run (p := fun d ↦ d.isDigit || d = '_') (by decide) cs
  rcases decimalLength_cases cs rfl with ⟨r, hdrop, heq⟩ | ⟨-, heq⟩
  · rw [heq, Nat.add_assoc, Nat.add_comm 1]
    refine hdigits.add ?_
    rw [hdrop]
    exact (braceless_mantissaLength r).cons (by decide)
  · rw [heq]
    exact hdigits.add (braceless_exponentLength _)

theorem ne_brace_of_isDigit (h : c.isDigit) : c ≠ '}' := by
  rintro rfl
  exact absurd h (by decide)

theorem ne_brace_of_or {x y : Char} (h : c = x || c = y) (hx : x ≠ '}') (hy : y ≠ '}') :
    c ≠ '}' := by
  rw [Bool.or_eq_true, decide_eq_true_eq, decide_eq_true_eq] at h
  rcases h with rfl | rfl
  · exact hx
  · exact hy

theorem braceless_magnitudeLength? (h : magnitudeLength? cs = some n) : Braceless n cs := by
  have hbased {p : Char → Bool} (hp : p '}' = false) {c : Char} (hc : c ≠ '}') (cs : List Char) :
      Braceless (2 + run p cs) ('0' :: c :: cs) := by
    rw [Nat.add_comm]
    exact ((braceless_run hp cs).cons hc).cons (by decide)
  unfold magnitudeLength? at h
  split at h
  next c cs =>
    split at h
    next hbase =>
      obtain rfl := Option.some.inj h
      exact hbased (by decide) (ne_brace_of_or hbase (by decide) (by decide)) cs
    next =>
      split at h
      next hbase =>
        obtain rfl := Option.some.inj h
        exact hbased (by decide) (ne_brace_of_or hbase (by decide) (by decide)) cs
      next =>
        split at h
        next hbase =>
          obtain rfl := Option.some.inj h
          exact hbased (by decide) (ne_brace_of_or hbase (by decide) (by decide)) cs
        next =>
          obtain rfl := Option.some.inj h
          rw [Nat.add_comm]
          exact (braceless_decimalLength (c :: cs)).cons (by decide)
  next d cs =>
    split at h
    next hdigit =>
      obtain rfl := Option.some.inj h
      rw [Nat.add_comm]
      exact ((braceless_mantissaLength cs).cons (ne_brace_of_isDigit hdigit)).cons (by decide)
    next => exact absurd h (by simp)
  next c cs _ _ =>
    split at h
    next hdigit =>
      obtain rfl := Option.some.inj h
      rw [Nat.add_comm]
      exact (braceless_decimalLength cs).cons (ne_brace_of_isDigit hdigit)
    next => exact absurd h (by simp)
  next => exact absurd h (by simp)

theorem braceless_unsignedLength? (h : unsignedLength? cs = some n) : Braceless n cs := by
  obtain ⟨m, hm, hmark⟩ := Option.map_eq_some_iff.mp h
  have hmagnitude := braceless_magnitudeLength? hm
  split at hmark
  next himaginary =>
    subst hmark
    obtain ⟨r, hr⟩ := List.head?_eq_some_iff.mp himaginary
    refine hmagnitude.add ?_
    rw [hr]
    exact braceless_zero.cons (by decide)
  next => exact hmark ▸ hmagnitude

theorem braceless_numberLength? (h : numberLength? cs = some n) : Braceless n cs := by
  cases cs with
  | nil => cases h
  | cons c cs =>
    rw [numberLength?] at h
    split at h
    next hsign =>
      obtain ⟨m, hm, rfl⟩ := Option.map_eq_some_iff.mp h
      rw [Nat.add_comm]
      exact (braceless_unsignedLength? hm).cons (ne_brace_of_or hsign (by decide) (by decide))
    next => exact braceless_unsignedLength? h

end Braceless

/-! ### Tokens -/

/-- Whether there is a number is told by what is in front of two closing braces. -/
theorem unsignedLength?_append_of_none {cs : List Char} (h : unsignedLength? cs = none)
    (hlong : 2 ≤ cs.length) (ds : List Char) : unsignedLength? (cs ++ ds) = none := by
  rw [unsignedLength?, Option.map_eq_none_iff] at h ⊢
  unfold magnitudeLength? at h
  split at h
  next c cs =>
    split at h
    · cases h
    · split at h
      · cases h
      · split at h <;> cases h
  next d cs =>
    split at h
    next => cases h
    next hdigit => rw [List.cons_append, List.cons_append, magnitudeLength?, if_neg hdigit]
  next c cs hzero hpoint =>
    obtain ⟨d, r, rfl⟩ : ∃ d r, cs = d :: r :=
      List.exists_cons_of_length_pos (Nat.lt_of_succ_lt_succ hlong)
    split at h
    next => cases h
    next hdigit =>
      rw [List.cons_append, magnitudeLength?, if_neg hdigit]
      · exact fun _ _ hc _ ↦ hzero d r hc rfl
      · exact fun _ _ hc _ ↦ hpoint d r hc rfl
  next => exact absurd hlong (by simp)

/-- The first number of a longer text is in front of two closing braces already. -/
theorem numberLength?_of_append {c : Char} {cs ds : List Char} {n : Nat} (hcloses : Closes cs)
    (h : numberLength? (c :: (cs ++ ds)) = some n) : numberLength? (c :: cs) = some n := by
  cases hshort : numberLength? (c :: cs) with
  | some m =>
    have hbrace : Closes (c :: cs) := Nat.le_trans hcloses List.count_le_count_cons
    have hlt := ((braceless_numberLength? hshort).closes hbrace).lt_length
    exact (numberLength?_append hshort hlt ds).symm.trans h
  | none =>
    have hlong := hcloses.two_le_length
    rw [numberLength?] at h hshort
    split at h
    next hsign =>
      rw [if_pos hsign, Option.map_eq_none_iff] at hshort
      rw [unsignedLength?_append_of_none hshort hlong] at h
      cases h
    next hsign =>
      rw [if_neg hsign] at hshort
      have hnone := unsignedLength?_append_of_none hshort
        (Nat.le_succ_of_le hlong : 2 ≤ (c :: cs).length) ds
      rw [List.cons_append] at hnone
      rw [hnone] at h
      cases h

theorem pos_of_quotedLength? {quote : Char} {cs : List Char} {n : Nat}
    (h : quotedLength? quote cs = some n) : 0 < n := by
  unfold quotedLength? at h
  split at h
  · cases h
  · split at h
    · cases h
    · obtain ⟨m, -, rfl⟩ := Option.map_eq_some_iff.mp h
      exact Nat.lt_of_lt_of_le Nat.zero_lt_two (Nat.le_add_right 2 m)
  · split at h
    · cases h
      exact Nat.zero_lt_one
    · split at h
      · cases h
      · obtain ⟨m, -, rfl⟩ := Option.map_eq_some_iff.mp h
        exact Nat.lt_of_lt_of_le Nat.zero_lt_one (Nat.le_add_right 1 m)

/-- A literal that ends in front of what follows a text is in the text. -/
theorem quotedLength?_of_append {quote : Char} (hbackslash : quote ≠ '\\') {cs ds : List Char}
    {n : Nat} (h : quotedLength? quote (cs ++ ds) = some n) (hn : n ≤ cs.length) :
    quotedLength? quote cs = some n := by
  fun_induction quotedLength? quote cs generalizing n with
  | case1 => exact absurd (pos_of_quotedLength? h) (Nat.not_lt_of_le hn)
  | case2 cs =>
    rw [List.cons_append, List.cons_append, quotedLength?, if_pos rfl] at h
    exact h
  | case3 c cs hc ih =>
    rw [List.cons_append, List.cons_append, quotedLength?, if_neg hc] at h
    obtain ⟨m, hm, rfl⟩ := Option.map_eq_some_iff.mp h
    rw [ih hm (by simp only [List.length_cons] at hn; omega), Option.map_some]
  | case4 cs =>
    rw [List.cons_append, quotedLength?, if_pos rfl] at h
    · exact h
    · exact fun _ _ hquote _ ↦ hbackslash hquote
  | case5 c cs hescape hquote hstop =>
    by_cases hc : c = '\\'
    · -- the character behind the backslash is not in the text
      subst hc
      obtain rfl : cs = [] := List.eq_nil_iff_forall_not_mem.mpr fun d hd ↦ by
        obtain ⟨e, r, rfl⟩ := List.exists_cons_of_ne_nil (List.ne_nil_of_mem hd)
        exact hescape e r rfl rfl
      cases ds with
      | nil =>
        rw [List.append_nil, quotedLength?, if_neg hquote, if_pos hstop] at h
        · exact h
        · exact hescape
      | cons d ds =>
        rw [List.cons_append, List.nil_append, quotedLength?] at h
        split at h
        · cases h
        · obtain ⟨m, -, rfl⟩ := Option.map_eq_some_iff.mp h
          exact absurd hn (by simp only [List.length_singleton]; omega)
    · rw [List.cons_append, quotedLength?, if_neg hquote, if_pos hstop] at h
      · exact h
      · exact fun _ _ hslash _ ↦ hc hslash
  | case6 c cs _ hquote hstop ih =>
    rw [List.cons_append, quotedLength?, if_neg hquote, if_neg hstop] at h
    · obtain ⟨m, hm, rfl⟩ := Option.map_eq_some_iff.mp h
      rw [ih hm (by rw [List.length_cons] at hn; omega), Option.map_some]
    · rintro _ _ rfl
      exact absurd rfl hstop

theorem rawLength?_of_append {cs ds : List Char} {n : Nat} (h : rawLength? (cs ++ ds) = some n)
    (hn : n ≤ cs.length) : rawLength? cs = some n := by
  induction cs generalizing n with
  | nil =>
    obtain rfl := Nat.le_zero.mp hn
    cases ds with
    | nil => cases h
    | cons d ds =>
      rw [List.nil_append, rawLength?] at h
      split at h
      · cases h
      · obtain ⟨m, -, hm⟩ := Option.map_eq_some_iff.mp h
        exact absurd hm (by omega)
  | cons c cs ih =>
    rw [List.cons_append, rawLength?] at h
    rw [rawLength?]
    split at h
    next hquote =>
      rw [if_pos hquote]
      exact h
    next hquote =>
      obtain ⟨m, hm, rfl⟩ := Option.map_eq_some_iff.mp h
      rw [if_neg hquote, ih hm (by rw [List.length_cons] at hn; omega), Option.map_some]

section Read

variable {c : Char} {cs ds : List Char} {kind : TokenKind} {n : Nat}

theorem number_of_append {m : Nat} (hm : numberLength? (c :: (cs ++ ds)) = some m)
    (h : read.number c (cs ++ ds) m = .ok (kind, n)) (hcloses : Closes cs) :
    numberLength? (c :: cs) = some m ∧ read.number c cs m = .ok (kind, n) := by
  have hshort := numberLength?_of_append hcloses hm
  have hbrace : Closes (c :: cs) := Nat.le_trans hcloses List.count_le_count_cons
  have hlt := ((braceless_numberLength? hshort).closes hbrace).lt_length
  refine ⟨hshort, ?_⟩
  have hend : m - 1 < cs.length := by
    have hlong := hcloses.two_le_length
    rw [List.length_cons] at hlt
    omega
  obtain ⟨d, r, hdrop⟩ : ∃ d r, cs.drop (m - 1) = d :: r :=
    List.exists_cons_of_length_pos (by rw [List.length_drop]; omega)
  unfold read.number at h ⊢
  rw [List.drop_append_of_le_length (Nat.le_of_lt hend), hdrop, List.cons_append,
    List.head?_cons] at h
  rw [hdrop, List.head?_cons]
  dsimp only at h ⊢
  split at h
  next => cases h
  next hends =>
    rw [if_neg hends]
    exact h

/-- A literal that ends in front of what follows a text is read from the text. -/
theorem elim_of_append {length? : List Char → Option Nat} {literal : TokenKind} {e : ScanError}
    (hlength : ∀ m, length? (cs ++ ds) = some m → m ≤ cs.length → length? cs = some m)
    (h : ((length? (cs ++ ds)).map (literal, ·)).elim (.error e) .ok = Except.ok (kind, n))
    (hn : n ≤ cs.length) :
    ((length? cs).map (literal, ·)).elim (.error e) .ok = Except.ok (kind, n) := by
  cases hsome : length? (cs ++ ds) with
  | none =>
    rw [hsome] at h
    exact absurd h (by simp)
  | some m =>
    rw [hsome] at h
    obtain ⟨rfl, rfl⟩ := Prod.mk.inj (Except.ok.inj h)
    rw [hlength m hsome hn]
    rfl

/-- A token in front of the end of an action is read the same without what follows the action. -/
theorem read_of_append (h : read c (cs ++ ds) = .ok (kind, n)) (hcloses : Closes (cs.drop n)) :
    read c cs = .ok (kind, n) := by
  have hlt := hcloses.lt_length
  have hbrace := hcloses.of_drop
  have hrun {p : Char → Bool} (hp : p '}' = false) : run p (cs ++ ds) = run p cs :=
    run_append ((braceless_run hp cs).closes hbrace).lt_length ds
  unfold read at h ⊢
  by_cases hspace : isSpace c
  · rw [if_pos hspace] at h ⊢
    have hclosed : Closes (cs.drop (run isSpace cs)) :=
      (braceless_run (by decide) cs).closes hbrace
    dsimp only at h ⊢
    rw [hrun (by decide), List.drop_append_of_le_length (Nat.le_of_lt hclosed.lt_length),
      hclosed.isPrefixOf_append] at h
    exact h
  rw [if_neg hspace] at h ⊢
  by_cases hword : isWordStart c
  · rw [if_pos hword] at h ⊢
    dsimp only at h ⊢
    have hend := ((braceless_run (p := isWordChar) (by decide) cs).closes hbrace).lt_length
    rw [hrun (by decide), List.take_append_of_le_length (Nat.le_of_lt hend)] at h
    exact h
  rw [if_neg hword] at h ⊢
  by_cases hdigit : c.isDigit || c = '+' || c = '-'
  · rw [if_pos hdigit] at h ⊢
    split at h
    next m hm =>
      obtain ⟨hm', h'⟩ := number_of_append hm h hbrace
      rw [hm']
      exact h'
    next => exact absurd h (by simp)
  rw [if_neg hdigit] at h ⊢
  obtain ⟨d, r, rfl⟩ := List.exists_cons_of_ne_nil hbrace.ne_nil
  split at h
  · exact h
  · exact h
  · exact h
  · exact h
  · exact h
  · exact h
  · rw [hrun (by decide)] at h
    exact h
  · dsimp only [List.cons_append] at h ⊢
    by_cases hfield : isWordStart d
    · have hd : d ≠ '}' := by
        rintro rfl
        exact absurd hfield (by decide)
      rw [Closes, List.count_cons_of_ne hd] at hbrace
      have hend := (braceless_run (p := isWordChar) (by decide) r).closes hbrace
      rw [if_pos hfield] at h ⊢
      rw [run_append hend.lt_length] at h
      exact h
    · rw [if_neg hfield] at h ⊢
      split at h
      next m hm =>
        obtain ⟨hm', h'⟩ := number_of_append hm h hbrace
        rw [hm']
        exact h'
      next hnone =>
        cases hshort : numberLength? ('.' :: d :: r) with
        | none => exact h
        | some m =>
          have hclosed : Closes ('.' :: d :: r) := Nat.le_trans hbrace List.count_le_count_cons
          have hend := ((braceless_numberLength? hshort).closes hclosed).lt_length
          have hlong := numberLength?_append hshort hend ds
          rw [List.cons_append, List.cons_append, hnone] at hlong
          cases hlong
  · exact elim_of_append (fun m hm hle ↦ quotedLength?_of_append (by decide) hm hle) h
      (Nat.le_of_lt hlt)
  · exact elim_of_append (fun m hm hle ↦ rawLength?_of_append hm hle) h (Nat.le_of_lt hlt)
  · exact elim_of_append (fun m hm hle ↦ quotedLength?_of_append (by decide) hm hle) h
      (Nat.le_of_lt hlt)
  · exact absurd h (by simp)

end Read

/-! ### Actions and comments -/

theorem rightDelim?_take {cs : List Char} {n : Nat} (h : rightDelim? cs = some n) :
    rightDelim? (cs.take n) = some n ∧ (cs.take n).length = n := by
  unfold rightDelim? at h
  split at h
  · cases h
    exact ⟨rfl, rfl⟩
  · split at h <;> cases h
    next hspace =>
      refine ⟨?_, rfl⟩
      simp [rightDelim?, hspace]
  · cases h

/-- An action that is scanned to its end is scanned the same if the text ends with it. -/
theorem scanAction_charsOf {depth : Nat} {cs rest : List Char}
    (h : (scanAction depth cs).outcome = .ok rest) :
    scanAction depth (charsOf (scanAction depth cs).lexemes) =
      ⟨(scanAction depth cs).lexemes, .ok []⟩ := by
  fun_induction scanAction depth cs with
  | case2 depth cs n hn hdepth =>
    obtain rfl := Nat.eq_zero_of_not_pos hdepth
    obtain ⟨hdelim, hlength⟩ := rightDelim?_take hn
    have hchars : charsOf [⟨.rightDelim, cs.take n⟩] = cs.take n := List.append_nil _
    rw [hchars, scanAction_of_rightDelim? hdelim, List.take_take, Nat.min_self,
      List.drop_eq_nil_of_le (Nat.le_of_eq hlength)]
  | case7 depth c cs kind n hread chars after hparen depth' hterminator hdelim ih =>
    have hinner := ih h
    generalize hu : charsOf (scanAction depth' after).lexemes = u at hinner
    have hafter : u ++ rest = after := by
      have hchars := charsOf_scanAction depth' after
      rw [show (scanAction depth' after).outcome = .ok rest from h] at hchars
      rw [← hu]
      exact hchars
    have hcloses : Closes u := closes_of_scanAction depth' (congrArg Result.outcome hinner)
    have hcs : (cs.take n ++ u) ++ rest = cs := by
      rw [List.append_assoc, hafter, List.take_append_drop]
    have hn : (cs.take n).length = n := by
      have hlong : Closes (cs.drop n) := closes_of_scanAction depth' h
      exact List.length_take_of_le (Nat.le_of_lt hlong.lt_length)
    have hdrop : (cs.take n ++ u).drop n = u := List.drop_left' hn
    have htake : (cs.take n ++ u).take n = cs.take n := List.take_left' hn
    have hread' : read c (cs.take n ++ u) = .ok (kind, n) :=
      read_of_append (hcs.symm ▸ hread) (hdrop.symm ▸ hcloses)
    have hdelim' : rightDelim? (c :: (cs.take n ++ u)) = none := by
      cases hsome : rightDelim? (c :: (cs.take n ++ u)) with
      | none => rfl
      | some m =>
        have hlong := (rightDelim?_append hsome rest).1
        rw [List.cons_append, hcs, hdelim] at hlong
        cases hlong
    have hends : missingTerminator? kind ((cs.take n ++ u).drop n) = none := by
      obtain ⟨x, y, zs, rfl⟩ := hcloses.exists_eq
      have hlong := Option.eq_none_iff_forall_ne_some.mpr hterminator
      rw [← hafter] at hlong
      rw [hdrop]
      exact hlong
    have hchars : charsOf (Result.cons kind chars (scanAction depth' after)).lexemes =
        c :: (cs.take n ++ u) := by
      rw [charsOf_result_cons, hu]
      rfl
    rw [hchars, scanAction_of_read hdelim' hread' hparen hends, hdrop, htake]
    exact congrArg (Result.cons kind chars) hinner
  | _ => cases h

/-- A mark that is in a text is found. -/
theorem splitBefore_snd_ne_nil {mark cs : List Char} (hmark : mark ≠ []) (h : mark <:+: cs) :
    (splitBefore mark cs).2 ≠ [] := by
  intro hnil
  have hsplit := splitBefore_append mark cs
  rw [hnil, List.append_nil] at hsplit
  exact not_infix_splitBefore hmark cs (hsplit.symm ▸ h)

/-- A comment ends with its mark and with what closes an action. -/
theorem afterComment_eq_ok_iff {cs rest : List Char} : afterComment cs = .ok rest ↔
    ∃ close n, (splitBefore ['*', '/'] cs).2 = '*' :: '/' :: close ∧
      rightDelim? close = some n ∧ close.drop n = rest := by
  constructor
  · intro h
    have hne : (splitBefore ['*', '/'] cs).2 ≠ [] := by
      intro hnil
      rw [afterComment, hnil] at h
      cases h
    obtain ⟨⟨close, hclose⟩, -⟩ := splitBefore_append_of_ne_nil hne []
    have hclose : (splitBefore ['*', '/'] cs).2 = '*' :: '/' :: close := hclose.symm
    rw [afterComment, hclose] at h
    dsimp only at h
    split at h
    next => cases h
    next n hn =>
      cases h
      refine ⟨close, n, hclose, hn, ?_⟩
      rw [Nat.add_comm]
      rfl
  · rintro ⟨close, n, hclose, hn, rfl⟩
    have hdelim : rightDelim? (('*' :: '/' :: close).drop 2) = some n := hn
    rw [afterComment, hclose]
    dsimp only
    rw [hdelim]
    change Except.ok (('*' :: '/' :: close).drop (2 + n)) = _
    rw [Nat.add_comm]
    rfl

/-- Where a mark is found does not depend on what follows the mark. -/
theorem splitBefore_replace {mark before rest : List Char} (hmark : mark ≠ [])
    (h : splitBefore mark (before ++ (mark ++ rest)) = (before, mark ++ rest)) (ds : List Char) :
    splitBefore mark (before ++ (mark ++ ds)) = (before, mark ++ ds) := by
  have hne : (splitBefore mark (before ++ mark)).2 ≠ [] :=
    splitBefore_snd_ne_nil hmark (List.suffix_append before mark).isInfix
  have hlong (es : List Char) := (splitBefore_append_of_ne_nil hne es).2
  rw [← List.append_assoc, hlong] at h
  have hfront : (splitBefore mark (before ++ mark)).1 = before := congrArg Prod.fst h
  have hmarked : (splitBefore mark (before ++ mark)).2 = mark :=
    (List.append_left_inj rest).mp (congrArg Prod.snd h)
  rw [← List.append_assoc, hlong, hfront, hmarked]

/-- A comment is read the same if the text ends with it. -/
theorem afterComment_of_append {cs rest : List Char} (h : afterComment (cs ++ rest) = .ok rest) :
    afterComment cs = .ok [] := by
  obtain ⟨close, n, hclose, hn, hrest⟩ := afterComment_eq_ok_iff.mp h
  obtain ⟨hdelim, hlength⟩ := rightDelim?_take hn
  have hsplit := splitBefore_append ['*', '/'] (cs ++ rest)
  generalize hbefore : (splitBefore ['*', '/'] (cs ++ rest)).1 = before at hsplit
  rw [hclose] at hsplit
  have hwhole : splitBefore ['*', '/'] (before ++ (['*', '/'] ++ close)) =
      (before, ['*', '/'] ++ close) := by
    have heq : before ++ (['*', '/'] ++ close) = cs ++ rest := hsplit
    rw [heq]
    exact Prod.ext hbefore hclose
  have hcs : cs = before ++ (['*', '/'] ++ close.take n) := by
    refine (List.append_left_inj rest).mp ?_
    rw [← hsplit, ← hrest, List.append_assoc, List.append_assoc, List.take_append_drop]
    rfl
  refine afterComment_eq_ok_iff.mpr ⟨close.take n, n, ?_, hdelim,
    List.drop_eq_nil_of_le (Nat.le_of_eq hlength)⟩
  rw [hcs, splitBefore_replace (List.cons_ne_nil _ _) hwhole]
  rfl

end AlertAudit.Template.Scan
