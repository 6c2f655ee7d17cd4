import AlertAudit.Template.Scan

/-!
Actions with more text behind them. A token inside of an action ends before the delimiter that
closes the action, and what is looked at behind the token is still in front of the end of that
delimiter: two closing braces are to come (`Closes`). So neither a token (`read_append`) nor the
whole action (`scanAction_append`) depends on what follows the action.
-/

set_option autoImplicit false

namespace AlertAudit.Template.Scan

/-! ### Lengths

A length that leaves something over is the same if more text follows. -/

theorem run_append {p : Char → Bool} {cs : List Char} (h : run p cs < cs.length) (ds : List Char) :
    run p (cs ++ ds) = run p cs := by
  rw [run] at h ⊢
  rw [List.takeWhile_append, if_neg (Nat.ne_of_lt h), run]

theorem exponentLength_append {cs : List Char} (h : exponentLength cs < cs.length)
    (ds : List Char) : exponentLength (cs ++ ds) = exponentLength cs := by
  cases cs with
  | nil => exact absurd h (Nat.not_lt_zero _)
  | cons c cs =>
    rw [List.cons_append]
    by_cases hmark : c = 'e' ∨ c = 'E'
    · cases cs with
      | nil => simp [exponentLength, hmark] at h
      | cons s r =>
        by_cases hsign : s = '+' ∨ s = '-'
        · simp only [exponentLength, Bool.or_eq_true, decide_eq_true_eq, hmark, hsign, if_true,
            List.length_cons, List.cons_append] at h ⊢
          rw [run_append (by omega)]
        · simp only [exponentLength, Bool.or_eq_true, decide_eq_true_eq, hmark, hsign, if_true,
            if_false, List.length_cons, List.cons_append] at h ⊢
          rw [← List.cons_append, run_append (by rw [List.length_cons]; omega)]
    · simp [exponentLength, hmark]

theorem mantissaLength_append {cs : List Char} (h : mantissaLength cs < cs.length)
    (ds : List Char) : mantissaLength (cs ++ ds) = mantissaLength cs := by
  simp only [mantissaLength] at h ⊢
  generalize hn : run (fun d ↦ d.isDigit || d = '_') cs = n at h
  have hrun : run (fun d ↦ d.isDigit || d = '_') cs < cs.length := by omega
  rw [run_append hrun, hn, List.drop_append_of_le_length (by omega),
    exponentLength_append (by rw [List.length_drop]; omega)]

/-- Behind digits comes a decimal point, or an exponent that may be empty. -/
theorem decimalLength_cases (cs : List Char) {n : Nat}
    (hn : run (fun d ↦ d.isDigit || d = '_') cs = n) :
    (∃ r, cs.drop n = '.' :: r ∧ decimalLength cs = n + 1 + mantissaLength r) ∨
      (cs.drop n).head? ≠ some '.' ∧ decimalLength cs = n + exponentLength (cs.drop n) := by
  subst hn
  unfold decimalLength
  dsimp only
  split
  next r hdrop => exact .inl ⟨r, hdrop, rfl⟩
  next hpoint =>
    refine .inr ⟨fun hhead ↦ ?_, rfl⟩
    obtain ⟨r, hr⟩ := List.head?_eq_some_iff.mp hhead
    exact hpoint r hr

theorem decimalLength_append {cs : List Char} (h : decimalLength cs < cs.length)
    (ds : List Char) : decimalLength (cs ++ ds) = decimalLength cs := by
  generalize hn : run (fun d ↦ d.isDigit || d = '_') cs = n
  have hlength := List.length_drop (l := cs) (i := n)
  have hlt : n < cs.length := by
    rcases decimalLength_cases cs hn with ⟨r, -, heq⟩ | ⟨-, heq⟩ <;> omega
  have hrun := run_append (hn ▸ hlt) ds
  have hdrop : (cs ++ ds).drop n = cs.drop n ++ ds :=
    List.drop_append_of_le_length (Nat.le_of_lt hlt)
  obtain ⟨c, r, hrest⟩ : ∃ c r, cs.drop n = c :: r := List.exists_cons_of_length_pos (by omega)
  have happend := decimalLength_cases (cs ++ ds) (hrun.trans hn)
  rw [hdrop, hrest] at happend
  rw [hrest, List.length_cons] at hlength
  rcases decimalLength_cases cs hn with ⟨r', hr', heq⟩ | ⟨hhead, heq⟩
  · obtain ⟨rfl, rfl⟩ := List.cons.inj (hrest.symm.trans hr')
    rcases happend with ⟨r'', hr'', heq'⟩ | ⟨hhead, -⟩
    · have htail : r ++ ds = r'' := (List.cons.inj hr'').2
      rw [← htail, mantissaLength_append (by omega)] at heq'
      rw [heq, heq']
    · exact absurd rfl hhead
  · rw [hrest] at hhead heq
    rcases happend with ⟨r'', hr'', -⟩ | ⟨-, heq'⟩
    · exact absurd (congrArg some (List.cons.inj hr'').1) hhead
    · rw [exponentLength_append (by rw [List.length_cons]; omega)] at heq'
      rw [heq, heq']

theorem magnitudeLength?_append {cs : List Char} {n : Nat} (h : magnitudeLength? cs = some n)
    (hn : n < cs.length) (ds : List Char) : magnitudeLength? (cs ++ ds) = some n := by
  unfold magnitudeLength? at h
  split at h
  next c cs =>
    simp only [List.cons_append, magnitudeLength?]
    simp only [List.length_cons] at hn
    split at h
    next hbase =>
      obtain rfl := Option.some.inj h
      rw [if_pos hbase, run_append (by omega)]
    next hbase =>
      rw [if_neg hbase]
      split at h
      next hbase =>
        obtain rfl := Option.some.inj h
        rw [if_pos hbase, run_append (by omega)]
      next hbase =>
        rw [if_neg hbase]
        split at h
        next hbase =>
          obtain rfl := Option.some.inj h
          rw [if_pos hbase, run_append (by omega)]
        next hbase =>
          obtain rfl := Option.some.inj h
          rw [if_neg hbase, ← List.cons_append,
            decimalLength_append (by rw [List.length_cons]; omega)]
  next d cs =>
    simp only [List.cons_append, magnitudeLength?]
    simp only [List.length_cons] at hn
    split at h
    next hdigit =>
      obtain rfl := Option.some.inj h
      rw [if_pos hdigit, mantissaLength_append (by omega)]
    next => exact absurd h (by simp)
  next c cs hzero hpoint =>
    split at h
    next hdigit =>
      obtain rfl := Option.some.inj h
      rw [List.length_cons] at hn
      obtain ⟨d, r, rfl⟩ : ∃ d r, cs = d :: r := List.exists_cons_of_length_pos (by omega)
      rw [List.cons_append, magnitudeLength?, if_pos hdigit, decimalLength_append (by omega)]
      · exact fun _ _ hc _ ↦ hzero d r hc rfl
      · exact fun _ _ hc _ ↦ hpoint d r hc rfl
    next => exact absurd h (by simp)
  next => exact absurd h (by simp)

theorem unsignedLength?_append {cs : List Char} {n : Nat} (h : unsignedLength? cs = some n)
    (hn : n < cs.length) (ds : List Char) : unsignedLength? (cs ++ ds) = some n := by
  obtain ⟨m, hm, hmark⟩ := Option.map_eq_some_iff.mp h
  have hlt : m < cs.length := by
    split at hmark <;> omega
  obtain ⟨c, r, hdrop⟩ : ∃ c r, cs.drop m = c :: r :=
    List.exists_cons_of_length_pos (by rw [List.length_drop]; omega)
  rw [unsignedLength?, magnitudeLength?_append hm hlt, Option.map_some,
    List.drop_append_of_le_length (Nat.le_of_lt hlt), hdrop, List.cons_append, List.head?_cons]
  rw [hdrop, List.head?_cons] at hmark
  exact congrArg some hmark

theorem numberLength?_append {cs : List Char} {n : Nat} (h : numberLength? cs = some n)
    (hn : n < cs.length) (ds : List Char) : numberLength? (cs ++ ds) = some n := by
  cases cs with
  | nil => cases h
  | cons c cs =>
    rw [numberLength?] at h
    rw [List.cons_append, numberLength?]
    split at h
    next hsign =>
      obtain ⟨m, hm, rfl⟩ := Option.map_eq_some_iff.mp h
      rw [List.length_cons] at hn
      rw [if_pos hsign, unsignedLength?_append hm (by omega), Option.map_some]
    next hsign =>
      rw [if_neg hsign]
      exact unsignedLength?_append h hn ds

/-- A literal between quotes ends at the first quote that closes it. -/
theorem quotedLength?_append {quote : Char} (hbackslash : quote ≠ '\\') {cs : List Char} {n : Nat}
    (h : quotedLength? quote cs = some n) (ds : List Char) :
    quotedLength? quote (cs ++ ds) = some n ∧ n ≤ cs.length := by
  fun_induction quotedLength? quote cs generalizing n with
  | case1 => exact absurd h (by simp)
  | case2 => exact absurd h (by simp)
  | case3 c cs hc ih =>
    obtain ⟨m, hm, rfl⟩ := Option.map_eq_some_iff.mp h
    obtain ⟨hlength, hle⟩ := ih hm
    refine ⟨?_, by simp only [List.length_cons]; omega⟩
    simp only [List.cons_append, quotedLength?, hc, if_false, hlength, Option.map_some]
  | case4 cs =>
    obtain rfl := Option.some.inj h
    refine ⟨?_, Nat.le_add_left 1 _⟩
    rw [List.cons_append, quotedLength?, if_pos rfl]
    exact fun _ _ hquote _ ↦ hbackslash hquote
  | case5 => exact absurd h (by simp)
  | case6 c cs _ hquote hstop ih =>
    obtain ⟨m, hm, rfl⟩ := Option.map_eq_some_iff.mp h
    obtain ⟨hlength, hle⟩ := ih hm
    refine ⟨?_, by simp only [List.length_cons]; omega⟩
    rw [List.cons_append, quotedLength?, if_neg hquote, if_neg hstop, hlength, Option.map_some]
    rintro _ _ rfl
    exact absurd rfl hstop

/-- A raw literal ends with its own quote. -/
theorem rawLength?_append {cs : List Char} {n : Nat} (h : rawLength? cs = some n)
    (ds : List Char) : rawLength? (cs ++ ds) = some n ∧ n ≤ cs.length := by
  induction cs generalizing n with
  | nil => cases h
  | cons c cs ih =>
    rw [rawLength?] at h
    rw [List.cons_append, rawLength?, List.length_cons]
    split at h
    next hquote =>
      obtain rfl := Option.some.inj h
      rw [if_pos hquote]
      exact ⟨rfl, by omega⟩
    next hquote =>
      obtain ⟨m, hm, rfl⟩ := Option.map_eq_some_iff.mp h
      obtain ⟨hlength, hle⟩ := ih hm
      rw [if_neg hquote, hlength]
      exact ⟨rfl, by omega⟩

/-! ### Actions -/

/-- Two closing braces are still to come, as everywhere in an action that is closed. -/
def Closes (cs : List Char) : Prop := 2 ≤ cs.count '}'

/-- A closed action has two more characters. -/
theorem Closes.two_le_length {cs : List Char} (h : Closes cs) : 2 ≤ cs.length :=
  Nat.le_trans h List.count_le_length

theorem Closes.exists_eq {cs : List Char} (h : Closes cs) : ∃ x y zs, cs = x :: y :: zs := by
  have hlength := h.two_le_length
  rcases cs with _ | ⟨x, _ | ⟨y, zs⟩⟩
  · exact absurd hlength (by simp)
  · exact absurd hlength (by simp)
  · exact ⟨x, y, zs, rfl⟩

theorem Closes.ne_nil {cs : List Char} (h : Closes cs) : cs ≠ [] :=
  List.ne_nil_of_length_pos (Nat.lt_of_lt_of_le Nat.zero_lt_two h.two_le_length)

/-- What is closed behind some characters is closed in front of them. -/
theorem Closes.of_drop {cs : List Char} {n : Nat} (h : Closes (cs.drop n)) : Closes cs :=
  Nat.le_trans h ((List.drop_sublist n cs).count_le '}')

/-- What is closed goes on behind the token that is read from it. -/
theorem Closes.lt_length {cs : List Char} {n : Nat} (h : Closes (cs.drop n)) : n < cs.length := by
  have hlength := h.two_le_length
  rw [List.length_drop] at hlength
  omega

/-- A right delimiter has both braces. -/
theorem closes_of_rightDelim? {cs : List Char} {n : Nat} (h : rightDelim? cs = some n) :
    Closes cs := by
  unfold rightDelim? at h
  split at h
  · simp [Closes]
  · simp only [Closes, List.count_cons]
    simp
    omega
  · exact absurd h (by simp)

/-- A right delimiter is found whatever follows it. -/
theorem rightDelim?_append {cs : List Char} {n : Nat} (h : rightDelim? cs = some n)
    (ds : List Char) : rightDelim? (cs ++ ds) = some n ∧ n ≤ cs.length := by
  unfold rightDelim? at h
  split at h
  · obtain rfl := Option.some.inj h
    exact ⟨rfl, Nat.le_add_left 2 _⟩
  · split at h
    next hspace =>
      obtain rfl := Option.some.inj h
      refine ⟨?_, Nat.le_add_left 4 _⟩
      simp [rightDelim?, hspace]
    next => exact absurd h (by simp)
  · exact absurd h (by simp)

/-- Text behind the end of an action does not make a delimiter in front of it. -/
theorem Closes.rightDelim?_append {cs : List Char} (hcloses : Closes cs)
    (h : rightDelim? cs = none) (ds : List Char) : rightDelim? (cs ++ ds) = none := by
  cases hsome : rightDelim? (cs ++ ds) with
  | none => rfl
  | some n =>
    unfold rightDelim? at hsome
    split at hsome
    next r heq =>
      obtain ⟨x, y, zs, rfl⟩ := hcloses.exists_eq
      obtain ⟨rfl, rfl, -⟩ : x = '}' ∧ y = '}' ∧ zs ++ ds = r := by simpa using heq
      cases h
    next c r heq =>
      -- what is closed is longer than a part of this delimiter
      have hspace : isSpace c := by
        split at hsome
        next hspace => exact hspace
        next => exact absurd hsome (by simp)
      have hc : (c == '}') = false := by
        rw [beq_eq_false_iff_ne]
        rintro rfl
        exact absurd hspace (by decide)
      obtain ⟨x, y, zs, rfl⟩ := hcloses.exists_eq
      rcases zs with _ | ⟨z, _ | ⟨w, rest⟩⟩
      · obtain ⟨rfl, rfl, -⟩ : x = c ∧ y = '-' ∧ ds = '}' :: '}' :: r := by simpa using heq
        simp [Closes, List.count_cons, hc] at hcloses
      · obtain ⟨rfl, rfl, rfl, -⟩ : x = c ∧ y = '-' ∧ z = '}' ∧ ds = '}' :: r := by
          simpa using heq
        simp [Closes, List.count_cons, hc] at hcloses
      · obtain ⟨rfl, rfl, rfl, rfl, -⟩ :
            x = c ∧ y = '-' ∧ z = '}' ∧ w = '}' ∧ rest ++ ds = r := by simpa using heq
        simp [rightDelim?, hspace] at h
    next => exact absurd hsome (by simp)

/-- What ends a token ends it whatever follows. -/
theorem atTerminator_append {cs : List Char} (h : atTerminator cs) (hne : cs ≠ [])
    (ds : List Char) : atTerminator (cs ++ ds) := by
  cases cs with
  | nil => exact absurd rfl hne
  | cons c cs =>
    cases cs with
    | nil =>
      simp only [atTerminator, List.head?_nil, List.cons_append] at h ⊢
      simp_all
    | cons d cs => exact h

/-- No end of a token is missed if more text follows. -/
theorem missingTerminator?_append {kind : TokenKind} {cs : List Char}
    (h : missingTerminator? kind cs = none) (hne : cs ≠ []) (ds : List Char) :
    missingTerminator? kind (cs ++ ds) = none := by
  obtain ⟨c, cs, rfl⟩ := List.exists_cons_of_ne_nil hne
  unfold missingTerminator? at h ⊢
  split at h
  · exact absurd h (by simp)
  next hends =>
    refine if_neg fun hruns ↦ hends ?_
    rw [Bool.and_eq_true, Bool.not_eq_true'] at hruns ⊢
    refine ⟨hruns.1, ?_⟩
    cases hat : atTerminator (c :: cs) with
    | false => rfl
    | true =>
      exact absurd (atTerminator_append hat hne ds) (by rw [hruns.2]; exact Bool.false_ne_true)

/-- The trim marker in front of a right delimiter. -/
theorem Closes.isPrefixOf_append {cs : List Char} (hcloses : Closes cs) (ds : List Char) :
    (['-', '}', '}'] : List Char).isPrefixOf (cs ++ ds) =
      (['-', '}', '}'] : List Char).isPrefixOf cs := by
  obtain ⟨x, y, zs, rfl⟩ := hcloses.exists_eq
  rcases zs with _ | ⟨z, rest⟩
  · by_cases hx : x = '}'
    · subst hx
      rfl
    · rw [Closes, List.count_cons_of_ne hx] at hcloses
      exact absurd (Nat.le_trans hcloses List.count_le_length) (by simp)
  · rfl

section Read

variable {c : Char} {cs : List Char} {kind : TokenKind} {n : Nat}

/-- A number in front of the end of an action is read the same whatever follows the action. -/
theorem number_append {m : Nat} (hm : numberLength? (c :: cs) = some m)
    (h : read.number c cs m = .ok (kind, n)) (hcloses : Closes (cs.drop n)) (ds : List Char) :
    numberLength? (c :: (cs ++ ds)) = some m ∧ read.number c (cs ++ ds) m = .ok (kind, n) := by
  have hn : n = m - 1 := by
    unfold read.number at h
    split at h
    · split at h
      · exact absurd h (by simp)
      · exact (Prod.mk.inj (Except.ok.inj h)).2.symm
    · exact (Prod.mk.inj (Except.ok.inj h)).2.symm
  subst hn
  have hlt := hcloses.lt_length
  obtain ⟨d, r, hdrop⟩ := List.exists_cons_of_ne_nil hcloses.ne_nil
  refine ⟨numberLength?_append hm (by rw [List.length_cons]; omega) ds, ?_⟩
  unfold read.number at h ⊢
  rw [hdrop, List.head?_cons] at h
  rw [List.drop_append_of_le_length (Nat.le_of_lt hlt), hdrop, List.cons_append, List.head?_cons]
  dsimp only at h ⊢
  split at h
  next => exact absurd h (by simp)
  next hends =>
    rw [if_neg hends]
    exact h

/-- What is found in a text and in a longer one stands for the same token. -/
theorem elim_append {length? : List Char → Option Nat} {literal : TokenKind} {e : ScanError}
    {ds : List Char} (hlength : ∀ m, length? cs = some m → length? (cs ++ ds) = some m)
    (h : ((length? cs).map (literal, ·)).elim (.error e) .ok = Except.ok (kind, n)) :
    ((length? (cs ++ ds)).map (literal, ·)).elim (.error e) .ok = Except.ok (kind, n) := by
  cases hsome : length? cs with
  | none =>
    rw [hsome] at h
    exact absurd h (by simp)
  | some m =>
    rw [hsome] at h
    rw [hlength m hsome]
    exact h

/-- A token in front of the end of an action is read the same whatever follows the action. -/
theorem read_append (h : read c cs = .ok (kind, n)) (hcloses : Closes (cs.drop n))
    (ds : List Char) : read c (cs ++ ds) = .ok (kind, n) := by
  have hlt := hcloses.lt_length
  unfold read at h ⊢
  by_cases hspace : isSpace c
  · rw [if_pos hspace] at h ⊢
    dsimp only at h ⊢
    have hrun : Closes (cs.drop (run isSpace cs)) := by
      obtain ⟨-, hn⟩ := Prod.mk.inj (Except.ok.inj h)
      split at hn
      next hmarker =>
        obtain ⟨r, hr⟩ := List.isPrefixOf_iff_prefix.mp hmarker
        rw [← hr]
        simp [Closes]
      next =>
        rw [hn]
        exact hcloses
    rw [run_append hrun.lt_length, List.drop_append_of_le_length (Nat.le_of_lt hrun.lt_length),
      hrun.isPrefixOf_append]
    exact h
  rw [if_neg hspace] at h ⊢
  by_cases hword : isWordStart c
  · rw [if_pos hword] at h ⊢
    obtain ⟨rfl, rfl⟩ := Prod.mk.inj (Except.ok.inj h)
    dsimp only
    rw [run_append hlt, List.take_append_of_le_length (Nat.le_of_lt hlt)]
  rw [if_neg hword] at h ⊢
  by_cases hdigit : c.isDigit || c = '+' || c = '-'
  · rw [if_pos hdigit] at h ⊢
    split at h
    next m hm =>
      obtain ⟨hm', h'⟩ := number_append hm h hcloses ds
      rw [hm']
      exact h'
    next => exact absurd h (by simp)
  rw [if_neg hdigit] at h ⊢
  obtain ⟨d, r, rfl⟩ := List.exists_cons_of_ne_nil hcloses.of_drop.ne_nil
  split at h
  · exact h
  · exact h
  · exact h
  · exact h
  · exact h
  · exact h
  · obtain ⟨rfl, rfl⟩ := Prod.mk.inj (Except.ok.inj h)
    rw [run_append hlt]
  · dsimp only [List.cons_append] at h ⊢
    by_cases hfield : isWordStart d
    · rw [if_pos hfield] at h ⊢
      obtain ⟨rfl, rfl⟩ := Prod.mk.inj (Except.ok.inj h)
      rw [List.length_cons] at hlt
      rw [run_append (by omega)]
    · rw [if_neg hfield] at h ⊢
      split at h
      next m hm =>
        obtain ⟨hm', h'⟩ := number_append hm h hcloses ds
        rw [List.cons_append] at hm'
        rw [hm']
        exact h'
      next hnone =>
        have hnone' : numberLength? ('.' :: d :: (r ++ ds)) = none := by
          by_cases hd : d.isDigit
          · simp [numberLength?, unsignedLength?, magnitudeLength?, hd] at hnone
          · simp [numberLength?, unsignedLength?, magnitudeLength?, hd]
        rw [hnone']
        exact h
  · exact elim_append (fun m hm ↦ (quotedLength?_append (by decide) hm ds).1) h
  · exact elim_append (fun m hm ↦ (rawLength?_append hm ds).1) h
  · exact elim_append (fun m hm ↦ (quotedLength?_append (by decide) hm ds).1) h
  · exact absurd h (by simp)

end Read

/-- An action that is scanned to its end is closed. -/
theorem closes_of_scanAction (depth : Nat) {cs rest : List Char}
    (h : (scanAction depth cs).outcome = .ok rest) : Closes cs := by
  fun_induction scanAction depth cs with
  | case2 depth cs n hn => exact closes_of_rightDelim? hn
  | case7 depth c cs kind n _ _ after _ _ _ _ ih =>
    have hafter : Closes (cs.drop n) := ih h
    exact Nat.le_trans hafter.of_drop List.count_le_count_cons
  | _ => cases h

/-- A right delimiter ends an action in which no parenthesis is open. -/
theorem scanAction_of_rightDelim? {cs : List Char} {n : Nat} (h : rightDelim? cs = some n) :
    scanAction 0 cs = ⟨[⟨.rightDelim, cs.take n⟩], .ok (cs.drop n)⟩ := by
  rw [scanAction.eq_def, h]
  rfl

/-- The number of open parentheses behind a token. -/
def depthBehind (depth : Nat) : TokenKind → Nat
  | .parenOpen => depth + 1
  | .parenClose => depth - 1
  | _ => depth

/-- An action goes on behind a token that is read from it. -/
theorem scanAction_of_read {depth : Nat} {c : Char} {cs : List Char} {kind : TokenKind} {n : Nat}
    (hdelim : rightDelim? (c :: cs) = none) (hread : read c cs = .ok (kind, n))
    (hparen : ¬(kind = .parenClose && depth = 0))
    (hterminator : missingTerminator? kind (cs.drop n) = none) :
    scanAction depth (c :: cs) =
      .cons kind (c :: cs.take n) (scanAction (depthBehind depth kind) (cs.drop n)) := by
  rw [scanAction.eq_def, hdelim]
  dsimp only
  rw [hread]
  dsimp only
  rw [if_neg hparen, hterminator]
  rfl

/-- An action is scanned the same whatever follows it. -/
theorem scanAction_append {depth : Nat} {cs rest : List Char}
    (h : (scanAction depth cs).outcome = .ok rest) (ds : List Char) :
    scanAction depth (cs ++ ds) = ⟨(scanAction depth cs).lexemes, .ok (rest ++ ds)⟩ := by
  fun_induction scanAction depth cs with
  | case2 depth cs n hn hdepth =>
    obtain rfl := Except.ok.inj h
    obtain rfl := Nat.eq_zero_of_not_pos hdepth
    obtain ⟨hn', hle⟩ := rightDelim?_append hn ds
    rw [scanAction_of_rightDelim? hn', List.take_append_of_le_length hle,
      List.drop_append_of_le_length hle]
  | case7 depth c cs kind n hread chars after hparen depth' hterminator hdelim ih =>
    have hafter : Closes (cs.drop n) := closes_of_scanAction depth' h
    have hle := Nat.le_of_lt hafter.lt_length
    have hdrop : (cs ++ ds).drop n = cs.drop n ++ ds := List.drop_append_of_le_length hle
    have hdelim' : rightDelim? (c :: (cs ++ ds)) = none :=
      Closes.rightDelim?_append (Nat.le_trans hafter.of_drop List.count_le_count_cons) hdelim ds
    have hends : missingTerminator? kind ((cs ++ ds).drop n) = none := by
      rw [hdrop]
      exact missingTerminator?_append (Option.eq_none_iff_forall_ne_some.mpr hterminator)
        hafter.ne_nil ds
    have hbehind : scanAction (depthBehind depth kind) (cs.drop n ++ ds) =
      ⟨(scanAction depth' after).lexemes, .ok (rest ++ ds)⟩ := ih h
    rw [List.cons_append, scanAction_of_read hdelim' (read_append hread hafter ds) hparen hends,
      hdrop, hbehind, List.take_append_of_le_length hle]
    rfl
  | _ => cases h

end AlertAudit.Template.Scan
