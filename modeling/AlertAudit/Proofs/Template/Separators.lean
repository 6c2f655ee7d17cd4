import AlertAudit.Proofs.Template.Cuts

/-!
Tokens in front of a separator. White space and closing braces are in no word and in no number, so a
token that ends in front of one of them is read the same in front of another (`read_separated`).
White space itself goes up to what is none (`read_spaces`), but for a space that belongs to a right
delimiter (`spaces_of_read`).
-/

set_option autoImplicit false

namespace AlertAudit.Template.Scan

/-! ### Lengths -/

/-- Characters that are neither in a word nor in a number. -/
def separators : List Char := [' ', '\t', '\r', '\n', '}']

theorem forall_mem_separators {P : Char → Prop} :
    (∀ c ∈ separators, P c) ↔ P ' ' ∧ P '\t' ∧ P '\r' ∧ P '\n' ∧ P '}' := by
  simp [separators]

def Separated (cs : List Char) : Prop := ∀ c ∈ cs.head?, c ∈ separators

theorem separated_cons {c : Char} {cs : List Char} : Separated (c :: cs) ↔ c ∈ separators :=
  ⟨fun h ↦ h c rfl, fun h _ hd ↦ Option.some.inj hd ▸ h⟩

theorem mem_separators_of_isSpace {c : Char} (h : isSpace c) : c ∈ separators := by
  simp only [isSpace, Bool.or_eq_true, decide_eq_true_eq] at h
  rcases h with ((rfl | rfl) | rfl) | rfl <;> decide

theorem separated_of_rightDelim? {cs : List Char} {n : Nat} (h : rightDelim? cs = some n) :
    Separated cs := by
  unfold rightDelim? at h
  split at h
  · exact separated_cons.mpr (by decide)
  · split at h
    next hspace => exact separated_cons.mpr (mem_separators_of_isSpace hspace)
    next => cases h
  · cases h

theorem run_le_length (p : Char → Bool) (cs : List Char) : run p cs ≤ cs.length :=
  (List.takeWhile_prefix p).length_le

section Lengths

variable {cs ds : List Char} (hds : Separated ds)
include hds

theorem run_separated {p : Char → Bool} (hp : ∀ d ∈ separators, p d = false) :
    run p (cs ++ ds) = run p cs := by
  have hnone : ds.takeWhile p = [] := by
    cases ds with
    | nil => rfl
    | cons d ds => exact List.takeWhile_cons_of_neg (by simp [hp d (separated_cons.mp hds)])
  rw [run, run, List.takeWhile_append]
  split
  next hall =>
    rw [hnone, List.append_nil, hall]
  next => rfl

theorem digits_separated : run (fun d ↦ d.isDigit || d = '_') (cs ++ ds) =
    run (fun d ↦ d.isDigit || d = '_') cs :=
  run_separated hds (forall_mem_separators.mpr (by decide))

theorem exponentLength_separated : exponentLength (cs ++ ds) = exponentLength cs := by
  have hnotMark : ∀ d ∈ separators, ¬(d = 'e' ∨ d = 'E') :=
    forall_mem_separators.mpr (by decide)
  have hnotSign : ∀ d ∈ separators, ¬(d = '+' ∨ d = '-') := forall_mem_separators.mpr (by decide)
  have hdigits (cs : List Char) : run (fun d ↦ d.isDigit || d = '_') (cs ++ ds) =
      run (fun d ↦ d.isDigit || d = '_') cs := digits_separated hds
  cases cs with
  | nil =>
    cases ds with
    | nil => rfl
    | cons d ds => simp [exponentLength, hnotMark d (separated_cons.mp hds)]
  | cons c cs =>
    rw [List.cons_append]
    by_cases hmark : c = 'e' ∨ c = 'E'
    · cases cs with
      | nil =>
        have hnone := hdigits []
        cases ds with
        | nil => rfl
        | cons d ds =>
          simp only [List.nil_append, exponentLength, Bool.or_eq_true, decide_eq_true_eq, hmark,
            hnotSign d (separated_cons.mp hds), if_true, if_false] at hnone ⊢
          rw [hnone]
          rfl
      | cons s r =>
        have hrest := hdigits (s :: r)
        simp only [List.cons_append] at hrest
        simp only [exponentLength, List.cons_append, hdigits, hrest]
    · simp [exponentLength, hmark]

theorem mantissaLength_separated : mantissaLength (cs ++ ds) = mantissaLength cs := by
  have hle : run (fun d ↦ d.isDigit || d = '_') cs ≤ cs.length := run_le_length _ cs
  simp only [mantissaLength]
  rw [digits_separated hds, List.drop_append_of_le_length hle,
    exponentLength_separated hds]

theorem decimalLength_separated : decimalLength (cs ++ ds) = decimalLength cs := by
  generalize hn : run (fun d ↦ d.isDigit || d = '_') cs = n
  have hle : n ≤ cs.length := hn ▸ run_le_length _ cs
  have hrun : run (fun d ↦ d.isDigit || d = '_') (cs ++ ds) = n :=
    (digits_separated hds).trans hn
  have happend := decimalLength_cases (cs ++ ds) hrun
  rw [List.drop_append_of_le_length hle] at happend
  rcases decimalLength_cases cs hn with ⟨r, hr, heq⟩ | ⟨hhead, heq⟩
  · rw [hr] at happend
    rcases happend with ⟨r', hr', heq'⟩ | ⟨hhead, -⟩
    · obtain rfl : r ++ ds = r' := (List.cons.inj hr').2
      rw [heq, heq']
      exact congrArg (n + 1 + ·) (mantissaLength_separated hds)
    · exact absurd rfl hhead
  · rcases happend with ⟨r', hr', -⟩ | ⟨-, heq'⟩
    · -- the decimal point is not what follows the number
      rcases List.append_eq_cons_iff.mp hr' with ⟨-, rfl⟩ | ⟨_, hdrop, -⟩
      · exact absurd (separated_cons.mp hds) (by decide)
      · rw [hdrop] at hhead
        exact absurd rfl hhead
    · rw [heq, heq', exponentLength_separated hds]

theorem magnitudeLength?_separated : magnitudeLength? (cs ++ ds) = magnitudeLength? cs := by
  have hnotDigit : ∀ d ∈ separators, d.isDigit = false := forall_mem_separators.mpr (by decide)
  cases cs with
  | nil =>
    cases ds with
    | nil => rfl
    | cons d ds =>
      have hd := separated_cons.mp hds
      have hzero : d ≠ '0' := by
        rintro rfl
        exact absurd hd (by decide)
      have hpoint : d ≠ '.' := by
        rintro rfl
        exact absurd hd (by decide)
      simp [magnitudeLength?, hzero, hpoint, hnotDigit d hd]
  | cons c cs =>
    have hdecimal (cs : List Char) : decimalLength (cs ++ ds) = decimalLength cs :=
      decimalLength_separated hds
    have hbased {p : Char → Bool} (hp : ∀ d ∈ separators, p d = false) (cs : List Char) :
        run p (cs ++ ds) = run p cs := run_separated hds hp
    cases cs with
    | nil =>
      cases ds with
      | nil => rfl
      | cons d ds =>
        have hbase : ∀ d ∈ separators, ¬(d = 'x' ∨ d = 'X') ∧ ¬(d = 'o' ∨ d = 'O') ∧
          ¬(d = 'b' ∨ d = 'B') := forall_mem_separators.mpr (by decide)
        have hd := separated_cons.mp hds
        have hrest := hdecimal []
        rw [List.nil_append] at hrest
        by_cases hzero : c = '0'
        · subst hzero
          simp [magnitudeLength?, hbase d hd, hrest]
        · by_cases hpoint : c = '.'
          · subst hpoint
            simp [magnitudeLength?, hnotDigit d hd]
          · simp [magnitudeLength?, hzero, hpoint, hrest]
    | cons e cs =>
      have hrest := hdecimal (e :: cs)
      rw [List.cons_append] at hrest
      by_cases hzero : c = '0'
      · subst hzero
        have hhex := hbased
          (p := fun d ↦ d.isDigit || ('a' ≤ d && d ≤ 'f') || ('A' ≤ d && d ≤ 'F') || d = '_')
          (forall_mem_separators.mpr (by decide)) cs
        have hoctal := hbased (p := fun d ↦ ('0' ≤ d && d ≤ '7') || d = '_')
          (forall_mem_separators.mpr (by decide)) cs
        have hbinary := hbased (p := fun d ↦ d = '0' || d = '1' || d = '_')
          (forall_mem_separators.mpr (by decide)) cs
        simp only [List.cons_append, magnitudeLength?, hhex, hoctal, hbinary, hrest]
      · by_cases hpoint : c = '.'
        · subst hpoint
          simp [magnitudeLength?, mantissaLength_separated hds]
        · simp [magnitudeLength?, hzero, hpoint, hrest]

theorem head?_drop_separated {c : Char} (hc : c ∉ separators) {n : Nat} (hn : n ≤ cs.length) :
    ((cs ++ ds).drop n).head? = some c ↔ (cs.drop n).head? = some c := by
  rw [List.drop_append_of_le_length hn, List.head?_append]
  cases hhead : (cs.drop n).head? with
  | some d => rw [Option.some_or]
  | none =>
    rw [Option.none_or]
    exact ⟨fun hd ↦ absurd (hds c hd) hc, nofun⟩

theorem unsignedLength?_separated {m : Nat} (hm : m ≤ cs.length) :
    unsignedLength? (cs ++ ds) = some m ↔ unsignedLength? cs = some m := by
  rw [unsignedLength?, unsignedLength?, magnitudeLength?_separated hds]
  cases magnitudeLength? cs with
  | none => rfl
  | some n =>
    by_cases hn : n ≤ cs.length
    · simp only [Option.map_some, head?_drop_separated hds (by decide : 'i' ∉ separators) hn]
    · simp only [Option.map_some, Option.some.injEq]
      constructor <;> (intro h; split at h <;> omega)

theorem numberLength?_separated {c : Char} {m : Nat} (hm : m ≤ cs.length + 1) :
    numberLength? (c :: (cs ++ ds)) = some m ↔ numberLength? (c :: cs) = some m := by
  rw [numberLength?, numberLength?]
  split
  next =>
    simp only [Option.map_eq_some_iff]
    refine exists_congr fun n ↦ and_congr_left fun hn ↦ ?_
    exact unsignedLength?_separated hds (by omega)
  next => exact @unsignedLength?_separated (c :: cs) ds hds m hm

end Lengths

/-! ### Tokens -/

theorem number_eq_ok_iff {c : Char} {cs : List Char} {m n : Nat} {kind : TokenKind} :
    read.number c cs m = .ok (kind, n) ↔
      (∀ d ∈ (cs.drop (m - 1)).head?, continuesNumber d = false) ∧ kind = .number ∧ n = m - 1 := by
  have hend : (Except.ok (.number, m - 1) : Except ScanError (TokenKind × Nat)) = .ok (kind, n) ↔
      kind = .number ∧ n = m - 1 := by
    rw [Except.ok.injEq, Prod.mk.injEq]
    exact and_congr eq_comm eq_comm
  unfold read.number
  cases (cs.drop (m - 1)).head? with
  | none => exact hend.trans ⟨fun h ↦ ⟨nofun, h⟩, And.right⟩
  | some d =>
    dsimp only
    split
    next hd =>
      refine ⟨nofun, fun h ↦ absurd (h.1 d rfl) ?_⟩
      rw [hd]
      exact Bool.noConfusion
    next hd =>
      refine hend.trans ⟨fun h ↦ ⟨fun e he ↦ ?_, h⟩, And.right⟩
      rw [← Option.some.inj he]
      exact Bool.eq_false_of_not_eq_true hd

section Read

variable {c : Char} {cs ds : List Char} {kind : TokenKind} {n : Nat}

theorem number_separated (hds : Separated ds) (hn : n ≤ cs.length) :
    (∃ m, numberLength? (c :: (cs ++ ds)) = some m ∧ read.number c (cs ++ ds) m = .ok (kind, n)) ↔
      ∃ m, numberLength? (c :: cs) = some m ∧ read.number c cs m = .ok (kind, n) := by
  have hends : ∀ d ∈ separators, continuesNumber d = false :=
    forall_mem_separators.mpr (by decide)
  refine exists_congr fun m ↦ ?_
  simp only [number_eq_ok_iff]
  constructor
  · rintro ⟨hlength, hbehind, hkind, rfl⟩
    refine ⟨(numberLength?_separated hds (by omega)).mp hlength, fun d hd ↦ hbehind d ?_, hkind,
      rfl⟩
    rw [List.drop_append_of_le_length hn, List.head?_append, hd, Option.some_or]
    rfl
  · rintro ⟨hlength, hbehind, hkind, rfl⟩
    refine ⟨(numberLength?_separated hds (by omega)).mpr hlength, fun d hd ↦ ?_, hkind, rfl⟩
    rw [List.drop_append_of_le_length hn, List.head?_append] at hd
    cases hhead : (cs.drop (m - 1)).head? with
    | some e =>
      rw [hhead, Option.some_or] at hd
      exact hbehind d (hhead.trans hd)
    | none =>
      rw [hhead, Option.none_or] at hd
      exact hends d (hds d hd)

/-- Behind a point there is a number if there is a digit. -/
theorem numberLength?_point_eq_none_iff (d : Char) (cs : List Char) :
    numberLength? ('.' :: d :: cs) = none ↔ d.isDigit = false := by
  by_cases hd : d.isDigit
  · simp [numberLength?, unsignedLength?, magnitudeLength?, hd]
  · simp [numberLength?, unsignedLength?, magnitudeLength?, hd]

/-- A token that ends in front of a separator is read the same without the separator. -/
theorem read_separated (hds : Separated ds) (hc : isSpace c = false) (hn : n ≤ cs.length) :
    read c (cs ++ ds) = .ok (kind, n) ↔ read c cs = .ok (kind, n) := by
  have hnumber := @number_separated c cs ds kind n hds hn
  have hword : ∀ d ∈ separators, isWordChar d = false := forall_mem_separators.mpr (by decide)
  unfold read
  rw [hc, if_neg Bool.false_ne_true, if_neg Bool.false_ne_true]
  split
  · dsimp only
    rw [run_separated hds hword, List.take_append_of_le_length (run_le_length _ cs)]
  split
  · cases hlong : numberLength? (c :: (cs ++ ds)) <;> cases hshort : numberLength? (c :: cs) <;>
      simp_all
  split
  case h_6 =>
    have hhead : (cs ++ ds).head? = some '=' ↔ cs.head? = some '=' :=
      head?_drop_separated hds (by decide) (Nat.zero_le _)
    simp only [hhead]
  case h_7 => rw [run_separated hds hword]
  case h_8 =>
    cases cs with
    | nil =>
      cases ds with
      | nil => rfl
      | cons d ds =>
        have hstart : ∀ d ∈ separators, isWordStart d = false ∧ d.isDigit = false :=
          forall_mem_separators.mpr (by decide)
        obtain ⟨hstart, hdigit⟩ := hstart d (separated_cons.mp hds)
        have hnone := (numberLength?_point_eq_none_iff d ds).mpr hdigit
        simp only [List.nil_append, hstart, hnone, Bool.false_eq_true, if_false]
    | cons d r =>
      rw [List.cons_append]
      dsimp only
      split
      · rw [run_separated hds hword]
      · by_cases hdigit : d.isDigit
        · have hsome (x : List Char) : numberLength? ('.' :: d :: x) ≠ none := by
            rw [Ne, numberLength?_point_eq_none_iff, hdigit]
            exact Bool.noConfusion
          obtain ⟨long, hlong⟩ := Option.ne_none_iff_exists'.mp (hsome (r ++ ds))
          obtain ⟨short, hshort⟩ := Option.ne_none_iff_exists'.mp (hsome r)
          rw [hlong, hshort]
          simpa [hlong, hshort] using hnumber
        · have hnone (x : List Char) := (numberLength?_point_eq_none_iff d x).mpr
            (Bool.eq_false_of_not_eq_true hdigit)
          rw [hnone, hnone]
  case h_9 | h_11 =>
    exact ⟨fun h ↦ elim_of_append (fun _ hm hle ↦ quotedLength?_of_append (by decide) hm hle) h hn,
      elim_append fun _ hm ↦ (quotedLength?_append (by decide) hm ds).1⟩
  case h_10 =>
    exact ⟨fun h ↦ elim_of_append (fun _ hm hle ↦ rawLength?_of_append hm hle) h hn,
      elim_append fun _ hm ↦ (rawLength?_append hm ds).1⟩
  all_goals rfl

end Read

/-! ### White space -/

section Spaces

variable {c : Char} {xs ys : List Char} (hc : isSpace c) (hxs : ∀ x ∈ xs, isSpace x)
  (hmark : ¬['-', '}', '}'] <+: ys)
include hc hxs hmark

/-- White space goes up to what is none, if that is no trim marker. -/
theorem read_spaces (hys : ∀ y ∈ ys.head?, isSpace y = false) :
    read c (xs ++ ys) = .ok (.whitespace, xs.length) := by
  have hnone : ys.takeWhile isSpace = [] := by
    cases ys with
    | nil => rfl
    | cons y ys => exact List.takeWhile_cons_of_neg (by simp [hys y rfl])
  have hrun : run isSpace (xs ++ ys) = xs.length := by
    rw [run, List.takeWhile_append_of_pos hxs, hnone, List.append_nil]
  unfold read
  rw [if_pos hc]
  dsimp only
  rw [hrun, List.drop_left, if_neg (by rwa [List.isPrefixOf_iff_prefix])]

theorem rightDelim?_spaces : rightDelim? (c :: (xs ++ ys)) = none := by
  unfold rightDelim?
  split
  next heq =>
    rw [(List.cons.inj heq).1] at hc
    exact absurd hc (by decide)
  next r heq =>
    obtain ⟨-, heq⟩ := List.cons.inj heq
    cases xs with
    | nil =>
      rw [List.nil_append] at heq
      exact absurd ⟨r, heq.symm⟩ hmark
    | cons x xs =>
      have hx := hxs x List.mem_cons_self
      rw [(List.cons.inj heq).1] at hx
      exact absurd hx (by decide)
  next => rfl

end Spaces

theorem head?_drop_run (p : Char → Bool) (cs : List Char) :
    ∀ y ∈ (cs.drop (run p cs)).head?, p y = false := by
  induction cs with
  | nil => exact nofun
  | cons c cs ih =>
    by_cases hc : p c
    · rw [run, List.takeWhile_cons_of_pos hc]
      exact ih
    · rw [run, List.takeWhile_cons_of_neg hc]
      intro y hy
      obtain rfl := Option.some.inj hy
      exact Bool.eq_false_of_not_eq_true hc

/-- White space ends in front of what is none, or of a right delimiter. -/
theorem spaces_of_read {c : Char} {tail : List Char} {kind : TokenKind} {n : Nat}
    (hc : isSpace c) (hdelim : rightDelim? (c :: tail) = none)
    (h : read c tail = .ok (kind, n)) : kind = .whitespace ∧ (∀ x ∈ tail.take n, isSpace x) ∧
      (rightDelim? (tail.drop n) = none → ∀ y ∈ (tail.drop n).head?, isSpace y = false) := by
  have hspaces : ∀ x ∈ tail.take (run isSpace tail), isSpace x := by
    rw [run, ← List.prefix_iff_eq_take.mp (List.takeWhile_prefix isSpace)]
    exact fun x hx ↦ List.mem_takeWhile_imp hx
  have hbehind := head?_drop_run isSpace tail
  unfold read at h
  rw [if_pos hc] at h
  dsimp only at h
  obtain ⟨rfl, rfl⟩ := Prod.mk.inj (Except.ok.inj h)
  split
  next hmark =>
    obtain ⟨r, hr⟩ := List.isPrefixOf_iff_prefix.mp hmark
    generalize run isSpace tail = k at *
    cases k with
    | zero =>
      rw [List.drop_zero] at hr
      rw [← hr] at hdelim
      simp [rightDelim?, hc] at hdelim
    | succ k =>
      -- the last space belongs to the marker
      have hk : k < tail.length := by
        have hlength := congrArg List.length hr
        simp only [List.length_append, List.length_cons, List.length_drop] at hlength
        omega
      have hlast : isSpace tail[k] := hspaces _ (List.mem_take_iff_getElem.mpr ⟨k, by omega, rfl⟩)
      refine ⟨rfl, fun x hx ↦ hspaces x (List.take_subset_take_left tail (Nat.le_succ k) hx), ?_⟩
      rw [Nat.add_sub_cancel, List.drop_eq_getElem_cons hk, ← hr]
      intro hnone
      simp [rightDelim?, hlast] at hnone
  next => exact ⟨rfl, hspaces, fun _ ↦ hbehind⟩

theorem ofWord_ne_whitespace (word : String) : TokenKind.ofWord word ≠ .whitespace := by
  unfold TokenKind.ofWord
  split
  · nofun
  · split
    · nofun
    · split <;> nofun

theorem elim_ne_whitespace {length? : Option Nat} {literal : TokenKind} {e : ScanError} {n : Nat}
    (hliteral : literal ≠ .whitespace) :
    (length?.map (literal, ·)).elim (.error e) .ok ≠ Except.ok (.whitespace, n) := by
  cases length? with
  | none => nofun
  | some m => exact fun h ↦ hliteral (Prod.mk.inj (Except.ok.inj h)).1

/-- White space starts with a space. -/
theorem isSpace_of_read {c : Char} {cs : List Char} {n : Nat}
    (h : read c cs = .ok (.whitespace, n)) : isSpace c := by
  by_contra hc
  unfold read at h
  rw [if_neg hc] at h
  split at h
  · exact ofWord_ne_whitespace _ (Prod.mk.inj (Except.ok.inj h)).1
  split at h
  · split at h
    · cases (number_eq_ok_iff.mp h).2.1
    · cases h
  split at h
  case h_6 => split at h <;> cases h
  case h_8 =>
    split at h
    · split at h
      · cases h
      · split at h
        · cases (number_eq_ok_iff.mp h).2.1
        · cases h
    · cases h
  case h_9 | h_10 | h_11 => exact absurd h (elim_ne_whitespace (by decide))
  all_goals cases h

end AlertAudit.Template.Scan
