import AlertAudit.Proofs.Yaml.Locality

/-!
What the readers of YAML scalars look at. They go from place to place, over the lines of a scalar,
and see no more than the line on which they stop; the lines are only counted (`PlaceLocal`).
-/

set_option autoImplicit false

namespace AlertAudit.Yaml

open AlertAudit.Text

variable {α β : Type} {c : Char} {cs cs' rest tail : List Char}

/-! ### Readers of places -/

/-- The reader looks no further than the end of the line where it stops, and counts the lines from
the one where it begins. -/
structure PlaceLocal (f : Cursor → Option (α × Cursor)) : Prop where
  taken : ∀ {here next : Cursor} {out : α}, f here = some (out, next) →
    ∃ used lines, here.rest = used ++ next.rest ∧ next.line = here.line + lines ∧
      ∀ tail line, SameLine next.rest tail →
        f ⟨used ++ tail, line, here.column⟩ = some (out, ⟨tail, line + lines, next.column⟩)

namespace PlaceLocal

/-- A reader goes on behind another one, and both look at no more than their lines. -/
theorem bind {f : Cursor → Option (α × Cursor)} {g : α → Cursor → Option (β × Cursor)}
    (hf : PlaceLocal f) (hg : ∀ a, PlaceLocal (g a)) :
    PlaceLocal fun here ↦ (f here).bind fun x ↦ g x.1 x.2 := by
  refine ⟨fun {here next out} h ↦ ?_⟩
  obtain ⟨⟨a, middle⟩, hfirst, hsecond⟩ := Option.bind_eq_some_iff.mp h
  obtain ⟨first, lines, hrest, hline, hlocal⟩ := hf.taken hfirst
  obtain ⟨second, lines', hrest', hline', hlocal'⟩ := (hg a).taken hsecond
  simp only at hrest' hline' hlocal'
  refine ⟨first ++ second, lines + lines', by rw [hrest, hrest', List.append_assoc], by omega,
    fun tail line htail ↦ ?_⟩
  have hmiddle : SameLine middle.rest (second ++ tail) := hrest' ▸ htail.append_left second
  simp only [List.append_assoc, hlocal _ line hmiddle, Option.bind_some, hlocal' tail _ htail,
    Nat.add_assoc]

/-- A reader that stays where it is looks at nothing. -/
theorem pure (out : α) : PlaceLocal fun here ↦ some (out, here) := by
  refine ⟨fun {here next out'} h ↦ ?_⟩
  obtain ⟨rfl, rfl⟩ := Prod.mk.inj (Option.some.inj h)
  exact ⟨[], 0, rfl, rfl, fun tail line _ ↦ rfl⟩

/-- A reader may give an answer or fail without a look at the text. -/
theorem lift (o : Option α) : PlaceLocal fun here ↦ o.map fun out ↦ (out, here) := by
  cases o with
  | none => exact ⟨fun h ↦ absurd h (by simp)⟩
  | some out => exact pure out

/-- A reader of characters on the line, as a reader of places. -/
theorem ofChars {P : Char → Prop} {f : List Char → Option (α × List Char)} (hf : CharLocal P f) :
    PlaceLocal fun here ↦ (f here.rest).map fun x ↦
      (x.1, here.skip (here.rest.length - x.2.length)) := by
  refine ⟨fun {here next out} h ↦ ?_⟩
  obtain ⟨⟨a, rest⟩, hread, heq⟩ := Option.map_eq_some_iff.mp h
  obtain ⟨rfl, rfl⟩ := Prod.mk.inj heq
  obtain ⟨used, hrest, -, hlocal⟩ := hf.taken hread
  have hlength (tail : List Char) : (used ++ tail).length - tail.length = used.length := by simp
  simp only [Cursor.skip, hrest, hlength, List.drop_left]
  refine ⟨used, 0, rfl, rfl, fun tail line htail ↦ ?_⟩
  simp only [hlocal tail htail, Option.map_some, hlength, List.drop_left, Nat.add_zero]

/-- Takes the characters of a class. -/
theorem takeWhile {p : Char → Bool} (hp : ∀ c, isBreak c → p c = false) :
    PlaceLocal fun here ↦ some (here.rest.takeWhile p, here.skipWhile p) := by
  refine ⟨fun {here next out} h ↦ ?_⟩
  obtain ⟨rfl, rfl⟩ := Prod.mk.inj (Option.some.inj h)
  simp only [Cursor.skipWhile, Cursor.skip, Scan.drop_length_takeWhile]
  refine ⟨here.rest.takeWhile p, 0, List.takeWhile_append_dropWhile.symm, rfl,
    fun tail line htail ↦ ?_⟩
  obtain ⟨htake, hdrop⟩ := htail.takeWhile_append hp
  rw [htake, hdrop]
  rfl

/-- Passes over the characters of a class that has no line break in it. -/
theorem skipWhile {p : Char → Bool} (hp : ∀ c, isBreak c → p c = false) :
    PlaceLocal fun here ↦ some ((), here.skipWhile p) :=
  (takeWhile hp).bind fun _ ↦ pure ()

/-- Passes over one character of the line. -/
theorem skipOne :
    PlaceLocal fun here ↦ if here.rest.isEmpty then none else some ((), here.skip 1) := by
  refine ⟨fun {here next out} h ↦ ?_⟩
  obtain ⟨_ | ⟨c, cs⟩, line, column⟩ := here
  · exact absurd h (by simp)
  · obtain ⟨-, rfl⟩ := Prod.mk.inj (Option.some.inj h)
    exact ⟨[c], 0, rfl, rfl, fun tail line _ ↦ rfl⟩

/-- Passes over the break at the end of a line. -/
theorem endLine : PlaceLocal fun here ↦ some ((), here.endLine) := by
  refine ⟨fun {here next out} h ↦ ?_⟩
  obtain ⟨-, rfl⟩ := Prod.mk.inj (Option.some.inj h)
  obtain ⟨_ | ⟨c, cs⟩, line, column⟩ := here
  · refine ⟨[], 0, rfl, rfl, fun tail line htail ↦ ?_⟩
    cases htail
    rfl
  · exact ⟨[c], 1, rfl, rfl, fun tail line _ ↦ rfl⟩

end PlaceLocal

/-- The rest of a line on which only white space and a comment follow. -/
def lineTail? (here : Cursor) : Option (Unit × Cursor) :=
  let stop := here.skipWhile isGap
  let stop := if stop.rest.head? == some '#' then stop.skipWhile (!isBreak ·) else stop
  if atLineEnd stop.rest then some ((), stop) else none

/-- A line break is no white space within a line. -/
theorem isGap_of_isBreak (hc : isBreak c) : isGap c = false := by
  simp only [isBreak, Bool.or_eq_true, decide_eq_true_eq] at hc
  rcases hc with (rfl | rfl) | rfl <;> decide

/-- A reader that looks at the line first. -/
theorem PlaceLocal.ite {f g : Cursor → Option (α × Cursor)} {p : List Char → Bool}
    (hp : ∀ {cs cs'}, SameLine cs cs' → p cs' = p cs) (hf : PlaceLocal f) (hg : PlaceLocal g) :
    PlaceLocal fun here ↦ if p here.rest then f here else g here := by
  refine ⟨fun {here next out} h ↦ ?_⟩
  have hsame {used tail : List Char} (hused : here.rest = used ++ next.rest)
      (htail : SameLine next.rest tail) : p (used ++ tail) = p here.rest :=
    hp (hused ▸ htail.append_left used)
  by_cases hpos : p here.rest = true
  · rw [if_pos hpos] at h
    obtain ⟨used, lines, hused, hline, hlocal⟩ := hf.taken h
    refine ⟨used, lines, hused, hline, fun tail line htail ↦ ?_⟩
    rw [if_pos ((hsame hused htail).trans hpos), hlocal tail line htail]
  · rw [if_neg hpos] at h
    obtain ⟨used, lines, hused, hline, hlocal⟩ := hg.taken h
    refine ⟨used, lines, hused, hline, fun tail line htail ↦ ?_⟩
    rw [if_neg (hsame hused htail ▸ hpos), hlocal tail line htail]

theorem PlaceLocal.fail : PlaceLocal fun _ ↦ (none : Option (α × Cursor)) :=
  ⟨fun h ↦ absurd h (by simp)⟩

/-- The rest of a line is passed over if nothing but white space and a comment stands on it. -/
theorem local_lineTail? : PlaceLocal lineTail? := by
  have hcomment : PlaceLocal fun here ↦
      if here.rest.head? == some '#' then some ((), here.skipWhile (!isBreak ·))
      else some ((), here) :=
    .ite (p := fun cs ↦ cs.head? == some '#') (fun h ↦ by rw [h.head?_eq])
      (.skipWhile fun c hc ↦ by simp [hc]) (.pure ())
  have hend : PlaceLocal fun here ↦ if atLineEnd here.rest then some ((), here) else none :=
    .ite (p := atLineEnd) (fun h ↦ h.atLineEnd_eq) (.pure ()) .fail
  have heq : lineTail? = fun here ↦ (some ((), here.skipWhile isGap)).bind fun x ↦
      (if x.2.rest.head? == some '#' then some ((), x.2.skipWhile (!isBreak ·))
        else some ((), x.2)).bind fun y ↦
        if atLineEnd y.2.rest then some ((), y.2) else none := by
    funext here
    simp only [lineTail?, Option.bind_some]
    split_ifs <;> simp [*]
  rw [heq]
  exact (PlaceLocal.skipWhile fun c ↦ isGap_of_isBreak).bind
    (g := fun _ here ↦ (if here.rest.head? == some '#' then
        some ((), here.skipWhile (!isBreak ·)) else some ((), here)).bind fun y ↦
      if atLineEnd y.2.rest then some ((), y.2) else none)
    fun _ ↦ hcomment.bind fun _ ↦ hend

/-! ### Scalars -/

/-- White space within a scalar is read up to the line where it ends. -/
theorem Gap.local_read (margin : Nat) (g : Gap) :
    PlaceLocal fun here ↦ read margin here.rest g here.line here.column := by
  refine ⟨fun {here next g'} h ↦ ?_⟩
  obtain ⟨cs, line, column⟩ := here
  simp only at h ⊢
  induction cs generalizing g line column with
  | nil =>
    obtain ⟨rfl, rfl⟩ := Prod.mk.inj (Option.some.inj h)
    refine ⟨[], 0, rfl, rfl, fun tail line htail ↦ ?_⟩
    cases htail
    rfl
  | cons c cs ih =>
    rw [read] at h
    by_cases hbreak : isBreak c = true
    · rw [if_pos hbreak] at h
      obtain ⟨used, lines, rfl, hline, hlocal⟩ := ih _ _ _ h
      refine ⟨c :: used, lines + 1, rfl, by omega, fun tail line' htail ↦ ?_⟩
      rw [List.cons_append, read, if_pos hbreak, hlocal tail _ htail, Nat.add_right_comm,
        Nat.add_assoc]
    · rw [if_neg hbreak] at h
      by_cases hgap : isGap c = true
      · rw [if_pos hgap] at h
        by_cases hfirst : g.breaks.isEmpty = true
        · rw [if_pos hfirst] at h
          obtain ⟨used, lines, rfl, hline, hlocal⟩ := ih _ _ _ h
          refine ⟨c :: used, lines, rfl, hline, fun tail line' htail ↦ ?_⟩
          rw [List.cons_append, read, if_neg hbreak, if_pos hgap, if_pos hfirst,
            hlocal tail _ htail]
        · rw [if_neg hfirst] at h
          by_cases htab : c = '\t' ∧ column < margin
          · rw [if_pos htab] at h
            exact absurd h (by simp)
          · rw [if_neg htab] at h
            obtain ⟨used, lines, rfl, hline, hlocal⟩ := ih _ _ _ h
            refine ⟨c :: used, lines, rfl, hline, fun tail line' htail ↦ ?_⟩
            rw [List.cons_append, read, if_neg hbreak, if_pos hgap, if_neg hfirst, if_neg htab,
              hlocal tail _ htail]
      · rw [if_neg hgap] at h
        obtain ⟨rfl, rfl⟩ := Prod.mk.inj (Option.some.inj h)
        refine ⟨[], 0, rfl, rfl, fun tail line' htail ↦ ?_⟩
        obtain ⟨tail, rfl, -⟩ := htail.exists_cons
        rw [List.nil_append, read, if_neg hbreak, if_neg hgap]
        rfl

namespace Plain

/-- Behind a gap a scalar ends at a mark of a document, a comment or a line further to the left. -/
def stopsAt (flow : Bool) (margin : Nat) (here : Cursor) : Bool :=
  here.atDocumentMarker || here.rest.head? == some '#' || (!flow && here.column < margin)

variable {flow broken : Bool} {margin : Nat} {text out : List Char} {here next stop : Cursor}
  {g : Gap}

/-- A plain scalar ends in front of texts with the same first line alike. -/
theorem stopsAt_eq (h : SameLine here.rest tail) (line : Nat) :
    stopsAt flow margin ⟨tail, line, here.column⟩ = stopsAt flow margin here := by
  rw [stopsAt, stopsAt, h.atDocumentMarker_eq here.line line, h.head?_eq]

/-- Behind white space a plain scalar either ends or goes on with another run. -/
theorem readMore_of_gap (h : Gap.read margin here.rest {} here.line here.column = some (g, stop)) :
    readMore flow margin text here =
      if g.isEmpty then some (text, false, stop)
      else if stopsAt flow margin stop then some (text, g.hasBreak, stop)
      else
        match run flow stop.rest with
        | none => none
        | some ([], _) => some (text, g.hasBreak, stop)
        | some (c :: taken, rest) =>
          readMore flow margin (text ++ g.text ++ c :: taken)
            ⟨rest, stop.line, stop.column + (c :: taken).length⟩ := by
  rw [readMore]
  split
  next hnone => exact absurd (hnone.symm.trans h) (by simp)
  next hsome =>
    obtain ⟨rfl, rfl⟩ := Prod.mk.inj (Option.some.inj (hsome.symm.trans h))
    unfold stopsAt
    split_ifs
    · rfl
    · rfl
    · split <;> simp_all

/-- The text of a plain scalar goes on behind white space, which may be empty. -/
theorem exists_gap_of_readMore (h : readMore flow margin text here = some (out, broken, next)) :
    ∃ g stop, Gap.read margin here.rest {} here.line here.column = some (g, stop) := by
  cases hgap : Gap.read margin here.rest {} here.line here.column with
  | some found => exact ⟨_, _, rfl⟩
  | none =>
    rw [readMore] at h
    split at h
    next => exact absurd h (by simp)
    next hsome => exact absurd (hgap.symm.trans hsome) (by simp)

/-- What follows in a plain scalar is read again where the rest of its last line is the same. -/
theorem taken_readMore (h : readMore flow margin text here = some (out, broken, next)) :
    ∃ used lines, here.rest = used ++ next.rest ∧ next.line = here.line + lines ∧
      ∀ tail line, SameLine next.rest tail →
        readMore flow margin text ⟨used ++ tail, line, here.column⟩ =
          some (out, broken, ⟨tail, line + lines, next.column⟩) := by
  induction hlength : here.rest.length using Nat.strongRecOn generalizing here text with
  | ind length ih =>
    obtain ⟨g, stop, hgap⟩ := exists_gap_of_readMore h
    obtain ⟨between, lines, hrest, hline, hlocal⟩ := (Gap.local_read margin {}).taken hgap
    rw [readMore_of_gap hgap] at h
    by_cases hempty : g.isEmpty = true
    · rw [if_pos hempty] at h
      obtain ⟨rfl, rfl, rfl⟩ : text = out ∧ false = broken ∧ stop = next := by simpa using h
      refine ⟨between, lines, hrest, hline, fun tail line htail ↦ ?_⟩
      rw [readMore_of_gap (hlocal tail line htail), if_pos hempty]
    rw [if_neg hempty] at h
    by_cases hstops : stopsAt flow margin stop = true
    · rw [if_pos hstops] at h
      obtain ⟨rfl, rfl, rfl⟩ : text = out ∧ g.hasBreak = broken ∧ stop = next := by simpa using h
      refine ⟨between, lines, hrest, hline, fun tail line htail ↦ ?_⟩
      rw [readMore_of_gap (hlocal tail line htail), if_neg hempty, stopsAt_eq htail, if_pos hstops]
    rw [if_neg hstops] at h
    have hgoes {tail : List Char} (htail : SameLine stop.rest tail) (line : Nat) :
        readMore flow margin text ⟨between ++ tail, line, here.column⟩ =
          match run flow tail with
          | none => none
          | some ([], _) => some (text, g.hasBreak, ⟨tail, line + lines, stop.column⟩)
          | some (c :: taken, rest) =>
            readMore flow margin (text ++ g.text ++ c :: taken)
              ⟨rest, line + lines, stop.column + (c :: taken).length⟩ := by
      rw [readMore_of_gap (hlocal tail line htail), if_neg hempty, stopsAt_eq htail, if_neg hstops]
    split at h
    · exact absurd h (by simp)
    next rest hrun =>
      obtain ⟨rfl, rfl, rfl⟩ : text = out ∧ g.hasBreak = broken ∧ stop = next := by simpa using h
      obtain rfl : rest = stop.rest := append_of_run hrun
      have hnone {tail : List Char} (htail : SameLine stop.rest tail) :
          run flow tail = some ([], tail) := taken_run hrun htail
      refine ⟨between, lines, hrest, hline, fun tail line htail ↦ ?_⟩
      rw [hgoes htail, hnone htail]
    next c taken rest hrun =>
      have hstop := append_of_run hrun
      have hshort : rest.length < length := by
        rw [← hlength, hrest, ← hstop]
        simp only [List.length_append, List.length_cons]
        omega
      obtain ⟨more, lines', hmore, hline', hlocalMore⟩ := ih _ hshort h rfl
      simp only at hmore hline' hlocalMore
      refine ⟨between ++ (c :: taken ++ more), lines + lines', ?_, by omega,
        fun tail line htail ↦ ?_⟩
      · rw [hrest, ← hstop, hmore]
        simp
      · have hbehind : SameLine rest (more ++ tail) := hmore ▸ htail.append_left more
        rw [List.append_assoc, List.append_assoc,
          hgoes (hstop ▸ hbehind.append_left (c :: taken)), taken_run hrun hbehind]
        simp only [hlocalMore tail _ htail, Nat.add_assoc]

/-- So is a plain scalar as a whole. -/
theorem taken_read (h : read flow margin here = some (out, broken, next)) :
    ∃ used lines, here.rest = used ++ next.rest ∧ next.line = here.line + lines ∧
      ∀ tail line, SameLine next.rest tail →
        read flow margin ⟨used ++ tail, line, here.column⟩ =
          some (out, broken, ⟨tail, line + lines, next.column⟩) := by
  simp only [read, Option.bind_eq_bind, Option.bind_eq_some_iff, Prod.exists] at h
  obtain ⟨taken, rest, hrun, hmore⟩ := h
  obtain ⟨used, lines, hused, hline, hlocal⟩ := taken_readMore hmore
  simp only at hused hline hlocal
  refine ⟨taken ++ used, lines, by rw [← append_of_run hrun, hused, List.append_assoc], hline,
    fun tail line htail ↦ ?_⟩
  have hbehind : SameLine rest (used ++ tail) := hused ▸ htail.append_left used
  simp [read, taken_run hrun hbehind, hlocal tail line htail]

end Plain

namespace Quoted

/-- Without a backslash, white space in double quotes is that of any scalar. -/
theorem gap_of_ne {here : Cursor} (h : ∀ d cs, here.rest ≠ '\\' :: d :: cs) :
    gap here = (Gap.read 0 here.rest {} here.line here.column).map fun (g, next) ↦
      (g.text, next) := by
  unfold gap
  split
  next heq => exact absurd heq (h _ _)
  next => rfl

/-- White space in quotes is read up to the line where it ends. -/
theorem local_gap : PlaceLocal gap := by
  refine ⟨fun {here next out} h ↦ ?_⟩
  by_cases hescape : ∃ d cs, here.rest = '\\' :: d :: cs
  · obtain ⟨d, cs, hrest⟩ := hescape
    simp only [gap, hrest] at h
    obtain ⟨⟨g, stop⟩, hread, heq⟩ := Option.map_eq_some_iff.mp h
    obtain ⟨rfl, rfl⟩ := Prod.mk.inj heq
    obtain ⟨used, lines, hused, hline, hlocal⟩ :=
      @PlaceLocal.taken _ _ (Gap.local_read 0 {}) ⟨cs, here.line + 1, 0⟩ _ _ hread
    simp only at hused hline hlocal
    refine ⟨'\\' :: d :: used, lines + 1, by rw [hrest, hused]; rfl, by simp only; omega,
      fun tail line htail ↦ ?_⟩
    simp only [gap, List.cons_append, hlocal tail _ htail, Option.map_some]
    rw [Nat.add_right_comm, Nat.add_assoc]
  · have hne : ∀ d cs, here.rest ≠ '\\' :: d :: cs := fun d cs heq ↦ hescape ⟨d, cs, heq⟩
    rw [gap_of_ne hne] at h
    obtain ⟨⟨g, stop⟩, hread, heq⟩ := Option.map_eq_some_iff.mp h
    obtain ⟨rfl, rfl⟩ := Prod.mk.inj heq
    obtain ⟨used, lines, hused, hline, hlocal⟩ := (Gap.local_read 0 {}).taken hread
    refine ⟨used, lines, hused, hline, fun tail line htail ↦ ?_⟩
    have hsame : SameLine (used ++ tail) here.rest := (hused ▸ htail.append_left used).symm
    have hne' : ∀ d cs, used ++ tail ≠ '\\' :: d :: cs := by
      intro d cs heq
      rw [heq] at hsame
      obtain ⟨rest, hrest, hrest'⟩ := hsame.exists_cons
      obtain ⟨_, rfl, -⟩ := (hrest' (by decide)).exists_cons
      exact hne _ _ hrest
    rw [gap_of_ne hne', hlocal tail line htail]
    rfl

/-- What follows in a quoted scalar is a run, and then the closing quote or white space. -/
theorem readMore_of_run {quote : Quote} {text taken rest : List Char} {here : Cursor}
    (hmark : here.atDocumentMarker = false) (hrun : run quote here.rest = some (taken, rest)) :
    readMore quote text here =
      let stop : Cursor := ⟨rest, here.line, here.column + (here.rest.length - rest.length)⟩
      if rest.head? == some quote.mark then some (text ++ taken, stop.skip 1)
      else
        match gap stop with
        | none => none
        | some (between, next) =>
          if next.rest.length < here.rest.length then readMore quote (text ++ taken ++ between) next
          else none := by
  rw [readMore, hmark, hrun]
  rfl

/-- What is read ends with the closing quote. -/
theorem taken_readMore {quote : Quote} {text out : List Char} {here next : Cursor}
    (h : readMore quote text here = some (out, next)) :
    ∃ used lines, here.rest = used ++ quote.mark :: next.rest ∧ next.line = here.line + lines ∧
      ∀ tail line, SameLine next.rest tail →
        readMore quote text ⟨used ++ quote.mark :: tail, line, here.column⟩ =
          some (out, ⟨tail, line + lines, next.column⟩) := by
  induction hlength : here.rest.length using Nat.strongRecOn generalizing here text with
  | ind length ih =>
    obtain ⟨hmark, taken, rest, hrun⟩ : here.atDocumentMarker = false ∧
        ∃ taken rest, run quote here.rest = some (taken, rest) := by
      rw [readMore] at h
      split at h
      · exact absurd h (by simp)
      next hmark =>
        split at h
        · exact absurd h (by simp)
        next taken rest hrun => exact ⟨Bool.eq_false_iff.mpr hmark, taken, rest, hrun⟩
    rw [readMore_of_run hmark hrun] at h
    obtain ⟨word, hword, -, hlocalRun⟩ := (local_run quote).taken hrun
    have hcolumn {tail : List Char} : (word ++ tail).length - tail.length = word.length := by
      simp
    have hmark' {tail : List Char} (htail : SameLine rest tail) (line : Nat) :
        Cursor.atDocumentMarker ⟨word ++ tail, line, here.column⟩ = false := by
      have hsame : SameLine here.rest (word ++ tail) := hword ▸ htail.append_left word
      exact (hsame.atDocumentMarker_eq here.line line here.column).trans hmark
    simp only [hword, hcolumn] at h
    by_cases hend : (rest.head? == some quote.mark) = true
    · obtain ⟨behind, rfl⟩ := List.head?_eq_some_iff.mp (beq_iff_eq.mp hend)
      rw [if_pos hend] at h
      obtain ⟨rfl, rfl⟩ := Prod.mk.inj (Option.some.inj h)
      refine ⟨word, 0, hword, rfl, fun tail line htail ↦ ?_⟩
      have hbehind : SameLine (quote.mark :: behind) (quote.mark :: tail) := htail.char _
      rw [readMore_of_run (hmark' hbehind line) (hlocalRun _ hbehind)]
      simp [Cursor.skip]
    · rw [if_neg hend] at h
      split at h
      · exact absurd h (by simp)
      next between stop hgap =>
        split at h
        next hshort =>
          obtain ⟨space, lines, hspace, hline, hlocalGap⟩ := local_gap.taken hgap
          simp only at hspace hline hlocalGap
          obtain ⟨used, lines', hused, hline', hlocal⟩ :=
            ih _ (by rw [← hlength, hword]; exact hshort) h rfl
          refine ⟨word ++ (space ++ used), lines + lines', ?_, by omega, fun tail line htail ↦ ?_⟩
          · rw [hword, hspace, hused]
            simp
          · have hmore : SameLine stop.rest (used ++ quote.mark :: tail) :=
              hused ▸ (htail.char _).append_left used
            have hrest : SameLine rest (space ++ (used ++ quote.mark :: tail)) :=
              hspace ▸ hmore.append_left space
            have hhead :
                ¬((space ++ (used ++ quote.mark :: tail)).head? == some quote.mark) = true := by
              rwa [hrest.head?_eq]
            rw [List.append_assoc, List.append_assoc,
              readMore_of_run (hmark' hrest line) (hlocalRun _ hrest)]
            simp only [hcolumn, if_neg hhead, hlocalGap _ _ hmore]
            have htaken : 0 < word.length + space.length := by
              simp only [hspace, List.length_append] at hshort
              omega
            rw [if_pos (by simp only [List.length_append]; omega), hlocal tail _ htail,
              Nat.add_assoc]
        next => exact absurd h (by simp)

/-- A scalar in quotes ends with its closing quote. -/
theorem taken_read {quote : Quote} {out : List Char} {here next : Cursor}
    (h : read quote here = some (out, next)) (hrest : here.rest = quote.mark :: cs) :
    ∃ used lines, here.rest = used ++ quote.mark :: next.rest ∧ next.line = here.line + lines ∧
      ∀ tail line, SameLine next.rest tail →
        read quote ⟨used ++ quote.mark :: tail, line, here.column⟩ =
          some (out, ⟨tail, line + lines, next.column⟩) := by
  obtain ⟨used, lines, hused, hline, hlocal⟩ := taken_readMore h
  simp only [Cursor.skip, hrest, List.drop_one, List.tail_cons] at hused hline hlocal
  refine ⟨quote.mark :: used, lines, by rw [hrest, hused]; rfl, hline, fun tail line htail ↦ ?_⟩
  simp only [read, Cursor.skip, List.cons_append, List.drop_one, List.tail_cons,
    hlocal tail line htail]

end Quoted

namespace Block

/-- The digit of an indentation stands on the line of the header. -/
theorem local_indent? : CharLocal IsInk indent? := by
  refine ⟨fun {cs out rest} h ↦ ?_⟩
  cases cs with
  | nil =>
    obtain ⟨rfl, rfl⟩ : none = out ∧ [] = rest := by simpa [indent?] using h
    refine ⟨[], rfl, by simp, fun tail htail ↦ ?_⟩
    cases htail
    rfl
  | cons c cs =>
    rw [indent?] at h
    by_cases hzero : c = '0'
    · rw [if_pos hzero] at h
      exact absurd h (by simp)
    rw [if_neg hzero] at h
    split at h
    next n hdigit =>
      obtain ⟨rfl, rfl⟩ : some n = out ∧ cs = rest := by simpa using h
      exact ⟨[c], rfl, by simpa using isInk_of_digit? hdigit,
        fun tail _ ↦ by simp [indent?, hzero, hdigit]⟩
    next hdigit =>
      obtain ⟨rfl, rfl⟩ : none = out ∧ c :: cs = rest := by simpa using h
      refine ⟨[], rfl, by simp, fun tail htail ↦ ?_⟩
      obtain ⟨tail, rfl, -⟩ := htail.exists_cons
      simp [indent?, hzero, hdigit]

/-- The sign that may follow the digit of an indentation. -/
def sign? (indent : Option Nat) (cs : List Char) : Option (Header × List Char) :=
  match indent.bind (fun _ ↦ cs.head?.bind chomp?) with
  | some chomp => some (⟨chomp, indent⟩, cs.drop 1)
  | none => some (⟨.clip, indent⟩, cs)

/-- A sign of the header is no white space. -/
theorem isInk_of_chomp? {chomp : Chomp} (h : chomp? c = some chomp) : IsInk c :=
  isInk_of_class (p := fun c ↦ (chomp? c).isSome) (by decide) (h ▸ rfl)

/-- The sign behind the digit stands on the line of the header. -/
theorem local_sign? (indent : Option Nat) : CharLocal IsInk (sign? indent) := by
  refine ⟨fun {cs out rest} h ↦ ?_⟩
  rw [sign?] at h
  split at h
  next chomp hchomp =>
    obtain ⟨n, rfl, hhead⟩ := Option.bind_eq_some_iff.mp hchomp
    obtain ⟨c, hc, hsign⟩ := Option.bind_eq_some_iff.mp hhead
    obtain ⟨cs, rfl⟩ := List.head?_eq_some_iff.mp hc
    obtain ⟨rfl, rfl⟩ : _ = out ∧ cs = rest := by simpa using h
    exact ⟨[c], rfl, by simpa using isInk_of_chomp? hsign, fun tail _ ↦ by simp [sign?, hsign]⟩
  next hnone =>
    obtain ⟨rfl, rfl⟩ : _ = out ∧ cs = rest := by simpa using h
    refine ⟨[], rfl, by simp, fun tail htail ↦ ?_⟩
    rw [List.nil_append, sign?, htail.head?_eq, hnone]

/-- A header with its sign first. -/
theorem header?_of_chomp? {chomp : Chomp} (h : chomp? c = some chomp) (cs : List Char) :
    header? (c :: cs) = (indent? cs).map fun x ↦ (⟨chomp, x.1⟩, x.2) := by
  rw [header?, h]

/-- A header with its digit first. -/
theorem header?_of_none (h : ∀ c ∈ cs.head?, chomp? c = none) :
    header? cs = (indent? cs).bind fun x ↦ sign? x.1 x.2 := by
  cases cs with
  | nil => rfl
  | cons c cs =>
    rw [header?, h c rfl]
    rcases indent? (c :: cs) with _ | ⟨_ | n, _ | ⟨d, rest⟩⟩
    · rfl
    · rfl
    · rfl
    · rfl
    · cases hd : chomp? d <;> simp [sign?, hd]

/-- The header of a block scalar stands on one line. -/
theorem local_header? : CharLocal IsInk header? := by
  refine ⟨fun {cs out rest} h ↦ ?_⟩
  by_cases hsign : ∀ c ∈ cs.head?, chomp? c = none
  · rw [header?_of_none hsign] at h
    obtain ⟨used, rfl, hused, hlocal⟩ := (local_indent?.bind local_sign?).taken h
    refine ⟨used, rfl, hused, fun tail htail ↦ ?_⟩
    rw [header?_of_none ((htail.append_left used).head?_eq ▸ hsign)]
    exact hlocal tail htail
  · obtain ⟨c, cs, rfl, chomp, hchomp⟩ :
        ∃ c cs', cs = c :: cs' ∧ ∃ chomp, chomp? c = some chomp := by
      cases cs with
      | nil => exact absurd (by simp) hsign
      | cons c cs => exact ⟨c, cs, rfl, Option.ne_none_iff_exists'.mp (by simpa using hsign)⟩
    rw [header?_of_chomp? hchomp] at h
    obtain ⟨⟨indent, more⟩, hindent, heq⟩ := Option.map_eq_some_iff.mp h
    obtain ⟨rfl, rfl⟩ := Prod.mk.inj heq
    obtain ⟨used, rfl, hused, hlocal⟩ := local_indent?.taken hindent
    refine ⟨c :: used, rfl, List.forall_mem_cons.mpr ⟨isInk_of_chomp? hchomp, hused⟩,
      fun tail htail ↦ ?_⟩
    rw [List.cons_append, header?_of_chomp? hchomp, hlocal tail htail]
    rfl

/-- Empty lines are read up to the line with content behind them. -/
theorem local_readBlank (limit : Option Nat) (breaks : List Char) (deepest : Nat) :
    PlaceLocal fun here ↦
      (readBlank limit here.rest breaks deepest here.line here.column).map fun x ↦
        ((x.1, x.2.1), x.2.2) := by
  refine ⟨fun {here next out} h ↦ ?_⟩
  obtain ⟨⟨breaks', deepest', stop⟩, hread, heq⟩ := Option.map_eq_some_iff.mp h
  obtain ⟨rfl, rfl⟩ := Prod.mk.inj heq
  obtain ⟨cs, line, column⟩ := here
  simp only at hread ⊢
  clear h heq
  induction cs generalizing breaks deepest line column with
  | nil =>
    obtain ⟨rfl, rfl, rfl⟩ := by simpa [readBlank] using hread
    refine ⟨[], 0, rfl, rfl, fun tail line htail ↦ ?_⟩
    cases htail
    rfl
  | cons c cs ih =>
    rw [readBlank] at hread
    by_cases hbreak : isBreak c = true
    · rw [if_pos hbreak] at hread
      obtain ⟨used, lines, rfl, hline, hlocal⟩ := ih _ _ _ _ hread
      refine ⟨c :: used, lines + 1, rfl, by omega, fun tail line' htail ↦ ?_⟩
      rw [List.cons_append, readBlank, if_pos hbreak, hlocal tail _ htail, Nat.add_right_comm,
        Nat.add_assoc]
    rw [if_neg hbreak] at hread
    by_cases hspace : c = ' ' ∧ limit.all (column < ·) = true
    · rw [if_pos hspace] at hread
      obtain ⟨used, lines, rfl, hline, hlocal⟩ := ih _ _ _ _ hread
      refine ⟨c :: used, lines, rfl, hline, fun tail line' htail ↦ ?_⟩
      rw [List.cons_append, readBlank, if_neg hbreak, if_pos hspace, hlocal tail _ htail]
    rw [if_neg hspace] at hread
    by_cases htab : c = '\t' ∧ limit.all (column < ·) = true
    · rw [if_pos htab] at hread
      exact absurd hread (by simp)
    rw [if_neg htab] at hread
    obtain ⟨rfl, rfl, rfl⟩ : breaks = breaks' ∧ max deepest column = deepest' ∧
        (⟨c :: cs, line, column⟩ : Cursor) = stop := by simpa using hread
    refine ⟨[], 0, rfl, rfl, fun tail line' htail ↦ ?_⟩
    obtain ⟨tail, rfl, -⟩ := htail.exists_cons
    rw [List.nil_append, readBlank, if_neg hbreak, if_neg hspace, if_neg htab]
    rfl

/-- The place where the next line goes on, with the breaks of the empty lines in front of it and the
deepest column of these. -/
def nextContent (limit : Option Nat) (here : Cursor) : Option ((List Char × Nat) × Cursor) :=
  (readBlank limit here.endLine.rest [] 0 here.endLine.line here.endLine.column).map fun x ↦
    ((x.1, x.2.1), x.2.2)

/-- The next line with content is found without a look behind it. -/
theorem local_nextContent (limit : Option Nat) : PlaceLocal (nextContent limit) := by
  have hblank : ∀ _ : Unit, PlaceLocal fun here ↦
      (readBlank limit here.rest [] 0 here.line here.column).map fun x ↦ ((x.1, x.2.1), x.2.2) :=
    fun _ ↦ local_readBlank limit [] 0
  exact PlaceLocal.endLine.bind hblank

/-- What stands between the text so far and a line. -/
def joint (folded : Bool) (lead blank line : List Char) (spaced : Bool) : List Char :=
  if folded && lead == ['\n'] && !spaced && !line.head?.any isGap then
    if blank.isEmpty then [' '] else []
  else lead

section Lines

variable {folded : Bool} {chomp : Chomp} {indent : Nat} {text lead blank : List Char}
  {spaced : Bool} {here next : Cursor} {out : List Char}

def lineOf (cs : List Char) : List Char := cs.takeWhile (!isBreak ·)

/-- A block scalar ends at a line with another indentation, and at the end of the text. -/
theorem readLines_stop (h : here.column ≠ indent ∨ (lineOf here.rest).isEmpty) :
    readLines folded chomp indent text lead blank spaced here =
      some (text ++ (if chomp = .strip then [] else lead) ++ (if chomp = .keep then blank else []),
        here) := by
  rw [readLines]
  exact if_pos h

/-- A line of a block scalar, with what joins it to the text in front of it. -/
theorem readLines_line (h : ¬(here.column ≠ indent ∨ (lineOf here.rest).isEmpty)) :
    readLines folded chomp indent text lead blank spaced here =
      (nextContent (some indent) (here.skip (lineOf here.rest).length)).bind fun x ↦
        if x.2.rest.length < here.rest.length then
          readLines folded chomp indent
            (text ++ joint folded lead blank (lineOf here.rest) spaced ++ blank ++ lineOf here.rest)
            ((here.skip (lineOf here.rest).length).rest.take 1) x.1.1
            ((lineOf here.rest).head?.any isGap) x.2
        else none := by
  rw [readLines]
  simp only [lineOf] at h ⊢
  rw [if_neg h, nextContent]
  cases readBlank (some indent) (here.skip (here.rest.takeWhile (!isBreak ·)).length).endLine.rest
    [] 0
      (here.skip (here.rest.takeWhile (!isBreak ·)).length).endLine.line
      (here.skip (here.rest.takeWhile (!isBreak ·)).length).endLine.column with
  | none => rfl
  | some found => rfl

/-- The lines of a block scalar are read up to the line behind them. -/
theorem local_readLines : PlaceLocal (readLines folded chomp indent text lead blank spaced) := by
  refine ⟨fun {here next out} h ↦ ?_⟩
  induction hlength : here.rest.length using Nat.strongRecOn
    generalizing here text lead blank spaced with
  | ind length ih =>
    have hbreak : ∀ c, isBreak c → (!isBreak c) = false := fun c hc ↦ by simp [hc]
    by_cases hstop : here.column ≠ indent ∨ (lineOf here.rest).isEmpty
    · rw [readLines_stop hstop] at h
      obtain ⟨rfl, rfl⟩ := Prod.mk.inj (Option.some.inj h)
      refine ⟨[], 0, rfl, rfl, fun tail line htail ↦ ?_⟩
      have hline : lineOf tail = lineOf here.rest := htail.takeWhile_eq hbreak
      exact readLines_stop (by rwa [List.nil_append, hline])
    · rw [readLines_line hstop] at h
      obtain ⟨⟨⟨breaks, deepest⟩, start⟩, hcontent, hmore⟩ := Option.bind_eq_some_iff.mp h
      simp only at hmore
      split at hmore
      next hshort =>
        obtain ⟨space, lines, hspace, hline, hlocal⟩ := (local_nextContent _).taken hcontent
        obtain ⟨used, lines', hused, hline', hlocal'⟩ := ih _ (hlength ▸ hshort) hmore rfl
        have hsplit : here.rest = lineOf here.rest ++ (space ++ (used ++ next.rest)) := by
          rw [← hused, ← hspace, Cursor.skip, lineOf, Scan.drop_length_takeWhile,
            List.takeWhile_append_dropWhile]
        refine ⟨lineOf here.rest ++ (space ++ used), lines + lines', by simpa using hsplit,
          by simp only [Cursor.skip] at hline; omega, fun tail line htail ↦ ?_⟩
        have hstart : SameLine start.rest (used ++ tail) := hused ▸ htail.append_left used
        have hbehind : SameLine (space ++ (used ++ next.rest)) (space ++ (used ++ tail)) :=
          (htail.append_left used).append_left space
        have hline : lineOf (lineOf here.rest ++ (space ++ (used ++ tail))) = lineOf here.rest := by
          have hsame := hbehind.append_left (lineOf here.rest)
          rw [← hsplit] at hsame
          exact hsame.takeWhile_eq hbreak
        have hskip : Cursor.skip (lineOf here.rest).length
            ⟨lineOf here.rest ++ (space ++ (used ++ tail)), line, here.column⟩ =
            ⟨space ++ (used ++ tail), line, here.column + (lineOf here.rest).length⟩ := by
          rw [Cursor.skip, List.drop_left]
        have hcontent' := hlocal _ line hstart
        have hfirst : (space ++ (used ++ tail)).take 1 =
            (here.skip (lineOf here.rest).length).rest.take 1 := by
          rw [hspace, hused]
          exact hbehind.take_one_eq
        have hshort' : (used ++ tail).length <
            (lineOf here.rest ++ (space ++ (used ++ tail))).length := by
          rw [hused, hsplit] at hshort
          simp only [List.length_append] at hshort ⊢
          omega
        simp only [List.append_assoc] at hcontent' ⊢
        rw [readLines_line (by simpa only [hline] using hstop)]
        simp only [hline, hskip]
        rw [show here.column + (lineOf here.rest).length =
          (here.skip (lineOf here.rest).length).column from rfl, hcontent']
        simp only [Option.bind_some, if_pos hshort', hfirst]
        rw [hlocal' tail _ htail, Nat.add_assoc]
      next => exact absurd hmore (by simp)

end Lines

/-- The line of the header, behind `|` or `>`. -/
def headerLine (here : Cursor) : Option (Header × Cursor) :=
  ((header? here.rest).map fun x ↦ (x.1, here.skip (here.rest.length - x.2.length))).bind fun x ↦
    (lineTail? x.2).bind fun y ↦ some (x.1, y.2)

/-- The header and the comment behind it are passed over with the end of their line. -/
theorem local_headerLine : PlaceLocal headerLine :=
  (PlaceLocal.ofChars local_header?).bind
    (g := fun header here ↦ (lineTail? here).bind fun y ↦ some (header, y.2))
    fun header ↦ local_lineTail?.bind fun _ ↦ .pure header

/-- A block scalar is its header, empty lines that may tell its indentation, and its lines. -/
theorem read_eq (folded : Bool) (base margin : Nat) {here : Cursor} (h : here.rest = c :: cs) :
    read folded base margin here = (headerLine (here.skip 1)).bind fun x ↦
      (nextContent (x.1.indent.map (base + ·)) x.2).bind fun y ↦
        readLines folded x.1.chomp
          ((x.1.indent.map (base + ·)).getD (max (max y.1.2 margin) 1)) [] [] y.1.1 false y.2 := by
  have hdrop : (here.skip 1).rest = cs := by simp [Cursor.skip, h]
  rw [read, headerLine, hdrop, h, List.drop_one, List.tail_cons]
  cases hheader : header? cs with
  | none => rfl
  | some found =>
    obtain ⟨header, rest⟩ := found
    have hskip : here.skip ((c :: cs).length - rest.length) =
        (here.skip 1).skip (cs.length - rest.length) := by
      have hle := local_header?.length_le hheader
      have hlength : (c :: cs).length - rest.length = 1 + (cs.length - rest.length) := by
        simp only [List.length_cons]
        omega
      simp only [Cursor.skip, List.drop_drop, hlength, Nat.add_assoc]
    simp only [Option.bind_eq_bind, Option.bind_some, Option.map_some, hskip, lineTail?,
      nextContent]
    generalize ((here.skip 1).skip (cs.length - rest.length)).skipWhile isGap = gap
    generalize (if (gap.rest.head? == some '#') = true then gap.skipWhile (!isBreak ·) else gap) =
      mid
    cases atLineEnd mid.rest with
    | false => rfl
    | true =>
      rw [if_neg (by decide), if_pos rfl, Option.bind_some, Option.bind_some, Option.bind_map]
      rfl

/-- What is read as a block scalar is read the same whatever follows the line behind it. -/
theorem taken_read {folded : Bool} {base margin : Nat} {here next : Cursor} {out : List Char}
    (h : read folded base margin here = some (out, next)) (hrest : here.rest = c :: cs) :
    ∃ used lines, here.rest = c :: (used ++ next.rest) ∧ next.line = here.line + lines ∧
      ∀ tail line, SameLine next.rest tail →
        read folded base margin ⟨c :: (used ++ tail), line, here.column⟩ =
          some (out, ⟨tail, line + lines, next.column⟩) := by
  have hbody (header : Header) : PlaceLocal fun here ↦
      (nextContent (header.indent.map (base + ·)) here).bind fun y ↦
        readLines folded header.chomp
          ((header.indent.map (base + ·)).getD (max (max y.1.2 margin) 1)) [] [] y.1.1 false y.2 :=
    (local_nextContent _).bind
      (g := fun x here ↦ readLines folded header.chomp
        ((header.indent.map (base + ·)).getD (max (max x.2 margin) 1)) [] [] x.1 false here)
      fun _ ↦ local_readLines
  rw [read_eq folded base margin hrest] at h
  obtain ⟨used, lines, hused, hline, hlocal⟩ := (local_headerLine.bind hbody).taken h
  simp only [Cursor.skip, hrest, List.drop_one, List.tail_cons] at hused hline hlocal
  refine ⟨used, lines, by rw [hrest, hused], hline, fun tail line htail ↦ ?_⟩
  rw [read_eq folded base margin rfl, ← hlocal tail line htail]
  rfl

end Block

end AlertAudit.Yaml
