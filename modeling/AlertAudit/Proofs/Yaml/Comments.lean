import AlertAudit.Proofs.Yaml.Comments.Scalars
import AlertAudit.Proofs.Yaml.Locality.Runs
import AlertAudit.Text.Blank

/-!
Comments between the lines of a YAML text. A comment on a line of its own in front of a line that
begins with a token leaves all tokens as they are (`Token.ofText?_comment`). The scan of the text
with the comment makes the same steps up to the last token above; that one, or the white space
behind it, reaches to the comment in one text and to the token below in the other; from there on
only the lines are counted differently.
-/

set_option autoImplicit false

namespace AlertAudit.Yaml

open AlertAudit.Text

variable {c d : Char} {cs ds above behind below tail text : List Char} {column indent : Nat}

namespace Scan

variable {s t u next : Scan}

/-- A scan comes to a token that begins at some place. -/
inductive Comes : Scan → Scan → Prop
  | here {s t : Scan} (h : s.skipSpace.dropStale = some t) : Comes s t
  | behind {s u next t : Scan} {c : Char} {cs : List Char}
      (hspace : s.skipSpace.dropStale = some u) (hrest : u.here.rest = c :: cs)
      (htoken : (u.closeTo (some u.here.column)).token c cs = some next)
      (hbefore : t.here.rest ≠ u.here.rest) (h : Comes next t) : Comes s t

/-! ### Space -/

/-- Spaces are passed over one by one. -/
theorem go_spaces (s : Scan) (n : Nat) (cs : List Char) (line column : Nat) (allowed : Bool) :
    skipSpace.go s (List.replicate n ' ' ++ cs) line column allowed false =
      skipSpace.go s cs line (column + n) allowed false := by
  induction n generalizing column with
  | zero => rfl
  | succ n ih =>
    rw [List.replicate_succ, List.cons_append, skipSpace.go, if_neg (by decide), if_neg (by simp),
      if_neg (by decide), if_pos (by simp), ih, Nat.add_assoc, Nat.add_comm 1]

/-- A comment is passed over with the end of its line. -/
theorem go_hash (htext : ∀ d ∈ text, isBreak d = false) (s : Scan) (cs : List Char)
    (line column : Nat) (allowed : Bool) :
    skipSpace.go s ('#' :: (text ++ '\n' :: cs)) line column allowed false =
      skipSpace.go s cs (line + 1) 0 (allowed || !s.inFlow) false := by
  have hskip (column : Nat) : skipSpace.go s (text ++ '\n' :: cs) line column allowed true =
      skipSpace.go s cs (line + 1) 0 (allowed || !s.inFlow) false := by
    induction text generalizing column with
    | nil => rw [List.nil_append, skipSpace.go, if_pos (by decide)]
    | cons d text ih =>
      obtain ⟨hd, htext⟩ := List.forall_mem_cons.mp htext
      rw [List.cons_append, skipSpace.go, if_neg (by simp [hd]), if_pos rfl, ih htext]
  rw [skipSpace.go, if_neg (by decide), if_neg (by simp), if_pos rfl, hskip]

/-- A character in a line is passed over, or a token begins there. -/
theorem go_cons (hbreak : isBreak c = false) (line column : Nat) (allowed comment : Bool) :
    (∃ comment', ∀ cs, skipSpace.go s (c :: cs) line column allowed comment =
        skipSpace.go s cs line (column + 1) allowed comment') ∨
      ∀ cs, skipSpace.go s (c :: cs) line column allowed comment =
        { s with here := ⟨c :: cs, line, column⟩, keyAllowed := allowed } := by
  simp only [skipSpace.go, hbreak, Bool.false_eq_true, if_false]
  split_ifs
  · exact .inl ⟨true, fun _ ↦ rfl⟩
  · exact .inl ⟨true, fun _ ↦ rfl⟩
  · exact .inl ⟨false, fun _ ↦ rfl⟩
  · exact .inr fun _ ↦ rfl

/-- Either a token begins between some lines, or all of them are skipped. -/
theorem go_lines (line column : Nat) (allowed comment : Bool) (habove : IsWhole above)
    (hnil : above = [] → column = 0 ∧ comment = false ∧ (allowed || !s.inFlow) = allowed) :
    (∃ used behind line' column' allowed', above = used ++ behind ∧ behind ≠ [] ∧ line ≤ line' ∧
        ∀ tail, skipSpace.go s (above ++ tail) line column allowed comment =
          { s with here := ⟨behind ++ tail, line', column'⟩, keyAllowed := allowed' }) ∨
      ∃ line' allowed', line ≤ line' ∧ (above ≠ [] → line < line') ∧
        (allowed' || !s.inFlow) = allowed' ∧
        ∀ tail, skipSpace.go s (above ++ tail) line column allowed comment =
          skipSpace.go s tail line' 0 allowed' false := by
  induction above generalizing line column allowed comment with
  | nil =>
    obtain ⟨rfl, rfl, hallowed⟩ := hnil rfl
    exact .inr ⟨line, allowed, Nat.le_refl _, fun h ↦ absurd rfl h, hallowed, fun _ ↦ rfl⟩
  | cons c above ih =>
    have hends : IsWhole above := habove.tail
    by_cases hbreak : isBreak c = true
    · have hgo (tail : List Char) :
          skipSpace.go s (c :: above ++ tail) line column allowed comment =
          skipSpace.go s (above ++ tail) (line + 1) 0 (allowed || !s.inFlow) false := by
        rw [List.cons_append, skipSpace.go, if_pos hbreak]
      have hallowed : ((allowed || !s.inFlow) || !s.inFlow) = (allowed || !s.inFlow) := by
        rw [Bool.or_assoc, Bool.or_self]
      rcases ih (line + 1) 0 _ false hends fun _ ↦ ⟨rfl, rfl, hallowed⟩ with
        ⟨used, behind, line', column', allowed', rfl, hne, hle, hread⟩ |
        ⟨line', allowed', hle, -, hallowed', hread⟩
      · exact .inl ⟨c :: used, behind, line', column', allowed', rfl, hne, by omega,
          fun tail ↦ (hgo tail).trans (hread tail)⟩
      · exact .inr ⟨line', allowed', by omega, fun _ ↦ by omega, hallowed',
          fun tail ↦ (hgo tail).trans (hread tail)⟩
    · have hmore : above ≠ [] := by
        rintro rfl
        obtain rfl := habove.eq_newline
        exact hbreak (by decide)
      rcases go_cons (s := s) (by simpa using hbreak) line column allowed comment with
        ⟨comment', hgo⟩ | hgo
      · rcases ih line (column + 1) allowed comment' hends fun hnil ↦ absurd hnil hmore with
          ⟨used, behind, line', column', allowed', rfl, hne, hle, hread⟩ |
          ⟨line', allowed', hle, hlt, hallowed', hread⟩
        · exact .inl ⟨c :: used, behind, line', column', allowed', rfl, hne, hle,
            fun tail ↦ (hgo _).trans (hread tail)⟩
        · exact .inr ⟨line', allowed', hle, fun _ ↦ hlt hmore, hallowed',
            fun tail ↦ (hgo _).trans (hread tail)⟩
      · exact .inl ⟨[], c :: above, line, column, allowed, rfl, by simp, Nat.le_refl _,
          fun tail ↦ hgo _⟩

/-! ### The token below -/

/-- The scan one line further down in a longer text. -/
def pushed (longer : Nat) (s : Scan) : Scan :=
  { s.moved longer 0 s.here.rest with here := ⟨s.here.rest, s.here.line + 1, s.here.column⟩ }

/-- A character that begins a token is no white space. -/
theorem isInk_of_startsToken (h : startsToken c) : IsInk c := by
  simp only [startsToken, Bool.and_eq_true, Bool.not_eq_true'] at h
  exact h.1.1

/-- What is cut off a line in front of its content are spaces. -/
theorem spaces_of_indented {front rest : List Char} (h : indented column cs = front ++ rest)
    (hle : cs.length ≤ rest.length) : (∀ d ∈ front, d = ' ') ∧ ∃ n, rest = indented n cs := by
  rcases List.append_eq_append_iff.mp h with ⟨more, rfl, hcs⟩ | ⟨more, hspaces, rfl⟩
  · obtain rfl : more = [] := List.length_eq_zero_iff.mp (by
      have hlength := congrArg List.length hcs
      rw [List.length_append] at hlength
      omega)
    exact ⟨fun d hd ↦ List.eq_of_mem_replicate (by simpa using hd), 0, hcs.symm⟩
  · have hreplicate : ∀ d ∈ front ++ more, d = ' ' := fun d hd ↦
      List.eq_of_mem_replicate (hspaces ▸ hd)
    obtain ⟨hfront, hmore⟩ := List.forall_mem_append.mp hreplicate
    exact ⟨hfront, more.length, congrArg (· ++ cs) (List.eq_replicate_iff.mpr ⟨rfl, hmore⟩)⟩

/-- A colon comes too late for a key on a line further up. -/
theorem isStale_of_lt {k : KeyPlace} {here : Cursor} (h : k.line < here.line) :
    k.isStale here = true := by
  simp [KeyPlace.isStale, h]

/-- Places of keys on other lines are given up, and then the scan is that of lines counted from
further up. -/
theorem dropStale_pushed (longer : Nat) (h : u.dropStale = some t)
    (hkeys : ∀ k ∈ u.keyPlace, k.line < u.here.line) (hflow : t.inFlow = false) :
    (u.pushed longer).dropStale = some (t.moved 0 1 t.here.rest) := by
  rw [dropStale_eq] at h
  split at h
  · exact absurd h (by simp)
  next hkept =>
    obtain rfl := Option.some.inj h
    obtain ⟨here, found, levels, keyPlace, outerKeys, allowed⟩ := u
    obtain rfl : outerKeys = [] := by simpa [inFlow] using hflow
    cases keyPlace with
    | none => rfl
    | some k =>
      have hk : k.line < here.line := hkeys k rfl
      have hstale := isStale_of_lt hk
      have hrequired : k.required = false := by simpa [lost, hstale] using hkept
      have hstale' : (k.moved longer 0).isStale ⟨here.rest, here.line + 1, here.column⟩ = true :=
        isStale_of_lt (Nat.lt_succ_of_lt hk)
      have hrequired' : (k.moved longer 0).required = false := hrequired
      simp [dropStale_eq, pushed, moved, lost, fresh, hstale, hstale', hrequired']

/-- A scan that is one line further down behind its white space comes to the same tokens. -/
theorem run_of_pushed {s' : Scan} {ts : List Token} (longer : Nat)
    (hle : s.here.rest.length ≤ s'.here.rest.length)
    (hspace : s'.skipSpace = s.skipSpace.pushed longer) (ht : s.skipSpace.dropStale = some t)
    (hkeys : ∀ k ∈ s.skipSpace.keyPlace, k.line < s.skipSpace.here.line) (hflow : t.inFlow = false)
    (h : s.run = some ts) : s'.run = some ts := by
  rw [run_eq] at h ⊢
  rw [ht, Option.bind_some] at h
  rw [hspace, dropStale_pushed longer ht hkeys hflow, Option.bind_some]
  exact resume_moved hle h 1

/-! ### The token above -/

/-- The text from a comment on. -/
def commented (indent : Nat) (text below : List Char) : List Char :=
  indented indent ('#' :: (text ++ '\n' :: below))

/-- The number of characters of a comment and the line break behind it. -/
def commentLength (indent : Nat) (text : List Char) : Nat := indent + (text.length + 2)

/-- A comment adds its own characters to the text. -/
theorem length_commented (indent : Nat) (text below : List Char) :
    (commented indent text below).length = below.length + commentLength indent text := by
  simp [commented, indented, commentLength]
  omega

section Comment

variable (hc : startsToken c) (htext : ∀ d ∈ text, isBreak d = false) (hindent : indent ≤ column)

include hc htext in
/-- The white space in front of a comment either ends in front of it or goes on behind it, and in
both cases the scan is known from that without the comment. -/
theorem skipSpace_commented (habove : IsWhole above)
    (hrest : s.here.rest = above ++ indented column (c :: cs))
    (hnil : above = [] → s.here.column = 0 ∧ (s.keyAllowed || !s.inFlow) = s.keyAllowed) :
    (∃ used behind, above = used ++ behind ∧ behind ≠ [] ∧
        s.skipSpace.here.rest = behind ++ indented column (c :: cs) ∧
        s.here.line ≤ s.skipSpace.here.line ∧
        (s.moved (commentLength indent text) 0
            (above ++ commented indent text (indented column (c :: cs)))).skipSpace =
          s.skipSpace.moved (commentLength indent text) 0
            (behind ++ commented indent text (indented column (c :: cs)))) ∨
      s.skipSpace.here.rest = c :: cs ∧ (above ≠ [] → s.here.line < s.skipSpace.here.line) ∧
        (s.moved (commentLength indent text) 0
            (above ++ commented indent text (indented column (c :: cs)))).skipSpace =
          s.skipSpace.pushed (commentLength indent text) := by
  have hspace : s.skipSpace =
      skipSpace.go s (above ++ indented column (c :: cs)) s.here.line s.here.column s.keyAllowed
        false := by
    rw [skipSpace, hrest]
  have hspace' : (s.moved (commentLength indent text) 0
      (above ++ commented indent text (indented column (c :: cs)))).skipSpace = _ :=
    go_moved s _ 0 _ (above ++ commented indent text (indented column (c :: cs))) s.here.line
      s.here.column s.keyAllowed false
  rcases go_lines (s := s) s.here.line s.here.column s.keyAllowed false habove
      fun h ↦ ⟨(hnil h).1, rfl, (hnil h).2⟩ with
    ⟨used, behind, line, column', allowed, rfl, hne, hle, hread⟩ |
    ⟨line, allowed, hle, hlt, hallowed, hread⟩
  · rw [hread] at hspace hspace'
    exact .inl ⟨used, behind, rfl, hne, by rw [hspace], by rw [hspace]; exact hle,
      by rw [hspace', hspace]; rfl⟩
  · have hbelow (line : Nat) : skipSpace.go s (indented column (c :: cs)) line 0 allowed false =
        { s with here := ⟨c :: cs, line, column⟩, keyAllowed := allowed } := by
      rw [indented, go_replicate s hc, Nat.zero_add]
    have hcomment :
        skipSpace.go s (commented indent text (indented column (c :: cs))) line 0 allowed
        false = { s with here := ⟨c :: cs, line + 1, column⟩, keyAllowed := allowed } := by
      rw [commented, indented, go_spaces, go_hash htext, hallowed, hbelow]
    rw [hread, hbelow] at hspace
    rw [hread, hcomment] at hspace'
    exact .inr ⟨by rw [hspace], by rw [hspace]; exact hlt, by rw [hspace', hspace]; rfl⟩

/-- The scan at a comment that stands in front of where it is. -/
def atComment (indent : Nat) (text below : List Char) (s : Scan) : Scan :=
  { s.moved (commentLength indent text) 0 [] with
    here := ⟨'#' :: (text ++ '\n' :: below), s.here.line, indent⟩ }

/-- A reader that stops at a comment where it stops at the token below without that. -/
def StopsAt (indent column : Nat) (text behind cs : List Char)
    (read : Cursor → Option ((Token × Bool) × Cursor)) : Prop :=
  ∀ {here next : Cursor} {out : Token × Bool}, here.rest = behind ++ indented column cs →
    read here = some (out, next) → next.rest.length ≤ (indented column cs).length →
      cs.length ≤ next.rest.length →
        out.2 = true ∧ next = ⟨cs, next.line, column⟩ ∧ here.line < next.line ∧
          read ⟨behind ++ commented indent text (indented column cs), here.line, here.column⟩ =
            some (out, ⟨'#' :: (text ++ '\n' :: indented column cs), next.line, indent⟩)

/-- A token that stops at the comment is the one that stops at the token below without it. -/
theorem takeToken_commented {prepare : Scan → Option Scan}
    {read : Scan → Cursor → Option ((Token × Bool) × Cursor)} (hprepare : Steady prepare)
    (hmoved : ∀ s longer lower tail, read (s.moved longer lower tail) = read s)
    (hread : ∀ s, StopsAt indent column text behind cs (read s))
    (hrest : s.here.rest = behind ++ indented column cs)
    (h : ((prepare s).bind fun s ↦ s.takeToken (read s)) = some next)
    (hnext : next.here.rest.length ≤ (indented column cs).length)
    (hlength : cs.length ≤ next.here.rest.length) :
    next.keyAllowed = true ∧ next.here = ⟨cs, next.here.line, column⟩ ∧
      s.here.line < next.here.line ∧
      ((prepare (s.moved (commentLength indent text) 0
        (behind ++ commented indent text (indented column cs)))).bind fun s ↦
          s.takeToken (read s)) =
          some (next.atComment indent text (indented column cs)) := by
  obtain ⟨ready, hready, htake⟩ := Option.bind_eq_some_iff.mp h
  obtain ⟨⟨out, stop⟩, hstop, rfl⟩ := Option.map_eq_some_iff.mp htake
  have hhere := hprepare.here hready
  obtain ⟨hallowed, hplace, hlt, hcomment⟩ :=
    hread ready (hhere ▸ hrest) hstop hnext hlength
  refine ⟨hallowed, hplace, hhere ▸ hlt, ?_⟩
  have hlonger : (behind ++ commented indent text (indented column cs)).length =
      s.here.rest.length + commentLength indent text := by
    rw [hrest, List.length_append, List.length_append, length_commented, Nat.add_assoc]
  rw [hprepare.moved _ 0 _ hlonger hready, Option.bind_some, takeToken, hmoved, moved_here,
    Nat.add_zero, hcomment]
  rfl

include hc hindent in
/-- The last token in front of the comment is taken with the comment as it is without. -/
theorem token_commented (hbehind : IsWhole behind) (hne : behind ≠ [])
    (hrest : s.here.rest = behind ++ indented column (c :: cs)) (hcons : s.here.rest = d :: ds)
    (h : s.token d ds = some next)
    (hnext : next.here.rest.length ≤ (indented column (c :: cs)).length)
    (hlength : (c :: cs).length ≤ next.here.rest.length) :
    (next.keyAllowed = false ∧ ∃ n, next.here.rest = indented n (c :: cs)) ∨
      next.keyAllowed = true ∧ next.here = ⟨c :: cs, next.here.line, column⟩ ∧
        s.here.line < next.here.line ∧
        ∃ ds', behind ++ commented indent text (indented column (c :: cs)) = d :: ds' ∧
          (s.moved (commentLength indent text) 0 (d :: ds')).token d ds' =
            some (next.atComment indent text (indented column (c :: cs))) := by
  obtain ⟨used, lines, hused, -, hclosed, -⟩ := taken_token hcons h
  obtain ⟨front, rfl, hfront⟩ := split_of_le (hrest.symm.trans hused) hnext
  obtain ⟨hspaces, n, hline⟩ := spaces_of_indented hfront hlength
  have hink := isInk_of_token hcons h
  have hsame : SameLine (d :: ds) (behind ++ commented indent text (indented column (c :: cs))) :=
    hcons ▸ hrest ▸ .append_right (hbehind.getLast?_eq hne) _ _
  obtain ⟨ds', hds', -⟩ := hsame.exists_cons
  have hstep : (s.moved (commentLength indent text) 0 (d :: ds')).token d ds' =
      (step d ds s).2 (s.moved (commentLength indent text) 0 (d :: ds')) := by
    rw [token_eq_step, step_moved hink hcons (hds' ▸ hsame)]
  rw [token_eq_step] at h
  rcases endsKnown_step d ds s with hclosed' | hdirective | hplain | ⟨folded, hblock⟩
  -- A token that ends with a character does not end behind a line break.
  · have hlast := hclosed hclosed'
    rw [List.getLast?_append] at hlast
    cases hend : front.getLast? with
    | none =>
      rw [hend, Option.none_or, hbehind.getLast?_eq hne] at hlast
      exact absurd (hlast '\n' rfl) (by decide)
    | some e =>
      obtain rfl := hspaces e (List.mem_of_getLast? hend)
      rw [hend, Option.some_or] at hlast
      exact absurd (hlast ' ' rfl) (by decide)
  · rw [hdirective, directive_eq hcons] at h
    obtain ⟨ready, -, htake⟩ := Option.bind_eq_some_iff.mp h
    obtain ⟨out, hread, rfl⟩ := Option.map_eq_some_iff.mp htake
    obtain ⟨token, -, rfl⟩ := Option.map_eq_some_iff.mp hread
    exact .inl ⟨rfl, n, hline⟩
  · rw [hplain, plain_eq] at h hstep
    have hread (s : Scan) : StopsAt indent column text behind (c :: cs) fun here ↦
        (Plain.read s.inFlow s.margin here).map fun x ↦
          ((.scalar true (String.ofList x.1), x.2.1), x.2.2) := by
      intro here next out hrest h hnext hlength
      obtain ⟨⟨word, broken, stop⟩, hread, heq⟩ := Option.map_eq_some_iff.mp h
      obtain ⟨rfl, rfl⟩ := Prod.mk.inj heq
      obtain ⟨rfl, hplace, hlt, hcomment⟩ :=
        Plain.read_comment (isInk_of_startsToken hc) hbehind hne hrest hread hnext hlength
          (text ++ '\n' :: indented column (c :: cs))
      exact ⟨rfl, hplace, hlt, Option.map_eq_some_iff.mpr ⟨_, hcomment, rfl⟩⟩
    obtain ⟨hallowed, hplace, hlt, hcomment⟩ := takeToken_commented steady_markKey
      (fun _ _ _ _ ↦ by rw [moved_inFlow, moved_margin]) hread hrest h hnext hlength
    rw [hds'] at hcomment
    exact .inr ⟨hallowed, hplace, hlt, ds', hds', hstep.trans hcomment⟩
  · rw [hblock, block_eq] at h hstep
    obtain ⟨behind, rfl⟩ : ∃ more, behind = d :: more := by
      obtain ⟨e, more, rfl⟩ := List.exists_cons_of_ne_nil hne
      obtain ⟨rfl, -⟩ := List.cons.inj (hrest.symm.trans hcons)
      exact ⟨more, rfl⟩
    have hne' : behind ≠ [] := by
      rintro rfl
      obtain rfl := hbehind.eq_newline
      exact absurd hink (by decide)
    have hread (s : Scan) : StopsAt indent column text (d :: behind) (c :: cs) fun here ↦
        (Block.read folded (s.levels.headD 0) s.margin here).map fun x ↦
          ((.scalar false (String.ofList x.1), true), x.2) := by
      intro here next out hrest h hnext hlength
      obtain ⟨⟨word, stop⟩, hread, heq⟩ := Option.map_eq_some_iff.mp h
      obtain ⟨rfl, rfl⟩ := Prod.mk.inj heq
      obtain ⟨hplace, hlt, hcomment⟩ := Block.read_comment (isInk_of_startsToken hc) hindent
        hbehind.tail hne' hrest hread hnext hlength
        (text ++ '\n' :: indented column (c :: cs))
      exact ⟨rfl, hplace, hlt, Option.map_eq_some_iff.mpr ⟨_, hcomment, rfl⟩⟩
    obtain ⟨hallowed, hplace, hlt, hcomment⟩ := takeToken_commented steady_dropKey
      (fun _ _ _ _ ↦ rfl) hread hrest h hnext hlength
    rw [hds'] at hcomment
    exact .inr ⟨hallowed, hplace, hlt, ds', hds', hstep.trans hcomment⟩

/-! ### Runs -/

/-- To skip space changes the place, and whether a key may begin there. -/
theorem go_eq (s : Scan) (cs : List Char) (line column : Nat) (allowed comment : Bool) :
    ∃ here allowed', skipSpace.go s cs line column allowed comment =
      { s with here, keyAllowed := allowed' } := by
  induction cs generalizing line column allowed comment with
  | nil => exact ⟨_, _, rfl⟩
  | cons c cs ih =>
    rw [skipSpace.go]
    split_ifs
    · exact ih ..
    · exact ih ..
    · exact ih ..
    · exact ih ..
    · exact ⟨_, _, rfl⟩

/-- To skip space notes no places of keys. -/
theorem keysUpTo_skipSpace {line : Nat} (h : s.KeysUpTo line) : s.skipSpace.KeysUpTo line := by
  obtain ⟨here, allowed, heq⟩ := go_eq s s.here.rest s.here.line s.here.column s.keyAllowed false
  rw [skipSpace, heq]
  exact h

/-- A scan at the white space in front of a token comes to that token with its next step. -/
theorem Comes.dropStale_eq {n : Nat} (h : Comes s t) (hc : startsToken c)
    (hrest : s.here.rest = indented n (c :: cs)) (ht : t.here.rest = c :: cs) :
    s.skipSpace.dropStale = some t := by
  cases h with
  | here h => exact h
  | behind hspace hrest' htoken hbefore h =>
    have hplace := steady_dropStale.here hspace
    rw [skipSpace_replicate hc n cs hrest] at hplace
    rw [ht, hplace] at hbefore
    exact absurd rfl hbefore

/-- To skip space makes no text. -/
theorem length_go_le (s : Scan) (cs : List Char) (line column : Nat) (allowed comment : Bool) :
    (skipSpace.go s cs line column allowed comment).here.rest.length ≤ cs.length := by
  induction cs generalizing line column allowed comment with
  | nil => exact Nat.le_refl _
  | cons c cs ih =>
    rw [skipSpace.go]
    split_ifs
    · exact Nat.le_succ_of_le (ih ..)
    · exact Nat.le_succ_of_le (ih ..)
    · exact Nat.le_succ_of_le (ih ..)
    · exact Nat.le_succ_of_le (ih ..)
    · exact Nat.le_refl _

/-- A scan comes to a token behind what it has scanned. -/
theorem Comes.length_le (h : Comes s t) : t.here.rest.length ≤ s.here.rest.length := by
  have hskip (s : Scan) : s.skipSpace.here.rest.length ≤ s.here.rest.length :=
    length_go_le s s.here.rest s.here.line s.here.column s.keyAllowed false
  induction h with
  | @here s t h => exact steady_dropStale.here h ▸ hskip s
  | @behind s u next t c cs hspace hrest htoken hbefore h ih =>
    obtain ⟨used, -, hused, -⟩ :=
      taken_token (s := u.closeTo (some u.here.column)) (by rw [closeTo_here, hrest]) htoken
    have hlonger := congrArg List.length hused
    rw [closeTo_here, steady_dropStale.here hspace, List.length_append] at hlonger
    have hstart := hskip s
    omega

/-- To forget places of keys does not change whether a key may begin. -/
theorem keyAllowed_dropStale (h : s.dropStale = some t) : t.keyAllowed = s.keyAllowed := by
  rw [Scan.dropStale_eq] at h
  split at h
  · exact absurd h (by simp)
  · exact Option.some.inj h ▸ rfl

include hc htext in
/-- From the comment on the tokens are those from the token below. -/
theorem run_atComment {ts : List Token} (hplace : s.here = ⟨c :: cs, s.here.line, column⟩)
    (hallowed : s.keyAllowed = true) (hkeys : ∀ k ∈ s.keyPlace, k.line < s.here.line)
    (ht : s.skipSpace.dropStale = some t) (hflow : t.inFlow = false) (h : s.run = some ts) :
    (s.atComment indent text (indented column (c :: cs))).run = some ts := by
  have hrest : s.here.rest = c :: cs := by rw [hplace]
  have hspace : s.skipSpace = s := by
    rw [skipSpace_replicate hc 0 cs hrest, Nat.add_zero, ← hrest]
  have hcomment : (s.atComment indent text (indented column (c :: cs))).skipSpace =
      s.skipSpace.pushed (commentLength indent text) := by
    have hgo (w : Scan) : skipSpace.go w ('#' :: (text ++ '\n' :: indented column (c :: cs)))
        s.here.line indent true false =
          { w with here := ⟨c :: cs, s.here.line + 1, column⟩, keyAllowed := true } := by
      rw [go_hash htext, Bool.true_or, indented, go_replicate w hc, Nat.zero_add]
    have hstart : (s.atComment indent text (indented column (c :: cs))).keyAllowed = true :=
        hallowed
    rw [skipSpace, hstart, hspace, pushed, hplace]
    refine (hgo _).trans ?_
    rw [← hallowed]
    rfl
  refine run_of_pushed (commentLength indent text) ?_ hcomment ht ?_ hflow h
  · rw [hrest]
    simp [atComment, indented]
    omega
  · rwa [hspace]

include hc htext hindent in
/-- The step in front of the comment: it takes the same token, and the steps behind it are those
from the comment on, or come in front of the comment like itself. -/
theorem exists_token_commented {ts : List Token} {u next : Scan} {d : Char} {ds behind : List Char}
    {front : Nat} (hcons : u.here.rest = d :: ds)
    (htoken : (u.closeTo (some u.here.column)).token d ds = some next)
    (hbehind : u.here.rest = behind ++ indented column (c :: cs)) (hends : IsWhole behind)
    (hne : behind ≠ []) (hfront : behind.length ≤ front)
    (hshort : next.here.rest.length < front + (indented column (c :: cs)).length)
    (hkeys : u.KeysUpTo u.here.line) (hcomes : Comes next t) (ht : t.here.rest = c :: cs)
    (hflow : t.inFlow = false) (hallowed : t.keyAllowed = true) (h : next.run = some ts)
    (hmore : ∀ more, more ≠ [] → IsWhole more → next.here.rest = more ++ indented column (c :: cs) →
      next.KeysUpTo next.here.line → (next.moved (commentLength indent text) 0
        (more ++ commented indent text (indented column (c :: cs)))).run = some ts) :
    ∃ ds' next', behind ++ commented indent text (indented column (c :: cs)) = d :: ds' ∧
      ((u.closeTo (some u.here.column)).moved (commentLength indent text) 0 (d :: ds')).token
        d ds' =
        some next' ∧
      next'.here.rest.length <
        front + (commented indent text (indented column (c :: cs))).length ∧
      next'.run = some ts := by
  have hrest' : (u.closeTo (some u.here.column)).here.rest =
      behind ++ indented column (c :: cs) := by rw [closeTo_here, hbehind]
  have hcons' : (u.closeTo (some u.here.column)).here.rest = d :: ds := by rw [closeTo_here, hcons]
  have hnextKeys {line : Nat} (hle : u.here.line ≤ line) (hs : u.KeysUpTo line) :
      next.KeysUpTo line :=
    keysUpTo_token hcons' htoken (by rwa [closeTo_here]) ((steady_closeTo _).keysUpTo rfl hle hs)
  by_cases hwithin : next.here.rest.length ≤ (indented column (c :: cs)).length
  · have hlength : (c :: cs).length ≤ next.here.rest.length := ht ▸ hcomes.length_le
    rcases token_commented hc hindent hends hne hrest' hcons' htoken hwithin hlength with
      ⟨hfalse, n, hline'⟩ | ⟨hnext, hplace, hlt, ds', hds', htoken'⟩
    -- Behind a directive no key may begin on the same line.
    · have hkeyAllowed := keyAllowed_dropStale (hcomes.dropStale_eq hc hline' ht)
      rw [skipSpace_replicate hc n cs hline', hallowed] at hkeyAllowed
      exact absurd (hkeyAllowed.trans hfalse) (by decide)
    · refine ⟨ds', _, hds', htoken', ?_, run_atComment hc htext hplace hnext ?_
        (hcomes.dropStale_eq hc (n := 0) (by rw [hplace]; rfl) ht) hflow h⟩
      · have hpos := List.length_pos_of_ne_nil hne
        simp only [atComment, commented, indented, List.length_append, List.length_cons,
          List.length_replicate]
        omega
      · intro k hk
        rw [closeTo_here] at hlt
        exact Nat.lt_of_le_of_lt
          (hnextKeys (Nat.le_refl _) hkeys _ List.mem_cons_self k hk) hlt
  · obtain ⟨first, lines, hfirst, hlines, -, hlocal⟩ := taken_token hcons' htoken
    obtain ⟨more, hne', rfl, hrest''⟩ :=
      split_of_lt (hrest'.symm.trans hfirst) (Nat.lt_of_not_le hwithin)
    have hends' : IsWhole more := hends.of_append
    have hlonger' : (more ++ commented indent text (indented column (c :: cs))).length =
        next.here.rest.length + commentLength indent text := by
      rw [hrest'', List.length_append, List.length_append, length_commented, Nat.add_assoc]
    obtain ⟨ds', hds', htoken'⟩ := hlocal (commentLength indent text) 0
      (more ++ commented indent text (indented column (c :: cs)))
      (hrest'' ▸ .append_right (hends'.getLast?_eq hne') _ _) hlonger'
    have hbelowLine : u.here.line ≤ next.here.line := by
      rw [hlines, closeTo_here]
      exact Nat.le_add_right _ _
    have hkeysNext : next.KeysUpTo next.here.line := hnextKeys hbelowLine
      fun k hk place hplace ↦ Nat.le_trans (hkeys k hk place hplace) hbelowLine
    refine ⟨ds', _, by rw [List.append_assoc, hds'], htoken', ?_,
      hmore more hne' hends' hrest'' hkeysNext⟩
    rw [hrest''] at hshort
    rw [moved_here]
    simp only [List.length_append] at hshort ⊢
    omega

include hc htext hindent in
/-- A comment in front of a line that begins with a token, outside of brackets and where a key may
begin, leaves the tokens as they are. -/
theorem run_commented {ts : List Token} (hcomes : Comes s t) (ht : t.here.rest = c :: cs)
    (hflow : t.inFlow = false) (hallowed : t.keyAllowed = true) (habove : IsWhole above)
    (hrest : s.here.rest = above ++ indented column (c :: cs))
    (hnil : above = [] → s.here.column = 0 ∧ s.keyAllowed = true ∧ s.keyPlace = none)
    (hkeys : s.KeysUpTo s.here.line) (h : s.run = some ts) :
    (s.moved (commentLength indent text) 0
      (above ++ commented indent text (indented column (c :: cs)))).run = some ts := by
  have hbelow : (c :: cs).length ≤ (indented column (c :: cs)).length := by simp [indented]
  induction hcomes generalizing above with
  | @here s t hstale =>
    have hhere := steady_dropStale.here hstale
    rcases skipSpace_commented hc htext habove hrest
        fun hnil' ↦ ⟨(hnil hnil').1, by rw [(hnil hnil').2.1]; rfl⟩ with
      ⟨used, behind, -, hne, hspace, -, -⟩ | ⟨-, hlt, hspace⟩
    · have hpos := List.length_pos_of_ne_nil hne
      have hlength := congrArg List.length (hspace.symm.trans (hhere ▸ ht))
      rw [List.length_append] at hlength
      omega
    · refine run_of_pushed _ ?_ hspace hstale (fun k hk ↦ ?_) hflow h
      · rw [moved_here, hrest, List.length_append, List.length_append, length_commented]
        omega
      · obtain ⟨here, allowed, heq⟩ :=
          go_eq s s.here.rest s.here.line s.here.column s.keyAllowed false
        have hplace : s.skipSpace.keyPlace = s.keyPlace := by rw [skipSpace, heq]
        rw [hplace] at hk
        have hne : above ≠ [] := fun hnil' ↦ by simp [(hnil hnil').2.2] at hk
        exact Nat.lt_of_le_of_lt (hkeys _ List.mem_cons_self k hk) (hlt hne)
  | @behind s u next t d ds hstale hcons htoken hbefore hcomes ih =>
    have hhere := steady_dropStale.here hstale
    rcases skipSpace_commented hc htext habove hrest
        fun hnil' ↦ ⟨(hnil hnil').1, by rw [(hnil hnil').2.1]; rfl⟩ with
      ⟨used, behind, rfl, hne, hspace, hle, hmoved⟩ | ⟨hplace, -, -⟩
    · have hends : IsWhole behind := habove.of_append
      have hlonger : (behind ++ commented indent text (indented column (c :: cs))).length =
          s.skipSpace.here.rest.length + commentLength indent text := by
        rw [hspace, List.length_append, List.length_append, length_commented, Nat.add_assoc]
      have hstale' := steady_dropStale.moved _ 0 _ hlonger hstale
      have hline : s.here.line ≤ u.here.line := hhere ▸ hle
      have hkeys' : u.KeysUpTo u.here.line :=
        steady_dropStale.keysUpTo hstale (hhere ▸ Nat.le_refl _)
          (keysUpTo_skipSpace fun k hk place hplace ↦ Nat.le_trans (hkeys k hk place hplace) hline)
      rw [run_eq, hstale, Option.bind_some, resume_cons hcons, htoken, Option.bind_some] at h
      rw [run_eq, hmoved, hstale', Option.bind_some]
      split at h
      next hshort =>
        have hbehind : u.here.rest = behind ++ indented column (c :: cs) := hhere ▸ hspace
        rw [hrest, List.length_append] at hshort
        obtain ⟨ds', next', hds', htoken', hlt, hrun⟩ := exists_token_commented hc htext hindent
          hcons htoken hbehind hends hne (by simp) hshort hkeys' hcomes ht hflow hallowed h
          fun more hmore hends' hrest'' hkeysNext ↦
            ih ht hflow hallowed hends' hrest'' (fun hnil' ↦ absurd hnil' hmore) hkeysNext h
        rw [← List.length_append] at hlt
        rw [hds', resume_cons rfl, closeTo_moved]
        simp only [moved_here, htoken', Option.bind_some, if_pos hlt, hrun]
      next => exact absurd h (by simp)
    · rw [ht, hhere, hplace] at hbefore
      exact absurd rfl hbefore

end Comment

/-! ### Texts -/

/-- Outside of brackets and where a key may begin, the scan comes to a token in front of `rest`. -/
def comesTo (rest : List Char) (s : Scan) : Bool :=
  match s.skipSpace.dropStale with
  | none => false
  | some t =>
    if t.here.rest = rest then !t.inFlow && t.keyAllowed
    else
      match t.here.rest with
      | [] => false
      | c :: cs =>
        match (t.closeTo (some t.here.column)).token c cs with
        | none => false
        | some next =>
          if next.here.rest.length < s.here.rest.length then next.comesTo rest else false
termination_by s.here.rest.length

/-- What is decided about a text tells where a scan of it comes to. -/
theorem comes_of_comesTo {rest : List Char} (h : s.comesTo rest) :
    ∃ t, Comes s t ∧ t.here.rest = rest ∧ t.inFlow = false ∧ t.keyAllowed = true := by
  fun_induction comesTo rest s with
  | case1 s hstale => exact absurd h (by simp)
  | case2 s t hstale hrest =>
    obtain ⟨hflow, hallowed⟩ := (Bool.and_eq_true _ _).mp h
    exact ⟨t, .here hstale, hrest, by simpa using hflow, hallowed⟩
  | case3 s t hstale hrest hnil => exact absurd h (by simp)
  | case4 s t hstale hrest c cs hcons htoken => exact absurd h (by simp)
  | case5 s u hstale hother c cs hcons next htoken hlt ih =>
    obtain ⟨t, hcomes, hrest, hflow, hallowed⟩ := ih h
    exact ⟨t, .behind hstale hcons htoken (fun heq ↦ hother (heq ▸ hrest)) hcomes, hrest, hflow,
      hallowed⟩
  | case6 s u hstale hother c cs hcons next htoken hlt => exact absurd h (by simp)

end Scan

/-- What is scanned of a text: it has one sort of line breaks, and no mark of byte order. -/
def scanned (text : List Char) : List Char :=
  let cs := unifyBreaks text
  if cs.head? == some byteOrderMark then cs.drop 1 else cs

/-- A text is scanned with one sort of line breaks, if all of its characters are allowed. -/
theorem ofText?_eq (text : String) : Token.ofText? text =
    if (scanned text.toList).all isAllowed then Scan.run { here := ⟨scanned text.toList, 0, 0⟩ }
    else none := rfl

/-- A text has characters left when its line breaks are made one sort. -/
theorem unifyBreaks_ne_nil (h : cs ≠ []) : unifyBreaks cs ≠ [] := by
  fun_cases unifyBreaks cs <;> simp_all

/-- Line breaks are made one sort on both sides of a line break apart. -/
theorem unifyBreaks_append_of_isWhole (habove : IsWhole above) (below : List Char) :
    unifyBreaks (above ++ below) = unifyBreaks above ++ unifyBreaks below := by
  fun_induction unifyBreaks above with
  | case1 cs ih =>
    rw [List.cons_append, List.cons_append, unifyBreaks, ih habove.tail.tail, List.cons_append]
  | case2 c cs hcrlf ih =>
    have hcrlf' (rest : List Char) (hc : c = '\r') : cs ++ below ≠ '\n' :: rest := by
      cases cs with
      | nil => exact absurd (hc.symm.trans habove.eq_newline) (by decide)
      | cons d cs =>
        intro hcons
        obtain ⟨rfl, -⟩ := List.cons.inj hcons
        exact hcrlf cs hc rfl
    rw [List.cons_append, unifyBreaks.eq_2 _ _ hcrlf', ih habove.tail, List.cons_append]
  | case3 => rfl

/-- Whole lines stay whole lines when their line breaks are made one sort. -/
theorem isWhole_unifyBreaks (habove : IsWhole above) : IsWhole (unifyBreaks above) := by
  fun_induction unifyBreaks above with
  | case1 cs ih => exact isWhole_line [] (ih habove.tail.tail)
  | case2 c cs hcrlf ih =>
    cases cs with
    | nil =>
      obtain rfl := habove.eq_newline
      exact isWhole_line [] (.inl rfl)
    | cons d cs =>
      have hmore := (ih habove.tail).getLast?_eq (unifyBreaks_ne_nil (List.cons_ne_nil d cs))
      exact .inr (by rw [List.getLast?_cons, hmore]; rfl)
  | case3 => exact .inl rfl

/-- Below whole lines the text is scanned as it is by itself. -/
theorem scanned_append (habove : IsWhole above) (hbelow : below.head? ≠ some byteOrderMark) :
    scanned (above ++ below) = scanned above ++ unifyBreaks below := by
  rw [scanned, scanned, unifyBreaks_append_of_isWhole habove]
  cases habove' : unifyBreaks above with
  | nil =>
    have hmark : (unifyBreaks below).head? ≠ some byteOrderMark := by
      fun_cases unifyBreaks below with
      | case1 => simp [byteOrderMark]
      | case2 c cs =>
        rw [List.head?_cons]
        split_ifs
        · decide
        · simpa using hbelow
      | case3 => decide
    simp [hmark]
  | cons c cs => by_cases hmark : c = byteOrderMark <;> simp [hmark]

/-- Whole lines are scanned as whole lines. -/
theorem isWhole_scanned (habove : IsWhole above) : IsWhole (scanned above) := by
  have hunify := isWhole_unifyBreaks habove
  simp only [scanned]
  split_ifs
  · rw [← List.take_append_drop 1 (unifyBreaks above)] at hunify
    exact hunify.of_append
  · exact hunify

def startsContent (c : Char) : Bool := !isBlank c && c ≠ '#' && c ≠ byteOrderMark

/-- What is below begins, behind some spaces, with a token that stands outside of brackets where a
key may begin. -/
def beginsLine (above below : List Char) : Bool :=
  let content := below.dropWhile (· = ' ')
  content.head?.any startsContent &&
    Scan.comesTo (unifyBreaks content) { here := ⟨scanned (above ++ below), 0, 0⟩ }

/-- Content begins with a token, and with no character that is changed before the scan. -/
theorem startsToken_of_startsContent (h : startsContent c) :
    Scan.startsToken c ∧ c ≠ byteOrderMark ∧ c ≠ '\r' ∧ c ≠ '\u0085' := by
  obtain ⟨⟨hblank, hhash⟩, hmark⟩ : (isBlank c = false ∧ c ≠ '#') ∧ c ≠ byteOrderMark := by
    simpa [startsContent] using h
  have hne {d : Char} (hd : isBlank d = true) : c ≠ d :=
    fun heq ↦ Bool.false_ne_true (hblank.symm.trans (heq ▸ hd))
  have hseparator : isSeparator c = false := by
    simp [isSeparator, isGap, isBreak, hne (d := ' ') (by decide), hne (d := '\t') (by decide),
      hne (d := '\n') (by decide), hne (d := '\u2028') (by decide),
      hne (d := '\u2029') (by decide)]
  exact ⟨by simp [Scan.startsToken, hseparator, hhash, hmark], hmark, hne (by decide),
    hne (by decide)⟩

/-- The line below is white space and a token, outside of brackets and where a key may begin. -/
theorem exists_of_beginsLine (h : beginsLine above below) :
    ∃ c cs, below = indented (below.takeWhile (· = ' ')).length (c :: cs) ∧ startsContent c ∧
      Scan.comesTo (unifyBreaks (c :: cs)) { here := ⟨scanned (above ++ below), 0, 0⟩ } := by
  obtain ⟨hhead, hcomes⟩ := (Bool.and_eq_true _ _).mp h
  cases hcontent : below.dropWhile (· = ' ') with
  | nil => simp [hcontent] at hhead
  | cons c cs =>
    rw [hcontent] at hhead hcomes
    refine ⟨c, cs, ?_, hhead, hcomes⟩
    have hspaces : below.takeWhile (· = ' ') =
        List.replicate (below.takeWhile (· = ' ')).length ' ' :=
      List.eq_replicate_iff.mpr ⟨rfl, fun d hd ↦ by simpa using List.mem_takeWhile_imp hd⟩
    rw [indented, ← hspaces, ← hcontent, List.takeWhile_append_dropWhile]

/-- An indented line does not start with a mark of byte order. -/
theorem head?_indented_ne (hc : c ≠ byteOrderMark) (column : Nat) (cs : List Char) :
    (indented column (c :: cs)).head? ≠ some byteOrderMark := by
  cases column with
  | zero => simpa [indented] using hc
  | succ column => simp [indented, List.replicate_succ, byteOrderMark]

/-- The line breaks of an indented line are those behind its first character. -/
theorem unifyBreaks_indented (hcr : c ≠ '\r') (hnel : c ≠ '\u0085') (column : Nat)
    (cs : List Char) :
    unifyBreaks (indented column (c :: cs)) = indented column (c :: unifyBreaks cs) := by
  have hfront : ∀ d ∈ List.replicate column ' ' ++ [c], d ≠ '\r' ∧ d ≠ '\u0085' := by
    intro d hd
    rcases List.mem_append.mp hd with hd | hd
    · rw [List.eq_of_mem_replicate hd]
      decide
    · obtain rfl := List.mem_singleton.mp hd
      exact ⟨hcr, hnel⟩
  simpa [indented] using unifyBreaks_append hfront cs

/-- A text with a comment is the comment, a line break and the text below. -/
theorem commented_eq (indent : Nat) (text below : List Char) :
    Scan.commented indent text below = commentText indent text ++ '\n' :: below := by
  simp [Scan.commented, commentText, indented]

/-- A comment consists of printable characters and spaces, all of them ASCII. -/
theorem isAscii_of_mem_commentText (htext : Printable text) (hd : d ∈ commentText indent text) :
    isAscii d := by
  rcases List.mem_append.mp hd with hd | hd
  · rw [List.eq_of_mem_replicate hd]
    decide
  · rcases List.mem_cons.mp hd with rfl | hd
    · decide
    · exact htext d hd

/-- A comment has no line breaks of another sort. -/
theorem unifyBreaks_commented (htext : Printable text) (below : List Char) :
    unifyBreaks (Scan.commented indent text below) =
      Scan.commented indent text (unifyBreaks below) := by
  have hfront : ∀ d ∈ commentText indent text ++ ['\n'], d ≠ '\r' ∧ d ≠ '\u0085' := by
    intro d hd
    rcases List.mem_append.mp hd with hd | hd
    · have hascii := isAscii_of_mem_commentText htext hd
      exact ⟨ne_of_isAscii hascii (by decide), ne_of_isAscii hascii (by decide)⟩
    · rw [List.mem_singleton.mp hd]
      decide
  simpa [commented_eq] using unifyBreaks_append hfront below

/-- A comment in front of a line that begins with a token, outside of brackets and where a key may
begin, leaves the tokens of the text as they are. -/
theorem ofText?_comment {above below : String} {ts : List Token} (habove : IsWhole above.toList)
    (hbegins : beginsLine above.toList below.toList)
    (hindent : indent ≤ (below.toList.takeWhile (· = ' ')).length) (htext : Printable text)
    (h : Token.ofText? (above ++ below) = some ts) :
    Token.ofText? (above ++ String.ofList (commentText indent text) ++ "\n" ++ below) =
      some ts := by
  obtain ⟨c, cs, hbelow, hc, hcomes⟩ := exists_of_beginsLine hbegins
  generalize (below.toList.takeWhile (· = ' ')).length = column at hindent hbelow
  obtain ⟨hstarts, hmark, hcr, hnel⟩ := startsToken_of_startsContent hc
  have hcons : unifyBreaks (c :: cs) = c :: unifyBreaks cs := unifyBreaks_indented hcr hnel 0 cs
  have hscanned : scanned (above ++ below).toList =
      scanned above.toList ++ indented column (c :: unifyBreaks cs) := by
    rw [String.toList_append, hbelow, scanned_append habove (head?_indented_ne hmark _ _),
      unifyBreaks_indented hcr hnel]
  have hcommented :
      scanned (above ++ String.ofList (commentText indent text) ++ "\n" ++ below).toList =
        scanned above.toList ++
          Scan.commented indent text (indented column (c :: unifyBreaks cs)) := by
    have htoList : (above ++ String.ofList (commentText indent text) ++ "\n" ++ below).toList =
        above.toList ++ Scan.commented indent text (indented column (c :: cs)) := by
      rw [commented_eq, ← hbelow]
      simp
    have hhash : (Scan.commented indent text (indented column (c :: cs))).head? ≠
        some byteOrderMark := head?_indented_ne (by decide) _ _
    rw [htoList, scanned_append habove hhash, unifyBreaks_commented htext,
      unifyBreaks_indented hcr hnel]
  rw [ofText?_eq, hscanned] at h
  rw [ofText?_eq, hcommented]
  split at h
  next hall =>
    obtain ⟨habove', hbelow'⟩ : (∀ d ∈ scanned above.toList, isAllowed d) ∧
        ∀ d ∈ indented column (c :: unifyBreaks cs), isAllowed d :=
      List.forall_mem_append.mp (List.all_eq_true.mp hall)
    have hall' : (scanned above.toList ++
        Scan.commented indent text (indented column (c :: unifyBreaks cs))).all isAllowed := by
      rw [commented_eq, List.all_eq_true]
      refine List.forall_mem_append.mpr ⟨habove', List.forall_mem_append.mpr ⟨fun d hd ↦ ?_,
        List.forall_mem_cons.mpr ⟨by decide, hbelow'⟩⟩⟩
      exact isAllowed_of_isAscii (isAscii_of_mem_commentText htext hd)
    rw [if_pos hall']
    obtain ⟨t, hcomes, hrest, hflow, hallowed⟩ := Scan.comes_of_comesTo hcomes
    rw [← String.toList_append, hscanned] at hcomes
    exact Scan.run_commented hstarts (fun d hd ↦ isBreak_of_isAscii (htext d hd)) hindent hcomes
      (hrest.trans hcons) hflow hallowed (isWhole_scanned habove) rfl (fun _ ↦ ⟨rfl, rfl, rfl⟩)
      (by simp [Scan.KeysUpTo]) h
  next => exact absurd h (by simp)

end AlertAudit.Yaml
