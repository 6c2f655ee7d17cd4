import AlertAudit.Proofs.Yaml.Locality.Steps

/-!
Runs of the scan, step by step. At each token the character and the state tell which step is made
(`step`), and it is the same one where the text goes on otherwise on later lines. So a whole run is
the same where lines are counted from elsewhere (`run_moved`).
-/

set_option autoImplicit false

namespace AlertAudit.Yaml.Scan

variable {c : Char} {cs cs' tail : List Char} {longer lower : Nat} {s t next : Scan}

/-- The step at a character of a scan, and whether its token ends with a character that is no white
space. -/
def step (c : Char) (cs : List Char) (s : Scan) : Bool × (Scan → Option Scan) :=
  if s.here.column = 0 && c = '%' then (false, directive)
  else if s.here.atMarker '-' then (true, documentMarkerAt '-' .documentStart)
  else if s.here.atMarker '.' then (true, documentMarkerAt '.' .documentEnd)
  else if c = '[' then (true, openBracket .flowSequenceStart)
  else if c = '{' then (true, openBracket .flowMappingStart)
  else if c = ']' then (true, closeBracket .flowSequenceEnd)
  else if c = '}' then (true, closeBracket .flowMappingEnd)
  else if c = ',' then (true, fun s ↦ s.dropKey.map (·.punctuation .flowEntry true))
  else if c = '-' && atSeparator cs then (true, blockEntry)
  else if c = '?' && (s.inFlow || atSeparator cs) then (true, explicitKey)
  else if c = ':' && (s.inFlow || atSeparator cs) then (true, value)
  else if c = '*' then (true, reference .alias)
  else if c = '&' then (true, reference .anchor)
  else if c = '!' then (true, tag)
  else if c = '|' && !s.inFlow then (false, block false)
  else if c = '>' && !s.inFlow then (false, block true)
  else if c = '\'' then (true, quoted .single)
  else if c = '"' then (true, quoted .double)
  else if !isIndicator c || c = '-' || (!s.inFlow && (c = '?' || c = ':')) then (false, plain)
  else (true, fun _ ↦ none)

section Choice

variable {p : Prop} [Decidable p] {a b : Option Scan} {x y : Bool × (Scan → Option Scan)}

/-- A choice between two answers is the answer of the choice. -/
theorem ite_snd (ha : p → a = x.2 s) (hb : b = y.2 s) :
    (if p then a else b) = (if p then x else y).2 s := by
  by_cases hp : p
  · rw [if_pos hp, if_pos hp, ha hp]
  · rw [if_neg hp, if_neg hp, hb]

/-- The choice between two steps is a step. -/
theorem stepLocal_ite (hx : p → StepLocal x.1 c x.2) (hy : StepLocal y.1 c y.2) :
    StepLocal (if p then x else y).1 c (if p then x else y).2 := by
  by_cases hp : p
  · rw [if_pos hp]
    exact hx hp
  · rw [if_neg hp]
    exact hy

end Choice

/-- The next token is that of the step at its character. -/
theorem token_eq_step (c : Char) (cs : List Char) (s : Scan) :
    s.token c cs = (step c cs s).2 s := by
  refine ite_snd (fun _ ↦ rfl) ?_
  refine ite_snd (fun hmark ↦ (if_pos hmark).symm) ?_
  refine ite_snd (fun hmark ↦ (if_pos hmark).symm) ?_
  iterate 16 refine ite_snd (fun _ ↦ rfl) ?_
  rfl

/-- No token begins with white space. -/
theorem isInk_of_token (hrest : s.here.rest = c :: cs) (h : s.token c cs = some next) :
    IsInk c := by
  refine Bool.eq_false_iff.mpr fun hsep ↦ ?_
  have hindicator : isIndicator c = true := by simp [isIndicator, hsep]
  have hcases : c = ' ' ∨ c = '\t' ∨ c = '\n' ∨ c = '\u2028' ∨ c = '\u2029' := by
    simpa [isSeparator, isGap, isBreak, or_assoc] using hsep
  rcases hcases with rfl | rfl | rfl | rfl | rfl <;>
    simp [token, atMarker_eq_false hrest, hindicator] at h

/-- Each step looks no further than the end of the line where it ends. -/
theorem stepLocal_step (hc : IsInk c) (cs : List Char) (s : Scan) :
    StepLocal (step c cs s).1 c (step c cs s).2 := by
  refine stepLocal_ite (fun _ ↦ stepLocal_directive) ?_
  refine stepLocal_ite (fun _ ↦ stepLocal_documentMarkerAt (show IsInk '-' from rfl) _) ?_
  refine stepLocal_ite (fun _ ↦ stepLocal_documentMarkerAt (show IsInk '.' from rfl) _) ?_
  refine stepLocal_ite (fun _ ↦ stepLocal_openBracket hc _) ?_
  refine stepLocal_ite (fun _ ↦ stepLocal_openBracket hc _) ?_
  refine stepLocal_ite (fun _ ↦ stepLocal_closeBracket hc _) ?_
  refine stepLocal_ite (fun _ ↦ stepLocal_closeBracket hc _) ?_
  refine stepLocal_ite (fun _ ↦ stepLocal_flowEntry hc) ?_
  refine stepLocal_ite (fun _ ↦ stepLocal_blockEntry hc) ?_
  refine stepLocal_ite (fun _ ↦ stepLocal_explicitKey hc) ?_
  refine stepLocal_ite (fun _ ↦ stepLocal_value hc) ?_
  refine stepLocal_ite (fun _ ↦ stepLocal_reference hc _) ?_
  refine stepLocal_ite (fun _ ↦ stepLocal_reference hc _) ?_
  refine stepLocal_ite (fun _ ↦ stepLocal_tag) ?_
  refine stepLocal_ite (fun _ ↦ stepLocal_block false) ?_
  refine stepLocal_ite (fun _ ↦ stepLocal_block true) ?_
  refine stepLocal_ite (fun hquote ↦ hquote ▸ stepLocal_quoted .single) ?_
  refine stepLocal_ite (fun hquote ↦ hquote ▸ stepLocal_quoted .double) ?_
  exact stepLocal_ite (fun _ ↦ stepLocal_plain) .fail

/-- The steps whose tokens may end with white space. -/
def IsOpen (f : Scan → Option Scan) : Prop :=
  f = directive ∨ f = plain ∨ ∃ folded, f = block folded

/-- A step ends with a character that is no white space, or is one of those. -/
def EndsKnown (x : Bool × (Scan → Option Scan)) : Prop := x.1 = true ∨ IsOpen x.2

/-- Of each step it is known how its token ends. -/
theorem endsKnown_step (c : Char) (cs : List Char) (s : Scan) : EndsKnown (step c cs s) := by
  refine iteInduction (fun _ ↦ .inr (.inl rfl)) fun _ ↦ ?_
  iterate 13 refine iteInduction (fun _ ↦ .inl rfl) fun _ ↦ ?_
  refine iteInduction (fun _ ↦ .inr (.inr (.inr ⟨false, rfl⟩))) fun _ ↦ ?_
  refine iteInduction (fun _ ↦ .inr (.inr (.inr ⟨true, rfl⟩))) fun _ ↦ ?_
  iterate 2 refine iteInduction (fun _ ↦ .inl rfl) fun _ ↦ ?_
  exact iteInduction (fun _ ↦ .inr (.inr (.inl rfl))) fun _ ↦ .inl rfl

/-- The step is the same in front of another text with the same first line. -/
theorem step_moved (hc : IsInk c) (hrest : s.here.rest = c :: cs)
    (hsame : SameLine (c :: cs) (c :: tail)) :
    step c tail (s.moved longer lower (c :: tail)) = step c cs s := by
  have hmarker {mark : Char} (hmark : IsInk mark) :
      (s.moved longer lower (c :: tail)).here.atMarker mark = s.here.atMarker mark :=
    (hrest ▸ hsame).atMarker_eq (isBreak_eq_false_of_isInk hmark) s.here.line _ s.here.column
  obtain ⟨rest, heq, hbehind⟩ := hsame.exists_cons
  obtain rfl : tail = rest := (List.cons.inj heq).2
  have hsep := (hbehind (isBreak_eq_false_of_isInk hc)).atSeparator_eq
  unfold step
  rw [hmarker (show IsInk '-' from rfl), hmarker (show IsInk '.' from rfl), hsep, moved_inFlow]
  rfl

/-- A token looks no further than the end of the line where it ends. -/
theorem taken_token (hrest : s.here.rest = c :: cs) (h : s.token c cs = some next) :
    ∃ used lines, s.here.rest = used ++ next.here.rest ∧ next.here.line = s.here.line + lines ∧
      ((step c cs s).1 → ∀ d ∈ used.getLast?, IsInk d) ∧
      ∀ longer lower tail, SameLine next.here.rest tail →
        tail.length = next.here.rest.length + longer →
          ∃ cs', used ++ tail = c :: cs' ∧
            (s.moved longer lower (c :: cs')).token c cs' =
              some (next.moved longer lower tail) := by
  have hc := isInk_of_token hrest h
  rw [token_eq_step] at h
  obtain ⟨used, lines, hused, hline, hclosed, hlocal⟩ := (stepLocal_step hc cs s).taken hrest h
  refine ⟨used, lines, hused, hline, hclosed, fun longer lower tail htail hlength ↦ ?_⟩
  have hsame : SameLine (c :: cs) (used ++ tail) := hrest ▸ hused ▸ htail.append_left used
  obtain ⟨cs', hcons, -⟩ := hsame.exists_cons
  refine ⟨cs', hcons, ?_⟩
  rw [token_eq_step, step_moved hc hrest (hcons ▸ hsame), ← hcons]
  exact hlocal longer lower tail htail hlength

/-- No place of a key is noted below the line where the token begins. -/
theorem keysUpTo_token {line : Nat} (hrest : s.here.rest = c :: cs)
    (h : s.token c cs = some next) (hline : s.here.line ≤ line) (hs : s.KeysUpTo line) :
    next.KeysUpTo line := by
  have hc := isInk_of_token hrest h
  rw [token_eq_step] at h
  exact (stepLocal_step hc cs s).keysUpTo hrest h hline hs

/-! ### Space -/

/-- The skipping of space does not look at the lines above. -/
theorem go_moved (s : Scan) (longer lower : Nat) (rest cs : List Char) (line column : Nat)
    (allowed comment : Bool) :
    skipSpace.go (s.moved longer lower rest) cs (line + lower) column allowed comment =
      (skipSpace.go s cs line column allowed comment).moved longer lower
        (skipSpace.go s cs line column allowed comment).here.rest := by
  induction cs generalizing line column allowed comment with
  | nil => rfl
  | cons c cs ih =>
    have hbreak := ih (line + 1) 0 (allowed || !s.inFlow) false
    rw [Nat.add_right_comm] at hbreak
    simp only [skipSpace.go, moved_inFlow]
    split_ifs
    · exact hbreak
    · exact ih ..
    · exact ih ..
    · exact ih ..
    · rfl

/-- The same space is skipped where lines are counted from further up. -/
theorem skipSpace_moved (s : Scan) (longer lower : Nat) :
    (s.moved longer lower s.here.rest).skipSpace =
      s.skipSpace.moved longer lower s.skipSpace.here.rest :=
  go_moved s longer lower _ _ _ _ _ _

/-! ### Runs -/

/-- The tokens from a place where one begins, provided that the rest behind it is shorter than some
limit. -/
def resume (limit : Nat) (t : Scan) : Option (List Token) :=
  match t.here.rest with
  | [] => ((t.closeTo none).dropKey).map (·.found.reverse)
  | c :: cs => ((t.closeTo (some t.here.column)).token c cs).bind fun next ↦
      if next.here.rest.length < limit then next.run else none

/-- At the end of the text all blocks end. -/
theorem resume_nil {limit : Nat} (h : t.here.rest = []) :
    t.resume limit = ((t.closeTo none).dropKey).map (·.found.reverse) := by
  rw [resume, h]

/-- In front of a character the blocks further in end, and the next token is taken. -/
theorem resume_cons {limit : Nat} (h : t.here.rest = c :: cs) : t.resume limit =
    ((t.closeTo (some t.here.column)).token c cs).bind fun next ↦
      if next.here.rest.length < limit then next.run else none := by
  rw [resume, h]

/-- A run skips space, forgets the places of keys that are too old, and goes on with a token. -/
theorem run_eq (s : Scan) : s.run = s.skipSpace.dropStale.bind (resume s.here.rest.length) := by
  rw [run]
  cases s.skipSpace.dropStale with
  | none => rfl
  | some t =>
    simp only [Option.bind_some]
    split
    next hnil => exact (resume_nil hnil).symm
    next c cs hcons =>
      rw [resume_cons hcons]
      cases (t.closeTo (some t.here.column)).token c cs <;> rfl

/-- The tokens from a place are the same where lines are counted from further up, if those behind it
are. -/
theorem resume_moved_of_shorter {limit limit' : Nat} (hlimit : limit ≤ limit') {ts : List Token}
    (hrun : ∀ next : Scan, next.here.rest.length < limit → next.run = some ts →
      (next.moved 0 lower next.here.rest).run = some ts)
    (h : t.resume limit = some ts) : (t.moved 0 lower t.here.rest).resume limit' = some ts := by
  cases hrest : t.here.rest with
  | nil =>
    rw [resume_nil hrest] at h
    obtain ⟨dropped, hdrop, rfl⟩ := Option.map_eq_some_iff.mp h
    rw [resume_nil rfl, closeTo_moved,
      steady_dropKey.moved 0 lower [] (by simp [hrest]) hdrop]
    rfl
  | cons c cs =>
    rw [resume_cons hrest] at h
    obtain ⟨next, htoken, h⟩ := Option.bind_eq_some_iff.mp h
    split at h
    next hlt =>
      obtain ⟨used, lines, hused, -, -, hlocal⟩ := taken_token (by simpa using hrest) htoken
      obtain ⟨cs', hcons, hmoved⟩ := hlocal 0 lower next.here.rest (.refl _) rfl
      rw [closeTo_here, hrest, hcons] at hused
      obtain rfl : cs = cs' := (List.cons.inj hused).2
      rw [resume_cons rfl, closeTo_moved, moved_here, hmoved, Option.bind_some, moved_here,
        if_pos (Nat.lt_of_lt_of_le hlt hlimit)]
      exact hrun next hlt h
    next => exact absurd h (by simp)

/-- The tokens are the same where lines are counted from further up. -/
theorem run_moved {ts : List Token} (h : s.run = some ts) (lower : Nat) :
    (s.moved 0 lower s.here.rest).run = some ts := by
  induction hlength : s.here.rest.length using Nat.strongRecOn generalizing s with
  | ind length ih =>
    rw [run_eq] at h ⊢
    obtain ⟨t, hstale, h⟩ := Option.bind_eq_some_iff.mp h
    rw [skipSpace_moved, ← steady_dropStale.here hstale,
      steady_dropStale.moved 0 lower _ (by rw [steady_dropStale.here hstale]; rfl) hstale,
      Option.bind_some]
    exact resume_moved_of_shorter (Nat.le_refl _)
      (fun next hlt hrun ↦ ih _ (hlength ▸ hlt) hrun rfl) h

/-- The tokens from a place are the same where lines are counted from further up. -/
theorem resume_moved {limit limit' : Nat} {ts : List Token} (hlimit : limit ≤ limit')
    (h : t.resume limit = some ts) (lower : Nat) :
    (t.moved 0 lower t.here.rest).resume limit' = some ts :=
  resume_moved_of_shorter hlimit (fun _ _ hrun ↦ run_moved hrun lower) h

end AlertAudit.Yaml.Scan
