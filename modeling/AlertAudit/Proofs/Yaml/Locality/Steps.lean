import AlertAudit.Proofs.Yaml.Locality.Scalars

/-!
What a step of the scan looks at. A step prepares the scan where it is and then takes a token, which
depends on no more than the line where the token ends. So the same steps are made where the text
goes on otherwise behind that line, or where lines are counted from elsewhere: `moved` tells what
becomes of the scan then.
-/

set_option autoImplicit false

namespace AlertAudit.Yaml

open AlertAudit.Text

variable {c : Char} {cs cs' rest tail : List Char} {longer lower : Nat}

/-- The place of a key where the text behind it is longer, and lines are counted from further up. -/
def KeyPlace.moved (longer lower : Nat) (k : KeyPlace) : KeyPlace :=
  { k with line := k.line + lower, remaining := k.remaining + longer }

namespace Scan

/-- The scan in front of another rest of the text, which is longer, with lines counted from further
up. -/
def moved (longer lower : Nat) (rest : List Char) (s : Scan) : Scan :=
  { s with
    here := ⟨rest, s.here.line + lower, s.here.column⟩
    keyPlace := s.keyPlace.map (·.moved longer lower)
    outerKeys := s.outerKeys.map (·.map (·.moved longer lower)) }

/-- The places of keys are not below a line. -/
def KeysUpTo (line : Nat) (s : Scan) : Prop :=
  ∀ k ∈ s.keyPlace :: s.outerKeys, ∀ place ∈ k, place.line ≤ line

variable {s next : Scan}

@[simp] theorem moved_here : (s.moved longer lower rest).here =
    ⟨rest, s.here.line + lower, s.here.column⟩ := rfl

@[simp] theorem moved_found : (s.moved longer lower rest).found = s.found := rfl

@[simp] theorem moved_levels : (s.moved longer lower rest).levels = s.levels := rfl

@[simp] theorem moved_keyAllowed : (s.moved longer lower rest).keyAllowed = s.keyAllowed := rfl

@[simp] theorem moved_keyPlace :
    (s.moved longer lower rest).keyPlace = s.keyPlace.map (·.moved longer lower) := rfl

@[simp] theorem moved_outerKeys : (s.moved longer lower rest).outerKeys =
    s.outerKeys.map (·.map (·.moved longer lower)) := rfl

@[simp] theorem moved_inFlow : (s.moved longer lower rest).inFlow = s.inFlow := by
  simp [inFlow]

@[simp] theorem moved_margin : (s.moved longer lower rest).margin = s.margin := rfl

/-! ### Preparations -/

/-- The scan is changed where it is, and alike in front of another rest of the text. -/
structure Steady (f : Scan → Option Scan) : Prop where
  here : ∀ {s next : Scan}, f s = some next → next.here = s.here
  keysUpTo : ∀ {s next : Scan} {line : Nat}, f s = some next → s.here.line ≤ line →
    s.KeysUpTo line → next.KeysUpTo line
  moved : ∀ {s next : Scan} (longer lower : Nat) (tail : List Char),
    tail.length = s.here.rest.length + longer → f s = some next →
      f (s.moved longer lower tail) = some (next.moved longer lower tail)

namespace Steady

/-- One preparation behind another one is a preparation. -/
theorem bind {f g : Scan → Option Scan} (hf : Steady f) (hg : Steady g) :
    Steady fun s ↦ (f s).bind g where
  here h := by
    obtain ⟨middle, hfirst, hsecond⟩ := Option.bind_eq_some_iff.mp h
    exact (hg.here hsecond).trans (hf.here hfirst)
  keysUpTo h hline hs := by
    obtain ⟨middle, hfirst, hsecond⟩ := Option.bind_eq_some_iff.mp h
    exact hg.keysUpTo hsecond (hf.here hfirst ▸ hline) (hf.keysUpTo hfirst hline hs)
  moved longer lower tail htail h := by
    obtain ⟨middle, hfirst, hsecond⟩ := Option.bind_eq_some_iff.mp h
    have htail' : tail.length = middle.here.rest.length + longer := hf.here hfirst ▸ htail
    rw [hf.moved longer lower tail htail hfirst]
    exact hg.moved longer lower tail htail' hsecond

/-- A change that neither fails nor looks at the place. -/
theorem ofMap {f : Scan → Scan} (hhere : ∀ s, (f s).here = s.here)
    (hkeys : ∀ s, ∀ k ∈ (f s).keyPlace :: (f s).outerKeys, k = none ∨ k ∈ s.keyPlace :: s.outerKeys)
    (hmoved : ∀ s longer lower tail,
      f (s.moved longer lower tail) = (f s).moved longer lower tail) :
    Steady fun s ↦ some (f s) where
  here h := Option.some.inj h ▸ hhere _
  keysUpTo {s next line} h _ hs := by
    obtain rfl := Option.some.inj h
    intro k hk place hplace
    rcases hkeys s k hk with rfl | hk
    · exact absurd hplace (by simp)
    · exact hs k hk place hplace
  moved longer lower tail _ h := by
    obtain rfl := Option.some.inj h
    exact congrArg some (hmoved _ longer lower tail)

end Steady

/-- To drop the place of a key is a preparation. -/
theorem steady_dropKey : Steady dropKey where
  here {s next} h := by
    unfold dropKey at h
    split at h
    · exact Option.some.inj h ▸ rfl
    · split at h
      · exact absurd h (by simp)
      · exact Option.some.inj h ▸ rfl
  keysUpTo {s next line} h _ hs := by
    unfold dropKey at h
    split at h
    · exact Option.some.inj h ▸ hs
    · split at h
      · exact absurd h (by simp)
      · obtain rfl := Option.some.inj h
        intro k hk
        rcases List.mem_cons.mp hk with rfl | hk
        · simp
        · exact hs k (List.mem_cons_of_mem _ hk)
  moved {s next} longer lower tail _ h := by
    unfold dropKey at h ⊢
    cases hplace : s.keyPlace with
    | none => simp_all
    | some k =>
      simp only [hplace] at h
      simp only [moved_keyPlace, hplace, Option.map_some]
      by_cases hrequired : k.required = true
      · simp [hrequired] at h
      · rw [if_neg hrequired] at h
        obtain rfl := Option.some.inj h
        exact if_neg hrequired

/-- To mark the place of a key is a preparation. -/
theorem steady_markKey : Steady markKey where
  here {s next} h := by
    unfold markKey at h
    split at h
    · obtain ⟨dropped, hdrop, rfl⟩ := Option.map_eq_some_iff.mp h
      exact (steady_dropKey.here hdrop :)
    · exact Option.some.inj h ▸ rfl
  keysUpTo {s next line} h hline hs := by
    unfold markKey at h
    split at h
    · obtain ⟨dropped, hdrop, rfl⟩ := Option.map_eq_some_iff.mp h
      have hdropped := steady_dropKey.keysUpTo hdrop hline hs
      intro k hk place hplace
      rcases List.mem_cons.mp hk with rfl | hk
      · obtain rfl := Option.some.inj hplace
        exact steady_dropKey.here hdrop ▸ hline
      · exact hdropped k (List.mem_cons_of_mem _ hk) place hplace
    · exact Option.some.inj h ▸ hs
  moved {s next} longer lower tail htail h := by
    unfold markKey at h ⊢
    rw [moved_keyAllowed]
    split at h
    next hallowed =>
      obtain ⟨dropped, hdrop, rfl⟩ := Option.map_eq_some_iff.mp h
      rw [if_pos hallowed, steady_dropKey.moved longer lower tail htail hdrop]
      simp [moved, KeyPlace.moved, htail, steady_dropKey.here hdrop, inFlow]
    next hallowed =>
      obtain rfl := Option.some.inj h
      rw [if_neg hallowed]

/-- The end of a block takes no characters. -/
@[simp] theorem closeTo_here (column : Option Nat) (s : Scan) :
    (s.closeTo column).here = s.here := by
  unfold closeTo
  split <;> rfl

/-- The same blocks end in front of another rest of the text. -/
theorem closeTo_moved (column : Option Nat) (s : Scan) (longer lower : Nat) (tail : List Char) :
    (s.moved longer lower tail).closeTo column = (s.closeTo column).moved longer lower tail := by
  unfold closeTo
  rw [moved_inFlow]
  split <;> rfl

/-- To end blocks is a preparation. -/
theorem steady_closeTo (column : Option Nat) : Steady fun s ↦ some (s.closeTo column) := by
  refine .ofMap (closeTo_here column) (fun s k hk ↦ .inr ?_) (closeTo_moved column)
  unfold closeTo at hk
  split at hk <;> exact hk

/-- To begin a block at a place among the tokens is a preparation. -/
theorem steady_openAt (column index : Nat) (t : Token) :
    Steady fun s ↦ some (s.openAt column index t) := by
  refine .ofMap (fun s ↦ ?_) (fun s k hk ↦ .inr ?_) fun s longer lower tail ↦ ?_
  · unfold openAt
    split <;> rfl
  · unfold openAt at hk
    split at hk <;> exact hk
  · unfold openAt
    rw [moved_inFlow, moved_levels]
    split <;> rfl

/-- To begin a block where the scan is, is a preparation. -/
theorem steady_openHere (t : Token) : Steady (openHere t) where
  here {s next} h := by
    unfold openHere at h
    split_ifs at h
    · exact Option.some.inj h ▸ rfl
    · exact (steady_openAt _ _ t).here h
  keysUpTo {s next line} h hline hs := by
    unfold openHere at h
    split_ifs at h
    · exact Option.some.inj h ▸ hs
    · exact (steady_openAt _ _ t).keysUpTo h hline hs
  moved {s next} longer lower tail htail h := by
    unfold openHere at h ⊢
    rw [moved_inFlow, moved_keyAllowed]
    split_ifs at h ⊢
    · exact Option.some.inj h ▸ rfl
    · exact (steady_openAt _ _ t).moved longer lower tail htail h

/-- A key at some column, behind the first `index` tokens. -/
def openKeyAt (index column : Nat) (s : Scan) : Scan :=
  { (s.insert index .key).openAt column index .blockMappingStart with keyPlace := none }

/-- To begin the block of a key that stands further up is a preparation. -/
theorem steady_openKeyAt (index column : Nat) : Steady fun s ↦ some (s.openKeyAt index column) := by
  have hinsert : Steady fun s ↦ some (s.insert index .key) :=
    .ofMap (fun _ ↦ rfl) (fun _ _ hk ↦ .inr hk) fun _ _ _ _ ↦ rfl
  have hforget : Steady fun s ↦ some { s with keyPlace := none } := by
    refine .ofMap (fun _ ↦ rfl) (fun s k hk ↦ ?_) fun _ _ _ _ ↦ rfl
    rcases List.mem_cons.mp hk with rfl | hk
    · exact .inl rfl
    · exact .inr (List.mem_cons_of_mem _ hk)
  exact hinsert.bind ((steady_openAt column index .blockMappingStart).bind hforget)

/-- The key in front of a colon, as a key. -/
def openKey (s : Scan) : Option Scan := s.keyPlace.map fun k ↦ s.openKeyAt k.index k.column

/-- To begin the block of the key that was marked is a preparation. -/
theorem steady_openKey : Steady openKey where
  here {s next} h := by
    obtain ⟨k, -, heq⟩ := Option.map_eq_some_iff.mp h
    exact (steady_openKeyAt _ _).here (congrArg some heq)
  keysUpTo {s next line} h hline hs := by
    obtain ⟨k, -, heq⟩ := Option.map_eq_some_iff.mp h
    exact (steady_openKeyAt _ _).keysUpTo (congrArg some heq) hline hs
  moved {s next} longer lower tail htail h := by
    obtain ⟨k, hk, heq⟩ := Option.map_eq_some_iff.mp h
    have hmoved := (steady_openKeyAt _ _).moved longer lower tail htail (congrArg some heq)
    simp only [openKey, moved_keyPlace, hk, Option.map_some]
    exact hmoved

/-- A colon comes too late for the moved place of a key just when it does for the place itself. -/
theorem isStale_moved (k : KeyPlace) {here : Cursor}
    (htail : tail.length = here.rest.length + longer) :
    (k.moved longer lower).isStale ⟨tail, here.line + lower, here.column⟩ = k.isStale here := by
  simp only [KeyPlace.isStale, KeyPlace.moved, htail]
  congr 1
  · simp
  · simp only [decide_eq_decide]
    omega

/-- The place of a key, unless a colon here comes too late for it. -/
def fresh (here : Cursor) (k : Option KeyPlace) : Option KeyPlace :=
  if k.any (·.isStale here) then none else k

/-- The same places of keys are forgotten in front of another rest of the text. -/
theorem fresh_moved (k : Option KeyPlace) {here : Cursor}
    (htail : tail.length = here.rest.length + longer) :
    fresh ⟨tail, here.line + lower, here.column⟩ (k.map (·.moved longer lower)) =
      (fresh here k).map (·.moved longer lower) := by
  cases k with
  | none => rfl
  | some k =>
    simp only [fresh, Option.map_some, Option.any_some, isStale_moved k htail]
    split <;> rfl

/-- A key must begin at the place, and a colon here comes too late for it. -/
def lost (here : Cursor) (k : Option KeyPlace) : Bool :=
  k.any (·.isStale here) && k.any (·.required)

/-- A key that had to come is missed in front of every rest of the text, or of none. -/
theorem lost_moved (k : Option KeyPlace) {here : Cursor}
    (htail : tail.length = here.rest.length + longer) :
    lost ⟨tail, here.line + lower, here.column⟩ (k.map (·.moved longer lower)) = lost here k := by
  cases k with
  | none => rfl
  | some k =>
    simp only [lost, Option.map_some, Option.any_some, isStale_moved k htail]
    rfl

/-- Places of keys that are too old are forgotten at each level, and none of them may be one that
had to come. -/
theorem dropStale_eq (s : Scan) : s.dropStale =
    if (s.keyPlace :: s.outerKeys).any (lost s.here) then none
    else some { s with
      keyPlace := fresh s.here s.keyPlace
      outerKeys := s.outerKeys.map (fresh s.here) } := rfl

/-- A place that is not forgotten was there before. -/
theorem mem_fresh {here : Cursor} {k : Option KeyPlace} {place : KeyPlace}
    (h : place ∈ fresh here k) : place ∈ k := by
  unfold fresh at h
  split at h
  · exact absurd h (by simp)
  · exact h

/-- To forget places of keys is a preparation. -/
theorem steady_dropStale : Steady dropStale where
  here {s next} h := by
    rw [dropStale_eq] at h
    split at h
    · exact absurd h (by simp)
    · exact Option.some.inj h ▸ rfl
  keysUpTo {s next line} h _ hs := by
    rw [dropStale_eq] at h
    split at h
    · exact absurd h (by simp)
    · obtain rfl := Option.some.inj h
      intro k hk place hplace
      rcases List.mem_cons.mp hk with rfl | hk
      · exact hs _ List.mem_cons_self place (mem_fresh hplace)
      · obtain ⟨k, hmem, rfl⟩ := List.mem_map.mp hk
        exact hs k (List.mem_cons_of_mem _ hmem) place (mem_fresh hplace)
  moved {s next} longer lower tail htail h := by
    have hlost : ((s.moved longer lower tail).keyPlace :: (s.moved longer lower tail).outerKeys).any
        (lost (s.moved longer lower tail).here) =
          (s.keyPlace :: s.outerKeys).any (lost s.here) := by
      simp only [moved_keyPlace, moved_outerKeys, moved_here, List.any_cons, List.any_map,
        lost_moved _ htail]
      exact congrArg _ (congrArg _ (funext fun k ↦ lost_moved k htail))
    rw [dropStale_eq] at h ⊢
    rw [hlost]
    split at h
    · exact absurd h (by simp)
    next hkept =>
      obtain rfl := Option.some.inj h
      rw [if_neg hkept]
      simp [moved, Function.comp_def, fresh_moved _ htail]

/-! ### Tokens -/

/-- A reader of tokens looks no further than the end of the line where the token ends. A token that
is `closed` ends with a character that is no white space. -/
structure Takes (closed : Bool) (c : Char) (read : Cursor → Option ((Token × Bool) × Cursor)) :
    Prop where
  taken : ∀ {here next : Cursor} {out : Token × Bool} {cs : List Char}, here.rest = c :: cs →
    read here = some (out, next) →
      ∃ used lines, here.rest = used ++ next.rest ∧ next.line = here.line + lines ∧
        (closed → ∀ d ∈ used.getLast?, IsInk d) ∧ ∀ tail line, SameLine next.rest tail →
          read ⟨used ++ tail, line, here.column⟩ = some (out, ⟨tail, line + lines, next.column⟩)

/-- Takes a token, behind which a key may begin or not. -/
def takeToken (read : Cursor → Option ((Token × Bool) × Cursor)) (s : Scan) : Option Scan :=
  (read s.here).map fun x ↦ { s.push x.1.1 with here := x.2, keyAllowed := x.1.2 }

/-- A step from a character looks no further than the end of the line where it ends. -/
structure StepLocal (closed : Bool) (c : Char) (f : Scan → Option Scan) : Prop where
  taken : ∀ {s next : Scan} {cs : List Char}, s.here.rest = c :: cs → f s = some next →
    ∃ used lines, s.here.rest = used ++ next.here.rest ∧
      next.here.line = s.here.line + lines ∧ (closed → ∀ d ∈ used.getLast?, IsInk d) ∧
      ∀ longer lower tail, SameLine next.here.rest tail →
        tail.length = next.here.rest.length + longer →
          f (s.moved longer lower (used ++ tail)) = some (next.moved longer lower tail)
  keysUpTo : ∀ {s next : Scan} {cs : List Char} {line : Nat}, s.here.rest = c :: cs →
    f s = some next → s.here.line ≤ line → s.KeysUpTo line → next.KeysUpTo line

namespace StepLocal

variable {closed : Bool}

/-- A reader that looks no further than the end of its line makes a step that does not. -/
theorem ofTakes {read : Scan → Cursor → Option ((Token × Bool) × Cursor)}
    (hread : ∀ s, Takes closed c (read s))
    (hmoved : ∀ s longer lower tail, read (s.moved longer lower tail) = read s) :
    StepLocal closed c fun s ↦ s.takeToken (read s) where
  taken {s next cs} hrest h := by
    obtain ⟨⟨out, stop⟩, htake, rfl⟩ := Option.map_eq_some_iff.mp h
    obtain ⟨used, lines, hused, hline, hclosed, hlocal⟩ := (hread s).taken hrest htake
    refine ⟨used, lines, hused, hline, hclosed, fun longer lower tail htail hlength ↦ ?_⟩
    have hline' : s.here.line + lower + lines = stop.line + lower := by omega
    simp only [takeToken, hmoved, moved_here, hlocal tail _ htail, Option.map_some, hline']
    rfl
  keysUpTo {s next cs line} _ h _ hs := by
    obtain ⟨out, -, rfl⟩ := Option.map_eq_some_iff.mp h
    exact hs

/-- A preparation in front of a step belongs to the step. -/
theorem prepare {f g : Scan → Option Scan} (hf : Steady f) (hg : StepLocal closed c g) :
    StepLocal closed c fun s ↦ (f s).bind g where
  taken {s next cs} hrest h := by
    obtain ⟨middle, hfirst, hsecond⟩ := Option.bind_eq_some_iff.mp h
    have hhere := hf.here hfirst
    obtain ⟨used, lines, hused, hline, hclosed, hlocal⟩ := hg.taken (hhere ▸ hrest) hsecond
    rw [hhere] at hused hline
    refine ⟨used, lines, hused, hline, hclosed, fun longer lower tail htail hlength ↦ ?_⟩
    have hlength' : (used ++ tail).length = s.here.rest.length + longer := by
      rw [hused, List.length_append, List.length_append, hlength, Nat.add_assoc]
    rw [hf.moved longer lower _ hlength' hfirst]
    exact hlocal longer lower tail htail hlength
  keysUpTo {s next cs line} hrest h hline hs := by
    obtain ⟨middle, hfirst, hsecond⟩ := Option.bind_eq_some_iff.mp h
    have hhere := hf.here hfirst
    exact hg.keysUpTo (hhere ▸ hrest) hsecond (hhere ▸ hline) (hf.keysUpTo hfirst hline hs)

/-- The choice between two steps is a step, if the rest of the text does not decide it. -/
theorem ite {f g : Scan → Option Scan} {p : Scan → Bool}
    (hp : ∀ s longer lower tail, p (s.moved longer lower tail) = p s)
    (hf : StepLocal closed c f) (hg : StepLocal closed c g) :
    StepLocal closed c fun s ↦ if p s then f s else g s where
  taken {s next cs} hrest h := by
    by_cases hpos : p s = true
    · simp only [hp, if_pos hpos] at h ⊢
      exact hf.taken hrest h
    · simp only [hp, if_neg hpos] at h ⊢
      exact hg.taken hrest h
  keysUpTo {s next cs line} hrest h hline hs := by
    split at h
    · exact hf.keysUpTo hrest h hline hs
    · exact hg.keysUpTo hrest h hline hs

/-- What agrees with a step in front of a character is a step there. -/
theorem congr {f g : Scan → Option Scan} (hg : StepLocal closed c g)
    (heq : ∀ {s : Scan} {cs : List Char}, s.here.rest = c :: cs → f s = g s) :
    StepLocal closed c f where
  taken {s next cs} hrest h := by
    rw [heq hrest] at h
    obtain ⟨used, lines, hused, hline, hclosed, hlocal⟩ := hg.taken hrest h
    refine ⟨used, lines, hused, hline, hclosed, fun longer lower tail htail hlength ↦ ?_⟩
    have hsame : SameLine (c :: cs) (used ++ tail) := hrest ▸ hused ▸ htail.append_left used
    obtain ⟨rest, hcons, -⟩ := hsame.exists_cons
    rw [heq (s := s.moved longer lower (used ++ tail)) hcons]
    exact hlocal longer lower tail htail hlength
  keysUpTo {s next cs line} hrest h := hg.keysUpTo hrest ((heq hrest).symm.trans h)

/-- To fail is a step that looks at nothing. -/
theorem fail : StepLocal closed c fun _ ↦ none :=
  ⟨fun _ h ↦ absurd h (by simp), fun _ h ↦ absurd h (by simp)⟩

end StepLocal

/-! ### Punctuation -/

/-- A token of one character. -/
theorem takes_punctuation (hc : IsInk c) (t : Token) (allowed : Bool) :
    Takes true c fun here ↦ some ((t, allowed), here.skip 1) := by
  refine ⟨fun {here next out cs} hrest h ↦ ?_⟩
  obtain ⟨rfl, rfl⟩ := Prod.mk.inj (Option.some.inj h)
  refine ⟨[c], 0, by simp [Cursor.skip, hrest], rfl, fun _ d hd ↦ ?_, fun tail line _ ↦ rfl⟩
  obtain rfl : c = d := by simpa using hd
  exact hc

/-- A mark between documents. -/
theorem takes_marker {mark : Char} (hmark : IsInk mark) (t : Token) : Takes true c fun here ↦
    if here.atMarker mark then some ((t, false), here.skip 3) else none := by
  refine ⟨fun {here next out cs} _ h ↦ ?_⟩
  by_cases hat : here.atMarker mark = true
  · rw [if_pos hat] at h
    obtain ⟨rfl, rfl⟩ := Prod.mk.inj (Option.some.inj h)
    have htake : here.rest.take 3 = [mark, mark, mark] := by
      simp only [Cursor.atMarker, Bool.and_eq_true, beq_iff_eq] at hat
      exact hat.1.2
    have hsplit : here.rest = [mark, mark, mark] ++ here.rest.drop 3 := by
      rw [← htake, List.take_append_drop]
    refine ⟨[mark, mark, mark], 0, hsplit, rfl, fun _ d hd ↦ ?_, fun tail line htail ↦ ?_⟩
    · obtain rfl : mark = d := by simpa using hd
      exact hmark
    · have hsame : SameLine here.rest ([mark, mark, mark] ++ tail) :=
        hsplit ▸ htail.append_left [mark, mark, mark]
      have hat' := hsame.atMarker_eq (isBreak_eq_false_of_isInk hmark) here.line line here.column
      rw [if_pos (hat'.trans hat)]
      rfl
  · rw [if_neg hat] at h
    exact absurd h (by simp)

/-! ### Names and scalars -/

/-- A reader of characters that are no white space. -/
theorem takes_chars {f : List Char → Option ((Token × Bool) × List Char)}
    (hf : ∀ {cs rest : List Char} {out : Token × Bool}, f (c :: cs) = some (out, rest) →
      ∃ used, c :: cs = used ++ rest ∧ (∀ d ∈ used, IsInk d) ∧
        ∀ tail, SameLine rest tail → f (used ++ tail) = some (out, tail)) :
    Takes true c fun here ↦ (f here.rest).map fun x ↦
      (x.1, here.skip (here.rest.length - x.2.length)) := by
  refine ⟨fun {here next out cs} hcs h ↦ ?_⟩
  obtain ⟨⟨t, rest⟩, hread, heq⟩ := Option.map_eq_some_iff.mp h
  obtain ⟨rfl, rfl⟩ := Prod.mk.inj heq
  obtain ⟨used, hrest, hused, hlocal⟩ := hf (hcs ▸ hread)
  have hlength (tail : List Char) : (used ++ tail).length - tail.length = used.length := by simp
  simp only [Cursor.skip, hcs, hrest, hlength, List.drop_left]
  refine ⟨used, 0, rfl, rfl, fun _ d hd ↦ hused d (List.mem_of_getLast? hd),
    fun tail line htail ↦ ?_⟩
  simp only [hlocal tail htail, Option.map_some, hlength, List.drop_left, Nat.add_zero]

def endsName (cs : List Char) : Bool :=
  atSeparator cs || cs.head?.any (['?', ':', ',', ']', '}', '%', '@', '`'].contains ·)

/-- The name of an anchor or an alias behind its mark. -/
def name? (make : String → Token) (cs : List Char) : Option ((Token × Bool) × List Char) :=
  let name := (cs.drop 1).takeWhile isNameChar
  let rest := (cs.drop 1).dropWhile isNameChar
  if name.isEmpty || !endsName rest then none
  else some ((make (String.ofList name), false), rest)

/-- A name is what follows the mark, and a character has to come behind it that may end a name. -/
theorem name?_eq (make : String → Token) (here : Cursor) :
    ((name? make here.rest).map fun x ↦ (x.1, here.skip (here.rest.length - x.2.length))) =
      if ((here.rest.drop 1).takeWhile isNameChar).isEmpty ||
          !endsName (here.skip (((here.rest.drop 1).takeWhile isNameChar).length + 1)).rest then
            none
      else some ((make (String.ofList ((here.rest.drop 1).takeWhile isNameChar)), false),
        here.skip (((here.rest.drop 1).takeWhile isNameChar).length + 1)) := by
  obtain ⟨_ | ⟨c, cs⟩, line, column⟩ := here
  · rfl
  have hlength : (c :: cs).length - (cs.dropWhile isNameChar).length =
      (cs.takeWhile isNameChar).length + 1 := by
    have hsplit := congrArg List.length
        (List.takeWhile_append_dropWhile (p := isNameChar) (l := cs))
    rw [List.length_append] at hsplit
    rw [List.length_cons]
    omega
  simp only [name?, Cursor.skip, List.drop_succ_cons, List.drop_zero, drop_length_takeWhile]
  split_ifs
  · rfl
  · simp only [Option.map_some, hlength, List.drop_succ_cons, drop_length_takeWhile]

/-- A name does not go on behind a line break. -/
theorem isNameChar_eq_false_of_isBreak (hc : isBreak c) : isNameChar c = false :=
  Bool.eq_false_iff.mpr fun hname ↦ Bool.false_ne_true
    ((isBreak_eq_false_of_isInk (Tag.isInk_of_isNameChar hname)).symm.trans hc)

/-- A name ends in front of texts with the same first line alike. -/
theorem endsName_eq (h : SameLine cs cs') : endsName cs' = endsName cs := by
  rw [endsName, endsName, h.atSeparator_eq, h.head?_eq]

/-- What is read as a name stands on one line, and it is read the same whatever follows that line.
-/
theorem taken_name? (make : String → Token) (hc : IsInk c) {out : Token × Bool}
    (h : name? make (c :: cs) = some (out, rest)) :
    ∃ used, c :: cs = used ++ rest ∧ (∀ d ∈ used, IsInk d) ∧
      ∀ tail, SameLine rest tail → name? make (used ++ tail) = some (out, tail) := by
  simp only [name?, List.drop_one, List.tail_cons] at h
  split at h
  · exact absurd h (by simp)
  next hgood =>
    obtain ⟨rfl, rfl⟩ := Prod.mk.inj (Option.some.inj h)
    refine ⟨c :: cs.takeWhile isNameChar, ?_, ?_, fun tail htail ↦ ?_⟩
    · rw [List.cons_append, List.takeWhile_append_dropWhile]
    · exact List.forall_mem_cons.mpr ⟨hc, fun d hd ↦
        Tag.isInk_of_isNameChar (List.mem_takeWhile_imp hd)⟩
    · obtain ⟨htake, hdrop⟩ := htail.takeWhile_append fun _ ↦ isNameChar_eq_false_of_isBreak
      simp only [name?, List.cons_append, List.drop_one, List.tail_cons, htake, hdrop,
        endsName_eq htail]
      exact if_neg hgood

/-- A tag, and white space behind it or the comma of a flow collection. -/
def tag? (flow : Bool) (cs : List Char) : Option ((Token × Bool) × List Char) :=
  (Tag.read? cs).bind fun x ↦
    if atSeparator x.2.2 || (flow && x.2.2.head? == some ',') then
      some ((.tag x.1 x.2.1, false), x.2.2)
    else none

/-- What is read as a tag in a scan stands on one line, and it is read the same whatever follows
that line. -/
theorem taken_tag? (flow : Bool) {out : Token × Bool} (h : tag? flow cs = some (out, rest)) :
    ∃ used, cs = used ++ rest ∧ (∀ d ∈ used, IsInk d) ∧
      ∀ tail, SameLine rest tail → tag? flow (used ++ tail) = some (out, tail) := by
  obtain ⟨⟨handle, suffix, behind⟩, hread, hend⟩ := Option.bind_eq_some_iff.mp h
  simp only at hend
  split at hend
  next hgood =>
    obtain ⟨rfl, rfl⟩ := Prod.mk.inj (Option.some.inj hend)
    obtain ⟨used, hused, hink, hlocal⟩ := Tag.taken_read? hread
    refine ⟨used, hused, hink, fun tail htail ↦ ?_⟩
    simp only [tag?, hlocal tail htail, Option.bind_some, htail.atSeparator_eq, htail.head?_eq]
    exact if_pos hgood
  next => exact absurd hend (by simp)

/-- A quoted scalar looks no further than the end of the line where its last quote stands. -/
theorem takes_quoted (quote : Quote) : Takes true quote.mark fun here ↦
    (Quoted.read quote here).map fun x ↦ ((.scalar false (String.ofList x.1), false), x.2) := by
  refine ⟨fun {here next out cs} hrest h ↦ ?_⟩
  obtain ⟨⟨text, stop⟩, hread, heq⟩ := Option.map_eq_some_iff.mp h
  obtain ⟨rfl, rfl⟩ := Prod.mk.inj heq
  obtain ⟨used, lines, hused, hline, hlocal⟩ := Quoted.taken_read hread hrest
  refine ⟨used ++ [quote.mark], lines, by simp [hused], hline, fun _ d hd ↦ ?_,
    fun tail line htail ↦ ?_⟩
  · obtain rfl : quote.mark = d := by simpa using hd
    cases quote <;> rfl
  · rw [List.append_assoc, List.singleton_append, hlocal tail line htail]
    rfl

/-- A plain scalar looks no further than the line where it ends, which may go on behind it. -/
theorem takes_plain (flow : Bool) (margin : Nat) : Takes false c fun here ↦
    (Plain.read flow margin here).map fun x ↦
      ((.scalar true (String.ofList x.1), x.2.1), x.2.2) := by
  refine ⟨fun {here next out cs} _ h ↦ ?_⟩
  obtain ⟨⟨text, broken, stop⟩, hread, heq⟩ := Option.map_eq_some_iff.mp h
  obtain ⟨rfl, rfl⟩ := Prod.mk.inj heq
  obtain ⟨used, lines, hused, hline, hlocal⟩ := Plain.taken_read hread
  refine ⟨used, lines, hused, hline, fun hfalse ↦ absurd hfalse (by decide),
    fun tail line htail ↦ ?_⟩
  rw [hlocal tail line htail]
  rfl

/-- A block scalar looks no further than the line behind its last one. -/
theorem takes_block (folded : Bool) (base margin : Nat) : Takes false c fun here ↦
    (Block.read folded base margin here).map fun x ↦
      ((.scalar false (String.ofList x.1), true), x.2) := by
  refine ⟨fun {here next out cs} hrest h ↦ ?_⟩
  obtain ⟨⟨text, stop⟩, hread, heq⟩ := Option.map_eq_some_iff.mp h
  obtain ⟨rfl, rfl⟩ := Prod.mk.inj heq
  obtain ⟨used, lines, hused, hline, hlocal⟩ := Block.taken_read hread hrest
  refine ⟨c :: used, lines, hused, hline, fun hfalse ↦ absurd hfalse (by decide),
    fun tail line htail ↦ ?_⟩
  rw [List.cons_append, hlocal tail line htail]
  rfl

/-! ### Directives -/

/-- A line break is no digit. -/
theorem isDigit_eq_false_of_isBreak (hc : isBreak c) : c.isDigit = false := by
  simp only [isBreak, Bool.or_eq_true, decide_eq_true_eq] at hc
  rcases hc with (rfl | rfl) | rfl <;> decide

/-- The minor number of a version, behind the major one. -/
def minor? (major : List Char) (here : Cursor) : Option (Token × Cursor) :=
  if here.rest.head? == some '.' then
    (if here.rest.isEmpty then none else some ((), here.skip 1)).bind fun x ↦
      (some (x.2.rest.takeWhile Char.isDigit, x.2.skipWhile Char.isDigit)).bind fun minor ↦
        (if major == ['1'] && (minor.1 == ['1'] || minor.1 == ['2']) then some Token.version
          else none).map fun t ↦ (t, minor.2)
  else none

/-- The second number of a version stands on the line of the first one. -/
theorem local_minor? (major : List Char) : PlaceLocal (minor? major) := by
  have hminor : PlaceLocal fun here ↦
      (some (here.rest.takeWhile Char.isDigit, here.skipWhile Char.isDigit)).bind fun minor ↦
        (if major == ['1'] && (minor.1 == ['1'] || minor.1 == ['2']) then some Token.version
          else none).map fun t ↦ (t, minor.2) :=
    (PlaceLocal.takeWhile fun _ ↦ isDigit_eq_false_of_isBreak).bind
      (g := fun minor here ↦
        (if major == ['1'] && (minor == ['1'] || minor == ['2']) then some Token.version
          else none).map fun t ↦ (t, here))
      fun _ ↦ .lift _
  exact .ite (p := fun cs ↦ cs.head? == some '.') (fun h ↦ by rw [h.head?_eq])
    (PlaceLocal.skipOne.bind fun _ ↦ hminor) .fail

/-- What the handle of a tag stands for, behind the handle. -/
def meaning? (handle : List Char) (here : Cursor) : Option (Token × Cursor) :=
  (some (here.rest.takeWhile isGap, here.skipWhile isGap)).bind fun gap ↦
    (((Tag.suffix? true gap.2.rest.length gap.2.rest).map fun x ↦
        ((x.1, decide (x.2.length < gap.2.rest.length)), x.2)).map fun x ↦
      (x.1, gap.2.skip (gap.2.rest.length - x.2.length))).bind fun meaning ↦
        (if (handle.length = 1 || handle.getLast? == some '!') && meaning.1.2 && !gap.1.isEmpty then
          some (Token.tagHandle (String.ofList handle) (String.ofList meaning.1.1))
          else none).map fun t ↦ (t, meaning.2)

/-- The prefix that a handle stands for is read within its line. -/
theorem local_meaning? (handle : List Char) : PlaceLocal (meaning? handle) := by
  have hmeaning (gap : List Char) : PlaceLocal fun here ↦
      (((Tag.suffix? true here.rest.length here.rest).map fun x ↦
        ((x.1, decide (x.2.length < here.rest.length)), x.2)).map fun x ↦
          (x.1, here.skip (here.rest.length - x.2.length))).bind fun meaning ↦
        (if (handle.length = 1 || handle.getLast? == some '!') && meaning.1.2 && !gap.isEmpty then
          some (Token.tagHandle (String.ofList handle) (String.ofList meaning.1.1))
          else none).map fun t ↦ (t, meaning.2) :=
    (PlaceLocal.ofChars (Tag.local_suffix? true).counted).bind
      (g := fun meaning here ↦
        (if (handle.length = 1 || handle.getLast? == some '!') && meaning.2 && !gap.isEmpty then
          some (Token.tagHandle (String.ofList handle) (String.ofList meaning.1))
          else none).map fun t ↦ (t, here))
      fun _ ↦ .lift _
  exact (PlaceLocal.takeWhile fun _ ↦ isGap_of_isBreak).bind hmeaning

/-- A directive behind its name. -/
def body? (name : List Char) (here : Cursor) : Option (Token × Cursor) :=
  (some ((), here.skipWhile isGap)).bind fun x ↦
    if name = ['Y', 'A', 'M', 'L'] then
      (some (x.2.rest.takeWhile Char.isDigit, x.2.skipWhile Char.isDigit)).bind fun major ↦
        minor? major.1 major.2
    else if name = ['T', 'A', 'G'] then
      ((Tag.handle? x.2.rest).map fun y ↦
        (y.1, x.2.skip (x.2.rest.length - y.2.length))).bind fun handle ↦ meaning? handle.1 handle.2
    else none

/-- What follows the name of a directive is read within its line. -/
theorem local_body? (name : List Char) : PlaceLocal (body? name) := by
  have hversion : PlaceLocal fun here ↦
      (some (here.rest.takeWhile Char.isDigit, here.skipWhile Char.isDigit)).bind fun major ↦
        minor? major.1 major.2 :=
    (PlaceLocal.takeWhile fun _ ↦ isDigit_eq_false_of_isBreak).bind local_minor?
  have htag : PlaceLocal fun here ↦ ((Tag.handle? here.rest).map fun y ↦
      (y.1, here.skip (here.rest.length - y.2.length))).bind fun handle ↦
        meaning? handle.1 handle.2 :=
    (PlaceLocal.ofChars Tag.local_handle?).bind local_meaning?
  have hbody (_ : Unit) : PlaceLocal fun here ↦
      if name = ['Y', 'A', 'M', 'L'] then
        (some (here.rest.takeWhile Char.isDigit, here.skipWhile Char.isDigit)).bind fun major ↦
          minor? major.1 major.2
      else if name = ['T', 'A', 'G'] then
        ((Tag.handle? here.rest).map fun y ↦
          (y.1, here.skip (here.rest.length - y.2.length))).bind fun handle ↦
            meaning? handle.1 handle.2
      else none := by
    split
    · exact hversion
    · split
      · exact htag
      · exact .fail
  exact (PlaceLocal.skipWhile fun _ ↦ isGap_of_isBreak).bind hbody

/-- To skip characters twice is to skip them at once. -/
theorem skip_skip (here : Cursor) (m n : Nat) : (here.skip m).skip n = here.skip (m + n) := by
  simp only [Cursor.skip, List.drop_drop, Nat.add_assoc]

/-- White space was skipped if the rest is shorter than before. -/
theorem length_skipWhile_ne (here : Cursor) (p : Char → Bool) :
    decide (here.rest.length ≠ (here.skipWhile p).rest.length) =
      !(here.rest.takeWhile p).isEmpty := by
  have hsplit := congrArg List.length (List.takeWhile_append_dropWhile (p := p) (l := here.rest))
  rw [List.length_append] at hsplit
  rw [Cursor.skipWhile, Cursor.skip, drop_length_takeWhile]
  cases h : here.rest.takeWhile p with
  | nil =>
    rw [h] at hsplit
    simp at hsplit ⊢
    omega
  | cons c cs =>
    rw [h] at hsplit
    simp only [List.length_cons] at hsplit
    simp
    omega

/-- The second number is a one or a two behind a point, and the first one has to be a one. -/
theorem minor?_eq (major : List Char) (here : Cursor) : minor? major here =
    if here.rest.head? == some '.' && major == ['1'] &&
        ((here.rest.drop 1).takeWhile Char.isDigit == ['1'] ||
          (here.rest.drop 1).takeWhile Char.isDigit == ['2']) then
      some (.version, here.skip (1 + ((here.rest.drop 1).takeWhile Char.isDigit).length))
    else none := by
  obtain ⟨_ | ⟨c, cs⟩, line, column⟩ := here
  · rfl
  have hskip : ((⟨c :: cs, line, column⟩ : Cursor).skip 1).skipWhile Char.isDigit =
      (⟨c :: cs, line, column⟩ : Cursor).skip (1 + (cs.takeWhile Char.isDigit).length) := by
    rw [Cursor.skipWhile, skip_skip]
    rfl
  have hrest : ((⟨c :: cs, line, column⟩ : Cursor).skip 1).rest = cs := rfl
  simp only [minor?, List.isEmpty_cons, Bool.false_eq_true, if_false, Option.bind_some, hskip,
    hrest,
    List.drop_one, List.tail_cons]
  split_ifs <;> simp_all

/-- A handle ends with an exclamation mark, and its prefix is all that stands up to the white space.
-/
theorem meaning?_eq (handle : List Char) (here : Cursor) : meaning? handle here =
    (Tag.suffix? true (here.skipWhile isGap).rest.length (here.skipWhile isGap).rest).bind fun x ↦
      if (handle.length = 1 || handle.getLast? == some '!') &&
          x.2.length < (here.skipWhile isGap).rest.length &&
          here.rest.length ≠ (here.skipWhile isGap).rest.length then
        some (.tagHandle (String.ofList handle) (String.ofList x.1),
          (here.skipWhile isGap).skip ((here.skipWhile isGap).rest.length - x.2.length))
      else none := by
  simp only [meaning?, Option.bind_some, length_skipWhile_ne]
  cases Tag.suffix? true (here.skipWhile isGap).rest.length (here.skipWhile isGap).rest with
  | none => rfl
  | some x =>
    simp only [Option.map_some, Option.bind_some]
    split <;> rfl

/-- The name of a directive decides on what has to follow it. -/
theorem directiveBody?_eq (name : List Char) (here : Cursor) :
    directiveBody? name here = body? name here := by
  rw [directiveBody?, body?]
  simp only [Option.bind_some, minor?_eq, meaning?_eq]
  split
  · rfl
  · split
    · cases Tag.handle? (here.skipWhile isGap).rest <;> rfl
    · rfl

/-- A directive up to the end of its line, and the line break. -/
def directive? (here : Cursor) : Option (Token × Cursor) :=
  (if here.rest.isEmpty then none else some ((), here.skip 1)).bind fun mark ↦
    (some (mark.2.rest.takeWhile isNameChar, mark.2.skipWhile isNameChar)).bind fun name ↦
      (body? name.1 name.2).bind fun body ↦
        (lineTail? body.2).bind fun stop ↦
          (some ((), stop.2.endLine)).bind fun next ↦ some (body.1, next.2)

/-- A directive is read within its line. -/
theorem local_directive? : PlaceLocal directive? := by
  have hend (t : Token) : PlaceLocal fun here ↦ (lineTail? here).bind fun stop ↦
      (some ((), stop.2.endLine)).bind fun next ↦ some (t, next.2) :=
    local_lineTail?.bind (g := fun _ here ↦ (some ((), here.endLine)).bind fun next ↦
      some (t, next.2))
      fun _ ↦ PlaceLocal.endLine.bind fun _ ↦ .pure t
  have hbody (name : List Char) : PlaceLocal fun here ↦ (body? name here).bind fun body ↦
      (lineTail? body.2).bind fun stop ↦
        (some ((), stop.2.endLine)).bind fun next ↦ some (body.1, next.2) :=
    (local_body? name).bind hend
  have hname (_ : Unit) : PlaceLocal fun here ↦
      (some (here.rest.takeWhile isNameChar, here.skipWhile isNameChar)).bind fun name ↦
        (body? name.1 name.2).bind fun body ↦ (lineTail? body.2).bind fun stop ↦
          (some ((), stop.2.endLine)).bind fun next ↦ some (body.1, next.2) :=
    (PlaceLocal.takeWhile fun _ ↦ isNameChar_eq_false_of_isBreak).bind hbody
  exact PlaceLocal.skipOne.bind hname

/-- A directive looks no further than the end of its line. -/
theorem takes_directive : Takes false c fun here ↦
    (directive? here).map fun x ↦ ((x.1, false), x.2) := by
  refine ⟨fun {here next out cs} _ h ↦ ?_⟩
  obtain ⟨⟨t, stop⟩, hread, heq⟩ := Option.map_eq_some_iff.mp h
  obtain ⟨rfl, rfl⟩ := Prod.mk.inj heq
  obtain ⟨used, lines, hused, hline, hlocal⟩ := local_directive?.taken hread
  refine ⟨used, lines, hused, hline, fun hfalse ↦ absurd hfalse (by decide),
    fun tail line htail ↦ ?_⟩
  rw [hlocal tail line htail]
  rfl

/-- A directive ends all blocks before it is read, and no key can stand in front of it. -/
theorem directive_eq (h : s.here.rest = c :: cs) : s.directive =
    ((s.closeTo none).dropKey).bind fun s ↦
      s.takeToken fun here ↦ (directive? here).map fun x ↦ ((x.1, false), x.2) := by
  rw [directive]
  cases hdrop : (s.closeTo none).dropKey with
  | none => rfl
  | some dropped =>
    have hhere : dropped.here = s.here :=
      (steady_dropKey.here hdrop).trans ((steady_closeTo none).here rfl)
    have hrest : dropped.here.rest = c :: cs := hhere ▸ h
    simp only [Option.bind_eq_bind, Option.bind_some, takeToken, directive?, hrest,
      List.isEmpty_cons, Bool.false_eq_true, if_false, directiveBody?_eq]
    change (body? _ ((dropped.here.skip 1).skipWhile isNameChar)).bind _ = _
    cases body? ((dropped.here.skip 1).rest.takeWhile isNameChar)
        ((dropped.here.skip 1).skipWhile isNameChar) with
    | none => rfl
    | some body =>
      simp only [Option.bind_some, lineTail?]
      split_ifs <;> rfl

/-! ### Steps -/

/-- A step of punctuation takes one character. -/
theorem stepLocal_punctuation (hc : IsInk c) (t : Token) {allowed : Scan → Bool}
    (hallowed : ∀ s longer lower tail, allowed (s.moved longer lower tail) = allowed s) :
    StepLocal true c fun s ↦ some (s.punctuation t (allowed s)) := by
  have hread (s : Scan) : Takes true c fun here ↦ some ((t, allowed s), here.skip 1) :=
    takes_punctuation hc t (allowed s)
  exact .ofTakes hread fun s longer lower tail ↦ by rw [hallowed]

/-- The scan inside of brackets that open here. -/
def enter (s : Scan) : Scan := { s with outerKeys := s.keyPlace :: s.outerKeys, keyPlace := none }

/-- To enter brackets is a preparation. -/
theorem steady_enter : Steady fun s ↦ some s.enter := by
  refine .ofMap (fun _ ↦ rfl) (fun s k hk ↦ ?_) fun _ _ _ _ ↦ rfl
  rcases List.mem_cons.mp hk with rfl | hk
  · exact .inl rfl
  · exact .inr hk

/-- The scan outside of brackets that close here. -/
def leave (s : Scan) : Scan :=
  match s.outerKeys with
  | [] => s
  | outer :: outers => { s with keyPlace := outer, outerKeys := outers }

/-- To leave brackets is a preparation. -/
theorem steady_leave : Steady fun s ↦ some s.leave := by
  refine .ofMap (fun s ↦ ?_) (fun s k hk ↦ .inr ?_) fun s longer lower tail ↦ ?_
  · unfold leave
    split <;> rfl
  · unfold leave at hk
    split at hk
    · exact hk
    next outer outers houter => exact List.mem_cons_of_mem _ (houter ▸ hk)
  · unfold leave
    rw [moved_outerKeys]
    split
    next hnil =>
      rw [List.map_eq_nil_iff] at hnil
      simp [hnil]
    next outer outers hcons =>
      obtain ⟨outer, outers, houter, rfl, rfl⟩ := List.map_eq_cons_iff.mp hcons
      simp only [houter]
      rfl

/-- An opening bracket is a step within its line. -/
theorem stepLocal_openBracket (hc : IsInk c) (t : Token) : StepLocal true c (openBracket t) := by
  have heq : openBracket t = fun s ↦ s.markKey.bind fun s ↦
      (some s.enter).bind fun s ↦ some (s.punctuation t true) := by
    funext s
    rw [openBracket]
    cases s.markKey <;> rfl
  rw [heq]
  exact .prepare steady_markKey
    (.prepare steady_enter (stepLocal_punctuation hc t fun _ _ _ _ ↦ rfl))

/-- A closing bracket is a step within its line. -/
theorem stepLocal_closeBracket (hc : IsInk c) (t : Token) : StepLocal true c (closeBracket t) := by
  have heq : closeBracket t = fun s ↦ s.dropKey.bind fun s ↦
      (some s.leave).bind fun s ↦ some (s.punctuation t false) := by
    funext s
    rw [closeBracket]
    cases s.dropKey <;> rfl
  rw [heq]
  exact .prepare steady_dropKey
    (.prepare steady_leave (stepLocal_punctuation hc t fun _ _ _ _ ↦ rfl))

/-- A comma is a step within its line. -/
theorem stepLocal_flowEntry (hc : IsInk c) :
    StepLocal true c fun s ↦ s.dropKey.map (·.punctuation .flowEntry true) := by
  have heq : (fun s : Scan ↦ s.dropKey.map (·.punctuation .flowEntry true)) = fun s ↦
      s.dropKey.bind fun s ↦ some (s.punctuation .flowEntry true) := by
    funext s
    cases s.dropKey <;> rfl
  rw [heq]
  exact .prepare steady_dropKey (stepLocal_punctuation hc _ fun _ _ _ _ ↦ rfl)

/-- The dash of an item is a step within its line. -/
theorem stepLocal_blockEntry (hc : IsInk c) : StepLocal true c blockEntry :=
  .prepare (steady_openHere _)
    (.prepare steady_dropKey (stepLocal_punctuation hc .blockEntry fun _ _ _ _ ↦ rfl))

/-- The question mark of a key is a step within its line. -/
theorem stepLocal_explicitKey (hc : IsInk c) : StepLocal true c explicitKey :=
  .prepare (steady_openHere _) (.prepare steady_dropKey
    (stepLocal_punctuation hc .key fun _ _ _ _ ↦ congrArg _ moved_inFlow))

/-- The colon behind a key is a step within its line. -/
theorem stepLocal_value (hc : IsInk c) : StepLocal true c value := by
  have heq : value = fun s ↦ if s.keyPlace.isSome then
      s.openKey.bind fun s ↦ some (s.punctuation .value false)
      else (s.openHere .blockMappingStart).bind fun s ↦
        some (s.punctuation .value (!s.inFlow)) := by
    funext s
    rw [value, openKey]
    cases s.keyPlace <;> rfl
  rw [heq]
  exact .ite (fun s _ _ _ ↦ Option.isSome_map)
    (.prepare steady_openKey (stepLocal_punctuation hc .value fun _ _ _ _ ↦ rfl))
    (.prepare (steady_openHere _)
      (stepLocal_punctuation hc .value fun _ _ _ _ ↦ congrArg _ moved_inFlow))

/-- An anchor and an alias are steps within their line. -/
theorem stepLocal_reference (hc : IsInk c) (make : String → Token) :
    StepLocal true c (reference make) := by
  have heq : reference make = fun s ↦ s.markKey.bind fun s ↦ s.takeToken fun here ↦
      (name? make here.rest).map fun x ↦
        (x.1, here.skip (here.rest.length - x.2.length)) := by
    funext s
    rw [reference]
    cases s.markKey with
    | none => rfl
    | some s =>
      simp only [Option.bind_eq_bind, Option.bind_some, takeToken, name?_eq]
      change (if _ || !endsName _ then none else _) = _
      split_ifs <;> rfl
  rw [heq]
  exact .prepare steady_markKey (.ofTakes (fun _ ↦ takes_chars fun h ↦ taken_name? make hc h)
    fun _ _ _ _ ↦ rfl)

/-- A tag is a step within its line. -/
theorem stepLocal_tag : StepLocal true c tag := by
  have heq : tag = fun s ↦ s.markKey.bind fun s ↦ s.takeToken fun here ↦
      (tag? s.inFlow here.rest).map fun x ↦
        (x.1, here.skip (here.rest.length - x.2.length)) := by
    funext s
    rw [tag]
    cases s.markKey with
    | none => rfl
    | some s =>
      simp only [Option.bind_eq_bind, Option.bind_some, takeToken, tag?]
      cases Tag.read? s.here.rest with
      | none => rfl
      | some x =>
        simp only [Option.bind_some]
        split <;> rfl
  rw [heq]
  exact .prepare steady_markKey (.ofTakes (fun s ↦ takes_chars fun h ↦ taken_tag? s.inFlow h)
    fun _ _ _ _ ↦ by rw [moved_inFlow])

/-- A quoted scalar is a step that ends within a line. -/
theorem stepLocal_quoted (quote : Quote) : StepLocal true quote.mark (quoted quote) := by
  have heq : quoted quote = fun s ↦ s.markKey.bind fun s ↦ s.takeToken fun here ↦
      (Quoted.read quote here).map fun x ↦ ((.scalar false (String.ofList x.1), false), x.2) := by
    funext s
    rw [quoted]
    cases s.markKey with
    | none => rfl
    | some s =>
      simp only [Option.bind_eq_bind, Option.bind_some, takeToken]
      cases Quoted.read quote s.here <;> rfl
  rw [heq]
  exact .prepare steady_markKey (.ofTakes (fun _ ↦ takes_quoted quote) fun _ _ _ _ ↦ rfl)

/-- A block scalar is read with the column of the innermost block, and no key stands in front of it.
-/
theorem block_eq (folded : Bool) : block folded = fun s ↦ s.dropKey.bind fun s ↦
    s.takeToken fun here ↦ (Block.read folded (s.levels.headD 0) s.margin here).map fun x ↦
      ((.scalar false (String.ofList x.1), true), x.2) := by
  funext s
  rw [block]
  cases s.dropKey with
  | none => rfl
  | some s =>
    simp only [Option.bind_eq_bind, Option.bind_some, takeToken]
    cases Block.read folded (s.levels.headD 0) s.margin s.here <;> rfl

/-- A block scalar is a step up to the line behind it. -/
theorem stepLocal_block (folded : Bool) : StepLocal false c (block folded) := by
  rw [block_eq]
  exact .prepare steady_dropKey (.ofTakes (fun s ↦ takes_block folded _ _) fun _ _ _ _ ↦ rfl)

/-- A plain scalar may be a key, so its place is marked before it is read. -/
theorem plain_eq : plain = fun s ↦ s.markKey.bind fun s ↦ s.takeToken fun here ↦
    (Plain.read s.inFlow s.margin here).map fun x ↦
      ((.scalar true (String.ofList x.1), x.2.1), x.2.2) := by
  funext s
  rw [plain]
  cases s.markKey with
  | none => rfl
  | some s =>
    simp only [Option.bind_eq_bind, Option.bind_some, takeToken]
    cases Plain.read s.inFlow s.margin s.here <;> rfl

/-- A plain scalar is a step up to the line where it ends. -/
theorem stepLocal_plain : StepLocal false c plain := by
  rw [plain_eq]
  exact .prepare steady_markKey (.ofTakes (fun s ↦ takes_plain s.inFlow s.margin)
    fun _ _ _ _ ↦ by rw [moved_inFlow, moved_margin])

/-- A directive is a step within its line. -/
theorem stepLocal_directive : StepLocal false c directive := by
  have hlocal : StepLocal false c fun s ↦ ((s.closeTo none).dropKey).bind fun s ↦
      s.takeToken fun here ↦ (directive? here).map fun x ↦ ((x.1, false), x.2) :=
    .prepare ((steady_closeTo none).bind steady_dropKey)
      (.ofTakes (fun _ ↦ takes_directive) fun _ _ _ _ ↦ rfl)
  exact hlocal.congr directive_eq

/-- A mark between documents where one stands. -/
def documentMarkerAt (mark : Char) (t : Token) (s : Scan) : Option Scan :=
  if s.here.atMarker mark then s.documentMarker t else none

/-- The mark of a document is a step within its line. -/
theorem stepLocal_documentMarkerAt {mark : Char} (hmark : IsInk mark) (t : Token) :
    StepLocal true c (documentMarkerAt mark t) := by
  have heq : documentMarkerAt mark t = fun s ↦ ((s.closeTo none).dropKey).bind fun s ↦
      s.takeToken fun here ↦
        if here.atMarker mark then some ((t, false), here.skip 3) else none := by
    funext s
    rw [documentMarkerAt, documentMarker]
    cases hdrop : (s.closeTo none).dropKey with
    | none => simp
    | some dropped =>
      have hhere : dropped.here = s.here :=
        (steady_dropKey.here hdrop).trans ((steady_closeTo none).here rfl)
      simp only [Option.bind_eq_bind, Option.bind_some, takeToken, hhere]
      split <;> simp [push, skip, hhere]
  rw [heq]
  exact .prepare ((steady_closeTo none).bind steady_dropKey)
    (.ofTakes (fun _ ↦ takes_marker hmark t) fun _ _ _ _ ↦ rfl)

end Scan

end AlertAudit.Yaml
