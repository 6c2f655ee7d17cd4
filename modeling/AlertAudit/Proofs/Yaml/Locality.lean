import AlertAudit.Proofs.Yaml.Rows

/-!
What a reader of YAML looks at. Besides the characters that it takes, it sees no more than the rest
of the line behind them: where other lines follow that one, it takes the same characters and gives
the same answer (`CharLocal`). So it is with tags and with the runs of characters in scalars.
-/

set_option autoImplicit false

namespace AlertAudit.Yaml

open AlertAudit.Text

variable {α β : Type} {c : Char} {cs cs' rest tail : List Char}

/-! ### Texts with the same first line -/

/-- Two texts with the same first line, which ends with the same break or ends both. -/
inductive SameLine : List Char → List Char → Prop
  | nil : SameLine [] []
  | break {c : Char} (h : isBreak c) (cs cs' : List Char) : SameLine (c :: cs) (c :: cs')
  | char (c : Char) {cs cs' : List Char} : SameLine cs cs' → SameLine (c :: cs) (c :: cs')

namespace SameLine

/-- Each text has the same first line as itself. -/
@[refl] theorem refl (cs : List Char) : SameLine cs cs := by
  induction cs with
  | nil => exact .nil
  | cons c _ ih => exact .char c ih

/-- It does not matter which text comes first. -/
theorem symm (h : SameLine cs cs') : SameLine cs' cs := by
  induction h with
  | nil => exact .nil
  | «break» hc cs cs' => exact .break hc cs' cs
  | char c _ ih => exact .char c ih

/-- Characters in front of both texts keep their first lines the same. -/
theorem append_left (used : List Char) (h : SameLine cs cs') :
    SameLine (used ++ cs) (used ++ cs') := by
  induction used with
  | nil => exact h
  | cons c used ih => exact .char c ih

/-- Texts that go on differently behind a line break have the same first line. -/
theorem append_right {front : List Char} (hfront : front.getLast? = some '\n')
    (cs cs' : List Char) : SameLine (front ++ cs) (front ++ cs') := by
  obtain ⟨front, rfl⟩ : ∃ before, front = before ++ ['\n'] :=
    ⟨front.dropLast, (List.dropLast_append_getLast? _ hfront).symm⟩
  rw [List.append_assoc, List.append_assoc]
  exact append_left front (.break (by decide) cs cs')

/-- Such texts start with the same character, if they have one. -/
theorem head?_eq (h : SameLine cs cs') : cs'.head? = cs.head? := by
  cases h <;> rfl

/-- Behind a character that ends no line, the texts still have the same first line. -/
theorem exists_cons (h : SameLine (c :: cs) cs') :
    ∃ rest, cs' = c :: rest ∧ (isBreak c = false → SameLine cs rest) := by
  cases h with
  | «break» hc _ rest => exact ⟨rest, rfl, fun h ↦ absurd (h.symm.trans hc) (by decide)⟩
  | char _ h => exact ⟨_, rfl, fun _ ↦ h⟩

/-- A separator stands in front of both texts or of none of them. -/
theorem atSeparator_eq (h : SameLine cs cs') : atSeparator cs' = atSeparator cs := by
  cases h <;> rfl

/-- The line ends in front of both texts or of none of them. -/
theorem atLineEnd_eq (h : SameLine cs cs') : atLineEnd cs' = atLineEnd cs := by
  cases h <;> rfl

/-- What is taken within the line is the same. -/
theorem takeWhile_eq (h : SameLine cs cs') {p : Char → Bool}
    (hp : ∀ c, isBreak c → p c = false) : cs'.takeWhile p = cs.takeWhile p := by
  induction h with
  | nil => rfl
  | «break» hc cs cs' =>
    rw [List.takeWhile_cons_of_neg (by simp [hp _ hc]),
      List.takeWhile_cons_of_neg (by simp [hp _ hc])]
  | char c _ ih => rw [List.takeWhile_cons, List.takeWhile_cons, ih]

/-- Behind characters that end no line, the texts still have the same first line. -/
theorem dropWhile (h : SameLine cs cs') {p : Char → Bool} (hp : ∀ c, isBreak c → p c = false) :
    SameLine (cs.dropWhile p) (cs'.dropWhile p) := by
  induction h with
  | nil => exact .nil
  | «break» hc cs cs' =>
    rw [List.dropWhile_cons_of_neg (by simp [hp _ hc]),
      List.dropWhile_cons_of_neg (by simp [hp _ hc])]
    exact .break hc cs cs'
  | @char c cs cs' h ih =>
    rw [List.dropWhile_cons, List.dropWhile_cons]
    split
    · exact ih
    · exact h.char c

/-- What is taken within the line is all that is taken where the line goes on as it did. -/
theorem takeWhile_append {p : Char → Bool} (hp : ∀ c, isBreak c → p c = false)
    (h : SameLine (cs.dropWhile p) tail) :
    (cs.takeWhile p ++ tail).takeWhile p = cs.takeWhile p ∧
      (cs.takeWhile p ++ tail).dropWhile p = tail := by
  have hline := h.append_left (cs.takeWhile p)
  rw [List.takeWhile_append_dropWhile] at hline
  have htaken := hline.takeWhile_eq hp
  have hsplit := List.takeWhile_append_dropWhile (p := p) (l := cs.takeWhile p ++ tail)
  rw [htaken] at hsplit
  exact ⟨htaken, List.append_cancel_left hsplit⟩

theorem take_one_eq (h : SameLine cs cs') : cs'.take 1 = cs.take 1 := by
  cases h <;> rfl

/-- Two characters at the start of one text are at the start of the other one, unless the first of
them ends the line. -/
theorem take_two_eq {a b : Char} (ha : isBreak a = false) (h : SameLine cs cs')
    (htake : cs'.take 2 = [a, b]) : cs.take 2 = [a, b] := by
  rcases h with _ | ⟨hc, _, _⟩ | ⟨c₁, _ | ⟨hc, _, _⟩ | ⟨c₂, h⟩⟩
  case «break» => simp_all
  case char.break => simp_all
  all_goals exact htake

/-- A mark of a document stands on one line. -/
theorem atMarker_eq {mark : Char} (hmark : isBreak mark = false) (h : SameLine cs cs')
    (line line' column : Nat) :
    Cursor.atMarker mark ⟨cs', line', column⟩ = Cursor.atMarker mark ⟨cs, line, column⟩ := by
  have hne {c : Char} (hc : isBreak c) : c ≠ mark := fun heq ↦
    Bool.false_ne_true (hmark.symm.trans (heq ▸ hc))
  rcases h with _ | ⟨hc, _, _⟩ | ⟨c₁, _ | ⟨hc, _, _⟩ | ⟨c₂, _ | ⟨hc, _, _⟩ | ⟨c₃, h⟩⟩⟩
  case char.char.char => simp [Cursor.atMarker, h.atSeparator_eq]
  case nil => rfl
  case char.nil => rfl
  case char.char.nil => rfl
  all_goals simp [Cursor.atMarker, beq_eq_false_iff_ne.mpr (hne hc)]

/-- A document starts or ends in front of both texts or of none of them. -/
theorem atDocumentMarker_eq (h : SameLine cs cs') (line line' column : Nat) :
    Cursor.atDocumentMarker ⟨cs', line', column⟩ =
      Cursor.atDocumentMarker ⟨cs, line, column⟩ := by
  rw [Cursor.atDocumentMarker, Cursor.atDocumentMarker,
    atMarker_eq (by decide) h line line', atMarker_eq (by decide) h line line']

end SameLine

/-! ### Readers -/

/-- The reader takes characters of a class, and looks no further than the end of the line. -/
structure CharLocal (P : Char → Prop) (f : List Char → Option (α × List Char)) : Prop where
  taken : ∀ {cs : List Char} {out : α} {rest : List Char}, f cs = some (out, rest) →
    ∃ used, cs = used ++ rest ∧ (∀ c ∈ used, P c) ∧
      ∀ tail, SameLine rest tail → f (used ++ tail) = some (out, tail)

def IsInk (c : Char) : Prop := isSeparator c = false

instance : DecidablePred IsInk := fun c ↦ inferInstanceAs (Decidable (isSeparator c = false))

/-- A class without white space. -/
theorem isInk_of_class {p : Char → Bool}
    (hp : [' ', '\t', '\n', '\u2028', '\u2029'].all (!p ·)) (h : p c) : IsInk c := by
  refine Bool.eq_false_iff.mpr fun hc ↦ ?_
  have hmem : c ∈ [' ', '\t', '\n', '\u2028', '\u2029'] := by
    simpa [isSeparator, isGap, isBreak, or_assoc] using hc
  simpa [h] using List.all_eq_true.mp hp c hmem

/-- A digit is no white space. -/
theorem isInk_of_digit? {base value : Nat} (h : digit? base c = some value) : IsInk c :=
  isInk_of_class (p := fun c ↦ (digit? base c).isSome) (by simp [digit?]) (h ▸ rfl)

theorem isBreak_eq_false_of_isInk (h : IsInk c) : isBreak c = false :=
  (Bool.or_eq_false_iff.mp h).2

namespace CharLocal

variable {P : Char → Prop}

/-- A reader that takes nothing looks at nothing. -/
theorem pure (out : α) : CharLocal P fun cs ↦ some (out, cs) := by
  refine ⟨fun {cs out' rest} h ↦ ?_⟩
  obtain ⟨rfl, rfl⟩ : out = out' ∧ cs = rest := by simpa using h
  exact ⟨[], rfl, by simp, fun tail _ ↦ rfl⟩

theorem fail : CharLocal P fun _ ↦ (none : Option (α × List Char)) :=
  ⟨fun h ↦ absurd h (by simp)⟩

/-- Such a reader never gives back more than it was given. -/
theorem length_le {f : List Char → Option (α × List Char)} (hf : CharLocal P f) {out : α}
    (h : f cs = some (out, rest)) : rest.length ≤ cs.length := by
  obtain ⟨used, rfl, -, -⟩ := hf.taken h
  simp

/-- A reader may give an answer or fail without a look at the text. -/
theorem lift (o : Option α) : CharLocal P fun cs ↦ o.map fun out ↦ (out, cs) := by
  cases o with
  | none => exact fail
  | some out => exact pure out

/-- The choice between two such readers is one, if the text does not decide it. -/
theorem ite {f g : List Char → Option (α × List Char)} (p : Prop) [Decidable p] (hf : CharLocal P f)
    (hg : CharLocal P g) : CharLocal P fun cs ↦ if p then f cs else g cs := by
  by_cases hp : p
  · simpa only [if_pos hp] using hf
  · simpa only [if_neg hp] using hg

/-- A reader goes on behind another one, and both look at no more than their lines. -/
theorem bind {f : List Char → Option (α × List Char)} {g : α → List Char → Option (β × List Char)}
    (hf : CharLocal P f) (hg : ∀ a, CharLocal P (g a)) :
    CharLocal P fun cs ↦ (f cs).bind fun x ↦ g x.1 x.2 := by
  refine ⟨fun {cs out rest} h ↦ ?_⟩
  obtain ⟨⟨a, middle⟩, hfirst, hsecond⟩ := Option.bind_eq_some_iff.mp h
  obtain ⟨first, rfl, hfirstUsed, hfirstLocal⟩ := hf.taken hfirst
  obtain ⟨second, rfl, hsecondUsed, hsecondLocal⟩ := (hg a).taken hsecond
  refine ⟨first ++ second, by simp, List.forall_mem_append.mpr ⟨hfirstUsed, hsecondUsed⟩,
    fun tail htail ↦ ?_⟩
  have htaken := hfirstLocal _ (htail.append_left second)
  simp only [List.append_assoc, htaken, Option.bind_some, hsecondLocal tail htail]

/-- Whether the reader takes anything is also told by what it takes. -/
theorem counted {f : List Char → Option (α × List Char)} (hf : CharLocal P f) : CharLocal P fun cs ↦
    (f cs).map fun x ↦ ((x.1, decide (x.2.length < cs.length)), x.2) := by
  refine ⟨fun {cs out rest} h ↦ ?_⟩
  obtain ⟨⟨a, stop⟩, hread, heq⟩ := Option.map_eq_some_iff.mp h
  obtain ⟨rfl, rfl⟩ := Prod.mk.inj heq
  obtain ⟨used, rfl, hused, hlocal⟩ := hf.taken hread
  exact ⟨used, rfl, hused, fun tail htail ↦ by simp [hlocal tail htail]⟩

/-- A character of the class in front of what a reader takes. -/
theorem cons {f g : List Char → Option (α × List Char)} (hc : P c) (hg : CharLocal P g)
    (hcons : ∀ cs, f (c :: cs) = g cs)
    (hsome : ∀ cs, (f cs).isSome → ∃ cs', cs = c :: cs') : CharLocal P f := by
  refine ⟨fun {cs out rest} h ↦ ?_⟩
  obtain ⟨cs', rfl⟩ := hsome cs (h ▸ rfl)
  obtain ⟨used, rfl, hused, hlocal⟩ := hg.taken ((hcons cs').symm.trans h)
  exact ⟨c :: used, rfl, List.forall_mem_cons.mpr ⟨hc, hused⟩,
    fun tail htail ↦ (hcons _).trans (hlocal tail htail)⟩

end CharLocal

/-- Digits that follow each other are read within the line. -/
theorem local_number? (base count value : Nat) : CharLocal IsInk (number? base count value) := by
  induction count generalizing value with
  | zero => exact .pure value
  | succ count ih =>
    refine ⟨fun {cs out rest} h ↦ ?_⟩
    cases cs with
    | nil => exact absurd h (by simp [number?])
    | cons c cs =>
      simp only [number?, Option.bind_eq_bind, Option.bind_eq_some_iff] at h
      obtain ⟨digit, hdigit, h⟩ := h
      obtain ⟨used, rfl, hused, hlocal⟩ := (ih _).taken h
      refine ⟨c :: used, rfl, List.forall_mem_cons.mpr ⟨isInk_of_digit? hdigit, hused⟩,
        fun tail htail ↦ ?_⟩
      simp [number?, hdigit, hlocal tail htail]

namespace Tag

/-- An escaped byte of a tag stands on one line. -/
theorem local_byte? : CharLocal IsInk byte? := by
  refine CharLocal.cons (c := '%') rfl (local_number? 16 2 0) (fun _ ↦ rfl) fun cs h ↦ ?_
  unfold byte? at h
  split at h
  next cs => exact ⟨cs, rfl⟩
  next => exact absurd h (by simp)

/-- The further bytes of an encoded character stand on the line of the first one. -/
theorem local_trailing? (count value : Nat) : CharLocal IsInk (trailing? count value) := by
  induction count generalizing value with
  | zero => exact CharLocal.pure value
  | succ count ih =>
    exact local_byte?.bind
      (g := fun byte rest ↦
        if byte / 64 = 2 then trailing? count (value * 64 + byte % 64) rest else none)
      fun byte ↦ .ite (byte / 64 = 2) (ih _) .fail

/-- The number of a character whose first byte has been read. -/
def codePoint? (first : Nat) (cs : List Char) : Option (Nat × List Char) :=
  if first < 0x80 then some (first, cs)
  else if first / 32 = 6 then trailing? 1 (first % 32) cs
  else if first / 16 = 14 then trailing? 2 (first % 16) cs
  else if first / 8 = 30 then trailing? 3 (first % 8) cs
  else none

theorem local_codePoint? (first : Nat) : CharLocal IsInk (codePoint? first) :=
  .ite _ (.pure first) (.ite _ (local_trailing? 1 _) (.ite _ (local_trailing? 2 _)
    (.ite _ (local_trailing? 3 _) .fail)))

/-- An encoded character is one first byte, the bytes that it asks for, and the character that they
give. -/
theorem encoded?_eq : encoded? = fun cs ↦ (byte? cs).bind fun x ↦
    (codePoint? x.1 x.2).bind fun y ↦ (char? y.1).map fun c ↦ (c, y.2) := by
  funext cs
  rw [encoded?]
  cases byte? cs with
  | none => rfl
  | some x =>
    have hchar (value : Nat) (rest : List Char) : (char? value).bind (fun c ↦ some (c, rest)) =
        (char? value).map fun c ↦ (c, rest) := by cases char? value <;> rfl
    simp only [Option.bind_eq_bind, Option.bind_some, codePoint?, Option.pure_def, hchar]
    split_ifs <;> rfl

/-- An encoded character of a tag stands on one line. -/
theorem local_encoded? : CharLocal IsInk encoded? := by
  rw [encoded?_eq]
  exact local_byte?.bind
    (g := fun first rest ↦ (codePoint? first rest).bind fun y ↦ (char? y.1).map fun c ↦ (c, y.2))
    fun first ↦ (local_codePoint? first).bind fun value ↦ .lift (char? value)

/-- An encoded character takes at least one character of the text. -/
theorem length_of_encoded? (h : encoded? cs = some (c, rest)) : rest.length < cs.length := by
  rw [encoded?_eq] at h
  obtain ⟨⟨first, more⟩, hbyte, h⟩ := Option.bind_eq_some_iff.mp h
  obtain ⟨⟨value, last⟩, hvalue, h⟩ := Option.bind_eq_some_iff.mp h
  obtain ⟨_, -, heq⟩ := Option.map_eq_some_iff.mp h
  obtain ⟨-, rfl⟩ := Prod.mk.inj heq
  have hmore : more.length < cs.length := by
    unfold byte? at hbyte
    split at hbyte
    next cs => exact Nat.lt_succ_of_le (length_of_number? hbyte)
    next => exact absurd hbyte (by simp)
  exact Nat.lt_of_le_of_lt ((local_codePoint? first).length_le hvalue) hmore

/-- A character of a name is no white space. -/
theorem isInk_of_isNameChar (h : isNameChar c) : IsInk c := isInk_of_class (by decide) h

/-- A character of a tag is no white space. -/
theorem isInk_of_isTagChar {full : Bool} (h : isTagChar full c) : IsInk c := by
  cases full with
  | false => exact isInk_of_class (by decide) h
  | true => exact isInk_of_class (by decide) h

theorem suffix?_nil (full : Bool) (fuel : Nat) : suffix? full fuel [] = some ([], []) := by
  cases fuel <;> rfl

/-- With fuel for all of the text, more of it changes nothing. -/
theorem taken_suffix? {full : Bool} {fuel : Nat} {out : List Char} (hfuel : cs.length ≤ fuel)
    (h : suffix? full fuel cs = some (out, rest)) :
    ∃ used, cs = used ++ rest ∧ (∀ c ∈ used, IsInk c) ∧ ∀ tail, SameLine rest tail →
      ∀ fuel', (used ++ tail).length ≤ fuel' →
        suffix? full fuel' (used ++ tail) = some (out, tail) := by
  induction fuel generalizing cs out with
  | zero =>
    obtain rfl := List.length_eq_zero_iff.mp (Nat.le_zero.mp hfuel)
    obtain ⟨rfl, rfl⟩ : [] = out ∧ [] = rest := by simpa [suffix?] using h
    refine ⟨[], rfl, by simp, fun tail htail fuel' _ ↦ ?_⟩
    cases htail
    exact suffix?_nil full fuel'
  | succ fuel ih =>
    cases cs with
    | nil =>
      obtain ⟨rfl, rfl⟩ : [] = out ∧ [] = rest := by simpa [suffix?] using h
      refine ⟨[], rfl, by simp, fun tail htail fuel' _ ↦ ?_⟩
      cases htail
      exact suffix?_nil full fuel'
    | cons c cs =>
      rw [suffix?] at h
      by_cases hpercent : c = '%'
      · rw [if_pos hpercent] at h
        simp only [Option.bind_eq_bind, Option.bind_eq_some_iff, Prod.exists] at h
        obtain ⟨decoded, more, hencoded, out', rest', hsuffix, h⟩ := h
        obtain ⟨rfl, rfl⟩ : decoded :: out' = out ∧ rest' = rest := by simpa using h
        obtain ⟨lead, hlead, hleadInk, hleadLocal⟩ := local_encoded?.taken hencoded
        have hshort := length_of_encoded? hencoded
        obtain ⟨used, rfl, hused, hlocal⟩ := ih (by omega) hsuffix
        refine ⟨lead ++ used, by simp [hlead], List.forall_mem_append.mpr ⟨hleadInk, hused⟩,
          fun tail htail fuel' hfuel' ↦ ?_⟩
        have hdecoded := hleadLocal _ (htail.append_left used)
        cases lead with
        | nil => exact absurd hshort (by simp [hlead])
        | cons d lead =>
          obtain rfl : c = d := (List.cons.inj hlead).1
          cases fuel' with
          | zero => exact absurd hfuel' (by simp)
          | succ fuel' =>
            have hrest := hlocal tail htail fuel' (by simp at hfuel' ⊢; omega)
            simp only [List.cons_append, List.append_assoc] at hdecoded ⊢
            rw [suffix?, if_pos hpercent, hdecoded]
            simp [hrest]
      · rw [if_neg hpercent] at h
        by_cases hchar : isTagChar full c = true
        · rw [if_pos hchar] at h
          simp only [Option.bind_eq_bind, Option.bind_eq_some_iff, Prod.exists] at h
          obtain ⟨out', rest', hsuffix, h⟩ := h
          obtain ⟨rfl, rfl⟩ : c :: out' = out ∧ rest' = rest := by simpa using h
          obtain ⟨used, rfl, hused, hlocal⟩ := ih (Nat.le_of_succ_le_succ hfuel) hsuffix
          refine ⟨c :: used, rfl, List.forall_mem_cons.mpr ⟨isInk_of_isTagChar hchar, hused⟩,
            fun tail htail fuel' hfuel' ↦ ?_⟩
          cases fuel' with
          | zero => exact absurd hfuel' (by simp)
          | succ fuel' =>
            simp [suffix?, hpercent, hchar, hlocal tail htail fuel' (Nat.le_of_succ_le_succ hfuel')]
        · rw [if_neg hchar] at h
          obtain ⟨rfl, rfl⟩ : [] = out ∧ c :: cs = rest := by simpa using h
          refine ⟨[], rfl, by simp, fun tail htail fuel' hfuel' ↦ ?_⟩
          obtain ⟨cs', rfl, -⟩ := htail.exists_cons
          cases fuel' with
          | zero => exact absurd hfuel' (by simp)
          | succ fuel' => simp [suffix?, hpercent, hchar]

/-- The handle of a tag is one exclamation mark, or one more stands behind its name. -/
theorem handle?_cons (cs : List Char) : handle? ('!' :: cs) =
    if (cs.dropWhile isNameChar).head? = some '!' then
      some ('!' :: cs.takeWhile isNameChar ++ ['!'], (cs.dropWhile isNameChar).drop 1)
    else some ('!' :: cs.takeWhile isNameChar, cs.dropWhile isNameChar) := by
  rw [handle?]
  split
  next rest hrest => simp [hrest]
  next hrest =>
    rw [if_neg]
    intro hhead
    obtain ⟨rest, heq⟩ := List.head?_eq_some_iff.mp hhead
    exact hrest rest heq

/-- The handle of a tag stands on one line. -/
theorem local_handle? : CharLocal IsInk handle? := by
  refine ⟨fun {cs out rest} h ↦ ?_⟩
  obtain ⟨cs, rfl⟩ : ∃ cs', cs = '!' :: cs' := by
    unfold handle? at h
    split at h
    · exact ⟨_, rfl⟩
    · exact absurd h (by simp)
  have hname : ∀ c ∈ cs.takeWhile isNameChar, IsInk c := fun c hc ↦
    isInk_of_isNameChar (List.mem_takeWhile_imp hc)
  have hbreak : ∀ c, isBreak c → isNameChar c = false := fun c hc ↦ Bool.eq_false_iff.mpr fun hn ↦
    Bool.false_ne_true ((isBreak_eq_false_of_isInk (isInk_of_isNameChar hn)).symm.trans hc)
  have hsplit := List.takeWhile_append_dropWhile (p := isNameChar) (l := cs)
  rw [handle?_cons] at h
  by_cases hmark : (cs.dropWhile isNameChar).head? = some '!'
  · obtain ⟨more, hmore⟩ := List.head?_eq_some_iff.mp hmark
    rw [if_pos hmark, hmore] at h
    obtain ⟨rfl, rfl⟩ : _ = out ∧ more = rest := by simpa using h
    refine ⟨'!' :: cs.takeWhile isNameChar ++ ['!'], ?_, ?_, fun tail htail ↦ ?_⟩
    · simp [← hmore, hsplit]
    · refine List.forall_mem_append.mpr ⟨List.forall_mem_cons.mpr ⟨rfl, hname⟩, ?_⟩
      simp [IsInk, show isSeparator '!' = false by decide]
    · have hline : SameLine (cs.dropWhile isNameChar) ('!' :: tail) := hmore ▸ htail.char '!'
      obtain ⟨htake, hdrop⟩ := hline.takeWhile_append hbreak
      simp only [List.cons_append, List.append_assoc, List.nil_append, handle?_cons, htake, hdrop]
      simp
  · rw [if_neg hmark] at h
    obtain ⟨rfl, rfl⟩ : _ = out ∧ _ = rest := by simpa using h
    refine ⟨'!' :: cs.takeWhile isNameChar, by simp [hsplit],
      List.forall_mem_cons.mpr ⟨rfl, hname⟩, fun tail htail ↦ ?_⟩
    obtain ⟨htake, hdrop⟩ := htail.takeWhile_append hbreak
    rw [List.cons_append, handle?_cons, htake, hdrop, htail.head?_eq, if_neg hmark]

/-- The suffix of a tag, with fuel for all of the text. -/
theorem local_suffix? (full : Bool) : CharLocal IsInk fun cs ↦ suffix? full cs.length cs :=
  ⟨fun h ↦ by
    obtain ⟨used, rfl, hused, hlocal⟩ := taken_suffix? (Nat.le_refl _) h
    exact ⟨used, rfl, hused, fun tail htail ↦ hlocal tail htail _ (Nat.le_refl _)⟩⟩

/-- The end of a tag that is written out in full. -/
def close? (suffix : List Char) : List Char → Option ((String × String) × List Char)
  | '>' :: rest => if suffix.isEmpty then none else some (("", String.ofList suffix), rest)
  | _ => none

/-- The end of a tag in angle brackets stands on its line. -/
theorem local_close? (suffix : List Char) : CharLocal IsInk (close? suffix) := by
  refine .cons (c := '>') rfl (g := fun cs ↦
      if suffix.isEmpty then none else some (("", String.ofList suffix), cs))
    (.ite _ .fail (.pure _)) (fun _ ↦ rfl) fun cs h ↦ ?_
  unfold close? at h
  split at h
  · exact ⟨_, rfl⟩
  · exact absurd h (by simp)

/-- A handle and a suffix as a tag. -/
def name? (handle suffix : List Char) : Option (String × String) :=
  if 2 ≤ handle.length ∧ handle.getLast? = some '!' then
    if suffix.isEmpty then none else some (String.ofList handle, String.ofList suffix)
  else
    match handle.drop 1 ++ suffix with
    | [] => some ("", "!")
    | name => some ("!", String.ofList name)

/-- A tag that is written out in full, behind its opening. -/
def full? (cs : List Char) : Option ((String × String) × List Char) :=
  (suffix? true cs.length cs).bind fun x ↦ close? x.1 x.2

/-- A tag with a handle. -/
def short? (cs : List Char) : Option ((String × String) × List Char) :=
  (handle? cs).bind fun x ↦
    (suffix? false x.2.length x.2).bind fun y ↦ (name? x.1 y.1).map fun name ↦ (name, y.2)

/-- A tag in angle brackets stands on one line. -/
theorem local_full? : CharLocal IsInk full? := (local_suffix? true).bind local_close?

/-- A tag with a handle stands on one line. -/
theorem local_short? : CharLocal IsInk short? :=
  local_handle?.bind
    (g := fun handle rest ↦ (suffix? false rest.length rest).bind fun y ↦
      (name? handle y.1).map fun name ↦ (name, y.2))
    fun handle ↦ (local_suffix? false).bind fun suffix ↦ .lift (name? handle suffix)

/-- An angle bracket behind the exclamation mark decides on the form of the tag. -/
theorem read?_full (cs : List Char) :
    read? ('!' :: '<' :: cs) = (full? cs).map fun x ↦ (x.1.1, x.1.2, x.2) := by
  rw [read?, full?]
  rcases suffix? true cs.length cs with _ | ⟨_ | ⟨c, suffix⟩, _ | ⟨d, rest⟩⟩
  · rfl
  · rfl
  · simp [close?]
    split <;> simp
  · rfl
  · by_cases hd : d = '>'
    · simp [hd, close?]
    · simp [hd, close?]

/-- Without an angle bracket behind the exclamation mark, the tag has a handle. -/
theorem read?_short (h : cs.take 2 ≠ ['!', '<']) :
    read? cs = (short? cs).map fun x ↦ (x.1.1, x.1.2, x.2) := by
  unfold read?
  split
  next => exact absurd rfl h
  next =>
    rw [short?]
    rcases handle? cs with _ | ⟨handle, rest⟩
    · rfl
    simp only [Option.bind_eq_bind, Option.bind_some, name?]
    rcases suffix? false rest.length rest with _ | ⟨suffix, rest⟩
    · rfl
    simp only [Option.bind_some, List.drop_one, Option.pure_def]
    split_ifs
    · rfl
    · rfl
    · generalize handle.tail ++ suffix = name
      cases name <;> rfl

/-- What is read as a tag stands on one line, and it is read the same whatever follows that line. -/
theorem taken_read? {handle suffix : String} (h : read? cs = some (handle, suffix, rest)) :
    ∃ used, cs = used ++ rest ∧ (∀ c ∈ used, IsInk c) ∧
      ∀ tail, SameLine rest tail → read? (used ++ tail) = some (handle, suffix, tail) := by
  by_cases hfull : cs.take 2 = ['!', '<']
  · obtain ⟨cs, rfl⟩ : ∃ cs', cs = '!' :: '<' :: cs' :=
      ⟨cs.drop 2, by rw [← List.take_append_drop 2 cs, hfull]; rfl⟩
    rw [read?_full] at h
    obtain ⟨⟨⟨_, _⟩, _⟩, hread, heq⟩ := Option.map_eq_some_iff.mp h
    obtain ⟨used, rfl, hused, hlocal⟩ := local_full?.taken hread
    cases heq
    refine ⟨'!' :: '<' :: used, rfl,
      List.forall_mem_cons.mpr ⟨rfl, List.forall_mem_cons.mpr ⟨rfl, hused⟩⟩, fun tail htail ↦ ?_⟩
    rw [List.cons_append, List.cons_append, read?_full, hlocal tail htail]
    rfl
  · rw [read?_short hfull] at h
    obtain ⟨⟨⟨_, _⟩, _⟩, hread, heq⟩ := Option.map_eq_some_iff.mp h
    obtain ⟨used, rfl, hused, hlocal⟩ := local_short?.taken hread
    cases heq
    refine ⟨used, rfl, hused, fun tail htail ↦ ?_⟩
    have hline := htail.append_left used
    rw [read?_short (mt (hline.take_two_eq (by decide)) hfull), hlocal tail htail]
    rfl

end Tag

/-! ### Scalars on one line -/

/-- Whether a run goes on at a character depends on this one and the next. -/
theorem Plain.run_cons_of_sameLine {flow : Bool} (h : c = ':' → SameLine cs tail) :
    run flow (c :: tail) =
      if flow && c = ':' && cs.head?.any (fun d ↦ isFlowMark d || d = '?') then none
      else if isSeparator c || (c = ':' && atSeparator cs) || (flow && isFlowMark c) then
        some ([], c :: tail)
      else (run flow tail).map fun (taken, rest) ↦ (c :: taken, rest) := by
  by_cases hc : c = ':'
  · rw [run, (h hc).head?_eq, (h hc).atSeparator_eq]
  · simp [run, hc]

/-- A run of a plain scalar looks no further than the end of its line. -/
theorem Plain.local_run (flow : Bool) : CharLocal IsInk (run flow) := by
  refine ⟨fun {cs taken rest} h ↦ ?_⟩
  induction cs generalizing taken with
  | nil =>
    obtain ⟨rfl, rfl⟩ : [] = taken ∧ [] = rest := by simpa [run] using h
    refine ⟨[], rfl, by simp, fun tail htail ↦ ?_⟩
    cases htail
    rfl
  | cons c cs ih =>
    rw [run] at h
    split at h
    · exact absurd h (by simp)
    next hgood =>
      split at h
      next hstop =>
        obtain ⟨rfl, rfl⟩ : [] = taken ∧ c :: cs = rest := by simpa using h
        refine ⟨[], rfl, by simp, fun tail htail ↦ ?_⟩
        obtain ⟨tail, rfl, hline⟩ := htail.exists_cons
        rw [List.nil_append, run_cons_of_sameLine fun hc : c = ':' ↦ hline (hc ▸ by decide),
          if_neg hgood, if_pos hstop]
      next hmore =>
        obtain ⟨⟨taken', rest'⟩, hrun, heq⟩ := Option.map_eq_some_iff.mp h
        obtain ⟨rfl, rfl⟩ := Prod.mk.inj heq
        obtain ⟨used, rfl, hused, hlocal⟩ := ih hrun
        have hink : IsInk c := by
          refine Bool.eq_false_iff.mpr fun hc ↦ ?_
          simp [hc] at hmore
        refine ⟨c :: used, rfl, List.forall_mem_cons.mpr ⟨hink, hused⟩, fun tail htail ↦ ?_⟩
        rw [List.cons_append, run_cons_of_sameLine fun _ ↦ htail.append_left used, if_neg hgood,
          if_neg hmore, hlocal tail htail]
        rfl

/-- A run of a plain scalar is taken again where the rest of the line is the same. -/
theorem Plain.taken_run {flow : Bool} {taken : List Char} (h : run flow cs = some (taken, rest))
    (htail : SameLine rest tail) : run flow (taken ++ tail) = some (taken, tail) := by
  obtain ⟨used, hused, -, hlocal⟩ := (local_run flow).taken h
  obtain rfl : taken = used := List.append_cancel_right ((append_of_run h).trans hused)
  exact hlocal tail htail

namespace Quoted

/-- The escape of a character is read the same whatever follows its line. -/
theorem local_unescape : CharLocal (fun _ ↦ True) unescape := by
  refine ⟨fun {cs out rest} h ↦ ?_⟩
  cases cs with
  | nil => exact absurd h (by simp [unescape])
  | cons c cs =>
    rw [unescape] at h
    split at h
    next decoded hnamed =>
      obtain ⟨rfl, rfl⟩ : decoded = out ∧ cs = rest := by simpa using h
      exact ⟨[c], rfl, by simp, fun tail _ ↦ by simp [unescape, hnamed]⟩
    next hnamed =>
      simp only [Option.bind_eq_bind, Option.bind_eq_some_iff, Prod.exists] at h
      obtain ⟨count, hcount, value, more, hvalue, decoded, hchar, h⟩ := h
      obtain ⟨rfl, rfl⟩ : decoded = out ∧ more = rest := by simpa using h
      obtain ⟨used, rfl, -, hlocal⟩ := (local_number? 16 count 0).taken hvalue
      refine ⟨c :: used, rfl, by simp, fun tail htail ↦ ?_⟩
      simp [unescape, hnamed, hcount, hlocal tail htail, hchar]

/-- A run in single quotes stops at a separator and at a quote that is not doubled. -/
theorem singleRun_stop (hc : c = '\'' || isSeparator c) (hquote : c = '\'' → cs.head? ≠ some '\'') :
    singleRun (c :: cs) = ([], c :: cs) := by
  rw [singleRun.eq_3 c cs fun cs' hc hcs ↦ hquote hc (hcs ▸ rfl), if_pos hc]

/-- Any other character belongs to the run in single quotes. -/
theorem singleRun_char (hc : ¬(c = '\'' || isSeparator c)) :
    singleRun (c :: cs) = (c :: (singleRun cs).1, (singleRun cs).2) := by
  have hquote : c ≠ '\'' := fun h ↦ hc (by simp [h])
  rw [singleRun.eq_3 c cs fun cs' hc _ ↦ hquote hc, if_neg hc]

/-- A run in single quotes looks no further than the end of its line. -/
theorem local_singleRun : CharLocal (fun _ ↦ True) fun cs ↦ some (singleRun cs) := by
  refine ⟨fun {cs taken rest} h ↦ ?_⟩
  replace h := Option.some.inj h
  induction cs using singleRun.induct generalizing taken with
  | case1 =>
    obtain ⟨rfl, rfl⟩ := Prod.mk.inj h
    refine ⟨[], rfl, by simp, fun tail htail ↦ ?_⟩
    cases htail
    rfl
  | case2 cs _ _ _ ih =>
    rw [singleRun] at h
    obtain ⟨rfl, rfl⟩ := Prod.mk.inj h
    obtain ⟨used, hcs, -, hlocal⟩ := ih rfl
    refine ⟨'\'' :: '\'' :: used, congrArg ('\'' :: '\'' :: ·) hcs, by simp, fun tail htail ↦ ?_⟩
    have htaken := Option.some.inj (hlocal tail htail)
    simp [singleRun, htaken]
  | case3 c cs hne hstop =>
    have hquote : c = '\'' → cs.head? ≠ some '\'' := fun hc hhead ↦ by
      obtain ⟨cs', hcs⟩ := List.head?_eq_some_iff.mp hhead
      exact hne cs' hc hcs
    rw [singleRun_stop hstop hquote] at h
    obtain ⟨rfl, rfl⟩ := Prod.mk.inj h
    refine ⟨[], rfl, by simp, fun tail htail ↦ ?_⟩
    obtain ⟨tail, rfl, hline⟩ := htail.exists_cons
    rw [List.nil_append, singleRun_stop hstop fun hc ↦ ?_]
    rw [(hline (hc ▸ by decide)).head?_eq]
    exact hquote hc
  | case4 c cs _ hmore _ _ _ ih =>
    rw [singleRun_char hmore] at h
    obtain ⟨rfl, rfl⟩ := Prod.mk.inj h
    obtain ⟨used, hcs, -, hlocal⟩ := ih rfl
    refine ⟨c :: used, congrArg (c :: ·) hcs, by simp, fun tail htail ↦ ?_⟩
    rw [List.cons_append, singleRun_char hmore, Option.some.inj (hlocal tail htail)]

/-- An escape in double quotes gives the first character of the run. -/
theorem doubleRun_escape {decoded : Char} (hbreak : ¬cs.head?.any isBreak)
    (h : unescape cs = some (decoded, rest)) :
    doubleRun ('\\' :: cs) = (doubleRun rest).map fun (taken, r) ↦ (decoded :: taken, r) := by
  rw [doubleRun, if_neg (by decide), if_pos rfl, if_neg hbreak]
  split
  next hnone => exact absurd (hnone.symm.trans h) (by simp)
  next hsome =>
    obtain ⟨rfl, rfl⟩ := Prod.mk.inj (Option.some.inj (hsome.symm.trans h))
    rfl

/-- A run in double quotes looks no further than the end of its line. -/
theorem local_doubleRun : CharLocal (fun _ ↦ True) doubleRun := by
  refine ⟨fun {cs taken rest} h ↦ ?_⟩
  induction cs using doubleRun.induct generalizing taken with
  | case1 =>
    obtain ⟨rfl, rfl⟩ : [] = taken ∧ [] = rest := by simpa [doubleRun] using h
    refine ⟨[], rfl, by simp, fun tail htail ↦ ?_⟩
    cases htail
    simp [doubleRun]
  | case2 c cs hstop =>
    rw [doubleRun, if_pos hstop] at h
    obtain ⟨rfl, rfl⟩ : [] = taken ∧ c :: cs = rest := by simpa using h
    refine ⟨[], rfl, by simp, fun tail htail ↦ ?_⟩
    obtain ⟨tail, rfl, -⟩ := htail.exists_cons
    rw [List.nil_append, doubleRun, if_pos hstop]
  | case3 cs hbreak hstop =>
    rw [doubleRun, if_neg hstop, if_pos rfl, if_pos hbreak] at h
    obtain ⟨rfl, rfl⟩ : [] = taken ∧ '\\' :: cs = rest := by simpa using h
    refine ⟨[], rfl, by simp, fun tail htail ↦ ?_⟩
    obtain ⟨tail, rfl, hline⟩ := htail.exists_cons
    have hbreak' := hbreak
    rw [← (hline (by decide)).head?_eq] at hbreak'
    rw [List.nil_append, doubleRun, if_neg hstop, if_pos rfl, if_pos hbreak']
  | case4 cs hbreak hnone hstop =>
    rw [doubleRun, if_neg hstop, if_pos rfl, if_neg hbreak] at h
    split at h
    · exact absurd h (by simp)
    next hsome => exact absurd (hnone.symm.trans hsome) (by simp)
  | case5 cs hbreak decoded rest' hsome hstop ih =>
    rw [doubleRun_escape hbreak hsome] at h
    obtain ⟨⟨taken', rest'⟩, hrun, heq⟩ := Option.map_eq_some_iff.mp h
    obtain ⟨rfl, rfl⟩ := Prod.mk.inj heq
    obtain ⟨lead, rfl, -, hlocalLead⟩ := local_unescape.taken hsome
    obtain ⟨used, rfl, -, hlocal⟩ := ih hrun
    refine ⟨'\\' :: (lead ++ used), by simp, by simp, fun tail htail ↦ ?_⟩
    have hline := (htail.append_left used).append_left lead
    rw [List.cons_append, List.append_assoc,
      doubleRun_escape (hline.head?_eq ▸ hbreak) (hlocalLead _ (htail.append_left used)),
      hlocal tail htail]
    rfl
  | case6 c cs hstop hescape ih =>
    rw [doubleRun, if_neg hstop, if_neg hescape] at h
    obtain ⟨⟨taken', rest'⟩, hrun, heq⟩ := Option.map_eq_some_iff.mp h
    obtain ⟨rfl, rfl⟩ := Prod.mk.inj heq
    obtain ⟨used, rfl, -, hlocal⟩ := ih hrun
    refine ⟨c :: used, rfl, by simp, fun tail htail ↦ ?_⟩
    rw [List.cons_append, doubleRun, if_neg hstop, if_neg hescape, hlocal tail htail]
    rfl

/-- So does a run in quotes of either kind. -/
theorem local_run (quote : Quote) : CharLocal (fun _ ↦ True) (run quote) := by
  cases quote with
  | single => exact local_singleRun
  | double => exact local_doubleRun

end Quoted

end AlertAudit.Yaml
