import AlertAudit.Proofs.Text.Bytes
import AlertAudit.RuleFile.Locate

/-!
Keys found by counting bytes. A closing quote or a colon is looked for byte by byte, two bytes at a
time behind a backslash, and the text is cut at the byte that is found; to cut a text where no
character starts is a `Fault`. There is none (`splitKeyAt_eq`): what is looked for takes one byte,
so wherever a step lands in a longer character, the next find is at the start of one.
-/

set_option autoImplicit false

namespace AlertAudit.Locate

open AlertAudit.Text

/-- What can go wrong where places are counted. -/
inductive Fault where
  /-- There is no line with the number. -/
  | noLine (number : Nat)
  /-- The text cannot be cut at the byte. -/
  | noCut (byte : Nat)
  /-- A number falls below zero. -/
  | negative
  /-- The last line of a run is in front of its first one. -/
  | inverted (first last : Nat)
  deriving DecidableEq, Repr

/-- What is found by counting, unless something goes wrong. -/
abbrev Counted (α : Type) := Except Fault α

/-! ### Cuts -/

def upToByte (cs : List Char) (byte : Nat) : Counted (List Char) :=
  match splitBytes? byte cs with
  | some (front, _) => .ok front
  | none => .error (.noCut byte)

def fromByte (cs : List Char) (byte : Nat) : Counted (List Char) :=
  match splitBytes? byte cs with
  | some (_, back) => .ok back
  | none => .error (.noCut byte)

def betweenBytes (cs : List Char) (start stop : Nat) : Counted (List Char) := do
  fromByte (← upToByte cs stop) start

/-- A text can be cut in front of a character. -/
theorem upToByte_append (front back : List Char) :
    upToByte (front ++ back) (utf8Length front) = .ok front := by
  rw [upToByte, splitBytes?_append]

/-- So it can be behind it. -/
theorem fromByte_append (front back : List Char) :
    fromByte (front ++ back) (utf8Length front) = .ok back := by
  rw [fromByte, splitBytes?_append]

/-- What stands between two cuts is what both of them leave. -/
theorem betweenBytes_append (front chars back : List Char) :
    betweenBytes (front ++ chars ++ back) (utf8Length front) (utf8Length (front ++ chars)) =
      .ok chars := by
  have hstop := upToByte_append (front ++ chars) back
  have hstart := fromByte_append front chars
  rw [betweenBytes, hstop]
  exact hstart

/-! ### Searches -/

/-- What a search makes of a byte and the one behind it. -/
inductive Sight where
  | found
  /-- The search goes on behind the byte and so many further ones. -/
  | past (further : Nat)

/-- The byte at which a search ends that looks at the bytes from `i` on. -/
def seekByte (sight : UInt8 → Option UInt8 → Sight) (bytes : List UInt8) (i : Nat) : Option Nat :=
  if h : i < bytes.length then
    match sight bytes[i] bytes[i + 1]? with
    | .found => some i
    | .past further => seekByte sight bytes (i + 1 + further)
  else none
termination_by bytes.length - i

section Search

variable {sight : UInt8 → Option UInt8 → Sight} {front bs skipped : List UInt8} {b : UInt8}

/-- Behind the last byte a search finds nothing. -/
theorem seekByte_of_le {i : Nat} (h : bs.length ≤ i) : seekByte sight bs i = none := by
  rw [seekByte, dif_neg (Nat.not_lt_of_le h)]

/-- A search looks at one byte and the one behind it. -/
theorem seekByte_apply : seekByte sight (front ++ b :: bs) front.length =
    match sight b bs.head? with
    | .found => some front.length
    | .past further => seekByte sight (front ++ b :: bs) (front.length + 1 + further) := by
  have hnext : (front ++ b :: bs)[front.length + 1]? = bs.head? := by
    rw [List.getElem?_append_right (by omega), Nat.add_sub_cancel_left, List.getElem?_cons_succ,
      List.head?_eq_getElem?]
  rw [seekByte, dif_pos (by simp), hnext, List.getElem_append_right (Nat.le_refl _)]
  simp only [Nat.sub_self, List.getElem_cons_zero]

/-- The search goes on behind bytes at each of which it does. -/
theorem seekByte_skipped (h : ∀ b ∈ skipped, ∀ next, sight b next = .past 0) :
    seekByte sight (front ++ (skipped ++ bs)) front.length =
      seekByte sight (front ++ skipped ++ bs) (front ++ skipped).length := by
  induction skipped generalizing front with
  | nil => rw [List.append_nil, List.nil_append]
  | cons b skipped ih =>
    obtain ⟨hb, hskipped⟩ := List.forall_mem_cons.mp h
    have hstep := @ih (front ++ [b]) hskipped
    rw [List.append_assoc front, List.append_assoc front, List.singleton_append,
      List.length_append, List.length_singleton] at hstep
    rw [List.cons_append, seekByte_apply, hb, ← List.cons_append]
    exact hstep

end Search

/-! ### Searches in texts -/

section Text

variable {sight : UInt8 → Option UInt8 → Sight} {a c : Char} {cs skipped : List Char}
  {found : Option (List Char × List Char)}

/-- A search that begins with the text `cs` ends at a character `a`, between the two texts that are
found, or nowhere if none are. -/
def Finds (sight : UInt8 → Option UInt8 → Sight) (a : Char) (cs : List Char) :
    Option (List Char × List Char) → Prop
  | some (raw, rest) => cs = raw ++ a :: rest ∧ ∀ front : List UInt8,
      seekByte sight (front ++ bytesOf cs) front.length = some (front.length + utf8Length raw)
  | none => ∀ front : List UInt8, seekByte sight (front ++ bytesOf cs) front.length = none

/-- A search that begins with these characters goes on behind them. -/
def Skips (sight : UInt8 → Option UInt8 → Sight) (skipped cs : List Char) : Prop :=
  ∀ front : List UInt8, seekByte sight (front ++ bytesOf (skipped ++ cs)) front.length =
    seekByte sight (front ++ bytesOf skipped ++ bytesOf cs) (front ++ bytesOf skipped).length

/-- In an empty text nothing is found. -/
theorem finds_nil : Finds sight a [] none := fun _ ↦ seekByte_of_le (by simp [bytesOf])

/-- A character of one byte is found where the search ends at its byte. -/
theorem finds_here (ha : a.toNat < 128) (h : sight (byteOf a) (bytesOf cs).head? = .found) :
    Finds sight a (a :: cs) (some ([], cs)) := by
  refine ⟨rfl, fun front ↦ ?_⟩
  rw [bytesOf_cons, utf8EncodeChar_of_lt ha, List.singleton_append, seekByte_apply, h]
  rfl

/-- A search goes on behind characters that are skipped. -/
theorem Finds.behind (hskips : Skips sight skipped cs) (h : Finds sight a cs found) :
    Finds sight a (skipped ++ cs) (found.map fun (raw, rest) ↦ (skipped ++ raw, rest)) := by
  cases found with
  | none => exact fun front ↦ (hskips front).trans (h _)
  | some parts =>
    obtain ⟨raw, rest⟩ := parts
    obtain ⟨rfl, hseek⟩ := h
    refine ⟨(List.append_assoc _ _ _).symm, fun front ↦ (hskips front).trans ?_⟩
    rw [hseek, List.length_append, length_bytesOf, utf8Length_append, Nat.add_assoc]

/-- What is read out of the text that a search finds, where it goes on behind some characters and
they are read as one. -/
theorem Finds.exists_behind {shape : List Char × List Char → List Char × List Char}
    {shown : Char} {read : Option (List Char × List Char)} (hskips : Skips sight skipped cs)
    (hshape : ∀ raw rest,
      shape (skipped ++ raw, rest) = (shown :: (shape (raw, rest)).1, (shape (raw, rest)).2))
    (h : ∃ found, Finds sight a cs found ∧ read = found.map shape) :
    ∃ found, Finds sight a (skipped ++ cs) found ∧
      (read.map fun (name, rest) ↦ (shown :: name, rest)) = found.map shape := by
  obtain ⟨found, hfinds, rfl⟩ := h
  refine ⟨_, hfinds.behind hskips, ?_⟩
  cases found with
  | none => rfl
  | some parts => exact congrArg some (hshape parts.1 parts.2).symm

/-- A character is skipped if all of its bytes are. -/
theorem skips_char (h : ∀ b ∈ String.utf8EncodeChar c, ∀ next, sight b next = .past 0) :
    Skips sight [c] cs := by
  intro front
  rw [List.singleton_append, bytesOf_cons, bytesOf_cons, bytesOf_nil, List.append_nil,
    seekByte_skipped h]

end Text

/-! ### Single quotes -/

/-- A single quote closes unless there is another one behind it. -/
def sightOfSingle (b : UInt8) (next : Option UInt8) : Sight :=
  if b = byteOf '\'' then if next = some (byteOf '\'') then .past 1 else .found else .past 0

/-- The text with each doubled single quote made one. -/
def undoubled : List Char → List Char
  | '\'' :: '\'' :: cs => '\'' :: undoubled cs
  | c :: cs => c :: undoubled cs
  | [] => []

/-- Any character but a quote stands for itself. -/
theorem undoubled_cons_of_ne {c : Char} (h : c ≠ '\'') (cs : List Char) :
    undoubled (c :: cs) = c :: undoubled cs := by
  rw [undoubled]
  rintro _ rfl
  exact absurd rfl h

/-- Any character but a quote is skipped. -/
theorem skips_single {c : Char} (h : c ≠ '\'') (cs : List Char) : Skips sightOfSingle [c] cs := by
  refine skips_char fun b hb next ↦ if_neg ?_
  rintro rfl
  exact h ((byteOf_mem_utf8EncodeChar_iff (by decide)).mp hb)

/-- Two quotes are skipped together. -/
theorem skips_doubled (cs : List Char) : Skips sightOfSingle ['\'', '\''] cs := by
  intro front
  have hbytes : bytesOf ['\'', '\''] = [byteOf '\'', byteOf '\''] := rfl
  have hsame : front ++ bytesOf (['\'', '\''] ++ cs) =
      front ++ byteOf '\'' :: byteOf '\'' :: bytesOf cs := rfl
  rw [hsame, seekByte_apply, hbytes]
  simp [sightOfSingle]

/-- A search for the closing quote finds the text between the quotes, with the doubled ones in
it. -/
theorem exists_finds_single (cs : List Char) : ∃ found, Finds sightOfSingle '\'' cs found ∧
    singleQuoted? cs = found.map fun (raw, rest) ↦ (undoubled raw, rest) := by
  fun_induction singleQuoted? cs with
  | case1 => exact ⟨none, finds_nil, rfl⟩
  | case2 cs ih => exact Finds.exists_behind (skips_doubled cs) (fun _ _ ↦ rfl) ih
  | case3 cs hsingle =>
    refine ⟨_, finds_here (by decide) ?_, rfl⟩
    rw [sightOfSingle, if_pos rfl, if_neg]
    rw [head?_bytesOf_iff (by decide)]
    intro hhead
    obtain ⟨rest, rfl⟩ := List.head?_eq_some_iff.mp hhead
    exact hsingle rest rfl rfl
  | case4 c cs _ hc ih =>
    refine Finds.exists_behind (skips_single hc cs) (fun raw rest ↦ ?_) ih
    exact congrArg (·, rest) (undoubled_cons_of_ne hc raw)

/-! ### Double quotes -/

/-- A double quote closes, and a backslash takes the byte behind it along. -/
def sightOfDouble (b : UInt8) (_ : Option UInt8) : Sight :=
  if b = byteOf '\\' then .past 1 else if b = byteOf '"' then .found else .past 0

/-- The text that is meant by one with escapes. -/
def unescaped : List Char → List Char
  | '\\' :: c :: cs =>
    (if c = 'n' then '\n' else if c = 't' then '\t' else c) :: unescaped cs
  | c :: cs => c :: unescaped cs
  | [] => []

/-- Any character but a backslash stands for itself. -/
theorem unescaped_cons_of_ne {c : Char} (h : c ≠ '\\') (cs : List Char) :
    unescaped (c :: cs) = c :: unescaped cs := by
  rw [unescaped]
  rintro _ _ rfl
  exact absurd rfl h

/-- Any character but a backslash and the quote is skipped. -/
theorem skips_double {c : Char} (h : c ≠ '\\') (hc : c ≠ '"') (cs : List Char) :
    Skips sightOfDouble [c] cs := by
  refine skips_char fun b hb next ↦ ?_
  rw [sightOfDouble, if_neg, if_neg]
  · rintro rfl
    exact hc ((byteOf_mem_utf8EncodeChar_iff (by decide)).mp hb)
  · rintro rfl
    exact h ((byteOf_mem_utf8EncodeChar_iff (by decide)).mp hb)

/-- Of the character behind a backslash only the first byte is jumped over; the others are neither
quote nor backslash. -/
theorem skips_escaped (c : Char) (cs : List Char) : Skips sightOfDouble ['\\', c] cs := by
  intro front
  obtain ⟨b, bs, hcons, hbs⟩ := exists_utf8EncodeChar c
  have hbytes : bytesOf ['\\', c] = byteOf '\\' :: b :: bs := by
    rw [bytesOf_cons, bytesOf_cons, bytesOf_nil, hcons, utf8EncodeChar_of_lt (by decide)]
    simp
  have hall : bytesOf (['\\', c] ++ cs) = byteOf '\\' :: b :: (bs ++ bytesOf cs) := by
    rw [bytesOf_append, hbytes]
    rfl
  have hskipped : ∀ b ∈ bs, ∀ next, sightOfDouble b next = .past 0 := by
    intro b hb next
    rw [sightOfDouble, if_neg, if_neg]
    · rintro rfl
      exact hbs '"' (by decide) hb
    · rintro rfl
      exact hbs '\\' (by decide) hb
  have hrest := @seekByte_skipped sightOfDouble (front ++ [byteOf '\\', b]) (bytesOf cs) bs hskipped
  rw [hall, hbytes, seekByte_apply]
  simp only [sightOfDouble, if_pos]
  simpa using hrest

/-- Behind a backslash at the very end there is nothing to jump over. -/
theorem finds_backslash : Finds sightOfDouble '"' ['\\'] none := by
  intro front
  have hbytes : bytesOf ['\\'] = [byteOf '\\'] := rfl
  rw [hbytes, seekByte_apply]
  exact seekByte_of_le (by simp)

/-- A search for the closing double quote finds the text between the quotes, with the escapes in it.
-/
theorem exists_finds_double (cs : List Char) : ∃ found, Finds sightOfDouble '"' cs found ∧
    doubleQuoted? cs = found.map fun (raw, rest) ↦ (unescaped raw, rest) := by
  fun_induction doubleQuoted? cs with
  | case1 => exact ⟨none, finds_nil, rfl⟩
  | case2 c cs decoded ih => exact Finds.exists_behind (skips_escaped c cs) (fun _ _ ↦ rfl) ih
  | case3 cs => exact ⟨_, finds_here (by decide) rfl, rfl⟩
  | case4 c cs hescape hc ih =>
    by_cases hslash : c = '\\'
    · cases cs with
      | nil => exact ⟨none, hslash ▸ finds_backslash, rfl⟩
      | cons d ds => exact absurd rfl (hescape d ds hslash)
    · refine Finds.exists_behind (skips_double hslash hc cs) (fun raw rest ↦ ?_) ih
      exact congrArg (·, rest) (unescaped_cons_of_ne hslash raw)

/-! ### Colons -/

/-- A colon ends a key if white space or nothing is behind it. -/
def sightOfColon (b : UInt8) (next : Option UInt8) : Sight :=
  if b = byteOf ':' && next.all (fun d ↦ d = byteOf ' ' || d = byteOf '\t') then .found else .past 0

/-- The first byte of a text tells whether it begins with white space. -/
theorem all_head?_bytesOf (cs : List Char) :
    (bytesOf cs).head?.all (fun d ↦ d = byteOf ' ' || d = byteOf '\t') =
      cs.head?.all fun d ↦ d = ' ' || d = '\t' := by
  have hspace := @head?_bytesOf_iff ' ' (by decide) cs
  have htab := @head?_bytesOf_iff '\t' (by decide) cs
  cases cs with
  | nil => rfl
  | cons c cs =>
    obtain ⟨b, bs, hcons, -⟩ := exists_utf8EncodeChar c
    rw [bytesOf_cons, hcons, List.cons_append, List.head?_cons, List.head?_cons, Option.some_inj,
      Option.some_inj] at hspace htab
    rw [bytesOf_cons, hcons, List.cons_append, List.head?_cons, List.head?_cons, Option.all_some,
      Option.all_some, decide_eq_decide.mpr hspace, decide_eq_decide.mpr htab]

/-- A colon is found if white space or nothing is behind it. -/
theorem sightOfColon_byteOf (cs : List Char) :
    sightOfColon (byteOf ':') (bytesOf cs).head? =
      if cs.head?.all fun d ↦ d = ' ' || d = '\t' then .found else .past 0 := by
  rw [sightOfColon, all_head?_bytesOf, decide_eq_true rfl, Bool.true_and]

/-- Any other character is skipped, and so is a colon within a word. -/
theorem skips_colon {c : Char} {cs : List Char}
    (h : ¬(decide (c = ':') && cs.head?.all fun d ↦ d = ' ' || d = '\t')) :
    Skips sightOfColon [c] cs := by
  by_cases hc : c = ':'
  · subst hc
    intro front
    have hbytes : bytesOf [':'] = [byteOf ':'] := rfl
    rw [decide_eq_true rfl, Bool.true_and] at h
    rw [List.singleton_append, bytesOf_cons, utf8EncodeChar_of_lt (by decide), hbytes,
      List.singleton_append, seekByte_apply, sightOfColon_byteOf, if_neg h]
    simp
  · refine skips_char fun b hb next ↦ ?_
    have hne : b ≠ byteOf ':' := by
      rintro rfl
      exact hc ((byteOf_mem_utf8EncodeChar_iff (by decide)).mp hb)
    rw [sightOfColon, decide_eq_false hne, Bool.false_and]
    rfl

/-- A search for the colon finds the text in front of it. -/
theorem exists_finds_colon (cs : List Char) : ∃ found, Finds sightOfColon ':' cs found ∧
    plainKey? cs = found.map fun (raw, rest) ↦ (raw, ':' :: rest) := by
  fun_induction plainKey? cs with
  | case1 => exact ⟨none, finds_nil, rfl⟩
  | case2 c cs h =>
    obtain ⟨hc, hnext⟩ := Bool.and_eq_true_iff.mp h
    obtain rfl := of_decide_eq_true hc
    refine ⟨_, finds_here (by decide) ?_, rfl⟩
    rw [sightOfColon_byteOf, if_pos hnext]
  | case3 c cs h ih => exact Finds.exists_behind (skips_colon h) (fun _ _ ↦ rfl) ih

/-! ### Keys -/

/-- What stands in quotes at the front of a text, as it is meant, and what follows the quotes. -/
def quotedAt (sight : UInt8 → Option UInt8 → Sight) (meant : List Char → List Char)
    (cs : List Char) : Counted (Option (List Char × List Char)) :=
  match seekByte sight (bytesOf cs) 1 with
  | some close => return some (meant (← betweenBytes cs 1 close), ← fromByte cs (close + 1))
  | none => return none

/-- What stands in front of a colon, and the rest of the text from the colon on. -/
def plainAt (cs : List Char) : Counted (Option (List Char × List Char)) :=
  match seekByte sightOfColon (bytesOf cs) 0 with
  | some colon => return some (trimEnd (← upToByte cs colon), ← fromByte cs colon)
  | none => return none

/-- The key at the front of a text, and what follows its quotes or begins at its colon. -/
def keyInFront (cs : List Char) : Counted (Option (List Char × List Char)) :=
  match cs.head? with
  | none => return none
  | some c =>
    if c = '\'' then quotedAt sightOfSingle undoubled cs
    else if c = '"' then quotedAt sightOfDouble unescaped cs
    else if startsNoKey c then return none
    else plainAt cs

/-- The name of a key, and what follows the colon behind it. -/
def colonBehind? (name rest : List Char) : Option (String × List Char) :=
  match rest.dropWhile isSpace with
  | ':' :: after =>
    if after.head?.all fun d ↦ d = ' ' || d = '\t' then some (String.ofList name, after) else none
  | _ => none

/-- A text cut into a key and what follows its colon. -/
def splitKeyAt (cs : List Char) : Counted (Option (String × List Char)) := do
  let some (name, rest) ← keyInFront cs | return none
  return colonBehind? name rest

/-- Quotes that a search finds can be cut off a text. -/
theorem quotedAt_of_finds {sight : UInt8 → Option UInt8 → Sight} {a : Char} (ha : a.toNat < 128)
    {meant : List Char → List Char} {cs : List Char} {found : Option (List Char × List Char)}
    (h : Finds sight a cs found) :
    quotedAt sight meant (a :: cs) = .ok (found.map fun (raw, rest) ↦ (meant raw, rest)) := by
  have hbytes : bytesOf (a :: cs) = [byteOf a] ++ bytesOf cs := by
    rw [bytesOf_cons, utf8EncodeChar_of_lt ha]
  have hsize : utf8Length [a] = 1 := by
    rw [← length_bytesOf, bytesOf_cons, utf8EncodeChar_of_lt ha]
    rfl
  cases found with
  | none =>
    have hseek : seekByte sight (bytesOf (a :: cs)) 1 = none := hbytes ▸ h [byteOf a]
    rw [quotedAt, hseek]
    rfl
  | some parts =>
    obtain ⟨raw, rest⟩ := parts
    obtain ⟨rfl, hfinds⟩ := h
    have hseek : seekByte sight (bytesOf (a :: (raw ++ a :: rest))) 1 =
        some (1 + utf8Length raw) := hbytes ▸ hfinds [byteOf a]
    have hbetween := betweenBytes_append [a] raw (a :: rest)
    have hfrom := fromByte_append ([a] ++ raw ++ [a]) rest
    rw [utf8Length_append, hsize, List.append_assoc, List.singleton_append] at hbetween
    rw [utf8Length_append, utf8Length_append, hsize, List.append_assoc, List.append_assoc,
      List.singleton_append, List.singleton_append] at hfrom
    rw [quotedAt, hseek]
    simp only [hbetween, hfrom]
    rfl

/-- What stands in front of a colon can be cut off a text. -/
theorem plainAt_eq (cs : List Char) :
    plainAt cs = .ok ((plainKey? cs).map fun (name, rest) ↦ (trimEnd name, rest)) := by
  obtain ⟨found, hfinds, hkey⟩ := exists_finds_colon cs
  rw [plainAt, hkey]
  cases found with
  | none =>
    have hseek : seekByte sightOfColon (bytesOf cs) 0 = none := hfinds []
    rw [hseek]
    rfl
  | some parts =>
    obtain ⟨raw, rest⟩ := parts
    obtain ⟨rfl, hfinds⟩ := hfinds
    have hseek : seekByte sightOfColon (bytesOf (raw ++ ':' :: rest)) 0 =
        some (utf8Length raw) := by
      simpa using hfinds []
    rw [hseek]
    simp only [upToByte_append, fromByte_append]
    rfl

/-- The key at the front of a text, and what follows its quotes or begins at its colon. -/
def keyParts? : List Char → Option (List Char × List Char)
  | [] => none
  | c :: cs =>
    if c = '\'' then singleQuoted? cs
    else if c = '"' then doubleQuoted? cs
    else if startsNoKey c then none
    else (plainKey? (c :: cs)).map fun (name, rest) ↦ (trimEnd name, rest)

/-- The key that is found by bytes is the one that is read by characters. -/
theorem keyInFront_eq (cs : List Char) : keyInFront cs = .ok (keyParts? cs) := by
  cases cs with
  | nil => rfl
  | cons c cs =>
    rw [keyInFront, List.head?_cons, keyParts?]
    dsimp only
    split
    next hc =>
      obtain ⟨found, hfinds, hquoted⟩ := exists_finds_single cs
      rw [hc, quotedAt_of_finds (by decide) hfinds, hquoted]
    next =>
      split
      next hc =>
        obtain ⟨found, hfinds, hquoted⟩ := exists_finds_double cs
        rw [hc, quotedAt_of_finds (by decide) hfinds, hquoted]
      next =>
        split
        next => rfl
        next => exact plainAt_eq _

/-- A key ends with its colon, behind which white space or nothing stands. -/
theorem splitKey?_eq (cs : List Char) :
    splitKey? cs = (keyParts? cs).bind fun (name, rest) ↦ colonBehind? name rest := by
  cases cs with
  | nil => rfl
  | cons c cs =>
    rw [splitKey?, keyParts?]
    split
    · rfl
    · split
      · rfl
      · split <;> rfl

/-- No cut goes wrong, and the key is the one that is read by characters. -/
theorem splitKeyAt_eq (cs : List Char) : splitKeyAt cs = .ok (splitKey? cs) := by
  rw [splitKeyAt, keyInFront_eq, splitKey?_eq]
  cases keyParts? cs <;> rfl

end AlertAudit.Locate
