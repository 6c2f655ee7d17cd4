import AlertAudit.Proofs.Template.Lookahead
import AlertAudit.Template.Literal
import Mathlib.Tactic.Ring

/-!
How a string is written in a template. Between double quotes each character stands for itself or is
written with an escape, whatever the others are written with (`Encodes`); between back quotes all of
them stand for themselves. A literal is read back as the string (`unquote_of_quotes`), and the scan
of an action takes it as one token, whatever comes behind it (`read_of_quotes`).
-/

set_option autoImplicit false

namespace AlertAudit.Template.Literal

open AlertAudit.Text Scan

/-! ### Ways to write a string -/

/-- A digit with the value `d`, in either case. -/
def IsDigit (d : Nat) (c : Char) : Prop := c = d.digitChar ∨ c = d.digitChar.toUpper

/-- `count` digits of a number. -/
inductive Digits (base : Nat) : Nat → Nat → List Char → Prop
  | nil : Digits base 0 0 []
  | cons {d count n : Nat} {c : Char} {cs : List Char} : d < base → IsDigit d c →
    Digits base count n cs → Digits base (count + 1) (d * base ^ count + n) (c :: cs)

/-- Letters that stand for a character behind a backslash. -/
def escapes : List (Char × Char) :=
  [('a', '\x07'), ('b', '\x08'), ('f', '\x0c'), ('n', '\n'), ('r', '\r'), ('t', '\t'),
    ('v', '\x0b'), ('\\', '\\'), ('"', '"')]

/-- What stands for a character behind a backslash: its letter, or its code point in octal or
hexadecimal digits. -/
inductive Escapes (c : Char) : List Char → Prop
  | named {letter : Char} : (letter, c) ∈ escapes → Escapes c [letter]
  | octal {ds : List Char} : c.toNat ≤ 255 → Digits 8 3 c.toNat ds → Escapes c ds
  | byte {ds : List Char} : c.toNat ≤ 255 → Digits 16 2 c.toNat ds → Escapes c ('x' :: ds)
  | short {ds : List Char} : Digits 16 4 c.toNat ds → Escapes c ('u' :: ds)
  | long {ds : List Char} : Digits 16 8 c.toNat ds → Escapes c ('U' :: ds)

/-- A character that stands for itself between double quotes. -/
def IsPlain (c : Char) : Prop := c ≠ '"' ∧ c ≠ '\\' ∧ c ≠ '\n'

/-- What is written for a character between double quotes. -/
inductive Writes (c : Char) : List Char → Prop
  | plain : IsPlain c → Writes c [c]
  | escape {w : List Char} : Escapes c w → Writes c ('\\' :: w)

/-- What is written for characters between double quotes, one after the other. -/
inductive Encodes : List Char → List Char → Prop
  | nil : Encodes [] []
  | cons {c : Char} {cs w ws : List Char} : Writes c w → Encodes cs ws →
    Encodes (c :: cs) (w ++ ws)

inductive Quotes (v : String) : String → Prop
  | double {body : List Char} : Encodes v.toList body →
    Quotes v ("\"" ++ String.ofList body ++ "\"")
  | raw : '`' ∉ v.toList → '\r' ∉ v.toList → Quotes v ("`" ++ v ++ "`")

/-! ### Digits -/

theorem digit?_of_isDigit {base d : Nat} {c : Char} (hbase : base ≤ 16) (hd : d < base)
    (hc : IsDigit d c) : digit? base c = some d := by
  have hvalue : ∀ d : Fin 16, digit? 16 d.val.digitChar = some d.val ∧
      digit? 16 d.val.digitChar.toUpper = some d.val := by decide
  obtain ⟨hlower, hupper⟩ := hvalue ⟨d, Nat.lt_of_lt_of_le hd hbase⟩
  have hsixteen : digit? 16 c = some d := by
    rcases hc with rfl | rfl
    · exact hlower
    · exact hupper
  rw [digit?, Option.filter_eq_some_iff] at hsixteen ⊢
  exact ⟨hsixteen.1, decide_eq_true hd⟩

theorem number?_of_digits {base count n : Nat} {ds : List Char} (h : Digits base count n ds)
    (hbase : base ≤ 16) (acc : Nat) (rest : List Char) :
    number? base count acc (ds ++ rest) = some (acc * base ^ count + n, rest) := by
  induction h generalizing acc with
  | nil =>
    rw [List.nil_append, number?, Nat.pow_zero, Nat.mul_one, Nat.add_zero]
  | @cons d count n c cs hd hc _ ih =>
    have hvalue : (acc * base + d) * base ^ count + n =
        acc * base ^ (count + 1) + (d * base ^ count + n) := by ring
    rw [List.cons_append, number?, digit?_of_isDigit hbase hd hc, ← hvalue, ← ih]
    rfl

theorem isPlain_of_isDigit {d : Nat} {c : Char} (hd : d < 16) (hc : IsDigit d c) : IsPlain c := by
  have hplain : ∀ d : Fin 16, IsPlain d.val.digitChar ∧ IsPlain d.val.digitChar.toUpper := by
    unfold IsPlain
    decide
  obtain ⟨hlower, hupper⟩ := hplain ⟨d, hd⟩
  rcases hc with rfl | rfl
  · exact hlower
  · exact hupper

theorem Digits.isPlain {base count n : Nat} {ds : List Char} (h : Digits base count n ds)
    (hbase : base ≤ 16) : ∀ d ∈ ds, IsPlain d := by
  induction h with
  | nil => exact List.forall_mem_nil _
  | cons hd hc _ ih =>
    exact List.forall_mem_cons.mpr ⟨isPlain_of_isDigit (Nat.lt_of_lt_of_le hd hbase) hc, ih⟩

theorem Digits.exists_eq {base count n : Nat} {ds : List Char}
    (h : Digits base (count + 1) n ds) : ∃ d c cs, ds = c :: cs ∧ d < base ∧ IsDigit d c := by
  cases h with
  | cons hd hc _ => exact ⟨_, _, _, rfl, hd, hc⟩

/-! ### What a literal stands for -/

theorem char?_toNat (c : Char) : char? c.toNat = some c := by
  have hvalid : c.toNat.isValidChar := c.valid
  rw [char?, if_pos hvalid, Char.ofNat_toNat]

section Escapes

variable {c : Char} {w : List Char}

theorem coded_of_digits {base count limit : Nat} {ds : List Char}
    (h : Digits base count c.toNat ds) (hbase : base ≤ 16) (hlimit : c.toNat ≤ limit)
    (rest : List Char) : unescape.coded base count limit (ds ++ rest) = some (c, rest) := by
  have hnumber : number? base count 0 (ds ++ rest) = some (c.toNat, rest) := by
    rw [number?_of_digits h hbase, Nat.zero_mul, Nat.zero_add]
  rw [unescape.coded, hnumber]
  change (if c.toNat ≤ limit then _ else _) = _
  rw [if_pos hlimit, char?_toNat]
  rfl

/-- An octal escape is none of the others. -/
theorem unescape_octal {d : Nat} {x : Char} (hd : d < 8) (hx : IsDigit d x) (cs : List Char) :
    unescape '"' (x :: cs) = unescape.coded 8 3 255 (x :: cs) := by
  have hupper : ∀ d : Fin 8, d.val.digitChar.toUpper = d.val.digitChar := by decide
  have hother : ∀ d : Fin 8, let x := d.val.digitChar
      named? x = none ∧ x ≠ '"' ∧ x ≠ 'x' ∧ x ≠ 'u' ∧ x ≠ 'U' ∧ (digit? 8 x).isSome := by decide
  obtain rfl : x = d.digitChar := hx.elim id (·.trans (hupper ⟨d, hd⟩))
  obtain ⟨hname, hquote, hx, hu, hU, hdigit⟩ := hother ⟨d, hd⟩
  rw [unescape, hname]
  simp only [hquote, hx, hu, hU, hdigit, if_false, if_true]

theorem unescape_of_escapes (h : Escapes c w) (rest : List Char) :
    unescape '"' (w ++ rest) = some (c, rest) := by
  have hvalid : c.toNat ≤ 0x10FFFF := by
    have := c.valid
    unfold UInt32.isValidChar Nat.isValidChar at this
    unfold Char.toNat
    omega
  cases h with
  | @named letter hmem =>
    simp only [escapes, List.mem_cons, Prod.mk.injEq, List.not_mem_nil, or_false] at hmem
    rcases hmem with h | h | h | h | h | h | h | h | h <;> obtain ⟨rfl, rfl⟩ := h <;> rfl
  | octal hlimit hdigits =>
    have hcoded := coded_of_digits hdigits (by decide) hlimit rest
    obtain ⟨d, x, cs, rfl, hd, hx⟩ := hdigits.exists_eq
    exact (unescape_octal hd hx _).trans hcoded
  | byte hlimit hdigits => exact coded_of_digits hdigits (by decide) hlimit rest
  | short hdigits => exact coded_of_digits hdigits (by decide) hvalid rest
  | long hdigits => exact coded_of_digits hdigits (by decide) hvalid rest

theorem decode_of_writes (h : Writes c w) (rest : List Char) :
    decode (w ++ rest) = (decode rest).map (c :: ·) := by
  cases h with
  | plain hplain =>
    obtain ⟨hquote, hbackslash, hbreak⟩ := hplain
    rw [List.singleton_append, decode, if_neg (not_or.mpr ⟨hquote, hbreak⟩)]
    exact hbackslash
  | @escape w hescape =>
    rw [List.cons_append, decode]
    split
    next heq =>
      obtain ⟨rfl, rfl⟩ := Prod.mk.inj (Option.some.inj
        (heq.symm.trans (unescape_of_escapes hescape rest)))
      rfl
    next heq =>
      have hsome := (unescape_of_escapes hescape rest).symm.trans heq
      exact absurd hsome (Option.some_ne_none _)

end Escapes

theorem decode_of_encodes {cs body : List Char} (h : Encodes cs body) : decode body = some cs := by
  induction h with
  | nil => rw [decode]
  | cons hw _ ih => rw [decode_of_writes hw, ih, Option.map_some]

theorem between?_append (quote : Char) (body : List Char) :
    between? quote (quote :: (body ++ [quote])) = some body := by
  rw [between?, if_pos rfl, List.getLast?_concat]
  change (if quote = quote then _ else _) = _
  rw [if_pos rfl, List.dropLast_concat]

theorem unquote_of_quotes {v literal : String} (h : Quotes v literal) :
    unquote literal = some v := by
  cases h with
  | @double body hbody =>
    have hlist : ("\"" ++ String.ofList body ++ "\"").toList = '"' :: (body ++ ['"']) := by simp
    rw [unquote, hlist]
    change (do let body ← between? '"' ('"' :: (body ++ ['"'])); _) = _
    rw [between?_append]
    change (do let decoded ← decode body; _) = _
    rw [decode_of_encodes hbody]
    exact congrArg some String.ofList_toList
  | raw hquote hreturn =>
    have hlist : ("`" ++ v ++ "`").toList = '`' :: (v.toList ++ ['`']) := by simp
    have hkept : v.toList.filter (· ≠ '\r') = v.toList := by
      refine List.filter_eq_self.mpr fun c hc ↦ decide_eq_true ?_
      rintro rfl
      exact hreturn hc
    rw [unquote, hlist]
    change (between? '`' ('`' :: (v.toList ++ ['`']))).map _ = _
    rw [between?_append, Option.map_some, hkept, String.ofList_toList]

/-! ### Where a literal ends -/

section Lengths

variable {rest : List Char} {n : Nat}

theorem quotedLength?_plain {c : Char} (hc : IsPlain c) (h : quotedLength? '"' rest = some n) :
    quotedLength? '"' (c :: rest) = some (1 + n) := by
  obtain ⟨hquote, hbackslash, hbreak⟩ := hc
  rw [quotedLength?, if_neg hquote, if_neg (by simp [hbackslash, hbreak]), h, Option.map_some]
  exact fun _ _ h _ ↦ hbackslash h

theorem quotedLength?_plains {ds : List Char} (hds : ∀ d ∈ ds, IsPlain d)
    (h : quotedLength? '"' rest = some n) :
    quotedLength? '"' (ds ++ rest) = some (ds.length + n) := by
  induction ds with
  | nil => rw [List.nil_append, h, List.length_nil, Nat.zero_add]
  | cons d ds ih =>
    obtain ⟨hd, hds⟩ := List.forall_mem_cons.mp hds
    rw [List.cons_append, quotedLength?_plain hd (ih hds), List.length_cons]
    congr 1
    omega

/-- Behind the first character of an escape there is nothing that could end the literal. -/
theorem Escapes.exists_eq {c : Char} {w : List Char} (h : Escapes c w) :
    ∃ x ds, w = x :: ds ∧ x ≠ '\n' ∧ ∀ d ∈ ds, IsPlain d := by
  cases h with
  | @named letter hmem =>
    refine ⟨letter, [], rfl, ?_, List.forall_mem_nil _⟩
    rintro rfl
    simp [escapes] at hmem
  | octal _ hdigits =>
    have hplain := hdigits.isPlain (by decide)
    obtain ⟨-, x, ds, rfl, -⟩ := hdigits.exists_eq
    obtain ⟨hx, hds⟩ := List.forall_mem_cons.mp hplain
    exact ⟨x, ds, rfl, hx.2.2, hds⟩
  | byte _ hdigits | short hdigits | long hdigits =>
    exact ⟨_, _, rfl, by decide, hdigits.isPlain (by decide)⟩

theorem quotedLength?_writes {c : Char} {w : List Char} (hw : Writes c w)
    (h : quotedLength? '"' rest = some n) :
    quotedLength? '"' (w ++ rest) = some (w.length + n) := by
  cases hw with
  | plain hc => exact quotedLength?_plain hc h
  | escape hescape =>
    obtain ⟨x, ds, rfl, hx, hds⟩ := hescape.exists_eq
    rw [List.cons_append, List.cons_append, quotedLength?, if_neg hx, quotedLength?_plains hds h,
      Option.map_some, List.length_cons, List.length_cons]
    congr 1
    omega

theorem quotedLength?_encodes {cs body : List Char} (h : Encodes cs body) (rest : List Char) :
    quotedLength? '"' (body ++ '"' :: rest) = some (body.length + 1) := by
  induction h with
  | nil => rfl
  | cons hw _ ih =>
    rw [List.append_assoc, quotedLength?_writes hw ih, List.length_append, Nat.add_assoc]

theorem rawLength?_body {cs : List Char} (h : '`' ∉ cs) (rest : List Char) :
    rawLength? (cs ++ '`' :: rest) = some (cs.length + 1) := by
  induction cs with
  | nil => rfl
  | cons c cs ih =>
    obtain ⟨hc, hcs⟩ := not_or.mp (mt List.mem_cons.mpr h)
    rw [List.cons_append, rawLength?, if_neg (Ne.symm hc), ih hcs, Option.map_some,
      List.length_cons]
    congr 1
    omega

end Lengths

/-- A literal is one token. -/
theorem read_of_quotes {v literal : String} (h : Quotes v literal) : ∃ kind quote cs,
    (kind = .str ∨ kind = .rawStr) ∧ (quote = '"' ∨ quote = '`') ∧ literal.toList = quote :: cs ∧
      ∀ rest, read quote (cs ++ rest) = .ok (kind, cs.length) := by
  cases h with
  | @double body hbody =>
    refine ⟨.str, '"', body ++ ['"'], .inl rfl, .inl rfl, by simp, fun rest ↦ ?_⟩
    have hlength := quotedLength?_encodes hbody rest
    rw [List.append_assoc, List.singleton_append, List.length_append]
    change ((quotedLength? '"' (body ++ '"' :: rest)).map _).elim _ _ = _
    rw [hlength]
    rfl
  | raw hquote _ =>
    refine ⟨.rawStr, '`', v.toList ++ ['`'], .inr rfl, .inr rfl, by simp, fun rest ↦ ?_⟩
    have hlength := rawLength?_body hquote rest
    rw [List.append_assoc, List.singleton_append, List.length_append]
    change ((rawLength? (v.toList ++ '`' :: rest)).map _).elim _ _ = _
    rw [hlength]
    rfl

end AlertAudit.Template.Literal
